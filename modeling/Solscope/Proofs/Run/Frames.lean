import Solscope.Run.CallStack

/-!
# What steps do to frames

A step belongs to the frame of its depth. It leaves the frames below alone, ends those above, and
what it does to its own frame depends on the code of that frame only.

* `CallStack.trace_deeper`, `CallStack.trace_own`: a step above a frame, and a step of it.
* `CallStack.trace_of_le`, `CallStack.trace_of_lt`: **every step belongs to a frame or is left
  out.**
* `CallStack.forall_frames_run`: what every frame keeps, all frames have.
* `Frame.calls_enter`, `Frame.calls_update`, `Frame.calls_leave`: what happens to calls.
* `Frame.follow_keeps`: what all of that keeps, an instruction keeps.
* `Frame.agrees_advance`: a step changes nothing of its frame but calls and what is saved.
* `Frame.advance_of_placeOf?`: what a step does to a frame whose code is known.
* `Frame.Runs.into`, `Frame.Runs.entry`, `Frame.Runs.out`: which calls there are after a step.
-/

namespace Solscope

/-- The mapping of an instruction with a place in the sources. -/
def KnownCode.placeOf? (code : KnownCode) (pc : Nat) : Option (Mapping × Span) := do
  let mapping ← code.sourceMap.get? pc
  return (mapping, ← mapping.span)

/-! ## Stacks of frames -/

namespace CallStack

variable {c : CallStack} {d : Deployments} {s : Step}

/-- The frames after some steps. -/
def run (d : Deployments) (c : CallStack) (steps : List Step) : CallStack :=
  steps.foldl (fun c s => (c.trace d s).1) c

theorem run_cons (d : Deployments) (c : CallStack) (s : Step) (rest : List Step) :
    c.run d (s :: rest) = (c.trace d s).1.run d rest := rfl

theorem run_append (d : Deployments) (c : CallStack) (first second : List Step) :
    c.run d (first ++ second) = (c.run d first).run d second := List.foldl_append ..

/-- The frames that a run from the start has led to. -/
abbrev reached (d : Deployments) (steps : List Step) : CallStack := ({} : CallStack).run d steps

theorem reached_concat (d : Deployments) (steps : List Step) (s : Step) :
    reached d (steps ++ [s]) = ((reached d steps).trace d s).1 := run_append d {} steps [s]

variable {below deeper : List Frame} {f : Frame}

/-- A step above a frame leaves it and the frames below alone. -/
theorem trace_deeper (hc : c.frames = below ++ f :: deeper) (hs : below.length < s.depth) :
    ∃ deeper', (c.trace d s).1.frames = below ++ f :: deeper' := by
  rw [trace]
  -- the step is left out, has a frame, or opens one
  unfold place?
  split
  · exact ⟨deeper, hc⟩
  · rename_i kept g hplace
    suffices ∃ deeper', kept = below ++ f :: deeper' by
      obtain ⟨deeper', rfl⟩ := this
      exact ⟨deeper' ++ [(g.advance d s).1], by simp⟩
    split at hplace
    · obtain ⟨_, -, heq⟩ := Option.map_eq_some_iff.1 hplace
      obtain ⟨rfl, -⟩ := Prod.mk.inj heq
      refine ⟨deeper.take (s.depth - below.length - 1), ?_⟩
      obtain ⟨n, hn⟩ : ∃ n, s.depth - below.length = n + 1 := ⟨s.depth - below.length - 1, by omega⟩
      rw [hc, List.take_append, List.take_of_length_le (by omega), hn, List.take_succ_cons]
      simp
    · split at hplace
      · obtain ⟨rfl, -⟩ := Prod.mk.inj (Option.some.inj hplace)
        exact ⟨deeper, hc⟩
      · cases hplace

/-- A step of a frame ends the frames above. -/
theorem trace_own (hc : c.frames = below ++ f :: deeper) (hs : s.depth = below.length) :
    (c.trace d s).1.frames = below ++ [(f.advance d s).1] := by
  have hlt : s.depth < c.frames.length := by rw [hc]; simp [hs]
  have hplace : c.place? s = some (below, f) := by
    rw [place?, if_pos hlt, hc, hs]
    simp
  rw [trace, hplace]

/-! ### Every step -/

/-- The frame that a step belongs to if it is not left out. -/
def frameFor (c : CallStack) (s : Step) : Frame :=
  c.frames[s.depth]?.getD (.opened s (c.library.getD s.address))

/-- A step that has a frame, or opens one, ends the frames above. -/
theorem trace_of_le (h : s.depth ≤ c.frames.length) :
    (c.trace d s).1 =
      ⟨c.frames.take s.depth ++ [((c.frameFor s).advance d s).1], libraryOf s⟩ := by
  have hplace : c.place? s = some (c.frames.take s.depth, c.frameFor s) := by
    unfold place? frameFor
    rcases Nat.lt_or_eq_of_le h with hlt | heq
    · rw [if_pos hlt, List.getElem?_eq_getElem hlt]
      rfl
    · rw [if_neg (by omega), if_pos heq, List.take_of_length_le (by omega),
        List.getElem?_eq_none (by omega)]
      rfl
  rw [trace, hplace]

/-- A step that leaves out frames is left out itself. -/
theorem trace_of_lt (h : c.frames.length < s.depth) :
    c.trace d s = ({ c with library := none }, none) := by
  have hplace : c.place? s = none := by
    unfold place?
    rw [if_neg (by omega), if_neg (by omega)]
  rw [trace, hplace]

theorem length_trace (h : s.depth ≤ c.frames.length) :
    (c.trace d s).1.frames.length = s.depth + 1 := by
  rw [trace_of_le h]
  simp [h]

/-- A frame is there after a step that is not one of a frame below, if it was there or is opened. -/
theorem lt_length_trace_iff {k : Nat} :
    k < (c.trace d s).1.frames.length ↔
      k ≤ s.depth ∧ (k < c.frames.length ∨ s.depth ≤ c.frames.length) := by
  rcases Nat.lt_or_ge c.frames.length s.depth with hlt | hle
  · rw [trace_of_lt hlt]
    dsimp only
    omega
  · rw [length_trace hle]
    omega

/-- Frames below a step stay as they are. -/
theorem getElem?_trace_of_lt {k : Nat} (hk : k < s.depth) :
    (c.trace d s).1.frames[k]? = c.frames[k]? := by
  rcases Nat.lt_or_ge c.frames.length s.depth with hlt | hle
  · rw [trace_of_lt hlt]
  · rw [trace_of_le hle, List.getElem?_append_left (by rw [List.length_take]; omega),
      List.getElem?_take_of_lt hk]

/-- The topmost frame after a step is the one that the step belongs to. -/
theorem getElem?_trace_self (h : s.depth ≤ c.frames.length) :
    (c.trace d s).1.frames[s.depth]? = some ((c.frameFor s).advance d s).1 := by
  rw [trace_of_le h, List.getElem?_append_right (by rw [List.length_take]; omega),
    List.length_take, Nat.min_eq_left h, Nat.sub_self]
  rfl

/-- What holds of opened frames and is kept by their steps holds of all frames after a step. -/
theorem forall_frames_trace {P : Frame → Prop} (hopened : ∀ s address, P (.opened s address))
    (hadvance : ∀ f s, P f → P (f.advance d s).1) (h : ∀ f ∈ c.frames, P f) (s : Step) :
    ∀ f ∈ (c.trace d s).1.frames, P f := by
  intro f hf
  rcases Nat.lt_or_ge c.frames.length s.depth with hlt | hle
  · rw [trace_of_lt hlt] at hf
    exact h f hf
  · rw [trace_of_le hle] at hf
    rcases List.mem_append.1 hf with hf | hf
    · exact h f (List.mem_of_mem_take hf)
    · obtain rfl := List.mem_singleton.1 hf
      refine hadvance _ s ?_
      unfold frameFor
      cases hframe : c.frames[s.depth]? with
      | none => exact hopened s _
      | some f => exact h f (List.mem_of_getElem? hframe)

theorem forall_frames_run {P : Frame → Prop} (hopened : ∀ s address, P (.opened s address))
    (hadvance : ∀ f s, P f → P (f.advance d s).1) (h : ∀ f ∈ c.frames, P f) (steps : List Step) :
    ∀ f ∈ (c.run d steps).frames, P f := by
  induction steps generalizing c with
  | nil => exact h
  | cons s rest ih => exact ih (forall_frames_trace hopened hadvance h s)

end CallStack

/-! ## One frame -/

namespace Frame

variable {f : Frame} {d : Deployments} {code : KnownCode} {s : Step} {p : Program}

@[simp] theorem codeAddress_save (f : Frame) (s : Step) :
    (f.save s).codeAddress = f.codeAddress := by
  unfold save; split <;> rfl

@[simp] theorem creation_save (f : Frame) (s : Step) : (f.save s).creation = f.creation := by
  unfold save; split <;> rfl

@[simp] theorem calls_save (f : Frame) (s : Step) : (f.save s).calls = f.calls := by
  unfold save; split <;> rfl

@[simp] theorem isAwaiting_save (f : Frame) (s : Step) : (f.save s).isAwaiting = f.isAwaiting := by
  unfold save; split <;> rfl

@[simp] theorem method_moveTo (m : Method) (file : Nat) (position : Position) (c : Call) :
    (moveTo p m file position c).method = c.method := by
  unfold moveTo
  dsimp only
  split <;> rfl

@[simp] theorem stackOffset_moveTo (m : Method) (file : Nat) (position : Position) (c : Call) :
    (moveTo p m file position c).stackOffset = c.stackOffset := by
  unfold moveTo
  dsimp only
  split <;> rfl

@[simp] theorem mapping_moveTo (m : Method) (file : Nat) (position : Position) (c : Call) :
    (moveTo p m file position c).mapping = c.mapping := by
  unfold moveTo
  dsimp only
  split <;> rfl

/-- Entering a function keeps the calls, or puts one on top behind the slots of its caller. -/
theorem calls_enter (f : Frame) (p : Program) (id : MethodId) (height : Nat) :
    (f.enter p id height).calls = f.calls ∨
      ∃ c, (f.enter p id height).calls = c :: f.calls ∧ c.method = id ∧
        (f.calls = [] → c.stackOffset = 0) ∧
        ∀ caller outer, f.calls = caller :: outer →
          c.stackOffset = caller.stackOffset + slotsOf p caller.method + 1 := by
  unfold enter
  split
  · rename_i hcalls
    refine .inr ⟨_, by rw [hcalls], rfl, fun _ => rfl, fun caller outer hcons => ?_⟩
    rw [hcalls] at hcons
    cases hcons
  · rename_i top outer hcalls
    split
    · split <;> exact .inl rfl
    · refine .inr ⟨_, by rw [hcalls], rfl, fun hnil => ?_, fun caller outer' hcons => ?_⟩
      · rw [hcalls] at hnil
        cases hnil
      · rw [hcalls] at hcons
        obtain ⟨rfl, -⟩ := List.cons.inj hcons
        rfl

/-- Moving to an instruction changes the innermost call, but neither its method nor its slots. -/
theorem calls_update (f : Frame) (p : Program) (mapping : Mapping) (span : Span) :
    f.calls = [] ∧ (f.update p mapping span).calls = [] ∨
      ∃ top top' outer, f.calls = top :: outer ∧
        (f.update p mapping span).calls = top' :: outer ∧ top'.method = top.method ∧
        top'.stackOffset = top.stackOffset ∧ top'.mapping = some mapping := by
  unfold update
  split
  · exact .inl ⟨‹_›, ‹_›⟩
  · rename_i top outer hcalls
    dsimp only
    split
    · exact .inr ⟨top, _, outer, hcalls, rfl, rfl, rfl, rfl⟩
    · exact .inr ⟨top, _, outer, hcalls, rfl, method_moveTo .., stackOffset_moveTo ..,
        mapping_moveTo ..⟩

/-- Leaving a call leaves the others, which are moved from their instruction, or none at all. -/
theorem calls_leave (f : Frame) (p : Program) :
    (f.leave p).calls = [] ∨
      ∃ top caller outer, f.calls = top :: caller :: outer ∧
        (f.leave p).calls = { caller with mapping := none } :: outer := by
  unfold leave
  dsimp only
  split
  · rename_i top caller outer hcalls
    split
    · exact .inl rfl
    · exact .inr ⟨top, caller, outer, hcalls, rfl⟩
  · rw [ite_self]
    exact .inl rfl

/-- Only a function that is found in the code is entered. -/
theorem calls_receive (f : Frame) (code : KnownCode) (span : Span) (height : Nat) :
    (f.receive code span height).calls = f.calls ∨
      ∃ id, code.program.methodAt? code.contract span.extent = some id ∧
        (f.receive code span height).calls = (f.enter code.program id height).calls := by
  unfold receive
  split
  · split
    · exact .inr ⟨_, ‹_›, rfl⟩
    · exact .inl rfl
  · exact .inl rfl

/-- A frame at an instruction that has a place in the sources, before it jumps. -/
def arrive (f : Frame) (code : KnownCode) (mapping : Mapping) (span : Span) (height : Nat) :
    Frame :=
  if (f.receive code span height).isAwaiting then f.receive code span height
  else (f.receive code span height).update code.program mapping span

/-- A jump in or out only touches the calls and what is awaited. -/
theorem follow_fst (f : Frame) (code : KnownCode) (mapping : Mapping) (span : Span) (height : Nat) :
    (f.follow code mapping span height).1 = match mapping.jump with
      | .into => { f.arrive code mapping span height with isAwaiting := true }
      | .out => (f.arrive code mapping span height).leave code.program
      | .regular => f.arrive code mapping span height := by
  unfold follow
  dsimp only
  cases mapping.jump <;> rfl

/--
What entering functions of the code, moving to instructions and leaving keep of the calls, following
an instruction keeps too.
-/
theorem follow_keeps {Q : List Call → Prop}
    (henter : ∀ (f : Frame) extent id height,
      code.program.methodAt? code.contract extent = some id → Q f.calls →
        Q (f.enter code.program id height).calls)
    (hupdate : ∀ (f : Frame) mapping span, Q f.calls →
      Q (f.update code.program mapping span).calls)
    (hleave : ∀ f : Frame, Q f.calls → Q (f.leave code.program).calls) (h : Q f.calls)
    (mapping : Mapping) (span : Span) (height : Nat) :
    Q (f.follow code mapping span height).1.calls := by
  have hreceive : Q (f.receive code span height).calls := by
    rcases f.calls_receive code span height with hkept | ⟨id, hid, hcalls⟩
    · rwa [hkept]
    · rw [hcalls]
      exact henter f span.extent id height hid h
  have harrive : Q (f.arrive code mapping span height).calls := by
    unfold arrive
    split
    · exact hreceive
    · exact hupdate _ mapping span hreceive
  rw [follow_fst]
  cases mapping.jump with
  | into => exact harrive
  | out => exact hleave _ harrive
  | regular => exact harrive

/-- Whether frames run the same code for the same account with the same input. -/
structure SameOrigin (f g : Frame) : Prop where
  address : g.address = f.address
  codeAddress : g.codeAddress = f.codeAddress
  creation : g.creation = f.creation
  input : g.input = f.input

theorem SameOrigin.refl (f : Frame) : f.SameOrigin f := ⟨rfl, rfl, rfl, rfl⟩

theorem SameOrigin.trans {f g h : Frame} (hfg : f.SameOrigin g) (hgh : g.SameOrigin h) :
    f.SameOrigin h :=
  ⟨hgh.address.trans hfg.address, hgh.codeAddress.trans hfg.codeAddress,
    hgh.creation.trans hfg.creation, hgh.input.trans hfg.input⟩

theorem sameOrigin_save (f : Frame) (s : Step) : f.SameOrigin (f.save s) := by
  unfold save
  split <;> exact ⟨rfl, rfl, rfl, rfl⟩

/-- Whether frames agree in all but their calls and what belongs to these. -/
structure Agrees (f g : Frame) : Prop extends f.SameOrigin g where
  stack : g.stack = f.stack
  memory : g.memory = f.memory

theorem Agrees.refl (f : Frame) : f.Agrees f := ⟨.refl f, rfl, rfl⟩

theorem Agrees.trans {f g h : Frame} (hfg : f.Agrees g) (hgh : g.Agrees h) : f.Agrees h :=
  ⟨hfg.toSameOrigin.trans hgh.toSameOrigin, hgh.stack.trans hfg.stack,
    hgh.memory.trans hfg.memory⟩

theorem agrees_enter (f : Frame) (p : Program) (id : MethodId) (height : Nat) :
    f.Agrees (f.enter p id height) := by
  unfold enter
  split
  · exact ⟨⟨rfl, rfl, rfl, rfl⟩, rfl, rfl⟩
  · split
    · split <;> exact ⟨⟨rfl, rfl, rfl, rfl⟩, rfl, rfl⟩
    · exact ⟨⟨rfl, rfl, rfl, rfl⟩, rfl, rfl⟩

theorem agrees_receive (f : Frame) (code : KnownCode) (span : Span) (height : Nat) :
    f.Agrees (f.receive code span height) := by
  unfold receive
  split
  · split
    · have henter := f.agrees_enter code.program ‹_› height
      exact ⟨⟨henter.address, henter.codeAddress, henter.creation, henter.input⟩, henter.stack,
        henter.memory⟩
    · exact .refl f
  · exact .refl f

theorem agrees_update (f : Frame) (p : Program) (mapping : Mapping) (span : Span) :
    f.Agrees (f.update p mapping span) := by
  unfold update
  split
  · exact .refl f
  · dsimp only
    split <;> exact ⟨⟨rfl, rfl, rfl, rfl⟩, rfl, rfl⟩

theorem agrees_arrive (f : Frame) (code : KnownCode) (mapping : Mapping) (span : Span)
    (height : Nat) : f.Agrees (f.arrive code mapping span height) := by
  have hreceive := f.agrees_receive code span height
  unfold arrive
  split
  · exact hreceive
  · exact hreceive.trans (agrees_update _ _ _ _)

theorem agrees_follow (f : Frame) (code : KnownCode) (mapping : Mapping) (span : Span)
    (height : Nat) : f.Agrees (f.follow code mapping span height).1 := by
  have harrive := f.agrees_arrive code mapping span height
  rw [follow_fst]
  split <;> exact ⟨⟨harrive.address, harrive.codeAddress, harrive.creation, harrive.input⟩,
    harrive.stack, harrive.memory⟩

/-- **A step changes nothing of its frame but calls and what is saved.** -/
theorem agrees_advance (f : Frame) (d : Deployments) (s : Step) :
    (f.save s).Agrees (f.advance d s).1 := by
  unfold advance
  dsimp only
  split
  · exact agrees_follow _ _ _ _ _
  · exact .refl _

theorem sameOrigin_advance (f : Frame) (d : Deployments) (s : Step) :
    f.SameOrigin (f.advance d s).1 :=
  (f.sameOrigin_save s).trans (f.agrees_advance d s).toSameOrigin

/-- What a step does to a frame whose code is known. -/
theorem advance_of_placeOf? (hcode : d.at? f.codeAddress f.creation = some code) (s : Step) :
    f.advance d s = match code.placeOf? s.pc with
      | some (mapping, span) => (f.save s).follow code mapping span s.stack.length
      | none => (f.save s, none) := by
  unfold advance KnownCode.placeOf?
  simp only [codeAddress_save, creation_save, hcode]
  cases hget : code.sourceMap.get? s.pc with
  | none => simp [hget]
  | some mapping => cases hspan : mapping.span <;> simp [hget, hspan]

/-- What an instruction of a function does while no entry is awaited. -/
theorem follow_running (h : f.isAwaiting = false) (code : KnownCode) (mapping : Mapping)
    (span : Span) (height : Nat) :
    (f.follow code mapping span height).1 = match mapping.jump with
      | .into => { f.update code.program mapping span with isAwaiting := true }
      | .out => (f.update code.program mapping span).leave code.program
      | .regular => f.update code.program mapping span := by
  have hreceive : f.receive code span height = f := by rw [receive, h]; rfl
  have harrive : f.arrive code mapping span height = f.update code.program mapping span := by
    rw [arrive, hreceive, h]
    rfl
  rw [follow_fst, harrive]

/--
The calls that are left when the call on top of them returns: the instruction of the innermost one
is forgotten, and a constructor that is left alone is dropped.
-/
def callsAfterReturn (p : Program) (calls : List Call) : List Call :=
  if isLoneConstructor p calls then [] else calls.modifyHead fun c => { c with mapping := none }

/-- What is known of a frame: its code, its calls, and whether it awaits the entry of a function. -/
structure Runs (d : Deployments) (code : KnownCode) (calls : List Call) (awaiting : Bool)
    (f : Frame) : Prop where
  known : d.at? f.codeAddress f.creation = some code
  calls : f.calls = calls
  awaiting : f.isAwaiting = awaiting

namespace Runs

variable {calls outer : List Call} {top : Call} {awaiting : Bool} {mapping : Mapping} {span : Span}

theorem save (h : f.Runs d code calls awaiting) (s : Step) :
    (f.save s).Runs d code calls awaiting :=
  ⟨by simpa using h.known, by simpa using h.calls, by simpa using h.awaiting⟩

/-- Moving to an instruction changes the innermost call, but not its method. -/
theorem update (h : f.Runs d code (top :: outer) awaiting) (p : Program) (mapping : Mapping)
    (span : Span) :
    ∃ top', top'.method = top.method ∧
      (f.update p mapping span).Runs d code (top' :: outer) awaiting := by
  unfold Frame.update
  rw [h.calls]
  dsimp only
  split
  · exact ⟨{ top with mapping := some mapping }, rfl, h.known, rfl, h.awaiting⟩
  · rename_i m _
    exact ⟨moveTo p m span.file span.start { top with mapping := some mapping },
      method_moveTo .., h.known, rfl, h.awaiting⟩

/-- A function is entered on top of a call that is not about to enter it itself. -/
theorem enter (h : f.Runs d code (top :: outer) awaiting) (p : Program) {id : MethodId}
    (hfresh : top.entered = true ∨ top.method ≠ id) (height : Nat) :
    ∃ call, (f.enter p id height).Runs d code (call :: top :: outer) awaiting := by
  have hnew : ¬ (top.method = id ∧ (!top.entered) = true) := by
    rintro ⟨hid, hentered⟩
    rcases hfresh with hfresh | hfresh
    · simp [hfresh] at hentered
    · exact hfresh hid
  unfold Frame.enter
  rw [h.calls]
  dsimp only
  rw [if_neg hnew]
  exact ⟨_, h.known, rfl, h.awaiting⟩

/-- Leaving a call leaves the others, unless one is left that is that of a constructor. -/
theorem leave {inner : Call} (h : f.Runs d code (inner :: top :: outer) awaiting) (p : Program) :
    (f.leave p).Runs d code (callsAfterReturn p (top :: outer)) awaiting := by
  have hlone : isLoneConstructor p ({ top with mapping := none } :: outer) =
      isLoneConstructor p (top :: outer) := by cases outer <;> rfl
  refine ⟨h.known, ?_, h.awaiting⟩
  simp only [Frame.leave, h.calls, callsAfterReturn, hlone]
  rfl

/-- An instruction without a place in the sources changes no call. -/
theorem quiet (h : f.Runs d code calls awaiting) (hs : code.placeOf? s.pc = none) :
    (f.advance d s).1.Runs d code calls awaiting := by
  rw [advance_of_placeOf? h.known, hs]
  exact h.save s

/-- An instruction of a function moves the innermost call. -/
theorem regular (h : f.Runs d code (top :: outer) false)
    (hs : code.placeOf? s.pc = some (mapping, span)) (hjump : mapping.jump = .regular) :
    ∃ top', top'.method = top.method ∧ (f.advance d s).1.Runs d code (top' :: outer) false := by
  obtain ⟨top', hmethod, hupdate⟩ := (h.save s).update code.program mapping span
  refine ⟨top', hmethod, ?_⟩
  rw [advance_of_placeOf? h.known, hs]
  dsimp only
  rw [follow_running (h.save s).awaiting, hjump]
  exact hupdate

/-- After a jump into a function its entry is awaited. -/
theorem into (h : f.Runs d code (top :: outer) false)
    (hs : code.placeOf? s.pc = some (mapping, span)) (hjump : mapping.jump = .into) :
    ∃ top', top'.method = top.method ∧ (f.advance d s).1.Runs d code (top' :: outer) true := by
  obtain ⟨top', hmethod, hupdate⟩ := (h.save s).update code.program mapping span
  refine ⟨top', hmethod, ?_⟩
  rw [advance_of_placeOf? h.known, hs]
  dsimp only
  rw [follow_running (h.save s).awaiting, hjump]
  exact ⟨hupdate.known, hupdate.calls, rfl⟩

/-- The awaited entry of a function puts a call on top. -/
theorem entry (h : f.Runs d code (top :: outer) true)
    (hs : code.placeOf? s.pc = some (mapping, span)) (hjump : mapping.jump = .regular)
    {id : MethodId}
    (hid : code.program.methodAt? code.contract span.extent = some id)
    (hfresh : top.entered = true ∨ top.method ≠ id) :
    ∃ call, (f.advance d s).1.Runs d code (call :: top :: outer) false := by
  obtain ⟨call, henter⟩ := (h.save s).enter code.program hfresh s.stack.length
  have hreceive : ({ (f.save s).enter code.program id s.stack.length with isAwaiting := false } :
      Frame).Runs d code (call :: top :: outer) false := ⟨henter.known, henter.calls, rfl⟩
  obtain ⟨call', -, hupdate⟩ := hreceive.update code.program mapping span
  refine ⟨call', ?_⟩
  rw [advance_of_placeOf? h.known, hs]
  simpa [follow, receive, h.awaiting, hid, hjump] using hupdate

/-- A jump out of a function ends the innermost call. -/
theorem out {inner : Call} (h : f.Runs d code (inner :: top :: outer) false)
    (hs : code.placeOf? s.pc = some (mapping, span)) (hjump : mapping.jump = .out) :
    (f.advance d s).1.Runs d code (callsAfterReturn code.program (top :: outer)) false := by
  obtain ⟨inner', -, hupdate⟩ := (h.save s).update code.program mapping span
  have hleave := hupdate.leave code.program
  rw [advance_of_placeOf? h.known, hs]
  dsimp only
  rw [follow_running (h.save s).awaiting, hjump]
  exact hleave

end Runs

end Frame

end Solscope
