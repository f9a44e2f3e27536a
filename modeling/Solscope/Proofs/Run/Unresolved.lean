import Solscope.Proofs.Run.Balanced

/-!
# Calls of functions that are not found

Code may jump into a function that is none of the contract's, such as one that stands outside of all
contracts. No call is put on top for it, but the jump out of it ends the innermost call all the
same.

* `CallStack.At.unfound`, `CallStack.At.lost`: the steps of such a function, and the jump out of it.
* `CallStack.unfound_ends_caller`: **the function that called is lost**, and what it does afterwards
  belongs to no call.
-/

namespace Solscope

variable {code : KnownCode} {k : Nat}

/-- A step of frame `k` whose place in the sources is that of no function of the contract. -/
def Step.IsUnfound (code : KnownCode) (k : Nat) (jump : Jump) (s : Step) : Prop :=
  s.depth = k ∧ ∃ mapping span, code.placeOf? s.pc = some (mapping, span) ∧ mapping.jump = jump ∧
    code.program.methodAt? code.contract span.extent = none

/-- A step that enters and leaves no function: a quiet one, or one whose function is not found. -/
def Step.IsPassing (code : KnownCode) (k : Nat) (s : Step) : Prop :=
  s.IsQuiet code k ∨ s.IsUnfound code k .regular

/-! ## One frame -/

namespace Frame

variable {f : Frame} {d : Deployments} {s : Step} {calls : List Call} {mapping : Mapping}
  {span : Span}

/-- An instruction whose function is not found does nothing while an entry is awaited. -/
theorem arrive_unfound (hawaiting : f.isAwaiting = true)
    (hid : code.program.methodAt? code.contract span.extent = none) (mapping : Mapping)
    (height : Nat) : f.arrive code mapping span height = f := by
  have hreceive : f.receive code span height = f := by
    unfold receive
    rw [if_pos hawaiting, hid]
  unfold arrive
  rw [hreceive, if_pos hawaiting]

/-- Such an instruction belongs to no call. -/
theorem follow_unfound_snd (hawaiting : f.isAwaiting = true)
    (hid : code.program.methodAt? code.contract span.extent = none) (mapping : Mapping)
    (height : Nat) : (f.follow code mapping span height).2 = none := by
  have hreceive : f.receive code span height = f := by
    unfold receive
    rw [if_pos hawaiting, hid]
  unfold follow
  rw [hreceive]
  dsimp only
  rw [if_pos hawaiting, if_pos hawaiting]
  cases mapping.jump <;> rfl

namespace Runs

/-- An instruction whose function is not found changes no call, unless it jumps. -/
theorem unfound (h : f.Runs d code calls true) (hs : code.placeOf? s.pc = some (mapping, span))
    (hjump : mapping.jump = .regular)
    (hid : code.program.methodAt? code.contract span.extent = none) :
    (f.advance d s).1.Runs d code calls true ∧ (f.advance d s).2 = none := by
  have hsave := h.save s
  rw [advance_of_placeOf? h.known, hs]
  dsimp only
  refine ⟨?_, follow_unfound_snd hsave.awaiting hid mapping _⟩
  rw [follow_fst, hjump, arrive_unfound hsave.awaiting hid]
  exact hsave

/-- A jump out of a function that is not found ends the innermost call. -/
theorem lost {top : Call} {outer : List Call} (h : f.Runs d code (top :: outer) true)
    (hs : code.placeOf? s.pc = some (mapping, span)) (hjump : mapping.jump = .out)
    (hid : code.program.methodAt? code.contract span.extent = none) :
    (f.advance d s).1.Runs d code (callsAfterReturn code.program outer) true := by
  have hsave := h.save s
  rw [advance_of_placeOf? h.known, hs]
  dsimp only
  rw [follow_fst, hjump, arrive_unfound hsave.awaiting hid]
  cases outer with
  | nil =>
    -- no call is left
    refine ⟨hsave.known, ?_, hsave.awaiting⟩
    unfold Frame.leave
    rw [hsave.calls]
    rfl
  | cons caller others => exact hsave.leave code.program

end Runs

theorem length_callsAfterReturn_le (p : Program) (calls : List Call) :
    (callsAfterReturn p calls).length ≤ calls.length := by
  unfold callsAfterReturn
  split
  · exact Nat.zero_le _
  · rw [List.length_modifyHead]

end Frame

/-! ## The calls of one frame -/

namespace CallStack

variable {c : CallStack} {d : Deployments} {s : Step} {below : List Frame} {calls : List Call}

/-- The topmost frame adds its calls to those of the frames below. -/
theorem depth_concat {f : Frame} (hc : c.frames = below ++ [f]) :
    c.depth = ({ frames := below } : CallStack).depth + f.calls.length := by
  have hfold : ∀ (fs : List Frame) (n : Nat),
      fs.foldr (fun f depth => f.calls.length + depth) n =
        fs.foldr (fun f depth => f.calls.length + depth) 0 + n := by
    intro fs n
    induction fs with
    | nil => simp
    | cons f fs ih => rw [List.foldr_cons, ih, List.foldr_cons, Nat.add_assoc]
  unfold depth
  rw [hc, List.foldr_append, hfold]
  rfl

/-- What a step of a frame reports is what the frame reports. -/
theorem trace_own_snd {f : Frame} {deeper : List Frame} (hc : c.frames = below ++ f :: deeper)
    (hs : s.depth = below.length) :
    (c.trace d s).2 = (f.advance d s).2 := by
  have hlt : s.depth < c.frames.length := by
    rw [hc, hs]
    simp
  have hplace : c.place? s = some (below, f) := by
    rw [place?, if_pos hlt, hc, hs]
    simp
  rw [trace, hplace]

namespace At

/-- A step of a function that is not found changes no call and belongs to none. -/
theorem unfound (hc : c.At d code below calls true) (hs : s.IsUnfound code below.length .regular) :
    (c.trace d s).1.At d code below calls true ∧ (c.trace d s).2 = none := by
  obtain ⟨hown, mapping, span, hplace, hjump, hid⟩ := hs
  obtain ⟨f, deeper, hframes, hf⟩ := hc
  obtain ⟨hf', hnone⟩ := hf.unfound hplace hjump hid
  refine ⟨of_own (trace_own hframes hown) hf', ?_⟩
  rw [trace_own_snd hframes hown]
  exact hnone

theorem passing (hc : c.At d code below calls true) (hs : s.IsPassing code below.length) :
    (c.trace d s).1.At d code below calls true := by
  rcases hs with hquiet | hunfound
  · exact hc.quiet hquiet
  · exact (hc.unfound hunfound).1

/-- While an entry is awaited, steps that enter and leave no function change no call. -/
theorem passings {steps : List Step} (hc : c.At d code below calls true)
    (hsteps : ∀ s ∈ steps, s.IsPassing code below.length) :
    (c.run d steps).At d code below calls true := by
  induction steps generalizing c with
  | nil => exact hc
  | cons s rest ih =>
    have hs := hc.passing (hsteps s List.mem_cons_self)
    exact ih hs fun t ht => hsteps t (List.mem_cons_of_mem _ ht)

/-- A step of the frame that enters and leaves no function belongs to no call. -/
theorem passing_snd (hc : c.At d code below calls true) (hs : s.IsPassing code below.length)
    (hown : s.depth = below.length) : (c.trace d s).2 = none := by
  rcases hs with (hdeep | ⟨-, hplace⟩) | hunfound
  · omega
  · obtain ⟨f, deeper, hframes, hf⟩ := hc
    rw [trace_own_snd hframes hown, Frame.advance_of_placeOf? hf.known, hplace]
  · exact (hc.unfound hunfound).2

/-- The jump out of a function that is not found ends the innermost call of the frame. -/
theorem lost {top : Call} {outer : List Call} (hc : c.At d code below (top :: outer) true)
    (hs : s.IsUnfound code below.length .out) :
    ∃ g : Frame, (c.trace d s).1.frames = below ++ [g] ∧
      g.Runs d code (Frame.callsAfterReturn code.program outer) true := by
  obtain ⟨hown, mapping, span, hplace, hjump, hid⟩ := hs
  obtain ⟨f, hf, hframes⟩ := hc.own hown
  exact ⟨_, hframes, hf.lost hplace hjump hid⟩

end At

/-! ## A call of a function that is not found -/

/--
**A call of a function that is not found ends the call it is made from.** Frame `k` has calls and
awaits no entry. It jumps into a function, no step up to the jump out is that of a function of the
contract, and neither is that jump. Right after the jump in, the function that called is the
innermost one. The jump out ends its call, never leaving the calls as they were, and an entry is
still awaited. From then on, up to the next function of the contract, no step of the frame changes
the calls or belongs to one: not even those of the function that called.
-/
theorem unfound_ends_caller {f : Frame} {top : Call} {outer : List Call}
    (hf : c.frames[k]? = some f) (hcode : d.at? f.codeAddress f.creation = some code)
    (hrunning : f.isAwaiting = false) (hcalls : f.calls = top :: outer) {into out : Step}
    {body : List Step} (hinto : into.Jumps code k .into)
    (hbody : ∀ s ∈ body, s.IsPassing code k) (hout : out.IsUnfound code k .out) :
    let called := (c.trace d into).1
    let back := c.run d (into :: (body ++ [out]))
    (∃ caller, caller.method = top.method ∧
      (called.frames[k]?.map fun f => (f.calls, f.isAwaiting)) = some (caller :: outer, true)) ∧
    (back.frames[k]?.map fun f => (f.calls, f.isAwaiting)) =
      some (Frame.callsAfterReturn code.program outer, true) ∧
    back.depth < called.depth ∧
    ∀ before s after, (∀ t ∈ before ++ s :: after, t.IsPassing code k) →
      ((back.run d (before ++ s :: after)).frames[k]?.map fun f => (f.calls, f.isAwaiting)) =
        some (Frame.callsAfterReturn code.program outer, true) ∧
      (s.depth = k → ((back.run d before).trace d s).2 = none) := by
  intro called back
  obtain ⟨below, deeper, hframes, rfl⟩ := exists_append_of_getElem? hf
  have hat : c.At d code below (top :: outer) false := ⟨f, deeper, hframes, hcode, hcalls, hrunning⟩
  -- what frame `k` has, once it is known to be the frame above those below
  have hview : ∀ {c : CallStack} {calls : List Call}, c.At d code below calls true →
      (c.frames[below.length]?.map fun f => (f.calls, f.isAwaiting)) = some (calls, true) := by
    rintro c calls ⟨g, deeper, hframes, hg⟩
    rw [hframes, List.getElem?_append_right (Nat.le_refl _), Nat.sub_self, List.getElem?_cons_zero,
      Option.map_some, hg.calls, hg.awaiting]
  -- the jump in keeps the function that calls
  obtain ⟨hown, mapping, span, hplace, hjump⟩ := hinto
  obtain ⟨g, hg, hcalled⟩ := hat.own hown
  obtain ⟨caller, hmethod, hcaller⟩ := hg.into hplace hjump
  have hatCalled : called.At d code below (caller :: outer) true := At.of_own hcalled hcaller
  -- nothing happens up to the jump out, which ends the innermost call
  obtain ⟨b, hback, hb⟩ := (hatCalled.passings hbody).lost hout
  have hrun : back = ((called.run d body).trace d out).1 := by
    change (called.run d (body ++ [out])) = _
    rw [run_append]
    rfl
  rw [← hrun] at hback
  have hatBack : back.At d code below (Frame.callsAfterReturn code.program outer) true :=
    ⟨b, [], hback, hb⟩
  refine ⟨⟨caller, hmethod, hview hatCalled⟩, hview hatBack, ?_, ?_⟩
  · have hshorter := Frame.length_callsAfterReturn_le code.program outer
    rw [depth_concat hback, depth_concat hcalled, hb.calls, hcaller.calls, List.length_cons]
    omega
  · intro before s after hsteps
    have hbefore := hatBack.passings fun t ht => hsteps t (List.mem_append_left _ ht)
    exact ⟨hview (hatBack.passings hsteps), hbefore.passing_snd (hsteps s (by simp))⟩

/--
A function of the only contract calls one that stands outside. Its call is lost, and the instruction
it goes on with belongs to no call.
-/
theorem unfound_ends_caller_outside :
    let spanOf (line : Nat) : Span := ⟨0, "a.sol", ⟨line, 0⟩, ⟨line, 9⟩, 10 * line, 9⟩
    let deposit : Method :=
      { name := "deposit", contract := 0, file := 0, kind := .function false .public,
        extent := (spanOf 0).extent, body := none, arguments := [], results := [], locals := [],
        invocations := [], declarations := [], ownSlots := 0, totalSlots := 0 }
    let contract : Contract :=
      { name := "Vault", file := 0, kind := .contract, nodeId := none, linearizedIds := [],
        stateVariables := [], methods := [deposit], parentNames := [] }
    let compiled : CompiledContract :=
      { path := "a.sol", name := "Vault", contract := some 0, creation := {}, runtime := {},
        creationMap := [],
        runtimeMap := [⟨0, some (spanOf 1), .into⟩, ⟨1, some (spanOf 5), .regular⟩,
          ⟨2, some (spanOf 5), .out⟩, ⟨3, some (spanOf 1), .regular⟩] }
    let compilation : Compilation := ⟨{ contracts := [contract] }, {}, [compiled]⟩
    let d : Deployments := { compilations := [compilation], links := [(0, ⟨0, 0⟩)] }
    let step (pc : Nat) : Step :=
      { pc, opcode := 0, depth := 0, address := 0, creation := false, stack := [], memory := [],
        input := [] }
    let f : Frame :=
      { address := 0, codeAddress := 0, creation := false, input := [],
        calls := [{ method := ⟨0, 0⟩, stackOffset := 0 }], isAwaiting := false }
    let c : CallStack := { frames := [f] }
    let back := c.run d [step 0, step 1, step 2]
    (c.trace d (step 0)).1.depth = 1 ∧ back.depth = 0 ∧ (back.trace d (step 3)).2 = none := by
  intro spanOf deposit contract compiled compilation d step f c back
  let code : KnownCode := ⟨compilation, compiled, 0, compiled.runtimeMap⟩
  have hunfound (pc line : Nat) (jump : Jump)
      (hplace : code.placeOf? pc = some (⟨pc, some (spanOf line), jump⟩, spanOf line))
      (hid : code.program.methodAt? code.contract (spanOf line).extent = none) :
      (step pc).IsUnfound code 0 jump := ⟨rfl, _, _, hplace, rfl, hid⟩
  have hbody : ∀ s ∈ [step 1], s.IsPassing code 0 := by
    intro s hs
    obtain rfl := List.mem_singleton.1 hs
    exact .inr (hunfound 1 5 .regular rfl (by decide))
  have hinto : (step 0).Jumps code 0 .into :=
    ⟨rfl, ⟨0, some (spanOf 1), .into⟩, spanOf 1, rfl, rfl⟩
  have hknown : d.at? f.codeAddress f.creation = some code := rfl
  have hlost := unfound_ends_caller (c := c) (k := 0) (f := f) rfl hknown rfl rfl hinto
    hbody (hunfound 2 5 .out rfl (by decide))
  obtain ⟨-, -, hdepth, hafter⟩ := hlost
  have hnext : ∀ t ∈ [] ++ step 3 :: [], t.IsPassing code 0 := by
    intro t ht
    obtain rfl := List.mem_singleton.1 ht
    exact .inr (hunfound 3 1 .regular rfl (by decide))
  obtain ⟨-, hnone⟩ := hafter [] (step 3) [] hnext
  have hcalled : (c.trace d (step 0)).1.depth = 1 := by decide
  have hnil : ∀ c : CallStack, c.run d [] = c := fun _ => rfl
  rw [hcalled] at hdepth
  rw [hnil] at hnone
  exact ⟨hcalled, Nat.lt_one_iff.1 hdepth, hnone rfl⟩

end CallStack

end Solscope
