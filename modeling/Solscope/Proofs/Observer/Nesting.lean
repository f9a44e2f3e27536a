import Mathlib.Data.List.Forall2
import Solscope.Proofs.Observer.Hooks

/-!
# Frames of the machine and frames of the call stack

The call stack learns of a frame from the first instruction in it, and of its end from an
instruction of a frame below. In between it is behind: a frame that was opened is not there yet, and
frames that have ended still are.

* `Phase`: how far behind the call stack is after each kind of hook.
* `Phase.trace`, `Phase.leave`: an instruction makes up for that, the end of an inner frame does
  not.
* `InStep.enter`, `InStep.step`, `InStep.leave`: what a hook makes of that.
* `Observer.inStep_run`: the frames stay in step.
* `Observer.frames_in_step`: **after every instruction there is one frame for each open frame of the
  machine**, and only the end of the outermost one makes everything start over.
-/

namespace Solscope

/-! ## The call stack -/

namespace CallStack

variable {c : CallStack} {d : Deployments} {s : Step} {own : List Frame}

/-- A step of a frame that is there leaves it on top. -/
theorem trace_of_kept {g : Frame} {ended : List Frame}
    (hc : c.frames = own.reverse ++ g :: ended) (hs : s.depth = own.length) :
    (c.trace d s).1 = ⟨((g.advance d s).1 :: own).reverse, libraryOf s⟩ := by
  have hlength : own.reverse.length = s.depth := by rw [List.length_reverse, hs]
  have hle : s.depth ≤ c.frames.length := by
    rw [hc, List.length_append, hlength]
    omega
  have hframe : c.frameFor s = g := by
    rw [frameFor, hc, List.getElem?_append_right (Nat.le_of_eq hlength), hlength, Nat.sub_self]
    rfl
  rw [trace_of_le hle, hframe, hc, List.take_left' hlength, List.reverse_cons]

/-- A step of the next frame opens it. -/
theorem trace_of_next (hc : c.frames = own.reverse) (hs : s.depth = own.length) :
    (c.trace d s).1 =
      ⟨(((Frame.opened s (c.library.getD s.address)).advance d s).1 :: own).reverse,
        libraryOf s⟩ := by
  have hlength : c.frames.length = s.depth := by rw [hc, List.length_reverse, hs]
  have hframe : c.frameFor s = .opened s (c.library.getD s.address) := by
    rw [frameFor, List.getElem?_eq_none (Nat.le_of_eq hlength)]
    rfl
  rw [trace_of_le (Nat.le_of_eq hlength.symm), hframe,
    List.take_of_length_le (Nat.le_of_eq hlength), hc, List.reverse_cons]

theorem isSome_place? (h : s.depth ≤ c.frames.length) : (c.place? s).isSome := by
  unfold place?
  rcases Nat.lt_or_eq_of_le h with hlt | heq
  · rw [if_pos hlt, List.getElem?_eq_getElem hlt]
    rfl
  · rw [if_neg (by omega), if_pos heq]
    rfl

end CallStack

/-! ## Frames of one's own -/

/-- The account whose code the call stack expects in a frame that the instruction opens. -/
def Machine.delegate? (m : Machine) : Option Address := CallStack.libraryOf (m.toStep 0 false [])

namespace Activation

/-- What the call stack opens for a frame of the machine if a given instruction is the first one. -/
def frameFrom (a : Activation) (first : Machine) : Frame :=
  { address := first.address
    codeAddress := (a.opener.bind Machine.delegate?).getD first.address
    creation := a.creation
    input := first.frameInput }

/-- What the call stack has opened for a frame of the machine, once it came to an instruction. -/
def opened? (a : Activation) : Option Frame := a.visited.getLast?.map a.frameFrom

theorem opened?_visit (a : Activation) (m : Machine) :
    (a.visit m).opened? = some (a.opened?.getD (a.frameFrom m)) := a.map_getLast?_visit m _

theorem input?_of_opened? {a : Activation} (h : a.opened? = none) : a.input? = none := by
  have hnone : a.visited.getLast? = none := Option.map_eq_none_iff.1 h
  rw [input?, hnone]
  rfl

/-- The frame that the observer of the machine keeps for an open one. -/
def openFrame (a : Activation) : OpenFrame := ⟨a.creation, a.input?⟩

end Activation

namespace Observer

/--
What a hook makes of the call stack's frames if every open frame of the machine has one of its own:
it is opened by the first instruction of that frame, changed by no instruction but those of that
frame, and dropped when that frame is closed.
-/
def ownAfter (o : Observer) (own : List (Option Frame)) : Hook → List (Option Frame)
  | .enter _ => none :: own
  | .step _ m _ =>
    match o.frames with
    | [] => own
    | f :: outer =>
      let event := m.toStep outer.length f.creation (f.input.getD m.frameInput)
      let opened := Frame.opened event (o.session.calls.library.getD m.address)
      own.modifyHead fun g => some ((g.getD opened).advance (o.prepared f m).deployments event).1
  | .leave => own.tail

/-- The frames of their own that the open frames of the machine have, the innermost one first. -/
def ownFrames (o : Observer) (hooks : List Hook) : List (Option Frame) :=
  (hooks.foldl (fun now hook => (now.1.handle hook, now.1.ownAfter now.2 hook)) (o, [])).2

theorem ownFrames_concat (o : Observer) (hooks : List Hook) (hook : Hook) :
    o.ownFrames (hooks ++ [hook]) = (o.run hooks).ownAfter (o.ownFrames hooks) hook := by
  have hrun : ∀ (hooks : List Hook) (now : Observer × List (Option Frame)),
      (hooks.foldl (fun now hook => (now.1.handle hook, now.1.ownAfter now.2 hook)) now).1 =
        now.1.run hooks := by
    intro hooks
    induction hooks with
    | nil => exact fun _ => rfl
    | cons hook rest ih => exact fun now => ih _
  rw [ownFrames, List.foldl_append, List.foldl_cons, List.foldl_nil, hrun]
  rfl

end Observer

/-! ## In step -/

/-- How far the call stack is behind, by the last hook. -/
inductive Phase (c : CallStack) (running : List Activation) (own : List (Option Frame))
    (last : Option Hook) : Prop
  /-- No frame is open. -/
  | outside (hcalls : c = {}) (hrunning : running = [])
  /-- A frame was opened, which is not there yet. -/
  | entered (known : List Frame) (hrunning : running ≠ [])
      (hlast : last.any Hook.isStep = false) (hown : own = none :: known.map some)
      (hframes : c.frames = known.reverse)
      (hlibrary : c.library = (running.head?.bind (·.opener)).bind Machine.delegate?)
  /-- After an instruction the frames are those of the machine. -/
  | stepped (known : List Frame) (hrunning : running ≠ []) (hown : own = known.map some)
      (hframes : c.frames = known.reverse)
      (hlibrary : c.library = (running.head?.bind (·.visited.head?)).bind Machine.delegate?)
  /-- Frames were closed, and some that have ended may still be there. -/
  | left (known ended : List Frame) (hrunning : running ≠ [])
      (hlast : last.any Hook.isStep = false) (hown : own = known.map some)
      (hframes : c.frames = known.reverse ++ ended)

/--
A step of the innermost open frame reaches the frame of its own, which is opened if that frame has
none yet, by the code that its opener delegates to. Frames that are left over are gone.
-/
theorem Phase.trace {c : CallStack} {d : Deployments} {s : Step} {a : Activation}
    {outer : List Activation} {g : Option Frame} {rest : List (Option Frame)} {last : Option Hook}
    (h : Phase c (a :: outer) (g :: rest) last) (hs : s.depth = rest.length) :
    ∃ below, rest = below.map some ∧
      (c.trace d s).1 =
        ⟨(((g.getD (.opened s (c.library.getD s.address))).advance d s).1 :: below).reverse,
          CallStack.libraryOf s⟩ ∧
      (g = none → c.library = a.opener.bind Machine.delegate?) := by
  rcases h with ⟨-, hrunning⟩ | ⟨known, -, -, hown, hframes, hlibrary⟩ |
    ⟨known, -, hown, hframes, -⟩ | ⟨known, ended, -, -, hown, hframes⟩
  · cases hrunning
  -- only a frame that has just been opened is not there yet
  · obtain ⟨rfl, rfl⟩ := List.cons.inj hown
    rw [List.length_map] at hs
    exact ⟨known, rfl, CallStack.trace_of_next hframes hs, fun _ => hlibrary⟩
  · obtain ⟨top, below, rfl, rfl, rfl⟩ := List.map_eq_cons_iff.1 hown.symm
    rw [List.length_map] at hs
    rw [List.reverse_cons] at hframes
    exact ⟨below, rfl, CallStack.trace_of_kept hframes hs, fun hnone => nomatch hnone⟩
  · obtain ⟨top, below, rfl, rfl, rfl⟩ := List.map_eq_cons_iff.1 hown.symm
    rw [List.length_map] at hs
    rw [List.reverse_cons, List.append_assoc] at hframes
    exact ⟨below, rfl, CallStack.trace_of_kept hframes hs, fun hnone => nomatch hnone⟩

/-- Once an inner frame is closed, its own one is left over if it was there. -/
theorem Phase.leave {c : CallStack} {a b : Activation} {outer : List Activation} {g : Option Frame}
    {rest : List (Option Frame)} {last : Option Hook}
    (h : Phase c (a :: b :: outer) (g :: rest) last) :
    Phase c (b :: outer) rest (some .leave) := by
  rcases h with ⟨-, hrunning⟩ | ⟨known, -, -, hown, hframes, -⟩ | ⟨known, -, hown, hframes, -⟩ |
    ⟨known, ended, -, -, hown, hframes⟩
  · cases hrunning
  · obtain ⟨-, rfl⟩ := List.cons.inj hown
    refine .left known [] (List.cons_ne_nil _ _) rfl rfl ?_
    rw [List.append_nil]
    exact hframes
  · obtain ⟨top, below, rfl, rfl, rfl⟩ := List.map_eq_cons_iff.1 hown.symm
    refine .left below [top] (List.cons_ne_nil _ _) rfl rfl ?_
    rw [← List.reverse_cons]
    exact hframes
  · obtain ⟨top, below, rfl, rfl, rfl⟩ := List.map_eq_cons_iff.1 hown.symm
    refine .left below (top :: ended) (List.cons_ne_nil _ _) rfl rfl ?_
    rw [List.reverse_cons, List.append_assoc] at hframes
    exact hframes

/--
An instruction makes of the frame of its own what the first instruction opened, and changes nothing
of what that frame is. If there is none yet, this instruction is the first one.
-/
theorem Activation.sameOrigin_step {a : Activation} {g : Option Frame}
    (hg : Option.Rel Frame.SameOrigin a.opened? g) {library : Option Address}
    (hlibrary : g = none → library = a.opener.bind Machine.delegate?) (d : Deployments)
    (m : Machine) (depth : Nat) :
    let event := m.toStep depth a.creation (a.input?.getD m.frameInput)
    (a.opened?.getD (a.frameFrom m)).SameOrigin
      ((g.getD (.opened event (library.getD m.address))).advance d event).1 := by
  intro event
  cases hopened : a.opened? with
  | some f =>
    rw [hopened] at hg
    cases hg with
    | some horigin => exact horigin.trans (Frame.sameOrigin_advance _ d event)
  | none =>
    rw [hopened] at hg
    cases hg
    have hinput : event.input = m.frameInput := by
      change a.input?.getD m.frameInput = m.frameInput
      rw [input?_of_opened? hopened]
      rfl
    have hfrom : a.frameFrom m = .opened event (library.getD m.address) := by
      rw [hlibrary rfl, Frame.opened, hinput]
      rfl
    rw [Option.getD_none, Option.getD_none, hfrom]
    exact Frame.sameOrigin_advance _ d event

/-- An observer, the open frames, their own frames and the last hook belong together. -/
structure InStep (o : Observer) (running : List Activation) (own : List (Option Frame))
    (last : Option Hook) : Prop where
  frames : o.frames = running.map Activation.openFrame
  origins : List.Forall₂ (fun a g => Option.Rel Frame.SameOrigin a.opened? g) running own
  phase : Phase o.session.calls running own last

namespace InStep

variable {o : Observer} {running outer : List Activation} {a : Activation}
  {own : List (Option Frame)} {last : Option Hook}

theorem init (hframes : o.frames = []) (hcalls : o.session.calls = {}) : InStep o [] [] none :=
  ⟨hframes, .nil, .outside hcalls rfl⟩

/-- A frame is opened from outside or right after an instruction. -/
theorem enter (h : InStep o running own last) (creation : Bool)
    (hlast : running = [] ∨ last.any Hook.isStep = true) :
    InStep (o.handle (.enter creation)) (activate running (.enter creation))
      (o.ownAfter own (.enter creation)) (some (.enter creation)) := by
  have hframes : (o.handle (.enter creation)).frames =
      (activate running (.enter creation)).map Activation.openFrame := congrArg _ h.frames
  refine ⟨hframes, .cons .none h.origins, ?_⟩
  rcases h.phase with ⟨hcalls, hrunning⟩ | ⟨-, hrunning, hother, -⟩ |
    ⟨known, -, hown, hknown, hlibrary⟩ | ⟨-, -, hrunning, hother, -⟩
  · subst hrunning
    cases h.origins
    have hcalls' : (o.handle (.enter creation)).session.calls = {} := hcalls
    exact .entered [] (List.cons_ne_nil _ _) rfl rfl (by rw [hcalls']; rfl) (by rw [hcalls']; rfl)
  · simp [hrunning, hother] at hlast
  · exact .entered known (List.cons_ne_nil _ _) rfl (by rw [hown]; rfl) hknown hlibrary
  · simp [hrunning, hother] at hlast

/-- A frame is closed. With the outermost one everything starts over. -/
theorem leave (h : InStep o (a :: outer) own last) :
    InStep (o.handle .leave) (activate (a :: outer) .leave) (o.ownAfter own .leave)
      (some .leave) := by
  have hframes : o.frames.tail = outer.map Activation.openFrame := by
    rw [h.frames]
    rfl
  cases own with
  | nil => cases h.origins
  | cons g rest =>
    obtain ⟨-, horigins⟩ := List.forall₂_cons.1 h.origins
    refine ⟨hframes, horigins, ?_⟩
    change Phase o.leave.session.calls outer rest (some .leave)
    unfold Observer.leave
    dsimp only
    rw [hframes]
    cases outer with
    | nil => exact .outside rfl rfl
    | cons b others => exact h.phase.leave

/-- After an instruction the call stack is no longer behind. -/
theorem step (h : InStep o (a :: outer) own last) (hsize : (a :: outer).length ≤ Size.largest)
    (storage : Storage) (m : Machine) (answer : Command) :
    let hook : Hook := .step storage m answer
    InStep (o.handle hook) (activate (a :: outer) hook) (o.ownAfter own hook) (some hook) := by
  intro hook
  have hopen : o.frames = a.openFrame :: outer.map Activation.openFrame := h.frames
  obtain ⟨hframes, hcalls⟩ := Observer.handle_step hopen storage m answer
  set event := m.toStep (outer.map Activation.openFrame).length a.openFrame.creation
    (a.openFrame.input.getD m.frameInput)
  set d := (o.prepared a.openFrame m).deployments
  have hdepth : event.depth = outer.length := by
    rw [Machine.depth_toStep (by rwa [List.length_map]), List.length_map]
  cases own with
  | nil => cases h.origins
  | cons g rest =>
    obtain ⟨hg, hrest⟩ := List.forall₂_cons.1 h.origins
    have hown : o.ownAfter (g :: rest) hook = some ((g.getD (.opened event
        (o.session.calls.library.getD m.address))).advance d event).1 :: rest := by
      unfold Observer.ownAfter
      rw [hopen]
      rfl
    have hsame : (a.visit m).openFrame = { a.openFrame with input := some event.input } := by
      rw [Activation.openFrame, a.input?_visit m]
      rfl
    obtain ⟨below, rfl, htrace, hlibrary⟩ := h.phase.trace (d := d) (s := event)
      (hdepth.trans hrest.length_eq)
    rw [hown]
    refine ⟨?_, .cons ?_ hrest, ?_⟩
    · rw [hframes, ← hsame]
      rfl
    · rw [Activation.opened?_visit]
      exact .some (Activation.sameOrigin_step hg hlibrary d m _)
    · refine .stepped (((g.getD (.opened event (o.session.calls.library.getD m.address))).advance d
        event).1 :: below) (List.cons_ne_nil _ _) rfl (by rw [hcalls, htrace]; rfl) ?_
      rw [hcalls, htrace]
      rfl

/-- The call stack is behind by one frame at most. -/
theorem length_le (h : InStep o running own last) :
    running.length ≤ o.session.calls.frames.length + 1 := by
  have hlength := h.origins.length_eq
  rcases h.phase with ⟨-, hrunning⟩ | ⟨known, -, -, hown, hframes, -⟩ |
    ⟨known, -, hown, hframes, -⟩ | ⟨known, ended, -, -, hown, hframes⟩
  · rw [hrunning]
    exact Nat.zero_le _
  · rw [hlength, hown, hframes]
    simp
  · rw [hlength, hown, hframes]
    simp
  · rw [hlength, hown, hframes, List.length_append, List.length_reverse, List.length_map]
    omega

/-- An instruction is never left out. -/
theorem exists_placed (h : InStep o (a :: outer) own last)
    (hsize : (a :: outer).length ≤ Size.largest) (m : Machine) :
    ∃ event, o.event? m = some event ∧ event.depth ≠ Size.largest ∧
      (o.session.calls.place? event).isSome := by
  have hopen : o.frames = a.openFrame :: outer.map Activation.openFrame := h.frames
  have hlength := h.length_le
  rw [List.length_cons] at hsize hlength
  let event := m.toStep (outer.map Activation.openFrame).length a.creation
    (a.input?.getD m.frameInput)
  have hdepth : event.depth = outer.length := by
    rw [Machine.depth_toStep (by rwa [List.length_map]), List.length_map]
  exact ⟨event, Observer.event?_eq hopen m, Nat.ne_of_lt event.depth_lt,
    CallStack.isSome_place? (by omega)⟩

/-- After an instruction there is a frame for each open one, and all of them are their own. -/
theorem exists_known (h : InStep o running own last) (hrunning : running ≠ [])
    (hlast : last.any Hook.isStep = true) :
    ∃ known, own = known.map some ∧ o.session.calls.frames = known.reverse ∧
      List.Forall₂ (fun a f => ∃ first, a.visited.getLast? = some first ∧
        (a.frameFrom first).SameOrigin f) running known := by
  rcases h.phase with ⟨-, hnone⟩ | ⟨-, -, hother, -⟩ | ⟨known, -, hown, hframes, -⟩ |
    ⟨-, -, -, hother, -⟩
  · exact absurd hnone hrunning
  · rw [hlast] at hother
    cases hother
  · refine ⟨known, hown, hframes, ?_⟩
    have horigins := h.origins
    rw [hown, List.forall₂_map_right_iff] at horigins
    refine horigins.imp fun a f hrel => ?_
    cases hopened : a.opened? with
    | none =>
      rw [hopened] at hrel
      cases hrel
    | some g =>
      obtain ⟨first, hfirst, rfl⟩ := Option.map_eq_some_iff.1 hopened
      rw [hopened] at hrel
      cases hrel with
      | some hsame => exact ⟨first, hfirst, hsame⟩
  · rw [hlast] at hother
    cases hother

/-- After an instruction each open frame has one that carries its creation flag and its input. -/
theorem settled (h : InStep o running own last) (hrunning : running ≠ [])
    (hlast : last.any Hook.isStep = true) :
    let frames := o.session.calls.frames
    frames ≠ [] ∧ frames.length = o.frames.length ∧ own = frames.reverse.map some ∧
      List.Forall₂ (fun a f => f.creation = a.creation ∧ a.input? = some f.input) running
        frames.reverse := by
  intro frames
  obtain ⟨known, hown, hframes, hknown⟩ := h.exists_known hrunning hlast
  have hreverse : frames.reverse = known := by
    rw [show frames = known.reverse from hframes, List.reverse_reverse]
  have hlength : frames.length = o.frames.length := by
    rw [← List.length_reverse, hreverse, h.frames, List.length_map, hknown.length_eq]
  refine ⟨?_, hlength, by rw [hreverse]; exact hown, ?_⟩
  · intro hnil
    rw [hnil, h.frames] at hlength
    exact hrunning (List.map_eq_nil_iff.1 (List.length_eq_zero_iff.1 hlength.symm))
  · rw [hreverse]
    refine hknown.imp fun a f ⟨first, hfirst, hsame⟩ => ⟨hsame.creation, ?_⟩
    rw [hsame.input, Activation.input?, hfirst]
    rfl

end InStep

/-! ## Runs -/

namespace Observer

variable {o : Observer} {hooks : List Hook}

/-- **The frames stay in step**, as long as frames are opened by instructions. -/
theorem inStep_run (hframes : o.frames = []) (hcalls : o.session.calls = {})
    (hnested : WellNested hooks) (hsize : WithinSize hooks) :
    InStep (o.run hooks) (activations hooks) (o.ownFrames hooks) hooks.getLast? := by
  induction hooks using List.reverseRecOn with
  | nil => exact .init hframes hcalls
  | append_singleton before hook ih =>
    obtain ⟨hbefore, hfollows⟩ := atEach_concat.1 hnested
    have hin := ih hbefore fun first hfirst => hsize first (hfirst.trans (List.prefix_append _ _))
    have hopen : (activations before).length ≤ Size.largest := hsize before (List.prefix_append _ _)
    rw [run_concat, activations_concat, ownFrames_concat, List.getLast?_concat]
    cases hook with
    | enter creation => exact hin.enter creation hfollows
    | step storage m answer =>
      obtain ⟨a, outer, hrunning⟩ := List.exists_cons_of_ne_nil hfollows
      rw [hrunning] at hin hopen ⊢
      exact hin.step hopen storage m answer
    | leave =>
      obtain ⟨a, outer, hrunning⟩ := List.exists_cons_of_ne_nil hfollows
      rw [hrunning] at hin ⊢
      exact hin.leave

/-- An observer that starts with what is known, the settings, hash inputs and breakpoints. -/
def renewed (s : Session) : Observer where
  session :=
    { config := s.config
      deployments := s.deployments
      stepper := { breakpoints := s.stepper.breakpoints }
      preimages := s.preimages }

theorem leave_of_inner {f g : OpenFrame} {outer : List OpenFrame} (h : o.frames = f :: g :: outer) :
    o.leave.session = o.session := by
  unfold leave
  rw [h]
  rfl

theorem leave_of_outermost {f : OpenFrame} (h : o.frames = [f]) :
    o.leave = renewed o.session := by
  unfold leave
  rw [h]
  rfl

/--
**After every instruction there is one frame for each open frame of the machine.** The observer
starts outside of all frames, and frames are opened and closed like brackets, the inner ones right
after an instruction, over any number of transactions. Then

* right after each instruction the call stack has as many frames as the machine has open ones. The
  step was not left out. Each open frame has come to an instruction, and has a frame of its own: the
  one that its first instruction opened and that no instruction of another frame has changed. That
  carries its creation flag and its input. The last line is not forgotten, and the mode is kept
  unless the instruction pauses;
* a frame that is opened, or closed inside another one, changes nothing of the session;
* when the outermost frame is closed, whatever comes next goes as if a new observer had started then
  with the same breakpoints, hash inputs, deployments and settings.
-/
theorem frames_in_step (hframes : o.frames = []) (hcalls : o.session.calls = {})
    (hnested : WellNested hooks) (hsize : WithinSize hooks) :
    (∀ before storage m answer rest, hooks = before ++ .step storage m answer :: rest →
      let now := o.run before
      let after := o.run (before ++ [.step storage m answer])
      let frames := after.session.calls.frames
      (∃ event, now.event? m = some event ∧ event.depth ≠ Size.largest ∧
        (now.session.calls.place? event).isSome) ∧
      frames ≠ [] ∧ frames.length = after.frames.length ∧
      o.ownFrames (before ++ [.step storage m answer]) = frames.reverse.map some ∧
      List.Forall₂ (fun a f => f.creation = a.creation ∧ a.input? = some f.input)
        (activations (before ++ [.step storage m answer])) frames.reverse ∧
      (now.session.stepper.previous.isSome → after.session.stepper.previous.isSome) ∧
      ((now.step storage m).2 = none → after.session.stepper.mode = now.session.stepper.mode)) ∧
    (∀ before creation rest, hooks = before ++ .enter creation :: rest →
      (o.run (before ++ [.enter creation])).session = (o.run before).session) ∧
    ∀ before rest, hooks = before ++ .leave :: rest →
      ((activations before).length ≠ 1 →
        (o.run (before ++ [.leave])).session = (o.run before).session) ∧
      ((activations before).length = 1 → ∀ next : List Hook,
        o.run (before ++ .leave :: next) = (renewed (o.run before).session).run next) := by
  have hin : ∀ before, before <+: hooks →
      InStep (o.run before) (activations before) (o.ownFrames before) before.getLast? := by
    rintro before ⟨rest, rfl⟩
    refine inStep_run hframes hcalls hnested.of_append fun first hfirst => ?_
    exact hsize first (hfirst.trans (List.prefix_append _ _))
  have hopen : ∀ before hook rest, hooks = before ++ hook :: rest →
      before <+: hooks ∧ before ++ [hook] <+: hooks ∧ Follows before hook := by
    intro before hook rest hsplit
    refine ⟨⟨_, hsplit.symm⟩, ⟨rest, ?_⟩, hnested before hook rest hsplit⟩
    rw [hsplit, List.append_assoc, List.singleton_append]
  refine ⟨?_, ?_, ?_⟩
  · intro before storage m answer rest hsplit now after frames
    obtain ⟨hbefore, hwith, hfollows⟩ := hopen before _ rest hsplit
    obtain ⟨a, outer, hrunning⟩ := List.exists_cons_of_ne_nil hfollows
    have hnow := hin before hbefore
    have hsizeNow := hsize before hbefore
    rw [hrunning] at hnow hsizeNow
    have hafter := hin _ hwith
    rw [List.getLast?_concat] at hafter
    have hstill : activations (before ++ [.step storage m answer]) ≠ [] := by
      rw [activations_concat, hrunning]
      exact List.cons_ne_nil _ _
    obtain ⟨hnonempty, hlength, hown, hcarries⟩ := hafter.settled hstill rfl
    obtain ⟨hprevious, hmode⟩ := handle_step_stepper hnow.frames storage m answer
    have hrun : after = now.handle (.step storage m answer) := run_concat o before _
    rw [← hrun] at hprevious hmode
    exact ⟨hnow.exists_placed hsizeNow m, hnonempty, hlength, hown, hcarries, hprevious, hmode⟩
  · intro before creation rest _
    rw [run_concat]
    rfl
  · intro before rest hsplit
    obtain ⟨hbefore, -, hfollows⟩ := hopen before _ rest hsplit
    obtain ⟨a, outer, hrunning⟩ := List.exists_cons_of_ne_nil hfollows
    have hnow := (hin before hbefore).frames
    rw [hrunning] at hnow ⊢
    cases outer with
    | nil =>
      refine ⟨fun hinner => absurd rfl hinner, fun _ next => ?_⟩
      rw [run_append, ← leave_of_outermost hnow]
      rfl
    | cons b others =>
      refine ⟨fun _ => ?_, fun hone => ?_⟩
      · rw [run_concat]
        exact leave_of_inner hnow
      · rw [List.length_cons, List.length_cons] at hone
        omega

/--
A call that creates a contract, and a second transaction. The creation has a frame of its own, and
the second transaction starts over: the mode is forgotten and the breakpoint is kept.
-/
theorem frames_in_step_created :
    let instruction (code : Bytes) (address : Address) (input : Bytes) : Hook :=
      .step (fun _ _ => .ok 0)
        { code, pc := 0, stack := [], memory := [], address, codeAddress := none,
          input := .own input, sharedMemory := [] } .resume
    let call := instruction [0xF0] 0x11 [1, 2]
    let created := instruction [0x5B] 0x12 []
    let first : List Hook := [.enter false, call, .enter true, created, .leave]
    let next : List Hook := [.enter false, call]
    let hooks := first ++ .leave :: next
    let o : Observer := { session := { stepper := ⟨[⟨"a.sol", 3⟩], .into, none⟩ } }
    let inside := o.run [.enter false, call, .enter true, created]
    WellNested hooks ∧ WithinSize hooks ∧
      inside.session.calls.frames.length = inside.frames.length ∧
      inside.session.calls.frames.map (fun f => (f.creation, f.input)) =
        [(false, [1, 2]), (true, [])] ∧
      o.run hooks = (renewed (o.run first).session).run next ∧
      (o.run (first ++ [.leave])).session.stepper = ⟨[⟨"a.sol", 3⟩], .running, none⟩ := by
  intro instruction call created first next hooks o inside
  have hnested : WellNested hooks := by
    simp only [WellNested, hooks, first, next, List.cons_append, List.nil_append, atEach_cons]
    exact ⟨.inl rfl, List.cons_ne_nil _ _, .inr rfl, List.cons_ne_nil _ _, List.cons_ne_nil _ _,
      List.cons_ne_nil _ _, .inl rfl, List.cons_ne_nil _ _, atEach_nil _⟩
  have hsize : WithinSize hooks := withinSize_of_length_le (by decide)
  obtain ⟨hstep, -, hleave⟩ := frames_in_step (o := o) rfl rfl hnested hsize
  obtain ⟨-, -, hlength, -⟩ := hstep [.enter false, call, .enter true] _ _ _ _ rfl
  obtain ⟨-, hrenewed⟩ := hleave first next rfl
  have hcarried : inside.session.calls.frames.map (fun f => (f.creation, f.input)) =
      [(false, [1, 2]), (true, [])] := by
    decide +kernel
  have hend : o.run (first ++ [.leave]) = renewed (o.run first).session := hrenewed rfl []
  refine ⟨hnested, hsize, hlength, hcarried, hrenewed rfl next, ?_⟩
  rw [hend]
  decide +kernel

end Observer

end Solscope
