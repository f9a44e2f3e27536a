import Solscope.Observer
import Solscope.Proofs.Run.Frames
import Solscope.Proofs.Run.Stepping
import Solscope.Proofs.Session.Runs

/-!
# Hooks of a machine

What a machine tells an observer says by itself which of its frames are open, by which instruction
each of them was opened, and which instructions it came to.

* `activations`: the open frames, told from the hooks.
* `WellNested`: frames are opened and closed like brackets, each inner one right after an
  instruction of the frame below.
* `Observer.step?_eq_none_iff`: when an observer cannot go through an instruction.
* `Observer.handle_step`: what an instruction does to an observer.
-/

namespace Solscope

/-- What a machine tells an observer. -/
inductive Hook where
  /-- A frame is opened, and its code creates a contract or does not. -/
  | enter (creation : Bool)
  /-- An instruction is about to be done. If that is a pause, a command ends it. -/
  | step (storage : Storage) (m : Machine) (answer : Command)
  /-- The innermost frame is closed. -/
  | leave

def Hook.isStep : Hook → Bool
  | step .. => true
  | enter _ | leave => false

/-! ## Open frames -/

/-- An open frame of a machine. -/
structure Activation where
  creation : Bool
  /-- The instruction of the frame below that opened it, which the outermost frame has none of. -/
  opener : Option Machine
  /-- The instructions it came to, the last one first. -/
  visited : List Machine := []

namespace Activation

/-- The frame after another instruction. -/
def visit (a : Activation) (m : Machine) : Activation := { a with visited := m :: a.visited }

/-- The input: that of the first instruction. -/
def input? (a : Activation) : Option Bytes := a.visited.getLast?.map Machine.frameInput

/-- The first instruction stays the first one. -/
theorem map_getLast?_visit {β : Type} (a : Activation) (m : Machine) (g : Machine → β) :
    (a.visit m).visited.getLast?.map g = some ((a.visited.getLast?.map g).getD (g m)) := by
  rw [visit, List.getLast?_cons, Option.map_some, Option.getD_map]

theorem input?_visit (a : Activation) (m : Machine) :
    (a.visit m).input? = some (a.input?.getD m.frameInput) := a.map_getLast?_visit m _

end Activation

/-- The open frames after a hook, the innermost one first. -/
def activate (running : List Activation) : Hook → List Activation
  | .enter creation => ⟨creation, running.head?.bind (·.visited.head?), []⟩ :: running
  | .step _ m _ => running.modifyHead (·.visit m)
  | .leave => running.tail

/-- The open frames after some hooks, the innermost one first. -/
def activations (hooks : List Hook) : List Activation := hooks.foldl activate []

theorem activations_concat (hooks : List Hook) (hook : Hook) :
    activations (hooks ++ [hook]) = activate (activations hooks) hook := by
  rw [activations, List.foldl_append]
  rfl

theorem length_activate_le (running : List Activation) (hook : Hook) :
    (activate running hook).length ≤ running.length + 1 := by
  cases hook with
  | enter creation => exact Nat.le_refl _
  | step storage m answer =>
    rw [activate, List.length_modifyHead]
    exact Nat.le_succ _
  | leave =>
    rw [activate, List.length_tail]
    omega

theorem length_activations_le (hooks : List Hook) : (activations hooks).length ≤ hooks.length := by
  induction hooks using List.reverseRecOn with
  | nil => exact Nat.le_refl _
  | append_singleton hooks hook ih =>
    have hstep := length_activate_le (activations hooks) hook
    rw [activations_concat, List.length_append, List.length_singleton]
    omega

/--
Whether a hook can come after others: a frame is opened from outside or right after an instruction,
and there is none of an instruction or of a frame that ends unless a frame is open.
-/
def Follows (before : List Hook) : Hook → Prop
  | .enter _ => activations before = [] ∨ before.getLast?.any Hook.isStep = true
  | .step .. | .leave => activations before ≠ []

/-- Frames are opened and closed like brackets, the inner ones by instructions. -/
def WellNested (hooks : List Hook) : Prop := AtEach Follows hooks

theorem WellNested.of_append {before rest : List Hook} (h : WellNested (before ++ rest)) :
    WellNested before := by
  intro first hook last hbefore
  exact h first hook (last ++ rest) (by rw [hbefore, List.append_assoc, List.cons_append])

/-- There are never more open frames than a size can count. -/
def WithinSize (hooks : List Hook) : Prop :=
  ∀ before, before <+: hooks → (activations before).length ≤ Size.largest

theorem withinSize_of_length_le {hooks : List Hook} (h : hooks.length ≤ Size.largest) :
    WithinSize hooks := by
  intro before hbefore
  have hlength := hbefore.length_le
  have hrunning := length_activations_le before
  omega

/-! ## Observers -/

/-- As long as a size can count the frames, the depth of an instruction is that of its frame. -/
theorem Machine.depth_toStep {below : Nat} (h : below < Size.largest) (m : Machine)
    (creation : Bool) (input : Bytes) : (m.toStep below creation input).depth = below :=
  Nat.min_eq_left (Nat.le_pred_of_lt h)

namespace Observer

variable {o : Observer} {f : OpenFrame} {outer : List OpenFrame}

/-- The observer after a hook. -/
def handle (o : Observer) : Hook → Observer
  | .enter creation => o.enter creation
  | .step storage m answer =>
    if (o.step storage m).2.isSome then (o.step storage m).1.apply answer
    else (o.step storage m).1
  | .leave => o.leave

/-- The observer after some hooks. -/
def run (o : Observer) (hooks : List Hook) : Observer := hooks.foldl handle o

theorem run_append (o : Observer) (first second : List Hook) :
    o.run (first ++ second) = (o.run first).run second := List.foldl_append ..

theorem run_concat (o : Observer) (hooks : List Hook) (hook : Hook) :
    o.run (hooks ++ [hook]) = (o.run hooks).handle hook := run_append o hooks [hook]

/-- What the session of an observer follows when the machine comes to an instruction. -/
def event? (o : Observer) (m : Machine) : Option Step :=
  match o.frames with
  | [] => none
  | f :: outer => some (m.toStep outer.length f.creation (f.input.getD m.frameInput))

/-- The session that follows an instruction: code is recognised and hash inputs are recorded. -/
def prepared (o : Observer) (f : OpenFrame) (m : Machine) : Session :=
  recordHashInput (recognise o.session f m) m

/-- Nothing else changes before an instruction is followed. -/
theorem prepared_eq (o : Observer) (f : OpenFrame) (m : Machine) :
    o.prepared f m = { o.session with
      deployments := (recognise o.session f m).deployments
      preimages := (recordHashInput o.session m).preimages } := by
  have hrecognise : recognise o.session f m =
      { o.session with deployments := (recognise o.session f m).deployments } := by
    unfold recognise
    split <;> rfl
  rw [prepared, hrecognise, recordHashInput, recordHashInput]
  split
  · split <;> rfl
  · rfl

theorem prepared_calls (o : Observer) (f : OpenFrame) (m : Machine) :
    (o.prepared f m).calls = o.session.calls := by rw [prepared_eq]

theorem prepared_stepper (o : Observer) (f : OpenFrame) (m : Machine) :
    (o.prepared f m).stepper = o.session.stepper := by rw [prepared_eq]

theorem event?_eq (hframes : o.frames = f :: outer) (m : Machine) :
    o.event? m = some (m.toStep outer.length f.creation (f.input.getD m.frameInput)) := by
  rw [event?, hframes]

/-- An instruction is a step of the session, in the innermost frame. -/
theorem step_eq (hframes : o.frames = f :: outer) (storage : Storage) (m : Machine) :
    let event := m.toStep outer.length f.creation (f.input.getD m.frameInput)
    let followed := (o.prepared f m).step storage event
    o.step storage m =
      ({ session := followed.1, frames := { f with input := some event.input } :: outer },
        followed.2) := by
  unfold Observer.step
  rw [hframes]
  rfl

/-- An observer cannot go through an instruction if reading what its pause shows overflows. -/
theorem step?_eq_none_iff (hframes : o.frames = f :: outer) (storage : Storage) (m : Machine) :
    let event := m.toStep outer.length f.creation (f.input.getD m.frameInput)
    o.step? storage m = none ↔ (o.step storage m).2.isSome = true ∧
      ((o.prepared f m).report storage).Overflows (o.step storage m).1.session.calls.frames event := by
  intro event
  have hstep : o.step? storage m =
      ((o.prepared f m).step? storage event).map fun _ => o.step storage m := by
    unfold step?
    rw [hframes]
    rfl
  rw [hstep, Option.map_eq_none_iff, step_eq hframes, Session.step?_eq_none_iff]

/-- What an instruction does to the frames. -/
theorem handle_step (hframes : o.frames = f :: outer) (storage : Storage) (m : Machine)
    (answer : Command) :
    let event := m.toStep outer.length f.creation (f.input.getD m.frameInput)
    let after := o.handle (.step storage m answer)
    after.frames = { f with input := some event.input } :: outer ∧
      after.session.calls =
        (o.session.calls.trace (o.prepared f m).deployments event).1 := by
  intro event after
  have hcalls : ((o.prepared f m).step storage event).1.calls =
      (o.session.calls.trace (o.prepared f m).deployments event).1 := by
    rw [Session.step_fst_calls, prepared_calls]
  have hafter : after = o.handle (.step storage m answer) := rfl
  rw [hafter, handle, step_eq hframes storage m]
  split <;> exact ⟨rfl, hcalls⟩

/-- An instruction never forgets the last line, and keeps the mode unless it pauses. -/
theorem handle_step_stepper (hframes : o.frames = f :: outer) (storage : Storage) (m : Machine)
    (answer : Command) :
    let after := o.handle (.step storage m answer)
    (o.session.stepper.previous.isSome → after.session.stepper.previous.isSome) ∧
      ((o.step storage m).2 = none → after.session.stepper.mode = o.session.stepper.mode) := by
  intro after
  have hafter : after = o.handle (.step storage m answer) := rfl
  rw [hafter, handle, step_eq hframes storage m, ← prepared_stepper o f m]
  generalize o.prepared f m = s
  generalize m.toStep outer.length f.creation (f.input.getD m.frameInput) = event
  constructor
  · intro hprevious
    have hstep : (s.step storage event).1.stepper.previous.isSome := by
      rw [Session.step_fst]
      dsimp only
      split
      · exact hprevious
      · rw [Stepper.check_previous, Option.isSome_or, hprevious, Bool.or_true]
    split <;> exact hstep
  · intro hnone
    change (s.step storage event).2 = none at hnone
    rw [hnone, Option.isSome_none, if_neg Bool.false_ne_true]
    cases hactive : (s.calls.trace s.deployments event).2 with
    | none => simp only [Session.step, hactive]
    | some mapping =>
      have hcheck : (s.stepper.check mapping (s.calls.trace s.deployments event).1.depth).2 =
          none := by
        simpa [Session.step, hactive] using hnone
      rw [Session.step_fst, hactive]
      exact Stepper.check_mode_of_none hcheck

end Observer

end Solscope
