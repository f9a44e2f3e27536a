import Solscope.Proofs.Pause.Overflow
import Solscope.Proofs.Run.Frames
import Solscope.Session

/-!
# Runs of a session

A session goes through the steps of a transaction; in between, pauses end with commands and hash
inputs are recorded.

* `Session.run_deployments`, `Session.run_config`, `Session.run_calls`: what is known and the
  settings stay as they are, and the frames only depend on the steps.
* `Session.step_eq_some_iff`: when a step pauses, and with what report.
* `Session.step?_eq_none_iff`: when a session cannot go through a step.
-/

namespace Solscope

/-- What a session goes through while a transaction runs. -/
inductive SessionEvent where
  /-- A step is about to be done, the storage being what it is by then. -/
  | step (storage : Storage) (s : Step)
  /-- A pause ends. -/
  | command (c : Command)
  /-- An input is hashed. -/
  | preimage (data : Bytes)

/-- The step of an event. -/
def SessionEvent.step? : SessionEvent → Option Step
  | step _ s => some s
  | command _ | preimage _ => none

namespace Session

/-- The session after an event. -/
def handle (s : Session) : SessionEvent → Session
  | .step storage event => (s.step storage event).1
  | .command c => s.apply c
  | .preimage data => s.recordPreimage data

/-- The session after some events. -/
def run (s : Session) (events : List SessionEvent) : Session := events.foldl handle s

variable {s : Session} {storage : Storage} {event : Step}

theorem run_cons (s : Session) (e : SessionEvent) (rest : List SessionEvent) :
    s.run (e :: rest) = (s.handle e).run rest := rfl

/-- The report that a step makes if it pauses. -/
def report (s : Session) (storage : Storage) : Report :=
  ⟨s.deployments, s.preimages, s.config, storage⟩

/-- What a step does to a session. -/
theorem step_fst (s : Session) (storage : Storage) (event : Step) :
    (s.step storage event).1 =
      { s with
        calls := (s.calls.trace s.deployments event).1
        stepper := match (s.calls.trace s.deployments event).2 with
          | none => s.stepper
          | some m => (s.stepper.check m (s.calls.trace s.deployments event).1.depth).1 } := by
  cases hactive : (s.calls.trace s.deployments event).2 with
  | none => simp only [step, hactive]
  | some m => simp only [step, hactive]

theorem step_fst_calls (s : Session) (storage : Storage) (event : Step) :
    (s.step storage event).1.calls = (s.calls.trace s.deployments event).1 := by rw [step_fst]

/--
A step pauses if it is an instruction of a call where the stepper pauses. It reports the frames as
they are then.
-/
theorem step_eq_some_iff {n : Notification} :
    (s.step storage event).2 = some n ↔
      ∃ m hit, (s.calls.trace s.deployments event).2 = some m ∧
        (s.stepper.check m (s.calls.trace s.deployments event).1.depth).2 = some hit ∧
        (s.report storage).notification hit (s.calls.trace s.deployments event).1.frames event =
          n := by
  cases hactive : (s.calls.trace s.deployments event).2 with
  | none => simp [step, hactive]
  | some m => simp [step, hactive, report]

/-- A session cannot go through a step if reading what its pause shows overflows. -/
theorem step?_eq_none_iff :
    s.step? storage event = none ↔ (s.step storage event).2.isSome = true ∧
      (s.report storage).Overflows (s.step storage event).1.calls.frames event := by
  rw [← Report.overflows_iff, ← Bool.and_eq_true]
  unfold step?
  dsimp only
  split
  · exact iff_of_true rfl ‹_›
  · exact iff_of_false (fun h => nomatch h) ‹_›

theorem eq_step_of_step? {after : Session × Option Notification}
    (h : s.step? storage event = some after) : after = s.step storage event := by
  unfold step? at h
  dsimp only at h
  split at h
  · cases h
  · exact (Option.some.inj h).symm

/-- No pause overflows that a session gets past. -/
theorem not_overflows_of_step? {after : Session × Option Notification} {n : Notification}
    (h : s.step? storage event = some after) (hn : after.2 = some n) :
    ¬ (s.report storage).Overflows after.1.calls.frames event := by
  obtain rfl := eq_step_of_step? h
  intro hoverflows
  rw [step?_eq_none_iff.2 ⟨by rw [hn]; rfl, hoverflows⟩] at h
  cases h

theorem handle_keeps (s : Session) (e : SessionEvent) :
    (s.handle e).deployments = s.deployments ∧ (s.handle e).config = s.config := by
  cases e with
  | step storage event => rw [handle, step_fst]; exact ⟨rfl, rfl⟩
  | command c => exact ⟨rfl, rfl⟩
  | preimage data => exact ⟨rfl, rfl⟩

theorem run_deployments (s : Session) (events : List SessionEvent) :
    (s.run events).deployments = s.deployments := by
  induction events generalizing s with
  | nil => rfl
  | cons e rest ih => rw [run_cons, ih, (s.handle_keeps e).1]

theorem run_config (s : Session) (events : List SessionEvent) :
    (s.run events).config = s.config := by
  induction events generalizing s with
  | nil => rfl
  | cons e rest ih => rw [run_cons, ih, (s.handle_keeps e).2]

/-- Only steps change the frames. -/
theorem run_calls (s : Session) (events : List SessionEvent) :
    (s.run events).calls = s.calls.run s.deployments (events.filterMap SessionEvent.step?) := by
  induction events generalizing s with
  | nil => rfl
  | cons e rest ih =>
    rw [run_cons, ih, (s.handle_keeps e).1]
    cases e with
    | step storage event =>
      rw [handle, step_fst_calls]
      rfl
    | command c => rfl
    | preimage data => rfl

end Session

end Solscope
