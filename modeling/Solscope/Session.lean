import Solscope.Pause.Report
import Solscope.Run.Stepper

/-!
# Debugging sessions

A session follows a run step by step. Where a step yields a pause, the run waits for a command.

* `Session.step`, `Session.step?`: follows a step, if what its pause shows can be read at all.
* `Session.apply`: ends a pause.
* `Session.endTransaction`, `Session.fork`: what is kept for another run.
-/

namespace Solscope

/-- A debugging session. -/
structure Session where
  config : Config := {}
  deployments : Deployments := {}
  calls : CallStack := {}
  stepper : Stepper := {}
  /-- The hash inputs seen so far. -/
  preimages : Preimages := []

namespace Session

/-! ## What is known -/

/-- Why nothing more is known after a request. -/
inductive Error where
  /-- Artifacts make no compilation. -/
  | compilation (e : Compilation.Error)
  /-- An address cannot be linked to the contract of a name. -/
  | link (address : Address) (name : String) (e : Deployments.LinkError)
deriving DecidableEq, Repr

/-- What goes wrong, from the general to the particular. -/
def Error.messages : Error → List String
  | .compilation e => "failed to build debug information" :: e.messages
  | .link address name e => [s!"failed to link {address.checksum} to `{name}`", e.message]

/-- Adds the compilation that artifacts make. -/
def load (s : Session) (a : Artifacts) : Except Error Session :=
  match Compilation.ofArtifacts a with
  | .ok c => .ok { s with deployments := s.deployments.add c }
  | .error e => .error (.compilation e)

/-- Links an address to a contract. -/
def link (s : Session) (address : Address) (compilation : Nat) (name : String) :
    Except Error Session :=
  match s.deployments.link address compilation name with
  | .ok deployments => .ok { s with deployments }
  | .error e => .error (.link address name e)

/-- Remembers a hash input. -/
def recordPreimage (s : Session) (data : Bytes) : Session :=
  { s with preimages := s.preimages.record data }

/-! ## Runs -/

/--
Follows a step, and pauses before it or not. What the pause shows leaves out whatever cannot be
read; `step?` is about reading that overflows.
-/
def step (s : Session) (storage : Storage) (event : Step) : Session × Option Notification :=
  let (calls, active) := s.calls.trace s.deployments event
  match active with
  | none => ({ s with calls }, none)
  | some mapping =>
    let (stepper, hit) := s.stepper.check mapping calls.depth
    let report : Report := ⟨s.deployments, s.preimages, s.config, storage⟩
    ({ s with calls, stepper }, hit.map fun hit => report.notification hit calls.frames event)

/-- Follows a step, unless reading what its pause shows overflows: then there is no way to go on. -/
def step? (s : Session) (storage : Storage) (event : Step) :
    Option (Session × Option Notification) :=
  let (after, pause) := s.step storage event
  let report : Report := ⟨s.deployments, s.preimages, s.config, storage⟩
  if pause.isSome && report.overflows after.calls.frames event then none else some (after, pause)

/-- What execution runs to after a command. -/
def modeAfter (s : Session) : Command → StepMode
  | .resume => s.stepper.mode
  | .stepInto => .into
  | .stepOver => .over s.calls.depth
  | .stepOut => .out s.calls.depth

/-- Ends a pause. -/
def apply (s : Session) (c : Command) : Session :=
  { s with stepper := { s.stepper with mode := s.modeAfter c } }

/-- Forgets what belongs to a single run; breakpoints and hash inputs are kept. -/
def endTransaction (s : Session) : Session :=
  { s with calls := {}, stepper := s.stepper.reset }

/-- A session of its own for trying something out, which starts without frames. -/
def fork (s : Session) : Session := { s with calls := {} }

/-! ## Breakpoints -/

/-- Sets breakpoints, and tells those that were not set before. -/
def setBreakpoints (s : Session) : List Breakpoint → Session × List Breakpoint
  | [] => (s, [])
  | b :: rest =>
    let isNew := !s.stepper.isSet b
    let (s, added) := setBreakpoints { s with stepper := s.stepper.add b } rest
    (s, if isNew then b :: added else added)

/-- Removes breakpoints, and tells how many of them were set. -/
def removeBreakpoints (s : Session) : List Breakpoint → Session × Nat
  | [] => (s, 0)
  | b :: rest =>
    let wasSet := s.stepper.isSet b
    let (s, count) := removeBreakpoints { s with stepper := s.stepper.remove b } rest
    (s, if wasSet then count + 1 else count)

/-- Makes `lines` the only breakpoints of a source. -/
def replaceBreakpoints (s : Session) (source : String) (lines : List Nat) : Session :=
  { s with stepper := s.stepper.replace source lines }

/-- Removes all breakpoints. -/
def clearBreakpoints (s : Session) : Session := { s with stepper := s.stepper.clear }

end Session

end Solscope
