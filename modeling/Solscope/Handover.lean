import Solscope.Pause.Notification

/-!
# Handing control back and forth

The machine suspends itself at a pause until a command arrives from elsewhere. Every function here
is one indivisible change of the state that both sides share.

* `Handover.suspend`, `Handover.wake`: what the machine does.
* `Handover.send`, `Handover.pause?`: what the others do.
-/

namespace Solscope

/-- Whether the machine runs or waits for a command. -/
inductive Execution where
  | running
  | paused (notification : Notification)

/-- What both sides share. -/
structure Handover where
  state : Execution := .running
  /-- The command that has been sent for this pause. -/
  command : Option Command := none

namespace Handover

/-- Why a command is not accepted. -/
inductive Error where
  /-- The machine does not wait for one. -/
  | notPaused
  /-- Another one has been sent for this pause. -/
  | commandPending
deriving DecidableEq, Repr

/-- The wording of an error. -/
def Error.message : Error → String
  | .notPaused => "execution is not paused"
  | .commandPending => "a command is already pending"

/-- The machine begins to wait. -/
def suspend (_ : Handover) (notification : Notification) : Handover :=
  { state := .paused notification, command := none }

/-- The machine looks for a command, and goes on if there is one. -/
def wake (h : Handover) : Handover × Option Command :=
  match h.command with
  | some command => ({ state := .running, command := none }, some command)
  | none => (h, none)

/-- Someone sends a command. -/
def send (h : Handover) (command : Command) : Except Error Handover :=
  match h.state, h.command with
  | .running, _ => .error .notPaused
  | .paused _, some _ => .error .commandPending
  | .paused _, none => .ok { h with command := some command }

/-- What the machine waits with, if it waits and no command has been sent. -/
def pause? (h : Handover) : Option Notification :=
  match h.state, h.command with
  | .paused notification, none => some notification
  | _, _ => none

/-- Whether the machine waits and no command has been sent. -/
def isPaused (h : Handover) : Bool := h.pause?.isSome

end Handover

end Solscope
