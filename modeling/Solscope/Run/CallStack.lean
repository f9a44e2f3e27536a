import Solscope.Run.Frame

/-!
# The call stack

One frame for every frame of the machine, each with the calls of functions in it.

* `CallStack.place?`: the frames below a step and the frame that it belongs to.
* `CallStack.trace`: what a step does.
-/

namespace Solscope

/-- The frames of a run. -/
structure CallStack where
  /-- The frames, the outermost one first. -/
  frames : List Frame := []
  /-- The account whose code the next frame runs, after a delegate call. -/
  library : Option Address := none
deriving DecidableEq, Repr

namespace CallStack

/-- The number of calls in all frames. -/
def depth (c : CallStack) : Nat := c.frames.foldr (fun f depth => f.calls.length + depth) 0

/-- The account whose code a frame runs that this step opens. -/
def libraryOf (s : Step) : Option Address :=
  if Opcode.isDelegateCall s.opcode then s.second?.map Address.ofWord else none

/--
The frames below a step and the frame that it belongs to, which is opened if it is the next one.
Frames above are over. A step belongs to no frame if its depth leaves frames out.
-/
def place? (c : CallStack) (s : Step) : Option (List Frame × Frame) :=
  if s.depth < c.frames.length then
    c.frames[s.depth]?.map fun f => (c.frames.take s.depth, f)
  else if s.depth = c.frames.length then
    some (c.frames, .opened s (c.library.getD s.address))
  else none

/-- What a step does, and the instruction of the call that it belongs to. -/
def trace (c : CallStack) (d : Deployments) (s : Step) : CallStack × Option Mapping :=
  match c.place? s with
  | none => ({ c with library := none }, none)
  | some (below, f) =>
    let (f, active) := f.advance d s
    ({ frames := below ++ [f], library := libraryOf s }, active)

end CallStack

end Solscope
