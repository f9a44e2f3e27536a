import Solscope.Deployments
import Solscope.Run.Step

/-!
# Frames and the calls in them

A frame runs code for an account. Inside it, functions call each other by jumps: after a jump into a
function, the first instruction that belongs to a function enters it, and a jump out leaves it.

* `Frame.enter`, `Frame.update`, `Frame.leave`: what happens to the calls of a frame.
* `Frame.advance`: what an instruction does.
-/

namespace Solscope

/-- A call of a function inside a frame. -/
structure Call where
  method : MethodId
  /-- The slot of its first variable, counted from the frame's base. -/
  stackOffset : Nat
  /-- The instruction it is at. -/
  mapping : Option Mapping := none
  /-- The number of the invocation whose modifier runs, if one does. -/
  modifier : Option Nat := none
  /-- Whether the body has been reached. -/
  entered : Bool := false
deriving DecidableEq, Repr

/-- A frame of the machine with the calls in it. -/
structure Frame where
  /-- The account that the code acts for. -/
  address : Address
  /-- The account whose code runs. -/
  codeAddress : Address
  /-- Whether the code creates a contract. -/
  creation : Bool
  input : Bytes
  /-- The height of the stack below the first variable of the first call. -/
  stackBase : Nat := 0
  /-- The stack when the frame last opened another one. -/
  stack : List Word := []
  /-- The memory at that time. -/
  memory : Bytes := []
  /-- The calls, the innermost one first. -/
  calls : List Call := []
  /-- Whether the next instruction of a function enters it. -/
  isAwaiting : Bool := true
deriving DecidableEq, Repr

namespace Frame

/-- The frame that a step opens, running the code of `codeAddress`. -/
def opened (s : Step) (codeAddress : Address) : Frame :=
  { address := s.address, codeAddress, creation := s.creation, input := s.input }

/-- Keeps stack and memory if an instruction opens another frame. -/
def save (f : Frame) (s : Step) : Frame :=
  if Opcode.opensFrame s.opcode then { f with stack := s.stack, memory := s.memory } else f

/-- The stack slots of a method, its modifiers' included. -/
def slotsOf (p : Program) (id : MethodId) : Nat := ((p.method? id).map (·.totalSlots)).getD 0

/-- The height of the stack below the arguments of a method that is entered at a given height. -/
def baseOf (p : Program) (id : MethodId) (height : Nat) : Nat :=
  height - ((p.method? id).map Method.argumentSlots).getD 0

/--
Enters a function. The code that receives a call maps to the same definition as the start of the
function, so the function on top is not entered again before its body is reached; then only the base
is found anew.
-/
def enter (f : Frame) (p : Program) (id : MethodId) (height : Nat) : Frame :=
  match f.calls with
  | [] => { f with stackBase := baseOf p id height, calls := [⟨id, 0, none, none, false⟩] }
  | top :: outer =>
    if top.method = id ∧ !top.entered then
      if outer.isEmpty then { f with stackBase := baseOf p id height } else f
    else
      let stackOffset := top.stackOffset + slotsOf p top.method + 1
      { f with calls := ⟨id, stackOffset, none, none, false⟩ :: top :: outer }

/--
The invocation that a position belongs to: one that is written there, else one whose modifier is
defined there.
-/
def invocationAt? (p : Program) (m : Method) (file : Nat) (position : Position) : Option Nat :=
  (m.invocationAt? file position).or <|
    m.invocations.findIdx? fun i =>
      (i.method.bind p.method?).any fun modifier => modifier.extent.contains file position

/--
A call at a position of its method. In the body, outside of declarations, no modifier runs; anywhere
else the modifier changes only where one is found.
-/
def moveTo (p : Program) (m : Method) (file : Nat) (position : Position) (c : Call) : Call :=
  let inBody := m.inBody file position
  let c := { c with entered := c.entered || inBody }
  if inBody ∧ !m.inDeclaration file position then { c with modifier := none }
  else { c with modifier := (invocationAt? p m file position).or c.modifier }

/-- Moves the innermost call to an instruction. -/
def update (f : Frame) (p : Program) (mapping : Mapping) (span : Span) : Frame :=
  match f.calls with
  | [] => f
  | top :: outer =>
    let top := { top with mapping := some mapping }
    match p.method? top.method with
    | none => { f with calls := top :: outer }
    | some m => { f with calls := moveTo p m span.file span.start top :: outer }

/-- Whether the only call is that of a constructor. -/
def isLoneConstructor (p : Program) (calls : List Call) : Bool :=
  match calls with
  | [c] => (p.method? c.method).any Method.isConstructor
  | _ => false

/-- Leaves the innermost call. A constructor that is left alone is left too. -/
def leave (f : Frame) (p : Program) : Frame :=
  let calls := match f.calls with
    | _ :: caller :: outer => { caller with mapping := none } :: outer
    | _ => []
  { f with calls := if isLoneConstructor p calls then [] else calls }

/-- Enters a function if one is awaited and the instruction belongs to one. -/
def receive (f : Frame) (code : KnownCode) (span : Span) (height : Nat) : Frame :=
  if f.isAwaiting then
    match code.program.methodAt? code.contract span.extent with
    | some id => { f.enter code.program id height with isAwaiting := false }
    | none => f
  else f

/--
What an instruction of known code with a place in the sources does, and the instruction of the call
that it belongs to, if that is known. A jump out belongs to a call that is over once it is done.
-/
def follow (f : Frame) (code : KnownCode) (mapping : Mapping) (span : Span) (height : Nat) :
    Frame × Option Mapping :=
  let f := f.receive code span height
  let f := if f.isAwaiting then f else f.update code.program mapping span
  let active := if f.isAwaiting then none else f.calls.head?.bind (·.mapping)
  match mapping.jump with
  | .into => ({ f with isAwaiting := true }, active)
  | .out => (f.leave code.program, none)
  | .regular => (f, active)

/--
What a step does to its frame, and the instruction of the call that it belongs to. Code that is not
known and instructions without a place in the sources do nothing.
-/
def advance (f : Frame) (d : Deployments) (s : Step) : Frame × Option Mapping :=
  let f := f.save s
  let found := do
    let code ← d.at? f.codeAddress f.creation
    let mapping ← code.sourceMap.get? s.pc
    return (code, mapping, ← mapping.span)
  match found with
  | some (code, mapping, span) => f.follow code mapping span s.stack.length
  | none => (f, none)

end Frame

end Solscope
