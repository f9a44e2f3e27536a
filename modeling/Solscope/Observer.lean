import Solscope.Session

/-!
# Observing a machine

The machine tells an observer when it opens a frame, when it closes one and before every
instruction.

* `Observer.enter`, `Observer.leave`: frames.
* `Observer.step`, `Observer.step?`: an instruction; the hash inputs it reads are remembered, and code
  that runs for the first time is recognised.
-/

namespace Solscope

/-- The input of a frame: bytes of its own, or a part of the memory of the frame below. -/
inductive FrameInput where
  | own (data : Bytes)
  | shared (start stop : Nat)
deriving DecidableEq, Repr

/-- A frame of the machine. -/
structure OpenFrame where
  /-- Whether the code creates a contract. -/
  creation : Bool
  /-- The input, once an instruction has been seen. -/
  input : Option Bytes := none
deriving DecidableEq, Repr

/-- The machine before an instruction. -/
structure Machine where
  /-- The code that runs, with the zeros that the machine puts behind it. -/
  code : Bytes
  pc : Nat
  /-- The operand stack, bottom first. -/
  stack : List Word
  memory : Bytes
  /-- The account that the code acts for. -/
  address : Address
  /-- The account whose code runs, if that is another one. -/
  codeAddress : Option Address
  input : FrameInput
  /-- The memory that frames share. -/
  sharedMemory : Bytes
deriving DecidableEq, Repr

namespace Machine

/-- The account whose code runs. -/
def runningCode (m : Machine) : Address := m.codeAddress.getD m.address

/-- The input of the frame; a part of the shared memory that is not there is empty. -/
def frameInput (m : Machine) : Bytes :=
  match m.input with
  | .own data => data
  | .shared start stop =>
    if start ≤ stop ∧ stop ≤ m.sharedMemory.length then m.sharedMemory.slice start (stop - start)
    else []

/-- The instruction. -/
def opcode (m : Machine) : UInt8 := m.code[m.pc]?.getD 0

/--
The step that the instruction is in a frame with some others below it, fewer than a size can count.
-/
def toStep (m : Machine) (below : Nat) (creation : Bool) (input : Bytes) : Step where
  pc := m.pc
  opcode := m.opcode
  depth := min below (Size.largest - 1)
  depth_lt := Nat.lt_of_le_of_lt (Nat.min_le_right ..) (by decide)
  address := m.address
  creation
  stack := m.stack
  memory := m.memory
  input

end Machine

/-- A session with the open frames of the machine that it observes. -/
structure Observer where
  session : Session := {}
  /-- The open frames, the innermost one first. -/
  frames : List OpenFrame := []

namespace Observer

/-- The machine opens a frame. -/
def enter (o : Observer) (creation : Bool) : Observer :=
  { o with frames := { creation } :: o.frames }

/-- The machine closes a frame. The run is over when there is none left. -/
def leave (o : Observer) : Observer :=
  let frames := o.frames.tail
  { session := if frames.isEmpty then o.session.endTransaction else o.session, frames }

/-- The most bytes of a hash input that is remembered. -/
def largestPreimage : Nat := 1024

/--
The input of the hash that an instruction computes, unless it is too short for a key or too long.
-/
def hashInput? (stack : List Word) (memory : Bytes) : Option Bytes :=
  match stack.reverse with
  | offset :: size :: _ =>
    let (offset, size) := (offset.toNat, size.toNat)
    if offset ≤ Size.largest ∧ 32 ≤ size ∧ size ≤ largestPreimage then
      some (memory.paddedSlice offset size)
    else none
  | _ => none

/-- Recognises code when the first instruction of its frame is seen. -/
def recognise (s : Session) (f : OpenFrame) (m : Machine) : Session :=
  if f.input.isSome then s
  else { s with deployments := s.deployments.recognise m.runningCode m.code f.creation }

/-- Remembers the hash input that an instruction reads. -/
def recordHashInput (s : Session) (m : Machine) : Session :=
  if Opcode.isHash m.opcode then
    match hashInput? m.stack m.memory with
    | some data => s.recordPreimage data
    | none => s
  else s

/-- The machine comes to an instruction, and pauses before it or not. -/
def step (o : Observer) (storage : Storage) (m : Machine) : Observer × Option Notification :=
  match o.frames with
  | [] => (o, none)
  | f :: outer =>
    let s := recordHashInput (recognise o.session f m) m
    let input := f.input.getD m.frameInput
    let (s, pause) := s.step storage (m.toStep outer.length f.creation input)
    ({ session := s, frames := { f with input := some input } :: outer }, pause)

/-- The machine comes to an instruction, unless reading what a pause there shows overflows. -/
def step? (o : Observer) (storage : Storage) (m : Machine) :
    Option (Observer × Option Notification) :=
  match o.frames with
  | [] => some (o.step storage m)
  | f :: outer =>
    let s := recordHashInput (recognise o.session f m) m
    let event := m.toStep outer.length f.creation (f.input.getD m.frameInput)
    (s.step? storage event).map fun _ => o.step storage m

/-- Ends a pause. -/
def apply (o : Observer) (c : Command) : Observer := { o with session := o.session.apply c }

/--
The storage as a run sees it: values that the run has come across, then those that lie below, which
may fail.
-/
def overlaid (journal : Address → Word → Option Word) (below : Storage) : Storage := fun a slot =>
  match journal a slot with
  | some w => .ok w
  | none => below a slot

end Observer

end Solscope
