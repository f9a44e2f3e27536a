import Solscope.Config
import Solscope.Pause.Notification
import Solscope.Read.Stack
import Solscope.Run.CallStack

/-!
# The report of a pause

The innermost frame is read from the machine as it is, every other one from the stack and the memory
it had when it opened the next frame. A variable that cannot be read is left out; if a state
variable cannot be read, the calls of its frame have none and say why. Reading that needs a size that
is none makes no report at all.

* `Report.callsOf`: the calls of one frame.
* `Report.notification`: the calls of all frames.
* `Report.overflows`: whether there is no such report.
-/

namespace Solscope

/-- What variables are read with. -/
structure Report where
  deployments : Deployments
  preimages : Preimages
  config : Config
  storage : Storage

namespace Report

/-- The storage of the account that a frame acts for. -/
def storageView (r : Report) (f : Frame) : StorageView :=
  ⟨r.storage, f.address, r.preimages, r.config.limits⟩

/-- What the variables of a frame with a given stack and memory are read from. -/
def frameView (r : Report) (f : Frame) (stack : List Word) (memory : Bytes) : StackView where
  stack := stack
  memory := memory
  input := f.input
  storage := some (r.storageView f)
  limits := r.config.limits

/-- A variable of a type with its value. -/
def shown (v : Variable) (t : Ty) (value : Value) : ShownVariable := ⟨v.name, t.text, value.json⟩

/-- The value of a state variable; one without a type or place is passed over. -/
def stateVariable (types : Declared) (view : StorageView) (v : Variable) :
    Except ReadError (Option ShownVariable) :=
  match v.ty, v.storage with
  | some t, some start => do
    let (value, _) ← types.readStorage view t start
    return some (shown v t value)
  | _, _ => .ok none

/-- The state variables of the contract that a frame runs. -/
def stateVariables (r : Report) (f : Frame) (code : KnownCode) :
    Except ReadError (List ShownVariable) :=
  match code.program.contract? code.contract with
  | none => .ok []
  | some c =>
    (c.layout.mapM (stateVariable code.program.types (r.storageView f))).map fun values =>
      values.filterMap id

/-- The state variables that the calls of a frame show, and why there are none. -/
def storageOf (r : Report) (f : Frame) (code : KnownCode) : List ShownVariable × Option String :=
  if r.config.showStorage then
    match r.stateVariables f code with
    | .ok values => (values, none)
    | .error e => ([], e.message?)
  else ([], none)

/-- Whether a variable is shown for a call at an instruction. -/
def isShown (mapping : Option Mapping) (v : Variable) : Bool :=
  v.name ≠ "" &&
    match mapping.bind (·.span) with
    | some span => v.isVisibleAt span.file span.start
    | none => v.kind ≠ .local

/--
The value of a variable whose method's variables start at stack slot `base`, if it can be read.
-/
def stackVariable? (types : Declared) (view : StackView) (base : Nat) (v : Variable) :
    Option ShownVariable := do
  let t ← v.ty
  let value ← (types.readStack view t (base + v.stackOffset) v.location).toOption
  return shown v t value

/-- The variables of a method that are shown for a call at an instruction. -/
def methodVariables (types : Declared) (view : StackView) (base : Nat) (mapping : Option Mapping)
    (m : Method) : List ShownVariable :=
  (m.vars.filter (isShown mapping)).filterMap (stackVariable? types view base)

/-- The invocation and the method of the modifier that runs in a call. -/
def running? (p : Program) (m : Method) (c : Call) : Option (Invocation × Method) := do
  let i ← m.invocations[← c.modifier]?
  return (i, ← p.method? (← i.method))

/-- The name of a call: that of its method, followed by that of the modifier that runs. -/
def nameOf (p : Program) (c : Call) (modifier : Option (Invocation × Method)) : String :=
  match modifier with
  | some (_, m) => p.qualifiedName c.method ++ " > " ++ m.name
  | none => p.qualifiedName c.method

/-- A call of a frame whose first variable is in stack slot `base`. -/
def call? (p : Program) (view : StackView) (storage : List ShownVariable × Option String)
    (base : Nat) (c : Call) : Option ShownCall := do
  let m ← p.method? c.method
  let base := base + c.stackOffset
  let modifier := running? p m c
  let own := methodVariables p.types view base c.mapping m
  let inherited := match modifier with
    | some (i, m) => methodVariables p.types view (base + i.stackOffset) c.mapping m
    | none => []
  return {
    name := nameOf p c modifier
    mapping := c.mapping.bind MappingInfo.ofMapping?
    storage := storage.1
    vars := own ++ inherited
    error := storage.2 }

/-- The calls of a frame with a given stack and memory, the innermost one first. -/
def callsOf (r : Report) (f : Frame) (stack : List Word) (memory : Bytes) : List ShownCall :=
  if f.calls.isEmpty then []
  else match r.deployments.at? f.codeAddress f.creation with
    | none => []
    | some code =>
      f.calls.filterMap
        (call? code.program (r.frameView f stack memory) (r.storageOf f code) f.stackBase)

/-- The calls of frames other than the innermost one, the last of them first. -/
def savedCalls (r : Report) (frames : List Frame) : List ShownCall :=
  frames.reverse.flatMap fun f => r.callsOf f f.stack f.memory

/-- What a pause at a step shows. -/
def notification (r : Report) (hit : Hit) (frames : List Frame) (s : Step) : Notification :=
  let innermost := (frames.getLast?.map fun f => r.callsOf f s.stack s.memory).getD []
  ⟨hit, innermost ++ r.savedCalls frames.dropLast⟩

/-! ## Overflows -/

/-- Whether reading one of the variables that are shown of a method overflows. -/
def methodOverflows (types : Declared) (view : StackView) (base : Nat) (mapping : Option Mapping)
    (m : Method) : Bool :=
  (m.vars.filter (isShown mapping)).any fun v => v.ty.any fun t =>
    Solscope.overflows (types.readStack view t (base + v.stackOffset) v.location)

/-- Whether reading the variables of a call overflows. -/
def callOverflows (p : Program) (view : StackView) (base : Nat) (c : Call) : Bool :=
  (p.method? c.method).any fun m =>
    let base := base + c.stackOffset
    methodOverflows p.types view base c.mapping m ||
      (running? p m c).any fun modifier =>
        methodOverflows p.types view (base + modifier.1.stackOffset) c.mapping modifier.2

/-- Whether reading what the calls of a frame show overflows. -/
def frameOverflows (r : Report) (f : Frame) (stack : List Word) (memory : Bytes) : Bool :=
  !f.calls.isEmpty && (r.deployments.at? f.codeAddress f.creation).any fun code =>
    r.config.showStorage && Solscope.overflows (r.stateVariables f code) ||
      f.calls.any (callOverflows code.program (r.frameView f stack memory) f.stackBase)

/-- Whether reading what a pause at a step shows overflows. -/
def overflows (r : Report) (frames : List Frame) (s : Step) : Bool :=
  (frames.getLast?.any fun f => r.frameOverflows f s.stack s.memory) ||
    frames.dropLast.any fun f => r.frameOverflows f f.stack f.memory

end Report

end Solscope
