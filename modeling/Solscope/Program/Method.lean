import Solscope.Program.Variable

/-!
# Functions and modifiers

* `Method.variables`: the variables of a method in the order in which they lie on the stack.
* `Method.invocationAt?`: the modifier that is invoked at a position of a function's head.
-/

namespace Solscope

/-- The number of a contract in its program. -/
abbrev ContractId := Nat

/-- A method of a program. -/
structure MethodId where
  contract : ContractId
  /-- The number of the method in its contract. -/
  index : Nat
deriving DecidableEq, Repr

/-- Who may call a function. -/
inductive Visibility where
  | external
  | «public»
  | internal
  | «private»
deriving DecidableEq, Repr

namespace Visibility

/-- The visibility a declaration names; without a word for one it is public. -/
def ofAttribute : Option String → Visibility
  | some "external" => .external
  | some "internal" => .internal
  | some "private" => .private
  | _ => .public

/-- Whether functions are reached by jumps inside the code of a contract only. -/
def isInternal (v : Visibility) : Bool := v = .internal || v = .private

end Visibility

/-- What a method is. -/
inductive MethodKind where
  | function (isConstructor : Bool) (visibility : Visibility)
  | modifier
deriving DecidableEq, Repr

/-- A modifier in the head of a function. -/
structure Invocation where
  /-- The name of the modifier, or of a base contract. -/
  name : String
  /-- The place of the invocation. -/
  site : Option Extent
  /-- The modifier, if there is one of that name. -/
  method : Option MethodId := none
  /-- The stack slot where its variables start, counted from the first one of the function. -/
  stackOffset : Nat := 0
deriving DecidableEq, Repr

/-- A function or modifier. -/
structure Method where
  name : String
  contract : ContractId
  /-- The source file of the definition. -/
  file : Nat
  kind : MethodKind
  /-- The place of the definition. -/
  extent : Extent
  /-- The place of the body, if there is one. -/
  body : Option Extent
  arguments : List Variable
  results : List Variable
  locals : List Variable
  /-- The modifiers in the head, in order. -/
  invocations : List Invocation
  /-- The places of the statements that declare local variables. -/
  declarations : List Extent
  /-- The stack slots of the method's own variables. -/
  ownSlots : Nat
  /-- The stack slots of these and of the variables of all modifiers. -/
  totalSlots : Nat
deriving Repr

namespace Method

/-- Whether a method is a function. -/
def isFunction (m : Method) : Bool := m.kind ≠ .modifier

/-- Whether a method is a modifier. -/
def isModifier (m : Method) : Bool := m.kind = .modifier

/-- Whether a method is a constructor. -/
def isConstructor (m : Method) : Bool :=
  match m.kind with
  | .function isConstructor _ => isConstructor
  | .modifier => false

/-- Who may call a method; modifiers are internal. -/
def visibility (m : Method) : Visibility :=
  match m.kind with
  | .function _ visibility => visibility
  | .modifier => .internal

/-- The stack slots of the arguments. -/
def argumentSlots (m : Method) : Nat := Variable.totalSlots m.arguments

/-- The method's own variables as they follow each other on the stack. -/
def vars (m : Method) : List Variable := m.arguments ++ m.results ++ m.locals

/-- Places the method's own variables on the stack and counts their slots. -/
def place (m : Method) : Method :=
  let afterArguments := Variable.totalSlots m.arguments
  let afterResults := afterArguments + Variable.totalSlots m.results
  let slots := afterResults + Variable.totalSlots m.locals
  { m with
    arguments := Variable.place 0 m.arguments
    results := Variable.place afterArguments m.results
    locals := Variable.place afterResults m.locals
    ownSlots := slots
    totalSlots := slots }

/-- Whether a position lies in the body. -/
def inBody (m : Method) (file : Nat) (p : Position) : Bool :=
  m.body.any fun body => body.contains file p

/-- Whether a position lies in a statement that declares local variables. -/
def inDeclaration (m : Method) (file : Nat) (p : Position) : Bool :=
  m.declarations.any fun declaration => declaration.contains file p

/-- The number of the first modifier whose invocation a position lies in. -/
def invocationAt? (m : Method) (file : Nat) (p : Position) : Option Nat :=
  m.invocations.findIdx? fun i => i.site.any fun site => site.contains file p

end Method

end Solscope
