import Solscope.Proofs.Ty.Resolution

/-!
# Resolving with a state

What lies around a descriptor can be passed down to what is inside it, or be kept in one place, where
it is changed before something inside is resolved and changed back after that. In the second form a
reading that fails half way must not leave its changes behind: whatever is resolved next would get
another type. And as the depth is kept there as well, it would not be clear that resolving ends.

* `Declared.resolveTracked`: resolving with a state.
* `Declared.Restores.read`: each way leaves the state as it found it if resolving what is inside does.
* `Declared.restores`: **resolving ends, leaves the state as it found it** and gives the same type as
  without a state.
* `Declared.run_resolve?`, `Declared.follow?_eq_run`: the states in which resolving starts.
* `Declared.progress_restored`: all of it for any state, and what it means for members of structs.
-/

namespace Solscope

/-- How far the resolving of a descriptor has got. -/
structure Progress where
  /-- The number of descriptors that are being resolved. -/
  depth : Nat := 0
  /-- The structs whose members are being resolved, the outermost one first. -/
  structs : List String := []
  /-- The references followed to get here. -/
  unfolds : Nat := 0
deriving DecidableEq, Repr

namespace Progress

/-- What is being resolved around a descriptor. -/
def around (p : Progress) : Expansion := { structs := p.structs.reverse, unfolds := p.unfolds }

/-- One more descriptor is being resolved. -/
def descend (p : Progress) : Progress := { p with depth := p.depth + 1 }

/-- A descriptor has been resolved. -/
def ascend (p : Progress) : Progress := { p with depth := p.depth - 1 }

/-- The members of a struct are about to be resolved. -/
def enter (name : String) (p : Progress) : Progress := { p with structs := p.structs ++ [name] }

/-- The members of the innermost struct have been resolved. -/
def leave (p : Progress) : Progress := { p with structs := p.structs.dropLast }

variable (p : Progress) (name : String)

@[simp] theorem ascend_descend : p.descend.ascend = p := rfl

@[simp] theorem leave_enter : (p.enter name).leave = p := by
  simp [enter, leave]

@[simp] theorem around_descend : p.descend.around = p.around := rfl

@[simp] theorem around_enter :
    (p.enter name).around = { p.around with structs := name :: p.around.structs } := by
  simp [enter, around]

theorem mem_structs_around : name ∈ p.around.structs ↔ name ∈ p.structs := List.mem_reverse

end Progress

/-- Computations with a state. One that does not end has no result, and no state after it. -/
abbrev Tracking := StateT Progress Option

namespace Tracking

theorem run_get (p : Progress) : (get : Tracking Progress).run p = some (p, p) := rfl

theorem run_modify (change : Progress → Progress) (p : Progress) :
    (modify change : Tracking Unit).run p = some ((), change p) := rfl

theorem run_bind {α β : Type} {x : Tracking α} {next : α → Tracking β} {p q : Progress} {a : α}
    (h : x.run p = some (a, q)) : (x >>= next).run p = (next a).run q := by
  rw [StateT.run_bind, h]
  rfl

end Tracking

namespace Declared

open Descriptor

section

variable (types : Declared) (resolve : Option String → List Char → Tracking (Option Ty))

/-- Resolves the members of a struct one after the other, and leaves out those without a type. -/
def resolveMembers (scope : Option String) :
    List (String × String) → Tracking (List (String × Ty))
  | [] => return []
  | (name, descriptor) :: rest => do
    let t ← resolve scope descriptor.toList
    let fields ← resolveMembers scope rest
    match t with
    | some t => return (name, t) :: fields
    | none => return fields

/--
Reads a normalized descriptor in one way, where what is inside it is resolved by `resolve`. There is
no type as soon as something inside has none.
-/
def readTracked (contract : Option String) (descriptor : List Char) :
    Reading → Tracking (Option Ty)
  | .mapping => do
    let some (key, value) := mapping? descriptor | return none
    let some key ← resolve contract key | return none
    let some value ← resolve contract value | return none
    return some (.mapping key value)
  | .array => do
    let some (element, size) := array? descriptor | return none
    let some element ← resolve contract element | return none
    if size.isEmpty then return some (.dynamicArray element)
    return (Text.readSize size).toOption.map (.staticArray element)
  | .elementary => return elementary? descriptor
  | .struct => do
    let some name := struct? descriptor | return none
    let some s := lookup? types.structs contract name | return none
    let scope := s.scope.or contract
    let p ← get
    if s.name ∈ p.structs then return some (.structRef ⟨s.name, scope, p.unfolds + 1⟩)
    modify (Progress.enter s.name)
    let fields ← resolveMembers resolve scope s.members
    modify Progress.leave
    return some (.struct s.name fields)
  | .enum => do
    let some name := enum? descriptor | return none
    return (lookup? types.enums contract name).map fun e => .enum e.name e.members
  | .contract => return (contract? descriptor).map .contract

end

/--
Resolves a descriptor as seen from inside `contract`, unless too many are being resolved already. The
readings are tried one after the other, each in the state that the one before leaves. The depth in
the state is all that keeps this from going on forever: what goes on for more than so many `levels`
counts as not ending.
-/
def resolveTracked (types : Declared) : (levels : Nat) → (contract : Option String) →
    (descriptor : List Char) → Tracking (Option Ty)
  | 0, _, _ => failure
  | levels + 1, contract, descriptor => do
    if depthLimit ≤ (← get).depth then return none
    modify Progress.descend
    let t ← readings.findSomeM?
      (readTracked types (resolveTracked types levels) contract (normalize descriptor))
    modify Progress.ascend
    return t

variable {types : Declared} {contract : Option String} {p : Progress} {left : Nat}
  {resolve : Option String → List Char → Tracking (Option Ty)}

/-! ## The state afterwards -/

/-- Readings that all restore the state may be tried in a row. -/
theorem run_findSomeM? {track : Reading → Tracking (Option Ty)} {read : Reading → Option Ty}
    (h : ∀ reading, (track reading).run p = some (read reading, p)) (rest : List Reading) :
    (rest.findSomeM? track).run p = some (rest.findSome? read, p) := by
  induction rest with
  | nil => rfl
  | cons reading rest ih =>
    rw [List.findSomeM?_cons, List.findSome?_cons, Tracking.run_bind (h reading)]
    cases read reading with
    | none => exact ih
    | some t => rfl

/--
Where `left` more descriptors may be nested, resolving ends, with the same type as without a state
and with the state from before.
-/
def Restores (types : Declared) (left : Nat)
    (resolve : Option String → List Char → Tracking (Option Ty)) : Prop :=
  ∀ contract descriptor (p : Progress), depthLimit - p.depth = left →
    (resolve contract descriptor).run p =
      some (types.resolveNested left p.around contract descriptor, p)

/-- The members of a struct that have a type, each resolved by itself. -/
def fieldsNested (types : Declared) (depth : Nat) (around : Expansion) (scope : Option String)
    (members : List (String × String)) : List (String × Ty) :=
  members.filterMap fun m =>
    (types.resolveNested depth around scope m.2.toList).map fun t => (m.1, t)

theorem structTy_eq_fieldsNested {depth : Nat} {around : Expansion} {s : StructDecl}
    (hs : s.name ∉ around.structs) :
    structTy s contract around (types.resolveNested depth) =
      .struct s.name (types.fieldsNested depth
        { around with structs := s.name :: around.structs } (s.scope.or contract) s.members) := by
  rw [structTy, if_neg hs]
  rfl

namespace Restores

/-- **Members do not get in each other's way**, be they left out or not. -/
theorem members (h : types.Restores left resolve) (hp : depthLimit - p.depth = left)
    (scope : Option String) (members : List (String × String)) :
    (resolveMembers resolve scope members).run p =
      some (types.fieldsNested left p.around scope members, p) := by
  induction members with
  | nil =>
    rw [resolveMembers]
    rfl
  | cons member rest ih =>
    rw [resolveMembers, Tracking.run_bind (h scope member.2.toList p hp), Tracking.run_bind ih]
    unfold fieldsNested
    rw [List.filterMap_cons]
    cases types.resolveNested left p.around scope member.2.toList with
    | none => rfl
    | some t => rfl

/-- **A mapping restores the state**, whether its key fails, its value or nothing. -/
theorem readMapping (h : types.Restores left resolve) (hp : depthLimit - p.depth = left)
    (contract : Option String) (descriptor : List Char) :
    (types.readTracked resolve contract descriptor .mapping).run p =
      some (types.readNested left p.around contract descriptor .mapping, p) := by
  rw [readTracked, readNested]
  cases mapping? descriptor with
  | none => rfl
  | some sides =>
    dsimp only [Option.bind_eq_bind, Option.bind_some]
    rw [Tracking.run_bind (h contract sides.1 p hp)]
    cases types.resolveNested left p.around contract sides.1 with
    | none => rfl
    | some key =>
      dsimp only [Option.bind_some]
      rw [Tracking.run_bind (h contract sides.2 p hp)]
      cases types.resolveNested left p.around contract sides.2 with
      | none => rfl
      | some value => rfl

/-- **An array restores the state**, also if its length is no number. -/
theorem readArray (h : types.Restores left resolve) (hp : depthLimit - p.depth = left)
    (contract : Option String) (descriptor : List Char) :
    (types.readTracked resolve contract descriptor .array).run p =
      some (types.readNested left p.around contract descriptor .array, p) := by
  rw [readTracked, readNested]
  cases array? descriptor with
  | none => rfl
  | some cut =>
    dsimp only [Option.bind_eq_bind, Option.bind_some]
    rw [Tracking.run_bind (h contract cut.1 p hp)]
    cases types.resolveNested left p.around contract cut.1 with
    | none => rfl
    | some element =>
      dsimp only [Option.bind_some]
      split
      · rfl
      · cases Text.readSize cut.2 <;> rfl

/-- **A struct restores the state**: what is taken off the list after its members is its own name. -/
theorem readStruct (h : types.Restores left resolve) (hp : depthLimit - p.depth = left)
    (contract : Option String) (descriptor : List Char) :
    (types.readTracked resolve contract descriptor .struct).run p =
      some (types.readNested left p.around contract descriptor .struct, p) := by
  rw [readTracked, readNested]
  cases struct? descriptor with
  | none => rfl
  | some name =>
    cases hs : lookup? types.structs contract name with
    | none => simp [hs]
    | some s =>
      simp only [hs, Option.bind_eq_bind, Option.bind_some]
      rw [Tracking.run_bind (Tracking.run_get p)]
      by_cases hmem : s.name ∈ p.structs
      · rw [if_pos hmem, structTy, if_pos ((p.mem_structs_around _).2 hmem)]
        rfl
      · have hnew : s.name ∉ p.around.structs := fun hin => hmem ((p.mem_structs_around _).1 hin)
        have hmembers := h.members (p := p.enter s.name) hp (s.scope.or contract) s.members
        rw [if_neg hmem, Tracking.run_bind (Tracking.run_modify _ p), Tracking.run_bind hmembers,
          Tracking.run_bind (Tracking.run_modify _ _), p.leave_enter, p.around_enter,
          structTy_eq_fieldsNested hnew]
        rfl

/-- **Every way to read a descriptor restores the state.** -/
theorem read (h : types.Restores left resolve) (hp : depthLimit - p.depth = left)
    (contract : Option String) (descriptor : List Char) (reading : Reading) :
    (types.readTracked resolve contract descriptor reading).run p =
      some (types.readNested left p.around contract descriptor reading, p) := by
  cases reading with
  | mapping => exact h.readMapping hp contract descriptor
  | array => exact h.readArray hp contract descriptor
  | struct => exact h.readStruct hp contract descriptor
  | elementary | contract =>
    rw [readTracked, readNested]
    rfl
  | enum =>
    rw [readTracked, readNested]
    cases enum? descriptor with
    | none => rfl
    | some name =>
      cases hs : lookup? types.enums contract name with
      | none => simp [hs]
      | some e => simp [hs]

end Restores

/-- **Resolving ends and restores the state**, however many descriptors may be nested. -/
theorem restores (types : Declared) {left levels : Nat} (hlevels : left < levels) :
    types.Restores left (types.resolveTracked levels) := by
  induction left generalizing levels with
  | zero =>
    intro contract descriptor p hp
    obtain ⟨levels, rfl⟩ : ∃ n, levels = n + 1 := ⟨levels - 1, by omega⟩
    have hdeep : depthLimit ≤ p.depth := by omega
    rw [resolveTracked, Tracking.run_bind (Tracking.run_get p), if_pos hdeep]
    rfl
  | succ left ih =>
    intro contract descriptor p hp
    obtain ⟨levels, rfl⟩ : ∃ n, levels = n + 1 := ⟨levels - 1, by omega⟩
    have hshallow : ¬ depthLimit ≤ p.depth := by omega
    have hinner : types.Restores left (types.resolveTracked levels) := ih (by omega)
    have hdescend : depthLimit - p.descend.depth = left := by
      change depthLimit - (p.depth + 1) = left
      omega
    have hreadings :=
      run_findSomeM? (hinner.read hdescend contract (normalize descriptor)) readings
    rw [p.around_descend, ← resolveNested_succ] at hreadings
    rw [resolveTracked, Tracking.run_bind (Tracking.run_get p), if_neg hshallow,
      Tracking.run_bind (Tracking.run_modify _ p), Tracking.run_bind hreadings,
      Tracking.run_bind (Tracking.run_modify _ p.descend), p.ascend_descend]
    rfl

/-- For the type of a variable resolving starts with nothing around the descriptor. -/
theorem run_resolve? (types : Declared) (descriptor : String) (contract : Option String) :
    (types.resolveTracked (depthLimit + 1) contract descriptor.toList).run {} =
      some (types.resolve? descriptor contract, {}) :=
  types.restores (Nat.lt_succ_self depthLimit) contract descriptor.toList {} rfl

/-- For a reference it starts with the count of those that were followed. -/
theorem follow?_eq_run (types : Declared) (r : StructRef) :
    types.follow? r = if unfoldLimit < r.unfolds then none
      else ((types.resolveTracked (depthLimit + 1) r.scope ("struct " ++ r.name).toList).run
        { unfolds := r.unfolds }).bind Prod.fst := by
  have hrun := types.restores (Nat.lt_succ_self depthLimit) r.scope ("struct " ++ r.name).toList
    { unfolds := r.unfolds } rfl
  rw [hrun]
  rfl

/--
**Resolving leaves no trace.** Whatever is declared and however far the resolving has got, it ends
before it runs out of levels, and the depth, the structs around the descriptor and the count of
references are what they were before, whether there is a type or not. This holds of each way to read
a descriptor, wherever inside it fails. So a member of a struct has the type that it has if it is
resolved alone, and it is left out only if it has none, whatever came of the members before it.
-/
theorem progress_restored (types : Declared) (contract : Option String) (p : Progress)
    (more : Nat) :
    let resolve := types.resolveTracked (depthLimit + 1 + more)
    (∀ descriptor, (resolve contract descriptor).run p =
      some (types.resolveNested (depthLimit - p.depth) p.around contract descriptor, p)) ∧
    (∀ reading descriptor, (types.readTracked resolve contract descriptor reading).run p =
      some (types.readNested (depthLimit - p.depth) p.around contract descriptor reading, p)) ∧
    ∀ members, (resolveMembers resolve contract members).run p =
      some (members.filterMap fun m =>
        (types.resolveNested (depthLimit - p.depth) p.around contract m.2.toList).map
          fun t => (m.1, t), p) := by
  intro resolve
  have hlevels : depthLimit - p.depth < depthLimit + 1 + more := by omega
  have hrestores : types.Restores (depthLimit - p.depth) resolve := types.restores hlevels
  refine ⟨fun descriptor => ?_, fun reading descriptor => ?_, fun members => ?_⟩
  · exact hrestores contract descriptor p rfl
  · exact hrestores.read rfl contract descriptor reading
  · exact hrestores.members rfl contract members

end Declared

end Solscope
