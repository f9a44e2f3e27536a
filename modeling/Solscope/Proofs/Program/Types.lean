import Solscope.Program.Types
import Solscope.Proofs.Ty.Lookup

/-!
# The types of several trees

Trees declare types one after the other, and a later declaration takes the place of one of the same
name. So what more trees add to declared types does not depend on these.

* `Declared.registered_ofAsts`: what trees declare is put together one declaration after the other.
* `Declared.adds_ofAsts`: **more trees put their declarations in place of those of equal names**.
-/

namespace Solscope.Declared

/-! ## One declaration after the other -/

theorem registered_addNode {types : Declared} (h : types.Registered) (contract : Option String)
    (node : Ast) : (types.addNode contract node).Registered := by
  unfold addNode
  split
  · exact h.struct _
  · exact h.enum _
  · exact h

mutual

theorem registered_addTree {types : Declared} (h : types.Registered) (contract : Option String) :
    (node : Ast) → (types.addTree contract node).Registered
  | ⟨id, kind, src, attributes, children⟩ => by
    unfold addTree
    dsimp only
    split
    · split
      · exact registered_addTrees (h.contract _) _ children
      · exact h
    · exact registered_addTrees (registered_addNode h _ _) _ children

theorem registered_addTrees {types : Declared} (h : types.Registered) (contract : Option String) :
    (nodes : List Ast) → (types.addTrees contract nodes).Registered
  | [] => h
  | node :: rest => registered_addTrees (registered_addTree h contract node) contract rest

end

theorem registered_ofAsts (asts : List Ast) : (ofAsts asts).Registered :=
  registered_addTrees .none none asts

/-! ## Adding trees -/

/-- Declared types with more structs and enumerations, in place of those of the same names. -/
structure Adds (types more extended : Declared) : Prop where
  structs : Extends types.structs more.structs extended.structs
  enums : Extends types.enums more.enums extended.enums

/-- What is added in two steps is added at once. -/
theorem Adds.comp {types first second both extended extended' : Declared}
    (h : Adds types first extended) (h' : Adds extended second extended')
    (hboth : Adds first second both) : Adds types both extended' where
  structs key := by rw [h'.structs, hboth.structs, h.structs, Option.or_assoc]
  enums key := by rw [h'.enums, hboth.enums, h.enums, Option.or_assoc]

theorem adds_nothing (types : Declared) : Adds types {} types :=
  ⟨fun _ => rfl, fun _ => rfl⟩

theorem adds_contract (types : Declared) (name : String) :
    Adds types (({} : Declared).addContract name) (types.addContract name) :=
  ⟨fun _ => rfl, fun _ => rfl⟩

theorem extends_insert {α : Type} (entries : List (String × α)) (key : String) (x : α) :
    Extends entries [(key, x)] (Ordered.insert key x entries) := by
  intro other
  rw [Ordered.find?_insert]
  by_cases h : key = other <;> simp [Ordered.find?, h]

theorem adds_node (types : Declared) (contract : Option String) (node : Ast) :
    Adds types (({} : Declared).addNode contract node) (types.addNode contract node) := by
  unfold addNode
  split
  · exact ⟨extends_insert _ _ _, fun _ => rfl⟩
  · exact ⟨fun _ => rfl, extends_insert _ _ _⟩
  · exact types.adds_nothing

mutual

theorem adds_tree (types : Declared) (contract : Option String) :
    (node : Ast) → Adds types (({} : Declared).addTree contract node) (types.addTree contract node)
  | ⟨id, kind, src, attributes, children⟩ => by
    unfold addTree
    dsimp only
    split
    · split
      · exact (types.adds_contract _).comp (adds_trees _ _ children) (adds_trees _ _ children)
      · exact types.adds_nothing
    · exact (types.adds_node _ _).comp (adds_trees _ _ children) (adds_trees _ _ children)

theorem adds_trees (types : Declared) (contract : Option String) : (nodes : List Ast) →
    Adds types (({} : Declared).addTrees contract nodes) (types.addTrees contract nodes)
  | [] => types.adds_nothing
  | node :: rest =>
    (adds_tree types contract node).comp (adds_trees _ contract rest) (adds_trees _ contract rest)

end

theorem addTrees_append (types : Declared) (contract : Option String) (nodes more : List Ast) :
    types.addTrees contract (nodes ++ more) =
      (types.addTrees contract nodes).addTrees contract more := by
  induction nodes generalizing types with
  | nil => rfl
  | cons node rest ih => exact ih _

/-- **More trees put their declarations in place of those of equal names.** -/
theorem adds_ofAsts (asts more : List Ast) :
    Adds (ofAsts asts) (ofAsts more) (ofAsts (asts ++ more)) := by
  rw [ofAsts, ofAsts, ofAsts, addTrees_append]
  exact adds_trees _ none more

end Solscope.Declared
