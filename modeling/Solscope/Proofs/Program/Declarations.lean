import Solscope.Proofs.Program.Linking

/-!
# The nodes that methods come from

Every contract of a program is declared by a node, and every method by a node below it. Linking
finds the modifiers of a method and leaves the rest as it was declared.

* `Ast.exists_node_of_contractsFrom`: the node of a contract.
* `Program.exists_declaration`: **the node of a method**, and what linking makes of it.
-/

namespace Solscope

namespace Ast

variable {around : Surroundings} {id : ContractId}

/-- The nodes below the node of a contract that declare methods. -/
def methodNodes (node : Ast) : List Ast :=
  node.children.filter fun child =>
    child.kind = "FunctionDefinition" || child.kind = "ModifierDefinition"

/-- The names of modifiers and base contracts as they are written in the head of a method. -/
def invokedNames (node : Ast) : List String :=
  (node.childrenOf "ModifierInvocation").map fun i =>
    (i.children.head?.bind fun target => (target.text? "value").or target.name?).getD ""

/-- The node of each contract. -/
theorem exists_node_of_contractsFrom {nodes : List Ast} {contracts : List Contract}
    (h : contractsFrom around id nodes = .ok contracts) {n : Nat} {c : Contract}
    (hc : contracts[n]? = some c) :
    ∃ node, nodes[n]? = some node ∧ node.contract around (id + n) = .ok c := by
  induction nodes generalizing contracts id n with
  | nil =>
    obtain rfl := Except.ok.inj h
    cases hc
  | cons node rest ih =>
    rw [contractsFrom] at h
    cases hfirst : node.contract around id with
    | error e => rw [hfirst] at h; cases h
    | ok first =>
      cases hothers : contractsFrom around (id + 1) rest with
      | error e => rw [hfirst, hothers] at h; cases h
      | ok others =>
        rw [hfirst, hothers] at h
        obtain rfl := Except.ok.inj h
        cases n with
        | zero =>
          obtain rfl := Option.some.inj hc
          exact ⟨node, rfl, hfirst⟩
        | succ n =>
          obtain ⟨found, hfound, hcontract⟩ := ih hothers hc
          rw [Nat.add_assoc, Nat.add_comm 1] at hcontract
          exact ⟨found, hfound, hcontract⟩

/-- A method knows its contract, and the modifiers that it invokes by the names in its head. -/
theorem method_spec {node : Ast} (contract : String) (isModifier : Bool) :
    HoldsOfOk (fun m : Method => m.contract = id ∧ m.invocations.map (·.name) = node.invokedNames)
      (node.method around id contract isModifier) := by
  have hinvocations : HoldsOfOk (fun is : List Invocation => is.map (·.name) = node.invokedNames)
      ((node.childrenOf "ModifierInvocation").mapM fun i => i.invocation around.sources) :=
    .map_mapM _ fun i _ => .bind fun site _ => .pure rfl
  unfold method
  refine .bind fun extent _ => ?_
  cases node.child? "Block" <;>
    exact .bind fun body _ => .bind fun found _ => .bind fun invocations h =>
      .pure ⟨rfl, hinvocations invocations h⟩

end Ast

namespace Program

variable {sources : Sources} {asts : List Ast} {p : Program}

/--
**The node of a method.** A method of a program is declared by a node below the one of its contract,
and linking only finds its modifiers along the linearization of the contract.
-/
theorem exists_declaration (h : ofAsts sources asts = .ok p) {id : ContractId} {c : Contract}
    (hc : p.contract? id = some c) {index : Nat} {m : Method} (hm : c.methods[index]? = some m) :
    ∃ node child declared laid, (Ast.contractNodes asts)[id]? = some node ∧
      node.methodNodes[index]? = some child ∧
      child.method ⟨sources, .ofAsts asts⟩ id (node.name?.getD "")
        (child.kind = "ModifierDefinition") = .ok declared ∧
      m = declared.bindInvocations laid c.linearized := by
  obtain ⟨contracts, hcontracts, rfl⟩ := exists_contracts_of_ofAsts h
  obtain ⟨laid, hlink⟩ := contract?_link (.ofAsts asts) contracts id
  rw [hlink] at hc
  obtain ⟨resolved, hresolved, rfl⟩ := Option.map_eq_some_iff.1 hc
  simp only [Inheritance.resolve, List.getElem?_map, List.getElem?_zipIdx, Option.map_map,
    Option.map_eq_some_iff] at hresolved
  obtain ⟨plain, hplain, rfl⟩ := hresolved
  obtain ⟨node, hnode, hcontract⟩ := Ast.exists_node_of_contractsFrom hcontracts hplain
  rw [Nat.zero_add] at hcontract
  obtain ⟨hcontract, hmethods⟩ := node.contract_spec plain hcontract
  change (plain.methods.map _)[index]? = some m at hm
  rw [List.getElem?_map] at hm
  obtain ⟨declared, hdeclared, rfl⟩ := Option.map_eq_some_iff.1 hm
  obtain ⟨child, hchild, hmethod⟩ := exists_getElem?_of_mapM hmethods hdeclared
  exact ⟨node, child, declared, laid, hnode, hchild, by rw [hcontract.name]; exact hmethod, rfl⟩

end Program

end Solscope
