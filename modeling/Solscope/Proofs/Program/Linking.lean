import Solscope.Program.OfAsts
import Solscope.Proofs.Results
import Solscope.Proofs.Ty.Resolution

/-!
# What linking keeps and adds

Contracts are read one by one and then tied together. Their own state variables stay as they were
declared, and their layouts place these variables.

* `Ast.contract_spec`: what a contract has of its node.
* `Program.stateVariablesOf_eq`: the state variables of a contract are those of its node.
* `Program.layout_eq`: **a layout places the state variables of the bases, most basic first.**
* `Program.shape_of_mem_stateVariablesOf`: what types state variables have.
-/

namespace Solscope

/-! ## Contracts as they are declared -/

variable {sources : Sources} {asts : List Ast} {p : Program}

namespace Ast

/-- The nodes of trees that declare contracts. -/
def contractNodes (asts : List Ast) : List Ast :=
  asts.flatMap fun ast => ast.childrenOf "ContractDefinition"

variable {around : Surroundings} {id : ContractId}

/-- A contract has what its node declares, methods and what linking finds aside. -/
structure IsNodeOf (node : Ast) (types : Declared) (c : Contract) : Prop where
  name : node.name? = some c.name
  nodeId : c.nodeId = node.id
  linearizedIds : c.linearizedIds = node.ids "linearizedBaseContracts"
  parentNames : c.parentNames = node.parentNames
  stateVariables : c.stateVariables = node.stateVariables types c.name

/-- A contract is read from its node. -/
theorem contract_spec (node : Ast) : HoldsOfOk (fun c : Contract =>
    node.IsNodeOf around.types c ∧ node.methods around id c.name = .ok c.methods)
    (node.contract around id) := by
  unfold contract requireName
  cases hname : node.name? with
  | none => exact .bind fun _ h => nomatch h
  | some name =>
    refine .bind fun found hfound => .bind fun extent _ => .bind fun methods hmethods => .pure ?_
    obtain rfl := Except.ok.inj hfound
    exact ⟨⟨hname, rfl, rfl, rfl, rfl⟩, hmethods⟩

/-- What every contract takes over from its node, all contracts take over from their nodes. -/
theorem map_contractsFrom {α : Type} {field : Contract → α} {ofNode : Ast → α}
    (h : ∀ node id, HoldsOfOk (fun c : Contract => field c = ofNode node)
      (Ast.contract around id node)) (nodes : List Ast) :
    HoldsOfOk (fun contracts : List Contract => contracts.map field = nodes.map ofNode)
      (contractsFrom around id nodes) := by
  induction nodes generalizing id with
  | nil => exact .pure rfl
  | cons node rest ih =>
    rw [contractsFrom]
    refine .bind fun c hc => .bind fun cs hcs => .pure ?_
    rw [List.map_cons, List.map_cons, h node id c hc, ih cs hcs]

theorem stateVariables_contractsFrom (nodes : List Ast) :
    HoldsOfOk (fun contracts : List Contract => contracts.map (·.stateVariables) =
      nodes.map fun node => node.stateVariables around.types (node.name?.getD ""))
      (contractsFrom around id nodes) :=
  map_contractsFrom (fun node _ c hc => by
    obtain ⟨hnode, -⟩ := node.contract_spec c hc
    rw [hnode.stateVariables, hnode.name]
    rfl) nodes

end Ast

/-! ## Linked programs -/

namespace Program

/-- The variables that the contract of a number declares itself. -/
def stateVariablesOf (p : Program) (id : ContractId) : List Variable :=
  ((p.contract? id).map (·.stateVariables)).getD []

theorem exists_contracts_of_ofAsts (h : ofAsts sources asts = .ok p) :
    ∃ contracts,
      Ast.contractsFrom ⟨sources, .ofAsts asts⟩ 0 (Ast.contractNodes asts) = .ok contracts ∧
      p = link (.ofAsts asts) contracts := by
  change (Ast.contractsFrom ⟨sources, .ofAsts asts⟩ 0 (Ast.contractNodes asts)).bind
    (fun contracts => .ok (link (.ofAsts asts) contracts)) = .ok p at h
  cases hcontracts : Ast.contractsFrom ⟨sources, .ofAsts asts⟩ 0 (Ast.contractNodes asts) with
  | error e => rw [hcontracts] at h; cases h
  | ok contracts =>
    rw [hcontracts] at h
    exact ⟨contracts, rfl, (Except.ok.inj h).symm⟩

/-- Finding bases keeps the variables that contracts declare. -/
theorem stateVariables_resolve (contracts : List Contract) (id : ContractId) :
    (Inheritance.resolve contracts)[id]?.map (·.stateVariables) =
      contracts[id]?.map (·.stateVariables) := by
  simp only [Inheritance.resolve, List.getElem?_map, List.getElem?_zipIdx, Option.map_map]
  cases contracts[id]? <;> rfl

/-- A linked contract has bases and a layout that were found before its modifiers. -/
theorem contract?_link (types : Declared) (contracts : List Contract) (id : ContractId) :
    ∃ laid, (link types contracts).contract? id =
      (Inheritance.resolve contracts)[id]?.map fun c =>
        (c.layOut types (Inheritance.resolve contracts)).bindInvocations laid := by
  let resolved := Inheritance.resolve contracts
  refine ⟨resolved.map (Contract.layOut types resolved), ?_⟩
  rw [contract?, link, List.getElem?_map, List.getElem?_map, Option.map_map]
  rfl

/-- Linking keeps the variables that contracts declare. -/
theorem stateVariablesOf_link (types : Declared) (contracts : List Contract) (id : ContractId) :
    (link types contracts).stateVariablesOf id =
      (contracts[id]?.map (·.stateVariables)).getD [] := by
  obtain ⟨laid, hlink⟩ := contract?_link types contracts id
  rw [stateVariablesOf, hlink, Option.map_map, ← stateVariables_resolve]
  rfl

/-- **The state variables of a contract are those that its node declares.** -/
theorem stateVariablesOf_eq (h : ofAsts sources asts = .ok p) (id : ContractId) :
    p.stateVariablesOf id = ((Ast.contractNodes asts)[id]?.map fun node =>
      node.stateVariables p.types (node.name?.getD "")).getD [] := by
  obtain ⟨contracts, hcontracts, rfl⟩ := exists_contracts_of_ofAsts h
  rw [stateVariablesOf_link, ← List.getElem?_map, Ast.stateVariables_contractsFrom _ _ hcontracts,
    List.getElem?_map]
  rfl

/-- **A layout places the variables of a contract and its bases, the most basic one first.** -/
theorem layout_eq (h : ofAsts sources asts = .ok p) {id : ContractId} {c : Contract}
    (hc : p.contract? id = some c) :
    c.layout = StorageLayout.place p.types .origin
      (c.linearized.reverse.flatMap p.stateVariablesOf) := by
  obtain ⟨contracts, -, rfl⟩ := exists_contracts_of_ofAsts h
  obtain ⟨laid, hlink⟩ := contract?_link (.ofAsts asts) contracts id
  rw [hlink] at hc
  obtain ⟨c, -, rfl⟩ := Option.map_eq_some_iff.1 hc
  have hvars : (link (.ofAsts asts) contracts).stateVariablesOf = fun id =>
      ((Inheritance.resolve contracts)[id]?.map (·.stateVariables)).getD [] := by
    funext id
    rw [stateVariablesOf_link, stateVariables_resolve]
  rw [hvars]
  rfl

/-- State variables are not placed yet, and their types are no references. -/
theorem shape_of_mem_stateVariablesOf (h : ofAsts sources asts = .ok p) {id : ContractId}
    {v : Variable} (hv : v ∈ p.stateVariablesOf id) :
    v.storage = none ∧ ∀ t, v.ty = some t → t.hasWidth = true ∧ ∀ r, t ≠ .structRef r := by
  rw [stateVariablesOf_eq h] at hv
  cases hnode : (Ast.contractNodes asts)[id]? with
  | none => simp [hnode] at hv
  | some node =>
    simp only [hnode, Option.map_some, Option.getD_some, Ast.stateVariables, List.mem_map] at hv
    obtain ⟨declaration, -, rfl⟩ := hv
    exact ⟨rfl, fun t ht => ⟨Declared.resolve?_hasWidth ht, Declared.resolve?_ne_structRef ht⟩⟩

end Program

end Solscope
