import Mathlib.Data.List.Nodup
import Solscope.Proofs.Program.Declarations
import Solscope.Proofs.Program.Inheritance
import Solscope.Proofs.Program.Visible

/-!
# What the parts of a program refer to

Contracts are read with names and node numbers in the place of each other. Linking replaces these by
numbers of contracts and methods, and what it does to one contract can be told from the contracts of
the finished program alone.

* `Program.exists_node`: each contract is read from its node.
* `Program.parents_eq`, `Program.linearized_eq`, `Program.method_invocation_eq`: direct bases,
  linearizations and modifiers from the finished contracts.
* `Program.libraryInternals_spec`, `Program.visibleFunctions_eq`: the functions that code contains.
* `Program.isSound_of_ofAsts`: **every number in a program is that of the right thing.**
-/

namespace Solscope

namespace Distinct

variable {α β : Type} [DecidableEq α] [DecidableEq β]

theorem ofList_append (xs ys : List α) : ofList (xs ++ ys) = append (ofList xs) ys := by
  unfold ofList append
  exact List.foldl_append

/-- What belongs to the members of a list is repeated only where they are. -/
theorem ofList_flatMap {f : α → List β} (hnodup : ∀ x, (f x).Nodup)
    (hdisjoint : ∀ x y, x ≠ y → List.Disjoint (f x) (f y)) (xs : List α) :
    ofList (xs.flatMap f) = (ofList xs).flatMap f := by
  have happend (seen : List α) : append (seen.flatMap f) (xs.flatMap f) =
      (append seen xs).flatMap f := by
    induction xs generalizing seen with
    | nil => rfl
    | cons x xs ih =>
      -- what belongs to `x` is either all there or all new
      have hstep : append (seen.flatMap f) (f x) = (add seen x).flatMap f := by
        rw [append_eq (hnodup x), add]
        split <;> rename_i hx
        · rw [List.filter_eq_nil_iff.2 fun y hy => by simpa using ⟨x, hx, hy⟩, List.append_nil]
        · rw [List.filter_eq_self.2 fun y hy => ?_, List.flatMap_append, List.flatMap_singleton]
          have hne : ∀ z ∈ seen, y ∉ f z := fun z hz hy' =>
            hdisjoint x z (fun hxz => hx (hxz ▸ hz)) hy hy'
          simpa using hne
      have hcons : append (seen.flatMap f) (f x ++ xs.flatMap f) =
          append (append (seen.flatMap f) (f x)) (xs.flatMap f) := List.foldl_append
      rw [List.flatMap_cons, hcons, hstep, ih]
      rfl
  exact happend []

end Distinct

/-! ## Looking up contracts -/

namespace Contract

variable {contracts others : List Contract}

/-- The search for a name is one among names. -/
theorem findIdx?_name (contracts : List Contract) (name : String) :
    contracts.findIdx? (fun c => c.name = name) =
      (contracts.map (·.name)).findIdx? fun n => n = name := by
  rw [List.findIdx?_map]
  rfl

/-- The search for a node number is one among node numbers. -/
theorem ofNodeId?_eq (contracts : List Contract) (nodeId : Nat) : ofNodeId? contracts nodeId =
    ((contracts.map (·.nodeId)).zipIdx.reverse.find? fun x => x.1 = some nodeId).map Prod.snd := by
  rw [List.zipIdx_map, ← List.map_reverse, List.find?_map, Option.map_map]
  rfl

/-- Node numbers are all that a search for one depends on. -/
theorem ofNodeId?_congr (h : contracts.map (·.nodeId) = others.map (·.nodeId)) (nodeId : Nat) :
    ofNodeId? contracts nodeId = ofNodeId? others nodeId := by
  rw [ofNodeId?_eq, ofNodeId?_eq, h]

/-- A node number belongs to a contract. -/
theorem lt_length_of_ofNodeId? {nodeId : Nat} {id : ContractId}
    (h : ofNodeId? contracts nodeId = some id) : id < contracts.length := by
  obtain ⟨⟨c, found⟩, hfound, rfl⟩ := Option.map_eq_some_iff.1 h
  have hmem := List.mem_reverse.1 (List.mem_of_find?_eq_some hfound)
  exact (List.getElem?_eq_some_iff.1 (List.mem_zipIdx_iff_getElem?.1 hmem)).1

/-- Finding modifiers keeps names and kinds of methods. -/
theorem modifierIndex?_bindInvocations (laid : List Contract) (c : Contract) (name : String) :
    (c.bindInvocations laid).modifierIndex? name = c.modifierIndex? name := by
  unfold modifierIndex? bindInvocations
  rw [List.findIdx?_map]
  rfl

/-- Whether a contract declares a modifier of a name. -/
def HasModifier (c : Contract) (name : String) : Prop :=
  ∃ m ∈ c.methods, m.isModifier = true ∧ m.name = name

theorem modifierIndex?_eq_none_iff {c : Contract} {name : String} :
    c.modifierIndex? name = none ↔ ¬ c.HasModifier name := by
  simp [modifierIndex?, HasModifier, List.findIdx?_eq_none_iff]

theorem exists_of_modifierIndex? {c : Contract} {name : String} {index : Nat}
    (h : c.modifierIndex? name = some index) :
    ∃ m, c.methods[index]? = some m ∧ m.isModifier = true ∧ m.name = name := by
  obtain ⟨hlt, hm, -⟩ := List.findIdx?_eq_some_iff_getElem.1 h
  obtain ⟨hmodifier, hname⟩ := Bool.and_eq_true_iff.1 hm
  exact ⟨_, List.getElem?_eq_getElem hlt, hmodifier, of_decide_eq_true hname⟩

theorem nodup_methodsWith (c : Contract) (property : Method → Bool) :
    (c.methodsWith property).Nodup := by
  have hindices : (c.methods.zipIdx.map Prod.snd).Nodup := by
    rw [List.zipIdx_map_snd]
    exact List.nodup_range'
  exact hindices.sublist (List.filter_sublist.map _)

theorem nodup_internals (c : Contract) (id : ContractId) : (c.internals id).Nodup := by
  unfold internals
  split
  · exact List.Nodup.map (fun a b hab => congrArg MethodId.index hab) (c.nodup_methodsWith _)
  · exact List.nodup_nil

theorem contract_of_mem_internals {c : Contract} {id : ContractId} {f : MethodId}
    (h : f ∈ c.internals id) : f.contract = id := by
  unfold internals at h
  split at h
  · obtain ⟨index, -, rfl⟩ := List.mem_map.1 h
    rfl
  · cases h

theorem mem_internals {c : Contract} {f : MethodId} :
    f ∈ c.internals f.contract ↔ c.kind = .library ∧ ∃ m, c.methods[f.index]? = some m ∧
      m.isFunction = true ∧ (m.visibility = .internal ∨ m.visibility = .private) := by
  have hmem : f ∈ c.internals f.contract ↔ c.isLibrary = true ∧
      f.index ∈ c.methodsWith fun m => m.isFunction && m.visibility.isInternal := by
    unfold internals
    split <;> rename_i hlibrary
    · rw [List.mem_map]
      exact ⟨fun ⟨index, hindex, hf⟩ => ⟨hlibrary, hf ▸ hindex⟩, fun ⟨_, hf⟩ => ⟨_, hf, rfl⟩⟩
    · exact ⟨(nomatch ·), fun hf => absurd hf.1 hlibrary⟩
  rw [hmem, mem_methodsWith]
  simp [isLibrary, Visibility.isInternal]

end Contract

namespace Inheritance

variable {contracts others : List Contract}

theorem parentsIn_congr (h : contracts.map (·.parents) = others.map (·.parents)) :
    parentsIn contracts = parentsIn others := by
  funext id
  have hid := congrArg (·[id]?) h
  simp only [List.getElem?_map] at hid
  rw [parentsIn, parentsIn, hid]

/-- Direct bases are all that a walk depends on. -/
theorem walk_congr (h : contracts.map (·.parents) = others.map (·.parents)) (id : ContractId) :
    walk contracts id = walk others id := by
  have hlength : contracts.length = others.length := by
    simpa only [List.length_map] using congrArg List.length h
  rw [walk, walk, parentsIn_congr h, hlength]

end Inheritance

namespace Invocation

variable {laid : List Contract} {linearized : List ContractId} {i : Invocation}

/-- Finding modifiers does not change which modifiers there are. -/
theorem modifier?_bindInvocations (laid : List Contract) (linearized : List ContractId)
    (name : String) : modifier? (laid.map (Contract.bindInvocations laid)) linearized name =
      modifier? laid linearized name := by
  unfold modifier?
  refine congrArg (fun f => linearized.findSome? f) (funext fun base => ?_)
  rw [List.getElem?_map]
  cases laid[base]? with
  | none => rfl
  | some b => exact congrArg _ (b.modifierIndex?_bindInvocations laid name)

theorem method_of_mem_bind {offset : Nat} {invocations : List Invocation}
    (h : i ∈ bind laid linearized offset invocations) :
    i.method = modifier? laid linearized i.name := by
  induction invocations generalizing offset with
  | nil => cases h
  | cons first rest ih =>
    rcases List.mem_cons.1 h with rfl | h
    · rfl
    · exact ih h

/-- Invocations keep their names. -/
theorem map_name_bind (laid : List Contract) (linearized : List ContractId) (offset : Nat)
    (invocations : List Invocation) :
    (bind laid linearized offset invocations).map (·.name) = invocations.map (·.name) := by
  induction invocations generalizing offset with
  | nil => rfl
  | cons first rest ih => exact congrArg (first.name :: ·) (ih _)

end Invocation

/-! ## Finished contracts -/

namespace Program

variable {sources : Sources} {asts : List Ast} {p : Program} {id : ContractId} {c : Contract}

/-- What linking makes of a contract. -/
theorem contract?_link_eq (types : Declared) (contracts : List Contract) (id : ContractId) :
    (link types contracts).contract? id = contracts[id]?.map fun c =>
      (((c.findParents contracts).linearize
        (contracts.map (Contract.findParents contracts)) id).layOut
          types (Inheritance.resolve contracts)).bindInvocations
            ((Inheritance.resolve contracts).map
              (Contract.layOut types (Inheritance.resolve contracts))) := by
  simp only [contract?, link, List.getElem?_map]
  conv_lhs => enter [2, 2]; rw [Inheritance.resolve]
  simp only [List.getElem?_map, List.getElem?_zipIdx, Option.map_map]
  cases contracts[id]? <;> simp

/-- What linking leaves as it is. -/
theorem map_contracts_link {α : Type} (types : Declared) (contracts : List Contract)
    (field : Contract → α) (h : ∀ (c : Contract) named id resolved laid,
      field ((((c.findParents contracts).linearize named id).layOut types resolved).bindInvocations
        laid) = field c) :
    (link types contracts).contracts.map field = contracts.map field := by
  refine List.ext_getElem? fun id => ?_
  rw [List.getElem?_map, List.getElem?_map, ← contract?, contract?_link_eq, Option.map_map]
  cases contracts[id]? with
  | none => rfl
  | some c => exact congrArg some (h c _ _ _ _)

theorem types_of_ofAsts (h : ofAsts sources asts = .ok p) : p.types = .ofAsts asts := by
  obtain ⟨contracts, -, rfl⟩ := exists_contracts_of_ofAsts h
  rfl

/-- A contract of a program is what linking makes of one that is read from its node. -/
theorem exists_read (h : ofAsts sources asts = .ok p) (hc : p.contract? id = some c) :
    ∃ node plain contracts, (Ast.contractNodes asts)[id]? = some node ∧
      node.contract ⟨sources, .ofAsts asts⟩ id = .ok plain ∧
      c = (((plain.findParents contracts).linearize
        (contracts.map (Contract.findParents contracts)) id).layOut
          (.ofAsts asts) (Inheritance.resolve contracts)).bindInvocations
            ((Inheritance.resolve contracts).map
              (Contract.layOut (.ofAsts asts) (Inheritance.resolve contracts))) := by
  obtain ⟨contracts, hcontracts, rfl⟩ := exists_contracts_of_ofAsts h
  rw [contract?_link_eq] at hc
  obtain ⟨plain, hplain, hlinked⟩ := Option.map_eq_some_iff.1 hc
  obtain ⟨node, hnode, hcontract⟩ := Ast.exists_node_of_contractsFrom hcontracts hplain
  rw [Nat.zero_add] at hcontract
  exact ⟨node, plain, contracts, hnode, hcontract, hlinked.symm⟩

/-- **The node of a contract** of a program. -/
theorem exists_node (h : ofAsts sources asts = .ok p) (hc : p.contract? id = some c) :
    ∃ node, (Ast.contractNodes asts)[id]? = some node ∧ node.IsNodeOf p.types c := by
  obtain ⟨node, plain, contracts, hnode, hcontract, rfl⟩ := exists_read h hc
  obtain ⟨hread, -⟩ := node.contract_spec plain hcontract
  rw [types_of_ofAsts h]
  exact ⟨node, hnode, ⟨hread.name, hread.nodeId, hread.linearizedIds, hread.parentNames,
    hread.stateVariables⟩⟩

/-- There is a contract for each node. -/
theorem length_contracts (h : ofAsts sources asts = .ok p) :
    p.contracts.length = (Ast.contractNodes asts).length := by
  obtain ⟨contracts, hcontracts, rfl⟩ := exists_contracts_of_ofAsts h
  have hlinked : (link (.ofAsts asts) contracts).contracts.length = contracts.length := by
    have hnames := map_contracts_link (.ofAsts asts) contracts (·.name) fun _ _ _ _ _ => rfl
    simpa using congrArg List.length hnames
  have hread : contracts.length = (Ast.contractNodes asts).length := by
    simpa using congrArg List.length (Ast.stateVariables_contractsFrom _ _ hcontracts)
  exact hlinked.trans hread

/-- What is the same for contracts and their nodes is the same for all of them. -/
theorem map_contracts_eq {α : Type} {field : Contract → α} {ofNode : Ast → α}
    (h : ofAsts sources asts = .ok p)
    (hfield : ∀ node c, Ast.IsNodeOf node p.types c → field c = ofNode node) :
    p.contracts.map field = (Ast.contractNodes asts).map ofNode := by
  refine List.ext_getElem (by simp [length_contracts h]) fun id hid _ => ?_
  rw [List.length_map] at hid
  obtain ⟨node, hnode, hread⟩ := exists_node h (List.getElem?_eq_getElem hid)
  obtain ⟨_, rfl⟩ := List.getElem?_eq_some_iff.1 hnode
  rw [List.getElem_map, List.getElem_map, hfield _ _ hread]

/-- **Direct bases** are the first contracts of their names. -/
theorem parents_eq (h : ofAsts sources asts = .ok p) (hc : p.contract? id = some c) :
    c.parents = c.parentNames.filterMap p.contractId? := by
  obtain ⟨contracts, -, rfl⟩ := exists_contracts_of_ofAsts h
  have hnames := map_contracts_link (.ofAsts asts) contracts (·.name) fun _ _ _ _ _ => rfl
  rw [contract?_link_eq] at hc
  obtain ⟨plain, -, rfl⟩ := Option.map_eq_some_iff.1 hc
  refine congrArg (fun f => plain.parentNames.filterMap f) (funext fun name => ?_)
  rw [contractId?, Contract.findIdx?_name, Contract.findIdx?_name, hnames]

/--
**Linearizations** are the listed ones, as far as they name contracts and if they start with the
contract itself. Otherwise the bases are walked.
-/
theorem linearized_eq (h : ofAsts sources asts = .ok p) (hc : p.contract? id = some c) :
    c.linearized =
      let listed := c.linearizedIds.filterMap (Contract.ofNodeId? p.contracts)
      if listed.head? = some id then listed else Inheritance.walk p.contracts id := by
  obtain ⟨contracts, -, rfl⟩ := exists_contracts_of_ofAsts h
  let named := contracts.map (Contract.findParents contracts)
  have hparents : named.map (·.parents) =
      (link (.ofAsts asts) contracts).contracts.map (·.parents) := by
    refine List.ext_getElem? fun id => ?_
    rw [List.getElem?_map, List.getElem?_map, List.getElem?_map, ← contract?, contract?_link_eq]
    cases contracts[id]? <;> rfl
  have hids : named.map (·.nodeId) = (link (.ofAsts asts) contracts).contracts.map (·.nodeId) := by
    rw [map_contracts_link _ _ _ fun _ _ _ _ _ => rfl, List.map_map]
    rfl
  rw [contract?_link_eq] at hc
  obtain ⟨plain, -, rfl⟩ := Option.map_eq_some_iff.1 hc
  rw [← Inheritance.walk_congr hparents, ← funext (Contract.ofNodeId?_congr hids)]
  rfl

/-- **An invocation means** the modifier of its name in the first contract that has one. -/
theorem method_invocation_eq (h : ofAsts sources asts = .ok p) (hc : p.contract? id = some c)
    {m : Method} (hm : m ∈ c.methods) {i : Invocation} (hi : i ∈ m.invocations) :
    i.method = Invocation.modifier? p.contracts c.linearized i.name := by
  obtain ⟨contracts, -, rfl⟩ := exists_contracts_of_ofAsts h
  rw [contract?_link_eq] at hc
  obtain ⟨plain, -, rfl⟩ := Option.map_eq_some_iff.1 hc
  obtain ⟨declared, -, rfl⟩ := List.mem_map.1 hm
  exact (Invocation.method_of_mem_bind hi).trans (Invocation.modifier?_bindInvocations _ _ _).symm

/-! ## Functions that code contains -/

theorem nodup_functionsOf (p : Program) (id : ContractId) : (p.functionsOf id).Nodup := by
  unfold functionsOf
  split
  · exact List.nodup_nil
  · exact List.Nodup.map (fun a b hab => congrArg MethodId.index hab)
      (Contract.nodup_methodsWith _ _)

theorem contract_of_mem_functionsOf {f : MethodId} (h : f ∈ p.functionsOf id) :
    f.contract = id := by
  unfold functionsOf at h
  split at h
  · cases h
  · obtain ⟨index, -, rfl⟩ := List.mem_map.1 h
    rfl

/-- **The functions taken in** are those that libraries keep to themselves, each once. -/
theorem libraryInternals_spec (h : ofAsts sources asts = .ok p) :
    p.libraryInternals.Nodup ∧ ∀ id, id ∈ p.libraryInternals ↔
      ∃ c m, p.contract? id.contract = some c ∧ c.kind = .library ∧ p.method? id = some m ∧
        m.isFunction = true ∧ (m.visibility = .internal ∨ m.visibility = .private) := by
  have hinternals : p.libraryInternals =
      p.contracts.zipIdx.flatMap fun entry => entry.1.internals entry.2 := by
    obtain ⟨contracts, -, rfl⟩ := exists_contracts_of_ofAsts h
    rfl
  rw [hinternals]
  constructor
  · refine List.nodup_flatMap.2 ⟨fun entry _ => entry.1.nodup_internals entry.2, ?_⟩
    have hids : (p.contracts.zipIdx.map Prod.snd).Nodup := by
      rw [List.zipIdx_map_snd]
      exact List.nodup_range'
    refine (List.pairwise_map.1 hids).imp fun hne => ?_
    rintro f hf hf'
    exact hne ((Contract.contract_of_mem_internals hf).symm.trans
      (Contract.contract_of_mem_internals hf'))
  · intro f
    rw [List.mem_flatMap]
    constructor
    · rintro ⟨⟨c, id⟩, hc, hf⟩
      obtain rfl : f.contract = id := Contract.contract_of_mem_internals hf
      have hc : p.contract? f.contract = some c := List.mem_zipIdx_iff_getElem?.1 hc
      obtain ⟨hlibrary, m, hm, hfunction, hinternal⟩ := Contract.mem_internals.1 hf
      exact ⟨c, m, hc, hlibrary, by rw [method?, hc]; exact hm, hfunction, hinternal⟩
    · rintro ⟨c, m, hc, hlibrary, hm, hfunction, hinternal⟩
      rw [method?, hc] at hm
      exact ⟨(c, f.contract), List.mem_zipIdx_iff_getElem?.2 hc,
        Contract.mem_internals.2 ⟨hlibrary, m, hm, hfunction, hinternal⟩⟩

/--
**The functions that the code of a contract contains** are those of its linearized contracts in
order, and then the functions taken in from libraries that are not among them.
-/
theorem visibleFunctions_eq (h : ofAsts sources asts = .ok p) (hc : p.contract? id = some c)
    (hself : c.linearized ≠ []) :
    p.visibleFunctions id = (Distinct.ofList c.linearized).flatMap p.functionsOf ++
      p.libraryInternals.filter
        fun f => f ∉ (Distinct.ofList c.linearized).flatMap p.functionsOf := by
  have hbases : p.bases id = c.linearized := by
    rw [bases, hc]
    exact if_neg (by simpa using hself)
  rw [visibleFunctions, hc, hbases, Distinct.ofList_append,
    Distinct.ofList_flatMap p.nodup_functionsOf, Distinct.append_eq (libraryInternals_spec h).1]
  intro a b hab f hf hf'
  exact hab ((contract_of_mem_functionsOf hf).symm.trans (contract_of_mem_functionsOf hf'))

/-! ## Sound programs -/

/-- A number is that of a contract. -/
def HasContract (p : Program) (id : ContractId) : Prop := ∃ c, p.contract? id = some c

/-- The contract of a number declares a modifier of a name. -/
def HasModifier (p : Program) (id : ContractId) (name : String) : Prop :=
  ∃ c, p.contract? id = some c ∧ c.HasModifier name

/--
An invocation in a contract means what its name says: the modifier of that name in the first
contract of the linearization that has one, or nothing if none of them has one.
-/
def Means (p : Program) (linearized : List ContractId) (i : Invocation) : Prop :=
  match i.method with
  | some modifier =>
    (∃ m, p.method? modifier = some m ∧ m.isModifier = true ∧ m.name = i.name) ∧
      ∃ before after, linearized = before ++ modifier.contract :: after ∧
        ∀ base ∈ before, ¬ p.HasModifier base i.name
  | none => ∀ base ∈ linearized, ¬ p.HasModifier base i.name

/-- The parts of the contract of a number refer to what is there. -/
structure IsSoundAt (p : Program) (asts : List Ast) (id : ContractId) (c : Contract) : Prop where
  parents : ∀ base ∈ c.parents, p.HasContract base
  linearized : ∀ base ∈ c.linearized, p.HasContract base
  /-- A linearization starts with its contract. -/
  self_first : c.linearized.head? = some id
  methods : ∀ m ∈ c.methods, m.contract = id
  /-- Modifiers are invoked by the names in the head of the method's node. -/
  written : ∀ (index : Nat) (m : Method), c.methods[index]? = some m → ∃ node child,
    (Ast.contractNodes asts)[id]? = some node ∧ node.methodNodes[index]? = some child ∧
      m.invocations.map (·.name) = child.invokedNames
  invocations : ∀ m ∈ c.methods, ∀ i ∈ m.invocations, p.Means c.linearized i
  visible_nodup : (p.visibleFunctions id).Nodup
  visible_valid : ∀ f ∈ p.visibleFunctions id, p.HasFunction f
  /-- The functions of the linearized contracts come first, then those taken in besides. -/
  visible : p.visibleFunctions id = (Distinct.ofList c.linearized).flatMap p.functionsOf ++
    p.libraryInternals.filter fun f => f ∉ (Distinct.ofList c.linearized).flatMap p.functionsOf

/-- The parts of a program refer to what is there. -/
structure IsSound (p : Program) (asts : List Ast) : Prop where
  contracts : ∀ id c, p.contract? id = some c → p.IsSoundAt asts id c
  /-- The functions taken in are those that libraries keep to themselves, each once. -/
  internals_nodup : p.libraryInternals.Nodup
  internals : ∀ id, id ∈ p.libraryInternals ↔
    ∃ c m, p.contract? id.contract = some c ∧ c.kind = .library ∧ p.method? id = some m ∧
      m.isFunction = true ∧ (m.visibility = .internal ∨ m.visibility = .private)

theorem hasContract_of_lt (h : id < p.contracts.length) : p.HasContract id :=
  ⟨_, List.getElem?_eq_getElem h⟩

theorem hasContract_of_mem_parents (h : ofAsts sources asts = .ok p)
    (hc : p.contract? id = some c) {base : ContractId} (hbase : base ∈ c.parents) :
    p.HasContract base := by
  rw [parents_eq h hc] at hbase
  obtain ⟨name, -, hname⟩ := List.mem_filterMap.1 hbase
  exact hasContract_of_lt (List.findIdx?_eq_some_iff_getElem.1 hname).1

/-- What a contract reaches over direct bases are contracts. -/
theorem hasContract_of_reaches (h : ofAsts sources asts = .ok p) (hid : p.HasContract id)
    {base : ContractId} (hbase : Inheritance.Reaches p.contracts id base) : p.HasContract base := by
  induction hbase with
  | refl => exact hid
  | @tail derived base _ hdirect ih =>
    obtain ⟨c, hc⟩ := ih
    rw [Inheritance.parentsIn, ← contract?, hc] at hdirect
    exact hasContract_of_mem_parents h hc hdirect

theorem hasContract_of_mem_linearized (h : ofAsts sources asts = .ok p)
    (hc : p.contract? id = some c) {base : ContractId} (hbase : base ∈ c.linearized) :
    p.HasContract base := by
  rw [linearized_eq h hc] at hbase
  dsimp only at hbase
  split at hbase
  · obtain ⟨nodeId, -, hnode⟩ := List.mem_filterMap.1 hbase
    exact hasContract_of_lt (Contract.lt_length_of_ofNodeId? hnode)
  · exact hasContract_of_reaches h ⟨c, hc⟩ (Inheritance.reaches_of_mem_walk hbase)

/-- A linearization starts with its contract. -/
theorem head?_linearized (h : ofAsts sources asts = .ok p) (hc : p.contract? id = some c) :
    c.linearized.head? = some id := by
  rw [linearized_eq h hc]
  dsimp only
  split
  · assumption
  · exact Inheritance.head?_walk _ _

theorem contract_of_mem_methods (h : ofAsts sources asts = .ok p) (hc : p.contract? id = some c)
    {m : Method} (hm : m ∈ c.methods) : m.contract = id := by
  obtain ⟨index, hindex⟩ := List.mem_iff_getElem?.1 hm
  obtain ⟨node, child, declared, laid, -, -, hmethod, rfl⟩ :=
    exists_declaration h hc hindex
  exact (Ast.method_spec _ _ declared hmethod).1

theorem invocations_written (h : ofAsts sources asts = .ok p) (hc : p.contract? id = some c)
    {index : Nat} {m : Method} (hm : c.methods[index]? = some m) : ∃ node child,
      (Ast.contractNodes asts)[id]? = some node ∧ node.methodNodes[index]? = some child ∧
        m.invocations.map (·.name) = child.invokedNames := by
  obtain ⟨node, child, declared, laid, hnode, hchild, hmethod, rfl⟩ :=
    exists_declaration h hc hm
  refine ⟨node, child, hnode, hchild, ?_⟩
  rw [← (Ast.method_spec _ _ declared hmethod).2]
  exact Invocation.map_name_bind _ _ _ _

/-- Searching the finished contracts for a modifier finds what its name means. -/
theorem means_of_method_eq {linearized : List ContractId} {i : Invocation}
    (h : i.method = Invocation.modifier? p.contracts linearized i.name) : p.Means linearized i := by
  have hnone {base : ContractId} (hbase : ((p.contracts[base]?.bind fun c =>
      c.modifierIndex? i.name).map fun index => MethodId.mk base index) = none) :
      ¬ p.HasModifier base i.name := by
    rintro ⟨c, hc, hmodifier⟩
    rw [contract?] at hc
    rw [hc, Option.map_eq_none_iff] at hbase
    exact Contract.modifierIndex?_eq_none_iff.1 hbase hmodifier
  unfold Means
  unfold Invocation.modifier? at h
  split <;> rename_i hmethod
  · rw [hmethod] at h
    obtain ⟨before, base, after, rfl, hfound, hbefore⟩ := List.findSome?_eq_some_iff.1 h.symm
    obtain ⟨index, hindex, rfl⟩ := Option.map_eq_some_iff.1 hfound
    obtain ⟨c, hc, hindex⟩ := Option.bind_eq_some_iff.1 hindex
    obtain ⟨m, hm, hmodifier, hname⟩ := Contract.exists_of_modifierIndex? hindex
    refine ⟨⟨m, ?_, hmodifier, hname⟩, before, after, rfl, fun b hb => hnone (hbefore b hb)⟩
    rw [method?, contract?, hc]
    exact hm
  · rw [hmethod] at h
    exact fun base hbase => hnone (List.findSome?_eq_none_iff.1 h.symm base hbase)

/--
**Programs are sound.** Direct bases and linearizations are numbers of contracts, and a
linearization starts with its contract. Methods know their contract. An invocation has the name that
is written, and means the modifier of that name in the first linearized contract that has one, or
nothing if none has one. The functions taken in are the internal and private ones of libraries. The
functions that the code of a contract contains are those of its linearized contracts, and then those
taken in besides.
-/
theorem isSound_of_ofAsts (h : ofAsts sources asts = .ok p) : p.IsSound asts where
  internals_nodup := (libraryInternals_spec h).1
  internals := (libraryInternals_spec h).2
  contracts id c hc := {
    parents := fun _ hbase => hasContract_of_mem_parents h hc hbase
    linearized := fun _ hbase => hasContract_of_mem_linearized h hc hbase
    self_first := head?_linearized h hc
    methods := fun _ hm => contract_of_mem_methods h hc hm
    written := fun _ _ hm => invocations_written h hc hm
    invocations := fun _ hm _ hi => means_of_method_eq (method_invocation_eq h hc hm hi)
    visible_nodup := by
      rw [visibleFunctions, hc]
      exact Distinct.nodup_ofList _
    visible_valid := fun _ hf => hasFunction_of_mem_visibleFunctions h hf
    visible := visibleFunctions_eq h hc fun hnil => by
      have hhead := head?_linearized h hc
      rw [hnil] at hhead
      cases hhead }

/-- Two contracts derive from each other, and only one of them has a modifier `only`. -/
theorem isSound_of_ofAsts_mutual :
    let named (name : String) : Ast :=
      { kind := "Identifier", attributes := [("name", .str name)] }
    let base (name : String) : Ast := { kind := "InheritanceSpecifier", children := [named name] }
    let method (kind name visibility : String) (invoked : List String) : Ast :=
      { kind, src := "0:9:0", attributes := [("name", .str name), ("visibility", .str visibility)],
        children := invoked.map fun name =>
          { kind := "ModifierInvocation", src := "0:1:0", children := [named name] } }
    let contract (id : Nat) (name kind : String) (linearized : List Nat) (children : List Ast) :
        Ast :=
      { id := some id, kind := "ContractDefinition", src := "0:9:0",
        attributes := [("contractKind", .str kind),
          ("linearizedBaseContracts", .arr (linearized.map Json.nat)), ("name", .str name)],
        children }
    let asts : List Ast := [{ kind := "SourceUnit", children := [
      contract 10 "A" "contract" [] [base "B",
        method "FunctionDefinition" "f" "public" ["only", "B"],
        method "ModifierDefinition" "only" "internal" []],
      contract 20 "B" "contract" [20, 99, 10] [base "A",
        method "FunctionDefinition" "only" "public" [],
        method "FunctionDefinition" "g" "public" ["only"]],
      contract 30 "L" "library" [] [
        method "FunctionDefinition" "add" "public" [],
        method "FunctionDefinition" "sub" "internal" []]] }]
    ∃ p, ofAsts (({} : Sources).add 0 "a.sol" "contract A") asts = .ok p ∧
      p.contracts.map (·.linearized) = [[0, 1], [1, 0], [2]] ∧
      p.contracts.map (fun c => c.methods.map fun m =>
          m.invocations.map fun i => (i.name, i.method)) =
        [[[("only", some ⟨0, 1⟩), ("B", none)], []], [[], [("only", some ⟨0, 1⟩)]], [[], []]] ∧
      p.visibleFunctions 1 = [⟨1, 0⟩, ⟨1, 1⟩, ⟨0, 0⟩, ⟨2, 1⟩] ∧ p.IsSound asts := by
  intro named base method contract asts
  have heval : (ofAsts (({} : Sources).add 0 "a.sol" "contract A") asts).toOption.any (fun p =>
      p.contracts.map (·.linearized) = [[0, 1], [1, 0], [2]] ∧
      p.contracts.map (fun c => c.methods.map fun m =>
          m.invocations.map fun i => (i.name, i.method)) =
        [[[("only", some ⟨0, 1⟩), ("B", none)], []], [[], [("only", some ⟨0, 1⟩)]], [[], []]] ∧
      p.visibleFunctions 1 = [⟨1, 0⟩, ⟨1, 1⟩, ⟨0, 0⟩, ⟨2, 1⟩]) = true := by
    decide +kernel
  cases h : ofAsts (({} : Sources).add 0 "a.sol" "contract A") asts with
  | error e => rw [h] at heval; cases heval
  | ok p =>
    rw [h] at heval
    obtain ⟨hlinearized, hinvocations, hvisible⟩ := of_decide_eq_true heval
    exact ⟨p, rfl, hlinearized, hinvocations, hvisible, isSound_of_ofAsts h⟩

end Program

end Solscope
