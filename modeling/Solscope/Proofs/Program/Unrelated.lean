import Solscope.Proofs.Program.References
import Solscope.Proofs.Program.Types
import Solscope.Proofs.Ty.Mentions

/-!
# Trees that have nothing to do with each other

A program may be made of more trees, after those of another program. Its contracts then come after
those that were there, so numbers of contracts, and names, of which the first one counts, mean what
they meant. Types are different: of those with equal names the last one counts, whatever contract
and tree it belongs to, and a name may be the end of another one.

* `Program.exists_same_node`: contracts keep their numbers.
* `Program.parents_of_append`, `Program.linearized_of_append`: contracts keep their bases.
* `Declared.Keeps`: the names of a descriptor stand for declarations that others do not hide.
* `Program.stateVariables_of_append`, `Program.layout_of_append`: contracts keep state variables and
  layouts whose types are not hidden.
* `Program.unrelated_trees`: **more trees leave contracts alone whose types they do not hide.**
-/

namespace Solscope

/-! ## Descriptors whose types stay -/

namespace Declared

variable {types more extended : Declared} {contract : Option String} {descriptor : List Char}

/--
The names that a descriptor comes to stand for declared structs and enumerations, and more
declarations do not hide any of these.
-/
def Keeps (types more : Declared) (contract : Option String) (descriptor : List Char) : Prop :=
  ∀ c d, types.Mentions contract descriptor c d →
    (∀ name, Descriptor.struct? (Descriptor.normalize d) = some name →
      ∃ s, lookup? types.structs c name = some s ∧
        ¬ IsHidden StructDecl.name more.structs c name s) ∧
    ∀ name, Descriptor.enum? (Descriptor.normalize d) = some name →
      ∃ e, lookup? types.enums c name = some e ∧ ¬ IsHidden EnumDecl.name more.enums c name e

/-- A struct keeps its name among more types if and only if these do not hide it. -/
theorem Adds.lookup?_structs_iff (h : Adds types more extended) (htypes : types.Registered)
    (hmore : more.Registered) (hextended : extended.Registered) {name : String} {s : StructDecl}
    (hs : lookup? types.structs contract name = some s) :
    lookup? extended.structs contract name = some s ↔
      ¬ IsHidden StructDecl.name more.structs contract name s :=
  lookup?_extended_iff htypes.isKept.1 hmore.isKept.1 hextended.isKept.1 h.structs hs

/-- An enumeration keeps its name among more types if and only if these do not hide it. -/
theorem Adds.lookup?_enums_iff (h : Adds types more extended) (htypes : types.Registered)
    (hmore : more.Registered) (hextended : extended.Registered) {name : String} {e : EnumDecl}
    (he : lookup? types.enums contract name = some e) :
    lookup? extended.enums contract name = some e ↔
      ¬ IsHidden EnumDecl.name more.enums contract name e :=
  lookup?_extended_iff htypes.isKept.2 hmore.isKept.2 hextended.isKept.2 h.enums he

/-- What is kept stands for the same among more types. -/
theorem Keeps.agrees (hkeeps : types.Keeps more contract descriptor) (h : Adds types more extended)
    (htypes : types.Registered) (hmore : more.Registered) (hextended : extended.Registered) :
    types.Agrees extended contract descriptor := by
  intro c d hd
  obtain ⟨hstructs, henums⟩ := hkeeps c d hd
  constructor
  · intro name hname
    obtain ⟨s, hs, hhidden⟩ := hstructs name hname
    rw [hs]
    exact (h.lookup?_structs_iff htypes hmore hextended hs).2 hhidden
  · intro name hname
    obtain ⟨e, he, hhidden⟩ := henums name hname
    rw [he]
    exact (h.lookup?_enums_iff htypes hmore hextended he).2 hhidden

end Declared

/-! ## Contracts among more contracts -/

namespace Ast

theorem contractNodes_append (asts more : List Ast) :
    contractNodes (asts ++ more) = contractNodes asts ++ contractNodes more :=
  List.flatMap_append

/-- The contracts of trees have nothing to do with those of other trees, but for types. -/
structure Unrelated (asts more : List Ast) : Prop where
  /-- All bases are declared. -/
  bases : ∀ node ∈ contractNodes asts, ∀ name ∈ node.parentNames,
    ∃ base ∈ contractNodes asts, base.name? = some name
  /-- Numbers of listed bases are not those of contracts in the other trees. -/
  ids : ∀ node ∈ contractNodes asts, ∀ i ∈ node.ids "linearizedBaseContracts",
    ∀ other ∈ contractNodes more, other.id ≠ some i

variable {types others : Declared}

/-- State variables are the same where their descriptors name the same types. -/
theorem stateVariables_congr (node : Ast) {contract : String}
    (h : ∀ v ∈ node.stateVariables types contract,
      types.Agrees others (some contract) v.descriptor.toList) :
    node.stateVariables others contract = node.stateVariables types contract := by
  unfold stateVariables at h ⊢
  refine List.map_congr_left fun v hv => ?_
  have hagrees := h _ (List.mem_map_of_mem hv)
  exact congrArg (fun ty => Variable.ofTy _ _ ty _ _) (Declared.resolveNested_congr hagrees)

end Ast

namespace StorageLayout

variable {types others : Declared}

/-- Variables have the same places where their types take as many slots. -/
theorem place_congr {vars : List Variable}
    (h : ∀ v ∈ vars, ∀ t, v.ty = some t → others.slots t = types.slots t) (c : SlotCursor) :
    place others c vars = place types c vars := by
  induction vars generalizing c with
  | nil => rfl
  | cons v rest ih =>
    have hclaim : claim others c v.ty = claim types c v.ty := by
      cases hty : v.ty with
      | none => rfl
      | some t => exact congrArg (c.reserveSlots t) (h v List.mem_cons_self t hty)
    rw [place, place, hclaim]
    exact congrArg _ (ih (fun v hv => h v (List.mem_cons_of_mem _ hv)) _)

end StorageLayout

namespace Program

variable {sources sources' : Sources} {asts more : List Ast} {p p' : Program}
  {id base : ContractId} {c c' b : Contract} {name : String}

/-- **Contracts keep their numbers**: those of the first trees come first. -/
theorem exists_same_node (h : ofAsts sources asts = .ok p)
    (h' : ofAsts sources' (asts ++ more) = .ok p') (hc : p.contract? id = some c) :
    ∃ c' node, p'.contract? id = some c' ∧ node ∈ Ast.contractNodes asts ∧
      node.IsNodeOf p.types c ∧ node.IsNodeOf p'.types c' := by
  obtain ⟨node, hnode, hread⟩ := exists_node h hc
  have hlt := (List.getElem?_eq_some_iff.1 hnode).1
  have hid : id < p'.contracts.length := by
    rw [length_contracts h', Ast.contractNodes_append, List.length_append]
    exact Nat.lt_add_right _ hlt
  obtain ⟨c', hc'⟩ := hasContract_of_lt hid
  obtain ⟨node', hnode', hread'⟩ := exists_node h' hc'
  rw [Ast.contractNodes_append, List.getElem?_append_left hlt, hnode] at hnode'
  obtain rfl := Option.some.inj hnode'
  exact ⟨c', node, hc', List.mem_of_getElem? hnode, hread, hread'⟩

/-- A name that contracts have means the same among more contracts. -/
theorem contractId?_of_append (h : ofAsts sources asts = .ok p)
    (h' : ofAsts sources' (asts ++ more) = .ok p') (hbase : p.contractId? name = some base) :
    p'.contractId? name = some base := by
  have hnames {asts : List Ast} {sources : Sources} {p : Program} (h : ofAsts sources asts = .ok p) :
      p.contracts.map (·.name) = (Ast.contractNodes asts).map fun node => node.name?.getD "" :=
    map_contracts_eq h fun node c hread => by rw [hread.name]; rfl
  rw [contractId?, Contract.findIdx?_name, hnames h] at hbase
  rw [contractId?, Contract.findIdx?_name, hnames h', Ast.contractNodes_append, List.map_append,
    List.findIdx?_append, hbase]
  rfl

/-- A number of a node that no later contract has means the same among more contracts. -/
theorem ofNodeId?_of_append (h : ofAsts sources asts = .ok p)
    (h' : ofAsts sources' (asts ++ more) = .ok p') {nodeId : Nat}
    (hlater : ∀ other ∈ Ast.contractNodes more, other.id ≠ some nodeId) :
    Contract.ofNodeId? p'.contracts nodeId = Contract.ofNodeId? p.contracts nodeId := by
  -- the search goes backwards, so it comes to the later contracts first
  have hnone (n : Nat) : (((Ast.contractNodes more).map (·.id)).zipIdx n).reverse.find?
      (fun x => x.1 = some nodeId) = none := by
    refine List.find?_eq_none.2 fun x hx => ?_
    obtain ⟨other, hother, hid⟩ :=
      List.mem_map.1 (List.fst_mem_of_mem_zipIdx (List.mem_reverse.1 hx))
    have hne := hlater other hother
    simpa [← hid] using hne
  rw [Contract.ofNodeId?_eq, Contract.ofNodeId?_eq, map_contracts_eq h fun _ _ hread => hread.nodeId,
    map_contracts_eq h' fun _ _ hread => hread.nodeId, Ast.contractNodes_append, List.map_append,
    List.zipIdx_append, List.reverse_append, List.find?_append, hnone, Option.none_or]

/-! ## Bases among more contracts -/

/-- A declared base is a contract. -/
theorem exists_contractId? (h : ofAsts sources asts = .ok p) (hunrelated : Ast.Unrelated asts more)
    (hc : p.contract? id = some c) (hname : name ∈ c.parentNames) :
    ∃ base, p.contractId? name = some base := by
  obtain ⟨node, hnode, hread⟩ := exists_node h hc
  obtain ⟨base, hbase, hnamed⟩ :=
    hunrelated.bases node (List.mem_of_getElem? hnode) name (hread.parentNames ▸ hname)
  have hmem : some name ∈ p.contracts.map (fun c => some c.name) := by
    rw [map_contracts_eq h fun node c hread => hread.name.symm]
    exact List.mem_map.2 ⟨base, hbase, hnamed⟩
  rw [contractId?, Contract.findIdx?_name]
  exact Option.isSome_iff_exists.1 (List.findIdx?_isSome.trans (by simpa using hmem))

/-- **Contracts have the same direct bases** among contracts that they have nothing to do with. -/
theorem parents_of_append (h : ofAsts sources asts = .ok p)
    (h' : ofAsts sources' (asts ++ more) = .ok p') (hunrelated : Ast.Unrelated asts more)
    (hc : p.contract? id = some c) (hc' : p'.contract? id = some c') : c'.parents = c.parents := by
  obtain ⟨found, node, hfound, -, hread, hread'⟩ := exists_same_node h h' hc
  obtain rfl := Option.some.inj (hc'.symm.trans hfound)
  rw [parents_eq h hc, parents_eq h' hc', hread'.parentNames, ← hread.parentNames]
  refine List.filterMap_congr fun name hname => ?_
  obtain ⟨base, hbase⟩ := exists_contractId? h hunrelated hc hname
  rw [hbase, contractId?_of_append h h' hbase]

/-- **Contracts have the same linearizations** among contracts that they have nothing to do with. -/
theorem linearized_of_append (h : ofAsts sources asts = .ok p)
    (h' : ofAsts sources' (asts ++ more) = .ok p') (hunrelated : Ast.Unrelated asts more)
    (hc : p.contract? id = some c) (hc' : p'.contract? id = some c') :
    c'.linearized = c.linearized := by
  obtain ⟨found, node, hfound, hnode, hread, hread'⟩ := exists_same_node h h' hc
  obtain rfl := Option.some.inj (hc'.symm.trans hfound)
  have hlisted : c'.linearizedIds.filterMap (Contract.ofNodeId? p'.contracts) =
      c.linearizedIds.filterMap (Contract.ofNodeId? p.contracts) := by
    rw [hread.linearizedIds, hread'.linearizedIds]
    exact List.filterMap_congr fun i hi => ofNodeId?_of_append h h' (hunrelated.ids node hnode i hi)
  have hlength : p.contracts.length ≤ p'.contracts.length := by
    rw [length_contracts h, length_contracts h', Ast.contractNodes_append, List.length_append]
    omega
  have hid : id < p.contracts.length := (List.getElem?_eq_some_iff.1 hc).1
  -- a walk that starts among the contracts of the first trees stays there
  have hwalk : Inheritance.walk p'.contracts id = Inheritance.walk p.contracts id := by
    refine Inheritance.walkFrom_congr (fun i hi => ?_) (fun i hi base hbase => ?_) hid
      List.nodup_nil (fun _ hx => nomatch hx) (Nat.lt_succ_self _)
      (by rw [List.length_nil]; omega)
    · obtain ⟨c, hc⟩ := hasContract_of_lt hi
      obtain ⟨c', -, hc', -⟩ := exists_same_node h h' hc
      have hparents := parents_of_append h h' hunrelated hc hc'
      rw [contract?] at hc hc'
      rw [Inheritance.parentsIn, Inheritance.parentsIn, hc, hc']
      exact hparents
    · obtain ⟨c, hc⟩ := hasContract_of_lt hi
      rw [Inheritance.parentsIn, ← contract?, hc] at hbase
      obtain ⟨b, hb⟩ := hasContract_of_mem_parents h hc hbase
      exact (List.getElem?_eq_some_iff.1 hb).1
  rw [linearized_eq h hc, linearized_eq h' hc', hlisted, hwalk]

/-! ## State variables among more types -/

/--
The state variables of a contract and its bases have types that more declared types do not hide.
-/
def KeepsTypes (p : Program) (more : Declared) (c : Contract) : Prop :=
  ∀ base ∈ c.linearized, ∀ b, p.contract? base = some b → ∀ v ∈ b.stateVariables,
    p.types.Keeps more (some b.name) v.descriptor.toList

/-- More trees leave types alone that they do not hide. -/
theorem agrees_of_keeps (h : ofAsts sources asts = .ok p)
    (h' : ofAsts sources' (asts ++ more) = .ok p') {contract : Option String}
    {descriptor : List Char} (hkeeps : p.types.Keeps (.ofAsts more) contract descriptor) :
    p.types.Agrees p'.types contract descriptor := by
  rw [types_of_ofAsts h, types_of_ofAsts h'] at *
  exact hkeeps.agrees (Declared.adds_ofAsts asts more) (Declared.registered_ofAsts _)
    (Declared.registered_ofAsts _) (Declared.registered_ofAsts _)

/-- **State variables are the same** among types that do not hide theirs. -/
theorem stateVariables_of_append (h : ofAsts sources asts = .ok p)
    (h' : ofAsts sources' (asts ++ more) = .ok p') (hc : p.contract? id = some c)
    (hc' : p'.contract? id = some c')
    (hkeeps : ∀ v ∈ c.stateVariables,
      p.types.Keeps (.ofAsts more) (some c.name) v.descriptor.toList) :
    c'.stateVariables = c.stateVariables := by
  obtain ⟨found, node, hfound, -, hread, hread'⟩ := exists_same_node h h' hc
  obtain rfl := Option.some.inj (hc'.symm.trans hfound)
  have hname : c'.name = c.name := Option.some.inj (hread'.name.symm.trans hread.name)
  rw [hread.stateVariables, hread'.stateVariables, hname]
  exact node.stateVariables_congr fun v hv =>
    agrees_of_keeps h h' (hkeeps v (hread.stateVariables ▸ hv))

/-- **Layouts are the same** among types that do not hide those of state variables. -/
theorem layout_of_append (h : ofAsts sources asts = .ok p)
    (h' : ofAsts sources' (asts ++ more) = .ok p') (hunrelated : Ast.Unrelated asts more)
    (hc : p.contract? id = some c) (hc' : p'.contract? id = some c')
    (hkeeps : p.KeepsTypes (.ofAsts more) c) : c'.layout = c.layout := by
  have hvars : ∀ base ∈ c.linearized, p'.stateVariablesOf base = p.stateVariablesOf base := by
    intro base hbase
    obtain ⟨b, hb⟩ := hasContract_of_mem_linearized h hc hbase
    obtain ⟨b', -, hb', -⟩ := exists_same_node h h' hb
    have hsame := stateVariables_of_append h h' hb hb' (hkeeps base hbase b hb)
    rw [stateVariablesOf, stateVariablesOf, hb, hb']
    exact hsame
  have hlist : c.linearized.reverse.flatMap p'.stateVariablesOf =
      c.linearized.reverse.flatMap p.stateVariablesOf :=
    List.flatMap_congr fun base hbase => hvars base (List.mem_reverse.1 hbase)
  rw [layout_eq h hc, layout_eq h' hc', linearized_of_append h h' hunrelated hc hc', hlist]
  refine StorageLayout.place_congr (fun v hv t ht => ?_) _
  obtain ⟨base, hbase, hv⟩ := List.mem_flatMap.1 hv
  have hbase := List.mem_reverse.1 hbase
  obtain ⟨b, hb⟩ := hasContract_of_mem_linearized h hc hbase
  rw [stateVariablesOf, hb] at hv
  have hagrees := agrees_of_keeps h h' (hkeeps base hbase b hb v hv)
  -- the type of a state variable is what its descriptor names in the contract
  have hresolve : p.types.resolve? v.descriptor (some b.name) = some t := by
    obtain ⟨node, -, hread⟩ := exists_node h hb
    rw [Option.map_some, Option.getD_some, hread.stateVariables] at hv
    obtain ⟨declaration, -, rfl⟩ := List.mem_map.1 hv
    exact ht
  exact Declared.slots_congr fun r hr => Declared.agrees_of_ref hresolve hagrees hr

/--
**More trees leave contracts alone whose types they do not hide.** Contracts keep their numbers,
names, direct bases and linearizations. They keep state variables and layouts if the names of types
in these stand for declarations that the new ones do not hide. Structs and enumerations keep their
names if and only if the new ones do not hide them, whatever contracts and trees declare them.
-/
theorem unrelated_trees (h : ofAsts sources asts = .ok p)
    (h' : ofAsts sources' (asts ++ more) = .ok p') (hunrelated : Ast.Unrelated asts more)
    (hc : p.contract? id = some c) :
    (∃ c', p'.contract? id = some c' ∧ c'.name = c.name ∧ c'.parents = c.parents ∧
      c'.linearized = c.linearized ∧ (p.KeepsTypes (.ofAsts more) c →
        c'.stateVariables = c.stateVariables ∧ c'.layout = c.layout)) ∧
    ∀ contract name,
      (∀ s, Declared.lookup? p.types.structs contract name = some s →
        (Declared.lookup? p'.types.structs contract name = some s ↔
          ¬ Declared.IsHidden StructDecl.name (Declared.ofAsts more).structs contract name s)) ∧
      ∀ e, Declared.lookup? p.types.enums contract name = some e →
        (Declared.lookup? p'.types.enums contract name = some e ↔
          ¬ Declared.IsHidden EnumDecl.name (Declared.ofAsts more).enums contract name e) := by
  constructor
  · obtain ⟨c', node, hc', -, hread, hread'⟩ := exists_same_node h h' hc
    have hname : c'.name = c.name := Option.some.inj (hread'.name.symm.trans hread.name)
    refine ⟨c', hc', hname, parents_of_append h h' hunrelated hc hc',
      linearized_of_append h h' hunrelated hc hc', fun hkeeps => ⟨?_, ?_⟩⟩
    · have hself := List.mem_of_mem_head? (head?_linearized h hc)
      exact stateVariables_of_append h h' hc hc' (hkeeps id hself c hc)
    · exact layout_of_append h h' hunrelated hc hc' hkeeps
  · intro contract name
    rw [types_of_ofAsts h, types_of_ofAsts h']
    have hadds := Declared.adds_ofAsts asts more
    have hregistered := Declared.registered_ofAsts
    exact ⟨fun s => hadds.lookup?_structs_iff (hregistered _) (hregistered _) (hregistered _),
      fun e => hadds.lookup?_enums_iff (hregistered _) (hregistered _) (hregistered _)⟩

/--
Two source files declare a contract `A` with a struct `S`. The later struct takes the place of the
first one, which is smaller, and moves what comes after it; a contract `B` is left alone.
-/
theorem unrelated_trees_equal_names :
    let declare (name type : String) : Ast :=
      { kind := "VariableDeclaration", attributes := [("name", .str name), ("type", .str type)] }
    let contract (src : String) (id : Nat) (name member : String) : Ast :=
      { id := some id, kind := "ContractDefinition", src,
        attributes := [("linearizedBaseContracts", .arr [.nat id]), ("name", .str name)],
        children := [
          { kind := "StructDefinition",
            attributes := [("canonicalName", .str (name ++ ".S")), ("name", .str "S")],
            children := [declare "a" member, declare "b" member] },
          declare "s" ("struct " ++ name ++ ".S"), declare "x" "uint256"] }
    let asts : List Ast := [{ kind := "SourceUnit", children :=
      [contract "0:9:0" 1 "A" "uint128", contract "0:9:0" 2 "B" "uint256"] }]
    let more : List Ast := [{ kind := "SourceUnit", children :=
      [contract "0:9:1" 3 "A" "uint256"] }]
    let sources := (({} : Sources).add 0 "F.sol" "contract A").add 1 "G.sol" "contract A"
    ∃ p p' a a' b, ofAsts sources asts = .ok p ∧ ofAsts sources (asts ++ more) = .ok p' ∧
      Ast.Unrelated asts more ∧
      p.contract? 0 = some a ∧ p'.contract? 0 = some a' ∧
      a.layout.map (fun v => (v.name, v.storage)) = [("s", some ⟨0, 0⟩), ("x", some ⟨1, 0⟩)] ∧
      a'.layout.map (fun v => (v.name, v.storage)) = [("s", some ⟨0, 0⟩), ("x", some ⟨2, 0⟩)] ∧
      p.contract? 1 = some b ∧ p.KeepsTypes (.ofAsts more) b ∧
      ∃ b', p'.contract? 1 = some b' ∧ b'.stateVariables = b.stateVariables ∧
        b'.layout = b.layout := by
  intro declare contract asts more sources
  have heval : (ofAsts sources asts).toOption.any (fun p =>
      (p.contract? 0).any (fun a => a.layout.map (fun v => (v.name, v.storage)) =
        [("s", some ⟨0, 0⟩), ("x", some ⟨1, 0⟩)]) ∧
      (p.contract? 1).any (fun b => b.linearized = [1] ∧ b.name = "B" ∧
        b.stateVariables.map (·.descriptor) = ["struct B.S", "uint256"])) = true := by
    decide +kernel
  have heval' : (ofAsts sources (asts ++ more)).toOption.any (fun p' =>
      (p'.contract? 0).any (fun a' => a'.layout.map (fun v => (v.name, v.storage)) =
        [("s", some ⟨0, 0⟩), ("x", some ⟨2, 0⟩)])) = true := by
    decide +kernel
  have hunrelated : Ast.Unrelated asts more := ⟨by decide +kernel, by decide +kernel⟩
  let struct : StructDecl := ⟨"B.S", some "B", [("a", "uint256"), ("b", "uint256")]⟩
  have hlookup : Declared.lookup? (Declared.ofAsts asts).structs (some "B") "B.S" = some struct := by
    decide +kernel
  have hhidden : ¬ Declared.IsHidden StructDecl.name (Declared.ofAsts more).structs (some "B") "B.S"
      struct := by
    unfold Declared.IsHidden
    decide +kernel
  let descriptors := ["struct B.S", "uint256"].map String.toList
  have hinside : ∀ d ∈ descriptors, Descriptor.mapping? (Descriptor.normalize d) = none ∧
      Descriptor.array? (Descriptor.normalize d) = none ∧
      Descriptor.enum? (Descriptor.normalize d) = none ∧
      (Descriptor.struct? (Descriptor.normalize d)).all (fun name => name = "B.S") := by
    decide +kernel
  have hstruct {d : List Char} {name : String} (hd : d ∈ descriptors)
      (hname : Descriptor.struct? (Descriptor.normalize d) = some name) : name = "B.S" := by
    have hall := (hinside d hd).2.2.2
    rw [hname] at hall
    exact of_decide_eq_true hall
  have hmembers : ∀ m ∈ struct.members, m.2.toList ∈ descriptors := by decide +kernel
  -- all descriptors inside those of `B` are among these two, seen from inside `B`
  have hmentions {contract c : Option String} {descriptor d : List Char}
      (hd : (Declared.ofAsts asts).Mentions contract descriptor c d)
      (hcontract : contract = some "B") (hdescriptor : descriptor ∈ descriptors) :
      c = some "B" ∧ d ∈ descriptors := by
    induction hd with
    | self => exact ⟨hcontract, hdescriptor⟩
    | key hsides | value hsides => simp [(hinside _ hdescriptor).1] at hsides
    | element hcut => simp [(hinside _ hdescriptor).2.1] at hcut
    | member hname hs hm _ ih =>
      obtain rfl := hcontract
      obtain rfl := hstruct hdescriptor hname
      obtain rfl := Option.some.inj (hlookup.symm.trans hs)
      exact ih rfl (hmembers _ hm)
    | reference hname hs _ ih =>
      obtain rfl := hcontract
      obtain rfl := hstruct hdescriptor hname
      obtain rfl := Option.some.inj (hlookup.symm.trans hs)
      exact ih rfl (by decide +kernel)
  have hkeeps {descriptor : List Char} (hdescriptor : descriptor ∈ descriptors) :
      (Declared.ofAsts asts).Keeps (.ofAsts more) (some "B") descriptor := by
    intro c d hd
    obtain ⟨rfl, hmem⟩ := hmentions hd rfl hdescriptor
    refine ⟨fun name hname => ?_, fun name hname => by simp [(hinside d hmem).2.2.1] at hname⟩
    obtain rfl := hstruct hmem hname
    exact ⟨struct, hlookup, hhidden⟩
  cases h : ofAsts sources asts with
  | error e => rw [h] at heval; cases heval
  | ok p =>
    cases h' : ofAsts sources (asts ++ more) with
    | error e => rw [h'] at heval'; cases heval'
    | ok p' =>
      rw [h] at heval
      rw [h'] at heval'
      change Option.any _ (p'.contract? 0) = true at heval'
      obtain ⟨hfirst, hsecond⟩ := of_decide_eq_true heval
      obtain ⟨a, ha, hplaces⟩ := (Option.any_eq_true _ _).1 hfirst
      obtain ⟨a', ha', hplaces'⟩ := (Option.any_eq_true _ _).1 heval'
      obtain ⟨b, hb, hfacts⟩ := (Option.any_eq_true _ _).1 hsecond
      obtain ⟨hlinearized, hname, hvars⟩ := of_decide_eq_true hfacts
      have hkeepsTypes : p.KeepsTypes (.ofAsts more) b := by
        intro base hbase c hc v hv
        obtain rfl : base = 1 := by simpa [hlinearized] using hbase
        obtain rfl := Option.some.inj (hb.symm.trans hc)
        rw [types_of_ofAsts h, hname]
        have hmem : v.descriptor ∈ ["struct B.S", "uint256"] := hvars ▸ List.mem_map_of_mem hv
        exact hkeeps (List.mem_map_of_mem hmem)
      obtain ⟨⟨b', hb', -, -, -, hsame⟩, -⟩ := unrelated_trees h h' hunrelated hb
      exact ⟨p, p', a, a', b, rfl, rfl, hunrelated, ha, ha', of_decide_eq_true hplaces,
        of_decide_eq_true hplaces', hb, hkeepsTypes, b', hb', hsame hkeepsTypes⟩

end Program

end Solscope
