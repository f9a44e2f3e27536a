import Solscope.Proofs.Program.References
import Solscope.Proofs.Storage.Variables

/-!
# Which of two linearized contracts comes first

Storage is laid out from the end of a linearization, and modifiers are looked for from its start, so
both are right if no contract comes before one that derives from it. A walk over bases keeps what it
has met first where it is. So a base that is shared by two direct bases comes before the one of them
that is walked last.

* `Inheritance.IsDerivedFirst`: no contract of a list comes before one that derives from it.
* `Inheritance.KeepsOrder`: what a direct base adds to those named after it shares no direct base
  with them.
* `Inheritance.isDerivedFirst_walk_iff`: all walks are in order **if and only if** inheritance is of
  this kind.
* `Program.isDerivedFirst_iff`: the same for programs without listed linearizations, and what the
  order does to storage and modifiers.
-/

namespace Solscope

namespace Inheritance

variable {contracts : List Contract} {c x y id : ContractId} {order bases : List ContractId}

/-- No contract of a list comes before one that derives from it. -/
def IsDerivedFirst (contracts : List Contract) (order : List ContractId) : Prop :=
  order.Pairwise fun x y => ¬ DerivesFrom contracts y x

/--
What a direct base brings in that those named after it do not bring in has no direct base that they
do bring in.
-/
def KeepsOrder (contracts : List Contract) : Prop :=
  ∀ c earlier base later, parentsIn contracts c = earlier ++ base :: later →
    ∀ x, Reaches contracts base x → (∀ other ∈ later, ¬ Reaches contracts other x) →
      ∀ shared ∈ parentsIn contracts x, ∀ other ∈ later, ¬ Reaches contracts other shared

/-- On the way to a contract that some bases bring in, one step leads in. -/
theorem DerivesFrom.exists_entry (h : DerivesFrom contracts x y) {later : List ContractId}
    (hx : ∀ other ∈ later, ¬ Reaches contracts other x)
    (hy : ∃ other ∈ later, Reaches contracts other y) :
    ∃ last, Reaches contracts x last ∧ (∀ other ∈ later, ¬ Reaches contracts other last) ∧
      ∃ shared ∈ parentsIn contracts last, ∃ other ∈ later, Reaches contracts other shared := by
  induction h using Relation.TransGen.head_induction_on with
  | single hdirect => exact ⟨_, .refl, hx, _, hdirect, hy⟩
  | @head first next hdirect _ ih =>
    by_cases hnext : ∃ other ∈ later, Reaches contracts other next
    · exact ⟨first, .refl, hx, next, hdirect, hnext⟩
    · obtain ⟨last, hlast, hout, hin⟩ := ih fun other hother hreach => hnext ⟨other, hother, hreach⟩
      exact ⟨last, .head hdirect hlast, hout, hin⟩

/-- The walk over some of the direct bases, after the contract itself. -/
def walkOver (contracts : List Contract) (c : ContractId) (bases : List ContractId) :
    List ContractId :=
  bases.foldr (fun base order => Distinct.append order (walk contracts base)) [c]

theorem mem_walkOver (hacyclic : Acyclic contracts) :
    x ∈ walkOver contracts c bases ↔ x = c ∨ ∃ base ∈ bases, Reaches contracts base x := by
  simp only [walkOver, Distinct.mem_foldr_append, List.mem_singleton, mem_walk hacyclic]

/-- A direct base adds what those named after it do not bring in. -/
theorem walkOver_cons (hacyclic : Acyclic contracts) (base : ContractId) :
    walkOver contracts c (base :: bases) = walkOver contracts c bases ++
      (walk contracts base).filter fun x => x ∉ walkOver contracts c bases :=
  Distinct.append_eq (nodup_walk hacyclic base)

/-- Walking over more direct bases only adds contracts. -/
theorem prefix_walkOver_append (earlier : List ContractId) :
    walkOver contracts c bases <+: walkOver contracts c (earlier ++ bases) := by
  unfold walkOver
  rw [List.foldr_append]
  exact Distinct.prefix_foldr_append

theorem isDerivedFirst_walkOver (hacyclic : Acyclic contracts) (hkeeps : KeepsOrder contracts)
    {earlier later : List ContractId} (hsplit : parentsIn contracts c = earlier ++ later)
    (hwalks : ∀ base ∈ later, IsDerivedFirst contracts (walk contracts base)) :
    IsDerivedFirst contracts (walkOver contracts c later) := by
  induction later generalizing earlier with
  | nil => exact List.pairwise_singleton _ _
  | cons base later ih =>
    have hsplit' : parentsIn contracts c = (earlier ++ [base]) ++ later := by
      rw [hsplit, List.append_assoc]
      rfl
    have hlater := ih hsplit' fun b hb => hwalks b (List.mem_cons_of_mem _ hb)
    rw [walkOver_cons hacyclic]
    refine List.pairwise_append.2 ⟨hlater,
      (hwalks base List.mem_cons_self).sublist List.filter_sublist,
      fun y hy x hx hderives => ?_⟩
    obtain ⟨hx, hnew⟩ := List.mem_filter.1 hx
    have hreach := (mem_walk hacyclic).1 hx
    have hnew : x ≠ c ∧ ∀ other ∈ later, ¬ Reaches contracts other x := by
      simpa [mem_walkOver hacyclic] using hnew
    rcases (mem_walkOver hacyclic).1 hy with rfl | hy
    · -- a base of the contract derives from it
      have hdirect : base ∈ parentsIn contracts y := by rw [hsplit]; simp
      exact hacyclic y (.head hdirect (.trans_right hreach hderives))
    · -- the way from `x` to `y` enters what the later bases bring in
      obtain ⟨last, hlast, hout, shared, hshared, other, hother, hin⟩ :=
        hderives.exists_entry hnew.2 hy
      exact hkeeps c earlier base later hsplit last (hreach.trans hlast) hout shared hshared other
        hother hin

/--
**Walks are in order if and only if** no direct base adds a contract whose own direct base is brought
in by those named after it.
-/
theorem isDerivedFirst_walk_iff (hacyclic : Acyclic contracts) :
    (∀ id, IsDerivedFirst contracts (walk contracts id)) ↔ KeepsOrder contracts := by
  constructor
  · intro hwalks c earlier base later hsplit x hreach hout shared hshared other hother hin
    -- the shared base is met before `x`
    have hprefix : walkOver contracts c (base :: later) <+: walk contracts c := by
      rw [walk_eq hacyclic, hsplit]
      exact prefix_walkOver_append earlier
    have hordered := (hwalks c).sublist hprefix.sublist
    rw [walkOver_cons hacyclic] at hordered
    have hfirst : shared ∈ walkOver contracts c later :=
      (mem_walkOver hacyclic).2 (.inr ⟨other, hother, hin⟩)
    have hxc : x ≠ c := by
      rintro rfl
      have hdirect : base ∈ parentsIn contracts x := by rw [hsplit]; simp
      exact hacyclic x (Relation.TransGen.head' hdirect hreach)
    have hnew : x ∈ (walk contracts base).filter fun x => x ∉ walkOver contracts c later := by
      refine List.mem_filter.2 ⟨(mem_walk hacyclic).2 hreach, ?_⟩
      simpa [mem_walkOver hacyclic] using ⟨hxc, hout⟩
    exact (List.pairwise_append.1 hordered).2.2 shared hfirst x hnew (.single hshared)
  · intro hkeeps id
    -- the walks of direct bases are shorter
    induction hn : (walk contracts id).length using Nat.strongRecOn generalizing id with
    | _ n ih =>
      rw [walk_eq hacyclic]
      refine isDerivedFirst_walkOver hacyclic hkeeps (List.nil_append _).symm fun base hbase => ?_
      exact ih _ (hn ▸ length_walk_lt hacyclic hbase) base rfl

end Inheritance

namespace Program

open Inheritance

variable {sources : Sources} {asts : List Ast} {p : Program} {id : ContractId} {c : Contract}

/-- Contracts whose nodes list no linearization are walked. -/
theorem linearized_eq_walk (h : ofAsts sources asts = .ok p)
    (hbare : ∀ node ∈ Ast.contractNodes asts, node.ids "linearizedBaseContracts" = [])
    (hc : p.contract? id = some c) : c.linearized = walk p.contracts id := by
  have hids : c.linearizedIds = [] := by
    obtain ⟨node, hnode, hread⟩ := exists_node h hc
    exact hread.linearizedIds.trans (hbare node (List.mem_of_getElem? hnode))
  rw [linearized_eq h hc, hids]
  exact if_neg (by simp)

/-- What is no contract has no bases to walk over. -/
theorem isDerivedFirst_walk_of_le (contracts : List Contract) (h : contracts.length ≤ id) :
    IsDerivedFirst contracts (walk contracts id) := by
  have hnone : parentsIn contracts id = [] := by
    rw [parentsIn, List.getElem?_eq_none h]
    rfl
  rw [walk, walkFrom_succ List.not_mem_nil, hnone]
  exact List.pairwise_singleton _ _

/-- Of two linearized contracts, the variables of the later one are placed first. -/
theorem layout_eq_append (h : ofAsts sources asts = .ok p) (hc : p.contract? id = some c)
    {before between after : List ContractId} {derived base : ContractId}
    (hlist : c.linearized = before ++ derived :: between ++ base :: after) :
    ∃ front middle back, c.layout.map (fun v => { v with storage := none }) =
      front ++ p.stateVariablesOf base ++ middle ++ p.stateVariablesOf derived ++ back := by
  have hplain : ∀ v ∈ c.linearized.reverse.flatMap p.stateVariablesOf, v.storage = none := by
    intro v hv
    obtain ⟨base, -, hv⟩ := List.mem_flatMap.1 hv
    exact (shape_of_mem_stateVariablesOf h hv).1
  rw [layout_eq h hc, StorageLayout.erase_place _ _ hplain, hlist]
  refine ⟨after.reverse.flatMap p.stateVariablesOf, between.reverse.flatMap p.stateVariablesOf,
    before.reverse.flatMap p.stateVariablesOf, ?_⟩
  simp only [List.reverse_append, List.reverse_cons, List.append_assoc, List.singleton_append,
    List.flatMap_append, List.flatMap_cons, List.flatMap_nil, List.nil_append]

/-- In a list in order, a modifier that an invocation means is not overridden. -/
theorem not_hasModifier_of_means (hacyclic : Acyclic p.contracts) {order : List ContractId}
    (horder : IsDerivedFirst p.contracts order) {i : Invocation} (hi : p.Means order i)
    {modifier : MethodId} (hmodifier : i.method = some modifier) {derived : ContractId}
    (hmem : derived ∈ order) (hderives : DerivesFrom p.contracts derived modifier.contract) :
    ¬ p.HasModifier derived i.name := by
  unfold Means at hi
  rw [hmodifier] at hi
  obtain ⟨-, before, after, rfl, hbefore⟩ := hi
  rcases List.mem_append.1 hmem with hmem | hmem
  · exact hbefore derived hmem
  rcases List.mem_cons.1 hmem with rfl | hmem
  · exact absurd hderives (hacyclic _)
  · have hlater := (List.pairwise_cons.1 (List.pairwise_append.1 horder).2.1).1 derived hmem
    exact absurd hderives hlater

/--
**The order of walked bases.** If no node lists a linearization and no contract derives from itself,
the linearization of every contract consists of the contract and its bases. No contract comes before
one that derives from it, in any of them, if and only if no direct base adds a contract whose own
direct base is brought in by those named after it. Of two linearized contracts the later one has its
variables placed first, whichever derives from the other. Where the order is kept, an invocation
means no modifier that is overridden.
-/
theorem isDerivedFirst_iff (h : ofAsts sources asts = .ok p)
    (hbare : ∀ node ∈ Ast.contractNodes asts, node.ids "linearizedBaseContracts" = [])
    (hacyclic : Acyclic p.contracts) :
    (∀ id c, p.contract? id = some c →
      c.linearized.Nodup ∧ ∀ base, base ∈ c.linearized ↔ Reaches p.contracts id base) ∧
    ((∀ id c, p.contract? id = some c → IsDerivedFirst p.contracts c.linearized) ↔
      KeepsOrder p.contracts) ∧
    (∀ id c, p.contract? id = some c → ∀ before derived between base after,
      c.linearized = before ++ derived :: between ++ base :: after →
        ∃ front middle back, c.layout.map (fun v => { v with storage := none }) =
          front ++ p.stateVariablesOf base ++ middle ++ p.stateVariablesOf derived ++ back) ∧
    ∀ id c, p.contract? id = some c → IsDerivedFirst p.contracts c.linearized →
      ∀ m ∈ c.methods, ∀ i ∈ m.invocations, ∀ modifier, i.method = some modifier →
        ∀ derived ∈ c.linearized, DerivesFrom p.contracts derived modifier.contract →
          ¬ p.HasModifier derived i.name := by
  refine ⟨fun id c hc => ?_, ?_, fun id c hc before derived between base after hlist =>
    layout_eq_append h hc hlist, fun id c hc horder m hm i hi modifier hmodifier derived hmem =>
      not_hasModifier_of_means hacyclic horder
        (means_of_method_eq (method_invocation_eq h hc hm hi)) hmodifier hmem⟩
  · rw [linearized_eq_walk h hbare hc]
    exact ⟨nodup_walk hacyclic id, fun base => mem_walk hacyclic⟩
  · rw [← isDerivedFirst_walk_iff hacyclic]
    constructor
    · intro hlists id
      by_cases hid : id < p.contracts.length
      · have hc : p.contract? id = some p.contracts[id] := List.getElem?_eq_getElem hid
        rw [← linearized_eq_walk h hbare hc]
        exact hlists id _ hc
      · exact isDerivedFirst_walk_of_le _ (Nat.le_of_not_lt hid)
    · intro hwalks id c hc
      rw [linearized_eq_walk h hbare hc]
      exact hwalks id

/-- A base that two direct bases share comes before the one of them that is walked last. -/
theorem isDerivedFirst_iff_diamond :
    let contract (name : String) (bases : List String) : Ast :=
      { kind := "ContractDefinition", src := "0:9:0", attributes := [("name", .str name)],
        children := bases.map (fun base => { kind := "InheritanceSpecifier", children := [
            { kind := "UserDefinedTypeName", attributes := [("name", .str base)] }] }) ++ [
          { kind := "VariableDeclaration",
            attributes := [("name", .str ("of" ++ name)), ("type", .str "uint256")] }] }
    let asts : List Ast := [{ kind := "SourceUnit", children := [contract "A" [],
      contract "B" ["A"], contract "C" ["A"], contract "D" ["B", "C"]] }]
    ∃ p c, ofAsts (({} : Sources).add 0 "a.sol" "contract A") asts = .ok p ∧
      (∀ node ∈ Ast.contractNodes asts, node.ids "linearizedBaseContracts" = []) ∧
      Acyclic p.contracts ∧ p.contract? 3 = some c ∧ c.linearized = [3, 2, 0, 1] ∧
      c.layout.map (fun v => (v.name, v.storage)) = [("ofB", some ⟨0, 0⟩), ("ofA", some ⟨1, 0⟩),
        ("ofC", some ⟨2, 0⟩), ("ofD", some ⟨3, 0⟩)] ∧
      ¬ KeepsOrder p.contracts := by
  intro contract asts
  have heval : (ofAsts (({} : Sources).add 0 "a.sol" "contract A") asts).toOption.any (fun p =>
      (p.contract? 3).any fun c => p.contracts.map (·.parents) = [[], [0], [0], [1, 2]] ∧
        c.linearized = [3, 2, 0, 1] ∧ c.layout.map (fun v => (v.name, v.storage)) =
          [("ofB", some ⟨0, 0⟩), ("ofA", some ⟨1, 0⟩), ("ofC", some ⟨2, 0⟩),
            ("ofD", some ⟨3, 0⟩)]) = true := by
    decide +kernel
  have hbare : ∀ node ∈ Ast.contractNodes asts, node.ids "linearizedBaseContracts" = [] := by
    decide +kernel
  cases h : ofAsts (({} : Sources).add 0 "a.sol" "contract A") asts with
  | error e => rw [h] at heval; cases heval
  | ok p =>
    rw [h] at heval
    change Option.any _ (p.contract? 3) = true at heval
    obtain ⟨c, hc, hfacts⟩ := (Option.any_eq_true _ _).1 heval
    obtain ⟨hparents, hlinearized, hlayout⟩ := of_decide_eq_true hfacts
    have hbases (id : ContractId) : parentsIn p.contracts id =
        ([[], [0], [0], [1, 2]][id]?).getD [] := by
      rw [← hparents, List.getElem?_map]
      rfl
    have hacyclic : Acyclic p.contracts := by
      refine acyclic_of_lt fun id base hbase => ?_
      rw [hbases] at hbase
      match id with
      | 1 | 2 =>
        obtain rfl : base = 0 := by simpa using hbase
        decide
      | 3 =>
        obtain rfl | rfl : base = 1 ∨ base = 2 := by simpa using hbase
        all_goals decide
      | 0 | _ + 4 => simp at hbase
    refine ⟨p, c, rfl, hbare, hacyclic, hc, hlinearized, hlayout, fun hkeeps => ?_⟩
    have horder := (isDerivedFirst_iff h hbare hacyclic).2.1.2 hkeeps 3 c hc
    have hderives : DerivesFrom p.contracts 1 0 := .single (by rw [hbases]; simp)
    rw [hlinearized] at horder
    simp [IsDerivedFirst, hderives] at horder

end Program

end Solscope
