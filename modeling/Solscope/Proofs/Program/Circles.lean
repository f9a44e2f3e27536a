import Solscope.Proofs.Program.References

/-!
# Linearizations of any inheritance

Nothing keeps contracts from naming each other as bases, or themselves. A walk over bases turns back
where it comes to a contract that is on its way, so it ends whatever the bases are. It turns back
from nothing else, and a contract that can be come to at all can be come to without passing a
contract twice: so nothing is lost.

* `Inheritance.Walks`: walking over bases, without a bound on the length of the way.
* `Inheritance.walks_walk`: **every walk ends**, since a way has every contract at most once.
* `Inheritance.reachesOff_iff`: what is reached is reached without coming back to the start.
* `Inheritance.Walks.mem_iff`: **a walk meets what it can come to** off its way.
* `Program.linearized_unlisted`: the linearization of a contract for which none is listed.
-/

namespace Solscope

namespace Inheritance

variable {parents : ContractId → List ContractId} {contracts : List Contract} {fuel : Nat}
  {path order order' : List ContractId} {id x : ContractId}

/-! ## Walks that end -/

/--
A walk over bases ends with a list of contracts, where `path` holds those on the way to its start.
It turns back from a contract that is on the way, and enters any other one: then the bases of this
are walked, the last one first, and what is new of each walk is added.
-/
inductive Walks (parents : ContractId → List ContractId) :
    List ContractId → ContractId → List ContractId → Prop
  | back {path : List ContractId} {id : ContractId} : id ∈ path → Walks parents path id []
  | enter {path : List ContractId} {id : ContractId} {orders : ContractId → List ContractId} :
      id ∉ path → (∀ base ∈ parents id, Walks parents (id :: path) base (orders base)) →
      Walks parents path id ((parents id).reverse.foldl
        (fun order base => Distinct.append order (orders base)) [id])

/-- A walk ends with one list only. -/
theorem Walks.unique (h : Walks parents path id order) (h' : Walks parents path id order') :
    order = order' := by
  induction h generalizing order' with
  | back hid =>
    cases h' with
    | back => rfl
    | enter hnew => exact absurd hid hnew
  | @enter path id orders hnew _ ih =>
    cases h' with
    | back hid => exact absurd hid hnew
    | enter _ horders =>
      refine List.foldl_ext _ _ _ fun order base hbase => ?_
      have hbase := List.mem_reverse.1 hbase
      rw [ih base hbase (horders base hbase)]

/-- A walk ends before a way can have more contracts than there are. -/
theorem walks_walkFrom (hnodup : path.Nodup) (hpath : ∀ x ∈ path, x < contracts.length)
    (hfuel : contracts.length < fuel + path.length) :
    Walks (parentsIn contracts) path id (walkFrom (parentsIn contracts) fuel path id) := by
  induction fuel generalizing path id with
  | zero =>
    have hlength := length_le_of_lt hnodup hpath
    omega
  | succ fuel ih =>
    rw [walkFrom]
    split
    · rename_i hid
      exact .back hid
    · rename_i hnew
      refine .enter hnew fun base hbase => ih (List.nodup_cons.2 ⟨hnew, hnodup⟩) ?_ ?_
      · -- only contracts have bases, and so the way leads over contracts only
        exact List.forall_mem_cons.2 ⟨lt_length_of_mem_parentsIn hbase, hpath⟩
      · rw [List.length_cons]
        omega

/-- **Every walk ends**, whatever the bases are. -/
theorem walks_walk (contracts : List Contract) (id : ContractId) :
    Walks (parentsIn contracts) [] id (walk contracts id) :=
  walks_walkFrom List.nodup_nil (by simp) (Nat.lt_succ_self _)

/-! ## What walks meet -/

/-- A contract is come to from another one without coming to one of the path. -/
def ReachesOff (parents : ContractId → List ContractId) (path : List ContractId) :
    ContractId → ContractId → Prop :=
  Relation.ReflTransGen fun c base => base ∈ parents c ∧ base ∉ path

/-- **What is reached is reached without coming back to the start.** -/
theorem reachesOff_iff : ReachesOff parents path id x ↔
    x = id ∨ ∃ base ∈ parents id, base ∉ id :: path ∧ ReachesOff parents (id :: path) base x := by
  constructor
  · intro h
    -- on the last step: where it leads back to the start, what came before does not matter
    induction h with
    | refl => exact .inl rfl
    | @tail y z _ hstep ih =>
      by_cases hz : z = id
      · exact .inl hz
      have hoff : z ∉ id :: path := by simp [hz, hstep.2]
      rcases ih with rfl | ⟨base, hbase, hnew, hreach⟩
      · exact .inr ⟨z, hstep.1, hoff, .refl⟩
      · exact .inr ⟨base, hbase, hnew, hreach.tail ⟨hstep.1, hoff⟩⟩
  · rintro (rfl | ⟨base, hbase, hnew, hreach⟩)
    · exact .refl
    · have hwider : ReachesOff parents path base x :=
        Relation.ReflTransGen.mono
          (fun _ _ h => ⟨h.1, fun hmem => h.2 (List.mem_cons_of_mem _ hmem)⟩) _ _ hreach
      exact .head ⟨hbase, fun hmem => hnew (List.mem_cons_of_mem _ hmem)⟩ hwider

/-- Off nothing, a contract is come to just if it is the start or a base of it. -/
theorem reachesOff_nil : ReachesOff (parentsIn contracts) [] id x ↔ Reaches contracts id x :=
  ⟨Relation.ReflTransGen.mono (fun _ _ h => h.1) _ _,
    Relation.ReflTransGen.mono (fun _ _ h => ⟨h, List.not_mem_nil⟩) _ _⟩

/-- **A walk meets what it can come to** off its way, if it is not turned back at once. -/
theorem Walks.mem_iff (h : Walks parents path id order) :
    x ∈ order ↔ id ∉ path ∧ ReachesOff parents path id x := by
  induction h with
  | back hid => simp [hid]
  | enter hnew _ ih =>
    rw [List.foldl_reverse, Distinct.mem_foldr_append, List.mem_singleton, reachesOff_iff]
    simp only [hnew, not_false_eq_true, true_and]
    refine or_congr_right (exists_congr fun base => and_congr_right fun hbase => ?_)
    exact ih base hbase

/-- **A walk meets nothing twice.** -/
theorem Walks.nodup (h : Walks parents path id order) : order.Nodup := by
  cases h with
  | back => exact List.nodup_nil
  | enter =>
    rw [List.foldl_reverse]
    exact Distinct.nodup_foldr_append (List.pairwise_singleton _ _)

end Inheritance

namespace Program

open Inheritance

variable {sources : Sources} {asts : List Ast} {p : Program} {id : ContractId} {c : Contract}

/-- The direct bases of a contract: the first contracts of the names that are contracts at all. -/
theorem parentsIn_eq (h : ofAsts sources asts = .ok p) (hc : p.contract? id = some c) :
    parentsIn p.contracts id = c.parentNames.filterMap p.contractId? := by
  have hparents : parentsIn p.contracts id = c.parents := by
    rw [parentsIn, ← contract?, hc]
    rfl
  rw [hparents, parents_eq h hc]

/--
**The linearization of a contract for which none is listed.** Let what the compiler lists for a
contract not start with the contract itself. Then the linearization is where the walk over bases
ends, and the walk ends there and nowhere else. It starts with the contract, has no contract twice,
and consists of the contract and those that it reaches over bases, which are the first contracts of
the names that are named as bases. Circles, repeated names and names of no contract are no
exception.
-/
theorem linearized_unlisted (h : ofAsts sources asts = .ok p) (hc : p.contract? id = some c)
    (hunlisted : (c.linearizedIds.filterMap (Contract.ofNodeId? p.contracts)).head? ≠ some id) :
    (∀ order, Walks (parentsIn p.contracts) [] id order ↔ order = c.linearized) ∧
    c.linearized.head? = some id ∧ c.linearized.Nodup ∧
    (∀ x, x ∈ c.linearized ↔ Reaches p.contracts id x) ∧
    ∀ other c', p.contract? other = some c' →
      parentsIn p.contracts other = c'.parentNames.filterMap p.contractId? := by
  have hwalk : c.linearized = walk p.contracts id := by
    rw [linearized_eq h hc]
    exact if_neg hunlisted
  have hends := walks_walk p.contracts id
  rw [← hwalk] at hends
  refine ⟨fun order => ⟨fun horder => horder.unique hends, ?_⟩, ?_, hends.nodup, fun x => ?_,
    fun other c' hc' => parentsIn_eq h hc'⟩
  · rintro rfl
    exact hends
  · rw [hwalk]
    exact head?_walk p.contracts id
  · rw [hends.mem_iff, reachesOff_nil]
    exact and_iff_right List.not_mem_nil

/-- Two contracts derive from each other, one of them also from itself and from no contract. -/
theorem linearized_unlisted_circle :
    let contract (name : String) (bases : List String) : Ast :=
      { kind := "ContractDefinition", src := "0:9:0", attributes := [("name", .str name)],
        children := bases.map fun base => { kind := "InheritanceSpecifier", children := [
            { kind := "UserDefinedTypeName", attributes := [("name", .str base)] }] } }
    let asts : List Ast := [{ kind := "SourceUnit", children := [contract "A" ["C"],
      contract "B" ["A", "B", "Ghost", "A"], contract "C" ["B"], contract "D" []] }]
    ∃ p c, ofAsts (({} : Sources).add 0 "a.sol" "contract A") asts = .ok p ∧
      p.contract? 1 = some c ∧
      (c.linearizedIds.filterMap (Contract.ofNodeId? p.contracts)).head? ≠ some 1 ∧
      c.linearized = [1, 0, 2] ∧ Reaches p.contracts 1 1 ∧ Reaches p.contracts 1 2 ∧
      ¬ Reaches p.contracts 1 3 := by
  intro contract asts
  have heval : (ofAsts (({} : Sources).add 0 "a.sol" "contract A") asts).toOption.any (fun p =>
      (p.contract? 1).any fun c => c.linearized = [1, 0, 2] ∧
        (c.linearizedIds.filterMap (Contract.ofNodeId? p.contracts)).head? ≠ some 1) = true := by
    decide +kernel
  cases h : ofAsts (({} : Sources).add 0 "a.sol" "contract A") asts with
  | error e => rw [h] at heval; cases heval
  | ok p =>
    rw [h] at heval
    change Option.any _ (p.contract? 1) = true at heval
    obtain ⟨c, hc, hfacts⟩ := (Option.any_eq_true _ _).1 heval
    obtain ⟨hlinearized, hunlisted⟩ := of_decide_eq_true hfacts
    obtain ⟨-, -, -, hmem, -⟩ := linearized_unlisted h hc hunlisted
    rw [hlinearized] at hmem
    exact ⟨p, c, rfl, hc, hunlisted, hlinearized, (hmem 1).1 (by decide), (hmem 2).1 (by decide),
      fun hreach => absurd ((hmem 3).2 hreach) (by decide)⟩

end Program

end Solscope
