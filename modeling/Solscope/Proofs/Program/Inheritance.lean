import Mathlib.Data.List.Perm.Subperm
import Mathlib.Logic.Relation
import Solscope.Proofs.Program.Linking

/-!
# Walking over bases

Where no linearization is listed, the bases of a contract are walked depth first. A walk never
leaves the bases. If no contract derives from itself, it meets all of them, and it is made of the
walks of the direct bases, whatever way led to the contract.

* `Inheritance.Reaches`, `Inheritance.DerivesFrom`: being or deriving from a contract.
* `Inheritance.reaches_of_mem_walk`: a walk stays among the contract and its bases.
* `Inheritance.walkFrom_congr`: a walk does not depend on contracts that it cannot come to.
* `Inheritance.walk_eq`: the walk of a contract from those of its direct bases.
* `Inheritance.mem_walk`: **a walk meets the contract and all its bases**, each once.
-/

namespace Solscope

namespace Distinct

variable {α β : Type} [DecidableEq α]

/-- Added members come after those that are there. -/
theorem prefix_append (xs ys : List α) : xs <+: append xs ys := by
  unfold append
  induction ys generalizing xs with
  | nil => exact List.prefix_rfl
  | cons y ys ih =>
    refine List.IsPrefix.trans ?_ (ih (add xs y))
    unfold add
    split
    · exact List.prefix_rfl
    · exact List.prefix_append xs [y]

/-- Of a list without repetitions, those members are added that are not there. -/
theorem append_eq {xs ys : List α} (h : ys.Nodup) :
    append xs ys = xs ++ ys.filter fun y => y ∉ xs := by
  unfold append
  induction ys generalizing xs with
  | nil => simp
  | cons y ys ih =>
    obtain ⟨hy, hys⟩ := List.nodup_cons.1 h
    rw [List.foldl_cons, ih hys, add]
    split
    · rename_i hmem
      rw [List.filter_cons_of_neg (by simpa using hmem)]
    · rename_i hmem
      have hrest : ys.filter (fun z => z ∉ xs ++ [y]) = ys.filter fun z => z ∉ xs :=
        List.filter_congr fun z hz => by
          have hne : z ≠ y := fun he => hy (he ▸ hz)
          simp [hne]
      rw [List.filter_cons_of_pos (by simpa using hmem), hrest, List.append_assoc,
        List.singleton_append]

variable {f : β → List α} {init : List α} {items : List β}

theorem mem_foldr_append {x : α} :
    x ∈ items.foldr (fun item order => append order (f item)) init ↔
      x ∈ init ∨ ∃ item ∈ items, x ∈ f item := by
  induction items with
  | nil => simp
  | cons item items ih =>
    rw [List.foldr_cons, mem_append, ih, List.exists_mem_cons_iff, or_assoc, or_comm (b := x ∈ f _)]

theorem nodup_foldr_append (h : init.Nodup) :
    (items.foldr (fun item order => append order (f item)) init).Nodup := by
  induction items with
  | nil => exact h
  | cons item items ih => exact nodup_append ih _

theorem prefix_foldr_append :
    init <+: items.foldr (fun item order => append order (f item)) init := by
  induction items with
  | nil => exact List.prefix_rfl
  | cons item items ih => exact ih.trans (prefix_append _ _)

end Distinct

namespace Inheritance

/-! ## Deriving from a contract -/

/-- A contract is another one or derives from it. -/
def Reaches (contracts : List Contract) : ContractId → ContractId → Prop :=
  Relation.ReflTransGen fun c base => base ∈ parentsIn contracts c

/-- A contract derives from another one, directly or through others. -/
def DerivesFrom (contracts : List Contract) : ContractId → ContractId → Prop :=
  Relation.TransGen fun c base => base ∈ parentsIn contracts c

/-- No contract derives from itself. -/
def Acyclic (contracts : List Contract) : Prop := ∀ c, ¬ DerivesFrom contracts c c

variable {contracts : List Contract} {fuel fuel' : Nat} {path path' : List ContractId}
  {c base id : ContractId}

/-- Only contracts have direct bases. -/
theorem lt_length_of_mem_parentsIn (h : base ∈ parentsIn contracts c) : c < contracts.length := by
  unfold parentsIn at h
  by_contra hc
  rw [List.getElem?_eq_none (Nat.le_of_not_lt hc)] at h
  cases h

theorem DerivesFrom.lt_length (h : DerivesFrom contracts c base) : c < contracts.length := by
  obtain ⟨direct, hdirect, -⟩ := Relation.TransGen.head'_iff.1 h
  exact lt_length_of_mem_parentsIn hdirect

/-- Bases that were declared before what derives from them make no circle. -/
theorem acyclic_of_lt (h : ∀ c, ∀ base ∈ parentsIn contracts c, base < c) : Acyclic contracts := by
  have hlt {c base : ContractId} (hderives : DerivesFrom contracts c base) : base < c := by
    induction hderives with
    | single hdirect => exact h _ _ hdirect
    | tail _ hdirect ih => exact Nat.lt_trans (h _ _ hdirect) ih
  exact fun c hc => Nat.lt_irrefl c (hlt hc)

/-! ## Walks -/

/-- The walk of a contract starts with it, unless it is on the way already. -/
theorem walkFrom_succ (hid : id ∉ path) : walkFrom (parentsIn contracts) (fuel + 1) path id =
    (parentsIn contracts id).foldr (fun parent order =>
      Distinct.append order (walkFrom (parentsIn contracts) fuel (id :: path) parent)) [id] := by
  rw [walkFrom, if_neg hid, List.foldl_reverse]

/-- A way without repetitions among the first `count` contracts is no longer than `count`. -/
theorem length_le_of_lt {count : Nat} (hnodup : path.Nodup) (h : ∀ x ∈ path, x < count) :
    path.length ≤ count := by
  have hsubset : path ⊆ List.range count := fun x hx => List.mem_range.2 (h x hx)
  simpa using (hnodup.subperm hsubset).length_le

/--
**A walk depends on the bases of the contracts that it can come to only**, and not on the fuel if
there is enough for all of these.
-/
theorem walkFrom_congr {parents parents' : ContractId → List ContractId} {count : Nat}
    (hsame : ∀ c < count, parents' c = parents c)
    (hstay : ∀ c < count, ∀ base ∈ parents c, base < count) (hid : id < count)
    (hnodup : path.Nodup) (hpath : ∀ x ∈ path, x < count) (hfuel : count < fuel + path.length)
    (hfuel' : count < fuel' + path.length) :
    walkFrom parents' fuel' path id = walkFrom parents fuel path id := by
  have hlength := length_le_of_lt hnodup hpath
  induction fuel generalizing fuel' path id with
  | zero => omega
  | succ fuel ih =>
    obtain ⟨fuel', rfl⟩ := Nat.exists_eq_succ_of_ne_zero (show fuel' ≠ 0 by omega)
    rw [walkFrom, walkFrom, hsame id hid]
    split
    · rfl
    · rename_i hnew
      -- the way goes on with one more contract
      have hnodup' : (id :: path).Nodup := List.nodup_cons.2 ⟨hnew, hnodup⟩
      have hpath' : ∀ x ∈ id :: path, x < count := List.forall_mem_cons.2 ⟨hid, hpath⟩
      refine List.foldl_ext _ _ _ fun order base hbase => ?_
      have hbase := hstay id hid base (List.mem_reverse.1 hbase)
      rw [ih hbase hnodup' hpath' (by rw [List.length_cons]; omega)
        (by rw [List.length_cons]; omega) (length_le_of_lt hnodup' hpath')]

/-- **A walk stays among the contract and its bases.** -/
theorem reaches_of_mem_walkFrom {x : ContractId}
    (h : x ∈ walkFrom (parentsIn contracts) fuel path id) : Reaches contracts id x := by
  induction fuel generalizing path id with
  | zero => cases h
  | succ fuel ih =>
    by_cases hid : id ∈ path
    · rw [walkFrom, if_pos hid] at h
      cases h
    · rw [walkFrom_succ hid, Distinct.mem_foldr_append, List.mem_singleton] at h
      rcases h with rfl | ⟨parent, hparent, hx⟩
      · exact .refl
      · exact .head hparent (ih hx)

theorem reaches_of_mem_walk {x : ContractId} (h : x ∈ walk contracts id) :
    Reaches contracts id x :=
  reaches_of_mem_walkFrom h

/-- A walk starts with its contract. -/
theorem head?_walk (contracts : List Contract) (id : ContractId) :
    (walk contracts id).head? = some id := by
  rw [walk, walkFrom_succ List.not_mem_nil]
  have hfirst : [id] <+: (parentsIn contracts id).foldr (fun base order => Distinct.append order
      (walkFrom (parentsIn contracts) contracts.length [id] base)) [id] :=
    Distinct.prefix_foldr_append
  obtain ⟨rest, hrest⟩ := hfirst
  rw [← hrest]
  rfl

/--
The way to a contract can be continued: its contracts derive from each other, down to `id`, and
`fuel` is left for as many as there are besides.
-/
structure OnWay (contracts : List Contract) (fuel : Nat) (path : List ContractId)
    (id : ContractId) : Prop where
  nodup : path.Nodup
  derives : ∀ x ∈ path, DerivesFrom contracts x id
  enough : contracts.length < fuel + path.length

theorem onWay_nil (contracts : List Contract) (id : ContractId) :
    OnWay contracts (contracts.length + 1) [] id where
  nodup := List.nodup_nil
  derives _ hx := nomatch hx
  enough := Nat.lt_succ_self _

namespace OnWay

theorem not_mem (hacyclic : Acyclic contracts) (h : OnWay contracts fuel path id) : id ∉ path :=
  fun hid => hacyclic id (h.derives id hid)

/-- The fuel lasts, since the way has every contract at most once. -/
theorem fuel_ne_zero (h : OnWay contracts fuel path id) : fuel ≠ 0 := by
  rintro rfl
  have hle := length_le_of_lt h.nodup fun x hx => (h.derives x hx).lt_length
  have henough := h.enough
  omega

theorem next (hacyclic : Acyclic contracts) (h : OnWay contracts (fuel + 1) path id)
    (hbase : base ∈ parentsIn contracts id) : OnWay contracts fuel (id :: path) base where
  nodup := List.nodup_cons.2 ⟨h.not_mem hacyclic, h.nodup⟩
  derives x hx := by
    rcases List.mem_cons.1 hx with rfl | hx
    · exact .single hbase
    · exact (h.derives x hx).tail hbase
  enough := by
    have := h.enough
    rw [List.length_cons]
    omega

end OnWay

/-- A walk does not depend on the way to where it starts. -/
theorem walkFrom_eq_walkFrom (hacyclic : Acyclic contracts) (h : OnWay contracts fuel path id)
    (h' : OnWay contracts fuel' path' id) :
    walkFrom (parentsIn contracts) fuel path id =
      walkFrom (parentsIn contracts) fuel' path' id := by
  induction fuel generalizing path id fuel' path' with
  | zero => exact absurd rfl h.fuel_ne_zero
  | succ fuel ih =>
    obtain ⟨fuel', rfl⟩ := Nat.exists_eq_succ_of_ne_zero h'.fuel_ne_zero
    rw [walkFrom_succ (h.not_mem hacyclic), walkFrom_succ (h'.not_mem hacyclic)]
    refine List.foldr_ext _ _ _ fun base hbase order => ?_
    rw [ih (h.next hacyclic hbase) (h'.next hacyclic hbase)]

/-- **The walk of a contract is made of the walks of its direct bases**, the last one first. -/
theorem walk_eq (hacyclic : Acyclic contracts) (id : ContractId) :
    walk contracts id = (parentsIn contracts id).foldr
      (fun parent order => Distinct.append order (walk contracts parent)) [id] := by
  rw [walk, walkFrom_succ List.not_mem_nil]
  refine List.foldr_ext _ _ _ fun base hbase order => ?_
  rw [walk, walkFrom_eq_walkFrom hacyclic ((onWay_nil contracts id).next hacyclic hbase)
    (onWay_nil contracts base)]

theorem nodup_walk (hacyclic : Acyclic contracts) (id : ContractId) :
    (walk contracts id).Nodup := by
  rw [walk_eq hacyclic]
  exact Distinct.nodup_foldr_append (List.pairwise_singleton _ id)

/-- **A walk meets the contract and all its bases.** -/
theorem mem_walk (hacyclic : Acyclic contracts) {x : ContractId} :
    x ∈ walk contracts id ↔ Reaches contracts id x := by
  refine ⟨reaches_of_mem_walk, fun h => ?_⟩
  induction h using Relation.ReflTransGen.head_induction_on with
  | refl => exact List.mem_of_mem_head? (head?_walk contracts x)
  | head hparent _ ih =>
    rw [walk_eq hacyclic, Distinct.mem_foldr_append]
    exact .inr ⟨_, hparent, ih⟩

/-- The walk of a direct base is shorter. -/
theorem length_walk_lt (hacyclic : Acyclic contracts) (h : base ∈ parentsIn contracts id) :
    (walk contracts base).length < (walk contracts id).length := by
  have hid : id ∉ walk contracts base := fun hid =>
    hacyclic id (Relation.TransGen.head' h ((mem_walk hacyclic).1 hid))
  have hnodup : (id :: walk contracts base).Nodup :=
    List.nodup_cons.2 ⟨hid, nodup_walk hacyclic base⟩
  refine (hnodup.subperm fun x hx => (mem_walk hacyclic).2 ?_).length_le
  rcases List.mem_cons.1 hx with rfl | hx
  · exact .refl
  · exact .head h ((mem_walk hacyclic).1 hx)

end Inheritance

end Solscope
