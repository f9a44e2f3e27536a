import Mathlib.Data.List.Forall2
import Mathlib.Data.List.Induction
import Solscope.Json.Record

/-!
# Free values

A value that may be anything is a tree of values. The members of an object are a map: no name comes
twice among them, and their order is that of the names.

* `Json.byKind`: induction on values, with a hypothesis for every item and every member.
* `Json.collapse_eq_self_iff`: which values are made of maps already.
* `Json.IsLossless`: what is relied on of a way to read free values.
-/

namespace Solscope

theorem mapM_eq_some_iff {α β : Type} {f : α → Option β} {xs : List α} {ys : List β} :
    xs.mapM f = some ys ↔ List.Forall₂ (fun x y => f x = some y) xs ys := by
  induction xs generalizing ys with
  | nil =>
    rw [List.mapM_nil, List.forall₂_nil_left_iff]
    exact Option.some_inj.trans eq_comm
  | cons x xs ih =>
    simp only [List.mapM_cons, Option.bind_eq_bind, Option.bind_eq_some_iff, ih,
      List.forall₂_cons_left_iff]
    constructor
    · rintro ⟨y, hy, ys', hys, h⟩
      exact ⟨y, ys', hy, hys, (Option.some.inj h).symm⟩
    · rintro ⟨y, ys', hy, hys, rfl⟩
      exact ⟨y, hy, ys', hys, rfl⟩

theorem exists_of_mem_mapM {α β : Type} {f : α → Option β} {xs : List α} {ys : List β}
    (h : xs.mapM f = some ys) {y : β} (hy : y ∈ ys) : ∃ x ∈ xs, f x = some y := by
  rw [mapM_eq_some_iff] at h
  induction h with
  | nil => cases hy
  | cons hx _ ih =>
    rcases List.mem_cons.1 hy with rfl | hy
    · exact ⟨_, List.mem_cons_self, hx⟩
    · obtain ⟨x, hmem, hx⟩ := ih hy
      exact ⟨x, List.mem_cons_of_mem _ hmem, hx⟩

/-! ## Maps in order -/

namespace Ordered

variable {κ α : Type} [LT κ] [DecidableLT κ]

theorem mem_of_mem_ofList {pairs : List (κ × α)} {e : κ × α} (h : e ∈ ofList pairs) :
    e ∈ pairs := by
  induction pairs using List.reverseRecOn with
  | nil => cases h
  | append_singleton pairs pair ih =>
    rw [ofList, List.foldl_append] at h
    rcases eq_or_mem_of_mem_insert h with rfl | h
    · exact List.mem_append_right _ (List.mem_singleton_self _)
    · exact List.mem_append_left _ (ih h)

theorem pairwise_ofList [Std.Irrefl (α := κ) (· < ·)] [Std.Trichotomous (α := κ) (· < ·)]
    [Trans (α := κ) (· < ·) (· < ·) (· < ·)] (pairs : List (κ × α)) :
    (ofList pairs).Pairwise fun a b => a.1 < b.1 := by
  induction pairs using List.reverseRecOn with
  | nil => exact .nil
  | append_singleton pairs pair ih =>
    rw [ofList, List.foldl_append]
    exact pairwise_insert ih _ _

/-- An entry whose key comes after all others goes to the end. -/
theorem insert_eq_append [Std.Asymm (α := κ) (· < ·)] {entries : List (κ × α)} {k : κ} {v : α}
    (h : ∀ e ∈ entries, e.1 < k) : insert k v entries = entries ++ [(k, v)] := by
  induction entries with
  | nil => rfl
  | cons entry rest ih =>
    obtain ⟨hentry, hrest⟩ := List.forall_mem_cons.1 h
    rw [insert, if_neg (Std.Asymm.asymm _ _ hentry), if_pos hentry, ih hrest, List.cons_append]

/-- Entries in order are a map. -/
theorem ofList_eq_self [Std.Asymm (α := κ) (· < ·)] {entries : List (κ × α)}
    (h : entries.Pairwise fun a b => a.1 < b.1) : ofList entries = entries := by
  induction entries using List.reverseRecOn with
  | nil => rfl
  | append_singleton entries entry ih =>
    obtain ⟨hentries, -, hlast⟩ := List.pairwise_append.1 h
    have hrest : ofList entries = entries := ih hentries
    rw [ofList] at hrest ⊢
    rw [List.foldl_append, hrest]
    exact insert_eq_append fun e he => hlast e he entry (List.mem_singleton_self _)

end Ordered

namespace Json

/-! ## The values inside a value -/

/-- **Induction on JSON values.** -/
@[elab_as_elim]
theorem byKind {motive : Json → Prop} (null : motive .null) (bool : ∀ value, motive (.bool value))
    (num : ∀ spelling, motive (.num spelling)) (str : ∀ text, motive (.str text))
    (arr : ∀ items, (∀ item ∈ items, motive item) → motive (.arr items))
    (obj : ∀ members, (∀ m ∈ members, motive m.2) → motive (.obj members)) (j : Json) :
    motive j := by
  -- the recursor goes through the lists of items and members, and through the members
  refine @Json.rec motive (fun items => ∀ item ∈ items, motive item)
    (fun members => ∀ m ∈ members, motive m.2) (fun m => motive m.2) null bool num str arr obj
    (by simp) (fun item items hitem hitems => ?_) (by simp)
    (fun m members hm hmembers => ?_) (fun _ value hvalue => hvalue) j
  · exact List.forall_mem_cons.2 ⟨hitem, hitems⟩
  · exact List.forall_mem_cons.2 ⟨hm, hmembers⟩

mutual

/-- A value and all values inside it. -/
def parts : Json → List Json
  | .arr items => .arr items :: partsOfItems items
  | .obj members => .obj members :: partsOfMembers members
  | j => [j]

/-- The values inside the items of an array. -/
def partsOfItems : List Json → List Json
  | [] => []
  | item :: rest => parts item ++ partsOfItems rest

/-- The values inside the members of an object. -/
def partsOfMembers : List (String × Json) → List Json
  | [] => []
  | (_, value) :: rest => parts value ++ partsOfMembers rest

end

theorem mem_partsOfItems {p : Json} {items : List Json} :
    p ∈ partsOfItems items ↔ ∃ item ∈ items, p ∈ item.parts := by
  induction items with
  | nil => simp [partsOfItems]
  | cons item rest ih => simp [partsOfItems, ih]

/-- A value in which the members of every object are a map. -/
def IsSorted (j : Json) : Prop :=
  ∀ members, .obj members ∈ j.parts → members.Pairwise fun a b => a.1 < b.1

/-- A value in which no member of an object has a reserved name. -/
def LacksName (reserved : String) (j : Json) : Prop :=
  ∀ members, .obj members ∈ j.parts → ∀ m ∈ members, m.1 ≠ reserved

/--
What is relied on of a way to read free values from JSON values, which has reserved a name for its
own use. They are read as they were written, with all digits of their numbers, if that name is not
among their own; and what has been read once is read as it is from then on.
-/
structure IsLossless (readValue : Json → Option Json) (reserved : String) : Prop where
  written {v : Json} : v.IsSorted → v.LacksName reserved → readValue v = some v
  again {j v : Json} : readValue j = some v → readValue v = some v

end Json

end Solscope
