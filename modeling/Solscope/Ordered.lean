/-!
# Ordered maps and sets

Finite maps as lists of key and value, kept in strictly increasing order of the keys, and finite
sets as lists of keys in the same order.

* `find?_insert`: what a map binds after an insertion.
* `mem_insert`, `pairwise_insert`: its entries, and that their keys stay in order.
* `length_insert_le`: an insertion adds at most one entry.
* `mem_insertKey`: the keys of a set after an insertion.
-/

namespace Solscope.Ordered

variable {κ α : Type _} [LT κ] [DecidableLT κ]

/-- Binds `k` to `v`, in place of what it was bound to. -/
def insert (k : κ) (v : α) : List (κ × α) → List (κ × α)
  | [] => [(k, v)]
  | (k', v') :: rest =>
    if k < k' then (k, v) :: (k', v') :: rest
    else if k' < k then (k', v') :: insert k v rest
    else (k, v) :: rest

/-- The map in which later pairs replace earlier ones with the same key. -/
def ofList (pairs : List (κ × α)) : List (κ × α) :=
  pairs.foldl (fun entries (k, v) => insert k v entries) []

/-- The value bound to a key. -/
def find? [DecidableEq κ] (k : κ) (entries : List (κ × α)) : Option α :=
  (entries.find? fun entry => entry.1 = k).map Prod.snd

/-- Adds a key to a list of keys in strictly increasing order. -/
def insertKey (k : κ) : List κ → List κ
  | [] => [k]
  | k' :: rest =>
    if k < k' then k :: k' :: rest
    else if k' < k then k' :: insertKey k rest
    else k :: rest

theorem find?_insert [DecidableEq κ] [Std.Irrefl (α := κ) (· < ·)]
    [Std.Trichotomous (α := κ) (· < ·)] (k k' : κ) (v : α) (entries : List (κ × α)) :
    find? k' (insert k v entries) = if k = k' then some v else find? k' entries := by
  induction entries with
  | nil => by_cases h : k = k' <;> simp [insert, find?, h]
  | cons entry rest ih =>
    obtain ⟨k₁, v₁⟩ := entry
    simp only [find?] at ih
    rw [insert]
    split
    · by_cases h : k = k' <;> simp [find?, h]
    · rename_i h₁
      split <;> rename_i h₂
      · by_cases h : k₁ = k'
        · have : k ≠ k' := fun he => Std.Irrefl.irrefl (r := (· < ·)) k (he.trans h.symm ▸ h₂)
          simp [find?, h, this]
        · simp [find?, h, ih]
      · have := Std.Trichotomous.trichotomous (r := (· < ·)) k k₁ h₁ h₂
        by_cases h : k = k' <;> simp_all [find?]

/-- An insertion adds its entry and removes the one of the same key. -/
theorem mem_insert [Std.Irrefl (α := κ) (· < ·)] [Std.Trichotomous (α := κ) (· < ·)]
    [Trans (α := κ) (· < ·) (· < ·) (· < ·)] {k : κ} {v : α} {entries : List (κ × α)}
    (h : entries.Pairwise fun a b => a.1 < b.1) {e : κ × α} :
    e ∈ insert k v entries ↔ e = (k, v) ∨ e.1 ≠ k ∧ e ∈ entries := by
  have hne {a b : κ} (hab : a < b) : b ≠ a := by
    rintro rfl
    exact Std.Irrefl.irrefl (r := (· < ·)) _ hab
  induction entries with
  | nil => simp [insert]
  | cons entry rest ih =>
    obtain ⟨k₁, v₁⟩ := entry
    obtain ⟨hfirst, hrest⟩ := List.pairwise_cons.1 h
    rw [insert]
    split
    · rename_i hk
      -- the key comes before all others
      have hkeys : ∀ e ∈ (k₁, v₁) :: rest, e.1 ≠ k := by
        intro e he
        rcases List.mem_cons.1 he with rfl | he
        · exact hne hk
        · exact hne (Trans.trans hk (hfirst e he))
      rw [List.mem_cons]
      exact or_congr_right ⟨fun he => ⟨hkeys e he, he⟩, And.right⟩
    · rename_i hk
      split <;> rename_i hk₁
      · have hother : e = (k₁, v₁) → e.1 ≠ k := by rintro rfl; exact (hne hk₁).symm
        have hmem : e ∈ insert k v rest ↔ e = (k, v) ∨ e.1 ≠ k ∧ e ∈ rest := ih hrest
        rw [List.mem_cons, hmem, List.mem_cons]
        constructor
        · rintro (he | he | ⟨hkey, he⟩)
          · exact .inr ⟨hother he, .inl he⟩
          · exact .inl he
          · exact .inr ⟨hkey, .inr he⟩
        · rintro (he | ⟨hkey, he | he⟩)
          · exact .inr (.inl he)
          · exact .inl he
          · exact .inr (.inr ⟨hkey, he⟩)
      · obtain rfl := Std.Trichotomous.trichotomous (r := (· < ·)) k k₁ hk hk₁
        rw [List.mem_cons, List.mem_cons]
        constructor
        · rintro (he | he)
          · exact .inl he
          · exact .inr ⟨hne (hfirst e he), .inr he⟩
        · rintro (he | ⟨hkey, rfl | he⟩)
          · exact .inl he
          · exact absurd rfl hkey
          · exact .inr he

/-- An insertion keeps the keys in order. -/
theorem pairwise_insert [Std.Irrefl (α := κ) (· < ·)] [Std.Trichotomous (α := κ) (· < ·)]
    [Trans (α := κ) (· < ·) (· < ·) (· < ·)] {entries : List (κ × α)}
    (h : entries.Pairwise fun a b => a.1 < b.1) (k : κ) (v : α) :
    (insert k v entries).Pairwise fun a b => a.1 < b.1 := by
  induction entries with
  | nil => exact List.pairwise_singleton _ _
  | cons entry rest ih =>
    obtain ⟨k₁, v₁⟩ := entry
    obtain ⟨hfirst, hrest⟩ := List.pairwise_cons.1 h
    rw [insert]
    split
    · rename_i hk
      refine List.pairwise_cons.2 ⟨fun e he => ?_, h⟩
      rcases List.mem_cons.1 he with rfl | he
      · exact hk
      · exact Trans.trans hk (hfirst e he)
    · rename_i hk
      split <;> rename_i hk₁
      · refine List.pairwise_cons.2 ⟨fun e he => ?_, ih hrest⟩
        rcases (mem_insert hrest).1 he with rfl | ⟨-, he⟩
        · exact hk₁
        · exact hfirst e he
      · obtain rfl := Std.Trichotomous.trichotomous (r := (· < ·)) k k₁ hk hk₁
        exact List.pairwise_cons.2 ⟨hfirst, hrest⟩

/-- An insertion adds nothing but its entry, in order or not. -/
theorem eq_or_mem_of_mem_insert {k : κ} {v : α} {entries : List (κ × α)} {e : κ × α}
    (h : e ∈ insert k v entries) : e = (k, v) ∨ e ∈ entries := by
  induction entries with
  | nil => exact .inl (List.mem_singleton.1 h)
  | cons entry rest ih =>
    rw [insert] at h
    split at h
    · exact List.mem_cons.1 h
    split at h
    · rcases List.mem_cons.1 h with rfl | h
      · exact .inr List.mem_cons_self
      · exact (ih h).imp_right (List.mem_cons_of_mem _)
    · exact (List.mem_cons.1 h).imp_right (List.mem_cons_of_mem _)

/-- An insertion adds at most one entry. -/
theorem length_insert_le (k : κ) (v : α) (entries : List (κ × α)) :
    (insert k v entries).length ≤ entries.length + 1 := by
  induction entries with
  | nil => simp [insert]
  | cons entry rest ih =>
    rw [insert]
    split
    · simp
    split
    · simpa using ih
    · simp

theorem mem_insertKey [Std.Trichotomous (α := κ) (· < ·)] {k k' : κ} {keys : List κ} :
    k' ∈ insertKey k keys ↔ k' = k ∨ k' ∈ keys := by
  induction keys with
  | nil => simp [insertKey]
  | cons k₁ rest ih =>
    rw [insertKey]
    split
    · simp
    · rename_i h₁
      split <;> rename_i h₂
      · simp only [List.mem_cons, ih]
        exact or_left_comm
      · have := Std.Trichotomous.trichotomous (r := (· < ·)) k k₁ h₁ h₂
        simp [this]

end Solscope.Ordered
