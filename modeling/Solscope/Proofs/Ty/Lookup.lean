import Solscope.Proofs.Ty.Names

/-!
# What names stand for

A name stands for a declaration of exactly that name, else for one of the contract from which it is
seen, else for the only one that ends in it. So declarations rank for a name, and it stands for the
one that comes before all others.

* `Declared.rank`: how a full name ranks for a name.
* `Declared.soleEndingIn?_eq_some_iff`: the only full name that ends in a name.
* `Declared.lookup?_eq_some_iff`: **a name stands for what ranks before everything else**.
* `Declared.IsHidden`: some declarations have another one that ranks as high.
* `Declared.lookup?_extended_iff`: **more declarations leave a name alone if and only if they do not
  hide what it stands for**.
-/

namespace Solscope.Declared

variable {α : Type} {nameOf : α → String} {entries more : List (String × α)}
  {contract : Option String} {name key : String} {x : α}

/-! ## Declarations under their names -/

namespace IsKept

theorem eq_of_mem (h : IsKept nameOf entries) {y : α} (hx : (key, x) ∈ entries)
    (hy : (key, y) ∈ entries) : x = y := by
  obtain ⟨-, hsorted⟩ := h
  induction entries with
  | nil => cases hx
  | cons e rest ih =>
    obtain ⟨hfirst, hrest⟩ := List.pairwise_cons.1 hsorted
    rcases List.mem_cons.1 hx with rfl | hx'
    · rcases List.mem_cons.1 hy with heq | hy'
      · exact (Prod.mk.inj heq).2.symm
      · exact absurd (hfirst (key, y) hy') (String.lt_irrefl key)
    · rcases List.mem_cons.1 hy with rfl | hy'
      · exact absurd (hfirst (key, x) hx') (String.lt_irrefl key)
      · exact ih hx' hy' hrest

theorem find?_eq_some_iff (h : IsKept nameOf entries) :
    Ordered.find? key entries = some x ↔ (key, x) ∈ entries := by
  refine ⟨mem_of_find?, fun hx => ?_⟩
  cases hfind : Ordered.find? key entries with
  | none =>
    have hall := List.find?_eq_none.1 (Option.map_eq_none_iff.1 hfind) _ hx
    simp at hall
  | some y => rw [h.eq_of_mem hx (mem_of_find? hfind)]

theorem find?_eq_none_iff : Ordered.find? key entries = none ↔ ∀ e ∈ entries, e.1 ≠ key := by
  rw [Ordered.find?, Option.map_eq_none_iff, List.find?_eq_none]
  simp

end IsKept

/-- A list in strict order all of whose members are equal has one member at most. -/
theorem eq_singleton_of_pairwise {l : List (String × α)} {e : String × α} (he : e ∈ l)
    (hall : ∀ other ∈ l, other = e) (hsorted : l.Pairwise fun a b => a.1 < b.1) : l = [e] := by
  match l, hsorted with
  | [first], _ => rw [hall first List.mem_cons_self]
  | first :: second :: rest, hsorted =>
    have hlt : first.1 < second.1 := (List.pairwise_cons.1 hsorted).1 _ List.mem_cons_self
    rw [hall first List.mem_cons_self, hall second (by simp)] at hlt
    exact absurd hlt (String.lt_irrefl _)

/-! ## Ranks -/

/-- How a full name ranks for a name that is seen from inside `contract`; from 3 on it does not. -/
def rank (contract : Option String) (name key : String) : Nat :=
  if key = name then 0
  else if contract.map (· ++ "." ++ name) = some key then 1
  else if endsIn name key then 2
  else 3

theorem rank_eq_zero_iff : rank contract name key = 0 ↔ key = name := by
  unfold rank
  split
  · simp_all
  split
  · simp_all
  split <;> simp_all

theorem rank_le_one_iff :
    rank contract name key ≤ 1 ↔ key = name ∨ contract.map (· ++ "." ++ name) = some key := by
  unfold rank
  split
  · simp_all
  split
  · simp_all
  split <;> simp_all

theorem rank_le_two_iff : rank contract name key ≤ 2 ↔ key = name ∨
    contract.map (· ++ "." ++ name) = some key ∨ endsIn name key = true := by
  unfold rank
  split
  · simp_all
  split
  · simp_all
  split <;> simp_all

/-- The only declaration whose name ends in a name. -/
theorem soleEndingIn?_eq_some_iff (h : IsKept nameOf entries) :
    soleEndingIn? entries name = some x ↔ ∃ key, (key, x) ∈ entries ∧ endsIn name key = true ∧
      ∀ e ∈ entries, endsIn name e.1 = true → e.1 = key := by
  unfold soleEndingIn?
  constructor
  · intro hx
    split at hx
    · rename_i entry hfilter
      obtain rfl := Option.some.inj hx
      have hmem (e : String × α) :
          e ∈ entries.filter (fun entry => endsIn name entry.1) ↔ e = entry := by
        rw [hfilter, List.mem_singleton]
      obtain ⟨hentry, hends⟩ := List.mem_filter.1 ((hmem entry).2 rfl)
      refine ⟨entry.1, hentry, hends, fun e he hend => ?_⟩
      rw [(hmem e).1 (List.mem_filter.2 ⟨he, hend⟩)]
    · cases hx
  · rintro ⟨key, hx, hends, hsole⟩
    have hfilter : entries.filter (fun entry => endsIn name entry.1) = [(key, x)] := by
      refine eq_singleton_of_pairwise (List.mem_filter.2 ⟨hx, hends⟩) (fun e he => ?_)
        (h.sorted.filter _)
      obtain ⟨hmem, hend⟩ := List.mem_filter.1 he
      have heq : e.1 = key := hsole e hmem hend
      exact Prod.ext heq (h.eq_of_mem (heq ▸ hmem) hx)
    rw [hfilter]

/-- The three searches of a lookup, each for a name. -/
theorem lookup?_eq (entries : List (String × α)) (contract : Option String) (name : String) :
    lookup? entries contract name = (Ordered.find? name entries).or
      (((contract.map (· ++ "." ++ name)).bind fun key => Ordered.find? key entries).or
        (soleEndingIn? entries name)) := by
  cases contract <;> rfl

/-- What a name stands for ranks before everything else. -/
theorem exists_first_of_lookup? (h : IsKept nameOf entries)
    (hx : lookup? entries contract name = some x) :
    ∃ key, (key, x) ∈ entries ∧ rank contract name key ≤ 2 ∧
      ∀ e ∈ entries, rank contract name e.1 ≤ rank contract name key → e.1 = key := by
  rw [lookup?_eq] at hx
  rcases Option.or_eq_some_iff.1 hx with hx | ⟨hexact, hx⟩
  · have hzero : rank contract name name = 0 := rank_eq_zero_iff.2 rfl
    refine ⟨name, h.find?_eq_some_iff.1 hx, by omega, fun e _ hle => ?_⟩
    exact rank_eq_zero_iff.1 (Nat.le_zero.1 (hzero ▸ hle))
  have hexact := IsKept.find?_eq_none_iff.1 hexact
  rcases Option.or_eq_some_iff.1 hx with hx | ⟨hnone, hx⟩
  · obtain ⟨key, hkey, hx⟩ := Option.bind_eq_some_iff.1 hx
    have hone : rank contract name key ≤ 1 := rank_le_one_iff.2 (.inr hkey)
    refine ⟨key, h.find?_eq_some_iff.1 hx, by omega, fun e he hle => ?_⟩
    rcases rank_le_one_iff.1 (Nat.le_trans hle hone) with hname | hother
    · exact absurd hname (hexact e he)
    · exact Option.some.inj (hother.symm.trans hkey)
  · obtain ⟨key, hkey, hends, hsole⟩ := (soleEndingIn?_eq_some_iff h).1 hx
    have htwo : rank contract name key ≤ 2 := rank_le_two_iff.2 (.inr (.inr hends))
    refine ⟨key, hkey, htwo, fun e he hle => ?_⟩
    -- nothing ranks higher, so what ranks as high ends in the name
    rcases rank_le_two_iff.1 (Nat.le_trans hle htwo) with hname | hother | hend
    · exact absurd hname (hexact e he)
    · rw [hother, Option.bind_some] at hnone
      exact absurd rfl (IsKept.find?_eq_none_iff.1 hnone e he)
    · exact hsole e he hend

/-- A name stands for what ranks before everything else. -/
theorem lookup?_of_first (h : IsKept nameOf entries) (hx : (key, x) ∈ entries)
    (htwo : rank contract name key ≤ 2)
    (hfirst : ∀ e ∈ entries, rank contract name e.1 ≤ rank contract name key → e.1 = key) :
    lookup? entries contract name = some x := by
  rw [lookup?_eq]
  by_cases hname : key = name
  · subst hname
    rw [h.find?_eq_some_iff.2 hx]
    rfl
  have hnone : Ordered.find? name entries = none := by
    refine IsKept.find?_eq_none_iff.2 fun e he hkey => ?_
    have hzero : rank contract name e.1 = 0 := rank_eq_zero_iff.2 hkey
    exact hname ((hfirst e he (by omega)).symm.trans hkey)
  rw [hnone, Option.none_or]
  by_cases hqualified : contract.map (· ++ "." ++ name) = some key
  · rw [hqualified, Option.bind_some, h.find?_eq_some_iff.2 hx]
    rfl
  have hone : ¬ rank contract name key ≤ 1 := by
    rw [rank_le_one_iff, not_or]
    exact ⟨hname, hqualified⟩
  have hnoneQualified : ((contract.map (· ++ "." ++ name)).bind fun key =>
      Ordered.find? key entries) = none := by
    refine Option.bind_eq_none_iff.2 fun other hother => ?_
    refine IsKept.find?_eq_none_iff.2 fun e he hkey => ?_
    have hle : rank contract name e.1 ≤ 1 := rank_le_one_iff.2 (.inr (hkey ▸ hother))
    have heq := hfirst e he (by omega)
    exact hqualified (by rw [hother, ← hkey, heq])
  rw [hnoneQualified, Option.none_or]
  have hends : endsIn name key = true := by
    rcases rank_le_two_iff.1 htwo with hexact | hother | hends
    · exact absurd hexact hname
    · exact absurd hother hqualified
    · exact hends
  refine (soleEndingIn?_eq_some_iff h).2 ⟨key, hx, hends, fun e he hend => ?_⟩
  have hle : rank contract name e.1 ≤ 2 := rank_le_two_iff.2 (.inr (.inr hend))
  exact hfirst e he (by omega)

/-- **A name stands for what ranks before everything else**, and for nothing if there is no such. -/
theorem lookup?_eq_some_iff (h : IsKept nameOf entries) :
    lookup? entries contract name = some x ↔ ∃ key, (key, x) ∈ entries ∧
      rank contract name key ≤ 2 ∧
        ∀ e ∈ entries, rank contract name e.1 ≤ rank contract name key → e.1 = key :=
  ⟨exists_first_of_lookup? h, fun ⟨_, hx, htwo, hfirst⟩ => lookup?_of_first h hx htwo hfirst⟩

/-! ## More declarations -/

/-- Some declarations have another one that ranks as high for a name as what it stands for. -/
def IsHidden (nameOf : α → String) (more : List (String × α)) (contract : Option String)
    (name : String) (x : α) : Prop :=
  ∃ e ∈ more, rank contract name e.1 ≤ rank contract name (nameOf x) ∧ e.2 ≠ x

/-- Declarations in place of those of the same names. -/
def Extends (entries more extended : List (String × α)) : Prop :=
  ∀ key, Ordered.find? key extended = (Ordered.find? key more).or (Ordered.find? key entries)

/-- **More declarations leave a name alone if and only if they do not hide what it stands for.** -/
theorem lookup?_extended_iff {extended : List (String × α)} (h : IsKept nameOf entries)
    (hmore : IsKept nameOf more) (hextended : IsKept nameOf extended)
    (hext : Extends entries more extended) (hx : lookup? entries contract name = some x) :
    lookup? extended contract name = some x ↔ ¬ IsHidden nameOf more contract name x := by
  have hmem (key : String) (y : α) : (key, y) ∈ extended ↔
      (key, y) ∈ more ∨ (∀ e ∈ more, e.1 ≠ key) ∧ (key, y) ∈ entries := by
    rw [← hextended.find?_eq_some_iff, hext, Option.or_eq_some_iff, hmore.find?_eq_some_iff,
      IsKept.find?_eq_none_iff, h.find?_eq_some_iff]
  obtain ⟨key, hkey, htwo, hfirst⟩ := (lookup?_eq_some_iff h).1 hx
  obtain rfl : key = nameOf x := h.key_eq _ hkey
  rw [lookup?_eq_some_iff hextended]
  constructor
  · rintro ⟨key, hkey', -, hfirst'⟩ ⟨e, he, hrank, hne⟩
    obtain rfl : key = nameOf x := hextended.key_eq _ hkey'
    have hin : (e.1, e.2) ∈ extended := (hmem e.1 e.2).2 (.inl he)
    have hsame : e.1 = nameOf x := hfirst' _ hin hrank
    exact hne (hextended.eq_of_mem hin (hsame ▸ hkey'))
  · intro hhidden
    have hall : ∀ e ∈ more, rank contract name e.1 ≤ rank contract name (nameOf x) → e.2 = x := by
      intro e he hrank
      by_cases heq : e.2 = x
      · exact heq
      · exact absurd ⟨e, he, hrank, heq⟩ hhidden
    refine ⟨nameOf x, (hmem _ _).2 ?_, htwo, fun e he hrank => ?_⟩
    · -- a declaration of the same name is the same
      by_cases hnew : ∃ e ∈ more, e.1 = nameOf x
      · obtain ⟨e, he, hsame⟩ := hnew
        have hdecl : e.2 = x := hall e he (hsame ▸ Nat.le_refl _)
        exact .inl (by rw [← hsame, ← hdecl]; exact he)
      · exact .inr ⟨fun e he hsame => hnew ⟨e, he, hsame⟩, hkey⟩
    · rcases (hmem e.1 e.2).1 he with he | ⟨-, he⟩
      · rw [hmore.key_eq _ he, hall _ he hrank]
      · exact hfirst _ he hrank

end Solscope.Declared
