import Mathlib.Tactic.Linarith
import Solscope.Text.Integer

/-!
# Which texts are integers

A text spells a number by decimal digits, at least one, after an optional sign. Reading succeeds on
exactly the texts that spell a number of the range, and gives that number.

* `readDigits_eq_ok_iff`: digits are read if their value is in range.
* `readInt_eq_ok_iff`: **a text is read exactly if it spells a signed number of 64 bits.**
* `spellsInt_toString`: every integer is spelled by its decimal text.
-/

namespace Solscope.Text

/-- Decimal digits, at least one, that spell a number. -/
def SpellsNat (cs : List Char) (n : Nat) : Prop :=
  cs ≠ [] ∧ (∀ c ∈ cs, c.isDigit = true) ∧ Nat.ofDigitChars 10 cs 0 = n

/-- Decimal digits after an optional sign that spell an integer. -/
inductive SpellsInt : List Char → Int → Prop
  | plain {cs : List Char} {n : Nat} : SpellsNat cs n → SpellsInt cs n
  | plus {cs : List Char} {n : Nat} : SpellsNat cs n → SpellsInt ('+' :: cs) n
  | minus {cs : List Char} {n : Nat} : SpellsNat cs n → SpellsInt ('-' :: cs) (-n)

/-- Whether an integer is a signed number of 64 bits. -/
def IsInt64 (n : Int) : Prop := -2 ^ 63 ≤ n ∧ n < 2 ^ 63

instance (n : Int) : Decidable (IsInt64 n) := inferInstanceAs (Decidable (_ ∧ _))

/-! ## Digits -/

theorem isDigit_iff {c : Char} : c.isDigit = true ↔ '0' ≤ c ∧ c ≤ '9' := by
  unfold Char.isDigit
  rw [Bool.and_eq_true, decide_eq_true_eq, decide_eq_true_eq]
  rfl

theorem digit?_of_isDigit {c : Char} (h : c.isDigit = true) :
    digit? c = some (c.toNat - '0'.toNat) := by
  unfold digit?
  rw [if_pos (isDigit_iff.1 h)]
  rfl

theorem digit?_eq_none {c : Char} (h : c.isDigit ≠ true) : digit? c = none := by
  unfold digit?
  rw [if_neg fun hc => h (isDigit_iff.2 hc)]

theorem le_ofDigitChars (cs : List Char) (acc : Nat) : acc ≤ Nat.ofDigitChars 10 cs acc := by
  induction cs generalizing acc with
  | nil => exact Nat.le_refl acc
  | cons c cs ih =>
    rw [Nat.ofDigitChars_cons]
    have hrest := ih (10 * acc + (c.toNat - '0'.toNat))
    omega

/-- Digits are read if the number they spell is in range. -/
theorem readDigits_eq_ok_iff {largest : Nat} {cs : List Char} {acc n : Nat}
    (hacc : acc ≤ largest) :
    readDigits largest cs acc = .ok n ↔
      (∀ c ∈ cs, c.isDigit = true) ∧ Nat.ofDigitChars 10 cs acc = n ∧ n ≤ largest := by
  induction cs generalizing acc with
  | nil =>
    rw [readDigits, Nat.ofDigitChars_nil]
    constructor
    · intro h
      obtain rfl := Except.ok.inj h
      exact ⟨by simp, rfl, hacc⟩
    · rintro ⟨-, rfl, -⟩
      rfl
  | cons c cs ih =>
    rw [readDigits, Nat.ofDigitChars_cons, List.forall_mem_cons]
    by_cases hc : c.isDigit = true
    · rw [digit?_of_isDigit hc]
      dsimp only
      -- the value only grows, so a prefix out of range decides
      have hgrows := le_ofDigitChars cs (10 * acc + (c.toNat - '0'.toNat))
      split
      · rename_i hlarge
        refine iff_of_false (by simp) ?_
        rintro ⟨-, rfl, hle⟩
        omega
      · rename_i hsmall
        rw [ih (Nat.not_lt.1 hsmall), and_iff_right hc]
    · rw [digit?_eq_none hc]
      exact iff_of_false (by simp) fun h => hc h.1.1

theorem readDigits_zero_eq_ok_iff {largest : Nat} {cs : List Char} {n : Nat} (hcs : cs ≠ []) :
    readDigits largest cs 0 = .ok n ↔ SpellsNat cs n ∧ n ≤ largest := by
  rw [readDigits_eq_ok_iff (Nat.zero_le _), SpellsNat, and_iff_right hcs, and_assoc]

theorem readDigits1_eq_ok_iff {largest : Nat} {cs : List Char} {n : Nat} :
    readDigits1 largest cs = .ok n ↔ SpellsNat cs n ∧ n ≤ largest := by
  unfold readDigits1
  cases cs with
  | nil => exact iff_of_false (by simp) fun h => h.1.1 rfl
  | cons c cs => exact readDigits_zero_eq_ok_iff (List.cons_ne_nil c cs)

/-! ## Signs -/

theorem not_spellsNat_cons {c : Char} {cs : List Char} {n : Nat} (hc : c.isDigit = false) :
    ¬ SpellsNat (c :: cs) n := by
  rintro ⟨-, hdigits, -⟩
  have hdigit := hdigits c List.mem_cons_self
  rw [hc] at hdigit
  cases hdigit

theorem readNat_eq_ok_iff {largest : Nat} {cs : List Char} {n : Nat} :
    readNat largest cs = .ok n ↔
      (SpellsNat cs n ∨ ∃ rest, cs = '+' :: rest ∧ SpellsNat rest n) ∧ n ≤ largest := by
  unfold readNat
  split
  · refine iff_of_false (by simp) ?_
    rintro ⟨h | ⟨rest, hrest, -⟩, -⟩
    · exact h.1 rfl
    · cases hrest
  · rename_i rest
    rw [readDigits1_eq_ok_iff]
    refine and_congr_left fun _ => ⟨fun h => .inr ⟨rest, rfl, h⟩, ?_⟩
    rintro (h | ⟨rest', hrest, h⟩)
    · exact absurd h (not_spellsNat_cons (by decide))
    · obtain rfl := (List.cons.inj hrest).2
      exact h
  · rename_i hne hplus
    rw [readDigits_zero_eq_ok_iff (by simpa using hne)]
    refine and_congr_left fun _ => ⟨.inl, ?_⟩
    rintro (h | ⟨rest, rfl, -⟩)
    · exact h
    · exact absurd rfl (hplus rest)

theorem map_eq_ok_iff {ε α β : Type} {f : α → β} {x : Except ε α} {b : β} :
    x.map f = .ok b ↔ ∃ a, x = .ok a ∧ f a = b := by
  cases x <;> simp [Except.map]

theorem eq_ok_of_toOption {ε α : Type} {x : Except ε α} {a : α} (h : x.toOption = some a) :
    x = .ok a := by
  cases x with
  | error e => cases h
  | ok b => exact congrArg _ (Option.some.inj h)

theorem readInt_minus (cs : List Char) :
    readInt ('-' :: cs) =
      Except.map (fun n : Nat => -(n : Int)) (readDigits1 (largestInt + 1) cs) := by
  rw [readInt]
  cases readDigits1 (largestInt + 1) cs <;> rfl

/-- **A text is read exactly if it spells a signed number of 64 bits.** -/
theorem readInt_eq_ok_iff {cs : List Char} {n : Int} :
    readInt cs = .ok n ↔ SpellsInt cs n ∧ IsInt64 n := by
  unfold IsInt64
  by_cases hsign : ∃ rest, cs = '-' :: rest
  · obtain ⟨rest, rfl⟩ := hsign
    rw [readInt_minus, map_eq_ok_iff]
    constructor
    · rintro ⟨m, hm, rfl⟩
      obtain ⟨hspells, hle⟩ := readDigits1_eq_ok_iff.1 hm
      refine ⟨.minus hspells, ?_⟩
      unfold largestInt at hle
      omega
    · rintro ⟨hspells, hlow, -⟩
      cases hspells with
      | plain h => exact absurd h (not_spellsNat_cons (by decide))
      | @minus _ m h =>
        refine ⟨m, readDigits1_eq_ok_iff.2 ⟨h, ?_⟩, rfl⟩
        unfold largestInt
        omega
  · have hread : readInt cs = (readNat largestInt cs).map Int.ofNat := by
      unfold readInt
      split
      · exact absurd ⟨_, rfl⟩ hsign
      · rfl
    rw [hread, map_eq_ok_iff]
    constructor
    · rintro ⟨m, hm, rfl⟩
      obtain ⟨hspells, hle⟩ := readNat_eq_ok_iff.1 hm
      unfold largestInt at hle
      refine ⟨?_, by simp only [Int.ofNat_eq_natCast]; omega⟩
      rcases hspells with h | ⟨rest, rfl, h⟩
      · exact .plain h
      · exact .plus h
    · rintro ⟨hspells, -, hhigh⟩
      cases hspells with
      | @plain _ m h =>
        refine ⟨m, readNat_eq_ok_iff.2 ⟨.inl h, ?_⟩, rfl⟩
        unfold largestInt
        omega
      | @plus rest m h =>
        refine ⟨m, readNat_eq_ok_iff.2 ⟨.inr ⟨rest, rfl, h⟩, ?_⟩, rfl⟩
        unfold largestInt
        omega
      | minus _ => exact absurd ⟨_, rfl⟩ hsign

/-! ## Decimal texts -/

theorem SpellsInt.ne_nil {cs : List Char} {n : Int} (h : SpellsInt cs n) : cs ≠ [] := by
  cases h with
  | plain h => exact h.1
  | plus _ => exact List.cons_ne_nil _ _
  | minus _ => exact List.cons_ne_nil _ _

/-- A text that spells an integer has signs and digits only. -/
theorem SpellsInt.mem {cs : List Char} {n : Int} (h : SpellsInt cs n) {c : Char} (hc : c ∈ cs) :
    c = '+' ∨ c = '-' ∨ c.isDigit = true := by
  cases h with
  | plain h => exact .inr (.inr (h.2.1 c hc))
  | plus h =>
    rcases List.mem_cons.1 hc with rfl | hc
    · exact .inl rfl
    · exact .inr (.inr (h.2.1 c hc))
  | minus h =>
    rcases List.mem_cons.1 hc with rfl | hc
    · exact .inr (.inl rfl)
    · exact .inr (.inr (h.2.1 c hc))

theorem spellsNat_repr (n : Nat) : SpellsNat n.repr.toList n := by
  rw [Nat.toList_repr]
  exact ⟨Nat.toDigits_ne_nil, fun c hc => Nat.isDigit_of_mem_toDigits (by decide) (by decide) hc,
    Nat.ofDigitChars_ten_toDigits⟩

/-- Every integer is spelled by its decimal text. -/
theorem spellsInt_toString (n : Int) : SpellsInt (toString n).toList n := by
  rw [Int.toString_eq_repr, Int.repr_eq_if]
  split
  · rename_i hpos
    have hspells := SpellsInt.plain (spellsNat_repr n.toNat)
    rwa [Int.toNat_of_nonneg hpos] at hspells
  · rename_i hneg
    have hspells := SpellsInt.minus (spellsNat_repr (-n).toNat)
    rw [Int.toNat_of_nonneg (by omega), Int.neg_neg] at hspells
    rw [String.toList_append]
    exact hspells

end Solscope.Text
