import Solscope.Bytecode

/-!
# Which deployed code is compiled code

Deployed code is compiled code in which bytes of placeholders have been changed, followed by
arguments or by padding.

* `Bytecode.IsFilling`: only bytes inside placeholders differ.
* `Bytecode.accepts_iff`: what code is accepted.
-/

namespace Solscope.Bytecode

variable {code : Bytecode}

/-- Bytes that differ from the code inside its placeholders only. -/
def IsFilling (code : Bytecode) (filled : Bytes) : Prop :=
  filled.length = code.bytes.length ∧
    ∀ i, filled[i]? ≠ code.bytes[i]? → ∃ r ∈ code.placeholders, r.start ≤ i ∧ i < r.stop

/-- Code with its placeholders filled in, and zeros after it, or whatever may follow. -/
def Matches (code : Bytecode) (deployed : Bytes) (anySuffix : Bool) : Prop :=
  code.bytes ≠ [] ∧ ∃ filled suffix, deployed = filled ++ suffix ∧ code.IsFilling filled ∧
    (anySuffix = true ∨ ∀ b ∈ suffix, b = 0)

theorem isUnknown_iff (code : Bytecode) (i : Nat) :
    code.isUnknown i = true ↔ ∃ r ∈ code.placeholders, r.start ≤ i ∧ i < r.stop := by
  simp [isUnknown, ByteRange.contains]

/-- Bytes agree with others that start at an offset if they differ in unknown places only. -/
theorem agreesFrom_iff (code : Bytecode) (offset : Nat) (expected actual : Bytes) :
    code.agreesFrom offset expected actual = true ↔
      expected.length ≤ actual.length ∧
        ∀ i < expected.length, actual[i]? = expected[i]? ∨ code.isUnknown (offset + i) = true := by
  fun_induction agreesFrom code offset expected actual with
  | case1 offset actual => simp
  | case2 offset e expected => simp
  | case3 offset e expected a actual ih =>
    have hshift (i : Nat) : offset + 1 + i = offset + (i + 1) := by omega
    simp only [Bool.and_eq_true, Bool.or_eq_true, decide_eq_true_eq, ih, hshift]
    simp only [List.length_cons, Nat.add_le_add_iff_right]
    constructor
    · rintro ⟨hfirst, hlength, hrest⟩
      refine ⟨hlength, fun i hi => ?_⟩
      cases i with
      | zero => exact hfirst.imp_left (congrArg some)
      | succ i => exact hrest i (by omega)
    · rintro ⟨hlength, hall⟩
      have hfirst : a = e ∨ code.isUnknown offset = true :=
        (hall 0 (by omega)).imp_left Option.some.inj
      exact ⟨hfirst, hlength, fun i hi => hall (i + 1) (by omega)⟩

/-- The bytes of the code itself are a filling if they agree in all known places. -/
theorem isFilling_take_iff (code : Bytecode) (deployed : Bytes) :
    code.IsFilling (deployed.take code.bytes.length) ↔
      code.agreesFrom 0 code.bytes deployed = true := by
  have htake {i : Nat} (hi : i < code.bytes.length) :
      (deployed.take code.bytes.length)[i]? = deployed[i]? := by
    rw [List.getElem?_take, if_pos hi]
  rw [agreesFrom_iff, IsFilling, List.length_take]
  constructor
  · rintro ⟨hlength, hknown⟩
    refine ⟨by omega, fun i hi => ?_⟩
    by_cases hsame : deployed[i]? = code.bytes[i]?
    · exact .inl hsame
    · rw [Nat.zero_add, isUnknown_iff]
      exact .inr (hknown i (by rwa [htake hi]))
  · rintro ⟨hlength, hknown⟩
    refine ⟨by omega, fun i hdiffers => ?_⟩
    by_cases hi : i < code.bytes.length
    · rw [htake hi] at hdiffers
      have hunknown := (hknown i hi).resolve_left hdiffers
      rwa [Nat.zero_add, isUnknown_iff] at hunknown
    · -- past the end there is nothing to differ
      have hnone : (deployed.take code.bytes.length)[i]? = code.bytes[i]? := by
        rw [List.getElem?_eq_none (by rw [List.length_take]; omega),
          List.getElem?_eq_none (by omega)]
      exact absurd hnone hdiffers

/-- Code is accepted if it is the compiled code with its placeholders filled in. -/
theorem accepts_iff (code : Bytecode) (deployed : Bytes) (anySuffix : Bool) :
    code.accepts deployed anySuffix = true ↔ code.Matches deployed anySuffix := by
  have hempty : (!code.bytes.isEmpty) = true ↔ code.bytes ≠ [] := by simp
  have hzeros : (deployed.drop code.bytes.length).all (· = 0) = true ↔
      ∀ b ∈ deployed.drop code.bytes.length, b = 0 := by simp
  rw [accepts, Bool.and_eq_true, Bool.and_eq_true, Bool.or_eq_true, hempty, hzeros,
    ← isFilling_take_iff, Matches, and_assoc]
  refine and_congr_right fun _ => ⟨fun ⟨hfilled, hsuffix⟩ => ?_, ?_⟩
  · exact ⟨_, _, (List.take_append_drop _ _).symm, hfilled, hsuffix⟩
  · rintro ⟨filled, suffix, rfl, hfilled, hsuffix⟩
    rw [← hfilled.1, List.take_left, List.drop_left]
    exact ⟨hfilled, hsuffix⟩

end Solscope.Bytecode
