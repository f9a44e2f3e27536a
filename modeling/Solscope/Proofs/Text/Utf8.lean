import Solscope.Text.Utf8

/-!
# Reading back the UTF-8 bytes of a text

The bytes of a character are read one after the other: the first one begins the character
(`decodeFrom_first`), every other one adds six bits (`decodeFrom_more`), and the last one ends it
(`decodeFrom_last`).

* `decodeFrom_utf8EncodeChar`: a character is read back from its bytes, whatever follows.
* `ofUtf8_utf8`: **a text is read back from its bytes.**
* `length_ofUtf8_le`: whatever the bytes are, no more characters are read than there are bytes.
* `encode_ascii`: the characters of ASCII take one byte each.
* `not_mem_utf8EncodeChar`: their bytes are in no other character.
-/

namespace Solscope.Text

/-! ## The bytes of a text -/

theorem encode_append (cs ds : List Char) : encode (cs ++ ds) = encode cs ++ encode ds :=
  List.flatMap_append

theorem encode_cons (c : Char) (cs : List Char) :
    encode (c :: cs) = String.utf8EncodeChar c ++ encode cs :=
  List.flatMap_cons

theorem utf8EncodeChar_ascii {c : Char} (h : c.toNat < 0x80) :
    String.utf8EncodeChar c = [UInt8.ofNat c.toNat] := by
  have hle : c.val.toNat ≤ 0x7F := Nat.le_of_lt_succ h
  unfold String.utf8EncodeChar
  exact if_pos hle

theorem encode_cons_ascii {c : Char} (h : c.toNat < 0x80) (cs : List Char) :
    encode (c :: cs) = UInt8.ofNat c.toNat :: encode cs := by
  rw [encode_cons, utf8EncodeChar_ascii h]
  rfl

/-- The characters of ASCII take one byte each. -/
theorem encode_ascii {cs : List Char} (h : ∀ c ∈ cs, c.toNat < 0x80) :
    encode cs = cs.map fun c => UInt8.ofNat c.toNat := by
  induction cs with
  | nil => rfl
  | cons c cs ih =>
    obtain ⟨hc, hcs⟩ := List.forall_mem_cons.1 h
    rw [encode_cons_ascii hc, List.map_cons, ih hcs]

/-- The bytes of other characters are none of ASCII. -/
theorem le_of_mem_utf8EncodeChar {c : Char} (h : 0x80 ≤ c.toNat) {b : UInt8}
    (hb : b ∈ String.utf8EncodeChar c) : 0x80 ≤ b.toNat := by
  have hv : c.val.toNat < 0xD800 ∨ 0xDFFF < c.val.toNat ∧ c.val.toNat < 0x110000 := c.valid
  have hle : ¬ c.val.toNat ≤ 0x7F := Nat.not_le.2 h
  have hmod : ∀ n, (UInt8.ofNat n).toNat = n % 256 := fun n => UInt8.toNat_ofNat'
  unfold String.utf8EncodeChar at hb
  dsimp only at hb
  generalize c.val.toNat = v at hv hle hb
  -- one case for each number of bytes
  rw [if_neg hle] at hb
  split at hb
  · simp only [List.mem_cons, List.not_mem_nil, or_false] at hb
    rcases hb with rfl | rfl <;> rw [hmod] <;> omega
  split at hb
  · simp only [List.mem_cons, List.not_mem_nil, or_false] at hb
    rcases hb with rfl | rfl | rfl <;> rw [hmod] <;> omega
  · simp only [List.mem_cons, List.not_mem_nil, or_false] at hb
    rcases hb with rfl | rfl | rfl | rfl <;> rw [hmod] <;> omega

/-- The byte of a character of ASCII is in no other character. -/
theorem not_mem_utf8EncodeChar {c d : Char} (hc : c.toNat < 0x80) (hne : d ≠ c) :
    UInt8.ofNat c.toNat ∉ String.utf8EncodeChar d := by
  have hbyte : (UInt8.ofNat c.toNat).toNat = c.toNat := by
    rw [UInt8.toNat_ofNat']
    omega
  intro hmem
  rcases Nat.lt_or_ge d.toNat 0x80 with hd | hd
  · rw [utf8EncodeChar_ascii hd, List.mem_singleton] at hmem
    have hsame := congrArg UInt8.toNat hmem
    rw [hbyte, UInt8.toNat_ofNat'] at hsame
    exact hne (Char.toNat_inj.1 (by omega))
  · have hle := le_of_mem_utf8EncodeChar hd hmem
    omega

theorem length_utf8 (text : String) : (utf8 text).length = text.utf8ByteSize := by
  rw [← String.size_toByteArray, ← String.utf8Encode_toList, List.utf8Encode,
    List.size_toByteArray]
  rfl

theorem utf8_append (s t : String) : utf8 (s ++ t) = utf8 s ++ utf8 t := by
  rw [utf8, String.toList_append, encode_append, utf8, utf8]

/-! ## Reading back -/

/-- A first byte above ASCII begins a character. -/
theorem decodeFrom_first {b : UInt8} {p : Begun} (hb : 0x80 ≤ b.toNat) (h : begun? b.toNat = some p)
    (rest : Bytes) : decodeFrom none (b :: rest) = decodeFrom (some p) rest := by
  have hlt : ¬ b.toNat < 0x80 := by omega
  simp [decodeFrom, first, h, hlt]

theorem decodeFrom_more {b : UInt8} {p : Begun} (hb : p.low ≤ b.toNat ∧ b.toNat ≤ p.high)
    (hp : 1 < p.missing) (rest : Bytes) :
    decodeFrom (some p) (b :: rest) =
      decodeFrom (some { bits := p.bits * 64 + b.toNat % 64, missing := p.missing - 1 }) rest := by
  have hlt : ¬ p.missing ≤ 1 := by omega
  simp [decodeFrom, next, hb, hlt]

theorem decodeFrom_last {b : UInt8} {p : Begun} (hb : p.low ≤ b.toNat ∧ b.toNat ≤ p.high)
    (hp : p.missing ≤ 1) (rest : Bytes) :
    decodeFrom (some p) (b :: rest) =
      Char.ofNat (p.bits * 64 + b.toNat % 64) :: decodeFrom none rest := by
  simp [decodeFrom, next, hb, hp]

/-- What the first of two bytes begins. -/
theorem begun?_two {v : Nat} (h : 0x7F < v) (h' : v ≤ 0x7FF) :
    begun? (v / 64 + 0xC0) = some { bits := v / 64, missing := 1 } := by
  have hbits : (v / 64 + 0xC0) % 32 = v / 64 := by omega
  rw [begun?, if_neg (by omega), if_pos (by omega), hbits]

/-- What the first of three bytes begins: the second one excludes short forms and surrogates. -/
theorem begun?_three {v : Nat} (h : 0x7FF < v) (h' : v ≤ 0xFFFF) (hv : v < 0xD800 ∨ 0xDFFF < v) :
    ∃ low high, begun? (v / 4096 + 0xE0) = some { bits := v / 4096, missing := 2, low, high } ∧
      low ≤ v / 64 % 64 + 0x80 ∧ v / 64 % 64 + 0x80 ≤ high := by
  have hbits : (v / 4096 + 0xE0) % 16 = v / 4096 := by omega
  rw [begun?, if_neg (by omega), if_neg (by omega)]
  by_cases h0 : v / 4096 = 0
  · exact ⟨0xA0, 0xBF, by rw [if_pos (by omega), h0], by omega, by omega⟩
  rw [if_neg (by omega)]
  by_cases h13 : v / 4096 = 13
  · exact ⟨0x80, 0x9F, by rw [if_pos (by omega), h13], by omega, by omega⟩
  · exact ⟨0x80, 0xBF, by rw [if_neg (by omega), if_pos (by omega), hbits], by omega, by omega⟩

/-- What the first of four bytes begins: the second one excludes short forms and large numbers. -/
theorem begun?_four {v : Nat} (h : 0xFFFF < v) (h' : v < 0x110000) :
    ∃ low high, begun? (v / 262144 + 0xF0) = some { bits := v / 262144, missing := 3, low, high } ∧
      low ≤ v / 4096 % 64 + 0x80 ∧ v / 4096 % 64 + 0x80 ≤ high := by
  have hbits : (v / 262144 + 0xF0) % 8 = v / 262144 := by omega
  rw [begun?, if_neg (by omega), if_neg (by omega), if_neg (by omega), if_neg (by omega),
    if_neg (by omega)]
  by_cases h0 : v / 262144 = 0
  · exact ⟨0x90, 0xBF, by rw [if_pos (by omega), h0], by omega, by omega⟩
  rw [if_neg (by omega)]
  by_cases h4 : v / 262144 = 4
  · exact ⟨0x80, 0x8F, by rw [if_neg (by omega), if_pos (by omega), h4], by omega, by omega⟩
  · exact ⟨0x80, 0xBF, by rw [if_pos (by omega), hbits], by omega, by omega⟩

theorem toNat_tail (n : Nat) : (UInt8.ofNat (n % 64 + 0x80)).toNat = n % 64 + 0x80 := by
  rw [UInt8.toNat_ofNat']
  omega

/-- **A character is read back from its bytes.** -/
theorem decodeFrom_utf8EncodeChar (c : Char) (rest : Bytes) :
    decodeFrom none (String.utf8EncodeChar c ++ rest) = c :: decodeFrom none rest := by
  have hv : c.val.toNat < 0xD800 ∨ 0xDFFF < c.val.toNat ∧ c.val.toNat < 0x110000 := c.valid
  have hc : Char.ofNat c.val.toNat = c := Char.ofNat_toNat c
  unfold String.utf8EncodeChar
  generalize c.val.toNat = v at hv hc
  have hlow : (v % 64 + 0x80) % 64 = v % 64 := by omega
  -- one case for each number of bytes
  dsimp only
  split
  · rename_i h₁
    have hb : (UInt8.ofNat v).toNat = v := by rw [UInt8.toNat_ofNat']; omega
    have hascii : v < 0x80 := by omega
    simp [decodeFrom, first, hb, hascii, hc]
  split
  · rename_i h₁ h₂
    have hb : (UInt8.ofNat (v / 64 % 32 + 0xC0)).toNat = v / 64 + 0xC0 := by
      rw [UInt8.toNat_ofNat']; omega
    have hbits : v / 64 * 64 + (v % 64 + 0x80) % 64 = v := by omega
    rw [List.cons_append, List.cons_append, List.nil_append,
      decodeFrom_first (by omega) (by rw [hb]; exact begun?_two (by omega) h₂),
      decodeFrom_last (by simp only [toNat_tail]; omega) (by simp), toNat_tail, hbits, hc]
  split
  · rename_i h₁ h₂ h₃
    have hb : (UInt8.ofNat (v / 4096 % 16 + 0xE0)).toNat = v / 4096 + 0xE0 := by
      rw [UInt8.toNat_ofNat']; omega
    have hmid : (v / 64 % 64 + 0x80) % 64 = v / 64 % 64 := by omega
    have hbits : (v / 4096 * 64 + v / 64 % 64) * 64 + v % 64 = v := by omega
    obtain ⟨low, high, hbegun, hrange⟩ := begun?_three (by omega) h₃ (by omega)
    rw [List.cons_append, List.cons_append, List.cons_append, List.nil_append,
      decodeFrom_first (by omega) (by rw [hb]; exact hbegun),
      decodeFrom_more (by rw [toNat_tail]; exact hrange) (by simp),
      decodeFrom_last (by simp only [toNat_tail]; omega) (by simp)]
    simp only [toNat_tail, hmid, hlow, hbits, hc]
  · rename_i h₁ h₂ h₃
    have hb : (UInt8.ofNat (v / 262144 % 8 + 0xF0)).toNat = v / 262144 + 0xF0 := by
      rw [UInt8.toNat_ofNat']; omega
    have hhigh : (v / 4096 % 64 + 0x80) % 64 = v / 4096 % 64 := by omega
    have hmid : (v / 64 % 64 + 0x80) % 64 = v / 64 % 64 := by omega
    have hbits : ((v / 262144 * 64 + v / 4096 % 64) * 64 + v / 64 % 64) * 64 + v % 64 = v := by
      omega
    obtain ⟨low, high, hbegun, hrange⟩ := begun?_four (v := v) (by omega) (by omega)
    rw [List.cons_append, List.cons_append, List.cons_append, List.cons_append, List.nil_append,
      decodeFrom_first (by omega) (by rw [hb]; exact hbegun),
      decodeFrom_more (by rw [toNat_tail]; exact hrange) (by simp),
      decodeFrom_more (by simp only [toNat_tail]; omega) (by simp),
      decodeFrom_last (by simp only [toNat_tail]; omega) (by simp)]
    simp only [toNat_tail, hhigh, hmid, hlow, hbits, hc]

theorem decodeFrom_encode (cs : List Char) : decodeFrom none (encode cs) = cs := by
  induction cs with
  | nil => rfl
  | cons c cs ih =>
    rw [encode_cons, decodeFrom_utf8EncodeChar, ih]

/-- **A text is read back from its bytes.** -/
theorem ofUtf8_utf8 (text : String) : ofUtf8 (utf8 text) = text := by
  rw [ofUtf8, utf8, decodeFrom_encode, String.ofList_toList]

/-- Texts with the same bytes are the same. -/
theorem utf8_injective : Function.Injective utf8 := by
  intro s t h
  rw [← ofUtf8_utf8 s, h, ofUtf8_utf8]

/-! ## How many characters bytes are read as -/

/-- A byte between characters is a character or begins one. -/
theorem length_first (b : Nat) : (first b).1.length + (first b).2.toList.length = 1 := by
  unfold first
  split
  · rfl
  · cases begun? b <;> rfl

/-- A byte inside a begun character ends or continues it, or takes its place. -/
theorem length_next_le (p : Begun) (b : Nat) :
    (next p b).1.length + (next p b).2.toList.length ≤ 2 := by
  unfold next
  split
  · dsimp only
    split <;> simp
  · have hfirst := length_first b
    simp only [List.length_cons]
    omega

/-- A begun character is one more than there are bytes still to come. -/
theorem length_decodeFrom_le (state : Option Begun) (data : Bytes) :
    (decodeFrom state data).length ≤ data.length + state.toList.length := by
  induction data generalizing state with
  | nil => cases state <;> simp [decodeFrom]
  | cons b rest ih =>
    cases state with
    | none =>
      have hfirst := length_first b.toNat
      have hrest := ih (first b.toNat).2
      simp only [decodeFrom, List.length_append, List.length_cons, Option.toList_none,
        List.length_nil]
      omega
    | some p =>
      have hnext := length_next_le p b.toNat
      have hrest := ih (next p b.toNat).2
      simp only [decodeFrom, List.length_append, List.length_cons, Option.toList_some,
        List.length_nil]
      omega

/-- **No more characters are read than there are bytes.** -/
theorem length_ofUtf8_le (data : Bytes) : (ofUtf8 data).length ≤ data.length := by
  have hlength := length_decodeFrom_le none data
  rw [ofUtf8, String.length_ofList]
  simpa using hlength

end Solscope.Text
