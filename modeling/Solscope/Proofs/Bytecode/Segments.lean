import Solscope.Bytecode
import Solscope.Proofs.Text.Integer
import Solscope.Proofs.Text.Utf8
import Solscope.Proofs.Text.Words

/-!
# Code in segments

Compiled code is written in segments, each of which is either some bytes, two digits for each, or
the name of a missing address. Underscores are no digits, so the first two of them in a row are the
start of the next name, whatever names hold and wherever they end.

* `Hex.decode_encode`: bytes are read back from their digits, small or capital.
* `Bytecode.cutPlaceholder_append`: digits are cut where the next name starts.
* `Bytecode.parseFrom_placeholder`: **one round of reading**, whose digits and name may be followed
  by anything.
* `Bytecode.Segment`: a segment, as it is written and as it is read.
* `Bytecode.parse_segments`: **code is read back segment by segment.**
-/

namespace Solscope

/-! ## Digits -/

namespace Hex

/-- A digit of a half byte: there is a small one and a capital. -/
def IsDigit (n : Nat) (c : Char) : Prop := c = Bytes.hexDigit n ∨ c = (Bytes.hexDigit n).toUpper

/-- A text that spells bytes, two digits for each. -/
inductive Spells : List Char → Bytes → Prop
  | nil : Spells [] []
  | cons {b : UInt8} {high low : Char} {text : List Char} {data : Bytes}
      (hhigh : IsDigit (b.toNat / 16) high) (hlow : IsDigit (b.toNat % 16) low)
      (hrest : Spells text data) : Spells (high :: low :: text) (b :: data)

theorem IsDigit.spec {n : Nat} {c : Char} (h : IsDigit n c) (hn : n < 16) :
    c.toNat < 0x80 ∧ Text.isBlank c = false ∧ c ≠ 'x' ∧ value? (UInt8.ofNat c.toNat) = some n := by
  have hall : ∀ n < 16, ∀ capital : Bool,
      let c := if capital then (Bytes.hexDigit n).toUpper else Bytes.hexDigit n
      c.toNat < 0x80 ∧ Text.isBlank c = false ∧ c ≠ 'x' ∧
        value? (UInt8.ofNat c.toNat) = some n := by decide
  rcases h with rfl | rfl
  · exact hall n hn false
  · exact hall n hn true

namespace Spells

variable {text more : List Char} {data others : Bytes}

theorem append (h : Spells text data) (hmore : Spells more others) :
    Spells (text ++ more) (data ++ others) := by
  induction h with
  | nil => exact hmore
  | cons hhigh hlow _ ih => exact .cons hhigh hlow ih

theorem length_eq (h : Spells text data) : text.length = 2 * data.length := by
  induction h with
  | nil => rfl
  | cons _ _ _ ih =>
    simp only [List.length_cons, ih]
    omega

/-- What holds of digits holds of all characters of a text that spells bytes. -/
theorem forall_mem {P : Char → Prop} (hP : ∀ n < 16, ∀ c, IsDigit n c → P c)
    (h : Spells text data) : ∀ c ∈ text, P c := by
  induction h with
  | nil => simp
  | @cons b high low text data hhigh hlow _ ih =>
    have hb : b.toNat < 256 := b.toNat_lt
    have hP' : P high := hP (b.toNat / 16) (by omega) high hhigh
    have hP'' : P low := hP (b.toNat % 16) (by omega) low hlow
    exact List.forall_mem_cons.2 ⟨hP', List.forall_mem_cons.2 ⟨hP'', ih⟩⟩

theorem encode_eq (h : Spells text data) :
    Text.encode text = text.map fun c => UInt8.ofNat c.toNat :=
  Text.encode_ascii (h.forall_mem fun _ hn _ hc => (hc.spec hn).1)

end Spells

variable {text : List Char} {data bytes : Bytes}

/-- Digits are not taken for `0x`. -/
theorem withoutIntroducer_eq_self (h : ∀ b ∈ bytes, value? b ≠ none) :
    withoutIntroducer bytes = bytes := by
  unfold withoutIntroducer
  split
  · exact absurd (by decide) (h 120 (by simp))
  · exact absurd (by decide) (h 88 (by simp))
  · rfl

theorem decodePairs_cons {b high low : UInt8} (hhigh : value? high = some (b.toNat / 16))
    (hlow : value? low = some (b.toNat % 16)) (position : Nat) (rest : Bytes) :
    decodePairs position (high :: low :: rest) =
      (decodePairs (position + 2) rest).map (b :: ·) := by
  have hb : UInt8.ofNat (16 * (b.toNat / 16) + b.toNat % 16) = b := by
    rw [Nat.div_add_mod, UInt8.ofNat_toNat]
  rw [decodePairs, hhigh, hlow]
  simp only [hb]

theorem decodePairs_encode (h : Spells text data) (position : Nat) :
    decodePairs position (Text.encode text) = .ok data := by
  induction h generalizing position with
  | nil => rfl
  | @cons b high low text data hhigh hlow _ ih =>
    have hb : b.toNat < 256 := b.toNat_lt
    obtain ⟨hascii, -, -, hvalue⟩ := hhigh.spec (by omega)
    obtain ⟨hascii', -, -, hvalue'⟩ := hlow.spec (by omega)
    rw [Text.encode_cons_ascii hascii, Text.encode_cons_ascii hascii',
      decodePairs_cons hvalue hvalue', ih]
    rfl

/-- **Bytes are read back from their digits.** -/
theorem decode_encode (h : Spells text data) : decode (Text.encode text) = .ok data := by
  have hdigits : ∀ b ∈ Text.encode text, value? b ≠ none := by
    intro b hb
    rw [h.encode_eq] at hb
    obtain ⟨c, hc, rfl⟩ := List.mem_map.1 hb
    refine h.forall_mem (P := fun c => value? (UInt8.ofNat c.toNat) ≠ none) ?_ c hc
    intro n hn c hc
    simp [(hc.spec hn).2.2.2]
  have heven : ¬ (Text.encode text).length % 2 = 1 := by
    rw [h.encode_eq, List.length_map, h.length_eq]
    omega
  rw [decode, if_neg heven, withoutIntroducer_eq_self hdigits, decodePairs_encode h]

/-- Pairs are decoded only if all of them are digits. -/
theorem value?_of_decodePairs {position : Nat} (heven : bytes.length % 2 = 0)
    (h : decodePairs position bytes = .ok data) : ∀ b ∈ bytes, value? b ≠ none := by
  fun_induction decodePairs position bytes generalizing data with
  | case1 position high low rest hhigh => cases h
  | case2 position high low rest _ hlow => cases h
  | case3 position high low rest m n hm hn ih =>
    obtain ⟨others, hothers, -⟩ := Text.map_eq_ok_iff.1 h
    have heven' : rest.length % 2 = 0 := by
      simp only [List.length_cons] at heven
      omega
    have hrest := ih heven' hothers
    have hhigh : value? high ≠ none := by simp [hn]
    have hlow : value? low ≠ none := by simp [hm]
    exact List.forall_mem_cons.2 ⟨hhigh, List.forall_mem_cons.2 ⟨hlow, hrest⟩⟩
  | case4 bytes position hshort =>
    match bytes with
    | [] => simp
    | [_] => cases heven
    | high :: low :: rest => exact absurd rfl (hshort high low rest)

/-- What can be decoded has an even number of digits, and no underscore among them. -/
theorem spec_of_decode (h : decode bytes = .ok data) : bytes.length % 2 = 0 ∧ 95 ∉ bytes := by
  unfold decode at h
  split at h
  · cases h
  rename_i hlength
  have heven : bytes.length % 2 = 0 := by omega
  have hvalue : value? 95 = none := by decide
  refine ⟨heven, fun hmem => ?_⟩
  -- an underscore is still there once `0x` is dropped
  have hdropped : (withoutIntroducer bytes).length % 2 = 0 ∧ 95 ∈ withoutIntroducer bytes := by
    unfold withoutIntroducer
    split
    · simp only [List.length_cons] at heven
      exact ⟨by omega, by simpa using hmem⟩
    · simp only [List.length_cons] at heven
      exact ⟨by omega, by simpa using hmem⟩
    · exact ⟨heven, hmem⟩
  exact value?_of_decodePairs hdropped.1 h 95 hdropped.2 hvalue

end Hex

namespace Bytecode

variable {digits name data : Bytes}

/-! ## One round of reading -/

/-- **Digits are cut where the next name starts.** -/
theorem cutPlaceholder_append (h : 95 ∉ digits) (rest : Bytes) :
    cutPlaceholder (digits ++ 95 :: 95 :: rest) = (digits, 95 :: 95 :: rest) := by
  induction digits with
  | nil => rfl
  | cons b digits ih =>
    have hb : b ≠ 95 := fun heq => h (heq ▸ List.mem_cons_self)
    have hdigits : 95 ∉ digits := fun hmem => h (List.mem_cons_of_mem b hmem)
    rw [List.cons_append, cutPlaceholder.eq_2 _ _ fun _ heq => absurd heq hb, ih hdigits]

theorem cutPlaceholder_eq_self (h : 95 ∉ digits) : cutPlaceholder digits = (digits, []) := by
  induction digits with
  | nil => rfl
  | cons b digits ih =>
    have hb : b ≠ 95 := fun heq => h (heq ▸ List.mem_cons_self)
    have hdigits : 95 ∉ digits := fun hmem => h (List.mem_cons_of_mem b hmem)
    rw [cutPlaceholder.eq_2 _ _ fun _ heq => absurd heq hb, ih hdigits]

/-- Bytes that stand for a missing address. -/
def IsPlaceholder (name : Bytes) : Prop :=
  name.length = placeholderLength ∧ ∃ more, name = 95 :: 95 :: more

theorem parseFrom_digits (h : Hex.decode digits = .ok data) (read : Bytecode) (position : Nat) :
    parseFrom read position digits = .ok { read with bytes := read.bytes ++ data } := by
  have hcut := cutPlaceholder_eq_self (Hex.spec_of_decode h).2
  unfold parseFrom
  split
  · rename_i hfound
    rw [hcut] at hfound
    obtain ⟨rfl, -⟩ := Prod.mk.inj hfound
    rw [h]
  · rename_i hfound
    rw [hcut] at hfound
    cases hfound

/-- **One round of reading** takes digits and a name, and goes on behind them. -/
theorem parseFrom_placeholder (hdigits : Hex.decode digits = .ok data) (hname : IsPlaceholder name)
    (read : Bytecode) (position : Nat) (rest : Bytes) :
    parseFrom read position (digits ++ name ++ rest) =
      if startsInsideCharacter rest then .error .splitsCharacter
      else
        let start := read.bytes.length + data.length
        parseFrom
          { bytes := read.bytes ++ data ++ List.replicate 20 0
            placeholders := read.placeholders ++ [⟨start, start + 20⟩] }
          (position + digits.length + placeholderLength) rest := by
  obtain ⟨heven, hsolid⟩ := Hex.spec_of_decode hdigits
  obtain ⟨hlength, more, rfl⟩ := hname
  have hcut : cutPlaceholder (digits ++ 95 :: 95 :: more ++ rest) =
      (digits, 95 :: 95 :: (more ++ rest)) := by
    rw [List.append_assoc]
    exact cutPlaceholder_append hsolid _
  have hdrop : (95 :: 95 :: (more ++ rest)).drop placeholderLength = rest := by
    have hall : 95 :: 95 :: (more ++ rest) = (95 :: 95 :: more) ++ rest := rfl
    rw [hall, ← hlength, List.drop_left]
  have hfilled : min placeholderLength (95 :: 95 :: (more ++ rest)).length / 2 = 20 := by
    simp only [placeholderLength, List.length_cons, List.length_append] at hlength ⊢
    omega
  conv_lhs => unfold parseFrom
  split
  · rename_i hfound
    rw [hcut] at hfound
    cases hfound
  · rename_i found first tail hfound
    rw [hcut] at hfound
    obtain ⟨rfl, htail⟩ := Prod.mk.inj hfound
    rw [if_neg (by omega), hdigits, ← htail]
    simp only [hdrop, hfilled]

/-- No text starts inside a character. -/
theorem startsInsideCharacter_encode (cs : List Char) :
    startsInsideCharacter (Text.encode cs) = false := by
  cases cs with
  | nil => rfl
  | cons c cs =>
    have hfirst : ∃ b rest, String.utf8EncodeChar c = b :: rest ∧
        (b.toNat < 0x80 ∨ 0xC0 ≤ b.toNat) := by
      have hmod : ∀ n, (UInt8.ofNat n).toNat = n % 256 := fun n => UInt8.toNat_ofNat'
      unfold String.utf8EncodeChar
      -- one case for each number of bytes
      dsimp only
      split
      · exact ⟨_, _, rfl, .inl (by rw [hmod]; omega)⟩
      split
      · exact ⟨_, _, rfl, .inr (by rw [hmod]; omega)⟩
      split
      · exact ⟨_, _, rfl, .inr (by rw [hmod]; omega)⟩
      · exact ⟨_, _, rfl, .inr (by rw [hmod]; omega)⟩
    obtain ⟨b, rest, hc, hb⟩ := hfirst
    rw [Text.encode_cons, hc, List.cons_append, startsInsideCharacter]
    simp only [Bool.and_eq_false_iff, decide_eq_false_iff_not]
    omega

/-! ## Segments -/

/-- What a missing address is called: 40 characters of ASCII without blanks, underscores first. -/
structure IsName (name : List Char) : Prop where
  length_eq : name.length = placeholderLength
  start : ∃ more, name = '_' :: '_' :: more
  ascii : ∀ c ∈ name, c.toNat < 0x80
  solid : ∀ c ∈ name, Text.isBlank c = false

theorem isName_of_all {more : List Char} (hlength : more.length = 38)
    (hall : more.all (fun c => c.toNat < 0x80 && !Text.isBlank c) = true) :
    IsName ('_' :: '_' :: more) := by
  have hmore : ∀ c ∈ more, c.toNat < 0x80 ∧ Text.isBlank c = false := by
    simpa using hall
  refine ⟨by rw [List.length_cons, List.length_cons, hlength]; rfl, ⟨more, rfl⟩, ?_, ?_⟩
  · intro c hc
    simp only [List.mem_cons] at hc
    rcases hc with rfl | rfl | hc
    · decide
    · decide
    · exact (hmore c hc).1
  · intro c hc
    simp only [List.mem_cons] at hc
    rcases hc with rfl | rfl | hc
    · decide
    · decide
    · exact (hmore c hc).2

theorem IsName.isPlaceholder {name : List Char} (h : IsName name) :
    IsPlaceholder (Text.encode name) := by
  obtain ⟨more, hmore⟩ := h.start
  have hencode := Text.encode_ascii h.ascii
  refine ⟨?_, more.map fun c => UInt8.ofNat c.toNat, ?_⟩
  · rw [hencode, List.length_map, h.length_eq]
  · rw [hencode, hmore]
    rfl

/-- A segment of compiled code as it is written. -/
inductive Segment where
  /-- Bytes, two digits for each. -/
  | data (bytes : Bytes) (digits : List Char) (spells : Hex.Spells digits bytes)
  /-- A missing address. -/
  | address (name : List Char) (isName : IsName name)

namespace Segment

/-- A segment in the text. -/
def written : Segment → List Char
  | .data _ digits _ => digits
  | .address name _ => name

/-- A segment in the code, where missing addresses are zero. -/
def value : Segment → Bytes
  | .data bytes _ _ => bytes
  | .address _ _ => List.replicate 20 0

/-- The places of the missing addresses, if the first segment starts at `offset`. -/
def missing (offset : Nat) : List Segment → List ByteRange
  | [] => []
  | .data bytes _ _ :: rest => missing (offset + bytes.length) rest
  | .address _ _ :: rest => ⟨offset, offset + 20⟩ :: missing (offset + 20) rest

theorem solid_written (s : Segment) : ∀ c ∈ s.written, Text.isBlank c = false := by
  cases s with
  | data bytes digits spells => exact spells.forall_mem fun _ hn _ hc => (hc.spec hn).2.1
  | address name isName => exact isName.solid

end Segment

/-- Reading goes on segment by segment, behind digits that are not decoded yet. -/
theorem parseFrom_segments (segments : List Segment) {pending : List Char} {data : Bytes}
    (hpending : Hex.Spells pending data) (read : Bytecode) (position : Nat) :
    parseFrom read position (Text.encode (pending ++ segments.flatMap Segment.written)) =
      .ok { bytes := read.bytes ++ data ++ segments.flatMap Segment.value
            placeholders := read.placeholders ++
              Segment.missing (read.bytes.length + data.length) segments } := by
  induction segments generalizing pending data read position with
  | nil =>
    rw [List.flatMap_nil, List.append_nil, parseFrom_digits (Hex.decode_encode hpending)]
    simp [Segment.missing]
  | cons s rest ih =>
    cases s with
    | data bytes digits spells =>
      -- digits of two segments in a row are decoded together
      have hrest := ih (hpending.append spells) read position
      simp only [List.flatMap_cons, Segment.written, Segment.value, Segment.missing]
      rw [← List.append_assoc, hrest, List.length_append]
      simp only [List.append_assoc, Nat.add_assoc]
    | address name isName =>
      have hround := parseFrom_placeholder (Hex.decode_encode hpending) isName.isPlaceholder
        read position (Text.encode (rest.flatMap Segment.written))
      rw [startsInsideCharacter_encode] at hround
      simp only [List.flatMap_cons, Segment.written, Segment.value, Segment.missing]
      rw [← List.append_assoc, Text.encode_append, Text.encode_append, hround]
      have hrest := fun read position => ih .nil read position
      simp only [List.nil_append] at hrest
      rw [if_neg (by decide), hrest]
      simp [Nat.add_assoc]

/-! ## Whole texts -/

theorem dropIntroducers_replicate (count : Nat) (cs : List Char) :
    dropIntroducers ((List.replicate count ['0', 'x']).flatten ++ cs) = dropIntroducers cs := by
  induction count with
  | zero => rfl
  | succ n ih =>
    rw [List.replicate_succ, List.flatten_cons, ← ih]
    rfl

/-- No digit is an `x`, so segments do not start with `0x`. -/
theorem dropIntroducers_segments (segments : List Segment) :
    dropIntroducers (segments.flatMap Segment.written) = segments.flatMap Segment.written := by
  refine dropIntroducers.eq_2 _ ?_
  induction segments with
  | nil => simp
  | cons s rest ih =>
    intro more
    cases s with
    | data bytes digits spells =>
      cases spells with
      | nil => exact ih more
      | @cons b high low text data hhigh hlow hdigits =>
        obtain ⟨-, -, hx, -⟩ := hlow.spec (Nat.mod_lt _ (by decide))
        simp [Segment.written, hx]
    | address name isName =>
      obtain ⟨tail, rfl⟩ := isName.start
      simp [Segment.written]

/--
**Code is read back segment by segment.** Bytes are those that the digits spell, and twenty zeros
for each missing address, whose places are kept in order. Segments may follow each other in any way:
names may hold underscores and end with them, and may come first, last or one after the other.
Blanks around the code do not count, and neither does `0x` in front.
-/
theorem parse_segments (segments : List Segment) (introducers : Nat) {before after : List Char}
    (hbefore : ∀ c ∈ before, Text.isBlank c = true) (hafter : ∀ c ∈ after, Text.isBlank c = true) :
    parse (String.ofList (before ++ ((List.replicate introducers ['0', 'x']).flatten ++
      segments.flatMap Segment.written) ++ after)) =
        .ok { bytes := segments.flatMap Segment.value
              placeholders := Segment.missing 0 segments } := by
  have hsolid : ∀ c ∈ (List.replicate introducers ['0', 'x']).flatten ++
      segments.flatMap Segment.written, Text.isBlank c = false := by
    intro c hc
    rcases List.mem_append.1 hc with hc | hc
    · obtain ⟨introducer, hmem, hc⟩ := List.mem_flatten.1 hc
      obtain rfl := List.eq_of_mem_replicate hmem
      rcases List.mem_cons.1 hc with rfl | hc
      · decide
      · obtain rfl := List.mem_singleton.1 hc
        decide
    · obtain ⟨s, -, hc⟩ := List.mem_flatMap.1 hc
      exact s.solid_written c hc
  have hparse := parseFrom_segments segments .nil {} 0
  rw [List.nil_append] at hparse
  rw [parse, String.toList_ofList, Text.trim_between hbefore hsolid hafter,
    dropIntroducers_replicate, dropIntroducers_segments, hparse]
  simp

/-- Two names with nothing between, the first of which ends with underscores. -/
theorem parse_segments_adjacent :
    (∀ c ∈ [' '], Text.isBlank c = true) ∧ (∀ c ∈ ['\n'], Text.isBlank c = true) ∧
      parse (" 0x6080__aaaaaaaaaaaaaaaaaaaaaaaaaaaaaaaaaaaa__" ++
        "__L_____________________________________fF\n") =
          .ok { bytes := [0x60, 0x80] ++ List.replicate 40 0 ++ [0xFF]
                placeholders := [⟨2, 22⟩, ⟨22, 42⟩] } := by
  have hbefore : ∀ c ∈ [' '], Text.isBlank c = true := by
    intro c hc
    obtain rfl := List.mem_singleton.1 hc
    decide
  have hafter : ∀ c ∈ ['\n'], Text.isBlank c = true := by
    intro c hc
    obtain rfl := List.mem_singleton.1 hc
    decide
  have hstart : Hex.Spells ['6', '0', '8', '0'] [0x60, 0x80] :=
    .cons (.inl rfl) (.inl rfl) (.cons (.inl rfl) (.inl rfl) .nil)
  have hend : Hex.Spells ['f', 'F'] [0xFF] := .cons (.inl rfl) (.inr rfl) .nil
  have hfirst : IsName ('_' :: '_' :: (List.replicate 36 'a' ++ ['_', '_'])) :=
    isName_of_all (by decide) (by decide)
  have hsecond : IsName ('_' :: '_' :: 'L' :: List.replicate 37 '_') :=
    isName_of_all (by decide) (by decide)
  have hparse := parse_segments
    [.data _ _ hstart, .address _ hfirst, .address _ hsecond, .data _ _ hend] 1 hbefore hafter
  exact ⟨hbefore, hafter, hparse⟩

end Bytecode

end Solscope
