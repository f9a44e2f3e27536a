import Solscope.SourceMap

/-!
# Source maps and the instructions of code

A source map has one entry for every instruction. Its offsets are those of the instructions that
the code is taken apart into from its first byte on; entries that are left past the end of the code
count on by one.

* `Disassembly`: the instructions of a piece of code.
* `SourceMap.pc_of_decodeFrom`: an entry has the offset of its instruction.
* `SourceMap.decode_pcs`: **one mapping per entry, at the starts of the instructions, and no mapping
  anywhere else.**
-/

namespace Solscope

/-! ## Instructions -/

/-- An opcode with the bytes that belong to it. -/
structure Instruction where
  opcode : UInt8
  operand : Bytes

/-- The bytes of an instruction. -/
def Instruction.size (i : Instruction) : Nat := 1 + i.operand.length

/--
The instructions of code, in order. `PUSH1` to `PUSH32` are followed by 1 to 32 operand bytes, of
which the end of the code may cut some off; every other byte is an instruction of its own.
-/
inductive Disassembly : Bytes → List Instruction → Prop
  | nil : Disassembly [] []
  | plain {op : UInt8} {code : Bytes} {rest : List Instruction} :
      (∀ n, 1 ≤ n → n ≤ 32 → op.toNat ≠ 0x5F + n) → Disassembly code rest →
      Disassembly (op :: code) (⟨op, []⟩ :: rest)
  | push {op : UInt8} {operand code : Bytes} {rest : List Instruction} :
      1 ≤ operand.length → operand.length ≤ 32 → op.toNat = 0x5F + operand.length →
      Disassembly code rest → Disassembly (op :: (operand ++ code)) (⟨op, operand⟩ :: rest)
  | truncated {op : UInt8} {operand : Bytes} {n : Nat} :
      n ≤ 32 → op.toNat = 0x5F + n → operand.length < n →
      Disassembly (op :: operand) [⟨op, operand⟩]

namespace Disassembly

variable {op : UInt8} {code : Bytes} {instructions : List Instruction}

/-- The offset of an instruction by its number. -/
def offset : (instructions : List Instruction) → (i : Nat) → Nat
  | first :: rest, i + 1 => first.size + offset rest i
  | _, _ => 0

@[simp] theorem offset_zero (instructions : List Instruction) : offset instructions 0 = 0 := by
  cases instructions <;> rfl

theorem offset_cons_succ (first : Instruction) (rest : List Instruction) (i : Nat) :
    offset (first :: rest) (i + 1) = first.size + offset rest i := rfl

theorem offset_succ {i : Nat} {instruction : Instruction}
    (h : instructions[i]? = some instruction) :
    offset instructions (i + 1) = offset instructions i + instruction.size := by
  induction instructions generalizing i with
  | nil => cases h
  | cons first rest ih =>
    cases i with
    | zero =>
      obtain rfl := Option.some.inj h
      rw [offset_cons_succ, offset_zero, offset_zero, Nat.add_comm]
    | succ i => rw [offset_cons_succ, offset_cons_succ, ih h, Nat.add_assoc]

theorem offset_mono (instructions : List Instruction) {i j : Nat} (h : i ≤ j) :
    offset instructions i ≤ offset instructions j := by
  induction instructions generalizing i j with
  | nil => cases i <;> exact Nat.le_refl 0
  | cons first rest ih =>
    cases i with
    | zero =>
      rw [offset_zero]
      exact Nat.zero_le _
    | succ i =>
      obtain ⟨j, rfl⟩ : ∃ k, j = k + 1 := ⟨j - 1, by omega⟩
      exact Nat.add_le_add_left (ih (Nat.le_of_succ_le_succ h)) _

/-- All code can be taken apart. -/
theorem exists_of_code (code : Bytes) : ∃ instructions, Disassembly code instructions := by
  -- on the length, since an operand is skipped as a whole
  induction hlength : code.length using Nat.strongRecOn generalizing code with
  | ind length ih =>
    cases code with
    | nil => exact ⟨[], .nil⟩
    | cons op rest =>
      have hlt : rest.length < length := by rw [← hlength]; exact Nat.lt_succ_self _
      by_cases hpush : 0x60 ≤ op.toNat ∧ op.toNat ≤ 0x7F
      · by_cases hwhole : op.toNat - 0x5F ≤ rest.length
        · obtain ⟨others, hothers⟩ := ih (rest.drop (op.toNat - 0x5F)).length
            (by rw [List.length_drop]; omega) _ rfl
          have htake : (rest.take (op.toNat - 0x5F)).length = op.toNat - 0x5F := by
            rw [List.length_take]; omega
          refine ⟨⟨op, rest.take (op.toNat - 0x5F)⟩ :: others, ?_⟩
          have hcode : op :: rest =
              op :: (rest.take (op.toNat - 0x5F) ++ rest.drop (op.toNat - 0x5F)) := by
            rw [List.take_append_drop]
          rw [hcode]
          exact .push (by omega) (by omega) (by omega) hothers
        · exact ⟨[⟨op, rest⟩], .truncated (n := op.toNat - 0x5F) (by omega) (by omega) (by omega)⟩
      · obtain ⟨others, hothers⟩ := ih rest.length hlt rest rfl
        exact ⟨⟨op, []⟩ :: others, .plain (fun n h1 h32 => by omega) hothers⟩

/-- Instructions make up the code. -/
theorem length_eq (h : Disassembly code instructions) :
    code.length = offset instructions instructions.length := by
  induction h with
  | nil => rfl
  | plain _ _ ih =>
    rw [List.length_cons, List.length_cons, ih, offset_cons_succ]
    simp [Instruction.size]
    omega
  | push _ _ _ _ ih =>
    rw [List.length_cons, List.length_append, List.length_cons, ih, offset_cons_succ]
    simp [Instruction.size]
    omega
  | truncated _ _ _ =>
    simp [offset, Instruction.size]
    omega

/--
The first instruction reaches to the next one; only that at the end of the code may need more bytes
than there are.
-/
theorem first (h : Disassembly (op :: code) instructions) :
    ∃ instruction rest, instructions = instruction :: rest ∧
      Disassembly ((op :: code).drop (Opcode.stride op)) rest ∧
      (rest = [] ∨ instruction.size = Opcode.stride op) := by
  cases h with
  | plain hop hrest =>
    have hstride : Opcode.stride op = 1 := by
      have := hop (op.toNat - 0x5F)
      unfold Opcode.stride Opcode.operandLength
      rw [if_neg (by omega)]
    rw [hstride]
    exact ⟨_, _, rfl, hrest, .inr rfl⟩
  | @push _ operand rest _ h1 h32 hop hrest =>
    have hstride : Opcode.stride op = operand.length + 1 := by
      unfold Opcode.stride Opcode.operandLength
      rw [if_pos (by omega)]
      omega
    refine ⟨_, _, rfl, ?_, .inr (by rw [hstride]; exact Nat.add_comm ..)⟩
    rw [hstride, List.drop_succ_cons, List.drop_left]
    exact hrest
  | @truncated _ _ n h32 hop hshort =>
    have hstride : Opcode.stride op = n + 1 := by
      unfold Opcode.stride Opcode.operandLength
      rw [if_pos (by omega)]
      omega
    refine ⟨_, _, rfl, ?_, .inl rfl⟩
    rw [hstride, List.drop_succ_cons, List.drop_eq_nil_of_le (by omega)]
    exact .nil

end Disassembly

/-! ## Offsets of entries -/

namespace SourceMap

variable {sources : Sources} {index pc : Nat} {code : Bytes} {previous : Entry}
  {texts : List (List Char)} {map : SourceMap}

/-- The distance from an entry to the next one, the code of the first one being `code`. -/
def strideOf : Bytes → Nat
  | [] => 1
  | op :: _ => Opcode.stride op

theorem strideOf_pos (code : Bytes) : 0 < strideOf code := by
  unfold strideOf Opcode.stride
  split <;> omega

/-- What reading an entry and those after it gives. -/
theorem decodeFrom_cons_eq_ok {text : List Char}
    (h : decodeFrom sources index pc code previous (text :: texts) = .ok map) :
    ∃ entry : Entry, ∃ rest,
      decodeFrom sources (index + 1) (pc + strideOf code) (code.drop (strideOf code)) entry texts =
        .ok rest ∧
      map = ⟨pc, entry.span? sources, entry.jump⟩ :: rest := by
  change (Entry.read index previous text).bind (fun entry =>
    (decodeFrom sources (index + 1) (pc + strideOf code) (code.drop (strideOf code)) entry
      texts).bind fun rest => .ok (⟨pc, entry.span? sources, entry.jump⟩ :: rest)) = .ok map at h
  cases hread : Entry.read index previous text with
  | error e => rw [hread] at h; cases h
  | ok entry =>
    rw [hread] at h
    cases hrest : decodeFrom sources (index + 1) (pc + strideOf code) (code.drop (strideOf code))
        entry texts with
    | error e => simp only [Except.bind, hrest] at h; cases h
    | ok rest =>
      simp only [Except.bind, hrest] at h
      exact ⟨entry, rest, hrest, (Except.ok.inj h).symm⟩

theorem length_decodeFrom (h : decodeFrom sources index pc code previous texts = .ok map) :
    map.length = texts.length := by
  induction texts generalizing index pc code previous map with
  | nil => obtain rfl := Except.ok.inj h; rfl
  | cons text texts ih =>
    obtain ⟨entry, rest, hrest, rfl⟩ := decodeFrom_cons_eq_ok h
    rw [List.length_cons, List.length_cons, ih hrest]

theorem le_pc_of_decodeFrom (h : decodeFrom sources index pc code previous texts = .ok map) :
    ∀ m ∈ map, pc ≤ m.pc := by
  induction texts generalizing index pc code previous map with
  | nil => obtain rfl := Except.ok.inj h; intro m hm; cases hm
  | cons text texts ih =>
    obtain ⟨entry, rest, hrest, rfl⟩ := decodeFrom_cons_eq_ok h
    intro m hm
    rcases List.mem_cons.1 hm with rfl | hm
    · exact Nat.le_refl _
    · have := ih hrest m hm
      omega

theorem pairwise_decodeFrom (h : decodeFrom sources index pc code previous texts = .ok map) :
    map.Pairwise fun m m' => m.pc < m'.pc := by
  induction texts generalizing index pc code previous map with
  | nil => obtain rfl := Except.ok.inj h; exact .nil
  | cons text texts ih =>
    obtain ⟨entry, rest, hrest, rfl⟩ := decodeFrom_cons_eq_ok h
    refine List.pairwise_cons.2 ⟨fun m hm => ?_, ih hrest⟩
    have hle := le_pc_of_decodeFrom hrest m hm
    have hpos := strideOf_pos code
    show pc < m.pc
    omega

/-- The first entry has the offset from which on the code is read. -/
theorem pc_of_head (h : decodeFrom sources index pc code previous texts = .ok map) {m : Mapping}
    (hm : map[0]? = some m) : m.pc = pc := by
  cases texts with
  | nil => obtain rfl := Except.ok.inj h; cases hm
  | cons text texts =>
    obtain ⟨entry, rest, -, rfl⟩ := decodeFrom_cons_eq_ok h
    obtain rfl := Option.some.inj hm
    rfl

/-- **An entry has the offset of its instruction.** -/
theorem pc_of_decodeFrom {instructions : List Instruction}
    (h : decodeFrom sources index pc code previous texts = .ok map)
    (hcode : Disassembly code instructions) {i : Nat} {m : Mapping} (hm : map[i]? = some m)
    (hi : i < instructions.length) : m.pc = pc + Disassembly.offset instructions i := by
  induction texts generalizing index pc code previous map instructions i with
  | nil => obtain rfl := Except.ok.inj h; cases hm
  | cons text texts ih =>
    cases i with
    | zero =>
      rw [Disassembly.offset_zero]
      exact pc_of_head h hm
    | succ i =>
      obtain ⟨entry, rest, hrest, rfl⟩ := decodeFrom_cons_eq_ok h
      cases code with
      | nil => cases hcode; cases hi
      | cons op code =>
        obtain ⟨first, others, rfl, hothers, hsize⟩ := hcode.first
        have hi' : i < others.length := Nat.lt_of_succ_lt_succ hi
        -- there is a next instruction, so the first one is complete
        have hwhole : first.size = Opcode.stride op := by
          rcases hsize with rfl | hsize
          · cases hi'
          · exact hsize
        rw [ih hrest hothers hm hi', Disassembly.offset_cons_succ, hwhole]
        show pc + Opcode.stride op + _ = _
        omega

/-- Entries for which no instruction is left lie past the end of the code and count on by one. -/
theorem pc_past_of_decodeFrom {instructions : List Instruction}
    (h : decodeFrom sources index pc code previous texts = .ok map)
    (hcode : Disassembly code instructions) {i : Nat} {m : Mapping} (hm : map[i]? = some m)
    (hi : instructions.length ≤ i) :
    pc + code.length ≤ m.pc ∧ ∀ m', map[i + 1]? = some m' → m'.pc = m.pc + 1 := by
  induction texts generalizing index pc code previous map instructions i with
  | nil => obtain rfl := Except.ok.inj h; cases hm
  | cons text texts ih =>
    obtain ⟨entry, rest, hrest, rfl⟩ := decodeFrom_cons_eq_ok h
    cases code with
    | nil =>
      cases hcode
      cases i with
      | zero =>
        obtain rfl := Option.some.inj hm
        exact ⟨Nat.le_refl _, fun m' hm' => pc_of_head hrest hm'⟩
      | succ i =>
        obtain ⟨hle, hnext⟩ := ih hrest .nil hm (Nat.zero_le i)
        exact ⟨by simp only [List.length_nil] at hle ⊢; omega, hnext⟩
    | cons op code =>
      obtain ⟨first, others, rfl, hothers, -⟩ := hcode.first
      cases i with
      | zero => cases hi
      | succ i =>
        obtain ⟨hle, hnext⟩ := ih hrest hothers hm (Nat.le_of_succ_le_succ hi)
        refine ⟨?_, hnext⟩
        rw [List.length_drop] at hle
        change pc + Opcode.stride op + ((op :: code).length - Opcode.stride op) ≤ m.pc at hle
        omega

/-! ## Looking up offsets -/

theorem get?_pc_of_mem (h : map.Pairwise fun m m' => m.pc < m'.pc) {m : Mapping} (hm : m ∈ map) :
    map.get? m.pc = some m := by
  induction map with
  | nil => cases hm
  | cons first rest ih =>
    obtain ⟨hfirst, hrest⟩ := List.pairwise_cons.1 h
    unfold get? at ih ⊢
    rcases List.mem_cons.1 hm with rfl | hm
    · simp
    · have hne : ¬ first.pc = m.pc := Nat.ne_of_lt (hfirst m hm)
      rw [List.find?_cons_of_neg (by simpa using hne)]
      exact ih hrest hm

theorem get?_eq_none_iff : map.get? pc = none ↔ ∀ m ∈ map, m.pc ≠ pc := by
  simp [get?]

theorem length_splitOn (c : Char) (cs : List Char) :
    (cs.splitOn c).length = cs.count c + 1 := by
  induction cs with
  | nil => rfl
  | cons d ds ih =>
    rw [List.splitOn_cons_eq_if_modifyHead]
    by_cases hd : d = c
    · simp [hd, ih]
    · simp [hd, ih]

/-- The bytes of an operand are no starts of instructions, and no entry past the end is there. -/
theorem pc_ne_of_operand {instructions : List Instruction}
    (h : decodeFrom sources index 0 code previous texts = .ok map)
    (hcode : Disassembly code instructions) {i : Nat} {instruction : Instruction}
    (hi : instructions[i]? = some instruction) {k : Nat} (hk : 1 ≤ k)
    (hoperand : k ≤ instruction.operand.length) :
    ∀ m ∈ map, m.pc ≠ Disassembly.offset instructions i + k := by
  intro m hm
  obtain ⟨j, hj⟩ := List.getElem?_of_mem hm
  have hnext := Disassembly.offset_succ hi
  unfold Instruction.size at hnext
  have hlength : i < instructions.length := (List.getElem?_eq_some_iff.1 hi).1
  rcases Nat.lt_or_ge j instructions.length with hlt | hge
  · have hpc := pc_of_decodeFrom h hcode hj hlt
    -- an instruction starts no later than this one or no earlier than the next one
    rcases Nat.lt_or_ge i j with hij | hji
    · have := Disassembly.offset_mono instructions (Nat.succ_le_of_lt hij)
      simp only [Nat.succ_eq_add_one] at this
      omega
    · have := Disassembly.offset_mono instructions hji
      omega
  · have hpast := (pc_past_of_decodeFrom h hcode hj hge).1
    have hend := Disassembly.offset_mono instructions (Nat.succ_le_of_lt hlength)
    rw [hcode.length_eq] at hpast
    simp only [Nat.succ_eq_add_one] at hend
    omega

/--
**A source map has one mapping per entry, at the starts of the instructions.** Entries follow the
instructions of the code from its first byte on; those for which no instruction is left lie past the
end, one byte apart. Every mapping is found at its own offset, and nothing is found anywhere else,
in particular not at the bytes of an operand.
-/
theorem decode_pcs {text : String} (h : decode text code sources = .ok map) :
    (text ≠ "" → map.length = text.toList.count ';' + 1) ∧
    (map.Pairwise fun m m' => m.pc < m'.pc) ∧
    (∀ m ∈ map, map.get? m.pc = some m) ∧
    (∀ pc, (∀ m ∈ map, m.pc ≠ pc) → map.get? pc = none) ∧
    (∃ instructions, Disassembly code instructions) ∧
    ∀ instructions, Disassembly code instructions →
      (∀ i m, map[i]? = some m → i < instructions.length →
        m.pc = Disassembly.offset instructions i) ∧
      (∀ i m, map[i]? = some m → instructions.length ≤ i →
        code.length ≤ m.pc ∧ ∀ m', map[i + 1]? = some m' → m'.pc = m.pc + 1) ∧
      ∀ i instruction k, instructions[i]? = some instruction → 1 ≤ k →
        k ≤ instruction.operand.length →
        map.get? (Disassembly.offset instructions i + k) = none := by
  by_cases htext : text = ""
  · subst htext
    obtain rfl : [] = map := Except.ok.inj h
    refine ⟨fun hne => absurd rfl hne, .nil, by simp, fun pc _ => rfl,
      Disassembly.exists_of_code code, fun instructions _ => ⟨?_, ?_, fun _ _ _ _ _ _ => rfl⟩⟩
    · intro i m hm; cases hm
    · intro i m hm; cases hm
  · have hdecode : decodeFrom sources 0 0 code {} (text.toList.splitOn ';') = .ok map := by
      rwa [decode, if_neg (by simpa using htext)] at h
    have hpairwise := pairwise_decodeFrom hdecode
    refine ⟨fun _ => ?_, hpairwise, fun m hm => get?_pc_of_mem hpairwise hm,
      fun pc hpc => get?_eq_none_iff.2 hpc, Disassembly.exists_of_code code,
      fun instructions hcode => ⟨?_, ?_, ?_⟩⟩
    · rw [length_decodeFrom hdecode, length_splitOn]
    · intro i m hm hi
      rw [pc_of_decodeFrom hdecode hcode hm hi, Nat.zero_add]
    · intro i m hm hi
      have hpast := pc_past_of_decodeFrom hdecode hcode hm hi
      rwa [Nat.zero_add] at hpast
    · intro i instruction k hi hk hoperand
      exact get?_eq_none_iff.2 (pc_ne_of_operand hdecode hcode hi hk hoperand)

/--
The operand of the first instruction looks like another push. After the second instruction, which is
cut short, entries count on.
-/
theorem decode_pcs_truncated :
    let code : Bytes := [0x60, 0x61, 0x62, 0x00]
    ∃ map : SourceMap, decode "0:1:0;;;" code {} = .ok map ∧
      Disassembly code [⟨0x60, [0x61]⟩, ⟨0x62, [0x00]⟩] ∧ map.map (·.pc) = [0, 2, 6, 7] ∧
      map.length = 4 ∧ map.get? 1 = none ∧ map.get? 3 = none := by
  intro code
  have hcode : Disassembly code [⟨0x60, [0x61]⟩, ⟨0x62, [0x00]⟩] :=
    @Disassembly.push 0x60 [0x61] _ _ (by decide) (by decide) (by decide)
      (.truncated (n := 3) (by decide) (by decide) (by decide))
  have hoption : (decode "0:1:0;;;" code {}).toOption = some [⟨0, none, .regular⟩,
      ⟨2, none, .regular⟩, ⟨6, none, .regular⟩, ⟨7, none, .regular⟩] := by
    decide +kernel
  have heval : decode "0:1:0;;;" code {} = .ok [⟨0, none, .regular⟩, ⟨2, none, .regular⟩,
      ⟨6, none, .regular⟩, ⟨7, none, .regular⟩] := by
    cases hmap : decode "0:1:0;;;" code {} with
    | error e => rw [hmap] at hoption; cases hoption
    | ok map =>
      rw [hmap] at hoption
      rw [Option.some.inj hoption]
  have hmap := decode_pcs heval
  obtain ⟨hlength, -, -, -, -, hinstructions⟩ := hmap
  have hoperand := (hinstructions _ hcode).2.2
  exact ⟨_, heval, hcode, rfl, hlength (by decide), hoperand 0 _ 1 rfl (by decide) (by decide),
    hoperand 1 _ 1 rfl (by decide) (by decide)⟩

end SourceMap

end Solscope
