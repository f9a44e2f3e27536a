import Solscope.Proofs.Artifacts
import Solscope.Proofs.Bytecode.Segments

/-!
# When code can be loaded

Reading takes 40 bytes for the name of a missing address, or what is left of the text if that is
less. In a text beyond ASCII the 40 bytes may end inside a character. Then there is neither code nor
anything that is wrong with it. Every other text is answered.

* `Bytecode.CutsCharacter`: a name of the text ends inside a character.
* `Bytecode.parseFrom_eq_splitsCharacter_iff`: this is the only way in which there is no answer.
* `Artifacts.readContract_eq_error_iff`: a contract fails with the first of its codes that does.
* `Artifacts.codes_answered`: **codes and the output that holds them are answered, unless a
  character is cut.**
-/

namespace Solscope

namespace Bytecode

variable {bytes rest : Bytes}

/-! ## Cut characters -/

/-- The text is cut without loss, and at two underscores if anywhere. -/
theorem cutPlaceholder_spec (bytes : Bytes) :
    (cutPlaceholder bytes).1 ++ (cutPlaceholder bytes).2 = bytes ∧
      ((cutPlaceholder bytes).2 ≠ [] → ∃ more, (cutPlaceholder bytes).2 = 95 :: 95 :: more) := by
  fun_induction cutPlaceholder bytes with
  | case1 rest => exact ⟨rfl, fun _ => ⟨rest, rfl⟩⟩
  | case2 b rest _ ih => exact ⟨congrArg (b :: ·) ih.1, ih.2⟩
  | case3 => exact ⟨rfl, fun h => absurd rfl h⟩

/-- Behind some digits and names, a name ends inside a character. -/
inductive CutsCharacter : Bytes → Prop
  /-- The first name does. -/
  | here {digits data name rest : Bytes} (hdigits : Hex.decode digits = .ok data)
      (hname : IsPlaceholder name) (hrest : startsInsideCharacter rest = true) :
      CutsCharacter (digits ++ name ++ rest)
  /-- A later one does. -/
  | behind {digits data name rest : Bytes} (hdigits : Hex.decode digits = .ok data)
      (hname : IsPlaceholder name) (hrest : CutsCharacter rest) :
      CutsCharacter (digits ++ name ++ rest)

/-- A character that can be cut is not one of ASCII. -/
theorem CutsCharacter.exists_byte (h : CutsCharacter bytes) : ∃ b ∈ bytes, 0x80 ≤ b.toNat := by
  induction h with
  | @here digits data name rest _ _ hrest =>
    cases rest with
    | nil => cases hrest
    | cons b rest =>
      have hb : 0x80 ≤ b.toNat ∧ b.toNat < 0xC0 := by simpa [startsInsideCharacter] using hrest
      exact ⟨b, by simp, hb.1⟩
  | behind _ _ _ ih =>
    obtain ⟨b, hmem, hb⟩ := ih
    exact ⟨b, List.mem_append_right _ hmem, hb⟩

/-- A whole name is taken, unless nothing is left behind it. -/
theorem isPlaceholder_take (h : bytes.drop placeholderLength ≠ [])
    (hstart : ∃ more, bytes = 95 :: 95 :: more) : IsPlaceholder (bytes.take placeholderLength) := by
  obtain ⟨more, rfl⟩ := hstart
  have hlong : placeholderLength < (95 :: 95 :: more).length := by
    by_contra hshort
    exact h (List.drop_eq_nil_of_le (by omega))
  refine ⟨?_, more.take 38, rfl⟩
  rw [List.length_take]
  omega

/-- **There is no answer just if a character is cut.** -/
theorem parseFrom_eq_splitsCharacter_iff (read : Bytecode) (position : Nat) (bytes : Bytes) :
    parseFrom read position bytes = .error .splitsCharacter ↔ CutsCharacter bytes := by
  constructor
  · intro h
    fun_induction parseFrom read position bytes with
    | case1 => cases h
    | case2 => cases h
    | case3 => cases h
    | case4 => cases h
    | case5 read position bytes digits first more hcut heven data hdigits rest hrest =>
      obtain ⟨happend, hstart⟩ := cutPlaceholder_spec bytes
      rw [hcut] at happend hstart
      have hne : rest ≠ [] := by
        intro hnil
        rw [hnil] at hrest
        cases hrest
      rw [← happend, ← List.take_append_drop placeholderLength (first :: more), ← List.append_assoc]
      exact .here hdigits (isPlaceholder_take hne (hstart (by simp))) hrest
    | case6 read position bytes digits first more hcut heven data hdigits rest hrest start filled
        ih =>
      have hcuts := ih h
      obtain ⟨happend, hstart⟩ := cutPlaceholder_spec bytes
      rw [hcut] at happend hstart
      have hne : rest ≠ [] := by
        obtain ⟨b, hb, -⟩ := hcuts.exists_byte
        exact List.ne_nil_of_mem hb
      rw [← happend, ← List.take_append_drop placeholderLength (first :: more), ← List.append_assoc]
      exact .behind hdigits (isPlaceholder_take hne (hstart (by simp))) hcuts
  · intro h
    induction h generalizing read position with
    | here hdigits hname hrest => rw [parseFrom_placeholder hdigits hname, if_pos hrest]
    | @behind digits data name rest hdigits hname _ ih =>
      rw [parseFrom_placeholder hdigits hname]
      by_cases hrest : startsInsideCharacter rest = true
      · rw [if_pos hrest]
      · rw [if_neg hrest, ih]

/-- The bytes of a text that are read as code. -/
def body (code : String) : Bytes := Text.encode (dropIntroducers (Text.trim code.toList))

theorem dropIntroducers_subset (cs : List Char) : dropIntroducers cs ⊆ cs := by
  fun_induction dropIntroducers cs with
  | case1 rest ih => exact fun c hc => List.mem_cons_of_mem _ (List.mem_cons_of_mem _ (ih hc))
  | case2 => exact List.Subset.refl _

/-- No character of ASCII is cut. -/
theorem not_cutsCharacter_body {code : String} (h : ∀ c ∈ code.toList, c.toNat < 0x80) :
    ¬ CutsCharacter (body code) := by
  have hbody : ∀ c ∈ dropIntroducers (Text.trim code.toList), c.toNat < 0x80 := by
    intro c hc
    exact h c (Text.trim_subset _ (dropIntroducers_subset _ hc))
  intro hcuts
  obtain ⟨b, hb, hlarge⟩ := hcuts.exists_byte
  rw [body, Text.encode_ascii hbody] at hb
  obtain ⟨c, hc, rfl⟩ := List.mem_map.1 hb
  have hsmall := hbody c hc
  rw [UInt8.toNat_ofNat'] at hlarge
  omega

end Bytecode

namespace Artifacts

variable {key : String} {c : Combined.Contract} {output : Combined} {a : Artifacts} {e : Error}

/-! ## Loading -/

/-- The codes of a contract, each with the contract's key. -/
def codesOf (entry : String × Combined.Contract) : List (String × String) :=
  [(entry.1, entry.2.creation), (entry.1, entry.2.runtime)]

/-- The codes of all contracts in the order in which they are read. -/
def codes (output : Combined) : List (String × String) := output.contracts.flatMap codesOf

/-- A contract fails with the first of its codes that does. -/
theorem readContract_eq_error_iff (entry : String × Combined.Contract) :
    readContract entry.1 entry.2 = .error e ↔
      FirstFailure (fun code => readCode code.1 code.2) (codesOf entry) e := by
  rw [← mapM_eq_error_iff, readContract, codesOf]
  cases hcreation : readCode entry.1 entry.2.creation with
  | error e' => simp [hcreation, bind, Except.bind]
  | ok creation =>
    cases hruntime : readCode entry.1 entry.2.runtime with
    | error e' => simp [hcreation, hruntime, bind, Except.bind]
    | ok runtime => simp [hcreation, hruntime, bind, Except.bind, pure, Except.pure]

theorem readContracts_eq_error_iff : readContracts output = .error e ↔
      FirstFailure (fun code => readCode code.1 code.2) (codes output) e :=
  mapM_eq_error_iff.trans (firstFailure_flatMap_iff fun entry _ => readContract_eq_error_iff entry)

theorem readCode_eq_error_iff {key code : String} :
    readCode key code = .error e ↔
      ∃ reason, Bytecode.parse code = .error reason ∧ e = .bytecode key reason := by
  rw [readCode]
  cases Bytecode.parse code with
  | ok bytecode => simp
  | error reason => simp [eq_comm]

/-- Only a split character has no wording. -/
theorem message?_eq_none_iff {key : String} {reason : Bytecode.Error} :
    (Error.bytecode key reason).message? = none ↔ reason = .splitsCharacter := by
  cases reason <;> simp [Error.message?, Bytecode.Error.message?]

/--
**Codes and the output that holds them are answered, unless a character is cut.** A text is answered
with code or with what is wrong with it, just if none of its names ends inside a character, which no
text of ASCII comes to. Output whose sources can be read is answered with the artifacts if all of
its codes can be read, and otherwise with what is wrong with the first one that cannot, and the key
of its contract. So there is no answer just if a character is cut in that first one.
-/
theorem codes_answered {library : Json.Library} {text : String}
    {load : String → Except Error String}
    (houtput : Combined.parse? library.ofText text = some output)
    (hsources : readSources library.ofValue load output.trees 0 {} output.sourceList = .ok a) :
    (∀ code : String,
      (Bytecode.parse code = .error .splitsCharacter ↔
        Bytecode.CutsCharacter (Bytecode.body code)) ∧
      ((∀ c ∈ code.toList, c.toNat < 0x80) → ¬ Bytecode.CutsCharacter (Bytecode.body code))) ∧
    ((∀ code ∈ codes output, ∃ bytecode, Bytecode.parse code.2 = .ok bytecode) →
      ∃ contracts, read library text load = .ok { a with contracts }) ∧
    ∀ before key code after reason, codes output = before ++ (key, code) :: after →
      (∀ other ∈ before, ∃ bytecode, Bytecode.parse other.2 = .ok bytecode) →
      Bytecode.parse code = .error reason →
        read library text load = .error (.bytecode key reason) ∧
          ((Error.bytecode key reason).message? = none ↔
            Bytecode.CutsCharacter (Bytecode.body code)) := by
  have hread : read library text load = (readContracts output).map fun contracts =>
      { a with contracts } := by
    rw [read_eq houtput, hsources]
    rfl
  have hcode : ∀ code : String × String, (∃ bytecode, Bytecode.parse code.2 = .ok bytecode) →
      ∃ bytecode, readCode code.1 code.2 = .ok bytecode := by
    rintro code ⟨bytecode, hparse⟩
    exact ⟨bytecode, by rw [readCode, hparse]⟩
  have hcuts (code : String) : Bytecode.parse code = .error .splitsCharacter ↔
      Bytecode.CutsCharacter (Bytecode.body code) :=
    Bytecode.parseFrom_eq_splitsCharacter_iff {} 0 (Bytecode.body code)
  refine ⟨fun code => ⟨hcuts code, Bytecode.not_cutsCharacter_body⟩, fun hall => ?_, ?_⟩
  · have hnone := forall_ok_iff.1 fun code hmem => hcode code (hall code hmem)
    cases hcontracts : readContracts output with
    | error e => exact absurd (readContracts_eq_error_iff.1 hcontracts) (hnone e)
    | ok contracts => exact ⟨contracts, by rw [hread, hcontracts]; rfl⟩
  · intro before key code after reason hcodes hbefore hreason
    have hfirst : FirstFailure (fun code => readCode code.1 code.2) (codes output)
        (.bytecode key reason) :=
      ⟨before, (key, code), after, hcodes, fun other hmem => hcode other (hbefore other hmem),
        readCode_eq_error_iff.2 ⟨reason, hreason, rfl⟩⟩
    rw [hread, readContracts_eq_error_iff.2 hfirst, ← hcuts, hreason, Except.error.injEq]
    exact ⟨rfl, message?_eq_none_iff⟩

/-- The 40 bytes from the underscores on end inside the last character. -/
theorem codes_answered_accent :
    let library : Json.Library := ⟨fun j => some j.collapse, fun j => some j.collapse⟩
    let text := "\x7b\"contracts\":\x7b\"A\":\x7b\"bin\":\"6001\",\"bin-runtime\":" ++
      "\"__aaaaaaaaaaaaaaaaaaaaaaaaaaaaaaaaaaaaaé\"\x7d\x7d\x7d"
    let load : String → Except Error String := fun path => .error (.missingSource path)
    ∃ output : Combined, Combined.parse? library.ofText text = some output ∧
      readSources library.ofValue load output.trees 0 {} output.sourceList = .ok {} ∧
      Bytecode.CutsCharacter (Bytecode.body "__aaaaaaaaaaaaaaaaaaaaaaaaaaaaaaaaaaaaaé") ∧
      read library text load = .error (.bytecode "A" .splitsCharacter) := by
  intro library text load
  have heval : (Combined.parse? library.ofText text).any (fun output =>
      codes output = [("A", "6001"), ("A", "__aaaaaaaaaaaaaaaaaaaaaaaaaaaaaaaaaaaaaé")] ∧
        output.sourceList = []) = true := by
    rw [Combined.parse?, Json.parseWanted?, String.toList_append]
    decide +kernel
  obtain ⟨output, houtput, hfacts⟩ := (Option.any_eq_true _ _).1 heval
  obtain ⟨hcodes, hlist⟩ := of_decide_eq_true hfacts
  have hsources :
      readSources library.ofValue load output.trees 0 {} output.sourceList = .ok {} := by
    rw [hlist]
    rfl
  have hcreation : Bytecode.parse "6001" = .ok { bytes := [0x60, 0x01] } := by decide +kernel
  have hruntime : Bytecode.parse "__aaaaaaaaaaaaaaaaaaaaaaaaaaaaaaaaaaaaaé" =
      .error .splitsCharacter := by decide +kernel
  obtain ⟨hparse, -, hfirst⟩ := codes_answered houtput hsources
  refine ⟨output, houtput, hsources, (hparse _).1.1 hruntime, ?_⟩
  refine (hfirst [("A", "6001")] "A" _ [] .splitsCharacter hcodes ?_ hruntime).1
  intro other hmem
  obtain rfl := List.mem_singleton.1 hmem
  exact ⟨_, hcreation⟩

end Artifacts

end Solscope
