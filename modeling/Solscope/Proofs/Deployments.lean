import Solscope.Deployments
import Solscope.Proofs.Bytecode.Matching
import Solscope.Proofs.Results

/-!
# Recognising code

Compilations are added, addresses are linked to contracts by name or by the code they run, and links
are forgotten, in any order.

* `Compilation.exists_of_ofArtifacts`: what a compilation has from its artifacts.
* `Compilation.contractIndex_cases`: how many contracts a name names decides what it means.
* `Deployments.IsFirst`: the contract whose code some code is, the first one of all.
* `Deployments.isSound_run`: every link leads to a contract that exists.
* `Deployments.recognise_first`: **code is recognised if it is that of a contract, as the first
  such contract, and nothing else changes.**
-/

namespace Solscope

namespace Compilation

variable {a : Artifacts} {c : Compilation}

/-- A compilation has the program of its trees and the contracts of its code. -/
theorem exists_of_ofArtifacts (h : ofArtifacts a = .ok c) :
    Program.ofAsts a.sources a.asts = .ok c.program ∧
      a.contracts.mapM (readContract a.sources c.program) = .ok c.contracts := by
  unfold ofArtifacts at h
  cases hprogram : Program.ofAsts a.sources a.asts with
  | error e =>
    rw [hprogram] at h
    cases h
  | ok p =>
    rw [hprogram] at h
    change (a.contracts.mapM (readContract a.sources p)).bind
      (fun contracts => .ok ⟨p, a.sources, contracts⟩) = .ok c at h
    cases hcontracts : a.contracts.mapM (readContract a.sources p) with
    | error e =>
      rw [hcontracts] at h
      cases h
    | ok contracts =>
      rw [hcontracts] at h
      obtain rfl := Except.ok.inj h
      exact ⟨rfl, hcontracts⟩

/-- The definition of a compiled contract is that of a library. -/
def IsLibrary (c : Compilation) (compiled : CompiledContract) : Prop :=
  ∃ id contract, compiled.contract = some id ∧ c.program.contract? id = some contract ∧
    contract.isLibrary = true

/-- Deployed code is what the compiler wrote, but for the address at the start of a library. -/
def IsRuntimeOf (c : Compilation) (compiled : CompiledContract) (code : Bytecode) : Prop :=
  (c.IsLibrary compiled ∧ code.bytes.head? = some pushAddress →
      compiled.runtime = code.mask ⟨1, 21⟩) ∧
    (¬ (c.IsLibrary compiled ∧ code.bytes.head? = some pushAddress) → compiled.runtime = code)

theorem any_isLibrary_iff (p : Program) (id? : Option ContractId) :
    (id?.bind p.contract?).any (·.isLibrary) = true ↔
      ∃ id contract, id? = some id ∧ p.contract? id = some contract ∧
        contract.isLibrary = true := by
  cases id? <;> simp [Option.any_eq_true]

/-- The code of a contract is what the compiler wrote for it. -/
theorem code_of_readContract {compiled : CompiledContract} {code : CompiledCode}
    (h : readContract a.sources c.program code = .ok compiled) :
    compiled.creation = code.creation ∧ c.IsRuntimeOf compiled code.runtime := by
  unfold readContract at h
  cases hcreation : readMap a.sources code.name code.creationMap code.creation with
  | error e =>
    rw [hcreation] at h
    cases h
  | ok creationMap =>
    rw [hcreation] at h
    cases hruntime : readMap a.sources code.name code.runtimeMap code.runtime with
    | error e =>
      rw [hruntime] at h
      cases h
    | ok runtimeMap =>
      rw [hruntime] at h
      obtain rfl := Except.ok.inj h
      have hlibrary := any_isLibrary_iff c.program (contractOf? a.sources c.program code)
      refine ⟨rfl, fun hmasked => if_pos ?_, fun hplain => if_neg ?_⟩
      · exact ⟨hlibrary.2 hmasked.1, hmasked.2⟩
      · exact fun hmasked => hplain ⟨hlibrary.1 hmasked.1, hmasked.2⟩

/-- What a name means depends on how many contracts it names. -/
theorem contractIndex_cases (c : Compilation) (name : String) :
    (c.contracts.countP (names name) = 0 ∧ c.contractIndex name = .error (.unknown name)) ∨
    (c.contracts.countP (names name) = 1 ∧ ∃ index d, c.contractIndex name = .ok index ∧
      c.contracts[index]? = some d ∧ names name d = true) ∨
    (2 ≤ c.contracts.countP (names name) ∧ c.contractIndex name = .error (.ambiguous name)) := by
  unfold contractIndex
  generalize hfound : List.filter _ c.contracts.zipIdx = found
  have hcount : c.contracts.countP (names name) = found.length := by
    rw [← hfound, ← List.countP_eq_length_filter]
    conv_lhs => rw [← List.zipIdx_map_fst 0 c.contracts, List.countP_map]
    rfl
  rw [hcount]
  cases found with
  | nil => exact .inl ⟨rfl, rfl⟩
  | cons first rest =>
    cases rest with
    | nil =>
      obtain ⟨d, index⟩ := first
      have hmem : (d, index) ∈ List.filter _ c.contracts.zipIdx :=
        hfound ▸ List.mem_singleton_self (d, index)
      obtain ⟨hindex, hnames⟩ := List.mem_filter.1 hmem
      exact .inr (.inl ⟨rfl, index, d, rfl, List.mem_zipIdx_iff_getElem?.1 hindex, hnames⟩)
    | cons second rest => exact .inr (.inr ⟨by simp, rfl⟩)

/-- A name that means a contract means one that exists. -/
theorem exists_of_contractIndex {name : String} {i : Nat} (h : c.contractIndex name = .ok i) :
    ∃ compiled, c.contracts[i]? = some compiled := by
  obtain ⟨-, he⟩ | ⟨-, index, d, hindex, hd, -⟩ | ⟨-, he⟩ := c.contractIndex_cases name
  · rw [he] at h
    cases h
  · rw [hindex] at h
    obtain rfl := Except.ok.inj h
    exact ⟨d, hd⟩
  · rw [he] at h
    cases h

end Compilation

/-- Contracts come in the order of their compilations, and then in the order within these. -/
def CodeLink.Before (l l' : CodeLink) : Prop :=
  l.compilation < l'.compilation ∨ l.compilation = l'.compilation ∧ l.contract < l'.contract

namespace Deployments

variable {d : Deployments} {a : Address} {code : Bytes} {creation : Bool} {l : CodeLink}

/-! ## The contract that code is that of -/

/-- The compiled contract that a link names. -/
def contract? (d : Deployments) (l : CodeLink) : Option CompiledContract :=
  d.compilations[l.compilation]?.bind fun c => c.contracts[l.contract]?

/--
Code is that of a contract: arguments may follow the code that creates it, nothing but zeros the
code that is deployed.
-/
def Runs (d : Deployments) (code : Bytes) (creation : Bool) (l : CodeLink) : Prop :=
  ∃ c, d.contract? l = some c ∧
    if creation then c.creation.Matches code true else c.runtime.Matches code false

/-- The first of all contracts whose code some code is. -/
def IsFirst (d : Deployments) (code : Bytes) (creation : Bool) (l : CodeLink) : Prop :=
  d.Runs code creation l ∧ ∀ l', l'.Before l → ¬ d.Runs code creation l'

theorem isCodeOf_iff (code : Bytes) (creation : Bool) (c : CompiledContract) :
    isCodeOf code creation c = true ↔
      if creation then c.creation.Matches code true else c.runtime.Matches code false := by
  cases creation with
  | true => exact c.creation.accepts_iff code true
  | false => exact c.runtime.accepts_iff code false

/-- A search through numbered items finds the first one that it can find. -/
theorem exists_first_of_findSome? {α β : Type} {f : α × Nat → Option β} {xs : List α} {b : β}
    (h : xs.zipIdx.findSome? f = some b) :
    ∃ n x, xs[n]? = some x ∧ f (x, n) = some b ∧
      ∀ m < n, ∀ y, xs[m]? = some y → f (y, m) = none := by
  obtain ⟨before, ⟨x, n⟩, after, hsplit, hfound, hbefore⟩ := List.findSome?_eq_some_iff.1 h
  have hat (m : Nat) : xs.zipIdx[m]? = xs[m]?.map fun y => (y, m) := by
    rw [List.getElem?_zipIdx, Nat.zero_add]
  have hn : (xs[before.length]?.map fun y => (y, before.length)) = some (x, n) := by
    rw [← hat, hsplit, List.getElem?_append_right (Nat.le_refl _), Nat.sub_self]
    rfl
  obtain ⟨y, hy, heq⟩ := Option.map_eq_some_iff.1 hn
  obtain ⟨rfl, rfl⟩ := Prod.mk.inj heq
  refine ⟨before.length, y, hy, hfound, fun m hm z hz => hbefore (z, m) ?_⟩
  have hmem : before[m]? = some (z, m) := by
    rw [← List.getElem?_append_left hm, ← hsplit, hat, hz]
    rfl
  exact List.mem_of_getElem? hmem

theorem runs_iff {compilation : Compilation}
    (hc : d.compilations[l.compilation]? = some compilation) :
    d.Runs code creation l ↔
      ∃ c, compilation.contracts[l.contract]? = some c ∧ isCodeOf code creation c = true := by
  simp only [Runs, contract?, hc, Option.bind_some, isCodeOf_iff]

/-- A compilation in which no contract is found has none with the code. -/
theorem not_runs_of_findIdx? {compilation : Compilation}
    (hc : d.compilations[l.compilation]? = some compilation)
    (h : compilation.contracts.findIdx? (isCodeOf code creation) = none) :
    ¬ d.Runs code creation l := by
  rw [runs_iff hc]
  rintro ⟨c, hcontract, hcode⟩
  rw [List.findIdx?_eq_none_iff.1 h c (List.mem_of_getElem? hcontract)] at hcode
  cases hcode

theorem not_runs_of_ofCode? (h : d.ofCode? code creation = none) (l : CodeLink) :
    ¬ d.Runs code creation l := by
  cases hc : d.compilations[l.compilation]? with
  | none =>
    rintro ⟨c, hcontract, -⟩
    rw [contract?, hc] at hcontract
    cases hcontract
  | some compilation =>
    have hnone := List.findSome?_eq_none_iff.1 h (compilation, l.compilation)
      (List.mem_zipIdx_iff_getElem?.2 hc)
    exact not_runs_of_findIdx? hc (Option.map_eq_none_iff.1 hnone)

theorem isFirst_of_ofCode? (h : d.ofCode? code creation = some l) : d.IsFirst code creation l := by
  obtain ⟨n, c, hc, hfound, hbefore⟩ := exists_first_of_findSome? h
  obtain ⟨i, hi, rfl⟩ := Option.map_eq_some_iff.1 hfound
  obtain ⟨hlt, hcode, hearlier⟩ := List.findIdx?_eq_some_iff_getElem.1 hi
  refine ⟨(runs_iff hc).2 ⟨_, List.getElem?_eq_getElem hlt, hcode⟩, ?_⟩
  rintro ⟨m, j⟩ (hm | ⟨rfl, hj⟩) hruns
  · -- nothing was found in the compilations before
    have hknown : ∃ c', d.compilations[m]? = some c' := by
      obtain ⟨compiled, hcontract, -⟩ := hruns
      obtain ⟨c', hc', -⟩ := Option.bind_eq_some_iff.1 hcontract
      exact ⟨c', hc'⟩
    obtain ⟨c', hc'⟩ := hknown
    exact not_runs_of_findIdx? hc' (Option.map_eq_none_iff.1 (hbefore m hm c' hc')) hruns
  · -- nothing was found among the contracts before
    obtain ⟨compiled, hcontract, hcompiled⟩ := (runs_iff hc).1 hruns
    obtain ⟨hj', rfl⟩ := List.getElem?_eq_some_iff.1 hcontract
    exact hearlier j hj hcompiled

theorem IsFirst.unique {l' : CodeLink} (h : d.IsFirst code creation l)
    (h' : d.IsFirst code creation l') : l = l' := by
  have hafter : ¬ l'.Before l := fun hb => h.2 l' hb h'.1
  have hbefore : ¬ l.Before l' := fun hb => h'.2 l hb h.1
  obtain ⟨n, i⟩ := l
  obtain ⟨n', i'⟩ := l'
  simp only [CodeLink.Before] at hafter hbefore
  rw [CodeLink.mk.injEq]
  omega

/-- Code is looked up as the first contract whose code it is. -/
theorem ofCode?_eq_some_iff : d.ofCode? code creation = some l ↔ d.IsFirst code creation l := by
  refine ⟨isFirst_of_ofCode?, fun h => ?_⟩
  cases hfound : d.ofCode? code creation with
  | none => exact absurd h.1 (not_runs_of_ofCode? hfound l)
  | some l' => rw [h.unique (isFirst_of_ofCode? hfound)]

theorem exists_ofCode?_iff :
    (∃ l, d.ofCode? code creation = some l) ↔ ∃ l, d.Runs code creation l := by
  constructor
  · rintro ⟨l, hl⟩
    exact ⟨l, (isFirst_of_ofCode? hl).1⟩
  · rintro ⟨l, hl⟩
    cases hfound : d.ofCode? code creation with
    | none => exact absurd hl (not_runs_of_ofCode? hfound l)
    | some l' => exact ⟨l', rfl⟩

/-! ## Links -/

theorem link?_insert (d : Deployments) (a b : Address) (l : CodeLink) :
    link? { d with links := Ordered.insert a l d.links } b =
      if a = b then some l else d.link? b := Ordered.find?_insert ..

theorem link?_unlink (d : Deployments) (a b : Address) :
    (d.unlink a).link? b = if a = b then none else d.link? b := by
  rw [link?, link?, unlink, Ordered.find?, Ordered.find?, List.find?_filter]
  by_cases h : a = b
  · subst h
    rw [if_pos rfl]
    simp
  · rw [if_neg h]
    congr 2
    funext entry
    rw [decide_eq_decide, decide_eq_true_eq, decide_eq_true_eq]
    exact and_iff_right_of_imp fun hb ha => h (ha.symm.trans hb)

/-- An address that is linked stays so, another one gets the contract that is found. -/
theorem link?_recognise (d : Deployments) (a : Address) (code : Bytes) (creation : Bool)
    (b : Address) :
    (d.recognise a code creation).link? b =
      if a = b then (d.link? b).or (d.ofCode? code creation) else d.link? b := by
  rw [recognise, isLinked]
  cases hlink : d.link? a with
  | some l =>
    rw [Option.isSome_some, if_pos rfl]
    split
    · rename_i h
      rw [← h, hlink, Option.some_or]
    · rfl
  | none =>
    rw [Option.isSome_none, if_neg (by decide)]
    cases d.ofCode? code creation with
    | none => simp
    | some l =>
      show link? { d with links := Ordered.insert a l d.links } b = _
      rw [link?_insert]
      split
      · rename_i h
        rw [← h, hlink, Option.none_or]
      · rfl

/-- Whoever finds no contract changes nothing. -/
theorem recognise_eq_self (h : (d.recognise a code creation).isLinked a = false) :
    d.recognise a code creation = d := by
  unfold recognise at h ⊢
  split
  · rfl
  · rename_i hlinked
    rw [if_neg hlinked] at h
    split
    · rename_i l hfound
      rw [hfound] at h
      change (link? { d with links := Ordered.insert a l d.links } a).isSome = false at h
      rw [link?_insert, if_pos rfl] at h
      cases h
    · rfl

/-! ## Requests in any order -/

/-- A request to change what is known. -/
inductive Request where
  | add (a : Artifacts)
  | link (a : Address) (compilation : Nat) (name : String)
  | recognise (a : Address) (code : Bytes) (creation : Bool)
  | unlink (a : Address)

/-- What is known after a request; one that fails changes nothing. -/
def handle (d : Deployments) : Request → Deployments
  | .add a =>
    match Compilation.ofArtifacts a with
    | .ok c => d.add c
    | .error _ => d
  | .link a compilation name =>
    match d.link a compilation name with
    | .ok d => d
    | .error _ => d
  | .recognise a code creation => d.recognise a code creation
  | .unlink a => d.unlink a

/-- What is known after some requests. -/
def run (requests : List Request) : Deployments := requests.foldl handle {}

/-- Compilations come from artifacts, and links lead to contracts of them. -/
structure IsSound (d : Deployments) : Prop where
  built : ∀ c ∈ d.compilations, ∃ artifacts, Compilation.ofArtifacts artifacts = .ok c
  linked : ∀ a l, d.link? a = some l → ∃ c, d.contract? l = some c

theorem IsSound.add (h : d.IsSound) {artifacts : Artifacts} {c : Compilation}
    (hc : Compilation.ofArtifacts artifacts = .ok c) : (d.add c).IsSound where
  built c' hc' := by
    rcases List.mem_append.1 hc' with hc' | hc'
    · exact h.built c' hc'
    · obtain rfl := List.mem_singleton.1 hc'
      exact ⟨artifacts, hc⟩
  linked a l hl := by
    obtain ⟨compiled, hcompiled⟩ := h.linked a l hl
    obtain ⟨c', hc', hcontract⟩ := Option.bind_eq_some_iff.1 hcompiled
    have hold : (d.add c).compilations[l.compilation]? = some c' := by
      rw [Deployments.add, List.getElem?_append_left (List.getElem?_eq_some_iff.1 hc').1]
      exact hc'
    exact ⟨compiled, Option.bind_eq_some_iff.2 ⟨c', hold, hcontract⟩⟩

/-- A link that replaces others has to lead to a contract. -/
theorem IsSound.insert (h : d.IsSound) (a : Address) {c : CompiledContract}
    (hl : d.contract? l = some c) :
    IsSound { d with links := Ordered.insert a l d.links } where
  built := h.built
  linked b l' hb := by
    rw [link?_insert] at hb
    split at hb
    · obtain rfl := Option.some.inj hb
      exact ⟨c, hl⟩
    · exact h.linked b l' hb

/-- What a successful link does: it leads to a contract of the name. -/
theorem exists_of_link {d' : Deployments} {compilation : Nat} {name : String}
    (h : d.link a compilation name = .ok d') :
    ∃ i c, d.contract? ⟨compilation, i⟩ = some c ∧
      d' = { d with links := Ordered.insert a ⟨compilation, i⟩ d.links } := by
  unfold link at h
  split at h
  · cases h
  · rename_i c hc
    split at h
    · rename_i i hi
      obtain rfl := Except.ok.inj h
      obtain ⟨compiled, hcompiled⟩ := Compilation.exists_of_contractIndex hi
      exact ⟨i, compiled, Option.bind_eq_some_iff.2 ⟨c, hc, hcompiled⟩, rfl⟩
    · cases h

theorem IsSound.recognise (h : d.IsSound) (a : Address) (code : Bytes) (creation : Bool) :
    (d.recognise a code creation).IsSound := by
  unfold Deployments.recognise
  split
  · exact h
  · split
    · rename_i l hfound
      obtain ⟨c, hc, -⟩ := (ofCode?_eq_some_iff.1 hfound).1
      exact h.insert a hc
    · exact h

theorem IsSound.unlink (h : d.IsSound) (a : Address) : (d.unlink a).IsSound where
  built := h.built
  linked b l hb := by
    rw [link?_unlink] at hb
    split at hb
    · cases hb
    · exact h.linked b l hb

theorem IsSound.handle (h : d.IsSound) (r : Request) : (d.handle r).IsSound := by
  cases r with
  | add artifacts =>
    rw [Deployments.handle]
    split
    · rename_i c hc
      exact h.add hc
    · exact h
  | link a compilation name =>
    rw [Deployments.handle]
    split
    · rename_i d' hd'
      obtain ⟨i, c, hc, rfl⟩ := exists_of_link hd'
      exact h.insert a hc
    · exact h
  | recognise a code creation => exact h.recognise a code creation
  | unlink a => exact h.unlink a

/-- Whatever is requested, every link leads to a contract of a compilation. -/
theorem isSound_run (requests : List Request) : (run requests).IsSound := by
  have hrun (d : Deployments) (h : d.IsSound) : (requests.foldl handle d).IsSound := by
    induction requests generalizing d with
    | nil => exact h
    | cons r rest ih => exact ih (d.handle r) (h.handle r)
  refine hrun {} ⟨fun c hc => ?_, fun a l hl => ?_⟩
  · cases hc
  · cases hl

/-- The contract at the end of a link, with the code that the compiler wrote for it. -/
theorem IsSound.exists_code (h : d.IsSound) {c : CompiledContract} (hl : d.contract? l = some c) :
    ∃ artifacts compilation code, d.compilations[l.compilation]? = some compilation ∧
      Compilation.ofArtifacts artifacts = .ok compilation ∧
      artifacts.contracts[l.contract]? = some code ∧ c.creation = code.creation ∧
      compilation.IsRuntimeOf c code.runtime := by
  obtain ⟨compilation, hcompilation, hcontract⟩ := Option.bind_eq_some_iff.1 hl
  obtain ⟨artifacts, hartifacts⟩ := h.built compilation (List.mem_of_getElem? hcompilation)
  obtain ⟨-, hcontracts⟩ := Compilation.exists_of_ofArtifacts hartifacts
  obtain ⟨code, hcode, hread⟩ := exists_getElem?_of_mapM hcontracts hcontract
  obtain ⟨hcreation, hruntime⟩ := Compilation.code_of_readContract hread
  exact ⟨artifacts, compilation, code, hcompilation, hartifacts, hcode, hcreation, hruntime⟩

/-- What is known of a linked address: everything, if the definition of the contract is there. -/
theorem at?_of_link? {c : CompiledContract} (hlink : d.link? a = some l)
    (hl : d.contract? l = some c) :
    ∃ compilation, d.compilations[l.compilation]? = some compilation ∧
      ∀ init, d.at? a init = c.contract.map fun id =>
        ⟨compilation, c, id, if init then c.creationMap else c.runtimeMap⟩ := by
  obtain ⟨compilation, hcompilation, hcontract⟩ := Option.bind_eq_some_iff.1 hl
  refine ⟨compilation, hcompilation, fun init => ?_⟩
  unfold at?
  rw [hlink]
  show (d.compilations[l.compilation]?).bind _ = _
  rw [hcompilation]
  show (compilation.contracts[l.contract]?).bind _ = _
  rw [hcontract]
  show c.contract.bind _ = _
  cases c.contract <;> rfl

/--
**Code is recognised as the first contract whose code it is**, whatever was requested before. Code
is that of a contract if it is the compiled code with only bytes inside placeholders changed, and
arguments after the code that creates the contract, or zeros after the code that is deployed, where
the address at the start of a library counts as a placeholder. An address is linked afterwards just
if it was before or there is such a contract, and an address that was not is linked to the first of
them. Links that exist stay, and what fails changes nothing. What is known of a linked address is
the contract, if its definition is in the program.
-/
theorem recognise_first (requests : List Request) (a : Address) (code : Bytes) (creation : Bool) :
    let d := run requests
    let d' := d.recognise a code creation
    (∀ (c : Bytecode) (deployed : Bytes) (anySuffix : Bool), c.accepts deployed anySuffix = true ↔
      c.bytes ≠ [] ∧ ∃ filled suffix, deployed = filled ++ suffix ∧ c.IsFilling filled ∧
        (anySuffix = true ∨ ∀ b ∈ suffix, b = 0)) ∧
    (∀ l c, d.contract? l = some c → ∃ artifacts compilation compiled,
      d.compilations[l.compilation]? = some compilation ∧
      Compilation.ofArtifacts artifacts = .ok compilation ∧
      artifacts.contracts[l.contract]? = some compiled ∧ c.creation = compiled.creation ∧
      compilation.IsRuntimeOf c compiled.runtime) ∧
    (d'.isLinked a = true ↔ d.isLinked a = true ∨ ∃ l, d.Runs code creation l) ∧
    (d.isLinked a = false → ∀ l, d'.link? a = some l ↔ d.IsFirst code creation l) ∧
    (∀ b, b ≠ a ∨ d.isLinked b = true → d'.link? b = d.link? b) ∧
    (d'.isLinked a = false → d' = d) ∧
    (∀ compilation name e, d.link a compilation name = .error e →
      d.handle (.link a compilation name) = d) ∧
    (∀ b l, d'.link? b = some l → ∃ c compilation, d'.contract? l = some c ∧
      d'.compilations[l.compilation]? = some compilation ∧
      ∀ init, d'.at? b init = c.contract.map fun id =>
        ⟨compilation, c, id, if init then c.creationMap else c.runtimeMap⟩) := by
  intro d d'
  have hsound : d.IsSound := isSound_run requests
  have hsound' : d'.IsSound := hsound.recognise a code creation
  have hlink : d'.link? a = (d.link? a).or (d.ofCode? code creation) := by
    rw [d.link?_recognise a code creation, if_pos rfl]
  refine ⟨fun c => c.accepts_iff, fun l c hl => hsound.exists_code hl, ?_, fun hfree l => ?_,
    fun b hb => ?_, recognise_eq_self, fun compilation name e he => ?_, fun b l hl => ?_⟩
  · rw [isLinked, hlink, Option.isSome_or, Bool.or_eq_true, ← exists_ofCode?_iff]
    exact or_congr_right Option.isSome_iff_exists
  · rw [isLinked, Option.isSome_eq_false_iff, Option.isNone_iff_eq_none] at hfree
    rw [hlink, hfree, Option.none_or, ofCode?_eq_some_iff]
  · rw [d.link?_recognise a code creation]
    split
    · rename_i h
      obtain ⟨l, hl⟩ := Option.isSome_iff_exists.1 (hb.resolve_left fun hne => hne h.symm)
      rw [hl, Option.some_or]
    · rfl
  · rw [handle, he]
  · obtain ⟨c, hc⟩ := hsound'.linked b l hl
    obtain ⟨compilation, hcompilation, hat⟩ := at?_of_link? hl hc
    exact ⟨c, compilation, hc, hcompilation, hat⟩

end Deployments

end Solscope
