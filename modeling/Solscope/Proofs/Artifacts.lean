import Solscope.Artifacts
import Solscope.Proofs.Results
import Solscope.Proofs.Wire.Codec

/-!
# What is read of compiler output

Sources come first and contracts after them, both in the order in which the output has them.

* `Artifacts.read_eq`: the sources and the contracts of output that is understood.
* `Artifacts.readSources_spec`: **sources have the numbers of the list**, in which no path comes
  twice.
* `Artifacts.byPath?_of_readSources`: a path of the list leads to the source of its number.
* `Artifacts.splitKey_spec`: a key is a path and a name with a colon between.
* `Artifacts.names_of_contracts`: **contracts have the paths and names in their keys.**
* `Artifacts.nodup_keys`: no key comes twice.
-/

namespace Solscope

/-- A source whose number comes after all others goes to the end. -/
theorem Sources.toList_add {s : Sources} {index : Nat} (h : ∀ e ∈ s.files, e.1 < index)
    (path content : String) : (s.add index path content).toList =
      s.toList ++ [{ index := index, path := path, content := content }] := by
  rw [toList, add, Ordered.insert_eq_append h, List.map_append]
  rfl

namespace Artifacts

variable {library : Json.Library} {readValue : Json → Option Json} {text : String}
  {load : String → Except Error String} {output : Combined} {a b : Artifacts}
  {trees : List (String × Option Json)} {index : Nat} {paths : List String} {path : String}

/-- Reads all contracts. -/
def readContracts (output : Combined) : Except Error (List CompiledCode) :=
  output.contracts.mapM fun entry => readContract entry.1 entry.2

theorem read_eq (houtput : Combined.parse? library.ofText text = some output) :
    read library text load =
      (readSources library.ofValue load output.trees 0 {} output.sourceList).bind fun a =>
        (readContracts output).map fun contracts => { a with contracts } := by
  rw [read, houtput]
  dsimp only [bind, Except.bind]
  cases readSources library.ofValue load output.trees 0 {} output.sourceList with
  | error e => rfl
  | ok a =>
    rw [readContracts]
    cases output.contracts.mapM fun entry => readContract entry.1 entry.2 <;> rfl

theorem exists_of_read (houtput : Combined.parse? library.ofText text = some output)
    (h : read library text load = .ok a) :
    ∃ start contracts,
      readSources library.ofValue load output.trees 0 {} output.sourceList = .ok start ∧
        readContracts output = .ok contracts ∧ a = { start with contracts } := by
  rw [read_eq houtput] at h
  cases hsources : readSources library.ofValue load output.trees 0 {} output.sourceList with
  | error e =>
    rw [hsources] at h
    cases h
  | ok start =>
    cases hcontracts : readContracts output with
    | error e =>
      rw [hsources, hcontracts] at h
      cases h
    | ok contracts =>
      rw [hsources, hcontracts] at h
      exact ⟨start, contracts, rfl, rfl, (Except.ok.inj h).symm⟩

/-! ## Sources -/

/-- The sources with their paths and numbers. -/
def numbered (a : Artifacts) : List (String × Nat) :=
  a.sources.toList.map fun f => (f.path, f.index)

/-- One source is read: its text is known, and its tree was not taken yet. -/
theorem exists_of_readSources_cons
    (h : readSources readValue load trees index a (path :: paths) = .ok b) :
    ∃ content ast, (Ordered.find? path trees).join ≠ none ∧
      readSources readValue load (Ordered.insert path none trees) (index + 1)
        { a with sources := a.sources.add index path content, asts := a.asts ++ [ast] } paths =
          .ok b := by
  rw [readSources] at h
  cases hcontent : load path with
  | error e => rw [hcontent] at h; cases h
  | ok content =>
    rw [hcontent] at h
    dsimp only [bind, Except.bind] at h
    cases htree : (Ordered.find? path trees).join with
    | none => rw [htree] at h; cases h
    | some tree =>
      rw [htree] at h
      dsimp only at h
      cases hast : Ast.ofJson? readValue tree with
      | none => rw [hast] at h; cases h
      | some ast =>
        rw [hast] at h
        exact ⟨content, ast, Option.some_ne_none tree, h⟩

/-- **Sources have the numbers of the list**; a path that came twice would have no tree left. -/
theorem readSources_spec (h : readSources readValue load trees index a paths = .ok b)
    (hfiles : ∀ e ∈ a.sources.files, e.1 < index) :
    b.numbered = a.numbered ++ paths.zipIdx index ∧ paths.Nodup ∧
      ∀ path ∈ paths, (Ordered.find? path trees).join ≠ none := by
  induction paths generalizing trees index a with
  | nil =>
    obtain rfl := Except.ok.inj h
    simp
  | cons path rest ih =>
    obtain ⟨content, ast, htree, hrest⟩ := exists_of_readSources_cons h
    have hadded : ∀ e ∈ (a.sources.add index path content).files, e.1 < index + 1 := by
      intro e he
      rcases Ordered.eq_or_mem_of_mem_insert he with rfl | he
      · exact Nat.lt_succ_self index
      · exact Nat.lt_succ_of_lt (hfiles e he)
    obtain ⟨hnumbered, hnodup, htrees⟩ := ih hrest hadded
    have hgone : path ∉ rest := by
      intro hmem
      have hleft := htrees path hmem
      rw [Ordered.find?_insert, if_pos rfl] at hleft
      exact hleft rfl
    refine ⟨?_, List.nodup_cons.2 ⟨hgone, hnodup⟩, List.forall_mem_cons.2 ⟨htree, ?_⟩⟩
    · rw [hnumbered, numbered, numbered, Sources.toList_add hfiles, List.map_append,
        List.append_assoc]
      rfl
    · intro other hother
      have hne : path ≠ other := fun heq => hgone (heq ▸ hother)
      have hleft := htrees other hother
      rwa [Ordered.find?_insert, if_neg hne] at hleft

/-- A path of the list leads to the source of its number. -/
theorem byPath?_of_readSources (h : readSources readValue load trees 0 {} paths = .ok a)
    (hpath : paths[index]? = some path) :
    ∃ f, a.sources.byPath? path = some f ∧ f.index = index := by
  obtain ⟨hnumbered, hnodup, -⟩ := readSources_spec h (by simp)
  have hmem (f : SourceFile) (hf : f ∈ a.sources.toList) : paths[f.index]? = some f.path := by
    have hf' : (f.path, f.index) ∈ a.numbered := List.mem_map_of_mem hf
    rw [hnumbered] at hf'
    simpa [numbered, Sources.toList, List.mem_zipIdx_iff_getElem?] using hf'
  have hlisted : (path, index) ∈ a.numbered := by
    rw [hnumbered]
    exact List.mem_append_right _ (List.mem_zipIdx_iff_getElem?.2 hpath)
  obtain ⟨f, hf, hfound⟩ := List.mem_map.1 hlisted
  obtain ⟨rfl, rfl⟩ := Prod.mk.inj hfound
  cases hby : a.sources.byPath? f.path with
  | none =>
    have hnot := List.find?_eq_none.1 hby f hf
    simp at hnot
  | some g =>
    refine ⟨g, rfl, ?_⟩
    have hgpath : g.path = f.path := by simpa using List.find?_some hby
    have hg := hmem g (List.mem_of_find?_eq_some hby)
    have hlt := (List.getElem?_eq_some_iff.1 hg).1
    exact (List.getElem?_inj hlt hnodup).1 (by rw [hg, hpath, hgpath])

/-! ## Contracts -/

theorem splitKey_spec {key : String} (h : ':' ∈ key.toList) :
    (splitKey key).1 ++ ":" ++ (splitKey key).2 = key := by
  cases hcut : Text.cutLast? ':' key.toList with
  | none => exact absurd h (Text.cutLast?_eq_none_iff.1 hcut)
  | some sides =>
    obtain ⟨left, right⟩ := sides
    obtain ⟨hkey, -⟩ := Text.eq_of_cutLast? hcut
    rw [splitKey, hcut]
    refine String.toList_inj.1 ?_
    simp [hkey]

theorem names_readContract (key : String) (c : Combined.Contract) :
    HoldsOfOk (fun d : CompiledCode => (d.path, d.name) = splitKey key) (readContract key c) := by
  unfold readContract
  exact .bind fun creation _ => .bind fun runtime _ => .pure rfl

/-- **Contracts have the paths and names in their keys**, and come in the order of these. -/
theorem names_of_contracts {contracts : List CompiledCode}
    (h : readContracts output = .ok contracts) :
    (contracts.map fun d => (d.path, d.name)) = output.contracts.map fun e => splitKey e.1 := by
  refine HoldsOfOk.map_mapM output.contracts (fun entry _ => ?_) contracts h
  exact names_readContract entry.1 entry.2

/-- The keys of an object are in order, so none comes twice. -/
theorem nodup_keys (houtput : Combined.parse? readValue text = some output) :
    (output.contracts.map Prod.fst).Nodup := by
  obtain ⟨j, -, hj⟩ := Option.bind_eq_some_iff.1 houtput
  obtain ⟨contracts, _, _, -, entries, _, _, hentries, -, -, rfl⟩ :=
    Json.recordOfThree_eq_some_iff.1 hj
  have hne {x y : String} (h : x < y) : x ≠ y := by
    rintro rfl
    exact String.lt_irrefl x h
  refine List.Pairwise.map Prod.fst (fun _ _ => hne) ?_
  cases contracts with
  | none =>
    obtain rfl := Option.some.inj hentries
    exact .nil
  | some value =>
    cases value with
    | obj members =>
      obtain ⟨pairs, -, rfl⟩ := Option.map_eq_some_iff.1 hentries
      exact Ordered.pairwise_ofList pairs
    | _ => cases hentries

end Artifacts

end Solscope
