import Solscope.Proofs.Artifacts
import Solscope.Proofs.Deployments
import Solscope.Proofs.Program.References

/-!
# What the keys of contracts mean

Compiler output has each contract under a key, the path of its source and its name with a colon
between. A key is cut at its last colon twice, when it is read and when a contract is looked up, so
that colons in paths make no difference.

* `Compilation.contractIndex_key`: **a key means its contract.**
* `Compilation.findsByName`: a name without a colon means the only contract that has it.
* `Program.exists_contractIn?`: a name that is declared in a source means a definition there.
* `Compilation.keys_identify`: all of it for output of which every key has a colon.
-/

namespace Solscope

/-! ## Definitions in sources -/

namespace Ast

variable {node : Ast} {file file' : Nat}

/-- A node has its place in the source of a number. -/
def LiesIn (node : Ast) (file : Nat) : Prop := ∃ r, node.range = .ok (some r) ∧ r.file = file

theorem LiesIn.unique (h : node.LiesIn file) (h' : node.LiesIn file') : file = file' := by
  obtain ⟨r, hr, rfl⟩ := h
  obtain ⟨r', hr', rfl⟩ := h'
  rw [hr] at hr'
  obtain rfl := Option.some.inj (Except.ok.inj hr')
  rfl

/-- The extent of a definition is in the source that the definition lies in. -/
theorem liesIn_extent (node : Ast) (sources : Sources) :
    HoldsOfOk (fun extent : Extent => node.LiesIn extent.file) (node.extent sources) := by
  unfold extent
  refine .bind fun found hfound => ?_
  cases found with
  | none => exact .error _
  | some extent =>
    refine .pure ?_
    unfold extent? at hfound
    cases hrange : node.range with
    | error e => rw [hrange] at hfound; cases hfound
    | ok place =>
      rw [hrange] at hfound
      cases place with
      | none => cases hfound
      | some r =>
        cases hextent : sources.extent? r with
        | none => simp [hextent] at hfound
        | some found =>
          simp only [hextent, Except.ok.injEq, Option.some.injEq] at hfound
          subst hfound
          obtain ⟨f, -, rfl⟩ := Option.map_eq_some_iff.1 hextent
          exact ⟨r, hrange, rfl⟩

theorem liesIn_contract {around : Surroundings} {id : ContractId} (node : Ast) :
    HoldsOfOk (fun c : Contract => node.LiesIn c.file) (node.contract around id) := by
  unfold contract
  cases node.requireName with
  | error e => exact .bind fun _ h => nomatch h
  | ok name =>
    refine .bind fun _ _ => .bind fun extent hextent => .bind fun methods _ => .pure ?_
    exact node.liesIn_extent around.sources extent hextent

/-- The contracts of every tree lie in the source of the tree. -/
def InPlace (asts : List Ast) : Prop :=
  ∀ (i : Nat) (tree : Ast), asts[i]? = some tree →
    ∀ node ∈ tree.childrenOf "ContractDefinition", node.LiesIn i

end Ast

namespace Program

variable {sources : Sources} {asts : List Ast} {p : Program} {id : ContractId} {c : Contract}
  {node : Ast} {file : Nat} {name : String}

/-- A contract is that of a node with a name in a source. -/
structure IsDefinition (p : Program) (asts : List Ast) (id : ContractId) (file : Nat)
    (name : String) (node : Ast) : Prop where
  contract : ∃ c, p.contract? id = some c ∧ c.file = file ∧ c.name = name
  numbered : (Ast.contractNodes asts)[id]? = some node
  named : node.name? = some name
  placed : node.LiesIn file

theorem exists_isDefinition (h : ofAsts sources asts = .ok p) (hc : p.contract? id = some c) :
    ∃ node, p.IsDefinition asts id c.file c.name node := by
  have hlinked := hc
  obtain ⟨node, plain, contracts, hnode, hcontract, rfl⟩ := exists_read h hc
  obtain ⟨hread, -⟩ := node.contract_spec plain hcontract
  exact ⟨node, ⟨_, hlinked, rfl, rfl⟩, hnode, hread.name, node.liesIn_contract plain hcontract⟩

/-- A name that is declared in a source means a definition there. -/
theorem exists_contractIn? (h : ofAsts sources asts = .ok p) (hnode : node ∈ Ast.contractNodes asts)
    (hname : node.name? = some name) (hfile : node.LiesIn file) :
    ∃ id found, p.contractIn? file name = some id ∧ p.IsDefinition asts id file name found := by
  have hfound : ∃ c ∈ p.contracts, c.file = file ∧ c.name = name := by
    obtain ⟨id, hid, hget⟩ := List.mem_iff_getElem.1 hnode
    have hlt : id < p.contracts.length := by rwa [length_contracts h]
    have hc : p.contract? id = some p.contracts[id] := List.getElem?_eq_getElem hlt
    obtain ⟨found, hdefinition⟩ := exists_isDefinition h hc
    have heq : found = node := by
      have hnode := hdefinition.numbered
      rw [List.getElem?_eq_getElem hid, hget] at hnode
      exact (Option.some.inj hnode).symm
    subst heq
    refine ⟨p.contracts[id], List.getElem_mem hlt, hdefinition.placed.unique hfile, ?_⟩
    have hsame := hdefinition.named
    rw [hname] at hsame
    exact (Option.some.inj hsame).symm
  cases hin : p.contractIn? file name with
  | none =>
    obtain ⟨c, hmem, hcfile, hcname⟩ := hfound
    have hnone := List.findIdx?_eq_none_iff.1 hin c hmem
    simp [hcfile, hcname] at hnone
  | some id =>
    obtain ⟨hlt, hthere, -⟩ := List.findIdx?_eq_some_iff_getElem.1 hin
    simp only [Bool.and_eq_true, decide_eq_true_eq] at hthere
    obtain ⟨rfl, rfl⟩ := hthere
    obtain ⟨found, hdefinition⟩ := exists_isDefinition h (List.getElem?_eq_getElem hlt)
    exact ⟨id, found, rfl, hdefinition⟩

/-- Where trees keep to their sources, a definition is in the tree of its source. -/
theorem IsDefinition.mem_tree (h : p.IsDefinition asts id file name node)
    (hplace : Ast.InPlace asts) :
    ∃ tree, asts[file]? = some tree ∧ node ∈ tree.childrenOf "ContractDefinition" := by
  obtain ⟨tree, htree, hmem⟩ := List.mem_flatMap.1 (List.mem_of_getElem? h.numbered)
  obtain ⟨i, hi⟩ := List.getElem?_of_mem htree
  have hfile : i = file := (hplace i tree hi node hmem).unique h.placed
  exact ⟨tree, hfile ▸ hi, hmem⟩

end Program

/-! ## Looking up names -/

namespace Compilation

variable {a : Artifacts} {c : Compilation} {name : String}

/-- What a name without a path means. -/
structure FindsByName (c : Compilation) (name : String) : Prop where
  known : (∃ index, c.contractIndex name = .ok index) ↔
    c.contracts.countP (fun d => d.name = name) = 1
  found : ∀ index, c.contractIndex name = .ok index →
    ∃ d, c.contracts[index]? = some d ∧ d.name = name
  ambiguous : c.contractIndex name = .error (.ambiguous name) ↔
    2 ≤ c.contracts.countP (fun d => d.name = name)
  unknown : c.contractIndex name = .error (.unknown name) ↔
    c.contracts.countP (fun d => d.name = name) = 0

/-- A name without a colon means the only contract that has it. -/
theorem findsByName (h : ':' ∉ name.toList) : c.FindsByName name := by
  have hnames : names name = fun d => decide (d.name = name) := by
    funext d
    rw [names, Text.cutLast?_eq_none_iff.2 h]
  obtain ⟨hcount, hindex⟩ | ⟨hcount, index, d, hindex, hd, hname⟩ | ⟨hcount, hindex⟩ :=
    c.contractIndex_cases name
  all_goals rw [hnames] at hcount
  · constructor <;> simp [hindex, hcount]
  · have hname : d.name = name := by simpa [hnames] using hname
    constructor <;> simp [hindex, hcount, hd, hname]
  · constructor
    · simp only [hindex, reduceCtorEq, exists_false, false_iff]
      omega
    · simp [hindex]
    · simp [hindex, hcount]
    · simp only [hindex, Except.error.injEq, reduceCtorEq, false_iff]
      omega

/-- A contract has the path and the name of its code, and the definition that these mean. -/
theorem readContract_spec (sources : Sources) (program : Program) (code : CompiledCode) :
    HoldsOfOk (fun d : CompiledContract => (d.path, d.name) = (code.path, code.name) ∧
      d.contract = contractOf? sources program code) (readContract sources program code) := by
  unfold readContract
  exact .bind fun creationMap _ => .bind fun runtimeMap _ => .pure ⟨rfl, rfl⟩

theorem names_of_ofArtifacts (h : ofArtifacts a = .ok c) :
    (c.contracts.map fun d => (d.path, d.name)) = a.contracts.map fun d => (d.path, d.name) := by
  obtain ⟨-, hcontracts⟩ := exists_of_ofArtifacts h
  refine HoldsOfOk.map_mapM a.contracts (fun code _ d hd => ?_) _ hcontracts
  exact (readContract_spec a.sources c.program code d hd).1

/-- A name with a colon is cut as keys are. -/
theorem names_iff (h : ':' ∈ name.toList) (d : CompiledContract) :
    names name d = true ↔ (d.path, d.name) = Artifacts.splitKey name := by
  rw [names, Artifacts.splitKey]
  cases hcut : Text.cutLast? ':' name.toList with
  | none => exact absurd h (Text.cutLast?_eq_none_iff.1 hcut)
  | some sides => simp

/-- **A key means its contract**, if all keys are different and have colons. -/
theorem contractIndex_key {keys : List String} {index : Nat} {key : String}
    (hpairs : (c.contracts.map fun d => (d.path, d.name)) = keys.map Artifacts.splitKey)
    (hcolon : ∀ key ∈ keys, ':' ∈ key.toList) (hnodup : keys.Nodup)
    (hkey : keys[index]? = some key) :
    c.contractIndex key = .ok index ∧
      ∃ d, c.contracts[index]? = some d ∧ d.path ++ ":" ++ d.name = key := by
  have hmem : key ∈ keys := List.mem_of_getElem? hkey
  -- keys with colons are told apart by their paths and names
  have hsplit : (keys.map Artifacts.splitKey).Nodup := by
    refine List.Nodup.map_on (fun x hx y hy heq => ?_) hnodup
    rw [← Artifacts.splitKey_spec (hcolon x hx), heq, Artifacts.splitKey_spec (hcolon y hy)]
  have hcount : c.contracts.countP (names key) = 1 := by
    have hone : (keys.map Artifacts.splitKey).count (Artifacts.splitKey key) = 1 :=
      List.count_eq_one_of_mem hsplit (List.mem_map_of_mem hmem)
    rw [← hpairs, List.count, List.countP_map] at hone
    rw [← hone]
    refine List.countP_congr fun d _ => ?_
    rw [names_iff (hcolon key hmem)]
    simp
  have hat : (c.contracts.map fun d => (d.path, d.name))[index]? =
      some (Artifacts.splitKey key) := by
    rw [hpairs, List.getElem?_map, hkey]
    rfl
  obtain ⟨hnone, -⟩ | ⟨-, found, d, hindex, hd, hname⟩ | ⟨hmany, -⟩ := c.contractIndex_cases key
  · omega
  · have hfound : (c.contracts.map fun d => (d.path, d.name))[found]? =
        some (Artifacts.splitKey key) := by
      rw [List.getElem?_map, hd, Option.map_some, (names_iff (hcolon key hmem) d).1 hname]
    have hlt : found < (c.contracts.map fun d => (d.path, d.name)).length :=
      (List.getElem?_eq_some_iff.1 hfound).1
    obtain rfl : found = index :=
      (List.getElem?_inj hlt (hpairs ▸ hsplit)).1 (hfound.trans hat.symm)
    refine ⟨hindex, d, hd, ?_⟩
    have hpair := (names_iff (hcolon key hmem) d).1 hname
    rw [← Artifacts.splitKey_spec (hcolon key hmem), ← hpair]
  · omega

/--
**Keys identify contracts**, for all output of which every key has a colon. A key means the contract
of its own, which has the path and the name that make up the key, and a name without a colon means
the only contract that has it. Where the path of a contract is listed, and its name is declared in
that source, the definition of the contract is in that source, whatever else has the same name; it
is in the tree of that source if all trees keep to their sources.
-/
theorem keys_identify {library : Json.Library} {text : String}
    {load : String → Except Artifacts.Error String} {output : Artifacts.Combined}
    (houtput : Artifacts.Combined.parse? library.ofText text = some output)
    (hread : Artifacts.read library text load = .ok a) (hbuilt : ofArtifacts a = .ok c)
    (hcolon : ∀ entry ∈ output.contracts, ':' ∈ entry.1.toList) :
    (∀ index key code, output.contracts[index]? = some (key, code) →
      c.contractIndex key = .ok index ∧
        ∃ d, c.contracts[index]? = some d ∧ d.path ++ ":" ++ d.name = key) ∧
    (∀ name, ':' ∉ name.toList → c.FindsByName name) ∧
    ∀ d ∈ c.contracts, ∀ file, output.sourceList[file]? = some d.path →
      (∃ node ∈ Ast.contractNodes a.asts, node.name? = some d.name ∧ node.LiesIn file) →
      ∃ id node, d.contract = some id ∧ c.program.IsDefinition a.asts id file d.name node ∧
        (Ast.InPlace a.asts → ∃ tree, a.asts[file]? = some tree ∧
          node ∈ tree.childrenOf "ContractDefinition") := by
  obtain ⟨start, contracts, hsources, hcontracts, rfl⟩ := Artifacts.exists_of_read houtput hread
  obtain ⟨hprogram, hcompiled⟩ := exists_of_ofArtifacts hbuilt
  refine ⟨fun index key code hentry => ?_, fun name => findsByName, ?_⟩
  · have hpairs : (c.contracts.map fun d => (d.path, d.name)) =
        (output.contracts.map Prod.fst).map Artifacts.splitKey := by
      rw [names_of_ofArtifacts hbuilt, List.map_map]
      exact Artifacts.names_of_contracts hcontracts
    have hcolon' : ∀ key ∈ output.contracts.map Prod.fst, ':' ∈ key.toList := by
      intro key hkey
      obtain ⟨entry, hmem, rfl⟩ := List.mem_map.1 hkey
      exact hcolon entry hmem
    refine contractIndex_key hpairs hcolon' (Artifacts.nodup_keys houtput) ?_
    rw [List.getElem?_map, hentry]
    rfl
  · rintro d hd file hpath ⟨node, hnode, hname, hfile⟩
    obtain ⟨index, hindex⟩ := List.getElem?_of_mem hd
    obtain ⟨code, -, hcode⟩ := exists_getElem?_of_mapM hcompiled hindex
    obtain ⟨f, hf, rfl⟩ := Artifacts.byPath?_of_readSources hsources hpath
    obtain ⟨id, found, hin, hdefinition⟩ :=
      Program.exists_contractIn? hprogram hnode hname hfile
    refine ⟨id, found, ?_, hdefinition, hdefinition.mem_tree⟩
    obtain ⟨hpair, hcontract⟩ := readContract_spec start.sources c.program code d hcode
    obtain ⟨hsame, hsame'⟩ := Prod.mk.inj hpair
    rw [hcontract, contractOf?, ← hsame, hf, Option.bind_some, ← hsame', hin]
    rfl

/-- Two sources, one of which has a colon in its path, declare contracts of the same name. -/
theorem keys_identify_equal_names :
    let text := "\x7b\"contracts\":\x7b\"x:y:T\":\x7b\x7d,\"y:T\":\x7b\x7d\x7d," ++
      "\"sourceList\":[\"x:y\",\"y\"],\"sources\":\x7b" ++
      "\"x:y\":\x7b\"AST\":\x7b\"name\":\"SourceUnit\",\"children\":[" ++
      "\x7b\"name\":\"ContractDefinition\",\"src\":\"0:9:0\"," ++
      "\"attributes\":\x7b\"name\":\"T\"\x7d\x7d]\x7d\x7d," ++
      "\"y\":\x7b\"AST\":\x7b\"name\":\"SourceUnit\",\"children\":[" ++
      "\x7b\"name\":\"ContractDefinition\",\"src\":\"0:9:1\"," ++
      "\"attributes\":\x7b\"name\":\"T\"\x7d\x7d]\x7d\x7d\x7d\x7d"
    let library : Json.Library := ⟨fun j => some j.collapse, fun j => some j.collapse⟩
    let load : String → Except Artifacts.Error String := fun _ => .ok "contract T"
    ∃ output a c, Artifacts.Combined.parse? library.ofText text = some output ∧
      Artifacts.read library text load = .ok a ∧ ofArtifacts a = .ok c ∧
      (∀ entry ∈ output.contracts, ':' ∈ entry.1.toList) ∧
      c.contractIndex "x:y:T" = .ok 0 ∧ c.contractIndex "y:T" = .ok 1 ∧ c.FindsByName "T" ∧
      ∃ d id node, c.contracts[1]? = some d ∧ d.contract = some id ∧
        c.program.IsDefinition a.asts id 1 "T" node := by
  intro text library load
  have heval : (Artifacts.Combined.parse? library.ofText text).any (fun output =>
      output.contracts.map Prod.fst = ["x:y:T", "y:T"] ∧ output.sourceList = ["x:y", "y"] ∧
      ((Artifacts.readSources library.ofValue load output.trees 0 {} output.sourceList).bind
        fun a => (Artifacts.readContracts output).map fun contracts =>
          { a with contracts }).toOption.any fun a =>
        ((Ast.contractNodes a.asts)[1]?.any fun node =>
          node.name? = some "T" ∧ node.range.toOption = some (some ⟨1, 0, 9⟩)) ∧
        (ofArtifacts a).toOption.any fun c =>
          c.contracts[1]?.any fun d => d.path = "y" ∧ d.name = "T") = true := by
    rw [Artifacts.Combined.parse?, Json.parseWanted?]
    simp only [text, String.toList_append]
    decide +kernel
  obtain ⟨output, houtput, hfacts⟩ := (Option.any_eq_true _ _).1 heval
  obtain ⟨hkeys, hlist, hartifacts⟩ := of_decide_eq_true hfacts
  rw [← Artifacts.read_eq houtput] at hartifacts
  obtain ⟨a, hsome, hbuilt⟩ := (Option.any_eq_true _ _).1 hartifacts
  have hread : Artifacts.read library text load = .ok a := Text.eq_ok_of_toOption hsome
  obtain ⟨hnode, hbuilt⟩ := of_decide_eq_true hbuilt
  obtain ⟨node, hget, hnode⟩ := (Option.any_eq_true _ _).1 hnode
  obtain ⟨hname, hrange⟩ := of_decide_eq_true hnode
  obtain ⟨c, hsome, hd⟩ := (Option.any_eq_true _ _).1 hbuilt
  have hbuilt : ofArtifacts a = .ok c := Text.eq_ok_of_toOption hsome
  obtain ⟨d, hd, hfields⟩ := (Option.any_eq_true _ _).1 hd
  obtain ⟨hpath, hdname⟩ := of_decide_eq_true hfields
  have hcolon : ∀ entry ∈ output.contracts, ':' ∈ entry.1.toList := by
    intro entry hentry
    have hmem : entry.1 ∈ ["x:y:T", "y:T"] := hkeys ▸ List.mem_map_of_mem hentry
    generalize entry.1 = key at hmem
    revert key
    decide
  obtain ⟨hindex, hbare, hdefinition⟩ := keys_identify houtput hread hbuilt hcolon
  have hentry {index : Nat} {key : String} (hkey : ["x:y:T", "y:T"][index]? = some key) :
      c.contractIndex key = .ok index := by
    rw [← hkeys, List.getElem?_map] at hkey
    obtain ⟨⟨key, code⟩, hentry, rfl⟩ := Option.map_eq_some_iff.1 hkey
    exact (hindex index key code hentry).1
  have hfile : output.sourceList[1]? = some d.path := by rw [hlist, hpath]; rfl
  obtain ⟨id, found, hid, hfound, -⟩ := hdefinition d (List.mem_of_getElem? hd) 1 hfile
    ⟨node, List.mem_of_getElem? hget, hdname ▸ hname, _, Text.eq_ok_of_toOption hrange, rfl⟩
  exact ⟨output, a, c, houtput, hread, hbuilt, hcolon, hentry rfl, hentry rfl,
    hbare "T" (by decide), d, id, found, hd, hid, hdname ▸ hfound⟩

end Compilation

end Solscope
