import Solscope.Proofs.Program.Linking

/-!
# The functions that code contains

* `Contract.mem_methodsWith`: methods with a property are told by their numbers.
* `Program.hasFunction_of_methodAt?`: **an extent belongs to functions only**, never to modifiers.
-/

namespace Solscope

theorem Contract.mem_methodsWith {c : Contract} {property : Method → Bool} {index : Nat} :
    index ∈ c.methodsWith property ↔ ∃ m, c.methods[index]? = some m ∧ property m = true := by
  unfold methodsWith
  rw [List.mem_map]
  constructor
  · rintro ⟨⟨m, i⟩, hmem, rfl⟩
    obtain ⟨hm, hproperty⟩ := List.mem_filter.1 hmem
    exact ⟨m, List.mem_zipIdx_iff_getElem?.1 hm, hproperty⟩
  · rintro ⟨m, hm, hproperty⟩
    exact ⟨(m, index), List.mem_filter.2 ⟨List.mem_zipIdx_iff_getElem?.2 hm, hproperty⟩, rfl⟩

namespace Program

variable {p : Program} {id : MethodId} {contract : ContractId}

/-- A number is that of a function. -/
def HasFunction (p : Program) (id : MethodId) : Prop :=
  ∃ m, p.method? id = some m ∧ m.isFunction = true

theorem hasFunction_of_mem_methodsWith {c : Contract} {index : Nat} {property : Method → Bool}
    (hc : p.contract? contract = some c) (hindex : index ∈ c.methodsWith property)
    (hproperty : ∀ m, property m = true → m.isFunction = true) :
    p.HasFunction ⟨contract, index⟩ := by
  obtain ⟨m, hm, hholds⟩ := Contract.mem_methodsWith.1 hindex
  exact ⟨m, by rw [method?, hc]; exact hm, hproperty m hholds⟩

theorem hasFunction_of_mem_functionsOf (h : id ∈ p.functionsOf contract) : p.HasFunction id := by
  unfold functionsOf at h
  split at h
  · cases h
  · rename_i c hc
    obtain ⟨index, hindex, rfl⟩ := List.mem_map.1 h
    exact hasFunction_of_mem_methodsWith hc hindex fun m hm => hm

/-- Programs of syntax trees take in functions of libraries only. -/
theorem hasFunction_of_mem_libraryInternals {sources : Sources} {asts : List Ast}
    (hp : ofAsts sources asts = .ok p) (h : id ∈ p.libraryInternals) : p.HasFunction id := by
  have hinternals : p.libraryInternals =
      p.contracts.zipIdx.flatMap fun entry => entry.1.internals entry.2 := by
    obtain ⟨contracts, -, rfl⟩ := exists_contracts_of_ofAsts hp
    rfl
  rw [hinternals] at h
  obtain ⟨⟨c, contract⟩, hc, hid⟩ := List.mem_flatMap.1 h
  have hcontract : p.contract? contract = some c := List.mem_zipIdx_iff_getElem?.1 hc
  change id ∈ c.internals contract at hid
  unfold Contract.internals at hid
  split at hid
  · obtain ⟨index, hindex, rfl⟩ := List.mem_map.1 hid
    exact hasFunction_of_mem_methodsWith hcontract hindex fun m hm => (Bool.and_eq_true_iff.1 hm).1
  · cases hid

theorem hasFunction_of_mem_visibleFunctions {sources : Sources} {asts : List Ast}
    (hp : ofAsts sources asts = .ok p) (h : id ∈ p.visibleFunctions contract) :
    p.HasFunction id := by
  unfold visibleFunctions at h
  split at h
  · cases h
  · rcases List.mem_append.1 (Distinct.mem_ofList.1 h) with h | h
    · obtain ⟨base, -, hbase⟩ := List.mem_flatMap.1 h
      exact hasFunction_of_mem_functionsOf hbase
    · exact hasFunction_of_mem_libraryInternals hp h

/-- **An extent belongs to functions only.** -/
theorem hasFunction_of_methodAt? {sources : Sources} {asts : List Ast}
    (hp : ofAsts sources asts = .ok p) {extent : Extent}
    (h : p.methodAt? contract extent = some id) : p.HasFunction id := by
  have hvisible : id ∈ p.visibleFunctions contract := by
    rcases Option.or_eq_some_iff.1 h with h | ⟨-, h⟩
    · exact List.mem_of_find?_eq_some h
    · exact List.mem_of_find?_eq_some h
  exact hasFunction_of_mem_visibleFunctions hp hvisible

/-- A method that is found by its extent is one of the program. -/
theorem exists_of_methodAt? {extent : Extent} (h : p.methodAt? contract extent = some id) :
    ∃ m, p.method? id = some m := by
  have hfirst {property : Method → Bool} {ids : List MethodId}
      (h : p.firstWith? property ids = some id) : ∃ m, p.method? id = some m := by
    have hfound : (p.method? id).any property = true :=
      List.find?_some (p := fun id => (p.method? id).any property) h
    obtain ⟨m, hm, -⟩ := (Option.any_eq_true _ _).1 hfound
    exact ⟨m, hm⟩
  rcases Option.or_eq_some_iff.1 h with h | ⟨-, h⟩
  · exact hfirst h
  · exact hfirst h

end Program

end Solscope
