/-!
# Lists without repetitions

`Distinct.append` adds to a list those members of another that it does not have, and
`Distinct.ofList` keeps of every member the first occurrence.

* `mem_append`, `mem_ofList`: no member is lost.
* `nodup_append`, `nodup_ofList`: none is repeated.
-/

namespace Solscope.Distinct

variable {α : Type _} [DecidableEq α]

/-- Adds a member at the end, unless the list has it. -/
def add (xs : List α) (x : α) : List α := if x ∈ xs then xs else xs ++ [x]

/-- Adds the members of a list one after the other. -/
def append (xs ys : List α) : List α := ys.foldl add xs

/-- The members of a list in the order in which they come first. -/
def ofList (xs : List α) : List α := append [] xs

theorem mem_add {xs : List α} {x y : α} : y ∈ add xs x ↔ y ∈ xs ∨ y = x := by
  unfold add
  split <;> simp_all

theorem nodup_add {xs : List α} (h : xs.Nodup) (x : α) : (add xs x).Nodup := by
  unfold add
  split
  · exact h
  · rename_i hx
    refine List.nodup_append.2 ⟨h, by simp, fun a ha b hb hab => hx ?_⟩
    rw [List.mem_singleton] at hb
    exact hb ▸ hab ▸ ha

theorem mem_append {xs ys : List α} {z : α} : z ∈ append xs ys ↔ z ∈ xs ∨ z ∈ ys := by
  unfold append
  induction ys generalizing xs with
  | nil => simp
  | cons y ys ih => simp [ih, mem_add, or_assoc]

theorem nodup_append {xs : List α} (h : xs.Nodup) (ys : List α) : (append xs ys).Nodup := by
  unfold append
  induction ys generalizing xs with
  | nil => exact h
  | cons y ys ih => exact ih (nodup_add h y)

theorem mem_ofList {xs : List α} {x : α} : x ∈ ofList xs ↔ x ∈ xs := by simp [ofList, mem_append]

theorem nodup_ofList (xs : List α) : (ofList xs).Nodup := nodup_append List.nodup_nil xs

end Solscope.Distinct
