import Mathlib.Data.List.Forall2

/-!
# Results of what may fail

* `HoldsOfOk`: what holds of a result, if there is one; `bind`, `map` and `mapM` carry it along the
  steps of a computation.
* `exists_getElem?_of_mapM`: what each of the results is the result of.
* `RelatesOk`: two computations of which the second has a result in relation to that of the first,
  whenever the first has one.
* `YieldsOk`: what holds of a result, along with whether there is one.
* `FirstFailure`: the first item that something fails for, which is what `mapM` fails with
  (`mapM_eq_error_iff`).
-/

namespace Solscope

/-- Whether a property holds of a result, if there is one. -/
def HoldsOfOk {ε α : Type} (P : α → Prop) (x : Except ε α) : Prop := ∀ a, x = .ok a → P a

namespace HoldsOfOk

variable {ε α β γ : Type} {P : β → Prop} {x : Except ε α} {f : α → Except ε β}

theorem pure {b : β} (h : P b) : HoldsOfOk P (Pure.pure b : Except ε β) := by
  intro a ha
  obtain rfl := Except.ok.inj ha
  exact h

theorem error (e : ε) : HoldsOfOk P (.error e : Except ε β) := by
  intro b hb
  cases hb

theorem bind (h : ∀ a, x = .ok a → HoldsOfOk P (f a)) : HoldsOfOk P (x >>= f) := by
  intro b hb
  cases x with
  | error e => cases hb
  | ok a => exact h a rfl b hb

theorem map {g : α → β} (h : HoldsOfOk (fun a => P (g a)) x) : HoldsOfOk P (x.map g) := by
  intro b hb
  cases x with
  | error e => cases hb
  | ok a =>
    obtain rfl := Except.ok.inj hb
    exact h a rfl

theorem mapM {xs : List α} (h : ∀ a ∈ xs, HoldsOfOk P (f a)) :
    HoldsOfOk (fun ys => ∀ b ∈ ys, P b) (xs.mapM f) := by
  induction xs with
  | nil =>
    intro ys hys b hb
    obtain rfl := Except.ok.inj hys
    cases hb
  | cons a as ih =>
    rw [List.mapM_cons]
    refine bind fun b hb => bind fun bs hbs => pure fun c hc => ?_
    rcases List.mem_cons.1 hc with rfl | hc
    · exact h a List.mem_cons_self _ hb
    · exact ih (fun a ha => h a (List.mem_cons_of_mem _ ha)) bs hbs c hc

/-- What each result says of its item, all results say of all items. -/
theorem map_mapM {g : β → γ} {k : α → γ} (xs : List α)
    (h : ∀ a ∈ xs, HoldsOfOk (fun b => g b = k a) (f a)) :
    HoldsOfOk (fun ys => ys.map g = xs.map k) (xs.mapM f) := by
  induction xs with
  | nil => exact pure rfl
  | cons a as ih =>
    obtain ⟨hfirst, hrest⟩ := List.forall_mem_cons.1 h
    rw [List.mapM_cons]
    refine bind fun b hb => bind fun bs hbs => pure ?_
    rw [List.map_cons, List.map_cons, hfirst b hb, ih hrest bs hbs]

end HoldsOfOk

theorem exists_getElem?_of_mapM {ε α β : Type} {f : α → Except ε β} {xs : List α} {ys : List β}
    (h : xs.mapM f = .ok ys) {i : Nat} {y : β} (hy : ys[i]? = some y) :
    ∃ x, xs[i]? = some x ∧ f x = .ok y := by
  induction xs generalizing ys i with
  | nil =>
    obtain rfl := Except.ok.inj h
    cases hy
  | cons x xs ih =>
    rw [List.mapM_cons] at h
    cases hx : f x with
    | error e => rw [hx] at h; cases h
    | ok first =>
      cases hxs : xs.mapM f with
      | error e => rw [hx, hxs] at h; cases h
      | ok rest =>
        rw [hx, hxs] at h
        obtain rfl := Except.ok.inj h
        cases i with
        | zero =>
          obtain rfl := Option.some.inj hy
          exact ⟨x, rfl, hx⟩
        | succ i => exact ih hxs hy

/-- Where one computation has a result, another one has a result in relation to it. -/
def RelatesOk {ε α β : Type} (R : α → β → Prop) (x : Except ε α) (y : Except ε β) : Prop :=
  ∀ a, x = .ok a → ∃ b, y = .ok b ∧ R a b

namespace RelatesOk

variable {ε α β γ δ : Type} {R : α → β → Prop} {S : γ → δ → Prop} {x : Except ε α} {y : Except ε β}

theorem pure {a : α} {b : β} (h : R a b) :
    RelatesOk R (Pure.pure a : Except ε α) (Pure.pure b : Except ε β) := by
  intro a' ha'
  obtain rfl := Except.ok.inj ha'
  exact ⟨b, rfl, h⟩

theorem error (e : ε) (y : Except ε β) : RelatesOk R (.error e) y := by
  intro a ha
  cases ha

theorem bind {f : α → Except ε γ} {g : β → Except ε δ} (h : RelatesOk R x y)
    (hfg : ∀ a b, R a b → RelatesOk S (f a) (g b)) : RelatesOk S (x >>= f) (y >>= g) := by
  intro c hc
  cases x with
  | error e => cases hc
  | ok a =>
    obtain ⟨b, rfl, hab⟩ := h a rfl
    exact hfg a b hab c hc

/-- What two computations have in common they begin with. -/
theorem same {f : α → Except ε γ} {g : α → Except ε δ} (h : ∀ a, RelatesOk S (f a) (g a)) :
    RelatesOk S (x >>= f) (x >>= g) := by
  intro c hc
  cases x with
  | error e => cases hc
  | ok a => exact h a c hc

theorem map {f : α → γ} {g : β → δ} (h : RelatesOk R x y) (hfg : ∀ a b, R a b → S (f a) (g b)) :
    RelatesOk S (x.map f) (y.map g) := by
  intro c hc
  cases x with
  | error e => cases hc
  | ok a =>
    obtain rfl := Except.ok.inj hc
    obtain ⟨b, rfl, hab⟩ := h a rfl
    exact ⟨g b, rfl, hfg a b hab⟩

end RelatesOk

/-- Whether a property holds of a result, and whether there is a result where one is `sure`. -/
def YieldsOk {ε α : Type} (sure : Prop) (P : α → Prop) : Except ε α → Prop
  | .ok a => P a
  | .error _ => ¬ sure

namespace YieldsOk

variable {ε α β : Type} {sure : Prop} {P : α → Prop} {Q : β → Prop} {x : Except ε α}

theorem pure {a : α} (h : P a) : YieldsOk sure P (Pure.pure a : Except ε α) := h

theorem bind {f : α → Except ε β} (h : YieldsOk sure P x) (hf : ∀ a, P a → YieldsOk sure Q (f a)) :
    YieldsOk sure Q (x >>= f) := by
  cases x with
  | error e => exact h
  | ok a => exact hf a h

/-- Where there is a result, it is what it is. -/
theorem of_exists (h : sure → ∃ a, x = .ok a) : YieldsOk sure (fun a => x = .ok a) x := by
  cases x with
  | error e =>
    intro hsure
    obtain ⟨a, ha⟩ := h hsure
    cases ha
  | ok a => rfl

/-- Where a result is sure for less, it is for more. -/
theorem of_imp {more : Prop} (h : YieldsOk sure P x) (himp : more → sure) : YieldsOk more P x := by
  cases x with
  | error e => exact fun hmore => h (himp hmore)
  | ok a => exact h

theorem holds (h : YieldsOk sure P x) : HoldsOfOk P x := by
  rintro a rfl
  exact h

theorem exists_ok (h : YieldsOk sure P x) (hsure : sure) : ∃ a, x = .ok a ∧ P a := by
  cases x with
  | error e => exact absurd hsure h
  | ok a => exact ⟨a, rfl, h⟩

end YieldsOk

/-! ## The first failure -/

/-- The first item that something fails for, it fails for with `e`. -/
def FirstFailure {α β ε : Type} (f : α → Except ε β) (xs : List α) (e : ε) : Prop :=
  ∃ before x after, xs = before ++ x :: after ∧ (∀ y ∈ before, ∃ b, f y = .ok b) ∧ f x = .error e

section

variable {α β ε : Type} {f : α → Except ε β} {xs : List α} {e : ε}

theorem firstFailure_cons_iff {x : α} :
    FirstFailure f (x :: xs) e ↔ f x = .error e ∨ (∃ b, f x = .ok b) ∧ FirstFailure f xs e := by
  constructor
  · rintro ⟨before, y, after, hxs, hbefore, hy⟩
    cases before with
    | nil =>
      obtain ⟨rfl, -⟩ := List.cons.inj hxs
      exact .inl hy
    | cons first before =>
      obtain ⟨rfl, rfl⟩ := List.cons.inj hxs
      obtain ⟨hfirst, hbefore⟩ := List.forall_mem_cons.1 hbefore
      exact .inr ⟨hfirst, before, y, after, rfl, hbefore, hy⟩
  · rintro (hx | ⟨hx, before, y, after, rfl, hbefore, hy⟩)
    · exact ⟨[], x, xs, rfl, by simp, hx⟩
    · exact ⟨x :: before, y, after, rfl, List.forall_mem_cons.2 ⟨hx, hbefore⟩, hy⟩

theorem mapM_eq_error_iff : xs.mapM f = .error e ↔ FirstFailure f xs e := by
  induction xs with
  | nil =>
    refine iff_of_false (fun h => nomatch h) ?_
    rintro ⟨before, x, after, hxs, -⟩
    cases before <;> cases hxs
  | cons x xs ih =>
    rw [firstFailure_cons_iff, ← ih, List.mapM_cons]
    cases f x with
    | error e' => simp [bind, Except.bind]
    | ok b => cases xs.mapM f <;> simp [bind, Except.bind, pure, Except.pure]

theorem exists_firstFailure {x : α} (hx : x ∈ xs) (h : f x = .error e) :
    ∃ e', FirstFailure f xs e' := by
  induction xs with
  | nil => cases hx
  | cons y xs ih =>
    cases hy : f y with
    | error e' => exact ⟨e', firstFailure_cons_iff.2 (.inl hy)⟩
    | ok b =>
      rcases List.mem_cons.1 hx with rfl | hx
      · rw [hy] at h
        cases h
      · obtain ⟨e', he'⟩ := ih hx
        exact ⟨e', firstFailure_cons_iff.2 (.inr ⟨⟨b, hy⟩, he'⟩)⟩

/-- Something fails for no item just if it succeeds for all of them. -/
theorem forall_ok_iff : (∀ x ∈ xs, ∃ b, f x = .ok b) ↔ ∀ e, ¬ FirstFailure f xs e := by
  constructor
  · rintro h e ⟨before, x, after, rfl, -, hx⟩
    obtain ⟨b, hb⟩ := h x (by simp)
    rw [hx] at hb
    cases hb
  · intro h x hx
    cases hfx : f x with
    | ok b => exact ⟨b, rfl⟩
    | error e =>
      obtain ⟨e', he'⟩ := exists_firstFailure hx hfx
      exact absurd he' (h e')

theorem firstFailure_append_iff {ys : List α} :
    FirstFailure f (xs ++ ys) e ↔
      FirstFailure f xs e ∨ (∀ x ∈ xs, ∃ b, f x = .ok b) ∧ FirstFailure f ys e := by
  induction xs with
  | nil =>
    have hnone : ¬ FirstFailure f [] e := forall_ok_iff.1 (by simp) e
    simp [hnone]
  | cons x xs ih =>
    rw [List.cons_append, firstFailure_cons_iff, firstFailure_cons_iff, ih, List.forall_mem_cons]
    tauto

/-- Where items fail with the first of their parts, the first item fails with the first part. -/
theorem firstFailure_flatMap_iff {γ δ : Type} {g : γ → Except ε δ} {parts : γ → List α}
    {items : List γ} (h : ∀ x e, g x = .error e ↔ FirstFailure f (parts x) e) :
    FirstFailure g items e ↔ FirstFailure f (items.flatMap parts) e := by
  have hok (x : γ) : (∃ d, g x = .ok d) ↔ ∀ part ∈ parts x, ∃ b, f part = .ok b := by
    rw [forall_ok_iff]
    simp only [← h]
    cases g x <;> simp
  induction items with
  | nil =>
    have hnone : ¬ FirstFailure g [] e := forall_ok_iff.1 (by simp) e
    have hnone' : ¬ FirstFailure f [] e := forall_ok_iff.1 (by simp) e
    simp [hnone, hnone']
  | cons x items ih =>
    have hrest : FirstFailure g items e ↔ FirstFailure f (items.flatMap parts) e := ih
    rw [List.flatMap_cons, firstFailure_cons_iff, firstFailure_append_iff, hrest, h, hok]

theorem mapM_of_forall₂ {ys : List β} (h : List.Forall₂ (fun x y => f x = .ok y) xs ys) :
    xs.mapM f = .ok ys := by
  induction h with
  | nil => rfl
  | cons hx _ ih =>
    rw [List.mapM_cons, hx, ih]
    rfl

end

end Solscope
