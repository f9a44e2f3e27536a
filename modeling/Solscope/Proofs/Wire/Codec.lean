import Solscope.Proofs.Json.Values
import Solscope.Proofs.Text.Integer

/-!
# What is written and read again

Data are written as JSON, or as a field of a record, which may be absent. What is read from that
are the same data.

* `RoundTrips`: how a way of writing and a way of reading belong together.
* `RoundTrips.string`, `size`, `char`: scalars.
* `RoundTrips.value`, `attributes`: free values, alone and by name.
* `RoundTrips.list`, `nullable`: what is made of others.
* `RoundTrips.required`, `defaulting`, `optional`: fields of a record.
* `Json.recordOfTwo_eq_some_iff` and so on: a record is read if all of its fields can be read.
-/

namespace Solscope

/-! ## Round trips -/

/-- Data are written and read again. What fits is read as it was written, and what is read fits. -/
structure RoundTrips {J α : Type} (write : α → J) (read : J → Option α) (Fits : α → Prop) :
    Prop where
  read_write {a : α} : Fits a → read (write a) = some a
  fits {j : J} {a : α} : read j = some a → Fits a

namespace Json

theorem asSize?_nat {n : Nat} (h : n ≤ Size.largest) : asSize? (.nat n) = some n := by
  have hread : Text.readSize (toString n).toList = .ok n :=
    Text.readNat_eq_ok_iff.2 ⟨.inl (Text.spellsNat_repr n), h⟩
  rw [nat, asSize?, hread]
  rfl

theorem le_of_asSize? {j : Json} {n : Nat} (h : asSize? j = some n) : n ≤ Size.largest := by
  unfold asSize? at h
  split at h
  · rename_i spelling
    cases hread : Text.readSize spelling.toList with
    | error e =>
      rw [hread] at h
      cases h
    | ok m =>
      rw [hread] at h
      obtain rfl := Option.some.inj h
      exact (Text.readNat_eq_ok_iff.1 hread).2
  · cases h

end Json

namespace RoundTrips

open Json

theorem string : RoundTrips .str asStr? (fun _ => True) := ⟨fun _ => rfl, fun _ => trivial⟩

theorem size : RoundTrips .nat asSize? (· ≤ Size.largest) := ⟨asSize?_nat, le_of_asSize?⟩

theorem char : RoundTrips (fun c => .str (String.singleton c)) asChar? (fun _ => True) :=
  ⟨fun {c} _ => by simp [asChar?], fun _ => trivial⟩

section

variable {readValue : Json → Option Json} {reserved : String}

/-- Free values fit if they are read as they are. -/
theorem value (h : IsLossless readValue reserved) :
    RoundTrips id readValue (fun v => readValue v = some v) :=
  ⟨id, h.again⟩

/-- Free values by name. -/
theorem attributes (h : IsLossless readValue reserved) :
    RoundTrips .obj (asMap? readValue)
      (fun entries => entries.Pairwise (fun a b => a.1 < b.1) ∧
        ∀ e ∈ entries, readValue e.2 = some e.2) where
  read_write {entries} hentries := by
    have hmapM : (entries.mapM fun e : String × Json => (readValue e.2).map fun a => (e.1, a)) =
        some entries := by
      rw [mapM_eq_some_iff, List.forall₂_same]
      exact fun e he => by rw [hentries.2 e he, Option.map_some]
    rw [asMap?, hmapM, Option.map_some, Ordered.ofList_eq_self hentries.1]
  fits {j entries} hread := by
    cases j with
    | obj members =>
      obtain ⟨out, hout, rfl⟩ := Option.map_eq_some_iff.1 hread
      refine ⟨Ordered.pairwise_ofList out, fun e he => ?_⟩
      obtain ⟨m, -, hm⟩ := exists_of_mem_mapM hout (Ordered.mem_of_mem_ofList he)
      obtain ⟨v, hv, rfl⟩ := Option.map_eq_some_iff.1 hm
      exact h.again hv
    | _ => cases hread

end

section

variable {α : Type} {write : α → Json} {read : Json → Option α} {Fits : α → Prop}

theorem list (h : RoundTrips write read Fits) :
    RoundTrips (fun as => .arr (as.map write)) (asList? read) (fun as => ∀ a ∈ as, Fits a) where
  read_write {as} has := by
    rw [asList?, mapM_eq_some_iff, List.forall₂_map_left_iff, List.forall₂_same]
    exact fun a ha => h.read_write (has a ha)
  fits {j as} has a ha := by
    cases j with
    | arr items =>
      obtain ⟨item, -, hread⟩ := exists_of_mem_mapM has ha
      exact h.fits hread
    | _ => cases has

theorem nullable (h : RoundTrips write read Fits) (hnull : ∀ a, write a ≠ .null) :
    RoundTrips (Json.option write) (Json.nullable read) (fun o => ∀ a ∈ o, Fits a) where
  read_write {o} ho := by
    cases o with
    | none => rfl
    | some a =>
      rw [Json.option, Json.nullable]
      · rw [h.read_write (ho a rfl)]
        rfl
      · exact hnull a
  fits {j o} hread a ha := by
    obtain rfl := Option.mem_def.1 ha
    unfold Json.nullable at hread
    split at hread
    · cases hread
    · obtain ⟨a', ha', heq⟩ := Option.map_eq_some_iff.1 hread
      obtain rfl := Option.some.inj heq
      exact h.fits ha'

/-! ## Fields of records -/

theorem required (h : RoundTrips write read Fits) :
    RoundTrips (fun a => some (write a)) (Json.required read) Fits where
  read_write := h.read_write
  fits {field a} hread := by
    cases field with
    | none => cases hread
    | some j => exact h.fits hread

/-- A field that is always written, and need not be there to be read. -/
theorem defaulting (h : RoundTrips write read Fits) (absent : α) (hfits : Fits absent) :
    RoundTrips (fun a => some (write a)) (Json.defaulting absent read) Fits where
  read_write := h.read_write
  fits {field a} hread := by
    cases field with
    | none =>
      obtain rfl := Option.some.inj hread
      exact hfits
    | some j => exact h.fits hread

/-- A field that is written only if there is something to write. -/
theorem optional (h : RoundTrips write read Fits) (hnull : ∀ a, write a ≠ .null) :
    RoundTrips (Option.map write) (Json.defaulting none (Json.nullable read))
      (fun o => ∀ a ∈ o, Fits a) where
  read_write {o} ho := by
    cases o with
    | none => rfl
    | some a => exact (h.nullable hnull).read_write ho
  fits := ((h.nullable hnull).defaulting none (by simp)).fits

end

end RoundTrips

/-! ## Records -/

namespace Json

variable {α β γ δ ε ζ ρ : Type} {fields : Option (List (Option Json))} {r : ρ}
  {f₁ : Option Json → Option α} {f₂ : Option Json → Option β} {f₃ : Option Json → Option γ}
  {f₄ : Option Json → Option δ} {f₅ : Option Json → Option ε} {f₆ : Option Json → Option ζ}

/-! A record is read if all of its fields can be read. -/

theorem recordOfTwo_eq_some_iff {mk : α → β → ρ} :
    (do
      let [a, b] ← fields | none
      return mk (← f₁ a) (← f₂ b)) = some r ↔
    ∃ a b, fields = some [a, b] ∧ ∃ x y, f₁ a = some x ∧ f₂ b = some y ∧ mk x y = r := by
  constructor
  · intro h
    obtain ⟨fields, rfl, hread⟩ := Option.bind_eq_some_iff.1 h
    clear h
    split at hread
    · simp only [Option.bind_eq_bind, Option.bind_eq_some_iff, Option.pure_def,
        Option.some.injEq] at hread
      obtain ⟨x, hx, y, hy, hr⟩ := hread
      exact ⟨_, _, rfl, x, y, hx, hy, hr⟩
    · cases hread
  · rintro ⟨a, b, rfl, x, y, hx, hy, rfl⟩
    simp [hx, hy]

theorem recordOfThree_eq_some_iff {mk : α → β → γ → ρ} :
    (do
      let [a, b, c] ← fields | none
      return mk (← f₁ a) (← f₂ b) (← f₃ c)) = some r ↔
    ∃ a b c, fields = some [a, b, c] ∧ ∃ x y z,
      f₁ a = some x ∧ f₂ b = some y ∧ f₃ c = some z ∧ mk x y z = r := by
  constructor
  · intro h
    obtain ⟨fields, rfl, hread⟩ := Option.bind_eq_some_iff.1 h
    clear h
    split at hread
    · simp only [Option.bind_eq_bind, Option.bind_eq_some_iff, Option.pure_def,
        Option.some.injEq] at hread
      obtain ⟨x, hx, y, hy, z, hz, hr⟩ := hread
      exact ⟨_, _, _, rfl, x, y, z, hx, hy, hz, hr⟩
    · cases hread
  · rintro ⟨a, b, c, rfl, x, y, z, hx, hy, hz, rfl⟩
    simp [hx, hy, hz]

theorem recordOfFive_eq_some_iff {mk : α → β → γ → δ → ε → ρ} :
    (do
      let [a, b, c, d, e] ← fields | none
      return mk (← f₁ a) (← f₂ b) (← f₃ c) (← f₄ d) (← f₅ e)) = some r ↔
    ∃ a b c d e, fields = some [a, b, c, d, e] ∧ ∃ x y z v w,
      f₁ a = some x ∧ f₂ b = some y ∧ f₃ c = some z ∧ f₄ d = some v ∧ f₅ e = some w ∧
        mk x y z v w = r := by
  constructor
  · intro h
    obtain ⟨fields, rfl, hread⟩ := Option.bind_eq_some_iff.1 h
    clear h
    split at hread
    · simp only [Option.bind_eq_bind, Option.bind_eq_some_iff, Option.pure_def,
        Option.some.injEq] at hread
      obtain ⟨x, hx, y, hy, z, hz, v, hv, w, hw, hr⟩ := hread
      exact ⟨_, _, _, _, _, rfl, x, y, z, v, w, hx, hy, hz, hv, hw, hr⟩
    · cases hread
  · rintro ⟨a, b, c, d, e, rfl, x, y, z, v, w, hx, hy, hz, hv, hw, rfl⟩
    simp [hx, hy, hz, hv, hw]

theorem recordOfSix_eq_some_iff {mk : α → β → γ → δ → ε → ζ → ρ} :
    (do
      let [a, b, c, d, e, g] ← fields | none
      return mk (← f₁ a) (← f₂ b) (← f₃ c) (← f₄ d) (← f₅ e) (← f₆ g)) = some r ↔
    ∃ a b c d e g, fields = some [a, b, c, d, e, g] ∧ ∃ x y z v w u,
      f₁ a = some x ∧ f₂ b = some y ∧ f₃ c = some z ∧ f₄ d = some v ∧ f₅ e = some w ∧
        f₆ g = some u ∧ mk x y z v w u = r := by
  constructor
  · intro h
    obtain ⟨fields, rfl, hread⟩ := Option.bind_eq_some_iff.1 h
    clear h
    split at hread
    · simp only [Option.bind_eq_bind, Option.bind_eq_some_iff, Option.pure_def,
        Option.some.injEq] at hread
      obtain ⟨x, hx, y, hy, z, hz, v, hv, w, hw, u, hu, hr⟩ := hread
      exact ⟨_, _, _, _, _, _, rfl, x, y, z, v, w, u, hx, hy, hz, hv, hw, hu, hr⟩
    · cases hread
  · rintro ⟨a, b, c, d, e, g, rfl, x, y, z, v, w, u, hx, hy, hz, hv, hw, hu, rfl⟩
    simp [hx, hy, hz, hv, hw, hu]

end Json

end Solscope
