import Solscope.Layout.Extent
import Solscope.Proofs.Ty.Resolution

/-!
# References to structs

A struct inside itself is a reference, which counts the references followed to get to it
(`Ty.RefsAt`). Two bounds keep a type from being unfolded without end: the count, after which
references stand for nothing, and the budget of whoever unfolds. The count is the one that matters.

* `Declared.refs_of_resolveNested`: the references in a type are one further than the type, and to
  structs that descriptors name.
* `Declared.unfoldWithin_succ`: **more budget than references can be followed changes nothing.**
* `Declared.unfold_eq`: unfolding is a recursion without a bound, therefore.
* `Declared.slots_structRef`: a reference takes as many slots as what it stands for.
* `Declared.follow?_shape`: what a reference stands for is neither a value nor a reference.
-/

namespace Solscope

namespace Ty

/-- The references inside a type are each the last of `n` that have been followed. -/
def RefsAt (n : Nat) (t : Ty) : Prop := ∀ r, structRef r ∈ t.parts → r.unfolds = n

/-- The slots of a type depend on the references inside it only. -/
theorem slotsWith_congr {f g : StructRef → Nat} {t : Ty}
    (h : ∀ r, structRef r ∈ t.parts → f r = g r) : slotsWith f t = slotsWith g t := by
  refine byKindWith (motive := fun t => slotsWith f t = slotsWith g t) ?value rfl rfl ?struct
    (fun r hr => hr) ?staticArray (fun _ _ => rfl) (fun _ _ _ _ => rfl) h
  case value =>
    intro t hv
    cases t <;> first | rfl | cases hv
  case struct =>
    intro name fields ih
    have hend : ∀ c, endOfFields f c fields = endOfFields g c fields := by
      induction fields with
      | nil => exact fun c => rfl
      | cons field rest ihrest =>
        obtain ⟨hfield, hrest⟩ := List.forall_mem_cons.1 ih
        intro c
        rw [endOfFields, endOfFields, hfield]
        exact ihrest hrest _
    rw [slotsWith, slotsWith, hend]
  case staticArray =>
    intro element length ih
    rw [slotsWith, slotsWith, ih]

end Ty

namespace Declared

variable {types : Declared} {contract : Option String}

/-! ## How far references are -/

/-- A reference inside a type is one further than the type, and to a struct that is named. -/
theorem refs_of_resolveNested {depth : Nat} {around : Expansion} {descriptor : List Char} {t : Ty}
    (h : types.resolveNested depth around contract descriptor = some t) {r : StructRef}
    (hr : .structRef r ∈ t.parts) :
    r.unfolds = around.unfolds + 1 ∧ ∃ contract s, types.IsNamed contract s ∧ r.name = s.name := by
  -- descriptors inside a descriptor are resolved with the same count
  refine resolved_induction (motive := fun around t => ∀ r, .structRef r ∈ t.parts →
    r.unfolds = around.unfolds + 1 ∧ ∃ contract s, types.IsNamed contract s ∧ r.name = s.name)
    ?scalar ?structRef ?struct ?staticArray ?dynamicArray ?mapping h r hr
  case scalar =>
    intro around t ht r hr
    rcases ht with hvalue | rfl | rfl
    · rw [Ty.parts_of_isValue hvalue] at hr
      obtain rfl := List.mem_singleton.1 hr
      cases hvalue
    · simp [Ty.parts] at hr
    · simp [Ty.parts] at hr
  case structRef =>
    intro around contract s hs _ r hr
    obtain rfl : r = _ := by simpa [Ty.parts] using hr
    exact ⟨rfl, contract, s, hs, rfl⟩
  case struct =>
    intro around contract s fields _ _ ih r hr
    obtain ⟨f, hf, hr⟩ := Ty.mem_partsOfFields.1 (List.mem_of_ne_of_mem (by rintro ⟨⟩) hr)
    exact ih f hf r hr
  case staticArray =>
    intro around element length ih r hr
    exact ih r (List.mem_of_ne_of_mem (by rintro ⟨⟩) hr)
  case dynamicArray =>
    intro around element ih r hr
    exact ih r (List.mem_of_ne_of_mem (by rintro ⟨⟩) hr)
  case mapping =>
    intro around k v ihk ihv r hr
    rcases List.mem_append.1 (List.mem_of_ne_of_mem (by rintro ⟨⟩) hr) with hr | hr
    · exact ihk r hr
    · exact ihv r hr

/-- The references in a type are one further than the type itself. -/
theorem refsAt_of_resolveNested {depth : Nat} {around : Expansion} {descriptor : List Char} {t : Ty}
    (h : types.resolveNested depth around contract descriptor = some t) :
    t.RefsAt (around.unfolds + 1) := fun _ hr =>
  (refs_of_resolveNested h hr).1

theorem unfolds_of_resolveNested {depth : Nat} {around : Expansion} {descriptor : List Char}
    {r : StructRef}
    (h : types.resolveNested depth around contract descriptor = some (.structRef r)) :
    r.unfolds = around.unfolds + 1 :=
  refsAt_of_resolveNested h r (Ty.mem_parts_self _)

/-! ## Following references -/

variable {α : Type} {stuck : StructRef → α} {go : (StructRef → α) → Ty → α}

theorem refsAt_of_follow? {r : StructRef} {t : Ty} (h : types.follow? r = some t) :
    t.RefsAt (r.unfolds + 1) := by
  unfold follow? at h
  split at h
  · cases h
  · exact refsAt_of_resolveNested h

/-- **More budget than references can be followed changes nothing.** -/
theorem unfoldWithin_succ
    (hgo : ∀ f g t, (∀ r, .structRef r ∈ t.parts → f r = g r) → go f t = go g t) {budget : Nat}
    {t : Ty} (h : ∀ r, .structRef r ∈ t.parts → unfoldLimit < r.unfolds + budget) :
    types.unfoldWithin stuck go (budget + 1) t = types.unfoldWithin stuck go budget t := by
  -- on the budget: every reference followed takes one of it and is counted
  induction budget generalizing t with
  | zero =>
    refine hgo _ _ t fun r hr => ?_
    have hnone : types.follow? r = none := if_pos (h r hr)
    rw [hnone]
  | succ budget ih =>
    refine hgo _ _ t fun r hr => ?_
    cases hfollow : types.follow? r with
    | none => rfl
    | some t' =>
      refine ih fun r' hr' => ?_
      have hcount := refsAt_of_follow? hfollow r' hr'
      have hlimit := h r hr
      omega

/--
What holds where a reference stands for nothing, and of every result that is computed from results
of which it holds, holds of what is unfolded.
-/
theorem unfoldWithin_holds {Q : α → Prop} (hstuck : ∀ r, Q (stuck r))
    (hgo : ∀ ofRef, (∀ r, Q (ofRef r)) → ∀ t, Q (go ofRef t)) (budget : Nat) (t : Ty) :
    Q (types.unfoldWithin stuck go budget t) := by
  induction budget generalizing t with
  | zero => exact hgo stuck hstuck t
  | succ budget ih =>
    refine hgo _ (fun r => ?_) t
    cases types.follow? r with
    | none => exact hstuck r
    | some t => exact ih t

/-- Unfolding is computing with some results for references. -/
theorem exists_unfoldWithin_eq (types : Declared) (stuck : StructRef → α)
    (go : (StructRef → α) → Ty → α) (budget : Nat) :
    ∃ ofRef, ∀ t, types.unfoldWithin stuck go budget t = go ofRef t := by
  cases budget with
  | zero => exact ⟨stuck, fun _ => rfl⟩
  | succ budget => exact ⟨_, fun _ => rfl⟩

/-- A reference has the result for what it stands for, with one less to follow. -/
theorem unfold_structRef (hgo : ∀ f r, go f (.structRef r) = f r) (r : StructRef) :
    types.unfold stuck go (.structRef r) =
      ((types.follow? r).map (types.unfoldWithin stuck go (unfoldLimit - 1))).getD (stuck r) := by
  refine (hgo _ r).trans ?_
  cases types.follow? r <;> rfl

/-- What is computed for the struct that a reference stands for, if it stands for one. -/
def atRef {α : Type} (types : Declared) (stuck : StructRef → α) (f : Ty → α) (r : StructRef) : α :=
  match types.follow? r with
  | some t => f t
  | none => stuck r

/--
**Unfolding is a recursion without a bound.** What is computed for a type is computed from what is
computed, in the same way, for what its references stand for.
-/
theorem unfold_eq (go : (StructRef → α) → Ty → α)
    (hgo : ∀ f g t, (∀ r, .structRef r ∈ t.parts → f r = g r) → go f t = go g t) {n : Nat}
    {t : Ty} (ht : t.RefsAt (n + 1)) :
    types.unfold stuck go t =
      go (types.atRef stuck (types.unfold stuck go)) t := by
  refine hgo _ _ t fun r hr => ?_
  unfold atRef
  cases hfollow : types.follow? r with
  | none => rfl
  | some u =>
    -- the reference took one of the budget of 32, which what it stands for does not need
    refine (unfoldWithin_succ hgo fun r' hr' => ?_).symm
    have hcount := refsAt_of_follow? hfollow r' hr'
    have hfirst := ht r hr
    change 32 < r'.unfolds + 31
    omega

/-- A reference takes as many slots as what it stands for. -/
theorem slots_structRef {r : StructRef} {t : Ty} (h : types.follow? r = some t)
    (hr : 1 ≤ r.unfolds) : types.slots (.structRef r) = types.slots t := by
  have href : (Ty.structRef r).RefsAt (r.unfolds - 1 + 1) := by
    intro r' hr'
    obtain rfl : r' = r := by simpa [Ty.parts] using hr'
    omega
  rw [slots, unfold_eq Ty.slotsWith (fun _ _ _ => Ty.slotsWith_congr) href, Ty.slotsWith, atRef, h]
  rfl

end Declared

/-! ## What references stand for -/

namespace Descriptor

theorem prefix_addWord {start out : List Char} (h : start <+: out) (hne : start ≠ [])
    (word : List Char) : start <+: addWord out word := by
  have hout : out.isEmpty = false := by
    cases out with
    | nil => exact absurd (List.prefix_nil.1 h) hne
    | cons => rfl
  unfold addWord
  split
  · exact h
  split
  · exact h.trans (List.prefix_append _ _)
  · rw [hout]
    exact h.trans (List.prefix_append _ _)

/-- The name of a struct keeps the word in front of it. -/
theorem prefix_normalize_struct (name : String) :
    ['s', 't', 'r', 'u', 'c', 't'] <+: normalize ("struct " ++ name).toList := by
  have hwords : Text.words ("struct " ++ name).toList =
      ['s', 't', 'r', 'u', 'c', 't'] :: Text.words name.toList := by
    rw [String.toList_append]
    rfl
  have hfold : ∀ (words : List (List Char)) (out : List Char),
      ['s', 't', 'r', 'u', 'c', 't'] <+: out →
      ['s', 't', 'r', 'u', 'c', 't'] <+: words.foldl addWord out := by
    intro words
    induction words with
    | nil => exact fun _ h => h
    | cons word rest ih => exact fun out h => ih _ (prefix_addWord h (by simp) word)
  rw [normalize, hwords, List.foldl_cons]
  exact hfold _ _ (by decide)

variable {descriptor : List Char}

theorem elementary?_eq_none_of_struct (h : ['s', 't', 'r', 'u', 'c', 't'] <+: descriptor) :
    elementary? descriptor = none := by
  obtain ⟨rest, rfl⟩ := h
  have hword : ∀ text : String, ¬ ['s', 't', 'r', 'u', 'c', 't'] <+: text.toList →
      String.ofList (['s', 't', 'r', 'u', 'c', 't'] ++ rest) ≠ text := by
    rintro _ hnot rfl
    rw [String.toList_ofList] at hnot
    exact hnot (List.prefix_append _ _)
  unfold elementary?
  split
  all_goals first | exact absurd ‹_› (hword _ (by decide)) | rfl

theorem enum?_eq_none_of_struct (h : ['s', 't', 'r', 'u', 'c', 't'] <+: descriptor) :
    enum? descriptor = none := by
  obtain ⟨rest, rfl⟩ := h
  rfl

theorem contract?_eq_none_of_struct (h : ['s', 't', 'r', 'u', 'c', 't'] <+: descriptor) :
    contract? descriptor = none := by
  obtain ⟨rest, rfl⟩ := h
  rfl

end Descriptor

namespace Declared

/-- **What a reference stands for is neither a value nor a reference.** -/
theorem follow?_shape {types : Declared} {r : StructRef} {t : Ty} (h : types.follow? r = some t) :
    t.isValue = false ∧ ∀ r', t ≠ .structRef r' := by
  unfold follow? at h
  split at h
  · cases h
  have hstruct := Descriptor.prefix_normalize_struct r.name
  refine ⟨?_, fun r' hr' => absurd ((resolveNested_shape h).2 r' hr') List.not_mem_nil⟩
  cases names_of_resolveNested h with
  | mapping | dynamicArray | staticArray => rfl
  | elementary ht => rw [Descriptor.elementary?_eq_none_of_struct hstruct] at ht; cases ht
  | struct => rfl
  | enum he => rw [Descriptor.enum?_eq_none_of_struct hstruct] at he; cases he
  | contract hc => rw [Descriptor.contract?_eq_none_of_struct hstruct] at hc; cases hc

end Declared

end Solscope
