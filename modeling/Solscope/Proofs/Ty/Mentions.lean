import Mathlib.Data.List.Basic
import Solscope.Proofs.Ty.References

/-!
# What the type of a descriptor depends on

Declared types are looked up for the names in a descriptor, for those in the descriptors of the
members of the structs it names, and so on. Where these names stand for the same in other declared
types, so does the descriptor, and everything its references lead to is the same as well.

* `Declared.Mentions`: the descriptors inside a descriptor, members and references included.
* `Declared.Agrees`: other declared types agree on all names that a descriptor comes to.
* `Declared.resolveNested_congr`: **a descriptor names the same type where names agree**.
* `Declared.slots_congr`: and that type takes as many slots.
-/

namespace Solscope.Declared

variable {types others : Declared} {contract : Option String} {descriptor : List Char}

/--
A descriptor, as seen from inside a contract, has another one inside it, which is seen from inside a
contract of its own: that of a key, a value or an element, that of a member of a struct it names, or
the descriptor of such a struct itself, where a reference to it is followed.
-/
inductive Mentions (types : Declared) :
    Option String → List Char → Option String → List Char → Prop
  | self (contract : Option String) (descriptor : List Char) :
      Mentions types contract descriptor contract descriptor
  | key {contract c : Option String} {descriptor key value d : List Char} :
      Descriptor.mapping? (Descriptor.normalize descriptor) = some (key, value) →
      Mentions types contract key c d → Mentions types contract descriptor c d
  | value {contract c : Option String} {descriptor key value d : List Char} :
      Descriptor.mapping? (Descriptor.normalize descriptor) = some (key, value) →
      Mentions types contract value c d → Mentions types contract descriptor c d
  | element {contract c : Option String} {descriptor element size d : List Char} :
      Descriptor.array? (Descriptor.normalize descriptor) = some (element, size) →
      Mentions types contract element c d → Mentions types contract descriptor c d
  | member {contract c : Option String} {descriptor d : List Char} {name : String} {s : StructDecl}
      {m : String × String} :
      Descriptor.struct? (Descriptor.normalize descriptor) = some name →
      lookup? types.structs contract name = some s → m ∈ s.members →
      Mentions types (s.scope.or contract) m.2.toList c d → Mentions types contract descriptor c d
  | reference {contract c : Option String} {descriptor d : List Char} {name : String}
      {s : StructDecl} :
      Descriptor.struct? (Descriptor.normalize descriptor) = some name →
      lookup? types.structs contract name = some s →
      Mentions types (s.scope.or contract) ("struct " ++ s.name).toList c d →
      Mentions types contract descriptor c d

/-- The names that a descriptor comes to stand for the same in other declared types. -/
def Agrees (types others : Declared) (contract : Option String) (descriptor : List Char) : Prop :=
  ∀ c d, types.Mentions contract descriptor c d →
    (∀ name, Descriptor.struct? (Descriptor.normalize d) = some name →
      lookup? others.structs c name = lookup? types.structs c name) ∧
    ∀ name, Descriptor.enum? (Descriptor.normalize d) = some name →
      lookup? others.enums c name = lookup? types.enums c name

/-- **A descriptor names the same type** in declared types that agree on its names. -/
theorem resolveNested_congr {depth : Nat} {around : Expansion}
    (h : types.Agrees others contract descriptor) :
    others.resolveNested depth around contract descriptor =
      types.resolveNested depth around contract descriptor := by
  induction depth generalizing around contract descriptor with
  | zero => rfl
  | succ depth ih =>
    obtain ⟨hstructs, henums⟩ := h contract descriptor (.self _ _)
    have hid : IsChange id := ⟨fun _ _ => rfl, fun _ _ => rfl, fun _ => rfl, fun _ _ => rfl⟩
    refine (resolveNested_succ_map hid (fun key value hsides => ?_) (fun element size hcut => ?_)
      (fun name hname => ⟨hstructs name hname, fun s hs => ?_⟩) henums).trans Option.map_id_apply
    · rw [ih fun c d hd => h c d (.key hsides hd), ih fun c d hd => h c d (.value hsides hd)]
      simp
    · rw [ih fun c d hd => h c d (.element hcut hd)]
      simp
    · unfold structTy
      split
      · rfl
      · refine congrArg (Ty.struct s.name) (List.filterMap_congr fun m hm => ?_)
        exact congrArg (fun ty => ty.map fun t => (m.1, t))
          (ih fun c d hd => h c d (.member hname hs hm hd))

/-! ## References -/

/-- Following a reference inside a type, one comes to names of its descriptor only. -/
theorem agrees_of_ref {depth : Nat} {around : Expansion} {t : Ty}
    (ht : types.resolveNested depth around contract descriptor = some t)
    (h : types.Agrees others contract descriptor) {r : StructRef} (hr : .structRef r ∈ t.parts) :
    types.Agrees others r.scope ("struct " ++ r.name).toList := by
  induction depth generalizing around contract descriptor t with
  | zero => cases ht
  | succ depth ih =>
    cases names_of_resolveNested ht with
    | mapping hsides hk hv =>
      rcases List.mem_append.1 (List.mem_of_ne_of_mem (by rintro ⟨⟩) hr) with hr | hr
      · exact ih hk (fun c d hd => h c d (.key hsides hd)) hr
      · exact ih hv (fun c d hd => h c d (.value hsides hd)) hr
    | dynamicArray hcut helement | staticArray hcut helement =>
      exact ih helement (fun c d hd => h c d (.element hcut hd))
        (List.mem_of_ne_of_mem (by rintro ⟨⟩) hr)
    | elementary hscalar =>
      rw [Descriptor.elementary?_parts hscalar] at hr
      exact absurd (List.mem_singleton.1 hr).symm ((Descriptor.elementary?_shape hscalar).2 r)
    | struct hname hs =>
      unfold structTy at hr
      split at hr
      · obtain rfl : r = _ := by simpa [Ty.parts] using hr
        exact fun c d hd => h c d (.reference hname hs hd)
      · obtain ⟨f, hf, hr⟩ :=
          Ty.mem_partsOfFields.1 (List.mem_of_ne_of_mem (by rintro ⟨⟩) hr)
        obtain ⟨m, hm, hmember⟩ := List.mem_filterMap.1 hf
        obtain ⟨t, ht, rfl⟩ := Option.map_eq_some_iff.1 hmember
        exact ih ht (fun c d hd => h c d (.member hname hs hm hd)) hr
    | enum | contract => simp [Ty.parts] at hr

/-- All references inside a type agree in what they stand for. -/
def RefsAgree (types others : Declared) (t : Ty) : Prop :=
  ∀ r, .structRef r ∈ t.parts → types.Agrees others r.scope ("struct " ++ r.name).toList

theorem follow?_congr {r : StructRef}
    (h : types.Agrees others r.scope ("struct " ++ r.name).toList) :
    others.follow? r = types.follow? r := by
  rw [follow?, follow?, resolveNested_congr h]

/-- **What is computed along references is the same** where they agree. -/
theorem unfoldWithin_congr {α : Type} {stuck : StructRef → α} {go : (StructRef → α) → Ty → α}
    (hgo : ∀ f g t, (∀ r, .structRef r ∈ t.parts → f r = g r) → go f t = go g t) {budget : Nat}
    {t : Ty} (h : types.RefsAgree others t) :
    others.unfoldWithin stuck go budget t = types.unfoldWithin stuck go budget t := by
  induction budget generalizing t with
  | zero => rfl
  | succ budget ih =>
    refine hgo _ _ t fun r hr => ?_
    rw [follow?_congr (h r hr)]
    cases hfollow : types.follow? r with
    | none => rfl
    | some u =>
      unfold follow? at hfollow
      split at hfollow
      · cases hfollow
      · exact ih fun r' hr' => agrees_of_ref hfollow (h r hr) hr'

/-- **A type takes as many slots** where its references agree. -/
theorem slots_congr {t : Ty} (h : types.RefsAgree others t) : others.slots t = types.slots t :=
  unfoldWithin_congr (fun _ _ _ => Ty.slotsWith_congr) h

end Solscope.Declared
