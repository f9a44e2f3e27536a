import Mathlib.Data.List.Nodup
import Solscope.Proofs.Ty.Names

/-!
# How far types unfold

The definitions of structs may refer to each other in any way. The type of a descriptor is a finite
tree all the same, in which a struct inside itself is a reference. Following a reference gives a tree
of the same kind, and references can only be followed so often.

* `Ty.WellNested`: no struct inside itself, and references to structs around them only.
* `Declared.nestedIn_of_resolveNested`: what descriptors name is well nested.
* `Declared.Leads`: the types that a number of references lead to.
* `Declared.follow?_eq`: what a reference stands for, and when it stands for nothing.
* `Declared.same_of_follow?`: a reference to a struct stands for the type of that struct.
* `Declared.wellFounded_opens`: **there is no way down a type without an end**, be it to members,
  elements, keys and values, or to what references stand for.
-/

namespace Solscope

namespace Ty

/-- A type stands in another one, inside the structs of some names, the outermost one first. -/
inductive Inside : Ty → List String → Ty → Prop
  | self (t : Ty) : Inside t [] t
  | field {name : String} {fields : List (String × Ty)} {f : String × Ty} {path : List String}
      {u : Ty} : f ∈ fields → Inside f.2 path u → Inside (struct name fields) (name :: path) u
  | staticArray {element : Ty} {length : Nat} {path : List String} {u : Ty} :
      Inside element path u → Inside (staticArray element length) path u
  | dynamicArray {element : Ty} {path : List String} {u : Ty} :
      Inside element path u → Inside (dynamicArray element) path u
  | key {k v : Ty} {path : List String} {u : Ty} : Inside k path u → Inside (mapping k v) path u
  | value {k v : Ty} {path : List String} {u : Ty} : Inside v path u → Inside (mapping k v) path u

theorem Inside.mem_parts {t u : Ty} {path : List String} (h : t.Inside path u) : u ∈ t.parts := by
  induction h with
  | self t => exact t.mem_parts_self
  | field hf _ ih => exact List.mem_cons_of_mem _ (mem_partsOfFields.2 ⟨_, hf, ih⟩)
  | staticArray _ ih | dynamicArray _ ih => exact List.mem_cons_of_mem _ ih
  | key _ ih => exact List.mem_cons_of_mem _ (List.mem_append_left _ ih)
  | value _ ih => exact List.mem_cons_of_mem _ (List.mem_append_right _ ih)

/--
Inside structs of the names `around`, the outermost one first, a type has no struct of the name of
one around it, and references to structs around them only.
-/
structure NestedIn (around : List String) (t : Ty) : Prop where
  distinct : ∀ path name fields, t.Inside path (.struct name fields) →
    (around ++ path ++ [name]).Nodup
  enclosed : ∀ path r, t.Inside path (.structRef r) → r.name ∈ around ++ path

/-- No struct is inside one of its name, and references are to structs around them only. -/
def WellNested (t : Ty) : Prop := t.NestedIn []

namespace NestedIn

variable {around : List String} {element k v : Ty}

theorem scalar {t : Ty} (ht : t.isValue = true ∨ t = .bytes ∨ t = .string) : t.NestedIn around where
  distinct path name fields hin := by
    cases hin <;> simp_all [isValue]
  enclosed path r hin := by
    cases hin <;> simp_all [isValue]

theorem structRef {r : StructRef} (h : r.name ∈ around) : (structRef r).NestedIn around where
  distinct path name fields hin := by cases hin
  enclosed path r' hin := by
    cases hin
    simpa using h

theorem struct {name : String} {fields : List (String × Ty)} (hnodup : (around ++ [name]).Nodup)
    (h : ∀ f ∈ fields, f.2.NestedIn (around ++ [name])) : (struct name fields).NestedIn around where
  distinct path name' fields' hin := by
    cases hin with
    | self => simpa using hnodup
    | field hf hin => simpa using (h _ hf).distinct _ _ _ hin
  enclosed path r hin := by
    cases hin with
    | field hf hin => simpa using (h _ hf).enclosed _ _ hin

theorem staticArray {length : Nat} (h : element.NestedIn around) :
    (staticArray element length).NestedIn around where
  distinct path name fields hin := by
    cases hin with
    | staticArray hin => exact h.distinct _ _ _ hin
  enclosed path r hin := by
    cases hin with
    | staticArray hin => exact h.enclosed _ _ hin

theorem dynamicArray (h : element.NestedIn around) : (dynamicArray element).NestedIn around where
  distinct path name fields hin := by
    cases hin with
    | dynamicArray hin => exact h.distinct _ _ _ hin
  enclosed path r hin := by
    cases hin with
    | dynamicArray hin => exact h.enclosed _ _ hin

theorem mapping (hk : k.NestedIn around) (hv : v.NestedIn around) :
    (mapping k v).NestedIn around where
  distinct path name fields hin := by
    cases hin with
    | key hin => exact hk.distinct _ _ _ hin
    | value hin => exact hv.distinct _ _ _ hin
  enclosed path r hin := by
    cases hin with
    | key hin => exact hk.enclosed _ _ hin
    | value hin => exact hv.enclosed _ _ hin

end NestedIn

/-! ## Types but for the count of their references -/

mutual

/-- A type with the same count for all references. -/
def withUnfolds (n : Nat) : Ty → Ty
  | struct name fields => struct name (fieldsWithUnfolds n fields)
  | structRef r => structRef { r with unfolds := n }
  | staticArray element length => staticArray (withUnfolds n element) length
  | dynamicArray element => dynamicArray (withUnfolds n element)
  | mapping key value => mapping (withUnfolds n key) (withUnfolds n value)
  | t => t

/-- The members of a struct with the same count for all references. -/
def fieldsWithUnfolds (n : Nat) : List (String × Ty) → List (String × Ty)
  | [] => []
  | (name, t) :: rest => (name, withUnfolds n t) :: fieldsWithUnfolds n rest

end

theorem fieldsWithUnfolds_eq (n : Nat) (fields : List (String × Ty)) :
    fieldsWithUnfolds n fields = fields.map fun f => (f.1, f.2.withUnfolds n) := by
  induction fields with
  | nil => rfl
  | cons f rest ih => rw [fieldsWithUnfolds, ih, List.map_cons]

theorem withUnfolds_scalar (n : Nat) {t : Ty} (ht : t.isValue = true ∨ t = .bytes ∨ t = .string) :
    t.withUnfolds n = t := by
  rcases ht with ht | rfl | rfl
  · cases t <;> first | rfl | cases ht
  · rfl
  · rfl

/-- The count of references makes no difference. -/
theorem same_withUnfolds (n : Nat) (t : Ty) : (t.withUnfolds n).same t = true := by
  induction t using byKind with
  | value t hv =>
    rw [withUnfolds_scalar n (.inl hv)]
    cases t with
    | bytes | string | struct | structRef | staticArray | dynamicArray | mapping => cases hv
    | _ => simp [same]
  | bytes | string => rfl
  | struct name fields ih =>
    have hfields : sameFields (fieldsWithUnfolds n fields) fields = true := by
      induction fields with
      | nil => rfl
      | cons f rest ihrest =>
        obtain ⟨hfirst, hrest⟩ := List.forall_mem_cons.1 ih
        simp [fieldsWithUnfolds, sameFields, hfirst, ihrest hrest]
    simp [withUnfolds, same, hfields]
  | structRef r => simp [withUnfolds, same]
  | staticArray element length ih => simp [withUnfolds, same, ih]
  | dynamicArray element ih => simp [withUnfolds, same, ih]
  | mapping k v ihk ihv => simp [withUnfolds, same, ihk, ihv]

end Ty

namespace Declared

variable {types : Declared} {contract : Option String}

/-- **What descriptors name is well nested**, inside the structs that are being resolved. -/
theorem nestedIn_of_resolveNested {depth : Nat} {around : Expansion} {descriptor : List Char}
    {t : Ty} (h : types.resolveNested depth around contract descriptor = some t)
    (hnodup : around.structs.Nodup) : t.NestedIn around.structs.reverse := by
  refine resolved_induction
    (motive := fun around t => around.structs.Nodup → t.NestedIn around.structs.reverse)
    ?scalar ?structRef ?struct ?staticArray ?dynamicArray ?mapping h hnodup
  case scalar => exact fun _ _ ht _ => .scalar ht
  case structRef => exact fun _ _ _ _ hmem _ => .structRef (List.mem_reverse.2 hmem)
  case struct =>
    intro around contract s fields _ hnew ih hnodup
    have hcons : (s.name :: around.structs).Nodup := List.nodup_cons.2 ⟨hnew, hnodup⟩
    refine .struct ?_ fun f hf => ?_
    · rw [← List.reverse_cons]
      exact List.nodup_reverse.2 hcons
    · rw [← List.reverse_cons]
      exact ih f hf hcons
  case staticArray => exact fun _ _ _ ih hnodup => .staticArray (ih hnodup)
  case dynamicArray => exact fun _ _ ih hnodup => .dynamicArray (ih hnodup)
  case mapping => exact fun _ _ _ ihk ihv hnodup => .mapping (ihk hnodup) (ihv hnodup)

theorem isChange_withUnfolds (n : Nat) : IsChange (Ty.withUnfolds n) where
  scalar _ ht := Ty.withUnfolds_scalar n ht
  staticArray _ _ := rfl
  dynamicArray _ := rfl
  mapping _ _ := rfl

theorem structTy_withUnfolds {s : StructDecl} {structs : List String} {m n : Nat}
    {resolve resolve' : Expansion → Option String → List Char → Option Ty}
    (h : ∀ structs contract descriptor, resolve' ⟨structs, n⟩ contract descriptor =
      (resolve ⟨structs, m⟩ contract descriptor).map (Ty.withUnfolds (n + 1))) :
    structTy s contract ⟨structs, n⟩ resolve' =
      (structTy s contract ⟨structs, m⟩ resolve).withUnfolds (n + 1) := by
  unfold structTy
  dsimp only
  split
  · rfl
  · rw [Ty.withUnfolds, Ty.fieldsWithUnfolds_eq, List.map_filterMap]
    congr 2
    funext member
    rw [h, Option.map_map, Option.map_map]
    rfl

/-- What a descriptor names depends on the references followed in the count of references only. -/
theorem resolveNested_withUnfolds (depth : Nat) (structs : List String) (m n : Nat)
    (contract : Option String) (descriptor : List Char) :
    types.resolveNested depth ⟨structs, n⟩ contract descriptor =
      (types.resolveNested depth ⟨structs, m⟩ contract descriptor).map (Ty.withUnfolds (n + 1)) := by
  induction depth generalizing structs contract descriptor with
  | zero => rfl
  | succ depth ih =>
    refine resolveNested_succ_map (isChange_withUnfolds (n + 1))
      (fun key value _ => ⟨ih structs contract key, ih structs contract value⟩)
      (fun element _ _ => ih structs contract element) (fun name _ => ⟨rfl, fun s _ => ?_⟩)
      (fun _ _ => rfl)
    exact structTy_withUnfolds ih

/-! ## Following references -/

/-- The types that a number of references lead to, one found inside what the one before stands for. -/
inductive Leads (types : Declared) (t : Ty) : Nat → Ty → Prop
  | here : Leads types t 0 t
  | follow {n : Nat} {u v : Ty} {path : List String} {r : StructRef} : Leads types t n u →
      u.Inside path (.structRef r) → types.follow? r = some v → Leads types t (n + 1) v

/-- A reference to a struct that is found by its full name, and not called like a location. -/
structure Finds (types : Declared) (name : String) (s : StructDecl) : Prop where
  find? : Ordered.find? name types.structs = some s
  name_eq : s.name = name
  not_location : name.toList ∉ Descriptor.locationWords

/-- **What a reference stands for**: the struct of its name, unless it was followed too often. -/
theorem follow?_eq (h : types.HasNames) {r : StructRef} {s : StructDecl}
    (hs : types.Finds r.name s) : types.follow? r =
      if unfoldLimit < r.unfolds then none
      else some (structTy s r.scope { unfolds := r.unfolds }
        (types.resolveNested (depthLimit - 1))) := by
  obtain ⟨hfind, hname, hnot⟩ := hs
  unfold follow?
  split
  · rfl
  · rw [← hname] at hfind hnot ⊢
    exact resolveNested_struct h hfind hnot _ _

/-- What is known of a type that references lead to. -/
structure IsUnfolded (types : Declared) (n : Nat) (t : Ty) : Prop where
  nested : t.WellNested
  unfolds : t.RefsAt (n + 1)
  finds : ∀ r, .structRef r ∈ t.parts → ∃ s, types.Finds r.name s

theorem isUnfolded_of_resolveNested (h : types.HasNames) {depth n : Nat} {descriptor : List Char}
    {t : Ty} (ht : types.resolveNested depth { unfolds := n } contract descriptor = some t) :
    types.IsUnfolded n t where
  nested := nestedIn_of_resolveNested ht List.nodup_nil
  unfolds := refsAt_of_resolveNested ht
  finds r hr := by
    obtain ⟨-, contract, s, hs, hname⟩ := refs_of_resolveNested ht hr
    obtain ⟨hnot, s', hfind, hname'⟩ := exists_find?_of_isNamed h hs
    rw [← hname] at hnot hfind hname'
    exact ⟨s', hfind, hname', hnot⟩

/-- **Following references keeps what is known of types**, and counts them. -/
theorem Leads.isUnfolded (h : types.HasNames) {t u : Ty} {n : Nat} (hu : types.Leads t n u)
    (ht : types.IsUnfolded 0 t) : types.IsUnfolded n u ∧ n ≤ unfoldLimit := by
  induction hu with
  | here => exact ⟨ht, Nat.zero_le _⟩
  | follow _ hin hfollow ih =>
    obtain ⟨hu, -⟩ := ih
    have hcount := hu.unfolds _ hin.mem_parts
    unfold follow? at hfollow
    split at hfollow
    · cases hfollow
    · rw [← hcount]
      refine ⟨isUnfolded_of_resolveNested h hfollow, by omega⟩

/-- A reference inside a type that `n` others lead to stands for a struct, if `n` is not too large. -/
theorem IsUnfolded.exists_follow? (h : types.HasNames) {n : Nat} {u : Ty}
    (hu : types.IsUnfolded n u) {r : StructRef} (hr : .structRef r ∈ u.parts)
    (hn : n < unfoldLimit) :
    ∃ fields, types.follow? r = some (.struct r.name fields) := by
  obtain ⟨s, hs⟩ := hu.finds r hr
  have hcount := hu.unfolds r hr
  have hfollow := follow?_eq h hs
  rw [if_neg (by omega), structTy, if_neg List.not_mem_nil, hs.name_eq] at hfollow
  exact ⟨_, hfollow⟩

/-- **A reference to a struct stands for the type of that struct**, if all have a contract around. -/
theorem same_of_follow? (h : types.HasNames) (hscope : ∀ e ∈ types.structs, e.2.scope.isSome)
    {r : StructRef} {s : StructDecl} (hs : types.Finds r.name s) {t u : Ty}
    (ht : types.resolve? ("struct " ++ r.name) contract = some t) (hu : types.follow? r = some u) :
    u.same t = true := by
  have hnamed := hs.name_eq
  have hstruct : types.resolve? ("struct " ++ s.name) contract =
      some (structTy s contract {} (types.resolveNested (depthLimit - 1))) :=
    resolveNested_struct h (hnamed.symm ▸ hs.find?) (hnamed.symm ▸ hs.not_location) _ {}
  rw [hnamed] at hstruct
  obtain rfl := Option.some.inj (ht.symm.trans hstruct)
  rw [follow?_eq h hs] at hu
  split at hu
  · cases hu
  obtain rfl := Option.some.inj hu
  -- the members are looked up in the contract around the struct, wherever it is referred to
  have hcontract : structTy s r.scope { unfolds := r.unfolds }
        (types.resolveNested (depthLimit - 1)) =
      structTy s contract { unfolds := r.unfolds } (types.resolveNested (depthLimit - 1)) := by
    obtain ⟨scope, hsome⟩ := Option.isSome_iff_exists.1 (hscope _ (mem_of_find? hs.find?))
    change s.scope = some scope at hsome
    simp only [structTy, hsome, Option.some_or]
  have hcount : structTy s contract { unfolds := r.unfolds } (types.resolveNested (depthLimit - 1)) =
      (structTy s contract {} (types.resolveNested (depthLimit - 1))).withUnfolds (r.unfolds + 1) :=
    structTy_withUnfolds fun structs => types.resolveNested_withUnfolds _ structs 0 _
  rw [hcontract, hcount]
  exact Ty.same_withUnfolds _ _

/-! ## The way down a type -/

/-- What lies right below a type: its members, elements, keys and values, or what it stands for. -/
inductive Opens (types : Declared) : Ty → Ty → Prop
  | field {name : String} {fields : List (String × Ty)} {f : String × Ty} :
      f ∈ fields → Opens types f.2 (.struct name fields)
  | staticArray (element : Ty) (length : Nat) : Opens types element (.staticArray element length)
  | dynamicArray (element : Ty) : Opens types element (.dynamicArray element)
  | key (k v : Ty) : Opens types k (.mapping k v)
  | value (k v : Ty) : Opens types v (.mapping k v)
  | follow {r : StructRef} {t : Ty} : types.follow? r = some t → Opens types t (.structRef r)

/-- There is an end to the ways down a type if there is one to those from its references. -/
theorem acc_of_refs {t : Ty}
    (h : ∀ r, .structRef r ∈ t.parts → Acc types.Opens (.structRef r)) : Acc types.Opens t := by
  refine Ty.byKindWith (motive := Acc types.Opens) ?value ?bytes ?string ?struct (fun r hr => hr)
    ?staticArray ?dynamicArray ?mapping h
  case value =>
    intro t hv
    refine .intro t fun u hu => ?_
    cases hu <;> cases hv
  case bytes => exact .intro _ fun u hu => by cases hu
  case string => exact .intro _ fun u hu => by cases hu
  case struct =>
    intro name fields ih
    refine .intro _ fun u hu => ?_
    cases hu with
    | field hf => exact ih _ hf
  case staticArray =>
    intro element length ih
    refine .intro _ fun u hu => ?_
    cases hu with
    | staticArray => exact ih
  case dynamicArray =>
    intro element ih
    refine .intro _ fun u hu => ?_
    cases hu with
    | dynamicArray => exact ih
  case mapping =>
    intro k v ihk ihv
    refine .intro _ fun u hu => ?_
    cases hu with
    | key => exact ihk
    | value => exact ihv

theorem acc_structRef (types : Declared) (r : StructRef) : Acc types.Opens (.structRef r) := by
  -- on how many more references can be followed
  induction hleft : unfoldLimit + 1 - r.unfolds generalizing r with
  | zero =>
    refine .intro _ fun u hu => ?_
    cases hu with
    | follow hfollow =>
      unfold follow? at hfollow
      rw [if_pos (by omega)] at hfollow
      cases hfollow
  | succ left ih =>
    refine .intro _ fun u hu => ?_
    cases hu with
    | follow hfollow =>
      refine acc_of_refs fun r' hr' => ih r' ?_
      have hcount := refsAt_of_follow? hfollow r' hr'
      omega

/-- **There is no way down a type without an end**, whatever the definitions of structs are. -/
theorem wellFounded_opens (types : Declared) : WellFounded types.Opens :=
  ⟨fun _ => acc_of_refs fun r _ => types.acc_structRef r⟩

end Declared

end Solscope
