import Solscope.Ty.Basic

/-!
# The types inside a type

* `Ty.byKind`: induction on types, with one case for all value types and a hypothesis for every
  member of a struct.
* `Ty.parts`: a type and all types inside it.
* `Ty.byKindWith`: the same induction where something is known of all references inside a type.
* `Ty.Inline`: what values of a type have inside them whatever their lengths are.
* `Ty.Regular`: no mapping and no reference anywhere inside, and widths of 1 to 32 bytes. These are
  the types whose values have a fixed encoding.
-/

namespace Solscope.Ty

/-- **Induction on types by kind.** -/
@[elab_as_elim]
theorem byKind {motive : Ty → Prop} (value : ∀ t : Ty, t.isValue = true → motive t)
    (bytes : motive .bytes) (string : motive .string)
    (struct : ∀ name fields, (∀ f ∈ fields, motive f.2) → motive (.struct name fields))
    (structRef : ∀ r, motive (.structRef r))
    (staticArray : ∀ element length, motive element → motive (.staticArray element length))
    (dynamicArray : ∀ element, motive element → motive (.dynamicArray element))
    (mapping : ∀ k v, motive k → motive v → motive (.mapping k v)) (t : Ty) : motive t := by
  refine @Ty.rec motive (fun fields => ∀ f ∈ fields, motive f.2) (fun f => motive f.2)
    (fun n => value _ rfl) (fun n => value _ rfl) (value _ rfl) (value _ rfl)
    (fun n => value _ rfl) bytes string struct structRef (fun _ _ => value _ rfl)
    (fun e n => staticArray e n) dynamicArray mapping (fun _ => value _ rfl) ?_ ?_ ?_ t
  · intro f hf; simp at hf
  · intro f fields hf hfields g hg
    rcases List.mem_cons.1 hg with rfl | hg
    · exact hf
    · exact hfields g hg
  · intro name t ht; exact ht

mutual

/-- A type and all types inside it. -/
def parts : Ty → List Ty
  | struct name fields => struct name fields :: partsOfFields fields
  | staticArray element length => staticArray element length :: parts element
  | dynamicArray element => dynamicArray element :: parts element
  | mapping key value => mapping key value :: (parts key ++ parts value)
  | t => [t]

/-- The types inside the members of a struct. -/
def partsOfFields : List (String × Ty) → List Ty
  | [] => []
  | (_, t) :: rest => parts t ++ partsOfFields rest

end

theorem mem_parts_self (t : Ty) : t ∈ t.parts := by cases t <;> simp [parts]

/-- Nothing is inside a value type. -/
theorem parts_of_isValue {t : Ty} (h : t.isValue = true) : t.parts = [t] := by
  cases t <;> first | rfl | cases h

theorem mem_partsOfFields {s : Ty} {fields : List (String × Ty)} :
    s ∈ partsOfFields fields ↔ ∃ f ∈ fields, s ∈ f.2.parts := by
  induction fields with
  | nil => simp [partsOfFields]
  | cons f rest ih =>
    obtain ⟨name, t⟩ := f
    simp [partsOfFields, ih]

/-- What is inside a member is inside the struct. -/
theorem mem_parts_of_mem_fields {s : Ty} {name : String} {fields : List (String × Ty)}
    {f : String × Ty} (hf : f ∈ fields) (hs : s ∈ f.2.parts) : s ∈ (struct name fields).parts :=
  List.mem_cons_of_mem _ (mem_partsOfFields.2 ⟨f, hf, hs⟩)

/-- **Induction on types whose references have a property.** -/
theorem byKindWith {P : StructRef → Prop} {motive : Ty → Prop}
    (value : ∀ t : Ty, t.isValue = true → motive t) (bytes : motive .bytes)
    (string : motive .string)
    (struct : ∀ name fields, (∀ f ∈ fields, motive f.2) → motive (.struct name fields))
    (structRef : ∀ r, P r → motive (.structRef r))
    (staticArray : ∀ element length, motive element → motive (.staticArray element length))
    (dynamicArray : ∀ element, motive element → motive (.dynamicArray element))
    (mapping : ∀ k v, motive k → motive v → motive (.mapping k v)) {t : Ty}
    (h : ∀ r, .structRef r ∈ t.parts → P r) : motive t := by
  induction t using byKind with
  | value t hv => exact value t hv
  | bytes => exact bytes
  | string => exact string
  | struct name fields ih =>
    exact struct name fields fun f hf => ih f hf fun r hr =>
      h r (List.mem_cons_of_mem _ (mem_partsOfFields.2 ⟨f, hf, hr⟩))
  | structRef r => exact structRef r (h r (mem_parts_self _))
  | staticArray element length ih =>
    exact staticArray element length (ih fun r hr => h r (List.mem_cons_of_mem _ hr))
  | dynamicArray element ih =>
    exact dynamicArray element (ih fun r hr => h r (List.mem_cons_of_mem _ hr))
  | mapping k v ihk ihv =>
    exact mapping k v
      (ihk fun r hr => h r (List.mem_cons_of_mem _ (List.mem_append_left _ hr)))
      (ihv fun r hr => h r (List.mem_cons_of_mem _ (List.mem_append_right _ hr)))

/-- A type stands in another one, and neither in a dynamic array nor in a mapping of it. -/
inductive Inline : Ty → Ty → Prop
  | self (t : Ty) : Inline t t
  | field {name : String} {fields : List (String × Ty)} {f : String × Ty} {u : Ty} :
      f ∈ fields → Inline f.2 u → Inline (struct name fields) u
  | staticArray {element u : Ty} {length : Nat} :
      Inline element u → Inline (staticArray element length) u

theorem Inline.mem_parts {t u : Ty} (h : t.Inline u) : u ∈ t.parts := by
  induction h with
  | self t => exact t.mem_parts_self
  | field hf _ ih => exact mem_parts_of_mem_fields hf ih
  | staticArray _ ih => exact List.mem_cons_of_mem _ ih

/-- Whether a type is neither a mapping nor a reference to a struct. -/
def isPlain : Ty → Bool
  | mapping .. | structRef _ => false
  | _ => true

/-- Whether a type of a chosen width is 1 to 32 bytes wide. -/
def hasWidth : Ty → Bool
  | uint n | int n | fixedBytes n => 1 ≤ n && n ≤ 32
  | _ => true

/-- A value type takes at least one byte and at most a slot. -/
theorem storageBytes_bounds {t : Ty} (ht : t.isValue = true) (hw : t.hasWidth = true) :
    1 ≤ t.storageBytes ∧ t.storageBytes ≤ 32 := by
  cases t <;> simp_all [isValue, hasWidth, storageBytes]

/-- A type without mappings and references inside, whose integers and byte strings have a width. -/
structure Regular (t : Ty) : Prop where
  plain : ∀ s ∈ t.parts, s.isPlain = true
  width : ∀ s ∈ t.parts, s.hasWidth = true

namespace Regular

variable {name : String} {fields : List (String × Ty)} {element : Ty} {length : Nat}

theorem of_parts {s t : Ty} (h : t.Regular) (hsub : ∀ u ∈ s.parts, u ∈ t.parts) : s.Regular :=
  ⟨fun u hu => h.plain u (hsub u hu), fun u hu => h.width u (hsub u hu)⟩

theorem hasWidth {t : Ty} (h : t.Regular) : t.hasWidth = true := h.width t t.mem_parts_self

theorem field (h : (struct name fields).Regular) {f : String × Ty} (hf : f ∈ fields) :
    f.2.Regular :=
  h.of_parts fun _ hu => List.mem_cons_of_mem _ (mem_partsOfFields.2 ⟨f, hf, hu⟩)

theorem ofStatic (h : (staticArray element length).Regular) : element.Regular :=
  h.of_parts fun _ hu => List.mem_cons_of_mem _ hu

theorem ofDynamic (h : (dynamicArray element).Regular) : element.Regular :=
  h.of_parts fun _ hu => List.mem_cons_of_mem _ hu

theorem not_mapping {k v : Ty} : ¬ (mapping k v).Regular := fun h => by
  have := h.plain _ (mem_parts_self _)
  simp [isPlain] at this

theorem not_structRef {r : StructRef} : ¬ (structRef r).Regular := fun h => by
  have := h.plain _ (mem_parts_self _)
  simp [isPlain] at this

theorem not_inline {t : Ty} (h : t.Regular) (r : StructRef) : ¬ t.Inline (structRef r) :=
  fun hr => not_structRef (h.of_parts fun u hu => by
    obtain rfl : u = structRef r := by simpa [parts] using hu
    exact hr.mem_parts)

end Regular

end Solscope.Ty
