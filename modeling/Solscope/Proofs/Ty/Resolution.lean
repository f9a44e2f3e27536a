import Solscope.Proofs.Ty.Parts
import Solscope.Ty.Declared

/-!
# The types that descriptors name

* `Declared.resolveNested_succ`: a descriptor is read in six ways, and the first that succeeds counts.
* `Declared.Names`: what a descriptor can name, one case for each kind of type.
* `Declared.resolved_induction`: **induction on the types that descriptors name**, along with the
  structs around them.
* `Declared.resolveNested_succ_map`: one descriptor changes as what is inside it does.
* `Declared.resolve?_hasWidth`: integers and byte strings have a width.
* `Declared.resolve?_ne_structRef`: **the type of a variable is no reference**; only a struct inside
  itself is one.
-/

namespace Solscope

namespace Descriptor

/-- The ways to read a descriptor. -/
inductive Reading where
  | mapping
  | array
  | elementary
  | struct
  | enum
  | contract
deriving DecidableEq, Repr

/-- The order in which they are tried: first those of descriptors with others inside. -/
def readings : List Reading := [.mapping, .array, .elementary, .struct, .enum, .contract]

theorem integerBytes?_bounds {digits : List Char} {n : Nat} (h : integerBytes? digits = some n) :
    1 ≤ n ∧ n ≤ 32 := by
  obtain ⟨bits, -, hbits⟩ := Option.bind_eq_some_iff.1 h
  split at hbits
  · obtain rfl := Option.some.inj hbits
    omega
  · cases hbits

theorem fixedLength?_bounds {digits : List Char} {n : Nat} (h : fixedLength? digits = some n) :
    1 ≤ n ∧ n ≤ 32 := by
  obtain ⟨length, -, hlength⟩ := Option.bind_eq_some_iff.1 h
  split at hlength
  · rename_i hn
    obtain rfl := Option.some.inj hlength
    exact hn
  · cases hlength

/-- Built-in types are value types with a width, or byte strings of any length. -/
theorem elementary?_cases {descriptor : List Char} {t : Ty} (h : elementary? descriptor = some t) :
    (t.isValue = true ∧ t.hasWidth = true) ∨ t = .bytes ∨ t = .string := by
  unfold elementary? at h
  split at h
  all_goals try
    obtain rfl := Option.some.inj h
    first | exact .inl ⟨rfl, rfl⟩ | exact .inr (.inl rfl) | exact .inr (.inr rfl)
  split at h
  · obtain ⟨n, hn, rfl⟩ := Option.map_eq_some_iff.1 h
    exact .inl ⟨rfl, by simpa [Ty.hasWidth] using integerBytes?_bounds hn⟩
  split at h
  · obtain ⟨n, hn, rfl⟩ := Option.map_eq_some_iff.1 h
    exact .inl ⟨rfl, by simpa [Ty.hasWidth] using integerBytes?_bounds hn⟩
  split at h
  · obtain ⟨n, hn, rfl⟩ := Option.map_eq_some_iff.1 h
    exact .inl ⟨rfl, by simpa [Ty.hasWidth] using fixedLength?_bounds hn⟩
  · cases h

/-- Built-in types have a width and are no references. -/
theorem elementary?_shape {descriptor : List Char} {t : Ty} (h : elementary? descriptor = some t) :
    t.hasWidth = true ∧ ∀ r, t ≠ .structRef r := by
  rcases elementary?_cases h with ⟨hvalue, hw⟩ | rfl | rfl
  · exact ⟨hw, by rintro r rfl; cases hvalue⟩
  · exact ⟨rfl, by rintro r ⟨⟩⟩
  · exact ⟨rfl, by rintro r ⟨⟩⟩

/-- Nothing is inside a built-in type. -/
theorem elementary?_parts {descriptor : List Char} {t : Ty} (h : elementary? descriptor = some t) :
    t.parts = [t] := by
  rcases elementary?_cases h with ⟨hvalue, -⟩ | rfl | rfl
  · exact Ty.parts_of_isValue hvalue
  · rfl
  · rfl

end Descriptor

namespace Declared

variable {types : Declared} {contract : Option String}

/--
What one way of reading makes of a normalized descriptor, where no more than `depth` descriptors are
nested inside.
-/
def readNested (types : Declared) (depth : Nat) (around : Expansion) (contract : Option String)
    (descriptor : List Char) : Descriptor.Reading → Option Ty
  | .mapping => do
    let (key, value) ← Descriptor.mapping? descriptor
    let key ← types.resolveNested depth around contract key
    let value ← types.resolveNested depth around contract value
    return .mapping key value
  | .array => do
    let (element, size) ← Descriptor.array? descriptor
    let element ← types.resolveNested depth around contract element
    if size.isEmpty then return .dynamicArray element
    let length ← (Text.readSize size).toOption
    return .staticArray element length
  | .elementary => Descriptor.elementary? descriptor
  | .struct => do
    let s ← lookup? types.structs contract (← Descriptor.struct? descriptor)
    return structTy s contract around (types.resolveNested depth)
  | .enum => do
    let e ← lookup? types.enums contract (← Descriptor.enum? descriptor)
    return .enum e.name e.members
  | .contract => (Descriptor.contract? descriptor).map .contract

/-- **A descriptor is read in six ways**, and the first that succeeds counts. -/
theorem resolveNested_succ (types : Declared) (depth : Nat) (around : Expansion)
    (contract : Option String) (descriptor : List Char) :
    types.resolveNested (depth + 1) around contract descriptor =
      Descriptor.readings.findSome?
        (types.readNested depth around contract (Descriptor.normalize descriptor)) := by
  have hcons : ∀ (f : Descriptor.Reading → Option Ty) reading rest,
      (reading :: rest).findSome? f = (f reading).or (rest.findSome? f) := by
    intro f reading rest
    rw [List.findSome?_cons]
    cases f reading <;> rfl
  rw [resolveNested]
  simp only [Descriptor.readings, hcons, List.findSome?_nil, Option.or_none,
    Option.orElse_eq_orElse, Option.orElse_eq_or, readNested]

theorem exists_readNested {depth : Nat} {around : Expansion} {descriptor : List Char} {t : Ty}
    (h : types.resolveNested (depth + 1) around contract descriptor = some t) :
    ∃ reading,
      types.readNested depth around contract (Descriptor.normalize descriptor) reading = some t := by
  rw [resolveNested_succ] at h
  obtain ⟨reading, -, hreading⟩ := List.exists_of_findSome?_eq_some h
  exact ⟨reading, hreading⟩

/-- A declared struct is a reference where its own members are resolved. -/
theorem structTy_shape {s : StructDecl} {around : Expansion}
    {resolve : Expansion → Option String → List Char → Option Ty} :
    (structTy s contract around resolve).hasWidth = true ∧
      ∀ r, structTy s contract around resolve = .structRef r → r.name ∈ around.structs := by
  unfold structTy
  split
  · rename_i hmem
    exact ⟨rfl, by rintro r ⟨⟩; exact hmem⟩
  · exact ⟨rfl, by rintro r ⟨⟩⟩

/--
A normalized descriptor names a type, in which what it consists of is named by no more than `depth`
nested descriptors.
-/
inductive Names (types : Declared) (depth : Nat) (around : Expansion) (contract : Option String)
    (descriptor : List Char) : Ty → Prop
  | mapping {key value : List Char} {k v : Ty} :
      Descriptor.mapping? descriptor = some (key, value) →
      types.resolveNested depth around contract key = some k →
      types.resolveNested depth around contract value = some v →
      Names types depth around contract descriptor (.mapping k v)
  | dynamicArray {element size : List Char} {t : Ty} :
      Descriptor.array? descriptor = some (element, size) →
      types.resolveNested depth around contract element = some t →
      Names types depth around contract descriptor (.dynamicArray t)
  | staticArray {element size : List Char} {t : Ty} {length : Nat} :
      Descriptor.array? descriptor = some (element, size) →
      types.resolveNested depth around contract element = some t →
      Names types depth around contract descriptor (.staticArray t length)
  | elementary {t : Ty} : Descriptor.elementary? descriptor = some t →
      Names types depth around contract descriptor t
  | struct {name : String} {s : StructDecl} : Descriptor.struct? descriptor = some name →
      lookup? types.structs contract name = some s →
      Names types depth around contract descriptor
        (structTy s contract around (types.resolveNested depth))
  | enum {name : String} {e : EnumDecl} : Descriptor.enum? descriptor = some name →
      Names types depth around contract descriptor (.enum e.name e.members)
  | contract {name : String} : Descriptor.contract? descriptor = some name →
      Names types depth around contract descriptor (.contract name)

theorem names_of_resolveNested {depth : Nat} {around : Expansion} {descriptor : List Char} {t : Ty}
    (h : types.resolveNested (depth + 1) around contract descriptor = some t) :
    types.Names depth around contract (Descriptor.normalize descriptor) t := by
  obtain ⟨reading, h⟩ := exists_readNested h
  cases reading <;> simp only [readNested, Option.bind_eq_bind, Option.bind_eq_some_iff] at h
  case mapping =>
    obtain ⟨_, hsides, k, hk, v, hv, heq⟩ := h
    obtain rfl := Option.some.inj heq
    exact .mapping hsides hk hv
  case array =>
    obtain ⟨_, hcut, element, helement, heq⟩ := h
    split at heq
    · obtain rfl := Option.some.inj heq
      exact .dynamicArray hcut helement
    · obtain ⟨length, -, heq⟩ := Option.bind_eq_some_iff.1 heq
      obtain rfl := Option.some.inj heq
      exact .staticArray hcut helement
  case elementary => exact .elementary h
  case struct =>
    obtain ⟨_, hname, s, hs, heq⟩ := h
    obtain rfl := Option.some.inj heq
    exact .struct hname hs
  case enum =>
    obtain ⟨_, hname, e, -, heq⟩ := h
    obtain rfl := Option.some.inj heq
    exact .enum hname
  case contract =>
    obtain ⟨_, hname, rfl⟩ := Option.map_eq_some_iff.1 h
    exact .contract hname

/-- A struct that some descriptor names, as seen from inside `contract`. -/
def IsNamed (types : Declared) (contract : Option String) (s : StructDecl) : Prop :=
  ∃ descriptor name, Descriptor.struct? (Descriptor.normalize descriptor) = some name ∧
    lookup? types.structs contract name = some s

/-- **Induction on the types that descriptors name**, with what is being resolved around them. -/
theorem resolved_induction {motive : Expansion → Ty → Prop}
    (scalar : ∀ around t, t.isValue = true ∨ t = .bytes ∨ t = .string → motive around t)
    (structRef : ∀ around contract s, types.IsNamed contract s → s.name ∈ around.structs →
      motive around (.structRef ⟨s.name, s.scope.or contract, around.unfolds + 1⟩))
    (struct : ∀ around contract s fields, types.IsNamed contract s → s.name ∉ around.structs →
      (∀ f ∈ fields, motive { around with structs := s.name :: around.structs } f.2) →
      motive around (.struct s.name fields))
    (staticArray : ∀ around element length, motive around element →
      motive around (.staticArray element length))
    (dynamicArray : ∀ around element, motive around element → motive around (.dynamicArray element))
    (mapping : ∀ around k v, motive around k → motive around v → motive around (.mapping k v))
    {depth : Nat} {around : Expansion} {descriptor : List Char} {t : Ty}
    (h : types.resolveNested depth around contract descriptor = some t) : motive around t := by
  induction depth generalizing around contract descriptor t with
  | zero => cases h
  | succ depth ih =>
    cases names_of_resolveNested h with
    | mapping _ hk hv => exact mapping _ _ _ (ih hk) (ih hv)
    | dynamicArray _ ht => exact dynamicArray _ _ (ih ht)
    | staticArray _ ht => exact staticArray _ _ _ (ih ht)
    | elementary ht =>
      refine scalar _ _ ?_
      exact (Descriptor.elementary?_cases ht).imp_left And.left
    | struct hname hs =>
      have hnamed : types.IsNamed contract _ := ⟨_, _, hname, hs⟩
      unfold structTy
      split
      · rename_i hmem
        exact structRef _ _ _ hnamed hmem
      · rename_i hmem
        refine struct _ _ _ _ hnamed hmem fun f hf => ?_
        obtain ⟨⟨name, member⟩, -, hmember⟩ := List.mem_filterMap.1 hf
        obtain ⟨t, ht, rfl⟩ := Option.map_eq_some_iff.1 hmember
        exact ih ht
    | enum | contract => exact scalar _ _ (.inl rfl)

/-- A change of types that goes along their kinds, and leaves types with nothing inside alone. -/
structure IsChange (g : Ty → Ty) : Prop where
  scalar : ∀ t, t.isValue = true ∨ t = .bytes ∨ t = .string → g t = t
  staticArray : ∀ element length, g (.staticArray element length) = .staticArray (g element) length
  dynamicArray : ∀ element, g (.dynamicArray element) = .dynamicArray (g element)
  mapping : ∀ k v, g (.mapping k v) = .mapping (g k) (g v)

/--
**One descriptor changes as what is inside it does**, from some declared types to others, or from
some surroundings to others.
-/
theorem resolveNested_succ_map {others : Declared} {g : Ty → Ty} (hg : IsChange g) {depth : Nat}
    {around around' : Expansion} {descriptor : List Char}
    (hmapping : ∀ key value,
      Descriptor.mapping? (Descriptor.normalize descriptor) = some (key, value) →
      others.resolveNested depth around' contract key =
          (types.resolveNested depth around contract key).map g ∧
        others.resolveNested depth around' contract value =
          (types.resolveNested depth around contract value).map g)
    (harray : ∀ element size,
      Descriptor.array? (Descriptor.normalize descriptor) = some (element, size) →
      others.resolveNested depth around' contract element =
        (types.resolveNested depth around contract element).map g)
    (hstruct : ∀ name, Descriptor.struct? (Descriptor.normalize descriptor) = some name →
      lookup? others.structs contract name = lookup? types.structs contract name ∧
        ∀ s, lookup? types.structs contract name = some s →
          structTy s contract around' (others.resolveNested depth) =
            g (structTy s contract around (types.resolveNested depth)))
    (henum : ∀ name, Descriptor.enum? (Descriptor.normalize descriptor) = some name →
      lookup? others.enums contract name = lookup? types.enums contract name) :
    others.resolveNested (depth + 1) around' contract descriptor =
      (types.resolveNested (depth + 1) around contract descriptor).map g := by
  rw [resolveNested_succ, resolveNested_succ, List.map_findSome?]
  congr 1
  funext reading
  cases reading <;> simp only [Function.comp_apply, readNested]
  case mapping =>
    cases hsides : Descriptor.mapping? (Descriptor.normalize descriptor) with
    | none => rfl
    | some sides =>
      obtain ⟨hkey, hvalue⟩ := hmapping _ _ hsides
      simp only [Option.bind_eq_bind, Option.bind_some, hkey, hvalue]
      cases types.resolveNested depth around contract sides.1 with
      | none => rfl
      | some k =>
        cases types.resolveNested depth around contract sides.2 with
        | none => rfl
        | some v => exact congrArg some (hg.mapping k v).symm
  case array =>
    cases hcut : Descriptor.array? (Descriptor.normalize descriptor) with
    | none => rfl
    | some cut =>
      simp only [Option.bind_eq_bind, Option.bind_some, harray _ _ hcut]
      cases types.resolveNested depth around contract cut.1 with
      | none => rfl
      | some element =>
        simp only [Option.map_some, Option.bind_some]
        split
        · exact congrArg some (hg.dynamicArray element).symm
        · cases (Text.readSize cut.2).toOption with
          | none => rfl
          | some length => exact congrArg some (hg.staticArray element length).symm
  case elementary =>
    cases helementary : Descriptor.elementary? (Descriptor.normalize descriptor) with
    | none => rfl
    | some t =>
      have hscalar := (Descriptor.elementary?_cases helementary).imp_left And.left
      rw [Option.map_some, hg.scalar t hscalar]
  case struct =>
    cases hname : Descriptor.struct? (Descriptor.normalize descriptor) with
    | none => rfl
    | some name =>
      obtain ⟨hlookup, hstruct⟩ := hstruct name hname
      simp only [Option.bind_eq_bind, Option.bind_some, hlookup]
      cases hs : lookup? types.structs contract name with
      | none => rfl
      | some s => exact congrArg some (hstruct s hs)
  case enum =>
    cases hname : Descriptor.enum? (Descriptor.normalize descriptor) with
    | none => rfl
    | some name =>
      simp only [Option.bind_eq_bind, Option.bind_some, henum name hname]
      cases lookup? types.enums contract name with
      | none => rfl
      | some e => exact congrArg some (hg.scalar _ (.inl rfl)).symm
  case contract =>
    cases Descriptor.contract? (Descriptor.normalize descriptor) with
    | none => rfl
    | some name => exact congrArg some (hg.scalar _ (.inl rfl)).symm

/-- A type has a width if it needs one, and is a reference only inside the struct it refers to. -/
theorem resolveNested_shape {depth : Nat} {around : Expansion} {descriptor : List Char} {t : Ty}
    (h : types.resolveNested depth around contract descriptor = some t) :
    t.hasWidth = true ∧ ∀ r, t = .structRef r → r.name ∈ around.structs := by
  cases depth with
  | zero => cases h
  | succ depth =>
    cases names_of_resolveNested h with
    | elementary ht =>
      obtain ⟨hw, hne⟩ := Descriptor.elementary?_shape ht
      exact ⟨hw, fun r hr => absurd hr (hne r)⟩
    | struct => exact structTy_shape
    | mapping | dynamicArray | staticArray | enum | contract => exact ⟨rfl, by rintro r ⟨⟩⟩

theorem resolve?_hasWidth {descriptor : String} {t : Ty}
    (h : types.resolve? descriptor contract = some t) : t.hasWidth = true :=
  (resolveNested_shape h).1

/-- **The type of a variable is no reference.** -/
theorem resolve?_ne_structRef {descriptor : String} {t : Ty}
    (h : types.resolve? descriptor contract = some t) (r : StructRef) :
    t ≠ .structRef r := fun hr =>
  List.not_mem_nil ((resolveNested_shape h).2 r hr)

end Declared

end Solscope
