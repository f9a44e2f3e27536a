import Solscope.Proofs.Text.Integer
import Solscope.Proofs.Ty.Names

/-!
# Lengths and sizes

The lengths of static arrays are read as sizes, so what a descriptor names has no longer arrays
inside. Structs have no more members than are declared.

* `Declared.SpellsOut`: the length of an array and the enumeration a descriptor names, spelled out.
* `Ty.Sized`: a type in which all numbers are sizes, and widths are 1 to 32 bytes.
* `Declared.sized_of_resolveNested`: **what a descriptor names is sized**, if structs are declared
  with no more members than sizes can count.
-/

namespace Solscope

namespace Ty

/-- Whether a type is named by a built-in word. -/
def isBuiltIn : Ty → Bool
  | uint _ | int _ | bool | address | fixedBytes _ | bytes | string => true
  | _ => false

/-- Whether the width of a type, its length or the number of its members is one a type can have. -/
def isSized : Ty → Bool
  | staticArray _ n => n ≤ Size.largest
  | struct _ fields => fields.length ≤ Size.largest
  | t => t.hasWidth

/-- A type in which all numbers are sizes, and widths are 1 to 32 bytes. -/
def Sized (t : Ty) : Prop := ∀ s ∈ t.parts, s.isSized = true

namespace Sized

variable {name : String} {fields : List (String × Ty)} {element k v : Ty} {length : Nat}

theorem hasWidth {t : Ty} (h : t.Sized) : t.hasWidth = true := by
  have hself := h t t.mem_parts_self
  cases t <;> first | rfl | exact hself

theorem field (h : (struct name fields).Sized) {f : String × Ty} (hf : f ∈ fields) : f.2.Sized :=
  fun s hs => h s (mem_parts_of_mem_fields hf hs)

theorem ofStatic (h : (staticArray element length).Sized) : element.Sized :=
  fun s hs => h s (List.mem_cons_of_mem _ hs)

theorem length_le (h : (staticArray element length).Sized) : length ≤ Size.largest :=
  of_decide_eq_true (h _ (mem_parts_self _))

theorem members_le (h : (struct name fields).Sized) : fields.length ≤ Size.largest :=
  of_decide_eq_true (h _ (mem_parts_self _))

theorem scalar {t : Ty} (ht : t.isValue = true ∨ t = .bytes ∨ t = .string)
    (hw : t.hasWidth = true) : t.Sized := by
  rcases ht with hvalue | rfl | rfl
  · intro s hs
    rw [parts_of_isValue hvalue, List.mem_singleton] at hs
    subst hs
    cases s <;> first | exact hw | cases hvalue
  · simp [Sized, parts, isSized, Ty.hasWidth]
  · simp [Sized, parts, isSized, Ty.hasWidth]

theorem structRef (r : StructRef) : (structRef r).Sized := by
  simp [Sized, parts, isSized, Ty.hasWidth]

theorem struct (hlen : fields.length ≤ Size.largest) (h : ∀ f ∈ fields, f.2.Sized) :
    (struct name fields).Sized := by
  refine List.forall_mem_cons.2 ⟨decide_eq_true hlen, fun s hs => ?_⟩
  obtain ⟨f, hf, hs⟩ := mem_partsOfFields.1 hs
  exact h f hf s hs

theorem staticArray (hlen : length ≤ Size.largest) (h : element.Sized) :
    (staticArray element length).Sized :=
  List.forall_mem_cons.2 ⟨decide_eq_true hlen, h⟩

theorem dynamicArray (h : element.Sized) : (dynamicArray element).Sized :=
  List.forall_mem_cons.2 ⟨rfl, h⟩

theorem mapping (hk : k.Sized) (hv : v.Sized) : (mapping k v).Sized :=
  List.forall_mem_cons.2 ⟨rfl, fun s hs => (List.mem_append.1 hs).elim (hk s) (hv s)⟩

end Sized

end Ty

theorem Descriptor.elementary?_isBuiltIn {descriptor : List Char} {t : Ty}
    (h : elementary? descriptor = some t) : t.isBuiltIn = true := by
  unfold elementary? at h
  split at h
  all_goals try
    obtain rfl := Option.some.inj h
    rfl
  split at h
  · obtain ⟨n, -, rfl⟩ := Option.map_eq_some_iff.1 h
    rfl
  split at h
  · obtain ⟨n, -, rfl⟩ := Option.map_eq_some_iff.1 h
    rfl
  split at h
  · obtain ⟨n, -, rfl⟩ := Option.map_eq_some_iff.1 h
    rfl
  · cases h

namespace Declared

variable {types : Declared} {contract : Option String}

/--
What `Names` leaves open: the brackets of an array hold its length or nothing, and an enumeration is
the one that is declared.
-/
def SpellsOut (types : Declared) (contract : Option String) (descriptor : List Char) : Ty → Prop
  | .dynamicArray _ => ∃ element, Descriptor.array? descriptor = some (element, [])
  | .staticArray _ n => ∃ element size, Descriptor.array? descriptor = some (element, size) ∧
      Text.readSize size = .ok n
  | .enum name members => ∃ key e, Descriptor.enum? descriptor = some key ∧
      lookup? types.enums contract key = some e ∧ e.name = name ∧ e.members = members
  | _ => True

theorem spellsOut_of_isBuiltIn {descriptor : List Char} {t : Ty} (h : t.isBuiltIn = true) :
    types.SpellsOut contract descriptor t := by
  cases t <;> trivial

theorem spellsOut_of_resolveNested {depth : Nat} {around : Expansion} {descriptor : List Char}
    {t : Ty} (h : types.resolveNested (depth + 1) around contract descriptor = some t) :
    types.SpellsOut contract (Descriptor.normalize descriptor) t := by
  obtain ⟨reading, h⟩ := exists_readNested h
  cases reading <;> simp only [readNested, Option.bind_eq_bind, Option.bind_eq_some_iff] at h
  case mapping =>
    obtain ⟨_, -, k, -, v, -, heq⟩ := h
    obtain rfl := Option.some.inj heq
    trivial
  case array =>
    obtain ⟨⟨element, size⟩, hcut, s, -, heq⟩ := h
    split at heq
    · rename_i hempty
      obtain rfl := Option.some.inj heq
      obtain rfl := List.isEmpty_iff.1 hempty
      exact ⟨element, hcut⟩
    · obtain ⟨n, hn, heq⟩ := Option.bind_eq_some_iff.1 heq
      obtain rfl := Option.some.inj heq
      exact ⟨element, size, hcut, Text.eq_ok_of_toOption hn⟩
  case elementary => exact spellsOut_of_isBuiltIn (Descriptor.elementary?_isBuiltIn h)
  case struct =>
    obtain ⟨_, -, s, -, heq⟩ := h
    obtain rfl := Option.some.inj heq
    unfold structTy
    split <;> trivial
  case enum =>
    obtain ⟨key, hkey, e, he, heq⟩ := h
    obtain rfl := Option.some.inj heq
    exact ⟨key, e, hkey, he, rfl, rfl⟩
  case contract =>
    obtain ⟨_, -, rfl⟩ := Option.map_eq_some_iff.1 h
    trivial

/-- The length of a static array is a size. -/
theorem length_le_of_resolveNested {depth : Nat} {around : Expansion} {descriptor : List Char}
    {element : Ty} {length : Nat}
    (h : types.resolveNested depth around contract descriptor =
      some (.staticArray element length)) : length ≤ Size.largest := by
  cases depth with
  | zero => cases h
  | succ depth =>
    obtain ⟨_, size, -, hsize⟩ := spellsOut_of_resolveNested h
    exact (Text.readNat_eq_ok_iff.1 hsize).2

/--
**What a descriptor names is sized**, if structs are declared with no more members than sizes can
count.
-/
theorem sized_of_resolveNested
    (hmembers : ∀ e ∈ types.structs, e.2.members.length ≤ Size.largest) {depth : Nat}
    {around : Expansion} {descriptor : List Char} {t : Ty}
    (h : types.resolveNested depth around contract descriptor = some t) : t.Sized := by
  induction depth generalizing around contract descriptor t with
  | zero => cases h
  | succ depth ih =>
    cases names_of_resolveNested h with
    | mapping _ hk hv => exact .mapping (ih hk) (ih hv)
    | dynamicArray _ ht => exact .dynamicArray (ih ht)
    | staticArray _ ht => exact .staticArray (length_le_of_resolveNested h) (ih ht)
    | elementary ht =>
      exact .scalar ((Descriptor.elementary?_cases ht).imp_left And.left)
        (Descriptor.elementary?_shape ht).1
    | @struct name s hname hs =>
      unfold structTy
      split
      · exact .structRef _
      · obtain ⟨key, hmem, -⟩ := exists_key_of_lookup? hs
        refine .struct ?_ fun f hf => ?_
        · exact (List.length_filterMap_le _ _).trans (hmembers _ hmem)
        · obtain ⟨⟨member, descriptor⟩, -, hmember⟩ := List.mem_filterMap.1 hf
          obtain ⟨t, ht, rfl⟩ := Option.map_eq_some_iff.1 hmember
          exact ih ht
    | enum | contract => exact .scalar (.inl rfl) rfl

end Declared

end Solscope
