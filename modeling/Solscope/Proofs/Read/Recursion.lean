import Solscope.Proofs.Ty.Unfolding
import Solscope.Read.Stack

/-!
# Reading recursive types

Whatever is computed for a type is computed along the type, and a reference has the result for what
it stands for. The count of references makes an end of that recursion and nothing else does: there
is no other bound to come across.

* `Declared.readStorageWith_congr` and the like: a result depends on the references inside a type.
* `Declared.Computes`: the equations of the recursion.
* `Declared.computes_of_refsAt`: they hold wherever references lead to.
* `Declared.unfolds_finitely`: **the types of descriptors are well nested, and unfold so often**.
-/

namespace Solscope

namespace Ty

theorem isDynamicWith_congr {f g : StructRef → Bool} {t : Ty}
    (h : ∀ r, structRef r ∈ t.parts → f r = g r) : isDynamicWith f t = isDynamicWith g t := by
  refine byKindWith (motive := fun t => isDynamicWith f t = isDynamicWith g t) ?value rfl rfl
    ?struct (fun r hr => hr) (fun _ _ ih => ih) (fun _ _ => rfl) (fun _ _ _ _ => rfl) h
  case value =>
    intro t hv
    cases t <;> first | rfl | cases hv
  case struct =>
    intro name fields ih
    have hany : anyDynamicWith f fields = anyDynamicWith g fields := by
      induction fields with
      | nil => rfl
      | cons field rest ihrest =>
        obtain ⟨hfield, hrest⟩ := List.forall_mem_cons.1 ih
        rw [anyDynamicWith, anyDynamicWith, hfield, ihrest hrest]
    rw [isDynamicWith, isDynamicWith, hany]

theorem ofBitsWith_congr {f g : StructRef → Value} {t : Ty}
    (h : ∀ r, structRef r ∈ t.parts → f r = g r) (bits : Nat) :
    ofBitsWith f bits t = ofBitsWith g bits t := by
  refine byKindWith (motive := fun t => ∀ bits, ofBitsWith f bits t = ofBitsWith g bits t) ?value
    (fun _ => rfl) (fun _ => rfl) ?struct (fun r hr _ => hr) ?staticArray (fun _ _ _ => rfl)
    (fun _ _ _ _ _ => rfl) h bits
  case value =>
    intro t hv bits
    cases t <;> first | rfl | cases hv
  case struct =>
    intro name fields ih bits
    have hfields : zeroOfFields f fields = zeroOfFields g fields := by
      induction fields with
      | nil => rfl
      | cons field rest ihrest =>
        obtain ⟨hfield, hrest⟩ := List.forall_mem_cons.1 ih
        rw [zeroOfFields, zeroOfFields, hfield, ihrest hrest]
    rw [ofBitsWith, ofBitsWith, hfields]
  case staticArray =>
    intro element length ih bits
    rw [ofBitsWith, ofBitsWith, ih]

end Ty

namespace Declared

variable {types : Declared}

theorem headSizeWith?_congr {f g : StructRef → Option Nat} {t : Ty}
    (h : ∀ r, .structRef r ∈ t.parts → f r = g r) :
    headSizeWith? types f t = headSizeWith? types g t := by
  refine Ty.byKindWith (motive := fun t => headSizeWith? types f t = headSizeWith? types g t) ?value
    rfl rfl ?struct ?structRef ?staticArray (fun _ _ => rfl) (fun _ _ _ _ => rfl) h
  case value =>
    intro t hv
    cases t <;> first | rfl | cases hv
  case struct =>
    intro name fields ih
    have hfields : headSizeOfFields? types f fields = headSizeOfFields? types g fields := by
      induction fields with
      | nil => rfl
      | cons field rest ihrest =>
        obtain ⟨hfield, hrest⟩ := List.forall_mem_cons.1 ih
        rw [headSizeOfFields?, headSizeOfFields?, hfield, ihrest hrest]
    rw [headSizeWith?, headSizeWith?, hfields]
  case structRef =>
    intro r hr
    rw [headSizeWith?, headSizeWith?, hr]
  case staticArray =>
    intro element length ih
    rw [headSizeWith?, headSizeWith?, ih]

theorem readStorageWith_congr {view : StorageView}
    {f g : StructRef → SlotCursor → Except ReadError (Value × SlotCursor)} {t : Ty}
    (h : ∀ r, .structRef r ∈ t.parts → f r = g r) (c : SlotCursor) :
    readStorageWith types view f c t = readStorageWith types view g c t := by
  refine Ty.byKindWith
    (motive := fun t => ∀ c, readStorageWith types view f c t = readStorageWith types view g c t)
    ?value (fun _ => rfl) (fun _ => rfl) ?struct (fun r hr c => congrFun hr c) ?staticArray
    ?dynamicArray ?mapping h c
  case value =>
    intro t hv c
    cases t <;> first | rfl | cases hv
  case struct =>
    intro name fields ih c
    have hfields : ∀ c, readStorageFields types view f c fields =
        readStorageFields types view g c fields := by
      induction fields with
      | nil => exact fun _ => rfl
      | cons field rest ihrest =>
        obtain ⟨hfield, hrest⟩ := List.forall_mem_cons.1 ih
        intro c
        simp only [readStorageFields, hfield, ihrest hrest]
    simp only [readStorageWith, hfields]
  case staticArray =>
    intro element length ih c
    simp only [readStorageWith, ih]
  case dynamicArray =>
    intro element ih c
    simp only [readStorageWith, ih]
  case mapping =>
    intro k v _ ih c
    simp only [readStorageWith, ih]

theorem readMemoryWith_congr {memory : Bytes} {limits : Limits}
    {f g : StructRef → Nat → Except ReadError Value} {t : Ty}
    (h : ∀ r, .structRef r ∈ t.parts → f r = g r) (pointer : Nat) :
    readMemoryWith types memory limits f pointer t =
      readMemoryWith types memory limits g pointer t := by
  refine Ty.byKindWith
    (motive := fun t => ∀ p, readMemoryWith types memory limits f p t =
      readMemoryWith types memory limits g p t)
    ?value (fun _ => rfl) (fun _ => rfl) ?struct (fun r hr p => congrFun hr p) ?staticArray
    ?dynamicArray (fun _ _ _ _ _ => rfl) h pointer
  case value =>
    intro t hv p
    rw [readMemoryWith_of_isValue hv, readMemoryWith_of_isValue hv]
  case struct =>
    intro name fields ih p
    have hfields : ∀ offset, readMemoryFields types memory limits f offset fields =
        readMemoryFields types memory limits g offset fields := by
      induction fields with
      | nil => exact fun _ => rfl
      | cons field rest ihrest =>
        obtain ⟨hfield, hrest⟩ := List.forall_mem_cons.1 ih
        intro offset
        simp only [readMemoryFields, hfield, ihrest hrest]
    simp only [readMemoryWith, hfields]
  case staticArray =>
    intro element length ih p
    simp only [readMemoryWith, ih]
  case dynamicArray =>
    intro element ih p
    simp only [readMemoryWith, ih]

theorem readInputWith_congr {input : Bytes} {limits : Limits}
    {f g : StructRef → Nat → HeadCursor → Except ReadError (Value × HeadCursor)} {t : Ty}
    (h : ∀ r, .structRef r ∈ t.parts → f r = g r) (base : Nat) (c : HeadCursor) :
    readInputWith types input limits f base c t = readInputWith types input limits g base c t := by
  refine Ty.byKindWith
    (motive := fun t => ∀ base c, readInputWith types input limits f base c t =
      readInputWith types input limits g base c t)
    ?value (fun _ _ => rfl) (fun _ _ => rfl) ?struct
    (fun r hr base c => congrFun (congrFun hr base) c) ?staticArray ?dynamicArray
    (fun _ _ _ _ _ _ => rfl) h base c
  case value =>
    intro t hv base c
    cases t <;> first | rfl | cases hv
  case struct =>
    intro name fields ih base c
    have hfields : ∀ base c, readInputFields types input limits f base c fields =
        readInputFields types input limits g base c fields := by
      induction fields with
      | nil => exact fun _ _ => rfl
      | cons field rest ihrest =>
        obtain ⟨hfield, hrest⟩ := List.forall_mem_cons.1 ih
        intro base c
        simp only [readInputFields, hfield, ihrest hrest]
    simp only [readInputWith, hfields]
  case staticArray =>
    intro element length ih base c
    simp only [readInputWith, ih]
  case dynamicArray =>
    intro element ih base c
    simp only [readInputWith, ih]

/-- Only a reference itself is read as what it stands for where the data of a variable starts. -/
theorem readInputAtWith_congr {input : Bytes} {limits : Limits}
    {f g : StructRef → Nat → Option Nat → Except ReadError Value} {t : Ty}
    (h : ∀ r, .structRef r ∈ t.parts → f r = g r) (offset : Nat) (length : Option Nat) :
    readInputAtWith types input limits f t offset length =
      readInputAtWith types input limits g t offset length := by
  cases t with
  | structRef r =>
    have href := h r (Ty.mem_parts_self _)
    exact congrFun (congrFun href offset) length
  | bytes | string | dynamicArray => cases length <;> rfl
  | _ => rfl

/--
What is computed for a type is computed along the type, in the same way for what references inside
it stand for.
-/
structure Computes (types : Declared) (t : Ty) : Prop where
  slots : types.slots t = t.slotsWith (types.atRef (fun _ => 1) types.slots)
  isDynamic : types.isDynamic t = t.isDynamicWith (types.atRef (fun _ => false) types.isDynamic)
  headSize? : types.headSize? t =
    types.headSizeWith? (types.atRef (fun _ => some 32) types.headSize?) t
  zero : types.zero t = t.ofBitsWith (types.atRef (fun _ => .struct []) types.zero) 0
  readStorage : ∀ view c, types.readStorage view t c = types.readStorageWith view
    (types.atRef (fun r _ => .error (.unresolved r.name)) (types.readStorage view)) c t
  readMemory : ∀ memory limits p, types.readMemory memory limits t p =
    types.readMemoryWith memory limits
      (types.atRef (fun r _ => .error (.unresolved r.name)) (types.readMemory memory limits)) p t
  readInput : ∀ input limits base c, types.readInput input limits t base c =
    types.readInputWith input limits
      (types.atRef (fun r _ _ => .error (.unresolved r.name)) (types.readInput input limits)) base c
      t
  readInputAt : ∀ input limits offset length, types.readInputAt input limits t offset length =
    types.readInputAtWith input limits
      (types.atRef (fun r _ _ => .error (.unresolved r.name)) (types.readInputAt input limits)) t
      offset length

/-- **The recursion has no bound of its own** on types with counted references. -/
theorem computes_of_refsAt {n : Nat} {t : Ty} (ht : t.RefsAt (n + 1)) : types.Computes t where
  slots := unfold_eq Ty.slotsWith (fun _ _ _ => Ty.slotsWith_congr) ht
  isDynamic := unfold_eq Ty.isDynamicWith (fun _ _ _ => Ty.isDynamicWith_congr) ht
  headSize? := unfold_eq (headSizeWith? types) (fun _ _ _ => headSizeWith?_congr) ht
  zero := unfold_eq (fun f t => t.ofBitsWith f 0) (fun _ _ _ h => Ty.ofBitsWith_congr h 0) ht
  readStorage view c := congrFun (unfold_eq (fun f t c => readStorageWith types view f c t)
    (fun _ _ _ h => funext (readStorageWith_congr h)) ht) c
  readMemory memory limits p := congrFun
    (unfold_eq (fun f t p => readMemoryWith types memory limits f p t)
      (fun _ _ _ h => funext (readMemoryWith_congr h)) ht) p
  readInput input limits base c := congrFun (congrFun
    (unfold_eq (fun f t base c => readInputWith types input limits f base c t)
      (fun _ _ _ h => funext fun base => funext (readInputWith_congr h base)) ht) base) c
  readInputAt input limits offset length := congrFun (congrFun
    (unfold_eq (readInputAtWith types input limits)
      (fun _ _ _ h => funext fun offset => funext (readInputAtWith_congr h offset)) ht) offset)
    length

/--
**The types of descriptors are well nested, and unfold finitely.** Let structs have dotted names,
and their definitions refer to each other in any way. Wherever references lead to from the type of a
descriptor, no struct is inside one of its name and references are to structs around them. No more
than 32 references can be followed one after the other. Up to there, each stands for a struct of its
name, which is the type of the descriptor again if that names the same struct and all structs have a
contract around them. There is an end to every way down the type, and on such a way everything is
computed from what lies right below.
-/
theorem unfolds_finitely (hreg : types.Registered)
    (hnames : ∀ e ∈ types.structs, Text.IsDottedName e.2.name) {descriptor : String}
    {contract : Option String} {t : Ty} (ht : types.resolve? descriptor contract = some t) :
    Acc types.Opens t ∧ ∀ n u, types.Leads t n u →
      n ≤ unfoldLimit ∧ u.WellNested ∧ types.Computes u ∧
      ∀ path r, u.Inside path (.structRef r) →
        (n = unfoldLimit → types.follow? r = none) ∧
        (n < unfoldLimit → ∃ fields, types.follow? r = some (.struct r.name fields) ∧
          (Ty.struct r.name fields).WellNested ∧
          ((∀ e ∈ types.structs, e.2.scope.isSome) → descriptor = "struct " ++ r.name →
            (Ty.struct r.name fields).same t = true)) := by
  have h : types.HasNames := ⟨hreg.isKept.1.key_eq, hnames⟩
  have hroot : types.IsUnfolded 0 t := isUnfolded_of_resolveNested h ht
  refine ⟨types.wellFounded_opens.apply t, fun n u hu => ?_⟩
  obtain ⟨hunfolded, hle⟩ := hu.isUnfolded h hroot
  refine ⟨hle, hunfolded.nested, computes_of_refsAt hunfolded.unfolds, fun path r hr => ⟨?_, ?_⟩⟩
  · intro hn
    have hcount := hunfolded.unfolds r hr.mem_parts
    exact if_pos (by omega)
  · intro hn
    obtain ⟨fields, hfollow⟩ := hunfolded.exists_follow? h hr.mem_parts hn
    obtain ⟨hnext, -⟩ := (hu.follow hr hfollow).isUnfolded h hroot
    refine ⟨fields, hfollow, hnext.nested, fun hscope hdescriptor => ?_⟩
    obtain ⟨s, hs⟩ := hunfolded.finds r hr.mem_parts
    rw [hdescriptor] at ht
    exact same_of_follow? h hscope hs ht hfollow

/-- A node of a tree, whose children are nodes. -/
theorem unfolds_finitely_tree :
    let types := ({} : Declared).addStruct ⟨"T.Node", some "T",
      [("value", "uint256"), ("children", "struct T.Node storage ref[] storage ref")]⟩
    let r : StructRef := ⟨"T.Node", some "T", 1⟩
    let t : Ty := .struct "T.Node"
      [("value", .uint 32), ("children", .dynamicArray (.structRef r))]
    types.Registered ∧ (∀ e ∈ types.structs, Text.IsDottedName e.2.name) ∧
      types.resolve? "struct T.Node" none = some t ∧ Acc types.Opens t ∧ t.WellNested ∧
      ∃ fields, types.follow? r = some (.struct "T.Node" fields) ∧
        (Ty.struct "T.Node" fields).same t = true := by
  intro types r t
  have hreg : types.Registered := .struct _ .none
  have hnames : ∀ e ∈ types.structs, Text.IsDottedName e.2.name := by decide
  have ht : types.resolve? "struct T.Node" none = some t := rfl
  obtain ⟨hacc, hleads⟩ := unfolds_finitely hreg hnames ht
  obtain ⟨-, hnested, -, hrefs⟩ := hleads 0 t .here
  have hr : t.Inside ["T.Node"] (.structRef r) :=
    .field (List.mem_cons_of_mem _ List.mem_cons_self) (.dynamicArray (.self _))
  obtain ⟨fields, hfollow, -, hsame⟩ := (hrefs _ r hr).2 (by decide)
  exact ⟨hreg, hnames, ht, hacc, hnested, fields, hfollow, hsame (by decide) rfl⟩

end Declared

end Solscope
