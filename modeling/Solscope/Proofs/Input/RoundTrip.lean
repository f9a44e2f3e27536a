import Mathlib.Tactic.Linarith
import Solscope.Proofs.Bytes
import Solscope.Proofs.Input.Heads
import Solscope.Proofs.Read.Rows
import Solscope.Proofs.Text.Utf8
import Solscope.Proofs.Value.Bounds
import Solscope.Read.Input

/-!
# Reading back encoded input

* `Declared.readHead_of_placedAt`: a head leads to the data of its component.
* `Declared.readsBack`: a value is read back wherever its component lies.
* `Declared.readInputAt_of_encode`: a variable is read back from where its data starts.
* `Declared.readInputs_of_encode`: **reading input inverts its encoding.**
-/

namespace Solscope

open Abi

/-- How many bytes or elements a value of dynamic length has. -/
def Value.count : Value → Nat
  | bytes data => data.length
  | string text => (Text.utf8 text).length
  | array items => items.length
  | _ => 0

/-! ## Words and slices -/

namespace Input

variable {input data : Bytes} {offset : Nat}

theorem slice_of_hasAt (h : HasAt input offset data) :
    Memory.slice input offset data.length = .ok data := by
  rw [Memory.slice, if_pos h.le, h.slice]

theorem word_of_hasAt {w : Word} (h : HasAt input offset w.toBytes) :
    word input offset = .ok w := by
  have hslice := slice_of_hasAt h
  rw [Word.length_toBytes] at hslice
  rw [word, hslice]
  exact congrArg Except.ok w.ofBytes_toBytes

/-- A number is read back if it is a size. -/
theorem size_of_hasAt {n : Nat} (h : HasAt input offset (number n)) (hn : n ≤ Size.largest) :
    size input offset = .ok n := by
  have hnat := Word.toNat_ofNat_of_lt (Size.lt_of_le_largest hn)
  rw [size, word_of_hasAt h]
  show Except.ok (Size.clamp (Word.ofNat n).toNat) = _
  rw [hnat, Size.clamp_of_le hn]

end Input

namespace Declared

variable {types : Declared} {input data : Bytes} {limits : Limits}
  {ofRef : StructRef → Nat → HeadCursor → Except ReadError (Value × HeadCursor)}
  {t : Ty} {v : Value} {base offset : Nat}

/-- **A head leads to the data of its component.** -/
theorem readHead_of_placedAt (types : Declared) (hinput : input.length ≤ Size.largest)
    (ht : t.Regular) (hempty : EmptyArraysFit t) (hdata : encode? t v = some data)
    (h : (Component.mk (dynamic t) data).PlacedAt input base offset) :
    ∃ start, types.readHead input base t ⟨offset⟩ =
        .ok (start, ⟨offset + (Component.mk (dynamic t) data).headLength⟩) ∧
      HasAt input start data := by
  rw [readHead, isDynamic_eq types ht.not_inline]
  cases hdyn : dynamic t with
  | true =>
    rw [hdyn] at h
    obtain ⟨tail, hhead, htail⟩ := h
    -- both places lie in the input, so no sum is cut off at the largest size
    have hle := hhead.le
    have htle := htail.le
    rw [length_number] at hle
    have hnext : Size.add offset 32 = offset + 32 := Size.clamp_of_le (by omega)
    have hstart : Size.add base tail = base + tail := Size.clamp_of_le (by omega)
    refine ⟨base + tail, ?_, htail⟩
    simp only [if_true, HeadCursor.take, Input.size_of_hasAt hhead (by omega), hnext]
    simp only [bind, Except.bind, pure, Except.pure, hstart]
    rfl
  | false =>
    rw [hdyn] at h
    have hplaced : HasAt input offset data := h
    have hle := hplaced.le
    have hlength : (Component.mk (dynamic t) data).headLength = data.length := by rw [hdyn]; rfl
    have hsize := headSize?_of_encode types ht hempty hdata (by omega)
    have hnext : Size.add offset data.length = offset + data.length :=
      Size.clamp_of_le (by omega)
    refine ⟨offset, ?_, hplaced⟩
    rw [hlength] at hsize
    simp only [Bool.false_eq_true, if_false, HeadCursor.take, hsize, hnext]
    rfl

/-! ## Values -/

/-- Values of a type are read back wherever their components lie. -/
def ReadsBack (types : Declared) (input : Bytes) (limits : Limits)
    (ofRef : StructRef → Nat → HeadCursor → Except ReadError (Value × HeadCursor)) (t : Ty) :
    Prop :=
  ∀ v data base offset, v.Within limits → encode? t v = some data →
    (Component.mk (dynamic t) data).PlacedAt input base offset →
    readInputWith types input limits ofRef base ⟨offset⟩ t =
      .ok (v, ⟨offset + (Component.mk (dynamic t) data).headLength⟩)

/-- Members that are read back one by one are read back in a row. -/
theorem readInputFields_of_placed {fields : List (String × Ty)} {values : List (String × Value)}
    {components : List Component} (hread : ∀ f ∈ fields, ReadsBack types input limits ofRef f.2)
    (hv : ∀ v ∈ values, v.2.Within limits) (hnames : values.map Prod.fst = fields.map Prod.fst)
    (hvalues : components? (fields.map Prod.snd) (values.map Prod.snd) = some components)
    (h : Placed input base offset components) :
    readInputFields types input limits ofRef base ⟨offset⟩ fields =
      .ok (values, ⟨offset + headLength components⟩) := by
  induction fields generalizing values components offset with
  | nil =>
    obtain rfl : values = [] := List.map_eq_nil_iff.1 hnames
    obtain rfl := Option.some.inj hvalues
    rfl
  | cons f rest ih =>
    obtain ⟨name, t⟩ := f
    obtain ⟨v, values, rfl, htail⟩ := exists_cons_of_names hnames
    obtain ⟨_, _, data, others, heq, hdata, hothers, rfl⟩ := components?_cons_eq_some hvalues
    obtain ⟨rfl, rfl⟩ := List.cons.inj heq
    have hfirst := hread (name, t) List.mem_cons_self v data base offset
      (hv (name, v) List.mem_cons_self) hdata h.1
    have hrest := ih (fun f hf => hread f (List.mem_cons_of_mem _ hf))
      (fun v hv' => hv v (List.mem_cons_of_mem _ hv')) htail hothers h.2
    rw [readInputFields, hfirst]
    simp only [bind, Except.bind, hrest, headLength, Nat.add_assoc]
    rfl

/-- Elements that are read back one by one are read back in a row. -/
theorem readElements_of_placed {element : Ty} {items : List Value} {components : List Component}
    (read : HeadCursor → Except ReadError (Value × HeadCursor))
    (hread : ∀ v data offset, v ∈ items → encode? element v = some data →
      (Component.mk (dynamic element) data).PlacedAt input base offset →
      read ⟨offset⟩ = .ok (v, ⟨offset + (Component.mk (dynamic element) data).headLength⟩))
    (hitems : components? (List.replicate items.length element) items = some components)
    (h : Placed input base offset components) :
    readRepeated read items.length ⟨offset⟩ = .ok (items, ⟨offset + headLength components⟩) := by
  induction items generalizing components offset with
  | nil => obtain rfl := Option.some.inj hitems; rfl
  | cons v rest ih =>
    rw [List.length_cons, List.replicate_succ] at hitems
    obtain ⟨_, _, data, others, heq, hdata, hothers, rfl⟩ := components?_cons_eq_some hitems
    obtain ⟨rfl, rfl⟩ := List.cons.inj heq
    have hfirst := hread v data offset List.mem_cons_self hdata h.1
    have hrest := ih (fun v data offset hv => hread v data offset (List.mem_cons_of_mem _ hv))
      hothers h.2
    rw [List.length_cons, readRepeated, hfirst]
    simp only [bind, Except.bind, hrest, headLength, Nat.add_assoc]
    rfl

/-- Data of dynamic length lies behind its length. -/
theorem size_of_counted {start count : Nat} (hinput : input.length ≤ Size.largest)
    (hcount : count ≤ Size.largest) (h : HasAt input start (number count ++ data)) :
    Input.size input start = .ok count ∧ Size.add start 32 = start + 32 ∧
      HasAt input (start + 32) data := by
  have hdata := h.right
  rw [length_number] at hdata
  have hle := hdata.le
  exact ⟨Input.size_of_hasAt h.left hcount, Size.clamp_of_le (by omega), hdata⟩

theorem readInputWith_of_isValue (ht : t.isValue = true) (c : HeadCursor) :
    readInputWith types input limits ofRef base c t =
      (types.readHead input base t c).bind fun head =>
        (Input.word input head.1).bind fun w => .ok (types.ofWord t w, head.2) := by
  cases t <;> first | rfl | cases ht

/-- **A value is read back wherever its component lies.** -/
theorem readsBack (types : Declared) (limits : Limits)
    (ofRef : StructRef → Nat → HeadCursor → Except ReadError (Value × HeadCursor))
    (hlimits : limits.AreSizes) (hinput : input.length ≤ Size.largest) {t : Ty} (ht : t.Regular)
    (hempty : EmptyArraysFit t) : ReadsBack types input limits ofRef t := by
  -- at every base, since the tuples inside a value have bases of their own
  induction t using Ty.byKind with
  | value t hvalue =>
    intro v data base offset _ hdata h
    obtain ⟨start, hhead, hat⟩ := readHead_of_placedAt types hinput ht hempty hdata h
    rw [encode?_of_isValue hvalue] at hdata
    obtain ⟨w, hword, rfl⟩ := Option.map_eq_some_iff.1 hdata
    rw [readInputWith_of_isValue hvalue, hhead]
    simp only [Except.bind, Input.word_of_hasAt hat]
    exact congrArg (fun v => Except.ok (v, _)) (types.ofWord_of_word? ht.hasWidth hword)
  | bytes =>
    intro v data base offset hv hdata h
    obtain ⟨start, hhead, hat⟩ := readHead_of_placedAt types hinput ht hempty hdata h
    cases v with
    | bytes data =>
      obtain rfl := Option.some.inj hdata
      have hlen := hv.bytes_le
      obtain ⟨hsize, hnext, hbytes⟩ := size_of_counted hinput (hlen.trans hlimits.bytes) hat
      rw [readInputWith, hhead]
      simp only [bind, Except.bind, hsize, hnext, Nat.min_eq_left hlen,
        Input.slice_of_hasAt hbytes.left]
      rfl
    | _ => cases hdata
  | string =>
    intro v data base offset hv hdata h
    obtain ⟨start, hhead, hat⟩ := readHead_of_placedAt types hinput ht hempty hdata h
    cases v with
    | string text =>
      obtain rfl := Option.some.inj hdata
      have hlen := hv.string_le
      obtain ⟨hsize, hnext, hbytes⟩ := size_of_counted hinput (hlen.trans hlimits.bytes) hat
      rw [readInputWith, hhead]
      simp only [bind, Except.bind, hsize, hnext, Nat.min_eq_left hlen,
        Input.slice_of_hasAt hbytes.left, Text.ofUtf8_utf8]
      rfl
    | _ => cases hdata
  | struct name fields ih =>
    intro v data base offset hv hdata h
    obtain ⟨start, hhead, hat⟩ := readHead_of_placedAt types hinput ht hempty hdata h
    cases v with
    | struct values =>
      obtain ⟨components, hmembers, rfl⟩ := Option.map_eq_some_iff.1 hdata
      obtain ⟨hnames, hvalues⟩ := members?_eq_some hmembers
      have hfields := readInputFields_of_placed (fun f hf => ih f hf (ht.field hf) (hempty.field hf))
        (fun v hv' => hv.member hv') hnames hvalues (placed_of_tuple hat)
      rw [readInputWith, hhead]
      simp only [bind, Except.bind, hfields]
      rfl
    | _ => cases hdata
  | structRef r => exact absurd ht Ty.Regular.not_structRef
  | staticArray element length ih =>
    intro v data base offset hv hdata h
    obtain ⟨start, hhead, hat⟩ := readHead_of_placedAt types hinput ht hempty hdata h
    cases v with
    | array items =>
      obtain ⟨rfl, components, hitems, rfl⟩ := encode?_staticArray_eq_some hdata
      have hlen := hv.array_le
      have hread := readElements_of_placed
        (fun c => readInputWith types input limits ofRef start c element)
        (fun v data offset hv' => ih ht.ofStatic hempty.ofStatic v data start offset
          (hv.item hv')) hitems (placed_of_tuple hat)
      rw [readInputWith, hhead]
      simp only [bind, Except.bind, Nat.min_eq_left hlen, hread]
      rfl
    | _ => cases hdata
  | dynamicArray element ih =>
    intro v data base offset hv hdata h
    obtain ⟨start, hhead, hat⟩ := readHead_of_placedAt types hinput ht hempty hdata h
    cases v with
    | array items =>
      obtain ⟨components, hitems, rfl⟩ := encode?_dynamicArray_eq_some hdata
      have hlen := hv.array_le
      obtain ⟨hsize, hnext, htuple⟩ := size_of_counted hinput (hlen.trans hlimits.array) hat
      have hread := readElements_of_placed
        (fun c => readInputWith types input limits ofRef (start + 32) c element)
        (fun v data offset hv' => ih ht.ofDynamic hempty.ofDynamic v data (start + 32) offset
          (hv.item hv')) hitems (placed_of_tuple htuple)
      rw [readInputWith, hhead]
      simp only [bind, Except.bind, hsize, hnext, Nat.min_eq_left hlen, hread]
      rfl
    | _ => cases hdata
  | mapping k v => exact absurd ht Ty.Regular.not_mapping

/-- Input is read by one function for every type, whatever references stand for. -/
theorem exists_readInput_eq (types : Declared) (input : Bytes) (limits : Limits) :
    ∃ ofRef, ∀ t base c, types.readInput input limits t base c =
      readInputWith types input limits ofRef base c t :=
  ⟨_, fun _ _ _ => rfl⟩

/-- **A value is read back with the cursor at its head.** -/
theorem readInput_of_placedAt (types : Declared) (hlimits : limits.AreSizes)
    (hinput : input.length ≤ Size.largest) (ht : t.Regular) (hempty : EmptyArraysFit t)
    (hv : v.Within limits) (hdata : encode? t v = some data)
    (h : (Component.mk (dynamic t) data).PlacedAt input base offset) :
    types.readInput input limits t base ⟨offset⟩ =
      .ok (v, ⟨offset + (Component.mk (dynamic t) data).headLength⟩) := by
  obtain ⟨ofRef, heq⟩ := exists_readInput_eq types input limits
  rw [heq]
  exact readsBack types limits ofRef hlimits hinput ht hempty v data base offset hv hdata h

/-! ## Variables -/

/--
Where the data of a variable starts and what is known of its length, if its encoding starts at
`offset`: behind the length of byte strings and dynamic arrays, at the tuple of anything else.
-/
inductive DataAt (offset : Nat) (v : Value) : Ty → (start : Nat) → (length : Option Nat) → Prop
  | bytes : DataAt offset v .bytes (offset + 32) (some v.count)
  | string : DataAt offset v .string (offset + 32) (some v.count)
  | dynamicArray {element : Ty} :
      DataAt offset v (.dynamicArray element) (offset + 32) (some v.count)
  | staticArray {element : Ty} {count : Nat} (length : Option Nat) :
      DataAt offset v (.staticArray element count) offset length
  | struct {name : String} {fields : List (String × Ty)} (length : Option Nat) :
      DataAt offset v (.struct name fields) offset length

theorem exists_readInputAt_eq (types : Declared) (input : Bytes) (limits : Limits) :
    ∃ ofRef, ∀ t offset length, types.readInputAt input limits t offset length =
      readInputAtWith types input limits ofRef t offset length :=
  ⟨_, fun _ _ _ => rfl⟩

/-- **A variable is read back from where its data starts.** -/
theorem readInputAt_of_encode (types : Declared) (hlimits : limits.AreSizes)
    (hinput : input.length ≤ Size.largest) (ht : t.Regular) (hempty : EmptyArraysFit t)
    (hv : v.Within limits) (hdata : encode? t v = some data) (h : HasAt input offset data)
    {start : Nat} {length : Option Nat} (hat : DataAt offset v t start length) :
    types.readInputAt input limits t start length = .ok v := by
  obtain ⟨ofRef, heq⟩ := exists_readInputAt_eq types input limits
  rw [heq]
  cases hat with
  | bytes =>
    cases v with
    | bytes data =>
      obtain rfl := Option.some.inj hdata
      have hlen := hv.bytes_le
      obtain ⟨-, -, hbytes⟩ := size_of_counted hinput (hlen.trans hlimits.bytes) h
      rw [readInputAtWith, Value.count, Nat.min_eq_left hlen, Input.slice_of_hasAt hbytes.left]
      rfl
    | _ => cases hdata
  | string =>
    cases v with
    | string text =>
      obtain rfl := Option.some.inj hdata
      have hlen := hv.string_le
      obtain ⟨-, -, hbytes⟩ := size_of_counted hinput (hlen.trans hlimits.bytes) h
      rw [readInputAtWith, Value.count, Nat.min_eq_left hlen, Input.slice_of_hasAt hbytes.left]
      exact congrArg (fun text => Except.ok (Value.string text)) (Text.ofUtf8_utf8 text)
    | _ => cases hdata
  | @dynamicArray element =>
    cases v with
    | array items =>
      obtain ⟨components, hitems, rfl⟩ := encode?_dynamicArray_eq_some hdata
      have hlen := hv.array_le
      obtain ⟨-, -, htuple⟩ := size_of_counted hinput (hlen.trans hlimits.array) h
      have hread := readElements_of_placed (types.readInput input limits element (offset + 32))
        (fun v data c hv' hdata => readInput_of_placedAt types hlimits hinput ht.ofDynamic
          hempty.ofDynamic (hv.item hv') hdata) hitems (placed_of_tuple htuple)
      rw [readInputAtWith, readElements, Value.count, Nat.min_eq_left hlen, hread]
      rfl
    | _ => cases hdata
  | @staticArray element count =>
    cases v with
    | array items =>
      obtain ⟨rfl, components, hitems, rfl⟩ := encode?_staticArray_eq_some hdata
      have hlen := hv.array_le
      have hread := readElements_of_placed (types.readInput input limits element offset)
        (fun v data c hv' hdata => readInput_of_placedAt types hlimits hinput ht.ofStatic
          hempty.ofStatic (hv.item hv') hdata) hitems (placed_of_tuple h)
      rw [readInputAtWith, readElements, Nat.min_eq_left hlen, hread]
      rfl
    | _ => cases hdata
  | @struct name fields =>
    cases v with
    | struct values =>
      obtain ⟨components, hmembers, rfl⟩ := Option.map_eq_some_iff.1 hdata
      obtain ⟨hnames, hvalues⟩ := members?_eq_some hmembers
      have hfields := readInputFields_of_placed
        (fun f hf => readsBack types limits (types.readInputRef input limits) hlimits hinput
          (ht.field hf) (hempty.field hf))
        (fun v hv' => hv.member hv') hnames hvalues (placed_of_tuple h)
      rw [readInputAtWith, readTuple, hfields]
      rfl
    | _ => cases hdata

/-! ## Tuples -/

/-- Values of some types in turn, the heads of a tuple that starts at `base`. -/
def readInputs (types : Declared) (input : Bytes) (limits : Limits) (base : Nat) (c : HeadCursor) :
    List Ty → Except ReadError (List Value × HeadCursor)
  | [] => .ok ([], c)
  | t :: rest => do
    let (v, c) ← types.readInput input limits t base c
    let (values, c) ← readInputs types input limits base c rest
    return (v :: values, c)

/-- Components are read back in turn. -/
theorem readInputs_of_placed (types : Declared) (hlimits : limits.AreSizes)
    (hinput : input.length ≤ Size.largest) {ts : List Ty} {values : List Value}
    {components : List Component} (ht : ∀ t ∈ ts, t.Regular ∧ EmptyArraysFit t)
    (hv : ∀ v ∈ values, v.Within limits) (hvalues : components? ts values = some components)
    (h : Placed input base offset components) :
    types.readInputs input limits base ⟨offset⟩ ts =
      .ok (values, ⟨offset + headLength components⟩) := by
  induction ts generalizing values components offset with
  | nil =>
    cases values with
    | nil => obtain rfl := Option.some.inj hvalues; rfl
    | cons v rest => cases hvalues
  | cons t ts ih =>
    obtain ⟨v, rest, data, others, rfl, hdata, hothers, rfl⟩ := components?_cons_eq_some hvalues
    obtain ⟨hregular, hempty⟩ := ht t List.mem_cons_self
    have hfirst := readInput_of_placedAt types hlimits hinput hregular hempty
      (hv v List.mem_cons_self) hdata h.1
    have hrest := ih (fun t ht' => ht t (List.mem_cons_of_mem _ ht'))
      (fun v hv' => hv v (List.mem_cons_of_mem _ hv')) hothers h.2
    rw [readInputs, hfirst]
    simp only [bind, Except.bind, hrest, headLength, Nat.add_assoc]
    rfl

/-- Types with heads have them in turn. -/
theorem mapM_headSize?_of_components (types : Declared) {ts : List Ty} {values : List Value}
    {components : List Component}
    (ht : ∀ t ∈ ts, t.Regular ∧ EmptyArraysFit t)
    (hvalues : components? ts values = some components)
    (hle : headLength components ≤ Size.largest) :
    ∃ sizes, ts.mapM types.headSize? = some sizes ∧ sizes.sum = headLength components := by
  induction ts generalizing values components with
  | nil =>
    cases values with
    | nil => obtain rfl := Option.some.inj hvalues; exact ⟨[], rfl, rfl⟩
    | cons v rest => cases hvalues
  | cons t ts ih =>
    obtain ⟨v, rest, data, others, rfl, hdata, hothers, rfl⟩ := components?_cons_eq_some hvalues
    obtain ⟨hregular, hempty⟩ := ht t List.mem_cons_self
    rw [headLength] at hle
    obtain ⟨sizes, hsizes, hsum⟩ :=
      ih (fun t ht' => ht t (List.mem_cons_of_mem _ ht')) hothers (by omega)
    have hsize := headSize?_of_encode types hregular hempty hdata (by omega)
    refine ⟨_ :: sizes, ?_, by rw [List.sum_cons, hsum, headLength]⟩
    rw [List.mapM_cons, hsize, hsizes]
    rfl

/--
**Reading input inverts its encoding.** Where the input has the encoding of a tuple, the values are
read in turn, and the cursor ends behind their heads. Where it has the encoding of a value, a
variable whose data starts there is read as that value. Inside the types there is no array of no
elements whose elements have heads with too large a sum, as that sum is asked for all the same.
-/
theorem readInputs_of_encode (types : Declared) {input : Bytes} {limits : Limits}
    (hlimits : limits.AreSizes) (hinput : input.length ≤ Size.largest) :
    (∀ (ts : List Ty) (values : List Value) (data : Bytes) (base : Nat),
      (∀ t ∈ ts, t.Regular ∧ EmptyArraysFit t) → (∀ v ∈ values, v.Within limits) →
      encodeTuple? ts values = some data → HasAt input base data →
      ∃ sizes, ts.mapM types.headSize? = some sizes ∧
        types.readInputs input limits base ⟨base⟩ ts = .ok (values, ⟨base + sizes.sum⟩)) ∧
    ∀ (t : Ty) (v : Value) (data : Bytes) (offset start : Nat) (length : Option Nat), t.Regular →
      EmptyArraysFit t → v.Within limits → encode? t v = some data → HasAt input offset data →
      DataAt offset v t start length → types.readInputAt input limits t start length = .ok v := by
  refine ⟨fun ts values data base ht hv hdata h => ?_,
    fun t v data offset start length ht hempty hv hdata h =>
      readInputAt_of_encode types hlimits hinput ht hempty hv hdata h⟩
  obtain ⟨components, hvalues, rfl⟩ := Option.map_eq_some_iff.1 hdata
  have hle : headLength components ≤ Size.largest := by
    have hle := h.left.le
    rw [length_heads] at hle
    omega
  obtain ⟨sizes, hsizes, hsum⟩ := mapM_headSize?_of_components types ht hvalues hle
  refine ⟨sizes, hsizes, ?_⟩
  rw [readInputs_of_placed types hlimits hinput ht hv hvalues (placed_of_tuple h), hsum]

/-- A tuple with an array of structs that hold strings, behind four bytes of something else. -/
theorem readInputs_of_encode_nested :
    let ts : List Ty := [.bool, .dynamicArray (.struct "S" [("a", .int 1), ("b", .string)]),
      .staticArray .bytes 1]
    let values : List Value := [.bool true,
      .array [.struct [("a", .int (-1)), ("b", .string "hi")]], .array [.bytes [7, 8]]]
    let data := (encodeTuple? ts values).getD []
    let input : Bytes := [1, 2, 3, 4] ++ data ++ [5]
    let limits : Limits := {}
    limits.AreSizes ∧ input.length ≤ Size.largest ∧ encodeTuple? ts values = some data ∧
      ({} : Declared).readInputs input limits 4 ⟨4⟩ ts = .ok (values, ⟨4 + 96⟩) := by
  intro ts values data input limits
  have hlimits : limits.AreSizes := ⟨by decide, by decide, by decide⟩
  have hinput : input.length ≤ Size.largest := by decide +kernel
  have hdata : encodeTuple? ts values = some data := by decide +kernel
  have hempty : ∀ t ∈ ts, EmptyArraysFit t := by
    simp [ts, EmptyArraysFit, Ty.parts, Ty.partsOfFields]
  refine ⟨hlimits, hinput, hdata, ?_⟩
  obtain ⟨sizes, hsizes, hread⟩ := (readInputs_of_encode {} hlimits hinput).1 ts values data 4
    (fun t ht => ⟨⟨by revert t; decide, by revert t; decide⟩, hempty t ht⟩) (by decide) hdata
    ⟨[1, 2, 3, 4], [5], rfl, rfl⟩
  obtain rfl := Option.some.inj hsizes
  exact hread

end Declared

end Solscope
