import Mathlib.Tactic.Linarith
import Mathlib.Tactic.Ring
import Solscope.Layout.Extent
import Solscope.Proofs.Value.Scalar
import Solscope.Text.Utf8

/-!
# The encoding of tuples

A tuple is encoded as the heads of all components, followed by the tails of the dynamic ones. The
head of a dynamic component is the offset of its tail, counted from the start of the tuple; the head
of any other component is all of its data.

* `Abi.encode?`, `Abi.encodeTuple?`: the encoding of a value and of a tuple of values.
* `Abi.placed_of_tuple`: **where a tuple lies, every component is found through its head.**
-/

namespace Solscope.Abi

/-! ## Heads and tails -/

/-- A component of a tuple, encoded. -/
structure Component where
  /-- Whether the data lies out of line. -/
  dynamic : Bool
  data : Bytes

/-- A number as a word. -/
def number (n : Nat) : Bytes := (Word.ofNat n).toBytes

/-- The bytes of the head of a component. -/
def Component.headLength (c : Component) : Nat := if c.dynamic then 32 else c.data.length

/-- The bytes of the heads of components. -/
def headLength : List Component → Nat
  | [] => 0
  | c :: rest => c.headLength + headLength rest

/-- The heads of components, the first tail being at `offset`. -/
def heads (offset : Nat) : List Component → Bytes
  | [] => []
  | ⟨true, data⟩ :: rest => number offset ++ heads (offset + data.length) rest
  | ⟨false, data⟩ :: rest => data ++ heads offset rest

/-- The tails of components. -/
def tails : List Component → Bytes
  | [] => []
  | ⟨true, data⟩ :: rest => data ++ tails rest
  | ⟨false, _⟩ :: rest => tails rest

/-- The encoding of a tuple. -/
def tuple (components : List Component) : Bytes :=
  heads (headLength components) components ++ tails components

theorem length_number (n : Nat) : (number n).length = 32 := Word.length_toBytes _

theorem length_heads (offset : Nat) (components : List Component) :
    (heads offset components).length = headLength components := by
  induction components generalizing offset with
  | nil => rfl
  | cons c rest ih =>
    obtain ⟨_ | _, data⟩ := c
    · simp [heads, headLength, Component.headLength, ih]
    · simp [heads, headLength, Component.headLength, ih, length_number]

/-! ## The encoding of values -/

mutual

/-- Whether the data of a type lies out of line. -/
def dynamic : Ty → Bool
  | .bytes | .string | .dynamicArray _ => true
  | .staticArray element _ => dynamic element
  | .struct _ fields => anyDynamic fields
  | _ => false

/-- Whether the data of a member lies out of line. -/
def anyDynamic : List (String × Ty) → Bool
  | [] => false
  | (_, t) :: rest => dynamic t || anyDynamic rest

end

/-- Bytes, filled up with zeros to whole words. -/
def padded (data : Bytes) : Bytes :=
  data ++ List.replicate (32 * Size.ceilDiv data.length 32 - data.length) 0

mutual

/-- The encoding of a value of a type, without its head. -/
def encode? : Ty → Value → Option Bytes
  | .bytes, .bytes data => some (number data.length ++ padded data)
  | .string, .string text =>
    some (number (Text.utf8 text).length ++ padded (Text.utf8 text))
  | .struct _ fields, .struct values => (members? fields values).map tuple
  | .staticArray element length, .array items =>
    if items.length = length then
      (items.mapM fun v => (encode? element v).map (Component.mk (dynamic element))).map tuple
    else none
  | .dynamicArray element, .array items =>
    (items.mapM fun v => (encode? element v).map (Component.mk (dynamic element))).map
      fun components => number items.length ++ tuple components
  | t, v => (t.word? v).map Word.toBytes

/-- The members of a struct, encoded. -/
def members? : List (String × Ty) → List (String × Value) → Option (List Component)
  | [], [] => some []
  | (name, t) :: fields, (name', v) :: values =>
    if name = name' then do
      let data ← encode? t v
      return ⟨dynamic t, data⟩ :: (← members? fields values)
    else none
  | _, _ => none

end

/-- Values of some types, encoded. -/
def components? : List Ty → List Value → Option (List Component)
  | [], [] => some []
  | t :: types, v :: values => do
    let data ← encode? t v
    return ⟨dynamic t, data⟩ :: (← components? types values)
  | _, _ => none

/-- The encoding of values of some types as a tuple. -/
def encodeTuple? (types : List Ty) (values : List Value) : Option Bytes :=
  (components? types values).map tuple

theorem encode?_of_isValue {t : Ty} (ht : t.isValue = true) (v : Value) :
    encode? t v = (t.word? v).map Word.toBytes := by
  cases t <;> first | rfl | cases ht

theorem dynamic_of_isValue {t : Ty} (ht : t.isValue = true) : dynamic t = false := by
  cases t <;> first | rfl | cases ht

theorem components?_cons_eq_some {t : Ty} {types : List Ty} {values : List Value}
    {components : List Component} (h : components? (t :: types) values = some components) :
    ∃ v rest data others, values = v :: rest ∧ encode? t v = some data ∧
      components? types rest = some others ∧ components = ⟨dynamic t, data⟩ :: others := by
  cases values with
  | nil => simp [components?] at h
  | cons v rest =>
    rw [components?] at h
    simp only [Option.bind_eq_bind, Option.bind_eq_some_iff] at h
    obtain ⟨data, hdata, others, hothers, heq⟩ := h
    exact ⟨v, rest, data, others, rfl, hdata, hothers, (Option.some.inj heq).symm⟩

/-- Items are encoded as a tuple of as many equal types. -/
theorem mapM_encode?_eq (element : Ty) (items : List Value) :
    (items.mapM fun v => (encode? element v).map (Component.mk (dynamic element))) =
      components? (List.replicate items.length element) items := by
  induction items with
  | nil => rfl
  | cons v rest ih =>
    rw [List.mapM_cons, ih, List.length_cons, List.replicate_succ, components?]
    cases encode? element v <;> rfl

theorem encode?_staticArray_eq_some {element : Ty} {length : Nat} {items : List Value}
    {data : Bytes} (h : encode? (.staticArray element length) (.array items) = some data) :
    items.length = length ∧ ∃ components,
      components? (List.replicate items.length element) items = some components ∧
        tuple components = data := by
  rw [encode?] at h
  split at h
  · rename_i hlen
    obtain ⟨components, hcomponents, rfl⟩ := Option.map_eq_some_iff.1 h
    exact ⟨hlen, components, by rw [← mapM_encode?_eq, hcomponents], rfl⟩
  · cases h

theorem encode?_dynamicArray_eq_some {element : Ty} {items : List Value} {data : Bytes}
    (h : encode? (.dynamicArray element) (.array items) = some data) :
    ∃ components, components? (List.replicate items.length element) items = some components ∧
      number items.length ++ tuple components = data := by
  rw [encode?] at h
  obtain ⟨components, hcomponents, rfl⟩ := Option.map_eq_some_iff.1 h
  exact ⟨components, by rw [← mapM_encode?_eq, hcomponents], rfl⟩

/-- Members are encoded as a tuple of their types, if they have the names of the fields. -/
theorem members?_eq_some {fields : List (String × Ty)} {values : List (String × Value)}
    {components : List Component} (h : members? fields values = some components) :
    values.map Prod.fst = fields.map Prod.fst ∧
      components? (fields.map Prod.snd) (values.map Prod.snd) = some components := by
  induction fields generalizing values components with
  | nil =>
    cases values with
    | nil => exact ⟨rfl, h⟩
    | cons v rest => cases h
  | cons f fields ih =>
    obtain ⟨name, t⟩ := f
    cases values with
    | nil => cases h
    | cons v rest =>
      obtain ⟨name', v⟩ := v
      rw [members?] at h
      split at h
      · rename_i hname
        simp only [Option.bind_eq_bind, Option.bind_eq_some_iff] at h
        obtain ⟨data, hdata, others, hothers, heq⟩ := h
        obtain ⟨hnames, hcomponents⟩ := ih hothers
        refine ⟨by rw [List.map_cons, List.map_cons, hnames, hname], ?_⟩
        rw [List.map_cons, List.map_cons, components?, hdata, hcomponents]
        exact heq
      · cases h

/-! ## Where data lies -/

/-- The input has some data at an offset. -/
def HasAt (input : Bytes) (offset : Nat) (data : Bytes) : Prop :=
  ∃ before after, input = before ++ data ++ after ∧ before.length = offset

/-- A component of a tuple that starts at `base` lies where its head at `offset` says. -/
def Component.PlacedAt (input : Bytes) (base offset : Nat) (c : Component) : Prop :=
  if c.dynamic then ∃ tail, HasAt input offset (number tail) ∧ HasAt input (base + tail) c.data
  else HasAt input offset c.data

/-- Components of a tuple that starts at `base`, the first head of which is at `offset`. -/
def Placed (input : Bytes) (base : Nat) : (offset : Nat) → List Component → Prop
  | _, [] => True
  | offset, c :: rest =>
    c.PlacedAt input base offset ∧ Placed input base (offset + c.headLength) rest

namespace HasAt

variable {input data more : Bytes} {offset : Nat}

theorem left (h : HasAt input offset (data ++ more)) : HasAt input offset data := by
  obtain ⟨before, after, rfl, hlen⟩ := h
  exact ⟨before, more ++ after, by simp, hlen⟩

theorem right (h : HasAt input offset (data ++ more)) :
    HasAt input (offset + data.length) more := by
  obtain ⟨before, after, rfl, hlen⟩ := h
  exact ⟨before ++ data, after, by simp, by rw [List.length_append, hlen]⟩

theorem le (h : HasAt input offset data) : offset + data.length ≤ input.length := by
  obtain ⟨before, after, rfl, hlen⟩ := h
  simp only [List.length_append]
  omega

theorem slice (h : HasAt input offset data) : input.slice offset data.length = data := by
  obtain ⟨before, after, rfl, rfl⟩ := h
  simp [Bytes.slice]

end HasAt

theorem placed_of_heads {input : Bytes} {base offset first : Nat} {components : List Component}
    (hheads : HasAt input offset (heads first components))
    (htails : HasAt input (base + first) (tails components)) :
    Placed input base offset components := by
  -- heads are passed one by one, and with a dynamic one its tail
  induction components generalizing offset first with
  | nil => trivial
  | cons c rest ih =>
    obtain ⟨_ | _, data⟩ := c
    · exact ⟨hheads.left, ih hheads.right htails⟩
    · refine ⟨⟨first, hheads.left, htails.left⟩, ?_⟩
      have hnext := hheads.right
      rw [length_number] at hnext
      have hlast := htails.right
      rw [Nat.add_assoc] at hlast
      exact ih hnext hlast

/-- **Where a tuple lies, every component is found through its head.** -/
theorem placed_of_tuple {input : Bytes} {base : Nat} {components : List Component}
    (h : HasAt input base (tuple components)) : Placed input base base components := by
  have htails := h.right
  rw [length_heads] at htails
  exact placed_of_heads h.left htails

end Solscope.Abi
