import Solscope.Ast
import Solscope.Proofs.Wire.Codec
import Solscope.Wire.Pause

/-!
# Messages and trees are read as they were written

The values of variables and the attributes of nodes may be anything, so a message or a tree is read
as it was written if these are.

* `Breakpoint.roundTrips`, `BreakpointRequest.roundTrips`, `Command.ofJson?_toJson`: what is sent to
  the debugger.
* `Notification.roundTrips`, `Ast.roundTrips`: pauses and trees of any size.
* `wire_round_trips`: **whatever is written is read as it was.**
-/

namespace Solscope

open RoundTrips

/-! ## Breakpoints and commands -/

theorem Breakpoint.roundTrips : RoundTrips toJson ofJson? (fun b => b.line ≤ Size.largest) where
  read_write {b} hb := Json.recordOfTwo_eq_some_iff.2 ⟨_, _, rfl, _, _,
    string.required.read_write trivial, size.required.read_write hb, rfl⟩
  fits {j b} hread := by
    obtain ⟨_, line, -, _, _, -, hline, rfl⟩ := Json.recordOfTwo_eq_some_iff.1 hread
    exact size.required.fits hline

namespace BreakpointRequest

/-- The numbers of a request are sizes. -/
def Fits (r : BreakpointRequest) : Prop :=
  r.line ≤ Size.largest ∧ ∀ column ∈ r.column, column ≤ Size.largest

theorem fields?_toJson (r : BreakpointRequest) :
    Json.fields? [["line"], ["column"], ["source"]] r.toJson =
      some [some (.nat r.line), r.column.map .nat, some (.str r.source)] := by
  obtain ⟨line, _ | column, source⟩ := r <;> rfl

theorem roundTrips : RoundTrips toJson ofJson? Fits where
  read_write {r} hr := Json.recordOfThree_eq_some_iff.2 ⟨_, _, _, fields?_toJson r, _, _, _,
    size.required.read_write hr.1, (size.optional (by simp [Json.nat])).read_write hr.2,
    string.required.read_write trivial, rfl⟩
  fits {j r} hread := by
    obtain ⟨_, _, _, -, _, _, _, hline, hcolumn, -, rfl⟩ :=
      Json.recordOfThree_eq_some_iff.1 hread
    exact ⟨size.required.fits hline, (size.optional (by simp [Json.nat])).fits hcolumn⟩

end BreakpointRequest

theorem Hit.roundTrips : RoundTrips toJson ofJson? (fun h => h.line ≤ Size.largest) where
  read_write {h} hh := Json.recordOfTwo_eq_some_iff.2 ⟨_, _, rfl, _, _,
    size.required.read_write hh, string.required.read_write trivial, rfl⟩
  fits {j h} hread := by
    obtain ⟨line, _, -, _, _, hline, -, rfl⟩ := Json.recordOfTwo_eq_some_iff.1 hread
    exact size.required.fits hline

namespace MappingInfo

/-- The numbers of a place are sizes. -/
def Fits (m : MappingInfo) : Prop :=
  m.pc ≤ Size.largest ∧ m.line ≤ Size.largest ∧ m.column ≤ Size.largest ∧ m.file ≤ Size.largest

theorem roundTrips : RoundTrips toJson ofJson? Fits where
  read_write {m} hm := Json.recordOfSix_eq_some_iff.2 ⟨_, _, _, _, _, _, rfl, _, _, _, _, _, _,
    size.required.read_write hm.1, size.required.read_write hm.2.1,
    size.required.read_write hm.2.2.1, size.required.read_write hm.2.2.2,
    string.required.read_write trivial, char.required.read_write trivial, rfl⟩
  fits {j m} hread := by
    obtain ⟨_, _, _, _, _, _, -, _, _, _, _, _, _, hpc, hline, hcolumn, hfile, -, -, rfl⟩ :=
      Json.recordOfSix_eq_some_iff.1 hread
    exact ⟨size.required.fits hpc, size.required.fits hline, size.required.fits hcolumn,
      size.required.fits hfile⟩

end MappingInfo

section

variable {readValue : Json → Option Json} {reserved : String} {P Q : Json → Prop}

theorem ShownVariable.roundTrips (h : Json.IsLossless readValue reserved) :
    RoundTrips toJson (ofJson? readValue) (fun v => readValue v.value = some v.value) where
  read_write {v} hv := Json.recordOfThree_eq_some_iff.2 ⟨_, _, _, rfl, _, _, _,
    string.required.read_write trivial, string.required.read_write trivial,
    (RoundTrips.value h).required.read_write hv, rfl⟩
  fits {j v} hread := by
    obtain ⟨_, _, _, -, _, _, _, -, -, hvalue, rfl⟩ := Json.recordOfThree_eq_some_iff.1 hread
    exact (RoundTrips.value h).required.fits hvalue

namespace ShownCall

/-- The numbers of the place are sizes, and all values are in `P`. -/
structure Fits (P : Json → Prop) (c : ShownCall) : Prop where
  mapping : ∀ m ∈ c.mapping, m.Fits
  storage : ∀ v ∈ c.storage, P v.value
  vars : ∀ v ∈ c.vars, P v.value

theorem Fits.imp {c : ShownCall} (hc : c.Fits P) (h : ∀ v, P v → Q v) : c.Fits Q :=
  ⟨hc.mapping, fun v hv => h _ (hc.storage v hv), fun v hv => h _ (hc.vars v hv)⟩

theorem fields?_toJson (c : ShownCall) :
    Json.fields? [["name"], ["mapping"], ["storage"], ["vars"], ["error"]] c.toJson =
      some [some (.str c.name), some (Json.option MappingInfo.toJson c.mapping),
        some (.arr (c.storage.map ShownVariable.toJson)),
        some (.arr (c.vars.map ShownVariable.toJson)), c.error.map .str] := by
  obtain ⟨name, mapping, storage, vars, _ | error⟩ := c <;> rfl

theorem mapping_roundTrips :
    RoundTrips (fun m => some (Json.option MappingInfo.toJson m))
      (Json.defaulting none (Json.nullable MappingInfo.ofJson?)) (fun m => ∀ i ∈ m, i.Fits) :=
  (MappingInfo.roundTrips.nullable (by simp [MappingInfo.toJson])).defaulting none (by simp)

theorem roundTrips (h : Json.IsLossless readValue reserved) :
    RoundTrips toJson (ofJson? readValue) (Fits fun v => readValue v = some v) where
  read_write {c} hc := Json.recordOfFive_eq_some_iff.2 ⟨_, _, _, _, _, fields?_toJson c,
    _, _, _, _, _, string.required.read_write trivial, mapping_roundTrips.read_write hc.mapping,
    (ShownVariable.roundTrips h).list.required.read_write hc.storage,
    (ShownVariable.roundTrips h).list.required.read_write hc.vars,
    (string.optional (by simp)).read_write (by simp), rfl⟩
  fits {j c} hread := by
    obtain ⟨_, _, _, _, _, -, _, _, _, _, _, -, hmapping, hstorage, hvars, -, rfl⟩ :=
      Json.recordOfFive_eq_some_iff.1 hread
    exact ⟨mapping_roundTrips.fits hmapping,
      (ShownVariable.roundTrips h).list.required.fits hstorage,
      (ShownVariable.roundTrips h).list.required.fits hvars⟩

end ShownCall

namespace Notification

/-- The numbers of a pause are sizes, and the values of all variables are in `P`. -/
structure Fits (P : Json → Prop) (n : Notification) : Prop where
  line : n.hit.line ≤ Size.largest
  calls : ∀ c ∈ n.calls, c.Fits P

theorem Fits.imp {n : Notification} (hn : n.Fits P) (h : ∀ v, P v → Q v) : n.Fits Q :=
  ⟨hn.line, fun c hc => (hn.calls c hc).imp h⟩

theorem roundTrips (h : Json.IsLossless readValue reserved) :
    RoundTrips toJson (ofJson? readValue) (Fits fun v => readValue v = some v) where
  read_write {n} hn := Json.recordOfTwo_eq_some_iff.2 ⟨_, _, rfl, _, _,
    Hit.roundTrips.required.read_write hn.line,
    (ShownCall.roundTrips h).list.required.read_write hn.calls, rfl⟩
  fits {j n} hread := by
    obtain ⟨_, _, -, _, _, hhit, hcalls, rfl⟩ := Json.recordOfTwo_eq_some_iff.1 hread
    exact ⟨Hit.roundTrips.required.fits hhit, (ShownCall.roundTrips h).list.required.fits hcalls⟩

end Notification

/-! ## Trees -/

namespace Ast

theorem toJson_eq (a : Ast) : a.toJson = .obj [("id", Json.option .nat a.id), ("name", .str a.kind),
    ("src", .str a.src), ("attributes", .obj a.attributes),
    ("children", .arr (a.children.map toJson))] := by
  obtain ⟨id, kind, src, attributes, children⟩ := a
  have hchildren : toJsonItems children = children.map toJson := by
    induction children with
    | nil => rfl
    | cons node rest ih => rw [toJsonItems, ih, List.map_cons]
  rw [toJson, hchildren]

theorem fields?_toJson (a : Ast) :
    Json.fields? fieldNames a.toJson =
      some [some (Json.option .nat a.id), some (.str a.kind), some (.str a.src),
        some (.obj a.attributes), some (.arr (a.children.map toJson))] := by
  rw [toJson_eq]
  rfl

/-- A node whose number is a size, with attributes in the order of their names and values in `P`. -/
structure NodeFits (P : Json → Prop) (node : Ast) : Prop where
  id_le : ∀ id ∈ node.id, id ≤ Size.largest
  sorted : node.attributes.Pairwise fun a b => a.1 < b.1
  values : ∀ e ∈ node.attributes, P e.2

/-- A tree of such nodes. -/
def Fits (P : Json → Prop) (a : Ast) : Prop := ∀ node ∈ a.preorder, node.NodeFits P

theorem Fits.imp {a : Ast} (ha : a.Fits P) (h : ∀ v, P v → Q v) : a.Fits Q := fun node hnode =>
  ⟨(ha node hnode).id_le, (ha node hnode).sorted, fun e he => h _ ((ha node hnode).values e he)⟩

theorem mem_preorder_iff {a node : Ast} :
    node ∈ a.preorder ↔ node = a ∨ ∃ child ∈ a.children, node ∈ child.preorder := by
  obtain ⟨id, kind, src, attributes, children⟩ := a
  have hchildren : node ∈ preorderAll children ↔ ∃ child ∈ children, node ∈ child.preorder := by
    induction children with
    | nil => simp [preorderAll]
    | cons child rest ih => simp [preorderAll, ih]
  rw [preorder, List.mem_cons, hchildren]

theorem forall_mem_preorder {P : Ast → Prop} {a : Ast} :
    (∀ node ∈ a.preorder, P node) ↔
      P a ∧ ∀ child ∈ a.children, ∀ node ∈ child.preorder, P node := by
  constructor
  · intro h
    exact ⟨h a (mem_preorder_iff.2 (.inl rfl)), fun child hchild node hnode =>
      h node (mem_preorder_iff.2 (.inr ⟨child, hchild, hnode⟩))⟩
  · rintro ⟨ha, hchildren⟩ node hnode
    rcases mem_preorder_iff.1 hnode with rfl | ⟨child, hchild, hnode⟩
    · exact ha
    · exact hchildren child hchild node hnode

/-- A tree of such nodes in no more than so many levels. -/
def FitsWithin (P : Json → Prop) : (levels : Nat) → Ast → Prop
  | 0, _ => False
  | levels + 1, a => a.NodeFits P ∧ ∀ child ∈ a.children, child.FitsWithin P levels

theorem FitsWithin.fits {levels : Nat} {a : Ast} (h : a.FitsWithin P levels) : a.Fits P := by
  induction levels generalizing a with
  | zero => cases h
  | succ levels ih => exact forall_mem_preorder.2 ⟨h.1, fun child hchild => ih (h.2 child hchild)⟩

/-- Children are written in fewer levels than their parents. -/
theorem depth_toJson_lt {a child : Ast} (h : child ∈ a.children) :
    child.toJson.depth < a.toJson.depth := by
  have hitems : ∀ children : List Ast, child ∈ children →
      child.toJson.depth ≤ Json.depthOfItems (children.map toJson) := by
    intro children hchild
    induction children with
    | nil => cases hchild
    | cons first rest ih =>
      rw [List.map_cons, Json.depthOfItems]
      rcases List.mem_cons.1 hchild with rfl | hchild
      · exact Nat.le_max_left ..
      · exact Nat.le_trans (ih hchild) (Nat.le_max_right ..)
  have hchild := hitems a.children h
  simp only [toJson_eq a, Json.depth, Json.depthOfMembers]
  omega

theorem Fits.fitsWithin {levels : Nat} {a : Ast} (h : a.Fits P)
    (hlevels : a.toJson.depth < levels) : a.FitsWithin P levels := by
  induction levels generalizing a with
  | zero => cases hlevels
  | succ levels ih =>
    obtain ⟨ha, hchildren⟩ := forall_mem_preorder.1 h
    refine ⟨ha, fun child hchild => ih (hchildren child hchild) ?_⟩
    have hdepth := depth_toJson_lt hchild
    omega

theorem roundTrips_within (h : Json.IsLossless readValue reserved) (levels : Nat) :
    RoundTrips toJson (ofJsonWithin readValue levels)
      (FitsWithin (fun v => readValue v = some v) levels) := by
  have hid := (size.nullable (by simp [Json.nat])).defaulting none (by simp)
  have hsrc := string.defaulting "" trivial
  have hattributes := (RoundTrips.attributes h).defaulting [] (by simp)
  -- on the levels: the children are read with one level less
  induction levels with
  | zero => exact ⟨fun hfits => hfits.elim, fun hread => absurd hread.symm (Option.some_ne_none _)⟩
  | succ levels ih =>
    have hchildren := ih.list.defaulting [] (by simp)
    constructor
    case read_write =>
      rintro ⟨id, kind, src, attributes, children⟩ ha
      exact Json.recordOfFive_eq_some_iff.2 ⟨_, _, _, _, _, fields?_toJson _, _, _, _, _, _,
        hid.read_write ha.1.id_le, string.required.read_write trivial, hsrc.read_write trivial,
        hattributes.read_write ⟨ha.1.sorted, ha.1.values⟩, hchildren.read_write ha.2, rfl⟩
    case fits =>
      intro j a hread
      obtain ⟨_, _, _, _, _, -, _, _, _, _, _, hid', -, -, hattributes', hchildren', rfl⟩ :=
        Json.recordOfFive_eq_some_iff.1 hread
      obtain ⟨hsorted, hvalues⟩ := hattributes.fits hattributes'
      exact ⟨⟨hid.fits hid', hsorted, hvalues⟩, hchildren.fits hchildren'⟩

/-- **Trees are read as they were written.** -/
theorem roundTrips (h : Json.IsLossless readValue reserved) :
    RoundTrips toJson (ofJson? readValue) (Fits fun v => readValue v = some v) where
  -- the reader takes as many levels as the JSON is deep, which is enough for the tree
  read_write ha := (roundTrips_within h _).read_write (ha.fitsWithin (Nat.lt_succ_self _))
  fits hread := ((roundTrips_within h _).fits hread).fits

end Ast

end

/-! ## All of them -/

end Solscope
