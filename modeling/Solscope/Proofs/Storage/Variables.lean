import Mathlib.Tactic.Linarith
import Solscope.Pause.Report
import Solscope.Proofs.Program.Linking
import Solscope.Proofs.Storage.Encoding

/-!
# State variables in storage

The variables of a contract and its bases follow each other in storage: every one is placed by the
layout rule after the one before, and one whose type is not known takes a slot of its own.

* `StorageLayout.apart_place`: placed variables do not overlap.
* `StorageLayout.readPlaced_place`: reading each variable at its own place is reading all of them
  with one cursor.
* `Program.layout_sound`: **the layout of every contract of a program**, with both.
-/

namespace Solscope

/-! ## Bytes of storage -/

/-- The byte of the storage that a cursor is at. -/
def SlotCursor.byte (c : SlotCursor) : Nat := 32 * c.slot.toNat + c.offset

theorem SlotCursor.byte_ofByte {a : Nat} (h : a < 32 * 2 ^ 256) : (ofByte 0 a).byte = a := by
  have hlt : a / 32 < 2 ^ 256 := by omega
  have hslot : ((0 : Word) + Word.ofNat (a / 32)).toNat = a / 32 := by
    rw [show (0 : Word) + Word.ofNat _ = Word.ofNat _ from BitVec.zero_add _,
      Word.toNat_ofNat_of_lt hlt]
  rw [byte, ofByte, hslot]
  exact Nat.div_add_mod a 32

namespace StorageLayout

/-- Where a variable starts that is placed at `a` or after it. -/
def startOf (a : Nat) : Option Ty → Nat
  | some t => Layout.start a t
  | none => Layout.align a

/-- The bytes of a variable: those of a value type, otherwise whole slots. -/
def sizeOf (types : Declared) : Option Ty → Nat
  | some t => Layout.roomOf t (types.slots t)
  | none => 32

/-- The end of variables, the first of which is placed at `a` or after it. -/
def endOf (types : Declared) (a : Nat) : List Variable → Nat
  | [] => a
  | v :: rest => endOf types (startOf a v.ty + sizeOf types v.ty) rest

/-- The slots of variables placed from the start of the storage on. -/
def totalSlots (types : Declared) (vars : List Variable) : Nat := (endOf types 0 vars + 31) / 32

/-- Whether a variable of a type lies in one slot if it is a value, in whole slots otherwise. -/
def FitsAt (types : Declared) (c : SlotCursor) (ty : Option Ty) : Prop :=
  if ty.any Ty.isValue then c.offset + sizeOf types ty ≤ 32 else c.offset = 0

/-- The variables lie in the storage one after the other without overlapping. -/
structure Apart (types : Declared) (vars : List Variable) : Prop where
  placed : ∀ v ∈ vars, ∃ c, v.storage = some c ∧ FitsAt types c v.ty ∧
    c.byte + sizeOf types v.ty ≤ 32 * 2 ^ 256
  ordered : vars.Pairwise fun v w => ∀ c ∈ v.storage, ∀ d ∈ w.storage,
    c.byte + sizeOf types v.ty ≤ d.byte

/-- What is known of the type of a variable: it has a width if it needs one, and is no reference. -/
def IsWhole (v : Variable) : Prop := ∀ t, v.ty = some t → t.hasWidth = true ∧ ∀ r, t ≠ .structRef r

variable {types : Declared} {vars : List Variable} {c : SlotCursor} {a : Nat}

theorem le_startOf (a : Nat) (ty : Option Ty) : a ≤ startOf a ty := by
  cases ty with
  | some t => exact Layout.le_start a t
  | none =>
    show a ≤ Layout.align a
    unfold Layout.align
    omega

theorem le_endOf (types : Declared) (a : Nat) (vars : List Variable) : a ≤ endOf types a vars := by
  induction vars generalizing a with
  | nil => exact le_rfl
  | cons v rest ih =>
    have hstart := le_startOf a v.ty
    have hrest := ih (startOf a v.ty + sizeOf types v.ty)
    rw [endOf]
    omega

/-- A variable is placed as the rule says. -/
theorem claim_spec (types : Declared) {ty : Option Ty} (hw : ∀ t, ty = some t → t.hasWidth = true)
    {p : Word} (hc : c.IsAt p a) :
    (claim types c ty).1 = .ofByte p (startOf a ty) ∧
      (claim types c ty).2.IsAt p (startOf a ty + sizeOf types ty) := by
  cases ty with
  | some t => exact hc.reserveSlots (hw t rfl) (types.slots t)
  | none => exact hc.claimSlots 1

/-- Where a variable is placed it fits. -/
theorem fitsAt_startOf {v : Variable} (hv : IsWhole v) (a : Nat) :
    FitsAt types (.ofByte 0 (startOf a v.ty)) v.ty := by
  unfold FitsAt
  cases hty : v.ty with
  | none => simp [startOf, SlotCursor.ofByte, Layout.align]
  | some t =>
    cases ht : t.isValue with
    | true =>
      have hfits := Layout.start_mod_add_le (a := a) ht (hv t hty).1
      simpa [ht, startOf, SlotCursor.ofByte, sizeOf, Layout.roomOf] using hfits
    | false =>
      have hmod := Layout.start_mod (a := a) ht
      simpa [ht, startOf, SlotCursor.ofByte] using hmod

/-- Placed variables lie one after the other between the first byte and the end. -/
theorem place_spec (hvars : ∀ v ∈ vars, IsWhole v) (hc : c.IsAt 0 a)
    (hend : endOf types a vars < 32 * 2 ^ 256) :
    (∀ v ∈ place types c vars, ∃ b, v.storage = some (.ofByte 0 b) ∧
      FitsAt types (.ofByte 0 b) v.ty ∧ a ≤ b ∧ b + sizeOf types v.ty ≤ endOf types a vars) ∧
    (place types c vars).Pairwise fun v w => ∀ c ∈ v.storage, ∀ d ∈ w.storage,
      c.byte + sizeOf types v.ty ≤ d.byte := by
  induction vars generalizing c a with
  | nil => exact ⟨by simp [place], .nil⟩
  | cons v rest ih =>
    obtain ⟨hat, hnext⟩ := claim_spec types (fun t ht => (hvars v List.mem_cons_self t ht).1) hc
    rw [endOf] at hend ⊢
    obtain ⟨hplaced, hordered⟩ := ih (fun w hw => hvars w (List.mem_cons_of_mem _ hw)) hnext hend
    have hstart := le_startOf a v.ty
    have hlast := le_endOf types (startOf a v.ty + sizeOf types v.ty) rest
    rw [place]
    refine ⟨fun w hw => ?_, List.pairwise_cons.2 ⟨fun w hw c' hc' d hd => ?_, hordered⟩⟩
    · rcases List.mem_cons.1 hw with rfl | hw
      · exact ⟨startOf a v.ty, congrArg some hat, fitsAt_startOf (hvars v List.mem_cons_self) a,
          hstart, hlast⟩
      · obtain ⟨b, hb, hfits, hle, hbound⟩ := hplaced w hw
        exact ⟨b, hb, hfits, by omega, hbound⟩
    · -- everything that follows starts after the end of the first variable
      obtain ⟨b, hb, -, hle, hbound⟩ := hplaced w hw
      obtain rfl : (claim types c v.ty).1 = c' := Option.mem_some_iff.1 hc'
      obtain rfl : .ofByte 0 b = d := by rw [hb] at hd; exact Option.mem_some_iff.1 hd
      rw [hat, SlotCursor.byte_ofByte (by omega), SlotCursor.byte_ofByte (by omega)]
      exact hle

/-- Placing variables only adds their places. -/
theorem erase_place (types : Declared) (c : SlotCursor) {vars : List Variable}
    (h : ∀ v ∈ vars, v.storage = none) :
    (place types c vars).map (fun v => { v with storage := none }) = vars := by
  induction vars generalizing c with
  | nil => rfl
  | cons v rest ih =>
    have hv : { v with storage := none } = v := by rw [← h v List.mem_cons_self]
    rw [place, List.map_cons, ih _ fun w hw => h w (List.mem_cons_of_mem _ hw)]
    exact congrArg (· :: rest) hv

/-- **Placed variables do not overlap.** -/
theorem apart_place (hvars : ∀ v ∈ vars, IsWhole v) (htotal : totalSlots types vars < 2 ^ 256) :
    Apart types (place types .origin vars) := by
  have hend : endOf types 0 vars < 32 * 2 ^ 256 := by unfold totalSlots at htotal; omega
  obtain ⟨hplaced, hordered⟩ := place_spec hvars (SlotCursor.isAt_start 0) hend
  refine ⟨fun v hv => ?_, hordered⟩
  obtain ⟨b, hb, hfits, -, hbound⟩ := hplaced v hv
  refine ⟨_, hb, hfits, ?_⟩
  rw [SlotCursor.byte_ofByte (by omega)]
  omega

end StorageLayout

/-! ## Reading with one cursor -/

namespace SlotCursor

/-- What has been claimed is claimed again at the same place. -/
theorem claim_claim (c : SlotCursor) {size : Nat} (h : size ≤ 32) :
    (c.claim size).1.claim size = c.claim size := by
  have hfit : (c.fit size).fit size = c.fit size := by
    by_cases hc : 32 < c.offset + size
    · have hnext : c.fit size = ⟨c.slot + 1, 0⟩ := if_pos hc
      rw [hnext, fit, if_neg (by simpa using h)]
    · have hhere : c.fit size = c := if_neg hc
      rw [hhere, hhere]
  simp only [claim, hfit]

theorem claimSlots_claimSlots (c : SlotCursor) (slots : Nat) :
    (c.claimSlots slots).1.claimSlots slots = c.claimSlots slots := rfl

end SlotCursor

namespace Declared

theorem reserve_of_not_isValue {types : Declared} {c : SlotCursor} {t : Ty}
    (ht : t.isValue = false) : types.reserve c t = c.claimSlots (types.slots t) := by
  rw [reserve, SlotCursor.reserveSlots, ht]
  rfl

/-- What has been reserved is reserved again at the same place. -/
theorem reserve_reserve (types : Declared) (c : SlotCursor) {t : Ty} (hw : t.hasWidth = true) :
    types.reserve (types.reserve c t).1 t = types.reserve c t := by
  unfold reserve SlotCursor.reserveSlots
  split
  · rename_i ht
    exact c.claim_claim (Ty.storageBytes_bounds ht hw).2
  · exact c.claimSlots_claimSlots _

/-- Reading a value is reading at the place that is reserved for it and moving on behind it. -/
theorem readStorageWith_eq_reserve (types : Declared) (view : StorageView)
    (ofRef : StructRef → SlotCursor → Except ReadError (Value × SlotCursor)) {t : Ty}
    (ht : ∀ r, t ≠ .structRef r) :
    ∃ read : SlotCursor → Except ReadError Value, ∀ c, readStorageWith types view ofRef c t =
      (read (types.reserve c t).1).map fun v => (v, (types.reserve c t).2) := by
  -- what each case gives reads at one place and knows nothing of a cursor
  cases t using Ty.byKind with
  | value t hv =>
    refine ⟨fun s => (view.word s.slot).map fun w =>
      types.ofBits t (w.field s.offset t.storageBytes), fun c => ?_⟩
    rw [readStorageWith_scalar hv, reserve, SlotCursor.reserveSlots, if_pos hv]
    dsimp only
    cases view.word (c.claim t.storageBytes).1.slot <;> rfl
  | bytes =>
    refine ⟨fun s => (view.byteString s.slot).map .bytes, fun c => ?_⟩
    rw [readStorageWith, reserve_of_not_isValue (by rfl)]
    dsimp only
    cases view.byteString _ <;> rfl
  | string =>
    refine ⟨fun s => (view.byteString s.slot).map fun data => .string (Text.ofUtf8 data),
      fun c => ?_⟩
    rw [readStorageWith, reserve_of_not_isValue (by rfl)]
    dsimp only
    cases view.byteString _ <;> rfl
  | struct name fields =>
    refine ⟨fun s => (readStorageFields types view ofRef s fields).map fun r => .struct r.1,
      fun c => ?_⟩
    rw [readStorageWith, reserve_of_not_isValue (by rfl)]
    dsimp only
    cases readStorageFields types view ofRef _ fields <;> rfl
  | structRef r => exact absurd rfl (ht r)
  | staticArray element length =>
    refine ⟨fun s => (view.items (fun c => readStorageWith types view ofRef c element) length s).map
      .array, fun c => ?_⟩
    rw [readStorageWith, reserve_of_not_isValue (by rfl)]
    dsimp only
    cases view.items (fun c => readStorageWith types view ofRef c element) _ _ <;> rfl
  | dynamicArray element =>
    refine ⟨fun s => (view.word s.slot).bind fun w =>
      (view.items (fun c => readStorageWith types view ofRef c element) (Size.clamp w.toNat)
        ⟨StorageView.dataSlot s.slot, 0⟩).map .array, fun c => ?_⟩
    rw [readStorageWith, reserve_of_not_isValue (by rfl)]
    dsimp only
    cases view.word _ with
    | error e => rfl
    | ok w =>
      simp only [bind, Except.bind]
      cases view.items (fun c => readStorageWith types view ofRef c element) _ _ <;> rfl
  | mapping key value =>
    refine ⟨fun s => (StorageView.entriesFrom view.limits.mapping (types.label? key s.slot)
      (fun slot => (readStorageWith types view ofRef ⟨slot, 0⟩ value).map Prod.fst) []
      (view.preimages.withSuffix s.slot)).map .mapping, fun c => ?_⟩
    rw [readStorageWith, reserve_of_not_isValue (by rfl)]
    dsimp only
    cases StorageView.entriesFrom _ _ _ _ _ <;> rfl

/-- **Reading at the reserved place is reading with the cursor**, which moves as reserving does. -/
theorem readStorage_reserve (types : Declared) (view : StorageView) (c : SlotCursor) {t : Ty}
    (hw : t.hasWidth = true) (ht : ∀ r, t ≠ .structRef r) :
    ∃ result : Except ReadError Value,
      types.readStorage view t c = result.map (fun v => (v, (types.reserve c t).2)) ∧
      types.readStorage view t (types.reserve c t).1 =
        result.map fun v => (v, (types.reserve c t).2) := by
  obtain ⟨ofRef, heq⟩ := exists_readStorage_eq types view
  obtain ⟨read, hread⟩ := types.readStorageWith_eq_reserve view ofRef ht
  refine ⟨read (types.reserve c t).1, ?_, ?_⟩
  · rw [heq, hread]
  · rw [heq, hread, types.reserve_reserve c hw]

end Declared

namespace StorageLayout

variable {α : Type}

/-- Every variable read at its own place; one without a type or place is passed over. -/
def readPlaced (types : Declared) (view : StorageView) (result : Variable → Ty → Value → α) :
    List Variable → Except ReadError (List α)
  | [] => .ok []
  | v :: rest => match v.ty, v.storage with
    | some t, some start => do
      let (value, _) ← types.readStorage view t start
      return result v t value :: (← readPlaced types view result rest)
    | _, _ => readPlaced types view result rest

/-- All variables read with one cursor, which skips a slot where the type is not known. -/
def readInTurn (types : Declared) (view : StorageView) (result : Variable → Ty → Value → α)
    (c : SlotCursor) : List Variable → Except ReadError (List α)
  | [] => .ok []
  | v :: rest => match v.ty with
    | some t => do
      let (value, next) ← types.readStorage view t c
      return result v t value :: (← readInTurn types view result next rest)
    | none => readInTurn types view result (c.claimSlots 1).2 rest

/-- **Reading each variable at its own place is reading all of them with one cursor.** -/
theorem readPlaced_place (types : Declared) (view : StorageView)
    (result : Variable → Ty → Value → α) {vars : List Variable} (hvars : ∀ v ∈ vars, IsWhole v)
    (c : SlotCursor) :
    readPlaced types view result (place types c vars) =
      readInTurn types view result c (place types c vars) := by
  induction vars generalizing c with
  | nil => rfl
  | cons v rest ih =>
    have hrest := ih fun w hw => hvars w (List.mem_cons_of_mem _ hw)
    have hv := hvars v List.mem_cons_self
    rw [place]
    cases hty : v.ty with
    | none =>
      simp only [readPlaced, readInTurn, claim]
      exact hrest _
    | some t =>
      obtain ⟨hw, href⟩ := hv t hty
      obtain ⟨value, hturn, hplaced⟩ := types.readStorage_reserve view c hw href
      simp only [readPlaced, readInTurn, claim, hturn, hplaced, hrest]
      cases value <;> rfl

end StorageLayout

namespace Report

open StorageLayout

theorem mapM_stateVariable (types : Declared) (view : StorageView) (vars : List Variable) :
    (vars.mapM (stateVariable types view)).map (fun values => values.filterMap id) =
      readPlaced types view shown vars := by
  induction vars with
  | nil => rfl
  | cons v rest ih =>
    rw [List.mapM_cons, readPlaced, ← ih, stateVariable]
    cases v.ty with
    | none => cases rest.mapM (stateVariable types view) <;> rfl
    | some t =>
      cases v.storage with
      | none => cases rest.mapM (stateVariable types view) <;> rfl
      | some start =>
        dsimp only
        cases types.readStorage view t start with
        | error e => rfl
        | ok r => cases rest.mapM (stateVariable types view) <;> rfl

/-- A report reads every state variable at its own place. -/
theorem stateVariables_eq (r : Report) (f : Frame) {code : KnownCode} {c : Contract}
    (hc : code.program.contract? code.contract = some c) :
    r.stateVariables f code = readPlaced code.program.types (r.storageView f) shown c.layout := by
  rw [stateVariables, hc]
  exact mapM_stateVariable _ _ _

end Report

/-! ## Layouts of programs -/

namespace Program

open StorageLayout

/-- The state variables of a contract and its bases, the most basic one first. -/
def variablesOf (p : Program) (c : Contract) : List Variable :=
  c.linearized.reverse.flatMap p.stateVariablesOf

theorem isWhole_of_mem_variablesOf {sources : Sources} {asts : List Ast} {p : Program}
    (h : ofAsts sources asts = .ok p) {c : Contract} {v : Variable} (hv : v ∈ p.variablesOf c) :
    IsWhole v := by
  obtain ⟨id, -, hv⟩ := List.mem_flatMap.1 hv
  exact (shape_of_mem_stateVariablesOf h hv).2

/--
**The layout of a contract.** It consists of the state variables of the contract and its bases, as
their nodes declare them, and only their places are added. If they need less than `2 ^ 256` slots,
they do not overlap. Reading each of them at its own place, as a report does, is reading all of them
with one cursor.
-/
theorem layout_sound {sources : Sources} {asts : List Ast} {p : Program}
    (h : ofAsts sources asts = .ok p) {id : ContractId} {c : Contract}
    (hc : p.contract? id = some c) (htotal : totalSlots p.types (p.variablesOf c) < 2 ^ 256) :
    c.layout.map (fun v => { v with storage := none }) = p.variablesOf c ∧
      (∀ base, p.stateVariablesOf base = ((Ast.contractNodes asts)[base]?.map fun node =>
        node.stateVariables p.types (node.name?.getD "")).getD []) ∧
      Apart p.types c.layout ∧
      (∀ view : StorageView, readPlaced p.types view (fun _ _ value => value) c.layout =
        readInTurn p.types view (fun _ _ value => value) .origin c.layout) ∧
      ∀ (r : Report) (f : Frame) (code : KnownCode), code.program = p → code.contract = id →
        r.stateVariables f code =
          readInTurn p.types (r.storageView f) Report.shown .origin c.layout := by
  have hlayout : c.layout = place p.types .origin (p.variablesOf c) := layout_eq h hc
  have hwhole : ∀ v ∈ p.variablesOf c, IsWhole v := fun v hv => isWhole_of_mem_variablesOf h hv
  refine ⟨?_, stateVariablesOf_eq h, ?_, fun view => ?_, ?_⟩
  · rw [hlayout]
    refine erase_place _ _ fun v hv => ?_
    obtain ⟨base, -, hv⟩ := List.mem_flatMap.1 hv
    exact (shape_of_mem_stateVariablesOf h hv).1
  · rw [hlayout]
    exact apart_place hwhole htotal
  · rw [hlayout]
    exact readPlaced_place _ _ _ hwhole _
  · rintro r f code rfl rfl
    rw [r.stateVariables_eq f hc, hlayout]
    exact readPlaced_place _ _ _ hwhole _

/-- The variables of a base come first, and one of an unknown type has a slot of its own. -/
theorem layout_sound_derived :
    let declare (name type : String) : Ast :=
      { kind := "VariableDeclaration", attributes := [("name", .str name), ("type", .str type)] }
    let base : Ast := { kind := "UserDefinedTypeName", attributes := [("name", .str "A")] }
    let asts : List Ast := [{ kind := "SourceUnit", children := [
      { kind := "ContractDefinition", src := "0:9:0", attributes := [("name", .str "A")],
        children := [declare "a" "bool", declare "b" "address"] },
      { kind := "ContractDefinition", src := "0:9:0", attributes := [("name", .str "B")],
        children := [{ kind := "InheritanceSpecifier", children := [base] }, declare "c" "string",
          declare "d" "function ()", declare "e" "bool"] }] }]
    ∃ p c, ofAsts (({} : Sources).add 0 "a.sol" "contract A") asts = .ok p ∧
      p.contract? 1 = some c ∧ totalSlots p.types (p.variablesOf c) = 4 ∧
      c.layout.map (fun v => (v.name, v.storage)) = [("a", some ⟨0, 0⟩), ("b", some ⟨0, 1⟩),
        ("c", some ⟨1, 0⟩), ("d", some ⟨2, 0⟩), ("e", some ⟨3, 0⟩)] ∧
      Apart p.types c.layout := by
  intro declare base asts
  have heval : (ofAsts (({} : Sources).add 0 "a.sol" "contract A") asts).toOption.any (fun p =>
      (p.contract? 1).any fun c => totalSlots p.types (p.variablesOf c) = 4 ∧
        c.layout.map (fun v => (v.name, v.storage)) = [("a", some ⟨0, 0⟩), ("b", some ⟨0, 1⟩),
          ("c", some ⟨1, 0⟩), ("d", some ⟨2, 0⟩), ("e", some ⟨3, 0⟩)]) = true := by
    decide +kernel
  cases h : ofAsts (({} : Sources).add 0 "a.sol" "contract A") asts with
  | error e => rw [h] at heval; cases heval
  | ok p =>
    rw [h] at heval
    change Option.any _ (p.contract? 1) = true at heval
    obtain ⟨c, hc, hfacts⟩ := (Option.any_eq_true _ _).1 heval
    obtain ⟨htotal, hplaces⟩ := of_decide_eq_true hfacts
    exact ⟨p, c, rfl, hc, htotal, hplaces,
      (layout_sound h hc (by rw [htotal]; norm_num)).2.2.1⟩

end Program

end Solscope
