import Solscope.Proofs.Storage.Variables
import Solscope.Proofs.Ty.References

/-!
# Members of structs in storage

A struct is read without the members whose types are not known, and they take no room: the others
are placed as if no more had been declared. State variables whose types are not known have a slot
of their own.

* `StorageLayout.endOf_known_le`: every variable that is left out brings those behind it at least
  one slot forward.
* `Declared.exists_readStorage_reserve`: whatever a descriptor names is read at one place, and the
  cursor moves on as the layout does.
* `Declared.readStorage_struct_known`: **where the members of a struct are read**, and that this is
  where they would be as state variables just if the types of all members before them are known.
-/

namespace Solscope

namespace Layout

theorem start_mono (t : Ty) {a b : Nat} (h : a ≤ b) : start a t ≤ start b t := by
  unfold start fit align
  split
  · split <;> split <;> omega
  · omega

/-- Whole slots in front change nothing inside a slot. -/
theorem start_add (a n : Nat) (t : Ty) : start (a + 32 * n) t = start a t + 32 * n := by
  unfold start fit align
  split
  · split <;> split <;> omega
  · omega

end Layout

theorem SlotCursor.ofByte_inj {p : Word} {a b : Nat} (ha : a < 32 * 2 ^ 256)
    (hb : b < 32 * 2 ^ 256) : ofByte p a = ofByte p b ↔ a = b := by
  refine ⟨fun h => ?_, fun h => h ▸ rfl⟩
  injection h with hslot hoffset
  have hnat := congrArg BitVec.toNat ((BitVec.add_right_inj p).1 hslot)
  rw [Word.toNat_ofNat_of_lt (by omega), Word.toNat_ofNat_of_lt (by omega)] at hnat
  omega

namespace StorageLayout

variable {types : Declared} {vars : List Variable} {c : SlotCursor} {p : Word} {a b : Nat}

/-! ## Variables that are left out -/

theorem endOf_append (types : Declared) (a : Nat) (vars rest : List Variable) :
    endOf types a (vars ++ rest) = endOf types (endOf types a vars) rest := by
  induction vars generalizing a with
  | nil => rfl
  | cons v vars ih => exact ih _

/-- The variables whose types are known. -/
def known (vars : List Variable) : List Variable := vars.filter (·.ty.isSome)

/-- How many variables there are whose types are not known. -/
def unknown (vars : List Variable) : Nat := vars.countP (·.ty.isNone)

section

variable {v : Variable} {rest : List Variable}

theorem known_cons_of_some {t : Ty} (h : v.ty = some t) : known (v :: rest) = v :: known rest :=
  List.filter_cons_of_pos (by rw [h]; rfl)

theorem known_cons_of_none (h : v.ty = none) : known (v :: rest) = known rest :=
  List.filter_cons_of_neg (by simp [h])

theorem unknown_cons_of_some {t : Ty} (h : v.ty = some t) : unknown (v :: rest) = unknown rest :=
  List.countP_cons_of_neg (by simp [h])

theorem unknown_cons_of_none (h : v.ty = none) : unknown (v :: rest) = unknown rest + 1 :=
  List.countP_cons_of_pos (by rw [h]; rfl)

end

theorem unknown_eq_zero_iff : unknown vars = 0 ↔ ∀ v ∈ vars, v.ty.isSome = true := by
  simp [unknown, List.countP_eq_zero, Option.isSome_iff_ne_none]

theorem known_eq_self (h : unknown vars = 0) : known vars = vars :=
  List.filter_eq_self.2 (unknown_eq_zero_iff.1 h)

/-- **Every variable that is left out brings those behind it at least one slot forward.** -/
theorem endOf_known_le (types : Declared) (vars : List Variable) {n : Nat}
    (h : a + 32 * n ≤ b) :
    endOf types a (known vars) + 32 * (n + unknown vars) ≤ endOf types b vars := by
  induction vars generalizing a b n with
  | nil => exact h
  | cons v rest ih =>
    cases hty : v.ty with
    | none =>
      -- its own slot is the one that the others are ahead
      have halign : b ≤ startOf b v.ty := le_startOf b v.ty
      have hsize : sizeOf types v.ty = 32 := by rw [hty]; rfl
      have hrest := ih (n := n + 1) (show a + 32 * (n + 1) ≤ startOf b v.ty + sizeOf types v.ty by
        omega)
      rw [known_cons_of_none hty, unknown_cons_of_none hty, endOf]
      omega
    | some t =>
      have hstart : startOf a v.ty + 32 * n ≤ startOf b v.ty := by
        rw [hty, startOf, startOf, ← Layout.start_add]
        exact Layout.start_mono t h
      rw [known_cons_of_some hty, unknown_cons_of_some hty, endOf, endOf]
      exact ih (by omega)

/-! ## Places -/

/-- Where number `i` of the variables is that are placed from slot `p` on. -/
def placeAt? (types : Declared) (p : Word) (vars : List Variable) (i : Nat) : Option SlotCursor :=
  (place types ⟨p, 0⟩ vars)[i]?.bind (·.storage)

theorem getElem?_place {before after : List Variable} {v : Variable}
    (hw : ∀ w ∈ before ++ v :: after, ∀ t, w.ty = some t → t.hasWidth = true) (hc : c.IsAt p a) :
    (place types c (before ++ v :: after))[before.length]?.bind (·.storage) =
      some (.ofByte p (startOf (endOf types a before) v.ty)) := by
  -- the cursor comes to the end of the variables in front
  induction before generalizing c a with
  | nil =>
    have hat := (claim_spec types (hw v List.mem_cons_self) hc).1
    exact congrArg some hat
  | cons w before ih =>
    have hnext := (claim_spec types (hw w List.mem_cons_self) hc).2
    exact ih (fun w hw' => hw w (List.mem_cons_of_mem _ hw')) hnext

theorem placeAt?_append {before after : List Variable} {v : Variable}
    (hw : ∀ w ∈ before ++ v :: after, ∀ t, w.ty = some t → t.hasWidth = true) :
    placeAt? types p (before ++ v :: after) before.length =
      some (.ofByte p (startOf (endOf types 0 before) v.ty)) :=
  getElem?_place hw (SlotCursor.isAt_start p)

/-- A variable is where it is placed among all just if none is left out in front of it. -/
theorem placeAt?_known {before after : List Variable} {v : Variable}
    (hw : ∀ w ∈ before ++ v :: after, ∀ t, w.ty = some t → t.hasWidth = true)
    (hv : v.ty.isSome) (p : Word) :
    ∃ a b, placeAt? types p (known (before ++ v :: after)) (known before).length =
        some (.ofByte p a) ∧
      placeAt? types p (before ++ v :: after) before.length = some (.ofByte p b) ∧
      a + 32 * unknown before ≤ b ∧
      (totalSlots types (before ++ v :: after) < 2 ^ 256 →
        (SlotCursor.ofByte p a = .ofByte p b ↔ ∀ w ∈ before, w.ty.isSome)) := by
  obtain ⟨t, hty⟩ := Option.isSome_iff_exists.1 hv
  have hknown : known (before ++ v :: after) = known before ++ v :: known after := by
    rw [known, List.filter_append]
    exact congrArg (known before ++ ·) (known_cons_of_some hty)
  have hwknown : ∀ w ∈ known before ++ v :: known after, ∀ t, w.ty = some t →
      t.hasWidth = true := fun w hmem => hw w (List.mem_of_mem_filter (hknown ▸ hmem))
  have hle : startOf (endOf types 0 (known before)) v.ty + 32 * unknown before ≤
      startOf (endOf types 0 before) v.ty := by
    have hend := endOf_known_le types before (a := 0) (b := 0) (n := 0) (Nat.le_refl 0)
    rw [Nat.zero_add] at hend
    rw [hty, startOf, startOf, ← Layout.start_add]
    exact Layout.start_mono t hend
  refine ⟨_, _, hknown ▸ placeAt?_append hwknown, placeAt?_append hw, hle, fun htotal => ?_⟩
  have hlt : startOf (endOf types 0 before) v.ty < 32 * 2 ^ 256 := by
    have hlast := le_endOf types (startOf (endOf types 0 before) v.ty + sizeOf types v.ty) after
    rw [totalSlots, endOf_append, endOf] at htotal
    omega
  rw [SlotCursor.ofByte_inj (by omega) hlt, ← unknown_eq_zero_iff]
  refine ⟨fun heq => by omega, fun hzero => ?_⟩
  rw [known_eq_self hzero]

end StorageLayout

namespace Declared

open StorageLayout

variable {types : Declared} {view : StorageView} {contract : Option String}

/-! ## Reading members -/

/-- A reference is read as what it stands for, if that is something. -/
theorem readStorage_structRef (types : Declared) (view : StorageView) (r : StructRef) :
    ∃ ofRef, ∀ c, types.readStorage view (.structRef r) c =
      ((types.follow? r).map (readStorageWith types view ofRef c)).getD
        (.error (.unresolved r.name)) := by
  obtain ⟨ofRef, heq⟩ := exists_unfoldWithin_eq types (fun r _ => .error (.unresolved r.name))
    (fun ofRef t c => readStorageWith types view ofRef c t) (unfoldLimit - 1)
  refine ⟨ofRef, fun c => ?_⟩
  rw [readStorage, unfold_structRef fun _ _ => rfl]
  cases types.follow? r with
  | none => rfl
  | some t => exact congrFun (heq t) c

/-- **Whatever a descriptor names is read at the place that is reserved for it.** -/
theorem exists_readStorage_reserve (types : Declared) (view : StorageView) {t : Ty}
    (hrefs : ∀ r, t = .structRef r → 1 ≤ r.unfolds) :
    ∃ read : SlotCursor → Except ReadError Value, ∀ c, types.readStorage view t c =
      (read (types.reserve c t).1).map fun v => (v, (types.reserve c t).2) := by
  by_cases ht : ∃ r, t = .structRef r
  · obtain ⟨r, rfl⟩ := ht
    obtain ⟨ofRef, heq⟩ := readStorage_structRef types view r
    cases hfollow : types.follow? r with
    | none => exact ⟨fun _ => .error (.unresolved r.name), fun c => by rw [heq, hfollow]; rfl⟩
    | some t =>
      -- a reference takes the slots of the struct it stands for
      obtain ⟨hvalue, hne⟩ := follow?_shape hfollow
      have hreserve : ∀ c, types.reserve c (.structRef r) = types.reserve c t := fun c => by
        rw [reserve_of_not_isValue hvalue, ← slots_structRef hfollow (hrefs r rfl)]
        rfl
      obtain ⟨read, hread⟩ := types.readStorageWith_eq_reserve view ofRef hne
      refine ⟨read, fun c => ?_⟩
      rw [heq, hfollow, hreserve]
      exact hread c
  · obtain ⟨ofRef, heq⟩ := exists_readStorage_eq types view
    obtain ⟨read, hread⟩ := types.readStorageWith_eq_reserve view ofRef fun r hr => ht ⟨r, hr⟩
    exact ⟨read, fun c => by rw [heq, hread]⟩

/-- The members of a struct as variables, with the types that they have inside the struct. -/
def membersOf (types : Declared) (depth : Nat) (around : Expansion) (contract : Option String)
    (s : StructDecl) : List Variable :=
  s.members.map fun (name, descriptor) =>
    .ofTy name descriptor (types.resolveNested depth
      { around with structs := s.name :: around.structs } (s.scope.or contract)
      descriptor.toList) .storage .state

/-- The members that a struct type has: those of known types. -/
def fieldsOf (vars : List Variable) : List (String × Ty) :=
  vars.filterMap fun v => v.ty.map fun t => (v.name, t)

theorem structTy_eq {depth : Nat} {around : Expansion} {s : StructDecl}
    (hs : s.name ∉ around.structs) :
    structTy s contract around (types.resolveNested depth) =
      .struct s.name (fieldsOf (types.membersOf depth around contract s)) := by
  rw [structTy, if_neg hs, fieldsOf, membersOf, List.filterMap_map]
  rfl

/-- What is known of the type of a member: its width, and that references in it are counted. -/
def IsCounted (v : Variable) : Prop :=
  ∀ t, v.ty = some t → t.hasWidth = true ∧ ∀ r, t = .structRef r → 1 ≤ r.unfolds

theorem isCounted_of_mem_membersOf {depth : Nat} {around : Expansion} {s : StructDecl}
    {v : Variable} (hv : v ∈ types.membersOf depth around contract s) : IsCounted v := by
  obtain ⟨⟨name, descriptor⟩, -, rfl⟩ := List.mem_map.1 hv
  intro t ht
  refine ⟨(resolveNested_shape ht).1, ?_⟩
  rintro r rfl
  rw [unfolds_of_resolveNested ht]
  exact Nat.le_add_left 1 _

/-- Members read in a row are read at the places of variables of their types. -/
theorem readStorageFields_fieldsOf {ofRef : StructRef → SlotCursor →
      Except ReadError (Value × SlotCursor)}
    (heq : ∀ t c, types.readStorage view t c = readStorageWith types view ofRef c t)
    {vars : List Variable} (hvars : ∀ v ∈ vars, IsCounted v) (c : SlotCursor) :
    (readStorageFields types view ofRef c (fieldsOf vars)).map Prod.fst =
      readPlaced types view (fun v _ value => (v.name, value)) (place types c (known vars)) := by
  -- reading a member moves the cursor as placing its variable does
  induction vars generalizing c with
  | nil => rfl
  | cons v rest ih =>
    replace ih := ih fun w hw => hvars w (List.mem_cons_of_mem _ hw)
    cases hty : v.ty with
    | none =>
      have hfields : fieldsOf (v :: rest) = fieldsOf rest :=
        List.filterMap_cons_none (by rw [hty]; rfl)
      rw [hfields, known_cons_of_none hty]
      exact ih c
    | some t =>
      obtain ⟨hw, hrefs⟩ := hvars v List.mem_cons_self t hty
      have hfields : fieldsOf (v :: rest) = (v.name, t) :: fieldsOf rest :=
        List.filterMap_cons_some (by rw [hty]; rfl)
      obtain ⟨read, hread⟩ := types.exists_readStorage_reserve view hrefs
      have hplaced := hread (types.reserve c t).1
      rw [types.reserve_reserve c hw] at hplaced
      rw [hfields, known_cons_of_some hty, place, readStorageFields, ← heq, hread]
      simp only [readPlaced, claim, hty, hplaced, ← ih]
      cases read (types.reserve c t).1 with
      | error e => rfl
      | ok value =>
        simp only [Except.map, bind, Except.bind]
        cases readStorageFields types view ofRef (types.reserve c t).2 (fieldsOf rest) <;> rfl

/--
**Where the members of a struct are read.** A struct has the members whose types are known, and they
are read where they lie one after the other from the start of a slot on. If all members were placed
like state variables, a member would lie further on by as many slots, or more, as there are members
of unknown types in front of it. So it is read where it would be as a state variable just if there
are none of these, as long as the slots do not run out.
-/
theorem readStorage_struct_known (types : Declared) (depth : Nat) (around : Expansion)
    (contract : Option String) (s : StructDecl) (hs : s.name ∉ around.structs) :
    ∃ fields, structTy s contract around (types.resolveNested depth) = .struct s.name fields ∧
      (∀ (view : StorageView) (c : SlotCursor),
        (types.readStorage view (.struct s.name fields) c).map Prod.fst =
          (readPlaced types view (fun v _ value => (v.name, value)) (place types ⟨c.align.slot, 0⟩
            (known (types.membersOf depth around contract s)))).map .struct) ∧
      ∀ before v after, types.membersOf depth around contract s = before ++ v :: after →
        v.ty.isSome → ∀ p : Word, ∃ a b,
          placeAt? types p (known (before ++ v :: after)) (known before).length =
            some (.ofByte p a) ∧
          placeAt? types p (before ++ v :: after) before.length = some (.ofByte p b) ∧
          a + 32 * unknown before ≤ b ∧
          (totalSlots types (before ++ v :: after) < 2 ^ 256 →
            (SlotCursor.ofByte p a = .ofByte p b ↔ ∀ w ∈ before, w.ty.isSome)) := by
  refine ⟨_, structTy_eq hs, fun view c => ?_, ?_⟩
  · -- members are read by the same function as any other type
    obtain ⟨ofRef, heq⟩ := exists_readStorage_eq types view
    rw [← readStorageFields_fieldsOf heq fun v hv => isCounted_of_mem_membersOf hv, heq,
      readStorageWith]
    simp only [SlotCursor.claimSlots]
    cases readStorageFields types view ofRef _ _ <;> rfl
  · intro before v after hmembers hv p
    refine placeAt?_known (fun w hw t ht => ?_) hv p
    exact (isCounted_of_mem_membersOf (hmembers ▸ hw) t ht).1

/-- A member of a function type has no slot in a struct, and one among state variables. -/
theorem readStorage_struct_known_function :
    let s : StructDecl :=
      ⟨"C.S", some "C", [("a", "uint8"), ("f", "function ()"), ("b", "bool")]⟩
    let types := ({} : Declared).addStruct s
    let a : Variable := .ofTy "a" "uint8" (some (.uint 1)) .storage .state
    let f : Variable := .ofTy "f" "function ()" none .storage .state
    let b : Variable := .ofTy "b" "bool" (some .bool) .storage .state
    let view : StorageView := ⟨fun _ slot => .ok (if slot = 5 then 7 else 1), 0, [], {}⟩
    let ty : Ty := .struct "C.S" [("a", .uint 1), ("b", .bool)]
    s.name ∉ ({} : Expansion).structs ∧ types.membersOf 32 {} none s = [a, f] ++ b :: [] ∧
      b.ty.isSome ∧ totalSlots types ([a, f] ++ b :: []) < 2 ^ 256 ∧
      types.resolve? "struct C.S" none = some ty ∧
      placeAt? types 5 (known [a, f, b]) 1 = some ⟨5, 1⟩ ∧
      placeAt? types 5 [a, f, b] 2 = some ⟨7, 0⟩ ∧
      (types.readStorage view ty ⟨5, 0⟩).map Prod.fst =
        .ok (.struct [("a", .uint 7), ("b", .bool false)]) ∧
      readPlaced types view (fun v _ value => (v.name, value)) (place types ⟨5, 0⟩ [a, f, b]) =
        .ok [("a", .uint 7), ("b", .bool true)] ∧
      ∃ x y, placeAt? types 5 (known ([a, f] ++ b :: [])) 1 = some (.ofByte 5 x) ∧
        placeAt? types 5 ([a, f] ++ b :: []) 2 = some (.ofByte 5 y) ∧ x + 32 * 1 ≤ y ∧
        SlotCursor.ofByte 5 x ≠ .ofByte 5 y := by
  intro s types a f b view ty
  have hname : s.name ∉ ({} : Expansion).structs := List.not_mem_nil
  have hmembers : types.membersOf 32 {} none s = [a, f] ++ b :: [] := rfl
  have htotal : totalSlots types ([a, f] ++ b :: []) < 2 ^ 256 := by decide +kernel
  obtain ⟨fields, -, -, hplaces⟩ := readStorage_struct_known types 32 {} none s hname
  obtain ⟨x, y, hx, hy, hle, hiff⟩ := hplaces _ _ _ hmembers rfl 5
  refine ⟨hname, hmembers, rfl, htotal, rfl, by decide +kernel, by decide +kernel, rfl, rfl, x, y,
    hx, hy, hle, fun heq => ?_⟩
  have hsome := (hiff htotal).1 heq f (by simp)
  cases hsome

end Declared

end Solscope
