import Solscope.Proofs.Program.Linking

/-!
# Stack slots of methods

The variables of a method lie on the stack one after the other, and those of the modifiers that it
invokes lie behind them, in the order of the invocations.

* `SlotRow.Between`: rows of slots that do not overlap, between two slots.
* `Program.isPlaced_of_method?`: the variables of every method of a program are placed.
* `Program.between_rowsWithin`: **the variables of a method and its modifiers do not overlap**, and
  take no more slots than the method counts.
-/

namespace Solscope

/-! ## Rows of slots -/

/-- Some stack slots in a row. -/
structure SlotRow where
  start : Nat
  length : Nat
deriving DecidableEq

namespace SlotRow

/-- The first slot behind a row. -/
def stop (r : SlotRow) : Nat := r.start + r.length

/-- Rows follow each other without overlapping, from slot `a` on and before slot `b`. -/
def Between (a : Nat) : List SlotRow → Nat → Prop
  | [], b => a ≤ b
  | r :: rest, b => a ≤ r.start ∧ Between r.stop rest b

variable {a b c : Nat} {rows others : List SlotRow}

theorem Between.of_le (h : Between b rows c) (hle : a ≤ b) : Between a rows c := by
  cases rows with
  | nil => exact Nat.le_trans hle h
  | cons r rest => exact ⟨Nat.le_trans hle h.1, h.2⟩

theorem Between.append (h : Between a rows b) (hothers : Between b others c) :
    Between a (rows ++ others) c := by
  induction rows generalizing a with
  | nil => exact hothers.of_le h
  | cons r rest ih => exact ⟨h.1, ih h.2⟩

theorem Between.start_le (h : Between a rows b) : ∀ r ∈ rows, a ≤ r.start := by
  induction rows generalizing a with
  | nil => intro r hr; cases hr
  | cons first rest ih =>
    intro r hr
    rcases List.mem_cons.1 hr with rfl | hr
    · exact h.1
    · have hrest := ih h.2 r hr
      have hfirst := h.1
      unfold stop at hrest
      omega

/-- Rows between two slots do not overlap. -/
theorem Between.pairwise (h : Between a rows b) :
    rows.Pairwise fun r r' => r.stop ≤ r'.start := by
  induction rows generalizing a with
  | nil => exact .nil
  | cons first rest ih => exact List.pairwise_cons.2 ⟨h.2.start_le, ih h.2⟩

end SlotRow

/-! ## Rows of variables -/

/-- The slots of a variable of a method whose first slot is `base`. -/
def Variable.row (base : Nat) (v : Variable) : SlotRow := ⟨base + v.stackOffset, v.stackSlots⟩

/-- The slots of a method's own variables. -/
def Method.rows (base : Nat) (m : Method) : List SlotRow := m.vars.map (Variable.row base)

/-- The slots of the variables of an invoked modifier, if it is known. -/
def Invocation.rows (p : Program) (base : Nat) (i : Invocation) : List SlotRow :=
  ((i.method.bind p.method?).map (Method.rows (base + i.stackOffset))).getD []

/-- The slots of a method's own variables and of those of the modifiers that it invokes. -/
def Method.rowsWithin (p : Program) (base : Nat) (m : Method) : List SlotRow :=
  m.rows base ++ m.invocations.flatMap (Invocation.rows p base)

/-- The variables of a method are placed one after the other, and their slots are counted. -/
def Method.IsPlaced (m : Method) : Prop :=
  ∃ vars, m.vars = Variable.place 0 vars ∧ m.ownSlots = Variable.totalSlots vars

theorem Variable.between_place (base offset : Nat) (vars : List Variable) :
    SlotRow.Between (base + offset) ((place offset vars).map (row base))
      (base + offset + totalSlots vars) := by
  induction vars generalizing offset with
  | nil => exact Nat.le_refl _
  | cons v rest ih =>
    refine ⟨Nat.le_refl _, ?_⟩
    have hrest := ih (offset + v.stackSlots)
    rw [← Nat.add_assoc, Nat.add_assoc (base + offset)] at hrest
    exact hrest

namespace Method

variable {m : Method}

theorem IsPlaced.between (h : m.IsPlaced) (base : Nat) :
    SlotRow.Between base (m.rows base) (base + m.ownSlots) := by
  obtain ⟨vars, hvars, hslots⟩ := h
  have hplace := Variable.between_place base 0 vars
  rwa [← hvars, ← hslots, Nat.add_zero] at hplace

theorem isPlaced_place (m : Method) : m.place.IsPlaced := by
  refine ⟨m.vars, ?_, ?_⟩
  · simp only [vars, place, Variable.place_append, Variable.totalSlots_append, Nat.zero_add]
  · simp only [vars, place, Variable.totalSlots_append]

end Method

/-! ## Methods as they are declared -/

namespace Ast

variable {around : Surroundings} {id : ContractId} {node : Ast}

theorem isPlaced_method (contract : String) (isModifier : Bool) :
    HoldsOfOk Method.IsPlaced (node.method around id contract isModifier) := by
  unfold method
  refine .bind fun extent _ => ?_
  -- only the last step makes a method, and it places the variables
  cases node.child? "Block" <;>
    exact .bind fun body _ => .bind fun found _ => .bind fun invocations _ =>
      .pure (Method.isPlaced_place _)

theorem isPlaced_of_mem_methods :
    HoldsOfOk (fun c : Contract => ∀ m ∈ c.methods, m.IsPlaced) (node.contract around id) := by
  have hmethods (name : String) :
      HoldsOfOk (fun ms => ∀ m ∈ ms, m.IsPlaced) (node.methods around id name) :=
    .mapM fun child _ => child.isPlaced_method name _
  unfold contract
  cases node.requireName <;>
    exact .bind fun name _ => .bind fun extent _ => .bind fun methods h =>
      .pure (hmethods name methods h)

theorem isPlaced_of_mem_contractsFrom (nodes : List Ast) :
    HoldsOfOk (fun contracts => ∀ c ∈ contracts, ∀ m ∈ c.methods, m.IsPlaced)
      (contractsFrom around id nodes) := by
  induction nodes generalizing id with
  | nil =>
    intro contracts h c hc
    obtain rfl := Except.ok.inj h
    cases hc
  | cons node rest ih =>
    rw [contractsFrom]
    refine .bind fun first hfirst => .bind fun others hothers => .pure fun c hc => ?_
    rcases List.mem_cons.1 hc with rfl | hc
    · exact isPlaced_of_mem_methods _ hfirst
    · exact ih others hothers c hc

end Ast

/-! ## Methods of programs -/

namespace Contract

/-- The method of a number among some contracts. -/
def methodIn? (contracts : List Contract) (id : MethodId) : Option Method :=
  contracts[id.contract]?.bind fun c => c.methods[id.index]?

theorem mem_of_methodIn? {contracts : List Contract} {id : MethodId} {m : Method}
    (h : methodIn? contracts id = some m) : ∃ c ∈ contracts, m ∈ c.methods := by
  obtain ⟨c, hc, hm⟩ := Option.bind_eq_some_iff.1 h
  exact ⟨c, List.mem_of_getElem? hc, List.mem_of_getElem? hm⟩

/-- Bases and layouts leave the methods of contracts as they are. -/
theorem methods_of_mem_layOut {types : Declared} {contracts : List Contract} {c : Contract}
    (h : c ∈ (Inheritance.resolve contracts).map (layOut types (Inheritance.resolve contracts))) :
    ∃ declared ∈ contracts, c.methods = declared.methods := by
  obtain ⟨resolved, hresolved, rfl⟩ := List.mem_map.1 h
  obtain ⟨⟨found, id⟩, hfound, rfl⟩ := List.mem_map.1 hresolved
  have hmem := List.mem_of_getElem? (List.mem_zipIdx_iff_getElem?.1 hfound)
  obtain ⟨declared, hdeclared, rfl⟩ := List.mem_map.1 hmem
  exact ⟨declared, hdeclared, rfl⟩

end Contract

namespace Program

variable {sources : Sources} {asts : List Ast} {p : Program} {laid : List Contract} {m : Method}

/-- The methods of a program are those of its contracts with their modifiers found. -/
theorem method?_eq_map (hp : p.contracts = laid.map (Contract.bindInvocations laid))
    (id : MethodId) : ∃ linearized, p.method? id =
      (Contract.methodIn? laid id).map (Method.bindInvocations laid linearized) := by
  unfold method? contract? Contract.methodIn?
  rw [hp, List.getElem?_map]
  cases laid[id.contract]? with
  | none => exact ⟨[], rfl⟩
  | some c => exact ⟨c.linearized, List.getElem?_map⟩

/-- Finding the modifiers of a modifier does not change the slots of its own variables. -/
theorem slots_eq (hp : p.contracts = laid.map (Contract.bindInvocations laid))
    (modifier : Option MethodId) :
    Invocation.slots laid modifier = ((modifier.bind p.method?).map (·.ownSlots)).getD 0 := by
  cases modifier with
  | none => rfl
  | some id =>
    obtain ⟨linearized, hid⟩ := method?_eq_map hp id
    change ((Contract.methodIn? laid id).map (·.ownSlots)).getD 0 = _
    rw [Option.bind_some, hid, Option.map_map]
    rfl

/-- The variables of invoked modifiers follow each other. -/
theorem between_bind (hp : p.contracts = laid.map (Contract.bindInvocations laid))
    (hplaced : ∀ id m, p.method? id = some m → m.IsPlaced) (linearized : List ContractId)
    (base offset : Nat) (invocations : List Invocation) :
    SlotRow.Between (base + offset)
      ((Invocation.bind laid linearized offset invocations).flatMap (Invocation.rows p base))
      (base + offset +
        Invocation.totalSlots laid (Invocation.bind laid linearized offset invocations)) := by
  induction invocations generalizing offset with
  | nil => exact Nat.le_refl _
  | cons i rest ih =>
    rw [Invocation.bind, List.flatMap_cons, Invocation.totalSlots]
    have hrest := ih (offset + Invocation.slots laid (Invocation.modifier? laid linearized i.name))
    rw [← Nat.add_assoc, Nat.add_assoc (base + offset)] at hrest
    refine SlotRow.Between.append ?_ hrest
    rw [slots_eq hp]
    unfold Invocation.rows
    dsimp only
    cases hmodifier : (Invocation.modifier? laid linearized i.name).bind p.method? with
    | none => exact Nat.le_refl _
    | some modifier =>
      obtain ⟨id, -, hid⟩ := Option.bind_eq_some_iff.1 hmodifier
      exact (hplaced id modifier hid).between (base + offset)

/-- What the methods of a program are made of. -/
theorem exists_laid (h : ofAsts sources asts = .ok p) :
    ∃ laid : List Contract, p.contracts = laid.map (Contract.bindInvocations laid) ∧
      ∀ c ∈ laid, ∀ m ∈ c.methods, m.IsPlaced := by
  obtain ⟨contracts, hcontracts, rfl⟩ := exists_contracts_of_ofAsts h
  refine ⟨_, rfl, fun c hc m hm => ?_⟩
  obtain ⟨declared, hdeclared, hmethods⟩ := Contract.methods_of_mem_layOut hc
  rw [hmethods] at hm
  exact Ast.isPlaced_of_mem_contractsFrom _ contracts hcontracts declared hdeclared m hm

/-- The variables of every method of a program are placed. -/
theorem isPlaced_of_method? (h : ofAsts sources asts = .ok p) {id : MethodId}
    (hm : p.method? id = some m) : m.IsPlaced := by
  obtain ⟨laid, hp, hplaced⟩ := exists_laid h
  obtain ⟨linearized, hid⟩ := method?_eq_map hp id
  rw [hid] at hm
  obtain ⟨declared, hdeclared, rfl⟩ := Option.map_eq_some_iff.1 hm
  obtain ⟨c, hc, hmem⟩ := Contract.mem_of_methodIn? hdeclared
  exact hplaced c hc declared hmem

/-- **The variables of a method and its modifiers do not overlap.** -/
theorem between_rowsWithin (h : ofAsts sources asts = .ok p) {id : MethodId}
    (hm : p.method? id = some m) (base : Nat) :
    SlotRow.Between base (m.rowsWithin p base) (base + m.totalSlots) := by
  have hown := (isPlaced_of_method? h hm).between base
  obtain ⟨laid, hp, -⟩ := exists_laid h
  obtain ⟨linearized, hid⟩ := method?_eq_map hp id
  rw [hid] at hm
  obtain ⟨declared, -, rfl⟩ := Option.map_eq_some_iff.1 hm
  have hmodifiers := between_bind hp (fun _ _ => isPlaced_of_method? h) linearized base
    declared.ownSlots declared.invocations
  rw [Nat.add_assoc] at hmodifiers
  exact hown.append hmodifiers

end Program

end Solscope
