import Mathlib.Tactic.Linarith
import Solscope.Proofs.Program.Scopes
import Solscope.Proofs.Program.Slots

/-!
# The stack slots of methods, exactly

The variables of a method fill the stack from its first slot on without gaps, and the variables of
the modifiers that it invokes go on where they end.

* `InTurn`: things that take room follow each other without gaps.
* `Ast.declares_method`: the variables of a method are all that its node declares, and each takes
  the slots of its type, or those that its descriptor tells if the type is not known.
* `Program.countsSlots_of_ofAsts`: **all offsets and counts of slots are sums**, and the variables
  of a method and its modifiers fill the slots that it counts.
-/

namespace Solscope

/-! ## Following each other without gaps -/

section InTurn

variable {α β : Type} {start size : α → Nat} {a n : Nat} {xs ys : List α}

/-- Things that take room follow each other without gaps, the first one from `a` on. -/
def InTurn (start size : α → Nat) (a : Nat) : List α → Prop
  | [] => True
  | x :: rest => start x = a ∧ InTurn start size (a + size x) rest

namespace InTurn

theorem append (hxs : InTurn start size a xs) (hys : InTurn start size (a + (xs.map size).sum) ys) :
    InTurn start size a (xs ++ ys) := by
  induction xs generalizing a with
  | nil => exact hys
  | cons x xs ih =>
    rw [List.map_cons, List.sum_cons, ← Nat.add_assoc] at hys
    exact ⟨hxs.1, ih hxs.2 hys⟩

/-- Each starts at the sum of the sizes before it. -/
theorem start_eq {before after : List α} {x : α}
    (h : InTurn start size a (before ++ x :: after)) : start x = a + (before.map size).sum := by
  induction before generalizing a with
  | nil => exact h.1
  | cons y before ih => rw [ih h.2, List.map_cons, List.sum_cons, Nat.add_assoc]

theorem le_start (h : InTurn start size a xs) : ∀ x ∈ xs, a ≤ start x := by
  intro x hx
  obtain ⟨before, after, rfl⟩ := List.append_of_mem hx
  rw [h.start_eq]
  exact Nat.le_add_right _ _

/-- None starts before those in front of it end. -/
theorem pairwise (h : InTurn start size a xs) :
    xs.Pairwise fun x y => start x + size x ≤ start y := by
  induction xs generalizing a with
  | nil => exact .nil
  | cons x xs ih =>
    refine List.pairwise_cons.2 ⟨?_, ih h.2⟩
    rw [h.1]
    exact h.2.le_start

/-- Together they fill the room from `a` on. -/
theorem exists_mem_iff (h : InTurn start size a xs) :
    (∃ x ∈ xs, start x ≤ n ∧ n < start x + size x) ↔ a ≤ n ∧ n < a + (xs.map size).sum := by
  induction xs generalizing a with
  | nil => simp
  | cons x xs ih =>
    have hcons : (∃ y ∈ x :: xs, start y ≤ n ∧ n < start y + size y) ↔
        (start x ≤ n ∧ n < start x + size x) ∨ ∃ y ∈ xs, start y ≤ n ∧ n < start y + size y := by
      simp only [List.mem_cons, exists_eq_or_imp]
    rw [hcons, ih h.2, h.1, List.map_cons, List.sum_cons]
    omega

theorem map (f : β → α) {ys : List β} :
    InTurn start size a (ys.map f) ↔ InTurn (start ∘ f) (size ∘ f) a ys := by
  induction ys generalizing a with
  | nil => exact Iff.rfl
  | cons y ys ih => exact and_congr_right fun _ => ih

/-- What fills the room of each also follows each other without gaps. -/
theorem flatMap {start' size' : β → Nat} {parts : α → List β} (h : InTurn start size a xs)
    (hparts : ∀ x ∈ xs, InTurn start' size' (start x) (parts x) ∧
      ((parts x).map size').sum = size x) :
    InTurn start' size' a (xs.flatMap parts) ∧
      ((xs.flatMap parts).map size').sum = (xs.map size).sum := by
  induction xs generalizing a with
  | nil => exact ⟨trivial, rfl⟩
  | cons x xs ih =>
    obtain ⟨hfirst, hsum⟩ := hparts x List.mem_cons_self
    obtain ⟨hrest, hsums⟩ := ih h.2 fun y hy => hparts y (List.mem_cons_of_mem _ hy)
    rw [h.1] at hfirst
    rw [← hsum] at hrest
    rw [List.flatMap_cons, List.map_append, List.sum_append, hsum, hsums]
    exact ⟨hfirst.append hrest, rfl⟩

/-- All may be moved by the same distance. -/
theorem shift (h : InTurn start size a xs) (base : Nat) :
    InTurn (fun x => base + start x) size (base + a) xs := by
  induction xs generalizing a with
  | nil => exact h
  | cons x xs ih =>
    have hrest := ih h.2
    rw [← Nat.add_assoc] at hrest
    exact ⟨congrArg (base + ·) h.1, hrest⟩

end InTurn

end InTurn

/-! ## Variables and invocations -/

namespace Variable

theorem totalSlots_eq_sum (vars : List Variable) :
    totalSlots vars = (vars.map (·.stackSlots)).sum := by
  induction vars with
  | nil => rfl
  | cons v rest ih => rw [totalSlots, ih, List.map_cons, List.sum_cons]

theorem inTurn_place (offset : Nat) (vars : List Variable) :
    InTurn (·.stackOffset) (·.stackSlots) offset (place offset vars) := by
  induction vars generalizing offset with
  | nil => trivial
  | cons v rest ih => exact ⟨rfl, ih _⟩

/-- Placing changes offsets only. -/
theorem map_place {α : Type} (f : Variable → α) (hf : ∀ v offset, f { v with stackOffset := offset }
    = f v) (offset : Nat) (vars : List Variable) : (place offset vars).map f = vars.map f := by
  induction vars generalizing offset with
  | nil => rfl
  | cons v rest ih => rw [place, List.map_cons, List.map_cons, ih, hf]

/-- The slots that a variable takes are those of its type, or what its descriptor tells of them. -/
def Counted (v : Variable) : Prop :=
  v.stackSlots = match v.ty with
    | some t => t.stackSlots v.location
    | none => slotsOfDescriptor v.descriptor v.location

theorem counted_of_mem_place {offset : Nat} {vars : List Variable} (h : ∀ v ∈ vars, v.Counted) :
    ∀ v ∈ place offset vars, v.Counted := by
  induction vars generalizing offset with
  | nil => exact fun v hv => nomatch hv
  | cons first rest ih =>
    intro v hv
    rcases List.mem_cons.1 hv with rfl | hv
    · exact h first List.mem_cons_self
    · exact ih (fun w hw => h w (List.mem_cons_of_mem _ hw)) v hv

end Variable

/-- Placing a method places all its variables in one go. -/
theorem Method.vars_place (m : Method) : m.place.vars = Variable.place 0 m.vars := by
  simp only [vars, place, Variable.place_append, Variable.totalSlots_append, Nat.zero_add]

namespace Invocation

theorem inTurn_bind (laid : List Contract) (linearized : List ContractId) (offset : Nat)
    (invocations : List Invocation) :
    InTurn (·.stackOffset) (fun i => slots laid i.method) offset
      (bind laid linearized offset invocations) := by
  induction invocations generalizing offset with
  | nil => trivial
  | cons i rest ih => exact ⟨rfl, ih _⟩

theorem totalSlots_eq_sum (laid : List Contract) (invocations : List Invocation) :
    totalSlots laid invocations = (invocations.map fun i => slots laid i.method).sum := by
  induction invocations with
  | nil => rfl
  | cons i rest ih => rw [totalSlots, ih, List.map_cons, List.sum_cons]

end Invocation

/-! ## Variables as they are declared -/

namespace Ast

variable {around : Surroundings} {id : ContractId}

/-- The name of a declaration, empty if it has none. -/
def declaredName (node : Ast) : String := node.name?.getD ""

/-- Some variables are those that some nodes declare, in the same order, and each is counted. -/
structure Declares (nodes : List Ast) (vars : List Variable) : Prop where
  names : vars.map (·.name) = nodes.map declaredName
  counted : ∀ v ∈ vars, v.Counted

namespace Declares

variable {nodes others : List Ast} {vars more : List Variable}

theorem nil : Declares [] [] := ⟨rfl, fun _ hv => nomatch hv⟩

theorem append (h : Declares nodes vars) (hmore : Declares others more) :
    Declares (nodes ++ others) (vars ++ more) where
  names := by rw [List.map_append, List.map_append, h.names, hmore.names]
  counted v hv := (List.mem_append.1 hv).elim (h.counted v) (hmore.counted v)

theorem map {f : Ast → Variable} (hname : ∀ node, (f node).name = declaredName node)
    (hcounted : ∀ node, (f node).Counted) (nodes : List Ast) : Declares nodes (nodes.map f) where
  names := by
    rw [List.map_map]
    exact List.map_congr_left fun node _ => hname node
  counted v hv := by
    obtain ⟨node, -, rfl⟩ := List.mem_map.1 hv
    exact hcounted node

theorem place (h : Declares nodes vars) (offset : Nat) :
    Declares nodes (Variable.place offset vars) where
  names := by
    rw [Variable.map_place _ fun _ _ => rfl]
    exact h.names
  counted := Variable.counted_of_mem_place h.counted

end Declares

theorem counted_variableIn (node : Ast) (types : Declared) (contract : String) (location : Location)
    (kind : VariableKind) : (node.variableIn types contract location kind).Counted := by
  unfold variableIn Variable.ofTy Variable.Counted
  rfl

/-- A list of parameters declares its variables, and none is declared where there is no list. -/
theorem declares_parameters (list : Option Ast) (types : Declared) (contract : String)
    (kind : VariableKind) :
    Declares ((list.map fun l => l.childrenOf "VariableDeclaration").getD [])
      ((list.map fun list => list.parameters types contract kind).getD []) := by
  cases list with
  | none => exact .nil
  | some list => exact .map (fun _ => rfl) (fun node => node.counted_variableIn _ _ _ _) _

theorem declares_locals (contract : String) (scope : Option Extent) (node : Ast) :
    HoldsOfOk (fun found : Locals => Declares (localNodes node.preorder) found.vars)
      (locals around contract scope node) := by
  intro found hfound
  have hvars := (locals_yields contract scope [] node).holds found hfound
  rw [hvars]
  constructor
  · rw [← map_node_localsIn [] node, List.map_map, List.map_map]
    rfl
  · intro v hv
    obtain ⟨l, -, rfl⟩ := List.mem_map.1 hv
    exact l.node.counted_variableIn around.types contract l.node.location .local

/-- The nodes that declare the variables of a method: parameters, results and local variables. -/
def variableNodes (node : Ast) (isModifier : Bool) : List Ast :=
  let lists := node.childrenOf "ParameterList"
  let declared (list : Option Ast) := (list.map fun l => l.childrenOf "VariableDeclaration").getD []
  declared lists[0]? ++ (if isModifier then [] else declared lists[1]?) ++
    ((node.child? "Block").map fun block => localNodes block.preorder).getD []

/--
**The variables of a method are all that its node declares**, and each of them is counted, also
where its type is not known.
-/
theorem declares_method {node : Ast} (contract : String) (isModifier : Bool) :
    HoldsOfOk (fun m : Method => Declares (node.variableNodes isModifier) m.vars)
      (node.method around id contract isModifier) := by
  have hlists (kind : VariableKind) (list : Option Ast) :=
    declares_parameters list around.types contract kind
  have hresults (lists : Option Ast) : Declares
      (if isModifier then [] else (lists.map fun l => l.childrenOf "VariableDeclaration").getD [])
      (if isModifier then [] else
        (lists.map fun list => list.parameters around.types contract .result).getD []) := by
    split
    · exact .nil
    · exact hlists .result lists
  unfold method variableNodes
  refine .bind fun extent _ => ?_
  cases node.child? "Block" with
  | none =>
    refine .bind fun body _ => .bind fun found hfound => .bind fun invocations _ => .pure ?_
    obtain rfl := Except.ok.inj hfound
    rw [Method.vars_place]
    exact (((hlists .argument _).append (hresults _)).append .nil).place 0
  | some block =>
    refine .bind fun body _ => .bind fun found hfound => .bind fun invocations _ => .pure ?_
    rw [Method.vars_place]
    exact (((hlists .argument _).append (hresults _)).append
      (declares_locals contract body block found hfound)).place 0

end Ast

/-! ## Methods of programs -/

/-- The slots of the modifier that an invocation means; one that means none takes none. -/
def Program.modifierSlots (p : Program) (i : Invocation) : Nat :=
  ((i.method.bind p.method?).map (·.ownSlots)).getD 0

theorem Method.IsPlaced.inTurn_vars {m : Method} (h : m.IsPlaced) :
    InTurn (·.stackOffset) (·.stackSlots) 0 m.vars ∧
      m.ownSlots = (m.vars.map (·.stackSlots)).sum := by
  obtain ⟨vars, hvars, hslots⟩ := h
  rw [hvars, hslots, Variable.totalSlots_eq_sum, Variable.map_place _ fun _ _ => rfl]
  exact ⟨Variable.inTurn_place 0 vars, rfl⟩

/-- The variables of a method fill the slots from its first one on. -/
theorem Method.IsPlaced.inTurn_rows {m : Method} (h : m.IsPlaced) (base : Nat) :
    InTurn SlotRow.start SlotRow.length base (m.rows base) ∧
      ((m.rows base).map SlotRow.length).sum = m.ownSlots := by
  obtain ⟨hturn, hslots⟩ := h.inTurn_vars
  refine ⟨InTurn.map _ |>.2 (hturn.shift base), ?_⟩
  rw [hslots, rows, List.map_map]
  rfl

namespace Program

variable {sources : Sources} {asts : List Ast} {p : Program} {m : Method}

/-- The modifiers of a method follow each other behind its own variables. -/
theorem inTurn_invocations (h : ofAsts sources asts = .ok p) {id : MethodId}
    (hm : p.method? id = some m) :
    InTurn (·.stackOffset) p.modifierSlots m.ownSlots m.invocations ∧
      m.totalSlots = m.ownSlots + (m.invocations.map p.modifierSlots).sum := by
  obtain ⟨laid, hp, -⟩ := exists_laid h
  obtain ⟨linearized, hid⟩ := method?_eq_map hp id
  rw [hid] at hm
  obtain ⟨declared, -, rfl⟩ := Option.map_eq_some_iff.1 hm
  have hslots : p.modifierSlots = fun i => Invocation.slots laid i.method :=
    funext fun i => (slots_eq hp i.method).symm
  rw [hslots]
  exact ⟨Invocation.inTurn_bind laid linearized _ _,
    congrArg (declared.ownSlots + ·) (Invocation.totalSlots_eq_sum laid _)⟩

/-- The variables of a method and its modifiers fill the slots from its first one on. -/
theorem inTurn_rowsWithin (h : ofAsts sources asts = .ok p) {id : MethodId}
    (hm : p.method? id = some m) :
    InTurn SlotRow.start SlotRow.length 0 (m.rowsWithin p 0) ∧
      ((m.rowsWithin p 0).map SlotRow.length).sum = m.totalSlots := by
  obtain ⟨hown, hslots⟩ := (isPlaced_of_method? h hm).inTurn_rows 0
  obtain ⟨hinvocations, htotal⟩ := inTurn_invocations h hm
  have hmodifier : ∀ i ∈ m.invocations,
      InTurn SlotRow.start SlotRow.length i.stackOffset (i.rows p 0) ∧
        ((i.rows p 0).map SlotRow.length).sum = p.modifierSlots i := by
    intro i _
    unfold Invocation.rows modifierSlots
    cases hfound : i.method.bind p.method? with
    | none => exact ⟨trivial, rfl⟩
    | some modifier =>
      obtain ⟨id, -, hid⟩ := Option.bind_eq_some_iff.1 hfound
      have hrows := (isPlaced_of_method? h hid).inTurn_rows (0 + i.stackOffset)
      rw [Nat.zero_add] at hrows ⊢
      exact hrows
  -- the modifiers take over where the own variables end
  obtain ⟨hrows, hsums⟩ := hinvocations.flatMap hmodifier
  rw [Method.rowsWithin, List.map_append, List.sum_append, hslots, hsums, htotal]
  refine ⟨hown.append ?_, rfl⟩
  rwa [hslots, Nat.zero_add]

/-- The stack slots of a method are counted to the last one. -/
structure CountsSlots (p : Program) (asts : List Ast) (id : MethodId) (m : Method) : Prop where
  /-- The variables are all those that the method's node declares. -/
  written : ∃ node child, (Ast.contractNodes asts)[id.contract]? = some node ∧
    node.methodNodes[id.index]? = some child ∧ m.vars.map (·.name) =
      (child.variableNodes (child.kind = "ModifierDefinition")).map Ast.declaredName
  /-- A variable takes the slots of its type, or those of its descriptor without a type. -/
  counted : ∀ v ∈ m.vars, v.Counted
  stackOffset : ∀ before v after, m.arguments ++ m.results ++ m.locals = before ++ v :: after →
    v.stackOffset = (before.map (·.stackSlots)).sum
  ownSlots : m.ownSlots = ((m.arguments ++ m.results ++ m.locals).map (·.stackSlots)).sum
  invocation : ∀ before i after, m.invocations = before ++ i :: after →
    i.stackOffset = m.ownSlots + (before.map p.modifierSlots).sum
  totalSlots : m.totalSlots = m.ownSlots + (m.invocations.map p.modifierSlots).sum
  /-- No two variables of the method and its modifiers share a slot. -/
  apart : (m.rowsWithin p 0).Pairwise fun r r' => r.stop ≤ r'.start
  /-- Together they take all slots that the method counts, and no others. -/
  filled : ∀ slot, slot < m.totalSlots ↔
    ∃ r ∈ m.rowsWithin p 0, r.start ≤ slot ∧ slot < r.stop

/-- The variables of a method are those that its node declares. -/
theorem vars_written (h : ofAsts sources asts = .ok p) {id : MethodId}
    (hm : p.method? id = some m) : ∃ node child,
      (Ast.contractNodes asts)[id.contract]? = some node ∧
        node.methodNodes[id.index]? = some child ∧
          Ast.Declares (child.variableNodes (child.kind = "ModifierDefinition")) m.vars := by
  obtain ⟨c, hc, hindex⟩ := Option.bind_eq_some_iff.1 hm
  obtain ⟨node, child, declared, laid, hnode, hchild, hmethod, rfl⟩ :=
    exists_declaration h hc hindex
  exact ⟨node, child, hnode, hchild, Ast.declares_method _ _ declared hmethod⟩

/--
**Stack slots are counted exactly.** The arguments of a method, then its results, then its local
variables start where the ones before end, whether their types are known or not, and take
`ownSlots` together. The variables of an invoked modifier start behind those and the own ones of the
modifiers that are invoked before. All these variables fill the `totalSlots` of the method without
overlapping.
-/
theorem countsSlots_of_ofAsts (h : ofAsts sources asts = .ok p) {id : MethodId}
    (hm : p.method? id = some m) : p.CountsSlots asts id m := by
  obtain ⟨node, child, hnode, hchild, hdeclares⟩ := vars_written h hm
  obtain ⟨hvars, hown⟩ := (isPlaced_of_method? h hm).inTurn_vars
  obtain ⟨hinvocations, htotal⟩ := inTurn_invocations h hm
  obtain ⟨hrows, hsum⟩ := inTurn_rowsWithin h hm
  exact {
    written := ⟨node, child, hnode, hchild, hdeclares.names⟩
    counted := hdeclares.counted
    stackOffset := fun before v after heq => by
      rw [Method.vars, heq] at hvars
      rw [hvars.start_eq, Nat.zero_add]
    ownSlots := hown
    invocation := fun before i after heq => by
      rw [heq] at hinvocations
      exact hinvocations.start_eq
    totalSlots := htotal
    apart := hrows.pairwise
    filled := fun slot => by
      rw [← hsum]
      exact ((hrows.exists_mem_iff).trans (by omega)).symm }

/--
A modifier is invoked twice around a base contract, and one of the arguments has a type that is not
known and takes two slots.
-/
theorem countsSlots_of_ofAsts_repeated :
    let declare (name type location : String) : Ast :=
      { kind := "VariableDeclaration", attributes := [("name", .str name),
        ("storageLocation", .str location), ("type", .str type)] }
    let parameters (children : List Ast) : Ast := { kind := "ParameterList", children }
    let block (children : List Ast) : Ast := { kind := "Block", src := "0:5:0", children := [
      { kind := "VariableDeclarationStatement", src := "1:2:0", children }] }
    let invoke (name : String) : Ast :=
      { kind := "ModifierInvocation", src := "0:1:0", children := [
        { kind := "Identifier", attributes := [("value", .str name)] }] }
    let method (kind name : String) (children : List Ast) : Ast :=
      { kind, src := "0:9:0", attributes := [("name", .str name)], children }
    let asts : List Ast := [{ kind := "SourceUnit", children := [
      { kind := "ContractDefinition", src := "0:9:0", attributes := [("name", .str "A")],
        children := [
          method "FunctionDefinition" "f" [
            parameters [declare "a" "uint256" "default", declare "b" "S[] calldata" "calldata"],
            parameters [declare "r" "bool" "default"], invoke "only", invoke "B", invoke "only",
            block [declare "x" "uint8" "default"]],
          method "ModifierDefinition" "only" [
            parameters [declare "level" "uint8" "default"],
            block [declare "y" "function ()" "default"]]] }] }]
    ∃ p m, ofAsts (({} : Sources).add 0 "a.sol" "contract A") asts = .ok p ∧
      p.method? ⟨0, 0⟩ = some m ∧
      m.vars.map (fun v => (v.name, v.stackOffset)) = [("a", 0), ("b", 1), ("r", 3), ("x", 4)] ∧
      m.invocations.map (fun i => (i.method, i.stackOffset)) =
        [(some ⟨0, 1⟩, 5), (none, 7), (some ⟨0, 1⟩, 7)] ∧
      m.ownSlots = 5 ∧ m.totalSlots = 9 ∧ p.CountsSlots asts ⟨0, 0⟩ m := by
  intro declare parameters block invoke method asts
  have heval : (ofAsts (({} : Sources).add 0 "a.sol" "contract A") asts).toOption.any (fun p =>
      (p.method? ⟨0, 0⟩).any fun m =>
        m.vars.map (fun v => (v.name, v.stackOffset)) = [("a", 0), ("b", 1), ("r", 3), ("x", 4)] ∧
        m.invocations.map (fun i => (i.method, i.stackOffset)) =
          [(some ⟨0, 1⟩, 5), (none, 7), (some ⟨0, 1⟩, 7)] ∧
        m.ownSlots = 5 ∧ m.totalSlots = 9) = true := by
    decide +kernel
  cases h : ofAsts (({} : Sources).add 0 "a.sol" "contract A") asts with
  | error e => rw [h] at heval; cases heval
  | ok p =>
    rw [h] at heval
    change Option.any _ (p.method? ⟨0, 0⟩) = true at heval
    obtain ⟨m, hm, hfacts⟩ := (Option.any_eq_true _ _).1 heval
    obtain ⟨hvars, hinvocations, hown, htotal⟩ := of_decide_eq_true hfacts
    exact ⟨p, m, rfl, hm, hvars, hinvocations, hown, htotal, countsSlots_of_ofAsts h hm⟩

end Program

end Solscope
