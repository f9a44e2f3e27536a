import Mathlib.Data.List.Forall2
import Solscope.Proofs.Program.Declarations
import Solscope.Proofs.Source.Positions
import Solscope.Proofs.Text.Integer

/-!
# The scopes of local variables

Statements declare local variables wherever they stand below the body of a method. A variable is
visible from the start of its statement on, as long as the innermost block or loop around the
statement lasts. Nodes that have no place bound nothing.

* `Ast.nested`: the nodes of a tree, each with the nodes around it.
* `Ast.localsIn`: the declarations of local variables in a tree.
* `Ast.locals_yields`: **what is collected from a tree are all declarations in it**, in order, with
  the extents of their statements and scopes.
* `Ast.LocalNode.isVisibleAt_iff`: where a variable is visible, in byte offsets.
* `Ast.visible_locals`: **the local variables of a method and where each of them is visible.**
-/

namespace Solscope

namespace Ast

variable {around : Surroundings} {id : ContractId} {node : Ast} {contract : String}

/-! ## Nodes with the nodes around them -/

mutual

/--
The nodes of a tree, parents before their children, each with the nodes around it, the innermost one
first. The whole tree stands inside `outer`.
-/
def nested (outer : List Ast) : Ast → List (Ast × List Ast)
  | ⟨id, kind, src, attributes, children⟩ =>
    let node : Ast := ⟨id, kind, src, attributes, children⟩
    (node, outer) :: nestedAll (node :: outer) children

/-- The nodes of trees that stand side by side inside `outer`. -/
def nestedAll (outer : List Ast) : List Ast → List (Ast × List Ast)
  | [] => []
  | node :: rest => nested outer node ++ nestedAll outer rest

end

mutual

theorem map_fst_nested (outer : List Ast) : (node : Ast) →
    (nested outer node).map Prod.fst = node.preorder
  | ⟨id, kind, src, attributes, children⟩ => by
    rw [nested, preorder, List.map_cons, map_fst_nestedAll _ children]

theorem map_fst_nestedAll (outer : List Ast) : (nodes : List Ast) →
    (nestedAll outer nodes).map Prod.fst = preorderAll nodes
  | [] => rfl
  | node :: rest => by
    rw [nestedAll, preorderAll, List.map_append, map_fst_nested outer node,
      map_fst_nestedAll outer rest]

end

theorem mem_preorder_self (node : Ast) : node ∈ node.preorder := by
  cases node
  rw [preorder]
  exact List.mem_cons_self

theorem preorderAll_children_subset (node : Ast) : preorderAll node.children ⊆ node.preorder := by
  cases node
  rw [preorder]
  exact List.subset_cons_self _ _

mutual

/-- What is around a node of a tree is in the tree, or around all of it. -/
theorem mem_of_nested (outer : List Ast) : (node : Ast) → ∀ entry ∈ nested outer node,
    ∀ n ∈ entry.2, n ∈ node.preorder ∨ n ∈ outer
  | ⟨id, kind, src, attributes, children⟩ => by
    intro entry hentry n hn
    rw [nested] at hentry
    rw [preorder]
    rcases List.mem_cons.1 hentry with rfl | hentry
    · exact .inr hn
    · rcases mem_of_nestedAll _ children entry hentry n hn with hbelow | hn
      · exact .inl (List.mem_cons_of_mem _ hbelow)
      · rcases List.mem_cons.1 hn with rfl | hn
        · exact .inl List.mem_cons_self
        · exact .inr hn

theorem mem_of_nestedAll (outer : List Ast) : (nodes : List Ast) → ∀ entry ∈ nestedAll outer nodes,
    ∀ n ∈ entry.2, n ∈ preorderAll nodes ∨ n ∈ outer
  | [] => by simp [nestedAll]
  | node :: rest => by
    intro entry hentry n hn
    rw [nestedAll] at hentry
    rw [preorderAll]
    rcases List.mem_append.1 hentry with hentry | hentry
    · exact (mem_of_nested outer node entry hentry n hn).imp_left (List.mem_append_left _)
    · exact (mem_of_nestedAll outer rest entry hentry n hn).imp_left (List.mem_append_right _)

end

/-! ## Declarations of local variables -/

/-- The nodes of the variables that those of some nodes declare which are statements for that. -/
def localNodes (nodes : List Ast) : List Ast :=
  (nodes.filter fun n => n.kind = "VariableDeclarationStatement").flatMap fun n =>
    n.childrenOf "VariableDeclaration"

/-- The declaration of a local variable. -/
structure LocalNode where
  node : Ast
  /-- The statement that the declaration is part of. -/
  statement : Ast
  /-- The nodes around the statement, the innermost one first. -/
  outer : List Ast

/-- The declarations that are part of a node itself. -/
def ownLocals (entry : Ast × List Ast) : List LocalNode :=
  if entry.1.kind = "VariableDeclarationStatement" then
    (entry.1.childrenOf "VariableDeclaration").map fun v => ⟨v, entry.1, entry.2⟩
  else []

/-- The declarations of local variables in a tree inside `outer`. -/
def localsIn (outer : List Ast) (node : Ast) : List LocalNode :=
  (nested outer node).flatMap ownLocals

/-- The declarations of local variables in trees inside `outer`. -/
def localsInAll (outer : List Ast) (nodes : List Ast) : List LocalNode :=
  (nestedAll outer nodes).flatMap ownLocals

theorem localsIn_eq (outer : List Ast) (node : Ast) :
    localsIn outer node = ownLocals (node, outer) ++ localsInAll (node :: outer) node.children := by
  cases node with
  | mk id kind src attributes children =>
    rw [localsIn, nested, List.flatMap_cons]
    rfl

theorem localsInAll_cons (outer : List Ast) (node : Ast) (rest : List Ast) :
    localsInAll outer (node :: rest) = localsIn outer node ++ localsInAll outer rest := by
  rw [localsInAll, nestedAll, List.flatMap_append]
  rfl

theorem map_node_localsIn (outer : List Ast) (node : Ast) :
    (localsIn outer node).map (·.node) = localNodes node.preorder := by
  rw [localsIn, ← map_fst_nested outer node]
  induction nested outer node with
  | nil => rfl
  | cons entry rest ih =>
    rw [List.flatMap_cons, List.map_append, ih, ownLocals, localNodes, localNodes, List.map_cons,
      List.filter_cons]
    by_cases hkind : entry.1.kind = "VariableDeclarationStatement" <;>
      simp [hkind, Function.comp_def]

/-- The extent of the innermost block or loop that has a place. -/
def scopeExtent? (sources : Sources) (outer : List Ast) : Option Extent :=
  outer.findSome? fun n => if isScope n.kind then (n.extent? sources).toOption.join else none

theorem scopeExtent?_cons {sources : Sources} {extent : Option Extent} (outer : List Ast)
    (hextent : node.extent? sources = .ok extent) (hkind : isScope node.kind = true) :
    scopeExtent? sources (node :: outer) = extent.or (scopeExtent? sources outer) := by
  rw [scopeExtent?, List.findSome?_cons, if_pos hkind, hextent]
  cases extent <;> rfl

theorem scopeExtent?_cons_of_not {sources : Sources} (outer : List Ast)
    (hkind : isScope node.kind = false) :
    scopeExtent? sources (node :: outer) = scopeExtent? sources outer := by
  rw [scopeExtent?, List.findSome?_cons, hkind]
  rfl

/-- The variable of a declaration, all of which stands inside `scope`. -/
def LocalNode.variable (around : Surroundings) (contract : String) (scope : Option Extent)
    (l : LocalNode) : Variable :=
  { l.node.variableIn around.types contract l.node.location .local with
    declaration := (l.statement.extent? around.sources).toOption.join
    scope := (scopeExtent? around.sources l.outer).or scope }

/-- Whether the extents of nodes can be told, those of nodes without a place included. -/
def HaveExtents (sources : Sources) (nodes : List Ast) : Prop :=
  ∀ n ∈ nodes, ∃ extent, n.extent? sources = .ok extent

theorem declaredLocals_yields (around : Surroundings) (contract : String) (scope : Option Extent)
    (outer : List Ast) (node : Ast) : YieldsOk (HaveExtents around.sources [node])
      (fun own : Locals => own.vars = (ownLocals (node, outer)).map
        (LocalNode.variable around contract scope))
      (node.declaredLocals around contract
        ((scopeExtent? around.sources (node :: outer)).or scope)) := by
  rw [declaredLocals, ownLocals]
  by_cases hkind : node.kind = "VariableDeclarationStatement"
  · have hscope : scopeExtent? around.sources (node :: outer) =
        scopeExtent? around.sources outer :=
      scopeExtent?_cons_of_not outer (by rw [hkind]; rfl)
    rw [if_pos hkind, if_pos hkind, hscope]
    refine .bind (.of_exists fun h => h node (List.mem_singleton_self node)) fun extent hextent =>
      .pure ?_
    rw [List.map_map]
    refine List.map_congr_left fun v _ => ?_
    simp [LocalNode.variable, hextent, Except.toOption]
  · rw [if_neg hkind, if_neg hkind]
    exact .pure rfl

theorem HaveExtents.of_subset {sources : Sources} {nodes others : List Ast}
    (h : HaveExtents sources nodes) (hsub : others ⊆ nodes) : HaveExtents sources others :=
  fun n hn => h n (hsub hn)

mutual

/-- **What is collected from a tree are all declarations in it.** -/
theorem locals_yields (contract : String) (scope : Option Extent) (outer : List Ast) :
    (node : Ast) → YieldsOk (HaveExtents around.sources node.preorder)
      (fun found : Locals => found.vars = (localsIn outer node).map
        (LocalNode.variable around contract scope))
      (locals around contract ((scopeExtent? around.sources outer).or scope) node)
  | ⟨id, kind, src, attributes, children⟩ => by
    have hbody : YieldsOk
        (HaveExtents around.sources (preorder ⟨id, kind, src, attributes, children⟩))
        (fun found : Locals =>
          found.vars = (localsIn outer ⟨id, kind, src, attributes, children⟩).map
            (LocalNode.variable around contract scope))
        (do
          let scope := (scopeExtent? around.sources
            (⟨id, kind, src, attributes, children⟩ :: outer)).or scope
          let own ← declaredLocals around contract scope ⟨id, kind, src, attributes, children⟩
          return own.append (← localsOfAll around contract scope children)) := by
      have hown := declaredLocals_yields around contract scope outer
        ⟨id, kind, src, attributes, children⟩
      have hbelow := localsOfAll_yields contract scope
        (⟨id, kind, src, attributes, children⟩ :: outer) children
      refine .bind (hown.of_imp fun h => ?_) fun own hown =>
        .bind (hbelow.of_imp fun h => ?_) fun below hbelow => .pure ?_
      · exact h.of_subset (List.cons_subset.2 ⟨mem_preorder_self _, List.nil_subset _⟩)
      · exact h.of_subset (preorderAll_children_subset ⟨id, kind, src, attributes, children⟩)
      · -- what a node declares itself comes before what its children declare
        rw [localsIn_eq, List.map_append, ← hown, ← hbelow]
        rfl
    rw [locals]
    by_cases hkind : isScope kind = true
    · rw [if_pos hkind]
      cases hextent : extent? around.sources ⟨id, kind, src, attributes, children⟩ with
      | error e =>
        intro hsure
        obtain ⟨extent, hok⟩ := hsure _ (mem_preorder_self _)
        rw [hextent] at hok
        cases hok
      | ok extent =>
        rw [scopeExtent?_cons outer hextent hkind, Option.or_assoc] at hbody
        exact hbody
    · rw [if_neg hkind]
      rw [scopeExtent?_cons_of_not outer (Bool.eq_false_iff.2 hkind)] at hbody
      exact hbody

theorem localsOfAll_yields (contract : String) (scope : Option Extent) (outer : List Ast) :
    (nodes : List Ast) → YieldsOk (HaveExtents around.sources (preorderAll nodes))
      (fun found : Locals => found.vars = (localsInAll outer nodes).map
        (LocalNode.variable around contract scope))
      (localsOfAll around contract ((scopeExtent? around.sources outer).or scope) nodes)
  | [] => .pure rfl
  | node :: rest => by
    have hfirst := locals_yields contract scope outer node
    have hothers := localsOfAll_yields contract scope outer rest
    rw [localsOfAll]
    refine .bind (hfirst.of_imp fun h => ?_) fun first hfirst =>
      .bind (hothers.of_imp fun h => ?_) fun others hothers => .pure ?_
    · rw [preorderAll] at h
      exact h.of_subset (List.subset_append_left _ _)
    · rw [preorderAll] at h
      exact h.of_subset (List.subset_append_right _ _)
    · rw [localsInAll_cons, List.map_append, ← hfirst, ← hothers]
      rfl

end

/-! ## Places in one file -/

/-- The place of a node, if it has one that can be told. -/
def place? (node : Ast) : Option SourceRange := node.range.toOption.join

/-- A node without a place, or one that lies in a file of some size. -/
def IsWithin (node : Ast) (number size : Nat) : Prop :=
  ∃ place, node.range = .ok place ∧ ∀ r ∈ place, r.file = number ∧ r.start + r.length ≤ size

instance (node : Ast) (number size : Nat) : Decidable (node.IsWithin number size) :=
  decidable_of_iff (node.range.toOption.any fun place =>
      place.all fun r => r.file = number && r.start + r.length ≤ size) <| by
    rw [IsWithin]
    cases node.range with
    | error e => simp [Except.toOption]
    | ok place => cases place <;> simp [Except.toOption]

theorem IsWithin.place_le {number size : Nat} (h : node.IsWithin number size) {r : SourceRange}
    (hr : node.place? = some r) : r.start + r.length ≤ size := by
  obtain ⟨place, hrange, hplace⟩ := h
  rw [place?, hrange] at hr
  obtain rfl : place = some r := hr
  exact (hplace r rfl).2

section

variable {number : Nat} {f : SourceFile}

/-- The extent of a place in a file. -/
def extentIn (number : Nat) (f : SourceFile) (r : SourceRange) : Extent :=
  ⟨number, f.position r.start, f.position (r.start + r.length)⟩

theorem extent?_of_isWithin (hfile : around.sources.get? number = some f)
    (h : node.IsWithin number f.size) :
    node.extent? around.sources = .ok (node.place?.map (extentIn number f)) := by
  obtain ⟨place, hrange, hplace⟩ := h
  rw [extent?, place?, hrange]
  cases place with
  | none => rfl
  | some r =>
    obtain ⟨rfl, -⟩ := hplace r rfl
    dsimp only
    rw [Sources.extent?_eq hfile]
    rfl

/-- The place of the innermost block or loop around a declaration that has one. -/
def LocalNode.scope? (l : LocalNode) : Option SourceRange :=
  l.outer.findSome? fun n => if isScope n.kind then n.place? else none

theorem scopeExtent?_of_isWithin (hfile : around.sources.get? number = some f) {l : LocalNode}
    (h : ∀ n ∈ l.outer, n.IsWithin number f.size) :
    scopeExtent? around.sources l.outer = l.scope?.map (extentIn number f) := by
  obtain ⟨declaration, statement, outer⟩ := l
  rw [scopeExtent?, LocalNode.scope?]
  induction outer with
  | nil => rfl
  | cons n outer ih =>
    obtain ⟨hn, houter⟩ := List.forall_mem_cons.1 h
    rw [List.findSome?_cons, List.findSome?_cons, extent?_of_isWithin hfile hn]
    by_cases hkind : isScope n.kind = true
    · rw [if_pos hkind, if_pos hkind]
      cases n.place? with
      | none => exact ih houter
      | some r => rfl
    · rw [if_neg hkind, if_neg hkind]
      exact ih houter

/-- The extent of a place covers the positions of the bytes there, and no others. -/
theorem contains_extentIn_iff {r : SourceRange} (hr : r.start + r.length ≤ f.size) {o : Nat}
    (ho : o ≤ f.size) : (extentIn number f r).contains number (f.position o) = true ↔
      r.start ≤ o ∧ o < r.start + r.length := by
  rw [Extent.contains, decide_eq_true_eq, extentIn, SourceFile.position_le_iff,
    SourceFile.position_lt_iff]
  simp only [true_and]
  omega

namespace LocalNode

variable {l : LocalNode} {v : Variable}

/--
Whether a variable is declared at an offset, and its scope is not over. A place that is not known
rules nothing out.
-/
def InScopeAt (l : LocalNode) (o : Nat) : Prop :=
  (∀ r ∈ l.statement.place?, r.start ≤ o) ∧
    ∀ r ∈ l.scope?, r.start ≤ o ∧ o < r.start + r.length

/-- Whether the place of a statement or that of its scope is known. -/
def IsPlaced (l : LocalNode) : Prop := l.statement.place? ≠ none ∨ l.scope? ≠ none

/-- All nodes that the scope of a variable depends on lie in a file. -/
structure AreWithin (l : LocalNode) (number size : Nat) : Prop where
  statement : l.statement.IsWithin number size
  outer : ∀ n ∈ l.outer, n.IsWithin number size

theorem AreWithin.scope_le (h : l.AreWithin number f.size) {r : SourceRange}
    (hr : l.scope? = some r) : r.start + r.length ≤ f.size := by
  obtain ⟨n, hn, hplace⟩ := List.exists_of_findSome?_eq_some hr
  split at hplace
  · exact (h.outer n hn).place_le hplace
  · cases hplace

/-- Visibility depends on the places of the statement and of the scope. -/
theorem isVisibleAt_eq (hfile : around.sources.get? number = some f)
    (h : l.AreWithin number f.size) (file : Nat) (p : Position) :
    (l.variable around contract none).isVisibleAt file p =
      (((l.scope?.map (extentIn number f)).all fun scope => scope.contains file p) &&
        (l.statement.place?.map (extentIn number f)).all fun declaration =>
          declaration.file = file && declaration.start ≤ p) := by
  have hscope : (l.variable around contract none).scope = l.scope?.map (extentIn number f) := by
    rw [← scopeExtent?_of_isWithin hfile h.outer]
    exact Option.or_none
  have hdeclaration : (l.variable around contract none).declaration =
      l.statement.place?.map (extentIn number f) := by
    rw [LocalNode.variable, extent?_of_isWithin hfile h.statement]
    rfl
  rw [Variable.isVisibleAt, hscope, hdeclaration]
  rfl

/-- **Where a local variable is visible**, in byte offsets. -/
theorem isVisibleAt_iff (hfile : around.sources.get? number = some f)
    (h : l.AreWithin number f.size) {o : Nat} (ho : o ≤ f.size) :
    (l.variable around contract none).isVisibleAt number (f.position o) = true ↔
      l.InScopeAt o := by
  have hinside : ((l.scope?.map (extentIn number f)).all fun scope =>
      scope.contains number (f.position o)) = true ↔
        ∀ r ∈ l.scope?, r.start ≤ o ∧ o < r.start + r.length := by
    cases hr : l.scope? with
    | none => simp
    | some r =>
      rw [Option.map_some, Option.all_some, contains_extentIn_iff (h.scope_le hr) ho]
      simp
  have hafter : ((l.statement.place?.map (extentIn number f)).all fun declaration =>
      declaration.file = number && declaration.start ≤ f.position o) = true ↔
        ∀ r ∈ l.statement.place?, r.start ≤ o := by
    cases hr : l.statement.place? with
    | none => simp
    | some r =>
      have hin := h.statement.place_le hr
      simp only [Option.map_some, Option.all_some, extentIn, Bool.and_eq_true, decide_eq_true_eq,
        SourceFile.position_le_iff, true_and, Option.mem_some, forall_eq']
      omega
  rw [isVisibleAt_eq hfile h, Bool.and_eq_true, hinside, hafter, InScopeAt, and_comm]

/-- A variable that has a place is visible in no other file. -/
theorem isVisibleAt_other (hfile : around.sources.get? number = some f)
    (h : l.AreWithin number f.size) (hplaced : l.IsPlaced) {other : Nat} (hother : other ≠ number)
    (p : Position) : (l.variable around contract none).isVisibleAt other p = false := by
  have hne : number ≠ other := hother.symm
  rw [isVisibleAt_eq hfile h, Bool.and_eq_false_iff]
  rcases hplaced with hstatement | hscope
  · obtain ⟨r, hr⟩ := Option.ne_none_iff_exists'.1 hstatement
    right
    simp [hr, extentIn, hne]
  · obtain ⟨r, hr⟩ := Option.ne_none_iff_exists'.1 hscope
    left
    simp [hr, extentIn, Extent.contains, hne]

end LocalNode

/-! ## The local variables of methods -/

/-- The declarations of local variables in the body of a method. -/
def bodyLocals (node : Ast) : List LocalNode :=
  ((node.child? "Block").map fun block => localsIn [] block).getD []

/-- The nodes of the body of a method. -/
def bodyNodes (node : Ast) : List Ast :=
  ((node.child? "Block").map fun block => block.preorder).getD []

theorem map_node_bodyLocals (node : Ast) :
    node.bodyLocals.map (·.node) = localNodes node.bodyNodes := by
  rw [bodyLocals, bodyNodes]
  cases node.child? "Block" with
  | none => rfl
  | some block => exact map_node_localsIn [] block

/-- What a declaration depends on is in the body of the method. -/
theorem areWithin_of_mem_bodyLocals {l : LocalNode} (hl : l ∈ node.bodyLocals)
    (h : ∀ n ∈ node.bodyNodes, n.IsWithin number f.size) : l.AreWithin number f.size := by
  rw [bodyLocals] at hl
  rw [bodyNodes] at h
  cases hblock : node.child? "Block" with
  | none =>
    rw [hblock] at hl
    cases hl
  | some block =>
    rw [hblock] at hl h
    obtain ⟨entry, hentry, hown⟩ := List.mem_flatMap.1 hl
    unfold ownLocals at hown
    split at hown
    · obtain ⟨v, -, rfl⟩ := List.mem_map.1 hown
      refine ⟨h _ ?_, fun n hn => h n ?_⟩
      · show entry.1 ∈ block.preorder
        rw [← map_fst_nested []]
        exact List.mem_map_of_mem hentry
      · simpa using mem_of_nested [] block entry hentry n hn
    · cases hown

/-- Placing variables on the stack changes nothing else about them. -/
theorem forall₂_place (offset : Nat) (vars : List Variable) :
    List.Forall₂ (fun v placed => placed = { v with stackOffset := placed.stackOffset }) vars
      (Variable.place offset vars) := by
  induction vars generalizing offset with
  | nil => exact .nil
  | cons v rest ih => exact .cons rfl (ih _)

/-- Nothing is around a body: the block itself bounds what is declared in it, if it has a place. -/
theorem locals_body {block : Ast} {body : Option Extent} (hkind : isScope block.kind = true)
    (hbody : block.extent? around.sources = .ok body) :
    block.locals around contract body = block.locals around contract none := by
  cases block with
  | mk id kind src attributes children =>
    rw [locals, locals, if_pos hkind, if_pos hkind, hbody]
    cases body <;> rfl

theorem exists_invocations {nodes : List Ast} (h : HaveExtents around.sources nodes) :
    ∃ invocations, (nodes.mapM fun i => i.invocation around.sources) = .ok invocations := by
  cases hread : nodes.mapM fun i => i.invocation around.sources with
  | ok invocations => exact ⟨invocations, rfl⟩
  | error e =>
    refine absurd (mapM_eq_error_iff.1 hread) (forall_ok_iff.1 (fun i hi => ?_) e)
    obtain ⟨site, hsite⟩ := h i hi
    exact ⟨_, by rw [invocation, hsite]; rfl⟩

/-- The extents that a method needs can be told. -/
structure HasExtents (node : Ast) (sources : Sources) : Prop where
  whole : ∃ extent, node.extent sources = .ok extent
  body : HaveExtents sources node.bodyNodes
  invocations : HaveExtents sources (node.childrenOf "ModifierInvocation")

/-- The local variables of a method are those that its body declares. -/
theorem method_yields (around : Surroundings) (id : ContractId) (node : Ast) (contract : String)
    (isModifier : Bool) :
    YieldsOk (node.HasExtents around.sources)
      (fun m : Method => List.Forall₂ (fun (l : LocalNode) v =>
        v = { l.variable around contract none with stackOffset := v.stackOffset })
          node.bodyLocals m.locals)
      (node.method around id contract isModifier) := by
  have hplaced (offset : Nat) {found : Locals} (hfound : found.vars = node.bodyLocals.map
      (LocalNode.variable around contract none)) :
      List.Forall₂ (fun (l : LocalNode) v =>
        v = { l.variable around contract none with stackOffset := v.stackOffset })
          node.bodyLocals (Variable.place offset found.vars) := by
    rw [hfound]
    exact List.forall₂_map_left_iff.1 (forall₂_place offset _)
  unfold method
  refine .bind (.of_exists HasExtents.whole) fun extent _ => ?_
  cases hblock : node.child? "Block" with
  | none =>
    refine .bind (P := fun _ => True) (.pure trivial) fun body _ =>
      .bind (P := fun found : Locals => found.vars = []) (.pure rfl) fun found hfound =>
      .bind (.of_exists fun h => exists_invocations h.invocations) fun invocations _ => .pure ?_
    refine hplaced _ ?_
    rw [hfound, bodyLocals, hblock]
    rfl
  | some block =>
    have hsure (h : node.HasExtents around.sources) :
        HaveExtents around.sources block.preorder := by
      have hbody := h.body
      rwa [bodyNodes, hblock] at hbody
    have hkind : isScope block.kind = true := by
      have hfound : block.kind = "Block" := by simpa using List.find?_some hblock
      rw [hfound]
      rfl
    refine .bind (.of_exists fun h => hsure h block block.mem_preorder_self) fun body hbody => ?_
    dsimp only
    rw [locals_body hkind hbody]
    refine .bind ((locals_yields contract none [] block).of_imp hsure) fun found hfound =>
      .bind (.of_exists fun h => exists_invocations h.invocations) fun invocations _ => .pure ?_
    refine hplaced _ ?_
    rw [hfound, bodyLocals, hblock]
    rfl

/-- A variable is the declared one, and is visible as the places around the declaration say. -/
structure LocalNode.IsShownAs (l : LocalNode) (types : Declared) (contract : String) (number : Nat)
    (f : SourceFile) (v : Variable) : Prop where
  /-- Name, type and location are those of the declaration. -/
  declared : v = { l.node.variableIn types contract l.node.location .local with
    declaration := v.declaration, scope := v.scope, stackOffset := v.stackOffset }
  visible : ∀ o ≤ f.size, v.isVisibleAt number (f.position o) = true ↔ l.InScopeAt o
  elsewhere : l.IsPlaced → ∀ other ≠ number, ∀ p, v.isVisibleAt other p = false

/--
**The local variables of a method and where each of them is visible.** If all nodes of the body lie
within one file, or have no place, then the local variables are all that statements of the body
declare, in the order of the nodes. At an offset of the file a variable is visible just if its
statement has started and the innermost block or loop around it that has a place is not over, and in
other files it is not visible. There is a method if its own place and those of the modifiers in its
head can be told.
-/
theorem visible_locals (around : Surroundings) (id : ContractId) (node : Ast) (contract : String)
    (isModifier : Bool) (hfile : around.sources.get? number = some f)
    (hbody : ∀ n ∈ node.bodyNodes, n.IsWithin number f.size) :
    ((∃ extent, node.extent around.sources = .ok extent) →
      HaveExtents around.sources (node.childrenOf "ModifierInvocation") →
      ∃ m, node.method around id contract isModifier = .ok m) ∧
    node.bodyLocals.map (·.node) = localNodes node.bodyNodes ∧
    ∀ m, node.method around id contract isModifier = .ok m →
      List.Forall₂ (fun l v => l.IsShownAs around.types contract number f v)
        node.bodyLocals m.locals := by
  have hextents : HaveExtents around.sources node.bodyNodes := fun n hn =>
    ⟨_, extent?_of_isWithin hfile (hbody n hn)⟩
  have hmethod := method_yields around id node contract isModifier
  refine ⟨fun hwhole hinvocations => ?_, node.map_node_bodyLocals, fun m hm => ?_⟩
  · obtain ⟨m, hm, -⟩ := hmethod.exists_ok ⟨hwhole, hextents, hinvocations⟩
    exact ⟨m, hm⟩
  · have hwithin : ∀ l ∈ node.bodyLocals, l.AreWithin number f.size := fun l hl =>
      areWithin_of_mem_bodyLocals hl hbody
    refine ((List.forall₂_and_left _ _).2 ⟨hwithin, hmethod.holds m hm⟩).imp ?_
    rintro l v ⟨hl, hv⟩
    -- the slot that a variable is placed in is of no importance to where it is visible
    have hvisible (file : Nat) (p : Position) : v.isVisibleAt file p =
        (l.variable around contract none).isVisibleAt file p := by
      rw [hv]
      rfl
    refine ⟨by rw [hv]; rfl, fun o ho => ?_, fun hplaced other hother p => ?_⟩
    · rw [hvisible]
      exact LocalNode.isVisibleAt_iff hfile hl ho
    · rw [hvisible]
      exact LocalNode.isVisibleAt_other hfile hl hplaced hother p

end

/--
Variables of one name in a body, in a block inside it and in a loop, and one in an unchecked block
that has no place, so that it lasts as long as the body.
-/
theorem visible_locals_shadowed :
    let statement (name src : String) : Ast :=
      { kind := "VariableDeclarationStatement", src, children := [
        { kind := "VariableDeclaration", src,
          attributes := [("name", .str name), ("type", .str "uint256")] }] }
    let body : Ast := { kind := "Block", src := "0:40:0", children := [
      statement "x" "2:3:0",
      { kind := "Block", src := "6:10:0", children := [statement "x" "8:3:0"] },
      { kind := "ForStatement", src := "20:8:0", children := [statement "x" "22:3:0"] },
      { kind := "UncheckedBlock", src := "-1:-1:-1", children := [statement "y" "30:3:0"] }] }
    let node : Ast := { kind := "FunctionDefinition", src := "0:40:0", children := [body] }
    let f : SourceFile :=
      { index := 0, path := "a.sol", content := String.ofList (List.replicate 40 ' ') }
    let around : Surroundings := ⟨⟨[(0, f)]⟩, {}⟩
    around.sources.get? 0 = some f ∧ (∀ n ∈ node.bodyNodes, n.IsWithin 0 f.size) ∧
    ∃ m, node.method around 0 "C" false = .ok m ∧
      m.locals.map (·.name) = ["x", "x", "x", "y"] ∧
      [1, 5, 10, 24, 35].map (fun o => m.locals.map fun v => v.isVisibleAt 0 (f.position o)) =
        [[false, false, false, false], [true, false, false, false], [true, true, false, false],
          [true, false, true, false], [true, false, false, true]] ∧
      List.Forall₂ (fun l v => l.IsShownAs around.types "C" 0 f v) node.bodyLocals m.locals := by
  intro statement body node f around
  have hfile : around.sources.get? 0 = some f := rfl
  have hbody : ∀ n ∈ node.bodyNodes, n.IsWithin 0 f.size := by decide +kernel
  have heval : (node.method around 0 "C" false).toOption.any (fun m =>
      m.locals.map (·.name) = ["x", "x", "x", "y"] ∧
      [1, 5, 10, 24, 35].map (fun o => m.locals.map fun v => v.isVisibleAt 0 (f.position o)) =
        [[false, false, false, false], [true, false, false, false], [true, true, false, false],
          [true, false, true, false], [true, false, false, true]]) = true := by
    decide +kernel
  obtain ⟨-, -, hshown⟩ := visible_locals around 0 node "C" false hfile hbody
  obtain ⟨m, hsome, hlocals⟩ := (Option.any_eq_true _ _).1 heval
  obtain ⟨hnames, hvisible⟩ := of_decide_eq_true hlocals
  have hm : node.method around 0 "C" false = .ok m := Text.eq_ok_of_toOption hsome
  exact ⟨hfile, hbody, m, hm, hnames, hvisible, hshown m hm⟩

end Ast

end Solscope
