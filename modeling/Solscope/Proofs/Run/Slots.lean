import Solscope.Proofs.Program.Slots
import Solscope.Proofs.Program.Visible
import Solscope.Proofs.Run.Frames

/-!
# Stack slots of active calls

The calls of a frame are piled up: the slots of each start behind those of its caller, with one slot
left between for the return address.

* `Piled`: calls of which each starts behind its caller.
* `Frame.piled_enter`, `Frame.piled_update`, `Frame.piled_leave`: what happens to the calls of a
  frame leaves them piled.
* `Frame.isPiled_advance`, `CallStack.isPiled_run`: so does every step.
* `Piled.between`: the variables of piled calls do not overlap.
* `CallStack.calls_apart`: **active calls never share stack slots.**
-/

namespace Solscope

/-! ## Piled calls -/

namespace Call

variable {p : Program} {c : Call} {m : Method}

/-- The slots of the variables of a call and of the modifiers that its method invokes. -/
def rows (p : Program) (c : Call) : List SlotRow :=
  ((p.method? c.method).map (Method.rowsWithin p c.stackOffset)).getD []

/-- The first slot behind those of a call. -/
def stop (p : Program) (c : Call) : Nat := c.stackOffset + Frame.slotsOf p c.method

theorem stop_eq (hm : p.method? c.method = some m) : c.stop p = c.stackOffset + m.totalSlots := by
  rw [stop, Frame.slotsOf, hm]
  rfl

theorem between_rows {sources : Sources} {asts : List Ast}
    (hp : Program.ofAsts sources asts = .ok p) (hm : p.method? c.method = some m) :
    SlotRow.Between c.stackOffset (c.rows p) (c.stop p) := by
  rw [rows, stop_eq hm, hm]
  exact Program.between_rowsWithin hp hm c.stackOffset

end Call

/-- The slots of the variables of all calls of a frame, those of the outermost call first. -/
def Frame.rows (p : Program) (f : Frame) : List SlotRow := f.calls.reverse.flatMap (Call.rows p)

/--
Calls of methods, the innermost one first. The outermost one starts at slot 0, every other one
leaves one slot free behind those of its caller.
-/
inductive Piled (p : Program) : List Call → Prop
  | nil : Piled p []
  | first {c : Call} {m : Method} (hm : p.method? c.method = some m) (h : c.stackOffset = 0) :
      Piled p [c]
  | next {c caller : Call} {outer : List Call} {m called : Method}
      (hcalled : p.method? c.method = some called) (hm : p.method? caller.method = some m)
      (h : c.stackOffset = caller.stackOffset + m.totalSlots + 1)
      (houter : Piled p (caller :: outer)) : Piled p (c :: caller :: outer)

namespace Piled

variable {p : Program} {c c' : Call} {outer : List Call}

theorem exists_method (h : Piled p (c :: outer)) : ∃ m, p.method? c.method = some m := by
  cases h with
  | first hm _ => exact ⟨_, hm⟩
  | next hcalled _ _ _ => exact ⟨_, hcalled⟩

theorem tail (h : Piled p (c :: outer)) : Piled p outer := by
  cases h with
  | first _ _ => exact .nil
  | next _ _ _ houter => exact houter

/-- Only method and offset of the innermost call count. -/
theorem of_same (h : Piled p (c :: outer)) (hmethod : c'.method = c.method)
    (hoffset : c'.stackOffset = c.stackOffset) : Piled p (c' :: outer) := by
  cases h with
  | first hm h => exact .first (hmethod ▸ hm) (hoffset.trans h)
  | next hcalled hm h houter => exact .next (hmethod ▸ hcalled) hm (hoffset.trans h) houter

/-- The variables of piled calls follow each other. -/
theorem between {sources : Sources} {asts : List Ast} (hp : Program.ofAsts sources asts = .ok p)
    (h : Piled p (c :: outer)) :
    SlotRow.Between 0 ((c :: outer).reverse.flatMap (Call.rows p)) (c.stop p) := by
  induction outer generalizing c with
  | nil =>
    cases h with
    | first hm h =>
      have hrows := Call.between_rows hp hm
      rw [h] at hrows
      simpa using hrows
  | cons caller outer ih =>
    cases h with
    | next hcalled hm h houter =>
      have hbelow := ih houter
      have hrows := Call.between_rows hp hcalled
      rw [Call.stop_eq hm] at hbelow
      rw [List.reverse_cons, List.flatMap_append, List.flatMap_singleton]
      exact hbelow.append (hrows.of_le (by omega))

end Piled

/-! ## What happens to the calls of a frame -/

namespace Frame

variable {f : Frame} {d : Deployments} {p : Program} {code : KnownCode} {s : Step}

theorem piled_enter (h : Piled p f.calls) {id : MethodId} {m : Method}
    (hm : p.method? id = some m) (height : Nat) : Piled p (f.enter p id height).calls := by
  rcases f.calls_enter p id height with hkept | ⟨c, hcalls, rfl, hfirst, hnext⟩
  · rwa [hkept]
  · rw [hcalls]
    cases houter : f.calls with
    | nil => exact .first hm (hfirst houter)
    | cons caller outer =>
      rw [houter] at h
      obtain ⟨called, hcaller⟩ := h.exists_method
      refine .next hm hcaller ?_ h
      rw [hnext caller outer houter, slotsOf, hcaller]
      rfl

theorem piled_update (h : Piled p f.calls) (mapping : Mapping) (span : Span) :
    Piled p (f.update p mapping span).calls := by
  rcases f.calls_update p mapping span with
    ⟨-, hnil⟩ | ⟨top, top', outer, htop, hcalls, hmethod, hoffset, -⟩
  · rw [hnil]
    exact .nil
  · rw [htop] at h
    rw [hcalls]
    exact h.of_same hmethod hoffset

theorem piled_leave (h : Piled p f.calls) : Piled p (f.leave p).calls := by
  rcases f.calls_leave p with hnil | ⟨top, caller, outer, htop, hcalls⟩
  · rw [hnil]
    exact .nil
  · rw [htop] at h
    rw [hcalls]
    exact h.tail.of_same rfl rfl

theorem piled_follow (h : Piled code.program f.calls) (mapping : Mapping) (span : Span)
    (height : Nat) : Piled code.program (f.follow code mapping span height).1.calls := by
  refine follow_keeps (fun f extent id height hid hf => ?_) (fun f mapping span hf => ?_)
    (fun f hf => ?_) h mapping span height
  · obtain ⟨m, hm⟩ := Program.exists_of_methodAt? hid
    exact piled_enter hf hm height
  · exact piled_update hf mapping span
  · exact piled_leave hf

/-- The calls of a frame are piled, and are calls of the code that it runs. -/
def IsPiled (d : Deployments) (f : Frame) : Prop :=
  f.calls = [] ∨ ∃ code, d.at? f.codeAddress f.creation = some code ∧ Piled code.program f.calls

theorem isPiled_opened (d : Deployments) (s : Step) (codeAddress : Address) :
    (opened s codeAddress).IsPiled d := .inl rfl

theorem IsPiled.piled (h : f.IsPiled d) (hcode : d.at? f.codeAddress f.creation = some code) :
    Piled code.program f.calls := by
  rcases h with hnil | ⟨code', hcode', hpiled⟩
  · rw [hnil]
    exact .nil
  · rw [hcode] at hcode'
    obtain rfl := Option.some.inj hcode'
    exact hpiled

/-- **A step leaves the calls of its frame piled.** -/
theorem isPiled_advance (h : f.IsPiled d) (s : Step) : (f.advance d s).1.IsPiled d := by
  have hsame := f.sameOrigin_advance d s
  cases hcode : d.at? f.codeAddress f.creation with
  | none =>
    -- nothing happens in code that is not known
    have hadvance : (f.advance d s).1 = f.save s := by simp [advance, hcode]
    rw [hadvance]
    rcases h with hnil | ⟨code, hknown, -⟩
    · exact .inl (by rw [calls_save, hnil])
    · rw [hcode] at hknown
      cases hknown
  | some code =>
    have hpiled := h.piled hcode
    refine .inr ⟨code, by rw [hsame.codeAddress, hsame.creation, hcode], ?_⟩
    have hsave : Piled code.program (f.save s).calls := by rwa [calls_save]
    rw [advance_of_placeOf? hcode]
    split
    · exact piled_follow hsave _ _ _
    · exact hsave

end Frame

/-! ## Runs -/

namespace CallStack

variable {c : CallStack} {d : Deployments}

theorem isPiled_run (h : ∀ f ∈ c.frames, f.IsPiled d) (steps : List Step) :
    ∀ f ∈ (c.run d steps).frames, f.IsPiled d :=
  forall_frames_run (P := Frame.IsPiled d) (Frame.isPiled_opened d)
    (fun _ s hf => Frame.isPiled_advance hf s) h steps

/--
**Active calls never share stack slots.** After any steps, the calls in a frame are calls of the
code that it runs. The first one starts at slot 0, every other one behind the slots of its caller.
So, if the program was made from syntax trees, the slots of all variables of all calls, with those
of the modifiers that their methods invoke, follow each other without overlapping.
-/
theorem calls_apart (d : Deployments) (steps : List Step) :
    ∀ f ∈ (reached d steps).frames, f.calls = [] ∨
      ∃ code, d.at? f.codeAddress f.creation = some code ∧ Piled code.program f.calls ∧
        ∀ sources asts, Program.ofAsts sources asts = .ok code.program →
          (f.rows code.program).Pairwise fun r r' => r.stop ≤ r'.start := by
  intro f hf
  have hnone : ∀ f ∈ ({} : CallStack).frames, f.IsPiled d := by intro f hf; cases hf
  rcases isPiled_run hnone steps f hf with hnil | ⟨code, hcode, hpiled⟩
  · exact .inl hnil
  · refine .inr ⟨code, hcode, hpiled, fun sources asts hp => ?_⟩
    unfold Frame.rows
    cases hcalls : f.calls with
    | nil => exact .nil
    | cons c outer =>
      rw [hcalls] at hpiled
      exact (hpiled.between hp).pairwise

/-- A function with a modifier calls another one. -/
theorem calls_apart_modifier :
    let parameters (name : String) : Ast :=
      { kind := "ParameterList",
        children := [
          { kind := "VariableDeclaration",
            attributes := [("name", .str name), ("type", .str "bool")] }] }
    let declare (kind name src : String) (children : List Ast) : Ast :=
      { kind, src, attributes := [("name", .str name)], children }
    let invocation : Ast :=
      { kind := "ModifierInvocation", src := "3:4:0",
        children := [{ kind := "Identifier", attributes := [("value", .str "only")] }] }
    let asts : List Ast := [{ kind := "SourceUnit", children := [
      declare "ContractDefinition" "A" "0:30:0" [
        declare "FunctionDefinition" "f" "0:9:0" [parameters "x", parameters "y", invocation],
        declare "FunctionDefinition" "g" "10:9:0" [parameters "x"],
        declare "ModifierDefinition" "only" "20:9:0" [parameters "x"]]] }]
    let sources := ({} : Sources).add 0 "a.sol" "contract A of functions f and g"
    let spanOf (start : Nat) : Span := ⟨0, "a.sol", ⟨0, start⟩, ⟨0, start + 9⟩, start, 9⟩
    let compiled : CompiledContract :=
      { path := "a.sol", name := "A", contract := some 0, creation := {}, runtime := {},
        creationMap := [],
        runtimeMap := [⟨0, some (spanOf 0), .into⟩, ⟨1, some (spanOf 10), .regular⟩] }
    let step (pc : Nat) : Step :=
      { pc, opcode := 0, depth := 0, address := 0, creation := false, stack := [], memory := [],
        input := [] }
    ∃ p, Program.ofAsts sources asts = .ok p ∧
      ∃ f ∈ (reached { compilations := [⟨p, sources, [compiled]⟩], links := [(0, ⟨0, 0⟩)] }
        [step 0, step 1]).frames, f.calls.map (·.method) = [⟨0, 1⟩, ⟨0, 0⟩] ∧
        f.rows p = [⟨0, 1⟩, ⟨1, 1⟩, ⟨2, 1⟩, ⟨4, 1⟩] ∧
        (f.rows p).Pairwise fun r r' => r.stop ≤ r'.start := by
  intro parameters declare invocation asts sources spanOf compiled step
  let d (p : Program) : Deployments :=
    { compilations := [⟨p, sources, [compiled]⟩], links := [(0, ⟨0, 0⟩)] }
  have heval : (Program.ofAsts sources asts).toOption.any (fun p =>
      (reached (d p) [step 0, step 1]).frames.any fun f =>
        f.calls.map (·.method) = [⟨0, 1⟩, ⟨0, 0⟩] ∧ (f.codeAddress = 0 ∧ f.creation = false) ∧
          f.rows p = [⟨0, 1⟩, ⟨1, 1⟩, ⟨2, 1⟩, ⟨4, 1⟩]) = true := by
    decide +kernel
  cases hp : Program.ofAsts sources asts with
  | error e => rw [hp] at heval; cases heval
  | ok p =>
    rw [hp] at heval
    change List.any _ _ = true at heval
    obtain ⟨f, hf, hfacts⟩ := List.any_eq_true.1 heval
    obtain ⟨hcalls, ⟨haddress, hcreation⟩, hrows⟩ := of_decide_eq_true hfacts
    refine ⟨p, rfl, f, hf, hcalls, hrows, ?_⟩
    rcases calls_apart (d p) [step 0, step 1] f hf with hnil | ⟨code, hcode, -, hapart⟩
    · rw [hnil] at hcalls
      cases hcalls
    · rw [haddress, hcreation] at hcode
      obtain rfl := Option.some.inj hcode
      exact hapart sources asts hp

end CallStack

end Solscope
