import Mathlib.Tactic.Linarith
import Solscope.Proofs.Run.Frames

/-!
# Balanced calls

A balanced call of a frame is a jump into a function, its entry, a body and a jump out. The body may
contain balanced calls, and steps of frames above may stand anywhere.

* `CallStack.At.body`: a body changes the innermost call only.
* `CallStack.At.returns`: a balanced call leaves the calls that were there when it was jumped into.
* `CallStack.lasts_of_le_depth`: a frame lasts while there are no steps below it.
* `CallStack.balanced_restored`: **a balanced call restores the calls of its frame**, which lasts.
-/

namespace Solscope

/-! ## Steps of a frame -/

variable (code : KnownCode) (k : Nat)

/-- A step above frame `k`, or one of the frame without a place in the sources. -/
def Step.IsQuiet (s : Step) : Prop := k < s.depth ∨ s.depth = k ∧ code.placeOf? s.pc = none

/-- A step of frame `k` with a place in the sources. -/
def Step.Jumps (jump : Jump) (s : Step) : Prop :=
  s.depth = k ∧ ∃ mapping span, code.placeOf? s.pc = some (mapping, span) ∧ mapping.jump = jump

/-- A step of frame `k` whose place is that of a function. -/
def Step.IsEntry (id : MethodId) (s : Step) : Prop :=
  s.depth = k ∧ ∃ mapping span, code.placeOf? s.pc = some (mapping, span) ∧
    mapping.jump = .regular ∧ code.program.methodAt? code.contract span.extent = some id

/-- Steps in the body of a function that frame `k` runs. -/
inductive Body : List Step → Prop
  | nil : Body []
  | quiet {s : Step} {rest : List Step} : s.IsQuiet code k → Body rest → Body (s :: rest)
  | regular {s : Step} {rest : List Step} : s.Jumps code k .regular → Body rest → Body (s :: rest)
  /-- A balanced call inside the body. -/
  | call {into entry out : Step} {quiet body rest : List Step} {id : MethodId} :
      into.Jumps code k .into → (∀ s ∈ quiet, s.IsQuiet code k) → entry.IsEntry code k id →
      Body body → out.Jumps code k .out → Body rest →
      Body (into :: (quiet ++ entry :: (body ++ [out]) ++ rest))

/-- The steps of a balanced call of frame `k` that follow the jump into the function. -/
inductive Balanced (into : Step) : List Step → Prop
  | intro {entry out : Step} {quiet body : List Step} {id : MethodId} :
      into.Jumps code k .into → (∀ s ∈ quiet, s.IsQuiet code k) → entry.IsEntry code k id →
      Body code k body → out.Jumps code k .out → Balanced into (quiet ++ entry :: (body ++ [out]))

variable {code k}

theorem Body.le_depth {steps : List Step} (h : Body code k steps) : ∀ s ∈ steps, k ≤ s.depth := by
  have hquiet : ∀ s : Step, s.IsQuiet code k → k ≤ s.depth := fun s hs => by
    rcases hs with hs | hs
    · exact hs.le
    · exact hs.1.ge
  induction h with
  | nil => simp
  | quiet hs _ ih =>
    intro s hmem
    rcases List.mem_cons.1 hmem with rfl | hmem
    · exact hquiet _ hs
    · exact ih s hmem
  | regular hs _ ih =>
    intro s hmem
    rcases List.mem_cons.1 hmem with rfl | hmem
    · exact hs.1.ge
    · exact ih s hmem
  | call hinto hquiets hentry _ hout _ ihbody ihrest =>
    intro s hmem
    simp only [List.mem_cons, List.mem_append, List.not_mem_nil, or_false] at hmem
    rcases hmem with rfl | (hmem | rfl | hmem | rfl) | hmem
    · exact hinto.1.ge
    · exact hquiet s (hquiets s hmem)
    · exact hentry.1.ge
    · exact ihbody s hmem
    · exact hout.1.ge
    · exact ihrest s hmem

/-! ## Fresh entries -/

namespace CallStack

/--
If a step enters a function that frame `k` awaits, the innermost call has reached its body or is
that of another function.
-/
def FreshAt (code : KnownCode) (k : Nat) (c : CallStack) (s : Step) : Prop :=
  ∀ f top id, c.frames[k]? = some f → f.isAwaiting = true → f.calls.head? = some top →
    s.IsEntry code k id → top.entered = true ∨ top.method ≠ id

/-- All entries among some steps are fresh. -/
def EntersFresh (d : Deployments) (code : KnownCode) (k : Nat) : CallStack → List Step → Prop
  | _, [] => True
  | c, s :: rest => c.FreshAt code k s ∧ EntersFresh d code k (c.trace d s).1 rest

variable {d : Deployments} {c : CallStack} {s : Step}

theorem entersFresh_append {first second : List Step} :
    c.EntersFresh d code k (first ++ second) ↔
      c.EntersFresh d code k first ∧ (c.run d first).EntersFresh d code k second := by
  induction first generalizing c with
  | nil => simp [EntersFresh, run]
  | cons s rest ih => rw [List.cons_append, EntersFresh, EntersFresh, ih, and_assoc, run_cons]

/-! ## The calls of one frame -/

/-- The frame above some others has some calls, and maybe awaits the entry of a function. -/
def At (d : Deployments) (code : KnownCode) (below : List Frame) (calls : List Call)
    (awaiting : Bool) (c : CallStack) : Prop :=
  ∃ f deeper, c.frames = below ++ f :: deeper ∧ f.Runs d code calls awaiting

namespace At

variable {below : List Frame} {calls outer : List Call} {top : Call} {awaiting : Bool}

/-- A step of the frame does to it what the frame says, and ends the frames above. -/
theorem own (hc : c.At d code below calls awaiting) (hs : s.depth = below.length) :
    ∃ f : Frame, f.Runs d code calls awaiting ∧
      (c.trace d s).1.frames = below ++ [(f.advance d s).1] := by
  obtain ⟨f, deeper, hframes, hf⟩ := hc
  exact ⟨f, hf, trace_own hframes hs⟩

theorem of_own {f : Frame} (h : (c.trace d s).1.frames = below ++ [(f.advance d s).1])
    (hf : (f.advance d s).1.Runs d code calls awaiting) :
    (c.trace d s).1.At d code below calls awaiting :=
  ⟨_, [], h, hf⟩

/-- Quiet steps change no call. -/
theorem quiet (hc : c.At d code below calls awaiting) (hs : s.IsQuiet code below.length) :
    (c.trace d s).1.At d code below calls awaiting := by
  rcases hs with hdeep | ⟨hown, hplace⟩
  · obtain ⟨f, deeper, hframes, hf⟩ := hc
    obtain ⟨deeper', hframes'⟩ := trace_deeper (d := d) hframes hdeep
    exact ⟨f, deeper', hframes', hf⟩
  · obtain ⟨f, hf, hframes⟩ := hc.own hown
    exact of_own hframes (hf.quiet hplace)

theorem quiets {steps : List Step} (hc : c.At d code below calls awaiting)
    (hs : ∀ s ∈ steps, s.IsQuiet code below.length) :
    (c.run d steps).At d code below calls awaiting := by
  induction steps generalizing c with
  | nil => exact hc
  | cons s rest ih =>
    exact ih (hc.quiet (hs s List.mem_cons_self)) fun s hs' => hs s (List.mem_cons_of_mem _ hs')

/-- A jump into a function may change the innermost call, but not its method. -/
theorem into (hc : c.At d code below (top :: outer) false) (hs : s.Jumps code below.length .into) :
    ∃ top', top'.method = top.method ∧ (c.trace d s).1.At d code below (top' :: outer) true := by
  obtain ⟨hown, mapping, span, hplace, hjump⟩ := hs
  obtain ⟨f, hf, hframes⟩ := hc.own hown
  obtain ⟨top', hmethod, hf'⟩ := hf.into hplace hjump
  exact ⟨top', hmethod, of_own hframes hf'⟩

theorem regular (hc : c.At d code below (top :: outer) false)
    (hs : s.Jumps code below.length .regular) :
    ∃ top', (c.trace d s).1.At d code below (top' :: outer) false := by
  obtain ⟨hown, mapping, span, hplace, hjump⟩ := hs
  obtain ⟨f, hf, hframes⟩ := hc.own hown
  obtain ⟨top', -, hf'⟩ := hf.regular hplace hjump
  exact ⟨top', of_own hframes hf'⟩

theorem entry (hc : c.At d code below (top :: outer) true) {id : MethodId}
    (hs : s.IsEntry code below.length id) (hfresh : c.FreshAt code below.length s) :
    ∃ call, (c.trace d s).1.At d code below (call :: top :: outer) false := by
  have hfresh' : top.entered = true ∨ top.method ≠ id := by
    obtain ⟨f, deeper, hframes, hf⟩ := hc
    refine hfresh f top id ?_ hf.awaiting (by rw [hf.calls]; rfl) hs
    rw [hframes]
    simp
  obtain ⟨hown, mapping, span, hplace, hjump, hid⟩ := hs
  obtain ⟨f, hf, hframes⟩ := hc.own hown
  obtain ⟨call, hf'⟩ := hf.entry hplace hjump hid hfresh'
  exact ⟨call, of_own hframes hf'⟩

/-- A jump out of a function leaves the calls below it. -/
theorem out {inner : Call} (hc : c.At d code below (inner :: top :: outer) false)
    (hs : s.Jumps code below.length .out) :
    ∃ f : Frame, (c.trace d s).1.frames = below ++ [f] ∧
      f.Runs d code (Frame.callsAfterReturn code.program (top :: outer)) false := by
  obtain ⟨hown, mapping, span, hplace, hjump⟩ := hs
  obtain ⟨f, hf, hframes⟩ := hc.own hown
  exact ⟨_, hframes, hf.out hplace hjump⟩

/--
From the jump into a function to the jump out of it, given that the body changes the innermost call
only.
-/
theorem returns {quiet body : List Step} {entry out : Step} {id : MethodId}
    (hc : c.At d code below (top :: outer) true)
    (hquiets : ∀ s ∈ quiet, s.IsQuiet code below.length)
    (hentry : entry.IsEntry code below.length id) (hout : out.Jumps code below.length .out)
    (hfresh : c.EntersFresh d code below.length (quiet ++ entry :: (body ++ [out])))
    (hbody : ∀ (c : CallStack) (call : Call), c.At d code below (call :: top :: outer) false →
      c.EntersFresh d code below.length body →
      ∃ call', (c.run d body).At d code below (call' :: top :: outer) false) :
    ∃ f : Frame, (c.run d (quiet ++ entry :: (body ++ [out]))).frames = below ++ [f] ∧
      f.Runs d code (Frame.callsAfterReturn code.program (top :: outer)) false := by
  obtain ⟨-, hfresh⟩ := entersFresh_append.1 hfresh
  obtain ⟨hfreshEntry, hfreshRest⟩ := hfresh
  obtain ⟨hfreshBody, -⟩ := entersFresh_append.1 hfreshRest
  obtain ⟨call, hentered⟩ := (hc.quiets hquiets).entry hentry hfreshEntry
  obtain ⟨call', hdone⟩ := hbody _ call hentered hfreshBody
  obtain ⟨f, hframes, hf⟩ := hdone.out hout
  refine ⟨f, ?_, hf⟩
  rw [run_append, run_cons, run_append]
  exact hframes

/-- **A body changes the innermost call only**, as long as there is another one. -/
theorem body {steps : List Step} (hbody : Body code below.length steps)
    (hc : c.At d code below (top :: outer) false) (houter : outer ≠ [])
    (hfresh : c.EntersFresh d code below.length steps) :
    ∃ top', (c.run d steps).At d code below (top' :: outer) false := by
  -- a call inside returns to what was the innermost call, which may have moved
  induction hbody generalizing c top outer with
  | nil => exact ⟨top, hc⟩
  | quiet hs _ ih => exact ih (hc.quiet hs) houter hfresh.2
  | regular hs _ ih =>
    obtain ⟨top', hc'⟩ := hc.regular hs
    exact ih hc' houter hfresh.2
  | @call into entry out quiet body rest id hinto hquiets hentry _ hout _ ihbody ihrest =>
    obtain ⟨caller, -, hcalled⟩ := hc.into hinto
    obtain ⟨hfreshCall, hfreshRest⟩ := entersFresh_append.1 hfresh.2
    obtain ⟨f, hframes, hf⟩ := hcalled.returns hquiets hentry hout hfreshCall
      fun c call hat hfresh => ihbody hat (List.cons_ne_nil _ _) hfresh
    -- the caller is not alone, so it stays even if it is a constructor
    have hcalls : Frame.callsAfterReturn code.program (caller :: outer) =
        { caller with mapping := none } :: outer := by
      cases outer with
      | nil => exact absurd rfl houter
      | cons next others => rfl
    rw [hcalls] at hf
    obtain ⟨top', hrest⟩ := ihrest ⟨f, [], hframes, hf⟩ houter hfreshRest
    refine ⟨top', ?_⟩
    rw [run_cons, run_append]
    exact hrest

end At

/-! ## Balanced calls -/

/--
The calls of frame `k` are as they were, only that the innermost one has no instruction and runs on.
A constructor that was alone is gone.
-/
def Restored (p : Program) (k : Nat) (before after : CallStack) : Prop :=
  ∃ below f g, below.length = k ∧ before.frames = below ++ [f] ∧ after.frames = below ++ [g] ∧
    g.isAwaiting = false ∧
    if Frame.isLoneConstructor p f.calls then g.calls = []
    else g.calls = f.calls.modifyHead (fun call => { call with mapping := none }) ∧
      after.depth = before.depth

theorem depth_eq_of_frames {before after : CallStack} {below : List Frame} {f g : Frame}
    (hbefore : before.frames = below ++ [f]) (hafter : after.frames = below ++ [g])
    (h : g.calls.length = f.calls.length) : after.depth = before.depth := by
  simp only [depth, hbefore, hafter, List.foldr_append, List.foldr_cons, List.foldr_nil, h]

theorem le_depth_of_balanced {into : Step} {steps : List Step} (h : Balanced code k into steps) :
    ∀ s ∈ into :: steps, k ≤ s.depth := by
  obtain ⟨hinto, hquiets, hentry, hbody, hout⟩ := h
  have hcall := (Body.call hinto hquiets hentry hbody hout .nil).le_depth
  simpa using hcall

theorem exists_append_of_getElem? {frames : List Frame} {f : Frame} (h : frames[k]? = some f) :
    ∃ below deeper, frames = below ++ f :: deeper ∧ below.length = k := by
  obtain ⟨hk, rfl⟩ := List.getElem?_eq_some_iff.1 h
  refine ⟨frames.take k, frames.drop (k + 1), ?_, by simp; omega⟩
  rw [← List.drop_eq_getElem_cons, List.take_append_drop]

/-- Frame `k` is there after each of some steps. -/
def Lasts (d : Deployments) (k : Nat) : CallStack → List Step → Prop
  | _, [] => True
  | c, s :: rest => k < (c.trace d s).1.frames.length ∧ Lasts d k (c.trace d s).1 rest

theorem lt_length_trace (hc : k < c.frames.length) (hs : k ≤ s.depth) :
    k < (c.trace d s).1.frames.length := by
  obtain ⟨below, deeper, hframes, rfl⟩ := exists_append_of_getElem? (List.getElem?_eq_getElem hc)
  rcases Nat.lt_or_eq_of_le hs with hdeep | hown
  · obtain ⟨deeper', htrace⟩ := trace_deeper (d := d) hframes hdeep
    rw [htrace]
    simp
  · rw [trace_own hframes hown.symm]
    simp

/-- **Only a step of a frame below ends a frame.** -/
theorem lasts_of_le_depth {steps : List Step} (hc : k < c.frames.length)
    (hsteps : ∀ s ∈ steps, k ≤ s.depth) : c.Lasts d k steps := by
  induction steps generalizing c with
  | nil => trivial
  | cons s rest ih =>
    obtain ⟨hs, hrest⟩ := List.forall_mem_cons.1 hsteps
    have hkept := lt_length_trace (d := d) hc hs
    exact ⟨hkept, ih hkept hrest⟩

/--
**A balanced call restores the calls of its frame.** The frame is `k`, it has calls and awaits no
entry; every entry among the steps is that of another function than the innermost call's or comes
after the body of that call has been reached. The frame lasts, and right after the jump out of the
function its calls are those of right after the jump into it.
-/
theorem balanced_restored {f : Frame} (hf : c.frames[k]? = some f)
    (hcode : d.at? f.codeAddress f.creation = some code) (hrunning : f.isAwaiting = false)
    (hcalls : f.calls ≠ []) {into : Step} {steps : List Step} (hcall : Balanced code k into steps)
    (hfresh : (c.trace d into).1.EntersFresh d code k steps) :
    c.Lasts d k (into :: steps) ∧
      Restored code.program k (c.trace d into).1 (c.run d (into :: steps)) := by
  refine ⟨lasts_of_le_depth (List.getElem?_eq_some_iff.1 hf).1 (le_depth_of_balanced hcall), ?_⟩
  obtain ⟨below, deeper, hframes, rfl⟩ := exists_append_of_getElem? hf
  obtain ⟨top, outer, htop⟩ := List.exists_cons_of_ne_nil hcalls
  obtain ⟨hinto, hquiets, hentry, hbody, hout⟩ := hcall
  have hat : c.At d code below (top :: outer) false := ⟨f, deeper, hframes, hcode, htop, hrunning⟩
  -- the frame right after the jump into the function
  obtain ⟨hown, mapping, span, hplace, hjump⟩ := hinto
  obtain ⟨f, hf, hbefore⟩ := hat.own hown
  obtain ⟨caller, -, hcaller⟩ := hf.into hplace hjump
  -- the frame right after the jump out of it
  obtain ⟨g, hafter, hg⟩ := (At.of_own hbefore hcaller).returns hquiets hentry hout hfresh
    fun c call hc hfresh => hc.body hbody (List.cons_ne_nil _ _) hfresh
  refine ⟨below, _, g, rfl, hbefore, hafter, hg.awaiting, ?_⟩
  have hcallsAfter := hg.calls
  rw [hcaller.calls]
  unfold Frame.callsAfterReturn at hcallsAfter
  split
  · rename_i hlone
    rw [hcallsAfter, if_pos hlone]
  · rename_i hlone
    rw [if_neg hlone] at hcallsAfter
    refine ⟨hcallsAfter, depth_eq_of_frames hbefore hafter ?_⟩
    rw [hcallsAfter, hcaller.calls]
    rfl

/-- A function calls another one, and a frame above runs before the entry. -/
theorem balanced_restored_double :
    let spanOf (line : Nat) : Span := ⟨0, "a.sol", ⟨line, 0⟩, ⟨line, 9⟩, 10 * line, 9⟩
    let method (name : String) (line : Nat) : Method :=
      { name, contract := 0, file := 0, kind := .function false .public,
        extent := (spanOf line).extent, body := none, arguments := [], results := [], locals := [],
        invocations := [], declarations := [], ownSlots := 0, totalSlots := 0 }
    let contract : Contract :=
      { name := "Vault", file := 0, kind := .contract, nodeId := none, linearizedIds := [],
        stateVariables := [], methods := [method "deposit" 0, method "double" 1],
        parentNames := [] }
    let compiled : CompiledContract :=
      { path := "a.sol", name := "Vault", contract := some 0, creation := {}, runtime := {},
        creationMap := [],
        runtimeMap := [⟨0, some (spanOf 0), .into⟩, ⟨1, some (spanOf 1), .regular⟩,
          ⟨2, some (spanOf 1), .out⟩] }
    let compilation : Compilation := ⟨{ contracts := [contract] }, {}, [compiled]⟩
    let code : KnownCode := ⟨compilation, compiled, 0, compiled.runtimeMap⟩
    let d : Deployments := { compilations := [compilation], links := [(0, ⟨0, 0⟩)] }
    let step (pc : Nat) (depth : Fin 2) : Step :=
      { pc, opcode := 0, depth, depth_lt := depth.2.trans (by decide), address := 0,
        creation := false, stack := [], memory := [], input := [] }
    let f : Frame :=
      { address := 0, codeAddress := 0, creation := false, input := [],
        calls := [{ method := ⟨0, 0⟩, stackOffset := 0 }], isAwaiting := false }
    let c : CallStack := { frames := [f] }
    let steps : List Step := [step 0 1, step 1 0, step 2 0]
    d.at? f.codeAddress f.creation = some code ∧ f.calls ≠ [] ∧ Balanced code 0 (step 0 0) steps ∧
      (c.trace d (step 0 0)).1.EntersFresh d code 0 steps ∧
      Restored code.program 0 (c.trace d (step 0 0)).1 (c.run d (step 0 0 :: steps)) := by
  intro spanOf method contract compiled compilation code d step f c steps
  have hcall : Balanced code 0 (step 0 0) steps :=
    @Balanced.intro code 0 (step 0 0) (step 1 0) (step 2 0) [step 0 1] [] ⟨0, 1⟩
      ⟨rfl, _, _, rfl, rfl⟩
      (fun s hs => by obtain rfl := List.mem_singleton.1 hs; exact .inl (by decide))
      ⟨rfl, _, _, rfl, rfl, by decide⟩ .nil ⟨rfl, _, _, rfl, rfl⟩
  have hfresh : (c.trace d (step 0 0)).1.EntersFresh d code 0 steps := by
    refine ⟨fun _ _ _ _ _ _ h => absurd h.1 (by decide), ?_, ?_, trivial⟩
    · rintro _ _ id hf - htop ⟨-, mapping, span, hplace, -, hid⟩
      obtain rfl := Option.some.inj hf
      obtain rfl := Option.some.inj htop
      obtain ⟨rfl, rfl⟩ := Prod.mk.inj (Option.some.inj hplace)
      have hdouble : code.program.methodAt? code.contract (spanOf 1).extent = some ⟨0, 1⟩ := by
        decide
      obtain rfl := Option.some.inj (hid.symm.trans hdouble)
      exact .inr (by decide)
    · rintro _ _ _ hf hawaiting
      obtain rfl := Option.some.inj hf
      cases hawaiting
  exact ⟨rfl, by decide, hcall, hfresh,
    (balanced_restored (c := c) (f := f) rfl rfl rfl (by decide) hcall hfresh).2⟩

end CallStack

end Solscope
