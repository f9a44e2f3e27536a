import Mathlib.Data.List.Forall2
import Solscope.Proofs.Deployments
import Solscope.Proofs.Pause.Active
import Solscope.Proofs.Program.Visible
import Solscope.Proofs.Run.Methods
import Solscope.Proofs.Run.Stepping
import Solscope.Proofs.Session.Runs

/-!
# What pauses show

A session that starts without frames only ever holds calls of functions that were found, so a pause
leaves none of them out.

* `Deployments.IsBuilt.add`: programs that are loaded were made from syntax trees.
* `map_activeCalls`: every call is an active one.
* `CallStack.length_callsInwards`: how many calls there are.
* `Session.step_shows_calls`: **a pause shows all calls, and the one it paused in first.**
-/

namespace Solscope

/-! ## Known programs -/

namespace Deployments

/-- The programs of all compilations were made from syntax trees. -/
def IsBuilt (d : Deployments) : Prop :=
  ∀ c ∈ d.compilations, ∃ sources asts, Program.ofAsts sources asts = .ok c.program

variable {d : Deployments}

/-- Compilations of artifacts have such programs. -/
theorem IsBuilt.add (h : d.IsBuilt) {a : Artifacts} {c : Compilation}
    (hc : Compilation.ofArtifacts a = .ok c) : (d.add c).IsBuilt := by
  intro c' hc'
  rcases List.mem_append.1 hc' with hc' | hc'
  · exact h c' hc'
  · obtain rfl := List.mem_singleton.1 hc'
    exact ⟨a.sources, a.asts, (Compilation.exists_of_ofArtifacts hc).1⟩

theorem IsBuilt.ofAsts (h : d.IsBuilt) {a : Address} {creation : Bool} {code : KnownCode}
    (hcode : d.at? a creation = some code) :
    ∃ sources asts, Program.ofAsts sources asts = .ok code.program := by
  obtain ⟨link, -, hcode⟩ := Option.bind_eq_some_iff.1 hcode
  obtain ⟨compilation, hcompilation, hcode⟩ := Option.bind_eq_some_iff.1 hcode
  obtain ⟨compiled, -, hcode⟩ := Option.bind_eq_some_iff.1 hcode
  obtain ⟨contract, -, hcode⟩ := Option.bind_eq_some_iff.1 hcode
  obtain rfl := Option.some.inj hcode
  exact h compilation (List.mem_of_getElem? hcompilation)

end Deployments

/-! ## Active calls -/

section

variable {d : Deployments} {f : Frame} {frames : List Frame} {stack : List Word} {memory : Bytes}

/-- Calls of functions that were found are active. -/
theorem map_activeOf (h : f.IsFound d) (stack : List Word) (memory : Bytes) :
    (activeOf d f stack memory).map (fun a => (a.frame, a.call)) = f.calls.map (f, ·) := by
  unfold activeOf
  cases hcode : d.at? f.codeAddress f.creation with
  | none =>
    have hnil : f.calls = [] := by
      refine List.eq_nil_iff_forall_not_mem.2 fun c hc => ?_
      obtain ⟨code, -, hknown, -⟩ := h c hc
      rw [hcode] at hknown
      cases hknown
    rw [hnil]
    rfl
  | some code =>
    rw [List.map_filterMap, ← List.filterMap_eq_map]
    refine List.filterMap_congr fun c hc => ?_
    obtain ⟨code', extent, hknown, hid⟩ := h c hc
    obtain rfl := Option.some.inj (hcode.symm.trans hknown)
    obtain ⟨m, hm⟩ := Program.exists_of_methodAt? hid
    rw [hm]
    rfl

theorem map_activeCalls (h : ∀ f ∈ frames, f.IsFound d) (s : Step) :
    (activeCalls d frames s).map (fun a => (a.frame, a.call)) =
      frames.reverse.flatMap fun f => f.calls.map (f, ·) := by
  have hreverse : ∀ f ∈ frames.reverse, f.IsFound d := fun f hf => h f (List.mem_reverse.1 hf)
  unfold activeCalls
  cases hframes : frames.reverse with
  | nil => rfl
  | cons f outer =>
    rw [hframes] at hreverse
    obtain ⟨hf, houter⟩ := List.forall_mem_cons.1 hreverse
    rw [List.map_append, map_activeOf hf, List.map_flatMap, List.flatMap_cons]
    congr 1
    exact List.flatMap_congr fun g hg => map_activeOf (houter g hg) g.stack g.memory

end

/-- All calls with their frames, the innermost one first. -/
def CallStack.callsInwards (c : CallStack) : List (Frame × Call) :=
  c.frames.reverse.flatMap fun f => f.calls.map (f, ·)

theorem CallStack.length_callsInwards (c : CallStack) : c.callsInwards.length = c.depth := by
  have hdepth : c.depth = (c.frames.map fun f => f.calls.length).sum := by
    unfold depth
    induction c.frames with
    | nil => rfl
    | cons f rest ih => rw [List.foldr_cons, ih, List.map_cons, List.sum_cons]
  rw [hdepth, callsInwards, List.length_flatMap, List.map_reverse, List.sum_reverse]
  simp only [List.length_map]

theorem Report.nameOf_eq (p : Program) (c : Call) (modifier : Option (Invocation × Method)) :
    ∃ rest, nameOf p c modifier = p.qualifiedName c.method ++ rest := by
  cases modifier with
  | none => exact ⟨"", by simp [nameOf]⟩
  | some invoked => exact ⟨" > " ++ invoked.2.name, by simp [nameOf, String.append_assoc]⟩

/-! ## Pauses -/

namespace Session

variable {s : Session} {storage : Storage} {event : Step} {n : Notification}

/--
How a call is shown: by the name of its method, which that of a running modifier may follow, and by
the place of its instruction.
-/
def ShowsCall (d : Deployments) (active : Frame × Call) (shown : ShownCall) : Prop :=
  ∃ code rest, d.at? active.1.codeAddress active.1.creation = some code ∧
    shown.name = code.program.qualifiedName active.2.method ++ rest ∧
    shown.mapping = active.2.mapping.bind MappingInfo.ofMapping?

theorem isFound_run (hcalls : s.calls = {}) (events : List SessionEvent) :
    ∀ f ∈ (s.run events).calls.frames, f.IsFound s.deployments := by
  rw [run_calls, hcalls]
  exact CallStack.isFound_run (fun f hf => by cases hf) _

/-- If all calls are of functions that were found, a pause shows all of them. -/
theorem forall₂_of_step (hfound : ∀ f ∈ s.calls.frames, f.IsFound s.deployments)
    (h : (s.step storage event).2 = some n) :
    List.Forall₂ (ShowsCall s.deployments) (s.step storage event).1.calls.callsInwards n.calls := by
  obtain ⟨m, hit, -, -, rfl⟩ := step_eq_some_iff.1 h
  rw [step_fst_calls]
  have hafter := CallStack.forall_frames_trace (P := Frame.IsFound s.deployments)
    (fun _ _ _ hc => nomatch hc) (fun _ s hf => Frame.isFound_advance hf s) hfound event
  rw [Report.notification_calls, CallStack.callsInwards, ← map_activeCalls hafter event,
    List.forall₂_map_left_iff, List.forall₂_map_right_iff]
  refine List.forall₂_same.2 fun a ha => ?_
  obtain ⟨rest, hname⟩ := Report.nameOf_eq a.program a.call a.modifier?
  obtain ⟨f, -, hin⟩ := isIn_of_mem_activeCalls ha
  exact ⟨a.code, rest, hin.known, hname, rfl⟩

/-- A step pauses at the place of its own instruction, which is that of the innermost call. -/
theorem exists_innermost (h : (s.step storage event).2 = some n) :
    ∃ f top outer m span, (s.step storage event).1.calls.frames.getLast? = some f ∧
      f.calls = top :: outer ∧ top.mapping = some m ∧ m.pc = event.pc ∧ m.span = some span ∧
      n.hit = ⟨span.start.line, span.path⟩ := by
  obtain ⟨m, hit, hm, hhit, rfl⟩ := step_eq_some_iff.1 h
  obtain ⟨hpc, f, top, outer, hlast, hcalls, htop⟩ := CallStack.exists_of_trace_snd hm
  obtain ⟨hline, -, -⟩ := Stepper.check_eq_some_iff.1 hhit
  obtain ⟨span, hspan, hplace⟩ := Option.map_eq_some_iff.1 hline
  obtain ⟨hpath, hnumber⟩ := Prod.mk.inj hplace
  refine ⟨f, top, outer, m, span, by rw [step_fst_calls]; exact hlast, hcalls, htop, hpc, hspan, ?_⟩
  rw [hpath, hnumber]
  rfl

/--
**A pause shows the call it paused in.** The session starts without frames, and its programs were
made from syntax trees. Whatever it went through before, a pause shows as many calls as there are,
one for each, the innermost first. The first of them is at the instruction of the step, in the line
where execution pauses, and is named by the innermost call of the topmost frame. All calls are of
functions of the programs that their frames run.
-/
theorem step_shows_calls (hcalls : s.calls = {}) (hbuilt : s.deployments.IsBuilt)
    (events : List SessionEvent) (h : ((s.run events).step storage event).2 = some n) :
    let after := ((s.run events).step storage event).1.calls
    n.calls.length = after.depth ∧
      List.Forall₂ (ShowsCall s.deployments) after.callsInwards n.calls ∧
      (∃ f call shown info, after.frames.getLast? = some f ∧ f.calls.head? = some call ∧
        n.calls.head? = some shown ∧ ShowsCall s.deployments (f, call) shown ∧
        shown.mapping = some info ∧ info.pc = event.pc ∧ info.line = n.hit.line ∧
        info.source = n.hit.source) ∧
      ∀ f ∈ after.frames, ∀ c ∈ f.calls, ∃ code m,
        s.deployments.at? f.codeAddress f.creation = some code ∧
          code.program.method? c.method = some m ∧ m.isFunction = true := by
  intro after
  have hfound := isFound_run hcalls events
  rw [← run_deployments s events] at hfound
  have hshows := forall₂_of_step hfound h
  have hafter : ∀ f ∈ after.frames, f.IsFound s.deployments := by
    have hrun := isFound_run hcalls (events ++ [.step storage event])
    rwa [run, List.foldl_append] at hrun
  rw [run_deployments] at hshows
  refine ⟨?_, hshows, ?_, ?_⟩
  · rw [← hshows.length_eq, CallStack.length_callsInwards]
  · obtain ⟨f, top, outer, m, span, hlast, htop, hmapping, hpc, hspan, hhit⟩ := exists_innermost h
    -- the innermost call comes first
    have hinwards : ∃ rest, after.callsInwards = (f, top) :: rest := by
      obtain ⟨below, hframes⟩ := List.getLast?_eq_some_iff.1 hlast
      unfold CallStack.callsInwards
      rw [show after.frames = below ++ [f] from hframes, List.reverse_concat, List.flatMap_cons,
        htop]
      exact ⟨_, rfl⟩
    obtain ⟨rest, hrest⟩ := hinwards
    rw [hrest] at hshows
    obtain ⟨shown, others, hshown, -, hn⟩ := List.forall₂_cons_left_iff.1 hshows
    obtain ⟨code, suffix, hcode, hname, hinfo⟩ := hshown
    refine ⟨f, top, shown, ⟨m.pc, span.start.line, span.start.column, span.file, span.path,
      m.jump.letter⟩, hlast, by rw [htop]; rfl, by rw [hn]; rfl,
      ⟨code, suffix, hcode, hname, hinfo⟩, ?_, hpc, by rw [hhit], by rw [hhit]⟩
    rw [hinfo, hmapping, Option.bind_some, MappingInfo.ofMapping?, hspan]
    rfl
  · intro f hf c hc
    obtain ⟨code, extent, hcode, hid⟩ := hafter f hf c hc
    obtain ⟨sources, asts, hprogram⟩ := hbuilt.ofAsts hcode
    obtain ⟨m, hm, hfunction⟩ := Program.hasFunction_of_methodAt? hprogram hid
    exact ⟨code, m, hcode, hm, hfunction⟩

/-- A function calls another one, which has a breakpoint; the storage cannot be read. -/
theorem step_shows_calls_nested :
    let declare (name src : String) : Ast :=
      { kind := "FunctionDefinition", src, attributes := [("name", .str name)] }
    let asts : List Ast := [{ kind := "SourceUnit", children := [
      { kind := "ContractDefinition", src := "0:19:0", attributes := [("name", .str "A")],
        children := [declare "f" "0:9:0", declare "g" "10:9:0"] }] }]
    let sources := ({} : Sources).add 0 "a.sol" "declare f\ndeclare g"
    let spanOf (line : Nat) : Span := ⟨0, "a.sol", ⟨line, 0⟩, ⟨line, 9⟩, 10 * line, 9⟩
    let compiled : CompiledContract :=
      { path := "a.sol", name := "A", contract := some 0, creation := {}, runtime := {},
        creationMap := [],
        runtimeMap := [⟨0, some (spanOf 0), .into⟩, ⟨1, some (spanOf 1), .regular⟩] }
    let storage : Storage := fun _ _ => .error "not available"
    let step (pc : Nat) : Step :=
      { pc, opcode := 0, depth := 0, address := 0, creation := false, stack := [], memory := [],
        input := [] }
    ∃ p n, Program.ofAsts sources asts = .ok p ∧
      let s : Session :=
        { deployments := { compilations := [⟨p, sources, [compiled]⟩], links := [(0, ⟨0, 0⟩)] }
          stepper := { breakpoints := [⟨"a.sol", 1⟩] } }
      ((s.run [.step storage (step 0)]).step storage (step 1)).2 = some n ∧
        n.hit = ⟨1, "a.sol"⟩ ∧ n.calls.map (·.name) = ["A.g", "A.f"] ∧
        n.calls.length =
          ((s.run [.step storage (step 0)]).step storage (step 1)).1.calls.depth := by
  intro declare asts sources spanOf compiled storage step
  let session (p : Program) : Session :=
    { deployments := { compilations := [⟨p, sources, [compiled]⟩], links := [(0, ⟨0, 0⟩)] }
      stepper := { breakpoints := [⟨"a.sol", 1⟩] } }
  have heval : (Program.ofAsts sources asts).toOption.any (fun p =>
      (((session p).run [.step storage (step 0)]).step storage (step 1)).2.any fun n =>
        n.hit = ⟨1, "a.sol"⟩ ∧ n.calls.map (·.name) = ["A.g", "A.f"]) = true := by
    decide +kernel
  cases hp : Program.ofAsts sources asts with
  | error e => rw [hp] at heval; cases heval
  | ok p =>
    rw [hp] at heval
    change Option.any _ (((session p).run _).step storage (step 1)).2 = true at heval
    obtain ⟨n, hn, hfacts⟩ := (Option.any_eq_true _ _).1 heval
    obtain ⟨hhit, hnames⟩ := of_decide_eq_true hfacts
    have hbuilt : (session p).deployments.IsBuilt := by
      intro c hc
      obtain rfl := List.mem_singleton.1 hc
      exact ⟨sources, asts, hp⟩
    obtain ⟨hlength, -⟩ := step_shows_calls rfl hbuilt [.step storage (step 0)] hn
    exact ⟨p, n, rfl, hn, hhit, hnames, hlength⟩

end Session

end Solscope
