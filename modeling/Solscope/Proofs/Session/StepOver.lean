import Solscope.Proofs.Run.Stepping
import Solscope.Proofs.Session.Runs

/-!
# Stepping over a line

A pause in a line ends with a step over. Up to the next pause, the lines of deeper calls do not
pause execution, but each of them is remembered as the last line.

* `Stepper.due_over_iff`: back in the line that is stepped over, a pause is due if the last line was
  another one.
* `Session.map_hit_pauses`: where a session pauses is what its stepper says of the instructions it
  comes to.
* `Session.stepOver_pauses_iff`: **the line is left alone exactly if no deeper call ends in another
  line**; otherwise execution pauses in it again.
-/

namespace Solscope

namespace Stepper

variable {s : Stepper} {visits : List Visit} {hit : Hit} {depth : Nat}

/-! ## Pauses of a run -/

/-- The pauses at some instructions, each left for the next breakpoint. -/
def hits (s : Stepper) : List Visit → List Hit
  | [] => []
  | visit :: rest =>
    (s.check visit.1 visit.2).2.toList ++ (s.check visit.1 visit.2).1.hits rest

theorem hits_append (s : Stepper) (before after : List Visit) :
    s.hits (before ++ after) = s.hits before ++ (s.run before).hits after := by
  induction before generalizing s with
  | nil => rfl
  | cons visit rest ih =>
    rw [List.cons_append, hits, hits, List.append_assoc]
    exact congrArg _ (ih _)

theorem hits_concat (s : Stepper) (before : List Visit) (visit : Visit) :
    s.hits (before ++ [visit]) = s.hits before ++ (s.hitAfter before visit).toList := by
  rw [hits_append, hits, hits, List.append_nil]
  rfl

theorem hits_eq_nil_iff : s.hits visits = [] ↔ s.NoHit visits := by
  induction visits using List.reverseRecOn with
  | nil => exact iff_of_true rfl (atEach_nil _)
  | append_singleton before visit ih =>
    rw [hits_concat, List.append_eq_nil_iff, ih, NoHit, NoHit, atEach_concat]
    refine and_congr_right fun _ => ?_
    cases s.hitAfter before visit <;> simp

/-- The first pause is at the first instruction that is due. -/
theorem exists_due_of_head? (h : (s.hits visits).head? = some hit) :
    ∃ before visit after, visits = before ++ visit :: after ∧ s.Due s.mode before visit hit := by
  induction visits using List.reverseRecOn with
  | nil => cases h
  | append_singleton before visit ih =>
    rw [hits_concat] at h
    cases hbefore : s.hits before with
    | cons first rest =>
      -- the first pause is an earlier one
      rw [hbefore] at h ih
      obtain ⟨earlier, v, later, hsplit, hdue⟩ := ih h
      refine ⟨earlier, v, later ++ [visit], ?_, hdue⟩
      rw [hsplit, List.append_assoc, List.cons_append]
    | nil =>
      rw [hbefore, List.nil_append] at h
      have hhit : s.hitAfter before visit = some hit := by
        cases hafter : s.hitAfter before visit with
        | none => rw [hafter] at h; cases h
        | some other => rw [hafter] at h; exact h
      have hdue := hitAfter_eq_some_iff.1 hhit
      rw [run_mode_of_noHit (hits_eq_nil_iff.1 hbefore)] at hdue
      exact ⟨before, visit, [], rfl, hdue⟩

/-! ## Staying in a line and the calls it makes -/

/-- An instruction of a deeper call, or one of the line of `hit`. -/
def StaysIn (hit : Hit) (depth : Nat) (visit : Visit) : Prop :=
  depth < visit.2 ∨ visit.1.line? = some (hit.source, hit.line)

/--
No instruction is a return into the line of `hit`: one without deeper calls that another line came
before.
-/
def NoReturn (hit : Hit) (depth : Nat) (visits : List Visit) : Prop :=
  AtEach (fun before visit => visit.2 ≤ depth →
    lineAfter (some (hit.source, hit.line)) before = some (hit.source, hit.line)) visits

/-- What pauses a step over from a line, of the instructions that stay in it. -/
theorem due_over_iff (hprevious : s.previous = some (hit.source, hit.line)) {before : List Visit}
    {visit : Visit} (hstays : StaysIn hit depth visit) {hit' : Hit} :
    s.Due (.over depth) before visit hit' ↔
      hit' = hit ∧ visit.2 ≤ depth ∧
        lineAfter (some (hit.source, hit.line)) before ≠ some (hit.source, hit.line) := by
  constructor
  · intro hdue
    have hdepth : visit.2 ≤ depth := hdue.stops
    have hline : visit.1.line? = some (hit.source, hit.line) :=
      hstays.resolve_left (Nat.not_lt.2 hdepth)
    obtain ⟨hsource, hnumber⟩ := Prod.mk.inj (Option.some.inj (hline.symm.trans hdue.line_eq))
    have hchanged := hdue.changed
    rw [← hsource, ← hnumber, hprevious] at hchanged
    refine ⟨?_, hdepth, hchanged⟩
    cases hit
    cases hit'
    cases hsource
    cases hnumber
    rfl
  · rintro ⟨rfl, hdepth, hchanged⟩
    refine ⟨hstays.resolve_left (Nat.not_lt.2 hdepth), ?_, hdepth⟩
    rw [hprevious]
    exact hchanged

theorem hits_over_eq_nil_iff (hmode : s.mode = .over depth)
    (hprevious : s.previous = some (hit.source, hit.line))
    (hstays : ∀ visit ∈ visits, StaysIn hit depth visit) :
    s.hits visits = [] ↔ NoReturn hit depth visits := by
  rw [hits_eq_nil_iff, noHit_iff, hmode]
  constructor
  · intro h before visit after hsplit hdepth
    have hvisit : StaysIn hit depth visit := hstays visit (by rw [hsplit]; simp)
    by_contra hchanged
    have hdue := (due_over_iff hprevious hvisit).2 ⟨rfl, hdepth, hchanged⟩
    exact h before visit after hsplit hit hdue
  · intro h before visit after hsplit hit' hdue
    have hvisit : StaysIn hit depth visit := hstays visit (by rw [hsplit]; simp)
    obtain ⟨-, hdepth, hchanged⟩ := (due_over_iff hprevious hvisit).1 hdue
    exact hchanged (h before visit after hsplit hdepth)

theorem head?_hits_over (hmode : s.mode = .over depth)
    (hprevious : s.previous = some (hit.source, hit.line))
    (hstays : ∀ visit ∈ visits, StaysIn hit depth visit) {hit' : Hit}
    (h : (s.hits visits).head? = some hit') : hit' = hit := by
  obtain ⟨before, visit, after, hsplit, hdue⟩ := exists_due_of_head? h
  rw [hmode] at hdue
  exact ((due_over_iff hprevious (hstays visit (by rw [hsplit]; simp))).1 hdue).1

/-- Instructions of deeper calls are no returns. -/
theorem noReturn_of_deeper (h : ∀ visit ∈ visits, depth < visit.2) : NoReturn hit depth visits := by
  intro before visit after hsplit hdepth
  have hdeeper : depth < visit.2 := h visit (by rw [hsplit]; simp)
  omega

end Stepper

/-! ## Sessions -/

/-- The instructions of calls that some steps come to, each with the number of calls by then. -/
def CallStack.visits (d : Deployments) (c : CallStack) : List Step → List Stepper.Visit
  | [] => []
  | s :: rest =>
    ((c.trace d s).2.map fun m => (m, (c.trace d s).1.depth)).toList ++
      (c.trace d s).1.visits d rest

namespace Session

variable {s : Session} {storage : Storage} {event : Step} {n : Notification}
  {events : List SessionEvent}

/-- The pause at an event. -/
def pauseAt? (s : Session) : SessionEvent → Option Notification
  | .step storage event => (s.step storage event).2
  | .command _ | .preimage _ => none

/-- The pauses at some events. -/
def pauses (s : Session) : List SessionEvent → List Notification
  | [] => []
  | e :: rest => (s.pauseAt? e).toList ++ (s.handle e).pauses rest

/-- The instruction that a step comes to decides whether it pauses. -/
theorem hits_step (s : Session) (storage : Storage) (event : Step) (rest : List Stepper.Visit) :
    s.stepper.hits (((s.calls.trace s.deployments event).2.map fun m =>
        (m, (s.calls.trace s.deployments event).1.depth)).toList ++ rest) =
      ((s.step storage event).2.map (·.hit)).toList ++
        (s.step storage event).1.stepper.hits rest := by
  cases hactive : (s.calls.trace s.deployments event).2 with
  | none =>
    simp only [step, hactive]
    rfl
  | some m =>
    simp only [step, hactive]
    rw [Option.map_some, Option.toList_some, List.singleton_append, Stepper.hits]
    cases (s.stepper.check m (s.calls.trace s.deployments event).1.depth).2 <;> rfl

/-- **A session pauses where its stepper does**, at the instructions that its steps come to. -/
theorem map_hit_pauses (hevents : ∀ c, SessionEvent.command c ∉ events) :
    (s.pauses events).map (·.hit) =
      s.stepper.hits (s.calls.visits s.deployments (events.filterMap SessionEvent.step?)) := by
  induction events generalizing s with
  | nil => rfl
  | cons e rest ih =>
    have hrest := ih (s := s.handle e) fun c hc => hevents c (List.mem_cons_of_mem _ hc)
    rw [(s.handle_keeps e).1] at hrest
    rw [pauses, List.map_append, hrest]
    cases e with
    | step storage event =>
      have hsteps : (SessionEvent.step storage event :: rest).filterMap SessionEvent.step? =
          event :: rest.filterMap SessionEvent.step? := rfl
      rw [hsteps, CallStack.visits, hits_step s storage, handle, step_fst_calls, pauseAt?]
      cases (s.step storage event).2 <;> rfl
    | command c => exact absurd List.mem_cons_self (hevents c)
    | preimage data => rfl

/-- A pause leaves its own line as the last one. -/
theorem step_previous (h : (s.step storage event).2 = some n) :
    (s.step storage event).1.stepper.previous = some (n.hit.source, n.hit.line) := by
  obtain ⟨m, hit, hm, hhit, rfl⟩ := step_eq_some_iff.1 h
  obtain ⟨hline, -, -⟩ := Stepper.check_eq_some_iff.1 hhit
  rw [step_fst, hm]
  dsimp only
  rw [Stepper.check_previous, hline]
  rfl

/--
**Stepping over a line pauses in it again after a deeper call that ends in another line.** Execution
pauses in a line, and a command steps over it. From then on, all instructions belong to deeper calls
or to that line. Then nothing pauses if and only if no instruction is a return: one of that line,
with no more calls than at the pause, that another line came before. Otherwise the first pause is in
that same line. So returning from a call, whose last instruction was in another line, into the rest
of the line that made it pauses exactly there.
-/
theorem stepOver_pauses_iff (h : (s.step storage event).2 = some n)
    (hevents : ∀ c, SessionEvent.command c ∉ events) :
    let t := (s.step storage event).1.apply .stepOver
    let depth := t.calls.depth
    let visits := t.calls.visits t.deployments (events.filterMap SessionEvent.step?)
    (∀ visit ∈ visits, Stepper.StaysIn n.hit depth visit) →
      (t.pauses events = [] ↔ Stepper.NoReturn n.hit depth visits) ∧
      (∀ again, (t.pauses events).head? = some again → again.hit = n.hit) ∧
      ∀ callee back, visits = callee ++ [back] → (∀ visit ∈ callee, depth < visit.2) →
        back.2 ≤ depth →
        Stepper.lineAfter (some (n.hit.source, n.hit.line)) callee ≠
          some (n.hit.source, n.hit.line) →
        (t.pauses events).map (·.hit) = [n.hit] := by
  intro t depth visits hstays
  have hmode : t.stepper.mode = .over depth := rfl
  have hprevious : t.stepper.previous = some (n.hit.source, n.hit.line) := step_previous h
  have hpauses : (t.pauses events).map (·.hit) = t.stepper.hits visits := map_hit_pauses hevents
  refine ⟨?_, fun again hagain => ?_, fun callee back hvisits hcallee hback hline => ?_⟩
  · rw [← List.map_eq_nil_iff, hpauses]
    exact Stepper.hits_over_eq_nil_iff hmode hprevious hstays
  · refine Stepper.head?_hits_over hmode hprevious hstays ?_
    rw [← hpauses, List.head?_map, hagain]
    rfl
  · have hquiet : t.stepper.hits callee = [] := by
      have hin : ∀ visit ∈ callee, Stepper.StaysIn n.hit depth visit :=
        fun visit hvisit => .inl (hcallee visit hvisit)
      have hnone : Stepper.NoReturn n.hit depth callee := Stepper.noReturn_of_deeper hcallee
      exact (Stepper.hits_over_eq_nil_iff hmode hprevious hin).2 hnone
    have hstaysBack : Stepper.StaysIn n.hit depth back := hstays back (by rw [hvisits]; simp)
    have hdue := (Stepper.due_over_iff hprevious hstaysBack).2 ⟨rfl, hback, hline⟩
    rw [← hmode, ← Stepper.run_mode_of_noHit (Stepper.hits_eq_nil_iff.1 hquiet)] at hdue
    rw [hpauses, hvisits, Stepper.hits_concat, hquiet, Stepper.hitAfter_eq_some_iff.2 hdue]
    rfl

/-- A line calls a function in the next one. It is stepped over, and pauses execution twice. -/
theorem stepOver_pauses_iff_returns :
    let spanOf (line : Nat) : Span := ⟨0, "a.sol", ⟨line, 0⟩, ⟨line, 9⟩, 10 * line, 9⟩
    let declare (name : String) (line : Nat) : Method :=
      { name, contract := 0, file := 0, kind := .function false .public,
        extent := (spanOf line).extent, body := none, arguments := [], results := [], locals := [],
        invocations := [], declarations := [], ownSlots := 0, totalSlots := 0 }
    let contract : Contract :=
      { name := "Vault", file := 0, kind := .contract, nodeId := none, linearizedIds := [],
        stateVariables := [], methods := [declare "deposit" 0, declare "double" 1],
        parentNames := [] }
    let compiled : CompiledContract :=
      { path := "a.sol", name := "Vault", contract := some 0, creation := {}, runtime := {},
        creationMap := [],
        runtimeMap := [⟨0, some (spanOf 0), .into⟩, ⟨1, some (spanOf 1), .regular⟩,
          ⟨2, some (spanOf 1), .out⟩, ⟨3, some (spanOf 0), .regular⟩] }
    let s : Session :=
      { deployments :=
          { compilations := [⟨{ contracts := [contract] }, {}, [compiled]⟩]
            links := [(0, ⟨0, 0⟩)] }
        stepper := { breakpoints := [⟨"a.sol", 0⟩] } }
    let step (pc : Nat) : Step :=
      { pc, opcode := 0, depth := 0, address := 0, creation := false, stack := [], memory := [],
        input := [] }
    let storage : Storage := fun _ _ => .ok 0
    let t := (s.step storage (step 0)).1.apply .stepOver
    ∃ n, (s.step storage (step 0)).2 = some n ∧ n.hit = ⟨0, "a.sol"⟩ ∧
      (t.pauses [.step storage (step 1), .step storage (step 2), .step storage (step 3)]).map
        (·.hit) = [⟨0, "a.sol"⟩] := by
  intro spanOf declare contract compiled s step storage t
  have heval : (s.step storage (step 0)).2.any (fun n => n.hit = ⟨0, "a.sol"⟩) = true := by
    decide +kernel
  obtain ⟨n, hn, hhit⟩ := (Option.any_eq_true _ _).1 heval
  have hplace : n.hit = ⟨0, "a.sol"⟩ := of_decide_eq_true hhit
  refine ⟨n, hn, hplace, ?_⟩
  let inLine (pc line : Nat) : Mapping := ⟨pc, some (spanOf line), .regular⟩
  have hvisits : t.calls.visits t.deployments [step 1, step 2, step 3] =
      [(inLine 1 1, 2)] ++ [(inLine 3 0, 1)] := by
    decide +kernel
  have hdepth : t.calls.depth = 1 := by decide +kernel
  have hevents : ∀ c, SessionEvent.command c ∉
      [.step storage (step 1), .step storage (step 2), .step storage (step 3)] := by
    intro c hc
    simp at hc
  have hstays : ∀ visit ∈ t.calls.visits t.deployments [step 1, step 2, step 3],
      Stepper.StaysIn n.hit t.calls.depth visit := by
    rw [hvisits, hplace, hdepth]
    intro visit hvisit
    rcases List.mem_append.1 hvisit with hcallee | hback
    · obtain rfl := List.mem_singleton.1 hcallee
      exact .inl (by decide)
    · obtain rfl := List.mem_singleton.1 hback
      exact .inr rfl
  obtain ⟨-, -, hreturn⟩ := stepOver_pauses_iff hn hevents hstays
  rw [hplace] at hreturn
  refine hreturn [(inLine 1 1, 2)] (inLine 3 0, 1) hvisits ?_ (Nat.le_of_eq hdepth.symm) (by decide)
  intro visit hvisit
  obtain rfl := List.mem_singleton.1 hvisit
  rw [hdepth]
  decide

end Session

end Solscope
