import Solscope.Proofs.Session.Runs

/-!
# What can be read does not decide where execution pauses

Two sessions with the same deployments, frames and stepper go through the same steps and commands.
Their settings, their hash inputs and their storages may differ, and any storage may fail. What can
be read decides one thing only: where reading what a pause shows overflows, there is no going on.

* `Session.Alike.run`: the sessions stay alike.
* `Session.StepOutcome`: whether a session goes through a step.
* `Session.pauses_independent`: **they pause alike**, and what they show differs only as far as what
  can be read differs.
-/

namespace Solscope

/-- Events that differ in what can be read only. -/
inductive SessionEvent.Alike : SessionEvent → SessionEvent → Prop
  | step (storage storage' : Storage) (s : Step) : Alike (.step storage s) (.step storage' s)
  | command (c : Command) : Alike (.command c) (.command c)
  | preimage (data data' : Bytes) : Alike (.preimage data) (.preimage data')

namespace Session

/-- Sessions that agree in what decides where they pause. -/
structure Alike (s s' : Session) : Prop where
  deployments : s.deployments = s'.deployments
  calls : s.calls = s'.calls
  stepper : s.stepper = s'.stepper

variable {s s' : Session} {events events' : List SessionEvent} {storage storage' : Storage}
  {event : Step} {n n' : Notification}

namespace Alike

theorem step (h : s.Alike s') (storage storage' : Storage) (event : Step) :
    (s.step storage event).1.Alike (s'.step storage' event).1 := by
  obtain ⟨hdeployments, hcalls, hstepper⟩ := h
  rw [step_fst, step_fst, hdeployments, hcalls, hstepper]
  exact ⟨rfl, rfl, rfl⟩

theorem handle {e e' : SessionEvent} (h : s.Alike s') (he : e.Alike e') :
    (s.handle e).Alike (s'.handle e') := by
  cases he with
  | step storage storage' event => exact h.step storage storage' event
  | command c =>
    refine ⟨h.deployments, h.calls, ?_⟩
    cases c <;> simp only [Session.handle, apply, modeAfter, h.stepper, h.calls]
  | preimage data data' => exact ⟨h.deployments, h.calls, h.stepper⟩

/-- **Sessions stay alike**, whatever can be read. -/
theorem run (h : s.Alike s') (hevents : List.Forall₂ SessionEvent.Alike events events') :
    (s.run events).Alike (s'.run events') := by
  induction hevents generalizing s s' with
  | nil => exact h
  | cons he _ ih => exact ih (h.handle he)

/-- If one of two sessions pauses, so does the other, in the same line and with the same calls. -/
theorem exists_of_step (h : s.Alike s') (hn : (s.step storage event).2 = some n)
    (storage' : Storage) :
    let active := activeCalls s.deployments (s.step storage event).1.calls.frames event
    n.calls = active.map (s.report storage).shownCall ∧
      ∃ n', (s'.step storage' event).2 = some n' ∧ n'.hit = n.hit ∧
        n'.calls = active.map (s'.report storage').shownCall := by
  intro active
  obtain ⟨m, hit, hm, hhit, rfl⟩ := step_eq_some_iff.1 hn
  have hactive : active =
      activeCalls s.deployments (s.calls.trace s.deployments event).1.frames event := by
    rw [← step_fst_calls s storage event]
  rw [hactive]
  refine ⟨Report.notification_calls .., (s'.report storage').notification hit
    (s'.calls.trace s'.deployments event).1.frames event, ?_, rfl, ?_⟩
  · rw [h.calls, h.deployments] at hm hhit
    rw [h.stepper] at hhit
    exact step_eq_some_iff.2 ⟨m, hit, hm, hhit, rfl⟩
  · rw [h.calls, h.deployments]
    exact Report.notification_calls ..

theorem symm (h : s.Alike s') : s'.Alike s :=
  ⟨h.deployments.symm, h.calls.symm, h.stepper.symm⟩

theorem step_eq_none (h : s.Alike s') (hn : (s.step storage event).2 = none)
    (storage' : Storage) : (s'.step storage' event).2 = none := by
  cases hn' : (s'.step storage' event).2 with
  | none => rfl
  | some n' =>
    obtain ⟨-, n, hsome, -⟩ := h.symm.exists_of_step hn' storage
    rw [hn] at hsome
    cases hsome

end Alike

/-- What two calls have in common that are shown of the same active call. -/
structure ShownAlike (c c' : ShownCall) : Prop where
  name : c.name = c'.name
  mapping : c.mapping = c'.mapping

/--
What becomes of a step. The session goes through it unless it pauses and reading what the pause
shows overflows. Under limits that memory has room for, only an argument in the input overflows.
-/
structure StepOutcome (s : Session) (storage : Storage) (event : Step) : Prop where
  stuck_iff : s.step? storage event = none ↔ (s.step storage event).2.isSome = true ∧
    (s.report storage).Overflows (s.step storage event).1.calls.frames event
  done : ∀ after, s.step? storage event = some after → after = s.step storage event
  calldata : s.config.limits.HaveRoom → s.step? storage event = none →
    ∃ a ∈ activeCalls s.deployments (s.step storage event).1.calls.frames event, ∃ v,
      (s.report storage).VariableOverflows a v ∧ v.2.location = .calldata

theorem stepOutcome (s : Session) (storage : Storage) (event : Step) :
    s.StepOutcome storage event where
  stuck_iff := step?_eq_none_iff
  done _ h := eq_step_of_step? h
  calldata hroom h :=
    Report.exists_calldata_of_overflows hroom (step?_eq_none_iff.1 h).2

/--
**Sessions pause alike whatever can be read, unless reading overflows.** After the same steps and
commands both sessions pause at the next step or neither does. If they do, they stay alike, in the
same line and with calls of the same names at the same instructions. But a session does not get past
a pause if a state variable of a frame, or a variable of an active call, takes a size that is none:
more elements or bytes from storage than memory can have room for, which limits that are small
enough rule out, or heads of an argument that are no size together. Where both sessions get past, of
each active call,

* the variables that are not located in storage are shown alike if the limits are equal;
* the state variables are shown as the settings say: not at all, or all of them, or none and the
  first reason that one gives in the frame of the call;
* so, if the sessions have equal settings and hash inputs, and one storage is the other except that
  it fails in some ways, then both show the same state variables in every frame whose own ones do
  not come across one of these failures.
-/
theorem pauses_independent (h : s.Alike s')
    (hevents : List.Forall₂ SessionEvent.Alike events events') (storage storage' : Storage)
    (event : Step) :
    let t := s.run events
    let t' := s'.run events'
    (t.step storage event).1.Alike (t'.step storage' event).1 ∧
      Option.Rel (fun n n' => n.hit = n'.hit ∧ List.Forall₂ ShownAlike n.calls n'.calls)
        (t.step storage event).2 (t'.step storage' event).2 ∧
      t.StepOutcome storage event ∧ t'.StepOutcome storage' event ∧
      ∀ after after' n n', t.step? storage event = some after →
        t'.step? storage' event = some after' → after.2 = some n → after'.2 = some n' →
        let active := activeCalls s.deployments after.1.calls.frames event
        n.calls.length = active.length ∧
          ∀ (i : Nat) a c c', active[i]? = some a → n.calls[i]? = some c → n'.calls[i]? = some c' →
            (s.config.limits = s'.config.limits → SameButStorage a.visible c.vars c'.vars) ∧
            (t.report storage).ShowsStorage a.frame a.code c ∧
            (t'.report storage').ShowsStorage a.frame a.code c' ∧
            (s.config = s'.config → t.preimages = t'.preimages →
              ∀ F, FailsOnly F storage storage' →
                c.storage = c'.storage ∧ c.error = c'.error ∨
                  ∃ e, F e ∧ FirstFailure ((t.report storage).readState a.frame a.code)
                    (Report.layoutOf a.code) (.storage e)) := by
  intro t t'
  have halike : t.Alike t' := h.run hevents
  have hdeployments : t.deployments = s.deployments := s.run_deployments events
  have hafter : (t.step storage event).1.Alike (t'.step storage' event).1 :=
    halike.step storage storage' event
  refine ⟨hafter, ?_, t.stepOutcome storage event, t'.stepOutcome storage' event,
    fun after after' n n' hgone hgone' hn hn' => ?_⟩
  · cases hn : (t.step storage event).2 with
    | none =>
      rw [halike.step_eq_none hn storage']
      exact .none
    | some n =>
      obtain ⟨hcalls, n', hn', hhit, hcalls'⟩ := halike.exists_of_step hn storage'
      rw [hn']
      refine .some ⟨hhit.symm, ?_⟩
      rw [hcalls, hcalls', List.forall₂_map_left_iff, List.forall₂_map_right_iff]
      exact List.forall₂_same.2 fun a _ => ⟨rfl, rfl⟩
  · have hfits := not_overflows_of_step? hgone hn
    have hfits' := not_overflows_of_step? hgone' hn'
    obtain rfl := eq_step_of_step? hgone
    obtain rfl := eq_step_of_step? hgone'
    intro active
    obtain ⟨hcalls, n₂, hsome, -, hcalls'⟩ := halike.exists_of_step hn storage'
    obtain rfl := Option.some.inj (hn'.symm.trans hsome)
    rw [hdeployments] at hcalls hcalls'
    rw [hcalls, hcalls']
    refine ⟨List.length_map _, fun i a c c' ha hc hc' => ?_⟩
    rw [List.getElem?_map, ha] at hc hc'
    obtain rfl := Option.some.inj hc
    obtain rfl := Option.some.inj hc'
    have hmem : a ∈ active := List.mem_of_getElem? ha
    have hmemReport : a ∈ activeCalls (t.report storage).deployments
        (t.step storage event).1.calls.frames event := by
      rwa [show (t.report storage).deployments = s.deployments from hdeployments]
    have hmemReport' : a ∈ activeCalls (t'.report storage').deployments
        (t'.step storage' event).1.calls.frames event := by
      rwa [show (t'.report storage').deployments = s.deployments from
        halike.deployments.symm.trans hdeployments, ← hafter.calls]
    refine ⟨fun hlimits => ?_, Report.showsStorage_of_mem hmemReport hfits,
      Report.showsStorage_of_mem hmemReport' hfits', fun hconfig hpreimages F hF => ?_⟩
    · refine Report.sameButStorage_vars ?_ a
      rw [report, report, run_config, run_config]
      exact hlimits
    · have hreport : t'.report storage' = { t.report storage with storage := storage' } := by
        rw [report, report, ← halike.deployments, ← hpreimages, run_config, run_config, hconfig]
      rw [hreport]
      rcases Report.storageOf_agrees (r := t.report storage) hF a.frame a.code with heq | hfailure
      · exact .inl ⟨congrArg Prod.fst heq, congrArg Prod.snd heq⟩
      · exact .inr hfailure

/--
Two sessions come to the same line. One cannot read its storage, and shows that. The other one reads
all items of an array that has more than memory has room for, and does not get past the pause.
-/
theorem pauses_independent_failing :
    let asts : List Ast := [{ kind := "SourceUnit", children := [
      { kind := "ContractDefinition", src := "0:19:0", attributes := [("name", .str "A")],
        children := [
          { kind := "VariableDeclaration", src := "0:9:0",
            attributes := [("name", .str "x"), ("type", .str "uint256[]"),
              ("stateVariable", .bool true)] },
          { kind := "FunctionDefinition", src := "10:9:0",
            attributes := [("name", .str "f")] }] }] }]
    let sources := ({} : Sources).add 0 "a.sol" "uint[] x;\ndeclare f"
    let span : Span := ⟨0, "a.sol", ⟨1, 0⟩, ⟨1, 9⟩, 10, 9⟩
    let compiled : CompiledContract :=
      { path := "a.sol", name := "A", contract := some 0, creation := {}, runtime := {},
        creationMap := [], runtimeMap := [⟨0, some span, .regular⟩] }
    let step : Step :=
      { pc := 0, opcode := 0, depth := 0, address := 0, creation := false, stack := [],
        memory := [], input := [] }
    let storage : Storage := fun _ _ => .error "not available"
    let storage' : Storage := fun _ _ => .ok (2 ^ 63 : Nat)
    ∃ p after n n', Program.ofAsts sources asts = .ok p ∧
      let s : Session :=
        { deployments := { compilations := [⟨p, sources, [compiled]⟩], links := [(0, ⟨0, 0⟩)] } }
      let s' : Session := { s with config := { limits := { array := 2 ^ 63 - 1 } } }
      let t := s.run [.command .stepInto]
      let t' := s'.run [.command .stepInto]
      (t.step? storage step = some after ∧ after.2 = some n ∧
        n.calls.map (fun c => (c.name, c.storage.length, c.error.isSome)) = [("A.f", 0, true)]) ∧
      (t'.step storage' step).2 = some n' ∧ n.hit = n'.hit ∧
        List.Forall₂ ShownAlike n.calls n'.calls ∧
      t'.step? storage' step = none ∧
        (t'.report storage').Overflows (t'.step storage' step).1.calls.frames step := by
  intro asts sources span compiled step storage storage'
  let session (p : Program) (config : Config) : Session :=
    { config
      deployments := { compilations := [⟨p, sources, [compiled]⟩], links := [(0, ⟨0, 0⟩)] } }
  let config : Config := { limits := { array := 2 ^ 63 - 1 } }
  have heval : (Program.ofAsts sources asts).toOption.any (fun p =>
      ((((session p {}).run [.command .stepInto]).step? storage step).any fun after =>
        after.2.any fun n =>
          n.calls.map (fun c => (c.name, c.storage.length, c.error.isSome)) = [("A.f", 0, true)]) &&
      (((session p config).run [.command .stepInto]).step? storage' step).isNone) = true := by
    decide +kernel
  cases hp : Program.ofAsts sources asts with
  | error e => rw [hp] at heval; cases heval
  | ok p =>
    rw [hp] at heval
    obtain ⟨hgone, hstuck⟩ := Bool.and_eq_true_iff.1 heval
    obtain ⟨after, hafter, hpause⟩ := (Option.any_eq_true _ _).1 hgone
    obtain ⟨n, hn, hfacts⟩ := (Option.any_eq_true _ _).1 hpause
    have hnone := Option.isNone_iff_eq_none.1 hstuck
    have halike : (session p {}).Alike (session p config) := ⟨rfl, rfl, rfl⟩
    obtain ⟨-, hsame, houtcome, houtcome', -⟩ := pauses_independent halike
      (.cons (.command .stepInto) .nil) storage storage' step
    obtain ⟨hpauses', hoverflows⟩ := houtcome'.stuck_iff.1 hnone
    obtain ⟨n', hn'⟩ := Option.isSome_iff_exists.1 hpauses'
    rw [← houtcome.done after hafter, hn, hn'] at hsame
    cases hsame with
    | some hsame =>
      exact ⟨p, after, n, n', rfl, ⟨hafter, hn, of_decide_eq_true hfacts⟩, hn', hsame.1, hsame.2,
        hnone, hoverflows⟩

end Session

end Solscope
