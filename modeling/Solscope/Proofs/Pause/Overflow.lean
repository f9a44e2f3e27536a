import Solscope.Proofs.Pause.Variables
import Solscope.Proofs.Read.Room

/-!
# Pauses that cannot be shown

There is no report of a pause if reading what it shows overflows: a state variable of a frame, if
those before it can be read, or a variable that is visible in an active call.

* `Report.Overflows`, `Report.overflows_iff`: what overflows.
* `Report.exists_calldata_of_overflows`: **limits that memory has room for leave arguments only.**
-/

namespace Solscope

namespace Report

variable {r : Report} {f : Frame} {frames : List Frame} {stack : List Word} {memory : Bytes}
  {s : Step}

/-- Reading a state variable of a frame overflows, and is the first of them to fail. -/
structure StateOverflows (r : Report) (f : Frame) (code : KnownCode) : Prop where
  calls : f.calls ≠ []
  known : r.deployments.at? f.codeAddress f.creation = some code
  shown : r.config.showStorage = true
  first : FirstFailure (r.readState f code) (layoutOf code) .overflow

/-- Reading a variable that is visible in an active call overflows. -/
structure VariableOverflows (r : Report) (a : ActiveCall) (v : Nat × Variable) : Prop where
  visible : v ∈ a.visible
  reads : ∃ t, v.2.ty = some t ∧
    a.program.types.readStack (r.stackView a) t (v.1 + v.2.stackOffset) v.2.location =
      .error .overflow

/-- Reading what a pause at a step shows overflows. -/
inductive Overflows (r : Report) (frames : List Frame) (s : Step) : Prop
  | state (f : Frame) (code : KnownCode) :
      f ∈ frames → r.StateOverflows f code → Overflows r frames s
  | call (a : ActiveCall) (v : Nat × Variable) :
      a ∈ activeCalls r.deployments frames s → r.VariableOverflows a v → Overflows r frames s

theorem methodOverflows_iff {types : Declared} {view : StackView} {base : Nat}
    {mapping : Option Mapping} {m : Method} :
    methodOverflows types view base mapping m = true ↔
      ∃ v ∈ m.vars.filter (isShown mapping), ∃ t, v.ty = some t ∧
        types.readStack view t (base + v.stackOffset) v.location = .error .overflow := by
  simp only [methodOverflows, List.any_eq_true, Option.any_eq_true, overflows_iff]

theorem callOverflows_iff (a : ActiveCall)
    (hm : a.program.method? a.call.method = some a.method) :
    callOverflows a.program (r.stackView a) a.frame.stackBase a.call = true ↔
      ∃ v, r.VariableOverflows a v := by
  rw [callOverflows, hm, Option.any_some, Bool.or_eq_true, methodOverflows_iff]
  constructor
  · rintro (⟨v, hv, hread⟩ | hmodifier)
    · exact ⟨_, List.mem_append_left _ (List.mem_map_of_mem hv), hread⟩
    · obtain ⟨invoked, hinvoked, hoverflows⟩ := (Option.any_eq_true _ _).1 hmodifier
      obtain ⟨v, hv, hread⟩ := methodOverflows_iff.1 hoverflows
      refine ⟨(_, v), List.mem_append_right _ ?_, hread⟩
      rw [ActiveCall.modifier?, hinvoked]
      exact List.mem_map_of_mem hv
  · rintro ⟨v, hvisible, hread⟩
    rcases List.mem_append.1 hvisible with hv | hv
    · obtain ⟨w, hw, rfl⟩ := List.mem_map.1 hv
      exact .inl ⟨w, hw, hread⟩
    · refine .inr ((Option.any_eq_true _ _).2 ?_)
      cases hinvoked : a.modifier? with
      | none => rw [hinvoked] at hv; cases hv
      | some invoked =>
        rw [hinvoked] at hv
        obtain ⟨w, hw, rfl⟩ := List.mem_map.1 hv
        exact ⟨invoked, hinvoked, methodOverflows_iff.2 ⟨w, hw, hread⟩⟩

theorem stateVariables_overflows_iff {code : KnownCode} :
    Solscope.overflows (r.stateVariables f code) = true ↔
      FirstFailure (r.readState f code) (layoutOf code) .overflow := by
  rw [overflows_iff, stateVariables_eq_mapM, ← mapM_eq_error_iff]
  cases (layoutOf code).mapM (r.readState f code) <;> simp [Except.map]

/-- The calls of a frame overflow as the active ones of them do. -/
theorem anyCallOverflows_iff {code : KnownCode}
    (hknown : r.deployments.at? f.codeAddress f.creation = some code) :
    f.calls.any (callOverflows code.program (r.frameView f stack memory) f.stackBase) = true ↔
      ∃ a ∈ activeOf r.deployments f stack memory, ∃ v, r.VariableOverflows a v := by
  rw [List.any_eq_true]
  constructor
  · rintro ⟨c, hc, hoverflows⟩
    obtain ⟨m, hm, -⟩ := (Option.any_eq_true _ _).1 hoverflows
    refine ⟨⟨code, f, stack, memory, c, m⟩,
      mem_activeOf_iff.2 ⟨⟨rfl, hc, hknown, hm⟩, rfl, rfl⟩, ?_⟩
    exact (callOverflows_iff ⟨code, f, stack, memory, c, m⟩ hm).1 hoverflows
  · rintro ⟨a, ha, hoverflows⟩
    obtain ⟨⟨rfl, hcall, hcode, hmethod⟩, rfl, rfl⟩ := mem_activeOf_iff.1 ha
    obtain rfl := Option.some.inj (hknown.symm.trans hcode)
    exact ⟨a.call, hcall, (callOverflows_iff a hmethod).2 hoverflows⟩

/-- What overflows of a frame. -/
theorem frameOverflows_iff :
    r.frameOverflows f stack memory = true ↔
      (∃ code, r.StateOverflows f code) ∨
        ∃ a ∈ activeOf r.deployments f stack memory, ∃ v, r.VariableOverflows a v := by
  rw [frameOverflows, Bool.and_eq_true, Bool.not_eq_true', List.isEmpty_eq_false_iff,
    Option.any_eq_true]
  constructor
  · rintro ⟨hcalls, code, hknown, hoverflows⟩
    rcases Bool.or_eq_true_iff.1 hoverflows with hstate | hcall
    · obtain ⟨hshow, hfirst⟩ := Bool.and_eq_true_iff.1 hstate
      exact .inl ⟨code, hcalls, hknown, hshow, stateVariables_overflows_iff.1 hfirst⟩
    · exact .inr ((anyCallOverflows_iff hknown).1 hcall)
  · rintro (⟨code, hcalls, hknown, hshow, hfirst⟩ | ⟨a, ha, hv⟩)
    · refine ⟨hcalls, code, hknown, ?_⟩
      rw [hshow, stateVariables_overflows_iff.2 hfirst]
      rfl
    · obtain ⟨⟨rfl, hcall, hknown, -⟩, -⟩ := mem_activeOf_iff.1 ha
      refine ⟨List.ne_nil_of_mem hcall, a.code, hknown, ?_⟩
      rw [(anyCallOverflows_iff hknown).2 ⟨a, ha, hv⟩, Bool.or_true]

/-- **What overflows** is a state variable of a frame or a visible variable of an active call. -/
theorem overflows_iff : r.overflows frames s = true ↔ r.Overflows frames s := by
  rcases List.eq_nil_or_concat frames with rfl | ⟨outer, f, rfl⟩
  · refine iff_of_false (by simp [overflows]) ?_
    rintro (⟨f, code, hf, -⟩ | ⟨a, v, ha, -⟩)
    · cases hf
    · cases ha
  rw [List.concat_eq_append, overflows, List.getLast?_concat, List.dropLast_concat, Option.any_some,
    Bool.or_eq_true, List.any_eq_true, frameOverflows_iff]
  constructor
  · rintro ((⟨code, hstate⟩ | ⟨a, ha, v, hv⟩) | ⟨g, hg, hoverflows⟩)
    · exact .state f code (by simp) hstate
    · refine .call a v ?_ hv
      rw [activeCalls_concat]
      exact List.mem_append_left _ ha
    · rcases frameOverflows_iff.1 hoverflows with ⟨code, hstate⟩ | ⟨a, ha, v, hv⟩
      · exact .state g code (by simp [hg]) hstate
      · refine .call a v ?_ hv
        rw [activeCalls_concat]
        exact List.mem_append_right _ (List.mem_flatMap.2 ⟨g, by simp [hg], ha⟩)
  · rintro (⟨g, code, hg, hstate⟩ | ⟨a, v, ha, hv⟩)
    · rcases List.mem_append.1 hg with hg | hg
      · exact .inr ⟨g, hg, frameOverflows_iff.2 (.inl ⟨code, hstate⟩)⟩
      · obtain rfl := List.mem_singleton.1 hg
        exact .inl (.inl ⟨code, hstate⟩)
    · rw [activeCalls_concat] at ha
      rcases List.mem_append.1 ha with ha | ha
      · exact .inl (.inr ⟨a, ha, v, hv⟩)
      · obtain ⟨g, hg, ha⟩ := List.mem_flatMap.1 ha
        exact .inr ⟨g, List.mem_reverse.1 hg, frameOverflows_iff.2 (.inr ⟨a, ha, v, hv⟩)⟩

/-- The state variables that an active call shows do not overflow unless the pause does. -/
theorem showsStorage_of_mem {a : ActiveCall} (ha : a ∈ activeCalls r.deployments frames s)
    (h : ¬ r.Overflows frames s) : r.ShowsStorage a.frame a.code (r.shownCall a) := by
  refine r.showsStorage a fun hshow hfirst => h ?_
  obtain ⟨f, hf, rfl, hcall, hknown, -⟩ := isIn_of_mem_activeCalls ha
  exact .state a.frame a.code hf ⟨List.ne_nil_of_mem hcall, hknown, hshow, hfirst⟩

/--
**Limits that memory has room for leave arguments only.** Under such limits nothing overflows but
the heads of arguments in the input.
-/
theorem exists_calldata_of_overflows (hroom : r.config.limits.HaveRoom)
    (h : r.Overflows frames s) :
    ∃ a ∈ activeCalls r.deployments frames s, ∃ v, r.VariableOverflows a v ∧
      v.2.location = .calldata := by
  cases h with
  | state f code _ hstate =>
    obtain ⟨before, v, after, -, -, hread⟩ := hstate.first
    exfalso
    have hfits : Fits (r.readState f code v) := by
      unfold readState stateVariable
      split
      · exact (Declared.fits_readStorage _ hroom _ _).bind fun _ => .pure _
      · exact .ok _
    exact hfits hread
  | call a v ha hv =>
    refine ⟨a, ha, v, hv, ?_⟩
    by_contra hlocation
    obtain ⟨t, -, hread⟩ := hv.reads
    refine Declared.fits_readStack _ _ _ (fun storage hstorage => ?_) hlocation hread
    obtain rfl := Option.some.inj hstorage
    exact hroom

end Report

end Solscope
