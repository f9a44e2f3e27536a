import Mathlib.Data.List.Basic
import Solscope.Pause.Report

/-!
# The calls that a pause shows

A pause shows the active calls, those of known methods in frames whose code is known. Which calls
these are depends on the frames only, as do their names and instructions; settings, hash inputs and
storage only decide what is told of variables.

* `activeCalls`: the calls of all frames, the innermost one first.
* `Report.shownCall`: how one of them is shown.
* `Report.notification_calls`: **a pause shows the active calls and nothing else.**
-/

namespace Solscope

/-- A call of a known method, with the stack and the memory that its variables are read from. -/
structure ActiveCall where
  code : KnownCode
  frame : Frame
  stack : List Word
  memory : Bytes
  call : Call
  method : Method

/-- The active calls of a frame with a given stack and memory. -/
def activeOf (d : Deployments) (f : Frame) (stack : List Word) (memory : Bytes) :
    List ActiveCall :=
  match d.at? f.codeAddress f.creation with
  | none => []
  | some code => f.calls.filterMap fun c =>
    (code.program.method? c.method).map fun m => ⟨code, f, stack, memory, c, m⟩

/--
The active calls at a step, the innermost one first. Of the innermost frame stack and memory are
those of the step.
-/
def activeCalls (d : Deployments) (frames : List Frame) (s : Step) : List ActiveCall :=
  match frames.reverse with
  | [] => []
  | f :: outer =>
    activeOf d f s.stack s.memory ++ outer.flatMap fun f => activeOf d f f.stack f.memory

namespace ActiveCall

/-- An active call is one of its frame, whose code and method are known. -/
structure IsIn (d : Deployments) (a : ActiveCall) (f : Frame) : Prop where
  frame : a.frame = f
  call : a.call ∈ f.calls
  known : d.at? a.frame.codeAddress a.frame.creation = some a.code
  method : a.code.program.method? a.call.method = some a.method

variable (a : ActiveCall)

/-- The program that an active call belongs to. -/
def program : Program := a.code.program

/-- The modifier that runs in an active call. -/
def modifier? : Option (Invocation × Method) := Report.running? a.program a.method a.call

/--
The variables of an active call that are visible at its instruction, each with the stack slot that
the offsets of its method count from: first those of the method, then those of the modifier.
-/
def visible : List (Nat × Variable) :=
  let base := a.frame.stackBase + a.call.stackOffset
  let shown (m : Method) : List Variable := m.vars.filter (Report.isShown a.call.mapping)
  (shown a.method).map (base, ·) ++
    match a.modifier? with
    | some (i, m) => (shown m).map (base + i.stackOffset, ·)
    | none => []

end ActiveCall

section

variable {d : Deployments} {a : ActiveCall}

theorem mem_activeOf_iff {f : Frame} {stack : List Word} {memory : Bytes} :
    a ∈ activeOf d f stack memory ↔ a.IsIn d f ∧ a.stack = stack ∧ a.memory = memory := by
  constructor
  · intro h
    unfold activeOf at h
    split at h
    · cases h
    · rename_i code hcode
      obtain ⟨c, hc, ha⟩ := List.mem_filterMap.1 h
      obtain ⟨m, hm, rfl⟩ := Option.map_eq_some_iff.1 ha
      exact ⟨⟨rfl, hc, hcode, hm⟩, rfl, rfl⟩
  · rintro ⟨⟨rfl, hcall, hknown, hmethod⟩, rfl, rfl⟩
    rw [activeOf, hknown]
    exact List.mem_filterMap.2 ⟨a.call, hcall, by rw [hmethod]; rfl⟩

/-- The active calls of the innermost frame come first. -/
theorem activeCalls_concat (d : Deployments) (outer : List Frame) (f : Frame) (s : Step) :
    activeCalls d (outer ++ [f]) s = activeOf d f s.stack s.memory ++
      outer.reverse.flatMap fun f => activeOf d f f.stack f.memory := by
  rw [activeCalls, List.reverse_concat]

theorem isIn_of_mem_activeCalls {frames : List Frame} {s : Step} (h : a ∈ activeCalls d frames s) :
    ∃ f ∈ frames, a.IsIn d f := by
  rcases List.eq_nil_or_concat frames with rfl | ⟨outer, f, rfl⟩
  · cases h
  rw [List.concat_eq_append, activeCalls_concat] at h
  rcases List.mem_append.1 h with h | h
  · exact ⟨f, by simp, (mem_activeOf_iff.1 h).1⟩
  · obtain ⟨g, hg, h⟩ := List.mem_flatMap.1 h
    exact ⟨g, by simp [List.mem_reverse.1 hg], (mem_activeOf_iff.1 h).1⟩

end

namespace Report

variable (r : Report) (a : ActiveCall)

/-- What the variables of an active call are read from. -/
def stackView : StackView := r.frameView a.frame a.stack a.memory

/-- How an active call is shown. -/
def shownCall : ShownCall where
  name := nameOf a.program a.call a.modifier?
  mapping := a.call.mapping.bind MappingInfo.ofMapping?
  storage := (r.storageOf a.frame a.code).1
  vars := a.visible.filterMap fun (base, v) =>
    stackVariable? a.program.types (r.stackView a) base v
  error := (r.storageOf a.frame a.code).2

theorem call?_eq (hm : a.program.method? a.call.method = some a.method) :
    call? a.program (r.stackView a) (r.storageOf a.frame a.code) a.frame.stackBase a.call =
      some (r.shownCall a) := by
  have hvars : (r.shownCall a).vars =
      methodVariables a.program.types (r.stackView a) (a.frame.stackBase + a.call.stackOffset)
          a.call.mapping a.method ++
        match a.modifier? with
        | some (i, m) => methodVariables a.program.types (r.stackView a)
            (a.frame.stackBase + a.call.stackOffset + i.stackOffset) a.call.mapping m
        | none => [] := by
    rw [shownCall, ActiveCall.visible, List.filterMap_append, List.filterMap_map]
    cases a.modifier? with
    | none => rfl
    | some invoked => rw [List.filterMap_map]; rfl
  rw [call?, hm]
  refine congrArg some ?_
  rw [ShownCall.mk.injEq]
  exact ⟨rfl, rfl, rfl, hvars.symm, rfl⟩

/-- A frame shows its active calls. -/
theorem callsOf_eq (f : Frame) (stack : List Word) (memory : Bytes) :
    r.callsOf f stack memory = (activeOf r.deployments f stack memory).map r.shownCall := by
  unfold callsOf activeOf
  cases r.deployments.at? f.codeAddress f.creation with
  | none => simp
  | some code =>
    split
    · rename_i hempty
      rw [List.isEmpty_iff.1 hempty]
      rfl
    · rw [List.map_filterMap]
      refine List.filterMap_congr fun c _ => ?_
      cases hm : code.program.method? c.method with
      | none => rw [call?, hm]; rfl
      | some m => exact r.call?_eq ⟨code, f, stack, memory, c, m⟩ hm

/-- **A pause shows the active calls and nothing else.** -/
theorem notification_calls (hit : Hit) (frames : List Frame) (s : Step) :
    (r.notification hit frames s).calls =
      (activeCalls r.deployments frames s).map r.shownCall := by
  unfold notification savedCalls activeCalls
  rcases List.eq_nil_or_concat frames with rfl | ⟨outer, f, rfl⟩
  · rfl
  · rw [List.concat_eq_append, List.getLast?_concat, List.dropLast_concat, List.reverse_concat]
    simp only [Option.map_some, Option.getD_some, callsOf_eq, List.map_append, List.map_flatMap]

end Report

end Solscope
