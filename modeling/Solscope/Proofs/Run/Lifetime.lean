import Mathlib.Data.List.Chain
import Solscope.Proofs.Run.Balanced

/-!
# The life of a frame

Frames follow the depths of the steps. A frame has from the step that opens it for whom and on what
it runs, and its code from the step before if that was a delegate call.

* `CallStack.library_run_eq_some_iff`: a delegate call says whose code the next step runs, and only
  that step.
* `CallStack.exists_opens`, `CallStack.isOf_of_opens`: every frame was opened by a step, and is what
  that step made it.
* `CallStack.exists_last_step`: what a frame has saved if the last step of its depth was a call.
* `CallStack.frames_follow_depths`: **all of this for every run.**
-/

namespace Solscope

/-! ## Delegate calls -/

/-- The word below the top of the stack. -/
theorem Step.second?_eq_some_iff {s : Step} {w : Word} :
    s.second? = some w ↔ ∃ rest top, s.stack = rest ++ [w, top] := by
  unfold Step.second?
  constructor
  · intro h
    split at h
    · rename_i hlength
      obtain ⟨hlt, hw⟩ := List.getElem?_eq_some_iff.1 h
      have hnext : s.stack.length - 2 + 1 < s.stack.length := by omega
      refine ⟨s.stack.take (s.stack.length - 2), s.stack[s.stack.length - 2 + 1], ?_⟩
      have hdrop : s.stack.drop (s.stack.length - 2) = [w, s.stack[s.stack.length - 2 + 1]] := by
        rw [List.drop_eq_getElem_cons hlt, hw, List.drop_eq_getElem_cons hnext,
          List.drop_eq_nil_of_le (by omega)]
      rw [← hdrop, List.take_append_drop]
    · cases h
  · rintro ⟨rest, top, hstack⟩
    rw [hstack, if_pos (by simp)]
    simp

namespace CallStack

variable {d : Deployments} {before after : List Step} {s : Step} {k : Nat} {f : Frame}

/--
The last of some steps is a delegate call in a frame of its own, and the low 20 bytes of the word
below the top of its stack are `target`.
-/
def DelegatesTo (d : Deployments) (steps : List Step) (target : Address) : Prop :=
  ∃ before call rest word top, steps = before ++ [call] ∧
    call.depth ≤ (reached d before).frames.length ∧
    call.opcode = Opcode.delegateCall ∧ call.stack = rest ++ [word, top] ∧
    target = word.setWidth 160

theorem libraryOf_eq_some_iff {target : Address} :
    libraryOf s = some target ↔ s.opcode = Opcode.delegateCall ∧
      ∃ rest word top, s.stack = rest ++ [word, top] ∧ target = word.setWidth 160 := by
  unfold libraryOf Opcode.isDelegateCall
  by_cases hop : s.opcode = Opcode.delegateCall
  · simp only [hop, decide_true, if_true, Option.map_eq_some_iff, Step.second?_eq_some_iff,
      true_and]
    constructor
    · rintro ⟨word, ⟨rest, top, hstack⟩, rfl⟩
      exact ⟨rest, word, top, hstack, rfl⟩
    · rintro ⟨rest, word, top, hstack, rfl⟩
      exact ⟨word, ⟨rest, top, hstack⟩, rfl⟩
  · simp [hop]

/-- **A delegate call says whose code the next step runs**, and only that step. -/
theorem library_run_eq_some_iff {target : Address} :
    (reached d before).library = some target ↔ DelegatesTo d before target := by
  rcases List.eq_nil_or_concat' before with rfl | ⟨first, call, rfl⟩
  · constructor
    · rintro ⟨⟩
    · rintro ⟨first, call, _, _, _, hnil, _⟩
      simp at hnil
  · rw [reached_concat]
    rcases Nat.lt_or_ge (reached d first).frames.length call.depth with hlt | hle
    · rw [trace_of_lt hlt]
      constructor
      · rintro ⟨⟩
      · rintro ⟨first', call', _, _, _, hsteps, hle', _⟩
        obtain ⟨rfl, hlast⟩ := List.append_inj' hsteps rfl
        obtain rfl := (List.cons.inj hlast).1
        omega
    · rw [trace_of_le hle]
      change libraryOf call = some target ↔ _
      rw [libraryOf_eq_some_iff]
      constructor
      · rintro ⟨hop, rest, word, top, hstack, htarget⟩
        exact ⟨first, call, rest, word, top, rfl, hle, hop, hstack, htarget⟩
      · rintro ⟨first', call', rest, word, top, hsteps, -, hop, hstack, htarget⟩
        obtain ⟨rfl, hlast⟩ := List.append_inj' hsteps rfl
        obtain rfl := (List.cons.inj hlast).1
        exact ⟨hop, rest, word, top, hstack, htarget⟩

/-! ## From its opening on -/

/-- Frame `k` is opened by a step, after those before it, and is there after each that follows. -/
structure Opens (d : Deployments) (k : Nat) (before : List Step) (s : Step) (after : List Step) :
    Prop where
  depth : s.depth = k
  next : (reached d before).frames.length = k
  lasts : ((reached d before).trace d s).1.Lasts d k after

/-- A frame is what a step makes it that opens it after some others. -/
structure IsOf (d : Deployments) (before : List Step) (s : Step) (f : Frame) : Prop where
  address : f.address = s.address
  creation : f.creation = s.creation
  input : f.input = s.input
  delegated : ∀ target, DelegatesTo d before target → f.codeAddress = target
  own : (¬ ∃ target, DelegatesTo d before target) → f.codeAddress = s.address

theorem lasts_append {c : CallStack} {first second : List Step} :
    c.Lasts d k (first ++ second) ↔ c.Lasts d k first ∧ (c.run d first).Lasts d k second := by
  induction first generalizing c with
  | nil => simp [Lasts, run]
  | cons s rest ih => rw [List.cons_append, Lasts, Lasts, ih, and_assoc, run_cons]

/-- A frame that lasts keeps all that it has from its opening. -/
theorem exists_frame_of_lasts {c : CallStack} {steps : List Step} (hf : c.frames[k]? = some f)
    (hlasts : c.Lasts d k steps) :
    ∃ g, (c.run d steps).frames[k]? = some g ∧ f.SameOrigin g := by
  induction steps generalizing c f with
  | nil => exact ⟨f, hf, .refl f⟩
  | cons s rest ih =>
    obtain ⟨hstays, hrest⟩ := hlasts
    have hk : k < c.frames.length := (List.getElem?_eq_some_iff.1 hf).1
    -- a step of a frame below would end this one
    have hdepth : k ≤ s.depth := (lt_length_trace_iff.1 hstays).1
    rcases Nat.lt_or_eq_of_le hdepth with hlt | rfl
    · exact ih (by rw [getElem?_trace_of_lt hlt, hf]) hrest
    · have hframe : c.frameFor s = f := by rw [frameFor, hf]; rfl
      obtain ⟨g, hg, hsame⟩ := ih (by rw [getElem?_trace_self hk.le, hframe]) hrest
      exact ⟨g, hg, (f.sameOrigin_advance d s).trans hsame⟩

theorem IsOf.of_sameOrigin {g : Frame} (hf : IsOf d before s f) (hg : f.SameOrigin g) :
    IsOf d before s g :=
  ⟨hg.address.trans hf.address, hg.creation.trans hf.creation, hg.input.trans hf.input,
    fun target htarget => hg.codeAddress.trans (hf.delegated target htarget),
    fun hnone => hg.codeAddress.trans (hf.own hnone)⟩

/-- A frame is opened for the account of the step, with its code or that of a library. -/
theorem isOf_opened (before : List Step) (s : Step) :
    IsOf d before s (.opened s ((reached d before).library.getD s.address)) := by
  refine ⟨rfl, rfl, rfl, fun target htarget => ?_, fun hnone => ?_⟩
  · rw [library_run_eq_some_iff.2 htarget]
    rfl
  · cases hlibrary : (reached d before).library with
    | none => rfl
    | some target => exact absurd ⟨target, library_run_eq_some_iff.1 hlibrary⟩ hnone

/-- **As long as a frame lasts, it is what the step that opened it made it.** -/
theorem isOf_of_opens (h : Opens d k before s after) :
    ∃ f, (reached d (before ++ s :: after)).frames[k]? = some f ∧
      IsOf d before s f := by
  obtain ⟨rfl, hnext, hlasts⟩ := h
  have hopened := isOf_opened (d := d) before s
  have hframe : (reached d before).frameFor s =
      .opened s ((reached d before).library.getD s.address) := by
    rw [frameFor, List.getElem?_eq_none hnext.le]
    rfl
  obtain ⟨g, hg, hsame⟩ := exists_frame_of_lasts (getElem?_trace_self hnext.ge) hlasts
  rw [hframe] at hsame
  refine ⟨g, ?_, hopened.of_sameOrigin ((Frame.sameOrigin_advance _ d s).trans hsame)⟩
  rw [reached, run_append, run_cons]
  exact hg

/-- **Every frame was opened by a step.** -/
theorem exists_opens {steps : List Step}
    (hf : k < (reached d steps).frames.length) :
    ∃ before s after, steps = before ++ s :: after ∧ Opens d k before s after := by
  -- on the steps from the last one back: it opened the frame, or the frame was there before
  induction steps using List.reverseRecOn with
  | nil => exact absurd hf (Nat.not_lt_zero _)
  | append_singleton steps s ih =>
    by_cases hk : k < (reached d steps).frames.length
    · obtain ⟨before, opener, after, rfl, hopens⟩ := ih hk
      refine ⟨before, opener, after ++ [s], by simp, hopens.depth, hopens.next, ?_⟩
      refine lasts_append.2 ⟨hopens.lasts, ?_, trivial⟩
      rw [reached_concat, reached, run_append, run_cons] at hf
      exact hf
    · rw [reached_concat] at hf
      have hplaced := lt_length_trace_iff.1 hf
      exact ⟨steps, s, [], rfl, by omega, by omega, trivial⟩

/-! ## What a frame has saved -/

/--
The last step of a frame's depth. The frame has saved its stack and its memory if it was one that
opens frames.
-/
theorem exists_last_step {steps : List Step}
    (hf : (reached d steps).frames[k]? = some f) :
    ∃ before s after, steps = before ++ s :: after ∧ s.depth = k ∧ (∀ t ∈ after, k < t.depth) ∧
      (Opcode.opensFrame s.opcode = true → f.stack = s.stack ∧ f.memory = s.memory) := by
  induction steps using List.reverseRecOn generalizing f with
  | nil => cases hf
  | append_singleton steps s ih =>
    rw [reached_concat] at hf
    have hplaced := lt_length_trace_iff.1 (List.getElem?_eq_some_iff.1 hf).1
    -- no frame is left above that of the last step
    rcases Nat.lt_or_eq_of_le hplaced.1 with hlt | rfl
    · rw [getElem?_trace_of_lt hlt] at hf
      obtain ⟨before, last, after, rfl, hdepth, hafter, hsaved⟩ := ih hf
      refine ⟨before, last, after ++ [s], by simp, hdepth, fun t ht => ?_, hsaved⟩
      rcases List.mem_append.1 ht with ht | ht
      · exact hafter t ht
      · obtain rfl := List.mem_singleton.1 ht
        exact hlt
    · refine ⟨steps, s, [], rfl, rfl, by simp, fun hop => ?_⟩
      rw [getElem?_trace_self (by omega)] at hf
      obtain rfl := Option.some.inj hf
      have hagrees := ((reached d steps).frameFor s).agrees_advance d s
      rw [hagrees.stack, hagrees.memory, Frame.save, if_pos hop]
      exact ⟨rfl, rfl⟩

/-- The depth of a step is greater than that of the step before only if that one opens frames. -/
def RisesAtCalls (steps : List Step) : Prop :=
  steps.IsChain fun s t => s.depth < t.depth → Opcode.opensFrame s.opcode = true

/-- Below the topmost frame, every one has saved what it had at the last step of its depth. -/
theorem saved_of_risesAtCalls {steps : List Step} (hrises : RisesAtCalls steps)
    (hf : (reached d steps).frames[k]? = some f)
    (hbelow : k + 1 < (reached d steps).frames.length) :
    ∃ before s after, steps = before ++ s :: after ∧ s.depth = k ∧ (∀ t ∈ after, t.depth ≠ k) ∧
      f.stack = s.stack ∧ f.memory = s.memory := by
  obtain ⟨before, s, after, rfl, hdepth, hafter, hsaved⟩ := exists_last_step hf
  refine ⟨before, s, after, rfl, hdepth, fun t ht => (hafter t ht).ne', hsaved ?_⟩
  cases after with
  | nil =>
    -- the frame of the last step is the topmost one
    exfalso
    rw [reached_concat] at hbelow
    have hplaced := lt_length_trace_iff.1 hbelow
    omega
  | cons next rest =>
    have hchain := List.isChain_append.1 hrises
    have hpair := (List.isChain_cons_cons.1 hchain.2.1).1
    exact hpair (hdepth ▸ hafter next List.mem_cons_self)

/-! ## Runs -/

/--
**Frames follow the depths of the steps.** A step of depth `k` leaves `k + 1` frames if there were
at least `k`, and is left out otherwise; it never touches the frames below `k`. Every frame was
opened by a step, and as long as it lasts it has from that step its account, its input and whether
it creates a contract. Its code is that of the account which the step before delegates to, if that
is a delegate call in a frame of its own with two words on its stack, and that of its account
otherwise. If depths grow only after instructions that open frames, every frame below the topmost
one has saved stack and memory of the last step of its depth.
-/
theorem frames_follow_depths (d : Deployments) (steps : List Step) :
    (∀ before s after, steps = before ++ s :: after →
      let c := reached d before
      (s.depth ≤ c.frames.length → (c.trace d s).1.frames.length = s.depth + 1) ∧
      (c.frames.length < s.depth →
        (c.trace d s).1.frames = c.frames ∧ (c.trace d s).2 = none) ∧
      ∀ k < s.depth, (c.trace d s).1.frames[k]? = c.frames[k]?) ∧
    (∀ k < (reached d steps).frames.length,
      ∃ before s after, steps = before ++ s :: after ∧ Opens d k before s after) ∧
    (∀ k before s after, steps = before ++ s :: after → Opens d k before s after →
      ∃ f, (reached d steps).frames[k]? = some f ∧ IsOf d before s f) ∧
    (RisesAtCalls steps → ∀ k f, (reached d steps).frames[k]? = some f →
      k + 1 < (reached d steps).frames.length →
      ∃ before s after, steps = before ++ s :: after ∧ s.depth = k ∧ (∀ t ∈ after, t.depth ≠ k) ∧
        f.stack = s.stack ∧ f.memory = s.memory) := by
  refine ⟨?_, fun k hk => exists_opens hk, ?_, ?_⟩
  · intro before s after hsteps c
    refine ⟨length_trace, fun hlt => ?_, fun k hk => getElem?_trace_of_lt hk⟩
    rw [trace_of_lt hlt]
    exact ⟨rfl, rfl⟩
  · rintro k before s after rfl hopens
    exact isOf_of_opens hopens
  · intro hrises k f hf hbelow
    exact saved_of_risesAtCalls hrises hf hbelow

/-- A delegate call, a step of the library's code, and a step whose depth leaves out a frame. -/
theorem frames_follow_depths_delegate :
    let step (opcode : UInt8) (depth : Fin 4) (stack : List Word) : Step :=
      { pc := 0, opcode, depth, depth_lt := depth.2.trans (by decide), address := 1,
        creation := false, stack, memory := [7], input := [] }
    let call := step 0xF4 0 [9, 0xAB, 0xFFFF]
    let inside := step 0x5B 1 []
    let lost := step 0x5B 3 []
    let steps := [call, inside, lost]
    let after := reached {} steps
    RisesAtCalls [call, inside] ∧ after.frames.length = 2 ∧
      Opens {} 1 [call] inside [lost] ∧ DelegatesTo {} [call] 0xAB ∧
      (∃ f, after.frames[1]? = some f ∧ f.codeAddress = 0xAB ∧ f.address = 1) ∧
      ∃ f, (reached {} [call, inside]).frames[0]? = some f ∧ f.stack = call.stack := by
  intro step call inside lost steps after
  have hrises : RisesAtCalls [call, inside] := by
    simp only [RisesAtCalls, List.isChain_cons_cons, List.isChain_singleton, and_true]
    decide
  have hopens : Opens {} 1 [call] inside [lost] := ⟨rfl, rfl, by decide, trivial⟩
  have hdelegates : DelegatesTo {} [call] 0xAB :=
    ⟨[], call, [9], 0xAB, 0xFFFF, rfl, Nat.le_refl 0, rfl, rfl, rfl⟩
  obtain ⟨-, -, hframes, -⟩ := frames_follow_depths {} steps
  obtain ⟨f, hf, hof⟩ := hframes 1 [call] inside [lost] rfl hopens
  obtain ⟨-, -, -, hsaved⟩ := frames_follow_depths {} [call, inside]
  refine ⟨hrises, rfl, hopens, hdelegates, ⟨f, hf, hof.delegated _ hdelegates, hof.address⟩, ?_⟩
  obtain ⟨before, s, rest, hsteps, hs, -, hstack, -⟩ := hsaved hrises 0 _ rfl (by decide)
  refine ⟨_, rfl, hstack.trans ?_⟩
  -- the call is the only step of depth zero
  have hmem : s ∈ [call, inside] := by rw [hsteps]; simp
  rcases List.mem_cons.1 hmem with rfl | hmem
  · rfl
  · obtain rfl := List.mem_singleton.1 hmem
    cases hs

end CallStack

end Solscope
