import Mathlib.Data.List.Induction
import Solscope.Run.Stepper

/-!
# Stepping from line to line

A stepper comes to instructions one after the other, each inside some number of calls. It only
pauses where the line changes. Until the first pause the mode it starts with decides where,
afterwards the breakpoints do.

* `check_cases`: what coming to an instruction does.
* `run_previous`, `run_breakpoints`: the remembered line is the last one, the breakpoints stay.
* `run_mode_of_noHit`, `run_mode_of_hit`: the mode is kept up to the first pause.
* `check_run`: **where a run pauses**, told from the mode and the line it starts with.
-/

namespace Solscope

/-- The line of an instruction: the path of the source file and the number. -/
def Mapping.line? (m : Mapping) : Option (String × Nat) :=
  m.span.map fun span => (span.path, span.start.line)

/-- What holds of every item of a list and the items before it. -/
def AtEach {α : Type} (P : List α → α → Prop) (xs : List α) : Prop :=
  ∀ before x after, xs = before ++ x :: after → P before x

theorem atEach_nil {α : Type} (P : List α → α → Prop) : AtEach P [] := by
  intro before x after h
  cases before <;> cases h

theorem atEach_cons {α : Type} {P : List α → α → Prop} {x : α} {xs : List α} :
    AtEach P (x :: xs) ↔ P [] x ∧ AtEach (fun before => P (x :: before)) xs := by
  constructor
  · intro h
    refine ⟨h [] x xs rfl, fun before y after hxs => ?_⟩
    exact h (x :: before) y after (by rw [hxs, List.cons_append])
  · rintro ⟨hx, hxs⟩ before y after h
    cases before with
    | nil =>
      obtain ⟨rfl, -⟩ := List.cons.inj h
      exact hx
    | cons z before =>
      obtain ⟨rfl, hrest⟩ := List.cons.inj h
      exact hxs before y after hrest

theorem atEach_concat {α : Type} {P : List α → α → Prop} {xs : List α} {x : α} :
    AtEach P (xs ++ [x]) ↔ AtEach P xs ∧ P xs x := by
  constructor
  · intro h
    refine ⟨fun before y after hxs => ?_, h xs x [] rfl⟩
    exact h before y (after ++ [x]) (by rw [hxs, List.append_assoc, List.cons_append])
  · rintro ⟨hxs, hx⟩ before y after h
    rcases List.eq_nil_or_concat after with rfl | ⟨after, z, rfl⟩
    · obtain ⟨rfl, hyx⟩ := List.append_inj' h rfl
      obtain rfl := (List.cons.inj hyx).1
      exact hx
    · rw [List.concat_eq_append, ← List.cons_append, ← List.append_assoc] at h
      exact hxs before y after (List.append_inj' h rfl).1

namespace Stepper

/-- An instruction that execution comes to and the number of calls it is inside of. -/
abbrev Visit := Mapping × Nat

variable {s : Stepper} {m : Mapping} {depth : Nat} {visits : List Visit}

/-! ## One instruction -/

/-- What coming to an instruction does: nothing unless it begins another line. -/
theorem check_cases (s : Stepper) (m : Mapping) (depth : Nat) :
    (m.line? = none ∨ m.line? = s.previous) ∧ s.check m depth = (s, none) ∨
      ∃ path line, m.line? = some (path, line) ∧ s.previous ≠ some (path, line) ∧
        (s.stopsAt path line depth = true ∧
            s.check m depth =
              ({ s with previous := some (path, line), mode := .running }, some ⟨line, path⟩) ∨
          s.stopsAt path line depth = false ∧
            s.check m depth = ({ s with previous := some (path, line) }, none)) := by
  cases hspan : m.span with
  | none => exact .inl ⟨.inl (by rw [Mapping.line?, hspan]; rfl), by rw [check, hspan]⟩
  | some span =>
    have hline : m.line? = some (span.path, span.start.line) := by
      rw [Mapping.line?, hspan]
      rfl
    by_cases hprevious : s.previous = some (span.path, span.start.line)
    · refine .inl ⟨.inr (hline.trans hprevious.symm), ?_⟩
      simp only [check, hspan]
      rw [if_pos hprevious]
    · refine .inr ⟨span.path, span.start.line, hline, hprevious, ?_⟩
      simp only [check, hspan]
      rw [if_neg hprevious]
      cases hstops : s.stopsAt span.path span.start.line depth with
      | true => exact .inl ⟨rfl, rfl⟩
      | false => exact .inr ⟨rfl, rfl⟩

theorem check_previous (s : Stepper) (m : Mapping) (depth : Nat) :
    (s.check m depth).1.previous = m.line?.or s.previous := by
  rcases check_cases s m depth with ⟨hline | hline, h⟩ | ⟨path, line, hline, -, ⟨-, h⟩ | ⟨-, h⟩⟩
  · rw [h, hline]
    rfl
  · rw [h, hline]
    cases s.previous <;> rfl
  · rw [h, hline]
    rfl
  · rw [h, hline]
    rfl

theorem check_mode_of_none (h : (s.check m depth).2 = none) :
    (s.check m depth).1.mode = s.mode := by
  rcases check_cases s m depth with ⟨-, heq⟩ | ⟨path, line, -, -, ⟨-, heq⟩ | ⟨-, heq⟩⟩
  · rw [heq]
  · rw [heq] at h
    cases h
  · rw [heq]

theorem check_mode_of_some {hit : Hit} (h : (s.check m depth).2 = some hit) :
    (s.check m depth).1.mode = .running := by
  rcases check_cases s m depth with ⟨-, heq⟩ | ⟨path, line, -, -, ⟨-, heq⟩ | ⟨-, heq⟩⟩
  · rw [heq] at h
    cases h
  · rw [heq]
  · rw [heq] at h
    cases h

/-- What a mode says of a line at which execution arrives inside `depth` calls. -/
def Stops (breakpoints : List Breakpoint) (hit : Hit) (depth : Nat) : StepMode → Prop
  | .running => ∃ b ∈ breakpoints, b.line = hit.line ∧
      (b.source = hit.source ∨ ∃ directory, hit.source = directory ++ "/" ++ b.source)
  | .into => True
  | .over limit => depth ≤ limit
  | .out limit => depth < limit

theorem stopsAt_iff (s : Stepper) (hit : Hit) (depth : Nat) :
    s.stopsAt hit.source hit.line depth = true ↔ Stops s.breakpoints hit depth s.mode := by
  unfold stopsAt Stops
  match s.mode with
  | .running =>
    simp only [List.any_eq_true, Breakpoint.covers, Bool.and_eq_true, decide_eq_true_eq,
      sourceMatches_iff]
  | .into => simp
  | .over limit => simp
  | .out limit => simp

/-- Execution pauses where the line changes and the mode says so. -/
theorem check_eq_some_iff {hit : Hit} :
    (s.check m depth).2 = some hit ↔
      m.line? = some (hit.source, hit.line) ∧ s.previous ≠ some (hit.source, hit.line) ∧
        Stops s.breakpoints hit depth s.mode := by
  rw [← stopsAt_iff]
  rcases check_cases s m depth with
    ⟨hline, heq⟩ | ⟨path, line, hline, hprevious, ⟨hstops, heq⟩ | ⟨hstops, heq⟩⟩
  · rw [heq]
    refine iff_of_false (by simp) ?_
    rintro ⟨hsome, hne, -⟩
    rcases hline with hnone | hsame
    · rw [hnone] at hsome
      cases hsome
    · exact hne (hsame.symm.trans hsome)
  · rw [heq, hline]
    constructor
    · intro h
      obtain rfl := Option.some.inj h
      exact ⟨rfl, hprevious, hstops⟩
    · rintro ⟨hhit, -, -⟩
      obtain ⟨rfl, rfl⟩ := Prod.mk.inj (Option.some.inj hhit)
      rfl
  · rw [heq, hline]
    refine iff_of_false (by simp) ?_
    rintro ⟨hhit, -, htrue⟩
    obtain ⟨rfl, rfl⟩ := Prod.mk.inj (Option.some.inj hhit)
    rw [hstops] at htrue
    cases htrue

/-! ## Runs -/

/-- The stepper after some instructions. -/
def run (s : Stepper) (visits : List Visit) : Stepper :=
  visits.foldl (fun s visit => (s.check visit.1 visit.2).1) s

/-- The pause at an instruction that comes after others. -/
def hitAfter (s : Stepper) (before : List Visit) (visit : Visit) : Option Hit :=
  ((s.run before).check visit.1 visit.2).2

/-- Whether none of some instructions makes execution pause. -/
def NoHit (s : Stepper) (visits : List Visit) : Prop :=
  AtEach (fun before visit => s.hitAfter before visit = none) visits

/-- The line after some instructions: that of the last one that has a line. -/
def lineAfter (previous : Option (String × Nat)) (visits : List Visit) : Option (String × Nat) :=
  visits.foldl (fun line visit => visit.1.line?.or line) previous

/-- An instruction that comes after others begins the line of `hit`, and `mode` says to pause. -/
structure Due (s : Stepper) (mode : StepMode) (before : List Visit) (visit : Visit) (hit : Hit) :
    Prop where
  line_eq : visit.1.line? = some (hit.source, hit.line)
  changed : lineAfter s.previous before ≠ some (hit.source, hit.line)
  stops : Stops s.breakpoints hit visit.2 mode

theorem run_concat (s : Stepper) (before : List Visit) (visit : Visit) :
    s.run (before ++ [visit]) = ((s.run before).check visit.1 visit.2).1 := by
  rw [run, List.foldl_append]
  rfl

theorem run_breakpoints (s : Stepper) (visits : List Visit) :
    (s.run visits).breakpoints = s.breakpoints := by
  induction visits using List.reverseRecOn with
  | nil => rfl
  | append_singleton before visit ih => rw [run_concat, check_breakpoints, ih]

theorem run_previous (s : Stepper) (visits : List Visit) :
    (s.run visits).previous = lineAfter s.previous visits := by
  induction visits using List.reverseRecOn with
  | nil => rfl
  | append_singleton before visit ih =>
    rw [run_concat, check_previous, ih, lineAfter, lineAfter, List.foldl_append]
    rfl

theorem run_mode_of_noHit (h : s.NoHit visits) : (s.run visits).mode = s.mode := by
  induction visits using List.reverseRecOn with
  | nil => rfl
  | append_singleton before visit ih =>
    obtain ⟨hbefore, hvisit⟩ := atEach_concat.1 h
    rw [run_concat, check_mode_of_none hvisit, ih hbefore]

theorem run_mode_of_hit (h : ¬ s.NoHit visits) : (s.run visits).mode = .running := by
  induction visits using List.reverseRecOn with
  | nil => exact absurd (atEach_nil _) h
  | append_singleton before visit ih =>
    rw [run_concat]
    cases hvisit : ((s.run before).check visit.1 visit.2).2 with
    | some hit => exact check_mode_of_some hvisit
    | none =>
      rw [check_mode_of_none hvisit]
      exact ih fun hbefore => h (atEach_concat.2 ⟨hbefore, hvisit⟩)

theorem hitAfter_eq_some_iff {before : List Visit} {visit : Visit} {hit : Hit} :
    s.hitAfter before visit = some hit ↔ s.Due (s.run before).mode before visit hit := by
  rw [hitAfter, check_eq_some_iff, run_previous, run_breakpoints]
  exact ⟨fun ⟨hline, hchanged, hstops⟩ => ⟨hline, hchanged, hstops⟩,
    fun h => ⟨h.line_eq, h.changed, h.stops⟩⟩

/-- Nothing pauses exactly if nothing is due in the mode of the start. -/
theorem noHit_iff :
    s.NoHit visits ↔
      AtEach (fun before visit => ∀ hit, ¬ s.Due s.mode before visit hit) visits := by
  induction visits using List.reverseRecOn with
  | nil => exact iff_of_true (atEach_nil _) (atEach_nil _)
  | append_singleton before visit ih =>
    rw [NoHit, atEach_concat, atEach_concat, ← NoHit, ← ih]
    refine and_congr_right fun hbefore => ?_
    rw [Option.eq_none_iff_forall_ne_some]
    refine forall_congr' fun hit => ?_
    rw [Ne, hitAfter_eq_some_iff, run_mode_of_noHit hbefore]

/--
**Where a run pauses.** Breakpoints never change. The mode is that of the start up to the first
pause and that of running to breakpoints afterwards, and in either the pauses are exactly at the
instructions that begin a line and are due by the mode. So the first pause is at the first
instruction that is due by the mode of the start.
-/
theorem check_run (s : Stepper) (before : List Visit) (visit : Visit) :
    (s.run before).breakpoints = s.breakpoints ∧
      (s.NoHit before → (s.run before).mode = s.mode ∧
        ∀ hit, s.hitAfter before visit = some hit ↔ s.Due s.mode before visit hit) ∧
      (¬ s.NoHit before → (s.run before).mode = .running ∧
        ∀ hit, s.hitAfter before visit = some hit ↔ s.Due .running before visit hit) ∧
      ∀ hit, s.NoHit before ∧ s.hitAfter before visit = some hit ↔
        s.Due s.mode before visit hit ∧
          ∀ earlier other later, before = earlier ++ other :: later →
            ∀ hit', ¬ s.Due s.mode earlier other hit' := by
  refine ⟨run_breakpoints s before, fun h => ?_, fun h => ?_, fun hit => ?_⟩
  · have hmode := run_mode_of_noHit h
    refine ⟨hmode, fun hit => ?_⟩
    rw [hitAfter_eq_some_iff, hmode]
  · have hmode := run_mode_of_hit h
    refine ⟨hmode, fun hit => ?_⟩
    rw [hitAfter_eq_some_iff, hmode]
  · rw [and_comm]
    constructor
    · rintro ⟨hvisit, hbefore⟩
      rw [hitAfter_eq_some_iff, run_mode_of_noHit hbefore] at hvisit
      exact ⟨hvisit, noHit_iff.1 hbefore⟩
    · rintro ⟨hvisit, hbefore⟩
      have hnone : s.NoHit before := noHit_iff.2 hbefore
      refine ⟨?_, hnone⟩
      rw [hitAfter_eq_some_iff, run_mode_of_noHit hnone]
      exact hvisit

/--
Stepping over a call from line 3 passes the breakpoint in line 7 by, which is inside the call, and
pauses in line 4. After that the breakpoint counts.
-/
theorem check_run_over :
    let s : Stepper := ⟨[⟨"a.sol", 7⟩], .over 1, some ("src/a.sol", 3)⟩
    let inLine (line : Nat) : Mapping :=
      ⟨0, some ⟨0, "src/a.sol", ⟨line, 0⟩, ⟨line, 5⟩, 0, 5⟩, .regular⟩
    s.NoHit [(inLine 7, 2)] ∧ s.hitAfter [(inLine 7, 2)] (inLine 4, 1) = some ⟨4, "src/a.sol"⟩ ∧
      s.hitAfter [(inLine 7, 2), (inLine 4, 1)] (inLine 7, 2) = some ⟨7, "src/a.sol"⟩ := by
  intro s inLine
  have hfirst : s.NoHit [(inLine 7, 2)] ∧
      s.hitAfter [(inLine 7, 2)] (inLine 4, 1) = some ⟨4, "src/a.sol"⟩ := by
    refine ((check_run s [(inLine 7, 2)] (inLine 4, 1)).2.2.2 ⟨4, "src/a.sol"⟩).2 ⟨?_, ?_⟩
    · exact ⟨rfl, by decide, Nat.le_refl 1⟩
    · intro earlier other later hbefore hit' hdue
      cases earlier with
      | nil =>
        obtain ⟨rfl, -⟩ := List.cons.inj hbefore
        have hdepth : 2 ≤ 1 := hdue.stops
        omega
      | cons _ earlier => cases earlier <;> cases (List.cons.inj hbefore).2
  refine ⟨hfirst.1, hfirst.2, ?_⟩
  have hhit : ¬ s.NoHit [(inLine 7, 2), (inLine 4, 1)] := by
    intro hnone
    have hpause : s.hitAfter [(inLine 7, 2)] (inLine 4, 1) = none :=
      hnone [(inLine 7, 2)] (inLine 4, 1) [] rfl
    rw [hfirst.2] at hpause
    cases hpause
  have hafter := (check_run s [(inLine 7, 2), (inLine 4, 1)] (inLine 7, 2)).2.2.1 hhit
  refine (hafter.2 ⟨7, "src/a.sol"⟩).2 ⟨rfl, by decide, ⟨"a.sol", 7⟩, by simp [s], rfl, .inr ?_⟩
  exact ⟨"src", rfl⟩

end Stepper

end Solscope
