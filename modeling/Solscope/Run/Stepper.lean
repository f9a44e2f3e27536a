import Solscope.Pause.Notification

/-!
# Where to pause

Execution pauses only where the line changes: at a breakpoint, or where the last command says.

* `Stepper.check`: whether to pause at an instruction.
-/

namespace Solscope

/-- What execution runs to. -/
inductive StepMode where
  /-- The next breakpoint. -/
  | running
  /-- The next line. -/
  | into
  /-- The next line with no more than `depth` calls. -/
  | over (depth : Nat)
  /-- The next line with less than `depth` calls. -/
  | out (depth : Nat)
deriving DecidableEq, Repr

/-- Breakpoints, what execution runs to, and the line it was at last. -/
structure Stepper where
  /-- The breakpoints by source and line. -/
  breakpoints : List Breakpoint := []
  mode : StepMode := .running
  /-- The path and the number of the last line. -/
  previous : Option (String × Nat) := none
deriving DecidableEq, Repr

namespace Stepper

/-! ## Breakpoints -/

/-- Whether a breakpoint is set. -/
def isSet (s : Stepper) (b : Breakpoint) : Bool := b ∈ s.breakpoints

/-- Sets a breakpoint. -/
def add (s : Stepper) (b : Breakpoint) : Stepper :=
  { s with breakpoints := Ordered.insertKey b s.breakpoints }

/-- Removes a breakpoint. -/
def remove (s : Stepper) (b : Breakpoint) : Stepper :=
  { s with breakpoints := s.breakpoints.filter fun other => other ≠ b }

/-- Makes `lines` the only breakpoints of a source. -/
def replace (s : Stepper) (source : String) (lines : List Nat) : Stepper :=
  let others := s.breakpoints.filter fun b => b.source ≠ source
  lines.foldl (fun s line => s.add ⟨source, line⟩) { s with breakpoints := others }

/-- Removes all breakpoints. -/
def clear (s : Stepper) : Stepper := { s with breakpoints := [] }

theorem isSet_add {s : Stepper} {b b' : Breakpoint} :
    (s.add b).isSet b' = true ↔ b' = b ∨ s.isSet b' = true := by
  simp [isSet, add, Ordered.mem_insertKey]

theorem isSet_remove {s : Stepper} {b b' : Breakpoint} :
    (s.remove b).isSet b' = true ↔ s.isSet b' = true ∧ b' ≠ b := by
  simp [isSet, remove]

/-! ## Pausing -/

/-- Runs to the next breakpoint, from no line in particular. -/
def reset (s : Stepper) : Stepper := { s with mode := .running, previous := none }

/-- Whether to pause at a line that execution comes to inside `depth` calls. -/
def stopsAt (s : Stepper) (path : String) (line depth : Nat) : Bool :=
  match s.mode with
  | .running => s.breakpoints.any fun b => b.covers path line
  | .into => true
  | .over limit => depth ≤ limit
  | .out limit => depth < limit

/--
Comes to an instruction inside `depth` calls, and pauses there or not. A pause is only left for the
next breakpoint unless a command says otherwise.
-/
def check (s : Stepper) (m : Mapping) (depth : Nat) : Stepper × Option Hit :=
  match m.span with
  | none => (s, none)
  | some span =>
    let line := span.start.line
    if s.previous = some (span.path, line) then (s, none)
    else
      let moved := { s with previous := some (span.path, line) }
      if s.stopsAt span.path line depth then
        ({ moved with mode := .running }, some ⟨line, span.path⟩)
      else (moved, none)

theorem check_breakpoints (s : Stepper) (m : Mapping) (depth : Nat) :
    (s.check m depth).1.breakpoints = s.breakpoints := by
  unfold check
  split
  · rfl
  · dsimp only
    split
    · rfl
    · split <;> rfl

end Stepper

end Solscope
