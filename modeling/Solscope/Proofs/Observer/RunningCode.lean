import Solscope.Proofs.Observer.Nesting
import Solscope.Proofs.Run.Lifetime

/-!
# Whose code runs

The machine says with every instruction for which account its code acts and whose code it is. The
call stack does not ask: it works out whose code a frame runs from the instruction that opened it.

* `Machine.OpenedBy`: what a machine runs in a frame, by the instruction that opened it.
* `Machine.OpenedBy.getD_delegate?`: the call stack is right unless that is a `CALLCODE`.
* `Observer.topmost_code_address`: **the topmost frame acts for the right account**, and runs the
  right code except behind a `CALLCODE`, which it takes for a call of the account itself.
-/

namespace Solscope

namespace Opcode

/-- A call that runs another account's code on the caller's own account, as itself. -/
def callCode : UInt8 := 0xF2

/-- The calls of another account: `CALL` and `STATICCALL`. -/
def isPlainCall (op : UInt8) : Bool := op ∈ [0xF1, 0xFA]

/-- The creations: `CREATE` and `CREATE2`. -/
def isCreation (op : UInt8) : Bool := op ∈ [0xF0, 0xF5]

theorem ne_delegateCall_of_isPlainCall {op : UInt8} (h : isPlainCall op = true) :
    op ≠ delegateCall := by
  rintro rfl
  cases h

theorem ne_delegateCall_of_isCreation {op : UInt8} (h : isCreation op = true) :
    op ≠ delegateCall := by
  rintro rfl
  cases h

end Opcode

/-! ## What a machine runs -/

namespace Machine

/-- The account that a frame acts for and the account whose code it runs, by its opener. -/
inductive OpenedBy (m : Machine) : Option Machine → Prop
  /-- The outermost frame runs the code of its account. -/
  | outermost (hcode : m.codeAddress = none ∨ m.codeAddress = some m.address) : OpenedBy m none
  /-- A called account runs its own code. -/
  | called {call : Machine} (hop : Opcode.isPlainCall call.opcode = true)
      (hcode : m.codeAddress = some m.address) : OpenedBy m (some call)
  /-- The caller's account runs the code of the account that is named below the top of the stack. -/
  | onOwn {call : Machine} (hop : call.opcode = Opcode.callCode ∨ call.opcode = Opcode.delegateCall)
      (haddress : m.address = call.address) {rest : List Word} {word top : Word}
      (hstack : call.stack = rest ++ [word, top])
      (hcode : m.codeAddress = some (Address.ofWord word)) : OpenedBy m (some call)
  /-- A new account runs code that is no account's yet. -/
  | created {call : Machine} (hop : Opcode.isCreation call.opcode = true)
      (hcode : m.codeAddress = none) : OpenedBy m (some call)

variable {m call : Machine} {opener : Option Machine}

theorem delegate?_of_ne (h : m.opcode ≠ Opcode.delegateCall) : m.delegate? = none := by
  rw [Option.eq_none_iff_forall_ne_some]
  intro target htarget
  exact h (CallStack.libraryOf_eq_some_iff.1 htarget).1

theorem delegate?_of_eq (hop : m.opcode = Opcode.delegateCall) {rest : List Word} {word top : Word}
    (hstack : m.stack = rest ++ [word, top]) : m.delegate? = some (Address.ofWord word) :=
  CallStack.libraryOf_eq_some_iff.2 ⟨hop, rest, word, top, hstack, rfl⟩

/-- Unless a `CALLCODE` opened it, the opener of a frame says whose code runs. -/
theorem OpenedBy.getD_delegate? (h : m.OpenedBy opener)
    (hother : ∀ call, opener = some call → call.opcode ≠ Opcode.callCode) :
    (opener.bind delegate?).getD m.address = m.runningCode := by
  unfold runningCode
  cases h with
  | outermost hcode => rcases hcode with hcode | hcode <;> rw [hcode] <;> rfl
  | called hop hcode =>
    rw [Option.bind_some, delegate?_of_ne (Opcode.ne_delegateCall_of_isPlainCall hop), hcode]
    rfl
  | onOwn hop _ hstack hcode =>
    have hdelegate := hop.resolve_left (hother _ rfl)
    rw [Option.bind_some, delegate?_of_eq hdelegate hstack, hcode]
  | created hop hcode =>
    rw [Option.bind_some, delegate?_of_ne (Opcode.ne_delegateCall_of_isCreation hop), hcode]

/-- A machine runs a frame of its own as its opener says, and never changes accounts in it. -/
structure RunsIn (m : Machine) (a : Activation) : Prop where
  opened : m.OpenedBy a.opener
  same : ∀ earlier ∈ a.visited, earlier.address = m.address ∧ earlier.codeAddress = m.codeAddress

end Machine

/-- Whether an instruction that comes after some hooks runs as its frame was opened. -/
def StepRuns (before : List Hook) : Hook → Prop
  | .step _ m _ => ∀ a ∈ (activations before).head?, m.RunsIn a
  | .enter _ | .leave => True

/-- All instructions run as their frames were opened. -/
def RunsAsOpened (hooks : List Hook) : Prop := AtEach StepRuns hooks

/-! ## What the call stack makes of it -/

namespace Observer

variable {o : Observer} {hooks : List Hook}

/-- The topmost frame is what its first instruction and its opener make it. -/
theorem exists_topmost (hframes : o.frames = []) (hcalls : o.session.calls = {})
    {before : List Hook} {storage : Storage} {m : Machine} {answer : Command}
    (hnested : WellNested (before ++ [.step storage m answer]))
    (hsize : WithinSize (before ++ [.step storage m answer])) :
    ∃ a f, (activations before).head? = some a ∧
      (o.run (before ++ [.step storage m answer])).session.calls.frames.getLast? = some f ∧
      ∃ first ∈ m :: a.visited, (a.frameFrom first).SameOrigin f := by
  have hin := inStep_run hframes hcalls hnested hsize
  obtain ⟨-, hfollows⟩ := atEach_concat.1 hnested
  obtain ⟨a, outer, hrunning⟩ := List.exists_cons_of_ne_nil hfollows
  rw [activations_concat, hrunning, List.getLast?_concat] at hin
  obtain ⟨known, -, hknown, hcarries⟩ := hin.exists_known (List.cons_ne_nil _ _) rfl
  obtain ⟨f, others, ⟨first, hfirst, hsame⟩, -, rfl⟩ := List.forall₂_cons_left_iff.1 hcarries
  refine ⟨a, f, by rw [hrunning]; rfl, ?_, first, List.mem_of_getLast? hfirst, hsame⟩
  rw [hknown, List.reverse_cons, List.getLast?_concat]

/--
**The topmost frame acts for the right account, and runs the right code unless a `CALLCODE` opened
it.** The observer starts outside of all frames; frames are opened and closed like brackets, the
inner ones right after an instruction that opens frames, and run as it says. Then after every
instruction the topmost frame of the call stack acts for the account that the machine acts for. Its
code is that of the account whose code the machine runs, except in a frame that a `CALLCODE` opened:
there it is that of the caller, whatever account's code the machine runs.
-/
theorem topmost_code_address (hframes : o.frames = []) (hcalls : o.session.calls = {})
    (hnested : WellNested hooks) (hsize : WithinSize hooks) (hruns : RunsAsOpened hooks) :
    ∀ before storage m answer rest, hooks = before ++ .step storage m answer :: rest →
      ∃ a f, (activations before).head? = some a ∧
        (o.run (before ++ [.step storage m answer])).session.calls.frames.getLast? = some f ∧
        f.address = m.address ∧
        ((∀ call, a.opener = some call → call.opcode ≠ Opcode.callCode) →
          f.codeAddress = m.runningCode) ∧
        ∀ call, a.opener = some call → call.opcode = Opcode.callCode →
          f.codeAddress = call.address ∧
            ∃ rest word top, call.stack = rest ++ [word, top] ∧
              m.runningCode = Address.ofWord word := by
  intro before storage m answer rest hsplit
  have hfirstPart : hooks = (before ++ [.step storage m answer]) ++ rest := by
    rw [hsplit, List.append_assoc, List.singleton_append]
  have hnested' : WellNested (before ++ [.step storage m answer]) := by
    rw [hfirstPart] at hnested
    exact hnested.of_append
  have hsize' : WithinSize (before ++ [.step storage m answer]) := by
    intro first hfirst
    exact hsize first (hfirst.trans ⟨rest, hfirstPart.symm⟩)
  obtain ⟨a, f, ha, hf, first, hfirst, hsame⟩ :=
    exists_topmost hframes hcalls hnested' hsize'
  obtain ⟨hopened, hkept⟩ := hruns before _ rest hsplit a ha
  -- the first instruction ran for the same account
  have haddress : first.address = m.address := by
    rcases List.mem_cons.1 hfirst with rfl | hearlier
    · rfl
    · exact (hkept first hearlier).1
  have hcode : f.codeAddress = (a.opener.bind Machine.delegate?).getD m.address := by
    rw [hsame.codeAddress, ← haddress]
    rfl
  refine ⟨a, f, ha, hf, hsame.address.trans haddress, fun hother => ?_, fun call hcall hop => ?_⟩
  · rw [hcode]
    exact hopened.getD_delegate? hother
  · have hne : call.opcode ≠ Opcode.delegateCall := by
      rw [hop]
      decide
    rw [hcode, hcall, Option.bind_some, Machine.delegate?_of_ne hne, Option.getD_none]
    rw [hcall] at hopened
    cases hopened with
    | called hplain => rw [hop] at hplain; cases hplain
    | onOwn _ haccount hstack hrunning =>
      refine ⟨haccount, _, _, _, hstack, ?_⟩
      rw [Machine.runningCode, hrunning]
      rfl
    | created hcreation => rw [hop] at hcreation; cases hcreation

/-- A `CALLCODE` runs the code of `0xAA` for `0x11`. The call stack takes it for code of `0x11`. -/
theorem topmost_code_address_callCode :
    let storage : Storage := fun _ _ => .ok 0
    let call : Machine :=
      { code := [0xF2, 0x00], pc := 0, stack := [0, 0xAA, 0xFFFF], memory := [], address := 0x11
        codeAddress := none, input := .own [], sharedMemory := [] }
    let inside : Machine :=
      { call with code := [0x5B, 0x00], stack := [], codeAddress := some 0xAA }
    let before : List Hook := [.enter false, .step storage call .resume, .enter false]
    let hooks := before ++ [.step storage inside .resume]
    WellNested hooks ∧ WithinSize hooks ∧ RunsAsOpened hooks ∧ inside.runningCode = 0xAA ∧
      ∃ f, (({} : Observer).run
          (before ++ [.step storage inside .resume])).session.calls.frames.getLast? = some f ∧
        f.address = inside.address ∧ f.codeAddress = 0x11 := by
  intro storage call inside before hooks
  have hop : call.opcode = Opcode.callCode := by decide +kernel
  have hnested : WellNested hooks := by
    simp only [WellNested, hooks, before, List.cons_append, List.nil_append, atEach_cons]
    exact ⟨.inl rfl, List.cons_ne_nil _ _, .inr rfl, List.cons_ne_nil _ _, atEach_nil _⟩
  have hsize : WithinSize hooks := withinSize_of_length_le (by decide)
  have hruns : RunsAsOpened hooks := by
    simp only [RunsAsOpened, hooks, before, List.cons_append, List.nil_append, atEach_cons]
    refine ⟨trivial, ?_, trivial, ?_, atEach_nil _⟩
    · intro a ha
      obtain rfl := Option.some.inj ha
      exact ⟨.outermost (.inl rfl), fun earlier hearlier => absurd hearlier List.not_mem_nil⟩
    · intro a ha
      obtain rfl := Option.some.inj ha
      have hstack : call.stack = [0] ++ [0xAA, 0xFFFF] := rfl
      refine ⟨.onOwn (.inl hop) rfl hstack rfl, fun earlier hearlier => ?_⟩
      exact absurd hearlier List.not_mem_nil
  obtain ⟨a, f, ha, hf, haddress, -, hcallCode⟩ :=
    topmost_code_address (o := {}) rfl rfl hnested hsize hruns before storage inside .resume [] rfl
  obtain rfl := Option.some.inj ha
  obtain ⟨hcode, -⟩ := hcallCode call rfl hop
  exact ⟨hnested, hsize, hruns, rfl, f, hf, haddress, hcode⟩

end Observer

end Solscope
