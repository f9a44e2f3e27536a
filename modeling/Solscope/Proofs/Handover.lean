import Mathlib.Data.List.Nodup
import Solscope.Handover

/-!
# Commands reach the pause they are meant for

One machine and any number of clients share a handover. Each of them gets at it for one indivisible
access at a time, in any order; the machine only begins a suspend when the one before it has
returned. An `Exchange` is what they share together with all that has happened.

* `Access`, `Exchange.step`: what happens at one access.
* `Exchange.Reached`: the exchanges that some order of accesses leads to.
* `Exchange.stage_of_reached`: the machine runs, waits for a command, or has one that it has not
  seen yet.
* `Exchange.commands_delivered`: **no command is lost, doubled or delivered to another pause.**
-/

namespace Solscope

/-- One access to what machine and clients share. -/
inductive Access where
  /-- The machine begins a suspend. -/
  | suspend (notification : Notification)
  /-- The machine, inside a suspend, wakes up, with a reason or without. -/
  | wake
  /-- A client sends a command. -/
  | send (client : Nat) (command : Command)
  /-- A client asks for the state. -/
  | state (client : Nat)
  /-- A client asks whether the machine waits for a command. -/
  | isPaused (client : Nat)
  /-- A client that waits for a pause looks whether there is one. -/
  | look (client : Nat)

/-- What came of an access. -/
inductive Outcome where
  | suspended (notification : Notification)
  /-- The suspend returns a command, or goes on. -/
  | woken (command : Option Command)
  /-- The command is accepted unless there is an error. -/
  | sent (client : Nat) (command : Command) (error : Option Handover.Error)
  | state (client : Nat) (state : Execution)
  | isPaused (client : Nat) (answer : Bool)
  | looked (client : Nat) (pause : Option Notification)

/-- What an access does, and what comes of it. -/
def Handover.access (h : Handover) : Access → Handover × Outcome
  | .suspend notification => (h.suspend notification, .suspended notification)
  | .wake => (h.wake.1, .woken h.wake.2)
  | .send client command =>
    match h.send command with
    | .ok h => (h, .sent client command none)
    | .error e => (h, .sent client command (some e))
  | .state client => (h, .state client h.state)
  | .isPaused client => (h, .isPaused client h.isPaused)
  | .look client => (h, .looked client h.pause?)

/-! ## What has happened -/

/-- What the suspends that have begun show, the first one first. -/
def begunOf : (past : List Outcome) → List Notification
  | [] => []
  | .suspended notification :: past => begunOf past ++ [notification]
  | _ :: past => begunOf past

/-- The commands that were accepted, each with the number of suspends begun by then. -/
def acceptedOf : (past : List Outcome) → List (Nat × Command)
  | [] => []
  | .sent _ command none :: past => acceptedOf past ++ [((begunOf past).length, command)]
  | _ :: past => acceptedOf past

/-- The commands that suspends returned, each with the number of suspends begun by then. -/
def returnedOf : (past : List Outcome) → List (Nat × Command)
  | [] => []
  | .woken (some command) :: past => returnedOf past ++ [((begunOf past).length, command)]
  | _ :: past => returnedOf past

/-- What machine and clients share, and what came of all accesses so far. -/
structure Exchange where
  shared : Handover := {}
  /-- What came of the accesses, the last one first. -/
  past : List Outcome := []

namespace Exchange

/-- The exchange after another access. -/
def step (x : Exchange) (a : Access) : Exchange :=
  ⟨(x.shared.access a).1, (x.shared.access a).2 :: x.past⟩

/-- The exchange after some accesses. -/
def run (accesses : List Access) : Exchange := accesses.foldl step {}

/-- What the suspends that have begun show. -/
def begun (x : Exchange) : List Notification := begunOf x.past

/-- The commands that were accepted, each with the number of the suspend it was accepted in. -/
def accepted (x : Exchange) : List (Nat × Command) := acceptedOf x.past

/-- The commands that suspends returned, each with the number of the suspend. -/
def returned (x : Exchange) : List (Nat × Command) := returnedOf x.past

/-- The machine has begun a suspend that has not returned. -/
def IsInside (x : Exchange) : Prop := x.returned.length < x.begun.length

/-- A command has been accepted for the last suspend. -/
def IsAnswered (x : Exchange) : Prop := ∃ command, (x.begun.length, command) ∈ x.accepted

/-- The machine is inside a suspend that has no command yet. -/
def IsOpen (x : Exchange) : Prop := x.IsInside ∧ ¬ x.IsAnswered

/-- Whether an access can come next: the machine, one thread, does one thing after the other. -/
def Allows (x : Exchange) : Access → Prop
  | .suspend _ => ¬ x.IsInside
  | .wake => x.IsInside
  | .send .. | .state _ | .isPaused _ | .look _ => True

/-- The exchanges that some order of accesses leads to. -/
inductive Reached : Exchange → Prop where
  | start : Reached {}
  | step {x : Exchange} {a : Access} (hx : Reached x) (ha : x.Allows a) : Reached (x.step a)

variable {x : Exchange}

/-- How far machine and clients have come. -/
inductive Stage (x : Exchange) : Prop where
  /-- Every suspend has returned the command that was accepted for it. -/
  | running (hshared : x.shared = ⟨.running, none⟩) (hreturned : x.returned = x.accepted)
      (hbegun : x.begun.length = x.accepted.length)
  /-- The last suspend has no command yet. -/
  | waiting (n : Notification) (hshared : x.shared = ⟨.paused n, none⟩)
      (hlast : x.begun.getLast? = some n) (hreturned : x.returned = x.accepted)
      (hbegun : x.begun.length = x.accepted.length + 1)
  /-- The last suspend has a command and has not seen it. -/
  | answered (n : Notification) (c : Command) (hshared : x.shared = ⟨.paused n, some c⟩)
      (hlast : x.begun.getLast? = some n)
      (haccepted : x.accepted = x.returned ++ [(x.begun.length, c)])
      (hbegun : x.begun.length = x.accepted.length)

/-- The commands were accepted in the first suspend, the second one and so on. -/
def IsNumbered (x : Exchange) : Prop :=
  x.accepted.map Prod.fst = List.range' 1 x.accepted.length

/-! ## One access -/

/-- An access that nothing comes of changes nothing. -/
theorem Stage.of_same {y : Exchange} (hx : x.Stage) (hshared : y.shared = x.shared)
    (hbegun : y.begun = x.begun) (haccepted : y.accepted = x.accepted)
    (hreturned : y.returned = x.returned) : y.Stage := by
  cases hx with
  | running hs hr hb =>
    exact .running (hshared.trans hs) (by rw [hreturned, haccepted, hr])
      (by rw [hbegun, haccepted, hb])
  | waiting n hs hl hr hb =>
    exact .waiting n (hshared.trans hs) (by rw [hbegun, hl]) (by rw [hreturned, haccepted, hr])
      (by rw [hbegun, haccepted, hb])
  | answered n c hs hl ha hb =>
    exact .answered n c (hshared.trans hs) (by rw [hbegun, hl])
      (by rw [hreturned, haccepted, hbegun, ha]) (by rw [hbegun, haccepted, hb])

theorem Stage.suspend (hx : x.Stage) (h : ¬ x.IsInside) (n : Notification) :
    (x.step (.suspend n)).Stage := by
  cases hx with
  | running hshared hreturned hbegun =>
    refine .waiting n rfl List.getLast?_concat hreturned ?_
    show (x.begun ++ [n]).length = x.accepted.length + 1
    rw [List.length_append, hbegun, List.length_singleton]
  | waiting m hshared hlast hreturned hbegun =>
    exact absurd (by rw [IsInside, hreturned]; omega) h
  | answered m c hshared hlast haccepted hbegun =>
    have hlength := congrArg List.length haccepted
    rw [List.length_append, List.length_singleton] at hlength
    exact absurd (by rw [IsInside]; omega) h

theorem Stage.wake (hx : x.Stage) : (x.step .wake).Stage := by
  -- without a command the machine goes on waiting
  have hnone (h : x.shared.command = none) : (x.step .wake).Stage := by
    have hwake : x.shared.wake = (x.shared, none) := by rw [Handover.wake, h]
    have hreturned : (x.step .wake).returned = x.returned := by
      show returnedOf (.woken x.shared.wake.2 :: x.past) = _
      rw [hwake]
      rfl
    refine hx.of_same ?_ rfl rfl hreturned
    show x.shared.wake.1 = _
    rw [hwake]
  cases hx with
  | running hshared => exact hnone (by rw [hshared])
  | waiting n hshared => exact hnone (by rw [hshared])
  | answered n c hshared hlast haccepted hbegun =>
    have hwake : x.shared.wake = (⟨.running, none⟩, some c) := by rw [hshared]; rfl
    refine .running ?_ ?_ hbegun
    · show x.shared.wake.1 = _
      rw [hwake]
    · show returnedOf (.woken x.shared.wake.2 :: x.past) = x.accepted
      rw [hwake, haccepted]
      rfl

/-- A command that is sent is accepted by a waiting machine only. -/
theorem step_send (x : Exchange) (client : Nat) (c : Command) :
    (∃ n, x.shared = ⟨.paused n, none⟩ ∧
        x.step (.send client c) = ⟨⟨.paused n, some c⟩, .sent client c none :: x.past⟩) ∨
      ((∀ n, x.shared ≠ ⟨.paused n, none⟩) ∧
        ∃ e, x.step (.send client c) = ⟨x.shared, .sent client c (some e) :: x.past⟩) := by
  obtain ⟨⟨state, command⟩, past⟩ := x
  cases state with
  | running => exact .inr ⟨(fun n h => by cases h), .notPaused, rfl⟩
  | paused n =>
    cases command with
    | none => exact .inl ⟨n, rfl, rfl⟩
    | some d => exact .inr ⟨(fun n h => by cases h), .commandPending, rfl⟩

theorem Stage.send (hx : x.Stage) (client : Nat) (c : Command) :
    (x.step (.send client c)).Stage := by
  rcases x.step_send client c with ⟨n, hshared, hstep⟩ | ⟨-, e, hstep⟩
  · cases hx with
    | running hs => rw [hs] at hshared; cases hshared
    | waiting m hs hlast hreturned hbegun =>
      obtain rfl : m = n := by rw [hs] at hshared; cases hshared; rfl
      rw [hstep]
      refine .answered m c rfl hlast ?_ ?_
      · show x.accepted ++ [(x.begun.length, c)] = x.returned ++ [(x.begun.length, c)]
        rw [hreturned]
      · show x.begun.length = (x.accepted ++ [(x.begun.length, c)]).length
        rw [List.length_append, List.length_singleton, hbegun]
    | answered m d hs => rw [hs] at hshared; cases hshared
  · rw [hstep]
    exact hx.of_same rfl rfl rfl rfl

theorem Stage.step (hx : x.Stage) {a : Access} (ha : x.Allows a) : (x.step a).Stage := by
  cases a with
  | suspend n => exact hx.suspend ha n
  | wake => exact hx.wake
  | send client c => exact hx.send client c
  | state client | isPaused client | look client => exact hx.of_same rfl rfl rfl rfl

/-- The commands stay numbered: a command is accepted in the suspend after the last answered one. -/
theorem IsNumbered.step (h : x.IsNumbered) (hx : x.Stage) (a : Access) : (x.step a).IsNumbered := by
  cases a with
  | send client c =>
    rcases x.step_send client c with ⟨n, hshared, hstep⟩ | ⟨-, e, hstep⟩
    · have hbegun : x.begun.length = x.accepted.length + 1 := by
        cases hx with
        | running hs => rw [hs] at hshared; cases hshared
        | waiting m hs hlast hreturned hbegun => exact hbegun
        | answered m d hs => rw [hs] at hshared; cases hshared
      rw [hstep]
      show (x.accepted ++ [(x.begun.length, c)]).map Prod.fst =
        List.range' 1 (x.accepted ++ [(x.begun.length, c)]).length
      rw [List.length_append, List.length_singleton, List.map_append, h, List.range'_1_concat,
        hbegun, Nat.add_comm 1]
      rfl
    · rw [hstep]
      exact h
  | suspend n => exact h
  | wake => exact h
  | state client | isPaused client | look client => exact h

/-! ## All accesses so far -/

theorem stage_of_reached (hx : x.Reached) : x.Stage := by
  induction hx with
  | start => exact .running rfl rfl rfl
  | step hx ha ih => exact ih.step ha

theorem isNumbered_of_reached (hx : x.Reached) : x.IsNumbered := by
  induction hx with
  | start => rfl
  | step hx ha ih => exact ih.step (stage_of_reached hx) _

/-- While the machine runs, it is inside no suspend, and every command has been returned. -/
theorem not_isInside (hreturned : x.returned = x.accepted)
    (hbegun : x.begun.length = x.accepted.length) : ¬ x.IsInside := by
  rw [IsInside, hreturned, hbegun]
  exact Nat.lt_irrefl _

/-- A machine that waits for a command is inside a suspend that has none. -/
theorem isOpen_of_waiting (h : x.IsNumbered) (hreturned : x.returned = x.accepted)
    (hbegun : x.begun.length = x.accepted.length + 1) : x.IsOpen := by
  refine ⟨by rw [IsInside, hreturned]; omega, ?_⟩
  rintro ⟨c, hc⟩
  have hnumber : x.begun.length ∈ x.accepted.map Prod.fst := List.mem_map_of_mem hc
  rw [h, List.mem_range'_1] at hnumber
  omega

/-- A machine with a command is inside the suspend that the command was accepted in. -/
theorem isInside_of_answered {c : Command}
    (haccepted : x.accepted = x.returned ++ [(x.begun.length, c)])
    (hbegun : x.begun.length = x.accepted.length) :
    x.IsInside ∧ (x.begun.length, c) ∈ x.accepted := by
  have hlength := congrArg List.length haccepted
  rw [List.length_append, List.length_singleton] at hlength
  refine ⟨by rw [IsInside]; omega, ?_⟩
  rw [haccepted]
  exact List.mem_append_right _ (List.mem_singleton_self _)

/-- Every accepted command has been returned, or is yet to be by the suspend in progress. -/
theorem accepted_eq (hx : x.Reached) :
    x.accepted = x.returned ∨
      x.IsInside ∧ ∃ c, x.accepted = x.returned ++ [(x.begun.length, c)] := by
  cases stage_of_reached hx with
  | running hshared hreturned hbegun => exact .inl hreturned.symm
  | waiting n hshared hlast hreturned hbegun => exact .inl hreturned.symm
  | answered n c hshared hlast haccepted hbegun =>
    exact .inr ⟨(isInside_of_answered haccepted hbegun).1, c, haccepted⟩

/-- What is shared while the machine waits for a command, in terms of what has happened. -/
theorem shared_eq_waiting_iff (hx : x.Reached) (n : Notification) :
    x.shared = ⟨.paused n, none⟩ ↔ x.IsOpen ∧ x.begun.getLast? = some n := by
  have hnumbered := isNumbered_of_reached hx
  cases stage_of_reached hx with
  | running hshared hreturned hbegun =>
    have hopen : ¬ x.IsOpen := fun h => not_isInside hreturned hbegun h.1
    simp [hshared, hopen]
  | waiting m hshared hlast hreturned hbegun =>
    have hopen := isOpen_of_waiting hnumbered hreturned hbegun
    simp [hshared, hlast, hopen]
  | answered m c hshared hlast haccepted hbegun =>
    have hopen : ¬ x.IsOpen := fun h => h.2 ⟨c, (isInside_of_answered haccepted hbegun).2⟩
    simp [hshared, hopen]

/-- A waking machine finds the command that was accepted in the suspend it is inside of. -/
theorem wake_eq_some_iff (hx : x.Reached) (c : Command) :
    x.shared.wake.2 = some c ↔ x.IsInside ∧ (x.begun.length, c) ∈ x.accepted := by
  have hnumbered := isNumbered_of_reached hx
  cases stage_of_reached hx with
  | running hshared hreturned hbegun =>
    simp [hshared, Handover.wake, not_isInside hreturned hbegun]
  | waiting m hshared hlast hreturned hbegun =>
    have hopen := isOpen_of_waiting hnumbered hreturned hbegun
    have hc : (x.begun.length, c) ∉ x.accepted := fun hc => hopen.2 ⟨c, hc⟩
    simp [hshared, Handover.wake, hc]
  | answered m d hshared hlast haccepted hbegun =>
    obtain ⟨hinside, hd⟩ := isInside_of_answered haccepted hbegun
    -- numbers are not given twice, so there is no other command in this suspend
    have hsole (hc : (x.begun.length, c) ∈ x.accepted) : d = c := by
      have hnodup : (x.accepted.map Prod.fst).Nodup := by
        rw [hnumbered]
        exact List.nodup_range'
      exact congrArg Prod.snd (List.inj_on_of_nodup_map hnodup hd hc rfl)
    have hwake : x.shared.wake.2 = some d := by rw [hshared]; rfl
    rw [hwake, Option.some_inj]
    constructor
    · rintro rfl
      exact ⟨hinside, hd⟩
    · rintro ⟨-, hc⟩
      exact hsole hc

/-- The state says whether the machine is inside a suspend, and what that one shows. -/
theorem state_eq_paused_iff (hx : x.Reached) (n : Notification) :
    x.shared.state = .paused n ↔ x.IsInside ∧ x.begun.getLast? = some n := by
  have hnumbered := isNumbered_of_reached hx
  cases stage_of_reached hx with
  | running hshared hreturned hbegun =>
    simp [hshared, not_isInside hreturned hbegun]
  | waiting m hshared hlast hreturned hbegun =>
    simp [hshared, hlast, (isOpen_of_waiting hnumbered hreturned hbegun).1]
  | answered m c hshared hlast haccepted hbegun =>
    simp [hshared, hlast, (isInside_of_answered haccepted hbegun).1]

/-- A client that waits for a pause gets the one of a machine that waits for a command. -/
theorem pause?_eq_some_iff (hx : x.Reached) (n : Notification) :
    x.shared.pause? = some n ↔ x.IsOpen ∧ x.begun.getLast? = some n := by
  rw [← shared_eq_waiting_iff hx]
  obtain ⟨⟨state, command⟩, past⟩ := x
  cases state <;> cases command <;> simp [Handover.pause?]

/-- A send is accepted if the machine waits for a command, and otherwise changes nothing. -/
theorem send_spec (hx : x.Reached) (client : Nat) (c : Command) :
    (x.IsOpen → (x.step (.send client c)).accepted = x.accepted ++ [(x.begun.length, c)]) ∧
      (¬ x.IsOpen → (x.step (.send client c)).accepted = x.accepted ∧
        (x.step (.send client c)).shared = x.shared) := by
  rcases x.step_send client c with ⟨n, hshared, hstep⟩ | ⟨hshared, e, hstep⟩
  · have hopen : x.IsOpen := ((shared_eq_waiting_iff hx n).1 hshared).1
    refine ⟨fun _ => ?_, fun h => absurd hopen h⟩
    rw [hstep]
    rfl
  · refine ⟨fun hopen => ?_, fun _ => ?_⟩
    · -- a suspend is open only after it has begun, so there is a last one
      have hbegun : x.begun ≠ [] := List.ne_nil_of_length_pos (Nat.zero_lt_of_lt hopen.1)
      have hlast := List.getLast?_eq_some_getLast hbegun
      exact absurd ((shared_eq_waiting_iff hx _).2 ⟨hopen, hlast⟩) (hshared _)
    · rw [hstep]
      exact ⟨rfl, rfl⟩

/--
**Commands reach the pause they are meant for**, whatever the order of accesses. While the machine
runs no command is stored. A send is accepted just if the machine is inside a suspend that has no
command, and changes nothing otherwise. The first accepted command was accepted in the first
suspend, the second in the second and so on, and these suspends have returned them, except that the
suspend in progress may have to yet. A machine that wakes up returns a command just if one has been
accepted in the suspend it is inside of, and returns that one. What clients see of a pause is the
suspend in progress; waiting for a pause ends only while no command has been accepted for it.
-/
theorem commands_delivered (hx : x.Reached) :
    (x.shared.state = .running → x.shared.command = none) ∧
    (∀ client c,
      (x.IsOpen → (x.step (.send client c)).accepted = x.accepted ++ [(x.begun.length, c)]) ∧
      (¬ x.IsOpen → (x.step (.send client c)).accepted = x.accepted ∧
        (x.step (.send client c)).shared = x.shared)) ∧
    x.accepted.map Prod.fst = List.range' 1 x.accepted.length ∧
    (x.accepted = x.returned ∨
      x.IsInside ∧ ∃ c, x.accepted = x.returned ++ [(x.begun.length, c)]) ∧
    (∀ c, x.shared.wake.2 = some c ↔ x.IsInside ∧ (x.begun.length, c) ∈ x.accepted) ∧
    (∀ n, x.shared.state = .paused n ↔ x.IsInside ∧ x.begun.getLast? = some n) ∧
    (∀ n, x.shared.pause? = some n ↔ x.IsOpen ∧ x.begun.getLast? = some n) := by
  have hidle (h : x.shared.state = .running) : x.shared.command = none := by
    cases stage_of_reached hx with
    | running hshared => rw [hshared]
    | waiting n hshared => rw [hshared]
    | answered n c hshared => rw [hshared] at h; cases h
  exact ⟨hidle, send_spec hx, isNumbered_of_reached hx, accepted_eq hx, wake_eq_some_iff hx,
    state_eq_paused_iff hx, pause?_eq_some_iff hx⟩

/-- Two clients send a command in the same suspend; the first one counts, also for the machine. -/
theorem commands_delivered_race :
    let x := run [.suspend ⟨⟨3, "A.sol"⟩, []⟩, .send 0 .stepOver, .send 1 .resume, .wake,
      .suspend ⟨⟨4, "A.sol"⟩, []⟩, .send 1 .resume]
    x.Reached ∧ x.accepted = [(1, .stepOver), (2, .resume)] ∧ x.returned = [(1, .stepOver)] ∧
      x.shared.wake.2 = some .resume := by
  intro x
  have hx : x.Reached := by
    refine .step (.step (.step (.step (.step (.step .start ?_) ?_) ?_) ?_) ?_) ?_
    · exact Nat.lt_irrefl 0
    · trivial
    · trivial
    · exact Nat.zero_lt_one
    · exact Nat.lt_irrefl 1
    · trivial
  have hwake := (commands_delivered hx).2.2.2.2.1 .resume
  exact ⟨hx, rfl, rfl, hwake.2 ⟨Nat.lt_succ_self 1, List.mem_cons_of_mem _ List.mem_cons_self⟩⟩

end Exchange

end Solscope
