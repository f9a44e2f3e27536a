import Solscope.Proofs.Pause.Active
import Solscope.Proofs.Storage.Failures

/-!
# The variables that a pause shows

What is told of the variables of a call depends on the settings, the hash inputs and the storage.
Variables that are not located in storage only depend on the limits of the settings. The state
variables are those of the frame: all of them, or none and the first reason that one gave.

* `Report.sameButStorage_vars`: reports with equal limits differ in variables located in storage.
* `Report.showsStorage`: the state variables that the calls of a frame show.
* `Report.storageOf_agrees`: **a storage that fails changes the frames that come across a failure.**
-/

namespace Solscope

/-! ## Arguments, results and local variables -/

/--
What two reports show of the same variables: where a variable is not located in storage, both show
the same under its name or both leave it out.
-/
inductive SameButStorage : List (Nat × Variable) → List ShownVariable → List ShownVariable → Prop
  | nil : SameButStorage [] [] []
  | same {base : Nat} {v : Variable} {rest : List (Nat × Variable)} {x : Option ShownVariable}
      {xs ys : List ShownVariable} :
      (∀ y ∈ x, y.name = v.name) → SameButStorage rest xs ys →
      SameButStorage ((base, v) :: rest) (x.toList ++ xs) (x.toList ++ ys)
  | storage {base : Nat} {v : Variable} {rest : List (Nat × Variable)} {x y : Option ShownVariable}
      {xs ys : List ShownVariable} :
      v.location = .storage → SameButStorage rest xs ys →
      SameButStorage ((base, v) :: rest) (x.toList ++ xs) (y.toList ++ ys)

theorem filterMap_cons_eq {α β : Type} (f : α → Option β) (x : α) (xs : List α) :
    (x :: xs).filterMap f = (f x).toList ++ xs.filterMap f := by
  rw [List.filterMap_cons]
  cases f x <;> rfl

theorem sameButStorage_filterMap {f g : Nat × Variable → Option ShownVariable}
    {vars : List (Nat × Variable)}
    (hname : ∀ x ∈ vars, ∀ y ∈ f x, y.name = x.2.name)
    (h : ∀ x ∈ vars, x.2.location ≠ .storage → f x = g x) :
    SameButStorage vars (vars.filterMap f) (vars.filterMap g) := by
  induction vars with
  | nil => exact .nil
  | cons x rest ih =>
    obtain ⟨hx, hrest⟩ := List.forall_mem_cons.1 h
    obtain ⟨hxname, hrestname⟩ := List.forall_mem_cons.1 hname
    rw [filterMap_cons_eq, filterMap_cons_eq]
    by_cases hstorage : x.2.location = .storage
    · exact .storage hstorage (ih hrestname hrest)
    · rw [← hx hstorage]
      exact .same hxname (ih hrestname hrest)

/-- Only variables located in storage are read from storage. -/
theorem Declared.readStack_of_ne_storage (types : Declared) (view : StackView)
    (storage : Option StorageView) (t : Ty) (index : Nat) {location : Location}
    (h : location ≠ .storage) :
    types.readStack { view with storage } t index location =
      types.readStack view t index location := by
  cases location with
  | storage => exact absurd rfl h
  | stack => rfl
  | memory => rfl
  | calldata => rfl

namespace Report

variable {r r' : Report}

theorem name_of_stackVariable? {types : Declared} {view : StackView} {base : Nat} {v : Variable}
    {x : ShownVariable} (h : stackVariable? types view base v = some x) : x.name = v.name := by
  obtain ⟨t, -, h⟩ := Option.bind_eq_some_iff.1 h
  obtain ⟨value, -, h⟩ := Option.bind_eq_some_iff.1 h
  obtain rfl := Option.some.inj h
  rfl

/-- **Reports with equal limits differ in variables located in storage only.** -/
theorem sameButStorage_vars (h : r.config.limits = r'.config.limits) (a : ActiveCall) :
    SameButStorage a.visible (r.shownCall a).vars (r'.shownCall a).vars := by
  have hview : r'.stackView a =
      { r.stackView a with storage := some (r'.storageView a.frame) } := by
    rw [stackView, frameView, ← h]
    rfl
  refine sameButStorage_filterMap (fun x _ y hy => name_of_stackVariable? hy) fun x _ hx => ?_
  unfold stackVariable?
  simp only [hview, Declared.readStack_of_ne_storage _ _ _ _ _ hx]

/-! ## State variables -/

/-- The state variables of the contract that code belongs to. -/
def layoutOf (code : KnownCode) : List Variable :=
  ((code.program.contract? code.contract).map (·.layout)).getD []

/-- What reading a state variable of a frame gives: nothing for one without a type or a place. -/
def readState (r : Report) (f : Frame) (code : KnownCode) (v : Variable) :
    Except ReadError (Option ShownVariable) :=
  stateVariable code.program.types (r.storageView f) v

/-- What a call in a frame shows of state variables, given how these are read. -/
structure ShowsStorage (r : Report) (f : Frame) (code : KnownCode) (shown : ShownCall) : Prop where
  /-- Nothing if the settings say so. -/
  hidden : r.config.showStorage = false → shown.storage = [] ∧ shown.error = none
  /-- Nothing but a reason if a variable cannot be read. -/
  failed : r.config.showStorage = true →
    ∀ v ∈ layoutOf code, ∀ e, r.readState f code v = .error e →
      shown.storage = [] ∧
        ∃ first reason, FirstFailure (r.readState f code) (layoutOf code) first ∧
          first.message? = some reason ∧ shown.error = some reason
  /-- All of them in order if they can be read. -/
  read : r.config.showStorage = true →
    ∀ values, List.Forall₂ (fun v x => r.readState f code v = .ok x) (layoutOf code) values →
      shown.storage = values.filterMap id ∧ shown.error = none

theorem stateVariables_eq_mapM (r : Report) (f : Frame) (code : KnownCode) :
    r.stateVariables f code =
      ((layoutOf code).mapM (r.readState f code)).map fun values => values.filterMap id := by
  unfold stateVariables layoutOf
  cases code.program.contract? code.contract <;> rfl

/-- What the calls of a frame show if there is a first failure. -/
theorem storageOf_of_firstFailure (hshow : r.config.showStorage = true) {f : Frame}
    {code : KnownCode} {e : ReadError}
    (h : FirstFailure (r.readState f code) (layoutOf code) e) :
    r.storageOf f code = ([], e.message?) := by
  rw [storageOf, if_pos hshow, stateVariables_eq_mapM, mapM_eq_error_iff.2 h]
  rfl

/-- The calls of a frame show state variables as the settings say, unless reading these overflows. -/
theorem showsStorage (r : Report) (a : ActiveCall)
    (h : r.config.showStorage = true →
      ¬ FirstFailure (r.readState a.frame a.code) (layoutOf a.code) .overflow) :
    r.ShowsStorage a.frame a.code (r.shownCall a) where
  hidden hshow := by
    have hstorage : r.storageOf a.frame a.code = ([], none) := by
      rw [storageOf, hshow]
      rfl
    exact ⟨congrArg Prod.fst hstorage, congrArg Prod.snd hstorage⟩
  failed hshow v hv e he := by
    obtain ⟨first, hfirst⟩ := exists_firstFailure hv he
    have hstorage := storageOf_of_firstFailure hshow hfirst
    have hreason : ∃ reason, first.message? = some reason := by
      cases first with
      | overflow => exact absurd hfirst (h hshow)
      | _ => exact ⟨_, rfl⟩
    obtain ⟨reason, hreason⟩ := hreason
    exact ⟨congrArg Prod.fst hstorage, first, reason, hfirst, hreason,
      (congrArg Prod.snd hstorage).trans hreason⟩
  read hshow values hvalues := by
    have hstorage : r.storageOf a.frame a.code = (values.filterMap id, none) := by
      rw [storageOf, if_pos hshow, stateVariables_eq_mapM, mapM_of_forall₂ hvalues]
      rfl
    exact ⟨congrArg Prod.fst hstorage, congrArg Prod.snd hstorage⟩

theorem readState_agrees {F : StorageError → Prop} {storage' : Storage}
    (h : FailsOnly F r.storage storage') (f : Frame) (code : KnownCode) (v : Variable) :
    AgreesUnless F (r.readState f code v)
      (readState { r with storage := storage' } f code v) := by
  unfold readState stateVariable
  split
  · have hview : FailsOnly F (r.storageView f).storage storage' := h
    exact (Declared.readStorage_agrees hview _ _).bind fun _ => .refl _
  · exact .refl _

/-- **A storage that fails changes only the frames whose own variables come across a failure.** -/
theorem storageOf_agrees {F : StorageError → Prop} {storage' : Storage}
    (h : FailsOnly F r.storage storage') (f : Frame) (code : KnownCode) :
    r.storageOf f code = storageOf { r with storage := storage' } f code ∨
      ∃ e, F e ∧ FirstFailure (r.readState f code) (layoutOf code) (.storage e) := by
  have hagrees : AgreesUnless F ((layoutOf code).mapM (r.readState f code))
      ((layoutOf code).mapM (readState { r with storage := storage' } f code)) :=
    AgreesUnless.mapM fun v _ => readState_agrees h f code v
  rcases hagrees with heq | ⟨e, he, herror⟩
  · refine .inl ?_
    unfold storageOf
    rw [stateVariables_eq_mapM, stateVariables_eq_mapM, heq]
  · exact .inr ⟨e, he, mapM_eq_error_iff.1 herror⟩

end Report

end Solscope
