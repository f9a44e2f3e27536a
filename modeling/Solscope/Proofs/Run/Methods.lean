import Solscope.Proofs.Run.Frames

/-!
# The methods of active calls

A call is entered where an instruction belongs to a function of the code that the frame runs, and it
stays a call of that function. The instruction that a step is reported at is that of the innermost
call of the topmost frame.

* `Frame.isFound_advance`, `CallStack.isFound_run`: **calls are of functions that were found in the
  code of their frame.**
* `CallStack.exists_of_trace_snd`: whose instruction a step is reported at.
-/

namespace Solscope

namespace Frame

variable {f : Frame} {d : Deployments} {p : Program} {code : KnownCode} {s : Step}
  {P : MethodId → Prop} {mapping m : Mapping} {span : Span} {height : Nat}

/-! ## What happens to the methods of calls -/

theorem methods_enter (h : ∀ c ∈ f.calls, P c.method) {id : MethodId} (hid : P id) (height : Nat) :
    ∀ c ∈ (f.enter p id height).calls, P c.method := by
  rcases f.calls_enter p id height with hkept | ⟨c, hcalls, rfl, -⟩
  · rwa [hkept]
  · rw [hcalls]
    exact List.forall_mem_cons.2 ⟨hid, h⟩

theorem methods_update (h : ∀ c ∈ f.calls, P c.method) (mapping : Mapping) (span : Span) :
    ∀ c ∈ (f.update p mapping span).calls, P c.method := by
  rcases f.calls_update p mapping span with
    ⟨-, hnil⟩ | ⟨top, top', outer, htop, hcalls, hmethod, -⟩
  · rw [hnil]
    simp
  · rw [htop] at h
    obtain ⟨hfirst, houter⟩ := List.forall_mem_cons.1 h
    rw [hcalls]
    exact List.forall_mem_cons.2 ⟨hmethod ▸ hfirst, houter⟩

theorem methods_leave (h : ∀ c ∈ f.calls, P c.method) (p : Program) :
    ∀ c ∈ (f.leave p).calls, P c.method := by
  rcases f.calls_leave p with hnil | ⟨top, caller, outer, htop, hcalls⟩
  · rw [hnil]
    simp
  · rw [htop] at h
    obtain ⟨hcaller, houter⟩ := List.forall_mem_cons.1 (List.forall_mem_cons.1 h).2
    rw [hcalls]
    exact List.forall_mem_cons.2 ⟨hcaller, houter⟩

/-- Functions are only entered if they are found in the code of the frame. -/
theorem methods_follow (h : ∀ c ∈ f.calls, P c.method)
    (hfound : ∀ extent id, code.program.methodAt? code.contract extent = some id → P id)
    (mapping : Mapping) (span : Span) (height : Nat) :
    ∀ c ∈ (f.follow code mapping span height).1.calls, P c.method := by
  refine follow_keeps (Q := fun calls => ∀ c ∈ calls, P c.method)
    (fun f extent id height hid hf => ?_) (fun f mapping span hf => ?_) (fun f hf => ?_) h mapping
    span height
  · exact methods_enter hf (hfound extent id hid) height
  · exact methods_update hf mapping span
  · exact methods_leave hf code.program

/-- A function belongs to an extent in the code at an address. -/
def Finds (d : Deployments) (a : Address) (creation : Bool) (id : MethodId) : Prop :=
  ∃ code extent, d.at? a creation = some code ∧
    code.program.methodAt? code.contract extent = some id

/-- The calls of a frame are calls of functions that were found in the code it runs. -/
def IsFound (d : Deployments) (f : Frame) : Prop :=
  ∀ c ∈ f.calls, Finds d f.codeAddress f.creation c.method

/-- **A step only enters functions of the code that its frame runs.** -/
theorem isFound_advance (h : f.IsFound d) (s : Step) : (f.advance d s).1.IsFound d := by
  have hsame := f.sameOrigin_advance d s
  have hsave : ∀ c ∈ (f.save s).calls, Finds d f.codeAddress f.creation c.method := by
    rw [calls_save]
    exact h
  unfold IsFound
  rw [hsame.codeAddress, hsame.creation]
  cases hcode : d.at? f.codeAddress f.creation with
  | none =>
    -- nothing happens in code that is not known
    have hadvance : (f.advance d s).1 = f.save s := by simp [advance, hcode]
    rw [hadvance]
    exact hsave
  | some code =>
    rw [advance_of_placeOf? hcode]
    split
    · exact methods_follow hsave (fun extent id hid => ⟨code, extent, hcode, hid⟩) _ _ _
    · exact hsave

/-! ## The instruction of the innermost call -/

theorem calls_arrive (hawaits : (f.arrive code mapping span height).isAwaiting = false) :
    (f.arrive code mapping span height).calls = [] ∨
      ∃ top outer, (f.arrive code mapping span height).calls = top :: outer ∧
        top.mapping = some mapping := by
  unfold arrive at hawaits ⊢
  split
  · rename_i hreceive
    rw [if_pos hreceive, hreceive] at hawaits
    cases hawaits
  · rcases calls_update (f.receive code span height) code.program mapping span with
      ⟨-, hnil⟩ | ⟨-, top, outer, -, hcalls, -, -, htop⟩
    · exact .inl hnil
    · exact .inr ⟨top, outer, hcalls, htop⟩

/-- The instruction that is reported is the one that is followed, of the innermost call. -/
theorem exists_of_follow_snd (h : (f.follow code mapping span height).2 = some m) :
    m = mapping ∧ ∃ top outer, (f.follow code mapping span height).1.calls = top :: outer ∧
      top.mapping = some mapping := by
  have hjump : mapping.jump ≠ .out := by
    intro hout
    simp only [follow, hout] at h
    cases h
  have hcalls : (f.follow code mapping span height).1.calls =
      (f.arrive code mapping span height).calls := by
    rw [follow_fst]
    cases hkind : mapping.jump with
    | into => rfl
    | out => exact absurd hkind hjump
    | regular => rfl
  have hactive : (f.follow code mapping span height).2 =
      if (f.arrive code mapping span height).isAwaiting then none
      else (f.arrive code mapping span height).calls.head?.bind (·.mapping) := by
    unfold follow arrive
    cases hkind : mapping.jump with
    | into => rfl
    | out => exact absurd hkind hjump
    | regular => rfl
  rw [hactive] at h
  cases hawaits : (f.arrive code mapping span height).isAwaiting with
  | true =>
    rw [hawaits] at h
    cases h
  | false =>
    rw [hawaits] at h
    rcases calls_arrive hawaits with hnil | ⟨top, outer, hcons, htop⟩
    · rw [hnil] at h
      cases h
    · rw [hcons] at h
      obtain rfl := Option.some.inj (htop.symm.trans h)
      exact ⟨rfl, top, outer, hcalls.trans hcons, htop⟩

theorem exists_of_advance_snd (h : (f.advance d s).2 = some m) :
    m.pc = s.pc ∧ ∃ top outer, (f.advance d s).1.calls = top :: outer ∧ top.mapping = some m := by
  cases hcode : d.at? f.codeAddress f.creation with
  | none =>
    have hadvance : f.advance d s = (f.save s, none) := by simp [advance, hcode]
    rw [hadvance] at h
    cases h
  | some code =>
    rw [advance_of_placeOf? hcode] at h ⊢
    cases hplace : code.placeOf? s.pc with
    | none =>
      rw [hplace] at h
      cases h
    | some place =>
      obtain ⟨mapping, span⟩ := place
      rw [hplace] at h
      obtain ⟨rfl, hcalls⟩ := exists_of_follow_snd h
      refine ⟨?_, hcalls⟩
      obtain ⟨found, hfound, hspan⟩ := Option.bind_eq_some_iff.1 hplace
      obtain ⟨_, -, hpair⟩ := Option.bind_eq_some_iff.1 hspan
      obtain ⟨rfl, -⟩ := Prod.mk.inj (Option.some.inj hpair)
      exact of_decide_eq_true (List.find?_some (p := fun m : Mapping => m.pc = s.pc) hfound)

end Frame

/-! ## Runs -/

namespace CallStack

variable {c : CallStack} {d : Deployments} {s : Step} {m : Mapping}

/-- **Calls are of functions that were found in the code of their frame**, after any steps. -/
theorem isFound_run (h : ∀ f ∈ c.frames, f.IsFound d) (steps : List Step) :
    ∀ f ∈ (c.run d steps).frames, f.IsFound d :=
  forall_frames_run (P := Frame.IsFound d) (fun _ _ _ hc => nomatch hc)
    (fun _ s hf => Frame.isFound_advance hf s) h steps

/-- A step is reported at its own instruction, which is that of the innermost call. -/
theorem exists_of_trace_snd (h : (c.trace d s).2 = some m) :
    m.pc = s.pc ∧ ∃ f top outer, (c.trace d s).1.frames.getLast? = some f ∧
      f.calls = top :: outer ∧ top.mapping = some m := by
  unfold trace at h ⊢
  cases hplace : c.place? s with
  | none =>
    rw [hplace] at h
    cases h
  | some place =>
    obtain ⟨below, f⟩ := place
    rw [hplace] at h
    obtain ⟨hpc, top, outer, hcalls, htop⟩ := Frame.exists_of_advance_snd h
    exact ⟨hpc, (f.advance d s).1, top, outer, by simp, hcalls, htop⟩

end CallStack

end Solscope
