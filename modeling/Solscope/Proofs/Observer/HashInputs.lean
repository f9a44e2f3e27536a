import Solscope.Proofs.Bytes
import Solscope.Proofs.Observer.Hooks
import Solscope.Proofs.Storage.Keys

/-!
# Recorded hash inputs

An observer remembers what the machine hashes in its frames, as long as that can be a key and the
slot of a mapping, and never forgets it.

* `Machine.Hashes`: what a machine hashes, told from its stack.
* `Machine.hashed?_eq_some_iff`: an instruction is found to hash just that.
* `Observer.handle_preimages`, `Observer.preimages_prefix_run`: what one hook adds to the record,
  and that none takes anything away.
* `Observer.exists_report_run`: what pauses report with.
* `StorageView.Considers`: how reading mappings takes hash inputs into account.
* `Observer.hash_inputs_recorded`: **the hash inputs of the machine are recorded**, and the keys
  among them are read from then on.
-/

namespace Solscope

/-! ## What a machine hashes -/

namespace Machine

/-- A byte of the memory, which zeros follow without end. -/
def byteAt (m : Machine) (i : Nat) : UInt8 := m.memory[i]?.getD 0

/--
A machine is about to hash `size` bytes of its memory from `offset` on, which stands on top of the
stack with the size below it. They are at least a word and not too many to be remembered.
-/
structure Hashes (m : Machine) (offset size : Nat) : Prop where
  opcode : m.opcode = Opcode.keccak
  operands : ∃ below z o, m.stack = below ++ [z, o] ∧ o.toNat = offset ∧ z.toNat = size
  offset_lt : offset < 2 ^ 64
  enough : 32 ≤ size
  fits : size ≤ 1024

/-- The hash input that an instruction has for the record. -/
def hashed? (m : Machine) : Option Bytes :=
  if Opcode.isHash m.opcode then Observer.hashInput? m.stack m.memory else none

variable {m : Machine} {offset size : Nat} {data : Bytes}

theorem Hashes.hashed?_eq (h : m.Hashes offset size) :
    m.hashed? = some (m.memory.paddedSlice offset size) := by
  obtain ⟨below, z, o, hstack, rfl, rfl⟩ := h.operands
  have hop : Opcode.isHash m.opcode = true := decide_eq_true h.opcode
  have hrange : o.toNat ≤ Size.largest ∧ 32 ≤ z.toNat ∧ z.toNat ≤ Observer.largestPreimage :=
    ⟨Nat.le_of_lt_succ h.offset_lt, h.enough, h.fits⟩
  rw [hashed?, if_pos hop, Observer.hashInput?, hstack, List.reverse_append]
  exact if_pos hrange

/-- An instruction has a hash input if it hashes memory, and then that memory. -/
theorem hashed?_eq_some_iff : m.hashed? = some data ↔
    ∃ offset size, m.Hashes offset size ∧ data = m.memory.paddedSlice offset size := by
  constructor
  · intro h
    rw [hashed?] at h
    split at h
    · rename_i hop
      rw [Observer.hashInput?] at h
      split at h
      · rename_i o z below hreverse
        have hstack : m.stack = below.reverse ++ [z, o] := by
          rw [← List.reverse_reverse m.stack, hreverse, List.reverse_cons, List.reverse_cons,
            List.append_assoc]
          rfl
        split at h
        · rename_i hrange
          exact ⟨o.toNat, z.toNat, ⟨of_decide_eq_true hop, ⟨_, _, _, hstack, rfl, rfl⟩,
            Nat.lt_succ_of_le hrange.1, hrange.2.1, hrange.2.2⟩, (Option.some.inj h).symm⟩
        · cases h
      · cases h
    · cases h
  · rintro ⟨offset, size, h, rfl⟩
    exact h.hashed?_eq

theorem hashed?_eq_none_iff : m.hashed? = none ↔ ∀ offset size, ¬ m.Hashes offset size := by
  rw [Option.eq_none_iff_forall_ne_some]
  constructor
  · intro h offset size hhashes
    exact h _ hhashes.hashed?_eq
  · intro h data hdata
    obtain ⟨offset, size, hhashes, -⟩ := hashed?_eq_some_iff.1 hdata
    exact h offset size hhashes

/-- What is hashed, byte for byte. -/
theorem eq_paddedSlice_of_bytes (hlength : data.length = size)
    (h : ∀ i < size, data[i]? = some (m.byteAt (offset + i))) :
    data = m.memory.paddedSlice offset size := by
  refine List.ext_getElem? fun i => ?_
  rw [Bytes.getElem?_paddedSlice]
  split
  · rename_i hi
    exact h i hi
  · rename_i hi
    exact List.getElem?_eq_none (by omega)

end Machine

/-! ## The record -/

/-- A hash input with its own hash. -/
def Preimage.ofData (data : Bytes) : Preimage := ⟨data, keccakWord data⟩

namespace Observer

variable {o : Observer} {f : OpenFrame} {outer : List OpenFrame} {m : Machine} {storage : Storage}
  {n : Notification}

/-- What an instruction in an open frame adds to the record. -/
theorem prepared_preimages (o : Observer) (f : OpenFrame) (m : Machine) :
    (o.prepared f m).preimages =
      o.session.preimages ++ (m.hashed?.map Preimage.ofData).toList := by
  rw [prepared_eq, recordHashInput, Machine.hashed?]
  split
  · cases hashInput? m.stack m.memory with
    | none => exact (List.append_nil _).symm
    | some data => rfl
  · exact (List.append_nil _).symm

/-- What a hook adds to the record. -/
def recorded (o : Observer) : Hook → Preimages
  | .step _ m _ => if o.frames = [] then [] else (m.hashed?.map Preimage.ofData).toList
  | .enter _ | .leave => []

theorem recorded_step (hframes : o.frames = f :: outer) (storage : Storage) (m : Machine)
    (answer : Command) :
    o.recorded (.step storage m answer) = (m.hashed?.map Preimage.ofData).toList := by
  rw [recorded, hframes]
  exact if_neg (List.cons_ne_nil f outer)

/-- A hook adds to the record, and does nothing else to it. -/
theorem handle_preimages (o : Observer) (hook : Hook) :
    (o.handle hook).session.preimages = o.session.preimages ++ o.recorded hook := by
  cases hook with
  | enter creation => exact (List.append_nil _).symm
  | leave =>
    have hleave : o.leave.session.preimages = o.session.preimages := by
      unfold leave
      dsimp only
      split <;> rfl
    rw [handle, hleave, recorded, List.append_nil]
  | step storage m answer =>
    cases hframes : o.frames with
    | nil =>
      have hstep : o.step storage m = (o, none) := by rw [Observer.step, hframes]
      rw [handle, hstep, recorded, if_pos hframes, List.append_nil]
      rfl
    | cons f outer =>
      have hstep : (o.step storage m).1.session.preimages = (o.prepared f m).preimages := by
        rw [step_eq hframes, Session.step_fst]
      rw [recorded_step hframes, ← prepared_preimages o f m, ← hstep, handle]
      -- a command that ends a pause only changes where execution stops
      split <;> rfl

/-- What is hashed is recorded with its hash. -/
theorem handle_hash {offset size : Nat} (hframes : o.frames ≠ []) (h : m.Hashes offset size)
    (storage : Storage) (answer : Command) :
    (o.handle (.step storage m answer)).session.preimages =
      o.session.preimages ++ [.ofData (m.memory.paddedSlice offset size)] := by
  rw [handle_preimages, recorded, if_neg hframes, h.hashed?_eq]
  rfl

/-- No other hook records anything. -/
theorem handle_no_hash {hook : Hook} (h : ∀ storage m answer, hook = .step storage m answer →
      o.frames ≠ [] → ∀ offset size, ¬ m.Hashes offset size) :
    (o.handle hook).session.preimages = o.session.preimages := by
  rw [handle_preimages, List.append_right_eq_self]
  cases hook with
  | enter creation => rfl
  | leave => rfl
  | step storage m answer =>
    rw [recorded]
    split
    · rfl
    · rename_i hframes
      rw [Machine.hashed?_eq_none_iff.2 (h storage m answer rfl hframes)]
      rfl

/-- Nothing is ever taken away from the record. -/
theorem preimages_prefix_run (o : Observer) (hooks : List Hook) :
    o.session.preimages <+: (o.run hooks).session.preimages := by
  induction hooks using List.reverseRecOn with
  | nil => exact List.prefix_refl _
  | append_singleton hooks hook ih =>
    rw [run_concat, handle_preimages]
    exact ih.trans (List.prefix_append _ _)

/-- A pause reports with what is on record after its instruction. -/
theorem exists_report (h : (o.step storage m).2 = some n) (answer : Command) :
    ∃ (r : Report) (hit : Hit) (frames : List Frame) (s : Step), n = r.notification hit frames s ∧
      r.preimages = (o.handle (.step storage m answer)).session.preimages := by
  cases hframes : o.frames with
  | nil =>
    rw [Observer.step, hframes] at h
    cases h
  | cons f outer =>
    rw [step_eq hframes] at h
    obtain ⟨_, hit, -, -, hn⟩ := Session.step_eq_some_iff.1 h
    refine ⟨_, hit, _, _, hn.symm, ?_⟩
    rw [handle_preimages, recorded_step hframes, ← prepared_preimages o f m]
    rfl

/-- Every pause from a hook on reports with what is on record after it. -/
theorem exists_report_run {hook : Hook} {rest between after : List Hook} {answer : Command}
    (hsplit : hook :: rest = between ++ .step storage m answer :: after)
    (h : ((o.run between).step storage m).2 = some n) :
    ∃ (r : Report) (hit : Hit) (frames : List Frame) (s : Step), n = r.notification hit frames s ∧
      (o.handle hook).session.preimages <+: r.preimages := by
  obtain ⟨r, hit, frames, s, hreport, hrecord⟩ := exists_report h answer
  refine ⟨r, hit, frames, s, hreport, ?_⟩
  rw [hrecord]
  cases between with
  | nil =>
    obtain ⟨rfl, -⟩ := List.cons.inj hsplit
    exact List.prefix_refl _
  | cons first between =>
    obtain ⟨rfl, -⟩ := List.cons.inj hsplit
    rw [handle_preimages (o.run _)]
    exact (preimages_prefix_run (o.handle hook) between).trans (List.prefix_append _ _)

end Observer

/-! ## Reading mappings -/

namespace StorageView

variable {limit : Nat} {label? : Preimage → Option String} {value : Word → Except ReadError Value}
  {ps : Preimages} {p : Preimage} {label : String}

/-- Labels that were found stay, and all others are, until there are too many. -/
theorem isSome_find?_entriesFrom {entries out : List (String × Value)}
    (h : entriesFrom limit label? value entries ps = .ok out) :
    ((Ordered.find? label entries).isSome = true → (Ordered.find? label out).isSome = true) ∧
      ((∃ p ∈ ps, label? p = some label) →
        (Ordered.find? label out).isSome = true ∨ limit ≤ out.length) := by
  induction ps generalizing entries with
  | nil =>
    obtain rfl := Except.ok.inj h
    refine ⟨id, ?_⟩
    rintro ⟨p, hp, -⟩
    exact absurd hp List.not_mem_nil
  | cons p rest ih =>
    rw [entriesFrom] at h
    split at h
    · rename_i hfull
      obtain rfl := Except.ok.inj h
      exact ⟨id, fun _ => .inr hfull⟩
    · cases hlabel : label? p with
      | none =>
        rw [hlabel] at h
        obtain ⟨hkeeps, hadds⟩ := ih h
        refine ⟨hkeeps, ?_⟩
        rintro ⟨q, hq, hfound⟩
        rcases List.mem_cons.1 hq with rfl | hq
        · rw [hlabel] at hfound
          cases hfound
        · exact hadds ⟨q, hq, hfound⟩
      | some own =>
        rw [hlabel] at h
        cases hv : value p.hash with
        | error e =>
          rw [hv] at h
          cases h
        | ok v =>
          rw [hv] at h
          obtain ⟨hkeeps, hadds⟩ := ih h
          rw [Ordered.find?_insert] at hkeeps
          constructor
          · intro hsome
            refine hkeeps ?_
            split
            · rfl
            · exact hsome
          · rintro ⟨q, hq, hfound⟩
            rcases List.mem_cons.1 hq with rfl | hq
            · rw [hlabel] at hfound
              refine .inl (hkeeps ?_)
              rw [if_pos (Option.some.inj hfound)]
              rfl
            · exact hadds ⟨q, hq, hfound⟩

/--
How reading mappings at a slot takes a hash input into account: it is one of those that the entries
of the mapping are collected from, and if it has a label, the entries have that as well, unless
there are as many as the limit allows.
-/
structure Considers (view : StorageView) (slot : Word) (e : Preimage) : Prop where
  candidate : ∀ (types : Declared) ofRef (c : SlotCursor) key value, c.align.slot = slot →
    ∃ candidates : Preimages, e ∈ candidates ∧
      types.readStorageWith view ofRef c (.mapping key value) =
        (entriesFrom view.limits.mapping (types.label? key slot)
          (fun hash => (types.readStorageWith view ofRef ⟨hash, 0⟩ value).map Prod.fst) []
          candidates).map fun entries => (.mapping entries, ⟨slot + 1, 0⟩)
  shown : ∀ (types : Declared) ofRef (c : SlotCursor) key value result, c.align.slot = slot →
    types.readStorageWith view ofRef c (.mapping key value) = .ok result →
    ∃ entries, result.1 = .mapping entries ∧ ∀ label, types.label? key slot e = some label →
      (Ordered.find? label entries).isSome = true ∨ view.limits.mapping ≤ entries.length

theorem considers_of_mem {view : StorageView} {slot : Word} {e : Preimage}
    (h : e ∈ view.preimages.withSuffix slot) : view.Considers slot e := by
  have hread : ∀ (types : Declared) ofRef (c : SlotCursor) key value, c.align.slot = slot →
      types.readStorageWith view ofRef c (.mapping key value) =
        (entriesFrom view.limits.mapping (types.label? key slot)
          (fun hash => (types.readStorageWith view ofRef ⟨hash, 0⟩ value).map Prod.fst) []
          (view.preimages.withSuffix slot)).map
            fun entries => (.mapping entries, ⟨slot + 1, 0⟩) := by
    intro types ofRef c key value hc
    have hstart : c.claimSlots (types.slots (.mapping key value)) = (⟨slot, 0⟩, ⟨slot + 1, 0⟩) := by
      rw [← hc]
      rfl
    rw [Declared.readStorageWith, hstart]
    dsimp only
    cases entriesFrom view.limits.mapping (types.label? key slot)
      (fun hash => (types.readStorageWith view ofRef ⟨hash, 0⟩ value).map Prod.fst) []
      (view.preimages.withSuffix slot) <;> rfl
  refine ⟨fun types ofRef c key value hc => ⟨_, h, hread types ofRef c key value hc⟩,
    fun types ofRef c key value result hc hresult => ?_⟩
  rw [hread types ofRef c key value hc] at hresult
  cases hentries : entriesFrom view.limits.mapping (types.label? key slot)
    (fun hash => (types.readStorageWith view ofRef ⟨hash, 0⟩ value).map Prod.fst) []
    (view.preimages.withSuffix slot) with
  | error e =>
    rw [hentries] at hresult
    cases hresult
  | ok entries =>
    rw [hentries] at hresult
    obtain rfl := Except.ok.inj hresult
    exact ⟨entries, rfl, fun label hlabel => (isSome_find?_entriesFrom hentries).2 ⟨e, h, hlabel⟩⟩

end StorageView

/-- The hash input of a key that is a word. -/
def Preimage.ofKey (key slot : Word) : Preimage := .ofData (key.toBytes ++ slot.toBytes)

theorem Preimage.key?_ofKey (key slot : Word) :
    (Preimage.ofKey key slot).key? slot = some key.toBytes := by
  have hkey := key.length_toBytes
  have hslot := slot.length_toBytes
  have hfront : (key.toBytes ++ slot.toBytes).length - 32 = key.toBytes.length := by
    rw [List.length_append]
    omega
  rw [Preimage.key?, ofKey, ofData]
  dsimp only
  rw [hfront, List.drop_left, List.take_left, if_pos ⟨by rw [List.length_append]; omega, rfl⟩]

/-- Where keys are values, such a hash input has the label of its key. -/
theorem Declared.label?_ofKey (types : Declared) {key : Ty} (hkey : key.isValue = true)
    (word slot : Word) :
    types.label? key slot (.ofKey word slot) = some (types.ofWord key word).text := by
  rw [label?, Preimage.key?_ofKey, Option.bind_some, keyText?_of_isValue hkey word.length_toBytes,
    Word.ofBytes_toBytes]

/-! ## Runs -/

namespace Observer

/--
**The hash inputs of the machine are recorded.** After any hooks, an instruction in an open frame
that hashes a word up to the largest input adds one entry to the record: the bytes of the memory,
which zeros follow without end, with their hash. No other hook adds anything, and whatever comes
later, even commands and the end of a transaction, changes no entry and takes none away. So a word
that is hashed together with a slot is among the candidates for the keys of the mappings at that
slot in every pause from then on, with the label of that word where the keys are values.
-/
theorem hash_inputs_recorded (o : Observer) (before rest : List Hook) (hook : Hook) :
    let now := o.run before
    let next := o.run (before ++ [hook])
    let later := o.run (before ++ hook :: rest)
    (∀ storage m answer offset size, hook = .step storage m answer → now.frames ≠ [] →
      m.Hashes offset size → ∃ data : Bytes,
        next.session.preimages = now.session.preimages ++ [⟨data, keccakWord data⟩] ∧
        data.length = size ∧ ∀ i < size, data[i]? = some (m.byteAt (offset + i))) ∧
    ((∀ storage m answer, hook = .step storage m answer → now.frames ≠ [] →
        ∀ offset size, ¬ m.Hashes offset size) →
      next.session.preimages = now.session.preimages) ∧
    next.session.preimages <+: later.session.preimages ∧
    (∀ c, (later.apply c).session.preimages = later.session.preimages) ∧
    later.session.endTransaction.preimages = later.session.preimages ∧
    ∀ storage m answer offset, hook = .step storage m answer → now.frames ≠ [] →
      m.Hashes offset 64 → ∀ word slot : Word,
      (∀ i < 64, (word.toBytes ++ slot.toBytes)[i]? = some (m.byteAt (offset + i))) →
        Preimage.ofKey word slot ∈ later.session.preimages.withSuffix slot ∧
        (∀ (types : Declared) (key : Ty), key.isValue = true →
          types.label? key slot (.ofKey word slot) = some (types.ofWord key word).text) ∧
        ∀ between storage' m' answer' after,
          hook :: rest = between ++ .step storage' m' answer' :: after →
          ∀ n, ((o.run (before ++ between)).step storage' m').2 = some n →
            ∃ (r : Report) (hit : Hit) (frames : List Frame) (s : Step),
              n = r.notification hit frames s ∧
              ∀ f : Frame, (r.storageView f).Considers slot (.ofKey word slot) := by
  intro now next later
  have hnext : next = now.handle hook := run_concat o before hook
  have hkept : next.session.preimages <+: later.session.preimages := by
    have hsplit : later = next.run rest := by
      rw [← run_append, List.append_assoc, List.singleton_append]
    rw [hsplit]
    exact preimages_prefix_run next rest
  refine ⟨?_, ?_, hkept, fun c => rfl, rfl, ?_⟩
  · rintro storage m answer offset size rfl hframes hhashes
    rw [hnext]
    refine ⟨_, handle_hash hframes hhashes storage answer, Bytes.length_paddedSlice ..,
      fun i hi => ?_⟩
    rw [Bytes.getElem?_paddedSlice, if_pos hi, Machine.byteAt]
  · intro hother
    rw [hnext]
    exact handle_no_hash hother
  · rintro storage m answer offset rfl hframes hhashes word slot hbytes
    have hlength : (word.toBytes ++ slot.toBytes).length = 64 := by
      rw [List.length_append, word.length_toBytes, slot.length_toBytes]
    have hmem : Preimage.ofKey word slot ∈ next.session.preimages := by
      rw [hnext, handle_hash hframes hhashes, Preimage.ofKey,
        Machine.eq_paddedSlice_of_bytes hlength hbytes]
      exact List.mem_append_right _ List.mem_cons_self
    have hcandidate : ∀ d : Preimages, next.session.preimages <+: d →
        Preimage.ofKey word slot ∈ d.withSuffix slot := by
      intro d hd
      refine List.mem_filter.2 ⟨hd.subset hmem, ?_⟩
      rw [Preimage.key?_ofKey]
      rfl
    refine ⟨hcandidate _ hkept, fun types key hkey => types.label?_ofKey hkey word slot, ?_⟩
    intro between storage' m' answer' after hsplit n hn
    rw [run_append] at hn
    obtain ⟨r, hit, frames, s, hreport, hrecord⟩ := exists_report_run hsplit hn
    exact ⟨r, hit, frames, s, hreport, fun f =>
      StorageView.considers_of_mem (hcandidate r.preimages (hnext ▸ hrecord))⟩

/-- The memory ends before the last byte of the slot, and the transaction is over after the hash. -/
theorem hash_inputs_recorded_padded :
    let m : Machine := {
      code := [0x20, 0x00], pc := 0, stack := [64, 0],
      memory := ((7 : Word).toBytes ++ (0x100 : Word).toBytes).take 63, address := 1,
      codeAddress := none, input := .own [], sharedMemory := [] }
    let hook : Hook := .step (fun _ _ => .ok 0) m .resume
    let o : Observer := {}
    m.Hashes 0 64 ∧ (o.run [.enter false]).frames ≠ [] ∧
      (o.run [.enter false, hook]).session.preimages = [.ofKey 7 0x100] ∧
      Preimage.ofKey 7 0x100 ∈
        (o.run [.enter false, hook, .leave]).session.preimages.withSuffix 0x100 := by
  intro m hook o
  have hhashes : m.Hashes 0 64 :=
    ⟨rfl, ⟨[], 64, 0, rfl, rfl, rfl⟩, by decide, by decide, by decide⟩
  have hframes : (o.run [.enter false]).frames ≠ [] := List.cons_ne_nil _ _
  have hbytes : ∀ i < 64,
      ((7 : Word).toBytes ++ (0x100 : Word).toBytes)[i]? = some (m.byteAt (0 + i)) := by decide
  obtain ⟨hadds, -, -, -, -, hkeys⟩ := hash_inputs_recorded o [.enter false] [.leave] hook
  obtain ⟨data, hrecord, hlength, hdata⟩ := hadds _ _ _ 0 64 rfl hframes hhashes
  have heq : data = (7 : Word).toBytes ++ (0x100 : Word).toBytes := by
    rw [Machine.eq_paddedSlice_of_bytes hlength hdata,
      ← Machine.eq_paddedSlice_of_bytes (by decide) hbytes]
  rw [heq] at hrecord
  exact ⟨hhashes, hframes, hrecord, (hkeys _ _ _ 0 rfl hframes hhashes 7 0x100 hbytes).1⟩

end Observer

end Solscope
