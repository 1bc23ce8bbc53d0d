import DhcpToolset.SlotCapture

/-!
# The slot does not get stuck

Nothing in the protocol of the slot waits for ever : the thread inside the lock can always
finish its copy and release it, a writer that has copied can always signal, and the receive
loop can then come to the slot. `newest_capturable` : from every state of every run, the
threads that are in a call and the receive loop can go on, without a new call and without a
failing wait, to a state in which the mutex is free and the newest record is captured.
-/

set_option linter.unusedSectionVars false

open Win32 Transition

namespace DhcpToolset

namespace Slot

variable {ι : Type*} [DecidableEq ι]

/-- A step of a call that is under way, or of the receive loop, in which no wait fails. -/
def Act.goesOn : Act ι → Bool
  | .call _ _ | .exit _ | .readerExit => false
  | .lock _ ret | .readerLock ret => ret == .object0
  | _ => true

theorem Act.isExit_of_goesOn {a : Act ι} (h : a.goesOn = true) : a.isExit = false := by
  cases a <;> first | rfl | exact absurd h Bool.false_ne_true

theorem Act.readerLocks_of_goesOn {a : Act ι} (h : a.goesOn = true) : a.readerLocks = true := by
  cases a <;> first | rfl | exact h

/-! ## Copies that are under way -/

/-- A copy has not passed its end, and the receive loop runs. -/
structure InCopy (s : State ι) : Prop where
  writer : ∀ t data i, s.writer t = .copying data i → i ≤ min data.length calloutLen
  reader : ∀ i, s.reader = .copying i → i ≤ calloutLen
  alive : s.reader ≠ .dead

section InCopy

variable {s s' : State ι}

theorem inCopy_init (d b : Block) : InCopy (init d b : State ι) :=
  ⟨by simp [init], by simp [init], by simp [init]⟩

theorem InCopy.setWriter (h : InCopy s) {t : ι} {pc : WriterPc} (hw : s'.writer = s.writer)
    (hr : s'.reader = s.reader)
    (hpc : ∀ data i, pc = .copying data i → i ≤ min data.length calloutLen) :
    InCopy (s'.setWriter t pc) := by
  refine ⟨fun u data i hu => ?_, fun i hi => h.reader i (hr ▸ hi), fun hd => h.alive (hr ▸ hd)⟩
  by_cases hut : u = t
  · subst hut
    exact hpc data i (by rwa [State.setWriter_self] at hu)
  · rw [State.setWriter_of_ne _ _ hut, hw] at hu
    exact h.writer u data i hu

theorem inCopy_step {a : Act ι} (hx : a.isExit = false) (hi : InCopy s) (h : Does s a s') :
    InCopy s' := by
  cases h with
  | call _ | lockFailed _ _ _ | copied _ _ | unlock _ | signal _ =>
    exact hi.setWriter rfl rfl (by simp)
  | lock hpc hw =>
    refine hi.setWriter rfl rfl fun data i heq => ?_
    obtain ⟨-, rfl⟩ := WriterPc.copying.inj heq
    exact Nat.zero_le _
  | copy hpc hk =>
    refine hi.setWriter rfl rfl fun data i heq => ?_
    obtain ⟨rfl, rfl⟩ := WriterPc.copying.inj heq
    exact hk
  | readerCopy hr hk =>
    refine ⟨hi.writer, fun i heq => ?_, by simp⟩
    obtain rfl := ReaderPc.copying.inj heq
    exact hk
  | readerLock hr hw =>
    refine ⟨hi.writer, fun i heq => ?_, by simp⟩
    obtain rfl := ReaderPc.copying.inj heq
    exact Nat.zero_le _
  | wake _ _ | readerLockFailed _ _ _ | readerCopied _ | readerUnlock _ =>
    exact ⟨hi.writer, by simp, by simp⟩
  | exit | readerExit => simp [Act.isExit] at hx

end InCopy

/-! ## Steps that are possible -/

section Steps

variable {V : Party ι → CalloutBlock} {s : State ι} {t : ι} {data : List UInt8} {i len : ℕ}

theorem step_copy (h : s.writer t = .copying data i) {k : ℕ}
    (hk : i + k ≤ min data.length calloutLen) : step V s (.copy t k) =
      some ({ s with data := memcpyPart s.data (bytesOf data) i k }.setWriter t
        (.copying data (i + k))) := by
  simp only [step, h, (V (.hook t)).len_eq, if_pos hk]

theorem step_copied (h : s.writer t = .copying data (min data.length calloutLen)) :
    step V s (.copied t) = some ({ s with written := s.written ++ [data] }.setWriter t
      (.unlocking (min data.length calloutLen))) := by
  simp only [step, h, (V (.hook t)).len_eq, if_true]

theorem step_unlock (h : s.writer t = .unlocking len) : step V s (.unlock t) =
    some ({ s with mutex := s.mutex.release (.hook t) }.setWriter t (.signalling len)) := by
  simp only [step, h]

theorem step_signal (h : s.writer t = .signalling len) : step V s (.signal t) =
    some ({ s with esnd := true }.setWriter t (.outside (some len))) := by
  simp only [step, h, (V (.hook t)).esnd_isSome, Bool.or_true]

theorem step_readerCopy (h : s.reader = .copying i) {k : ℕ} (hk : i + k ≤ calloutLen) :
    step V s (.readerCopy k) =
      some { s with buf := memcpyPart s.buf s.data i k, reader := .copying (i + k) } := by
  simp only [step, h, if_pos hk]

theorem step_readerCopied (h : s.reader = .copying calloutLen) : step V s .readerCopied =
    some { s with captured := s.captured ++ [(s.written.length, s.buf)], reader := .unlocking } :=
  if_pos h

theorem step_readerUnlock (h : s.reader = .unlocking) : step V s .readerUnlock =
    some { s with mutex := s.mutex.release .monitor, reader := .waiting } :=
  if_pos h

theorem step_wake (h : s.reader = .waiting) (he : s.esnd = true) : step V s .wake =
    some { s with esnd := false, reader := .locking } :=
  if_pos ⟨h, he⟩

theorem step_readerLock (h : s.reader = .locking) {m : Mutex (Party ι)}
    (hm : s.mutex.wait .monitor .object0 = some m) : step V s (.readerLock .object0) =
      some { s with mutex := m, reader := .copying 0 } := by
  simp [step, h, hm, shmLock_callout]

end Steps

/-! ## Going on -/

/-- What every run keeps in which no thread ends and the receive loop gets its locks. -/
structure Sound (d : Block) (s : State ι) : Prop where
  owned : Owned s
  contents : Contents d s
  pending : Pending s
  inCopy : InCopy s

/-- The newest record has been captured. -/
def Caught (s : State ι) : Prop :=
  ∃ c ∈ s.captured, c.1 = s.written.length

section Progress

variable {V : Party ι → CalloutBlock} {d b : Block} {s : State ι} {t : ι}

theorem Sound.step {s' : State ι} {a : Act ι} (h : Sound d s) (hx : a.isExit = false)
    (hl : a.readerLocks = true) (hs : step V s a = some s') : Sound d s' :=
  have hd := does_of_step hs
  ⟨owned_step hx h.owned hd, contents_step hx h.owned h.contents hd,
    pending_step hx hl h.pending hd,
    inCopy_step hx h.inCopy hd⟩

theorem Sound.reaches {s' : State ι} (h : Sound d s)
    (hr : CanReach (Slot.step V) (fun a => a.goesOn = true) s s') : Sound d s' :=
  hr.invariant (fun _ _ _ ha hi hs =>
    hi.step (Act.isExit_of_goesOn ha) (Act.readerLocks_of_goesOn ha) hs) h

/-- A writer that has copied releases the mutex. -/
theorem Sound.unlock (h : Sound d s) {len : ℕ} (hpc : s.writer t = .unlocking len) :
    ∃ s', CanReach (Slot.step V) (fun a => a.goesOn = true) s s' ∧ s'.mutex.owner = none ∧
      s'.written = s.written := by
  have howner : s.mutex.owner = some (.hook t) :=
    (h.owned.owner_iff _).mpr (by simp [State.holds, hpc, WriterPc.holds])
  refine ⟨_, .head rfl (step_unlock hpc) (.refl _), ?_, rfl⟩
  exact congrArg Mutex.owner (Mutex.release_owner h.owned.plain howner)

/-- The thread inside the lock finishes. Its record is the only one that can come in. -/
theorem Sound.release (h : Sound d s) :
    ∃ s', CanReach (Slot.step V) (fun a => a.goesOn = true) s s' ∧ s'.mutex.owner = none ∧
      s.written <+: s'.written := by
  cases howner : s.mutex.owner with
  | none => exact ⟨s, .refl s, howner, List.prefix_rfl⟩
  | some p =>
    have hholds := (h.owned.owner_iff p).mp howner
    cases p with
    | hook t =>
      cases hpc : s.writer t with
      | copying data i =>
        have hi := h.inCopy.writer t data i hpc
        have hcopy := step_copy (V := V) hpc (k := min data.length calloutLen - i) (by omega)
        rw [Nat.add_sub_cancel' hi] at hcopy
        have hfinish := CanReach.head (P := fun a : Act ι => a.goesOn = true) rfl hcopy
          (.head rfl (step_copied (State.setWriter_self _ _ _)) (.refl _))
        obtain ⟨s', hr, hfree, hw⟩ := (h.reaches hfinish).unlock (V := V)
          (State.setWriter_self _ _ _)
        exact ⟨s', hfinish.trans hr, hfree, hw ▸ List.prefix_append s.written [data]⟩
      | unlocking len =>
        obtain ⟨s', hr, hfree, hw⟩ := h.unlock (V := V) hpc
        exact ⟨s', hr, hfree, hw ▸ List.prefix_rfl⟩
      | outside _ | locking _ | signalling _ | dead =>
        simp [State.holds, hpc, WriterPc.holds] at hholds
    | monitor =>
      have hrelease := congrArg Mutex.owner (Mutex.release_owner h.owned.plain howner)
      cases hpc : s.reader with
      | copying i =>
        have hi := h.inCopy.reader i hpc
        have hcopy := step_readerCopy (V := V) hpc (k := calloutLen - i) (by omega)
        rw [Nat.add_sub_cancel' hi] at hcopy
        exact ⟨_, .head rfl hcopy (.head rfl (step_readerCopied rfl)
          (.head rfl (step_readerUnlock rfl) (.refl _))), hrelease, List.prefix_rfl⟩
      | unlocking =>
        exact ⟨_, .head rfl (step_readerUnlock hpc) (.refl _), hrelease, List.prefix_rfl⟩
      | waiting | locking | dead => simp [State.holds, hpc, ReaderPc.holds] at hholds

/-- The receive loop, behind its wait, captures the slot when the mutex is free. -/
theorem Sound.capture (h : Sound d s) (hfree : s.mutex.owner = none)
    (hpc : s.reader = .locking) :
    ∃ s', CanReach (Slot.step V) (fun a => a.goesOn = true) s s' ∧ s'.mutex.owner = none ∧
      s'.written = s.written ∧ Caught s' := by
  have hwait : s.mutex.wait .monitor .object0 = some ⟨some .monitor, 1, false⟩ :=
    (Mutex.wait_object0 h.owned.plain (by simp [hfree])).mpr ⟨hfree, rfl⟩
  have hcopy := step_readerCopy (V := V) (i := 0) (k := calloutLen)
    (s := { s with mutex := ⟨some .monitor, 1, false⟩, reader := .copying 0 }) rfl (by decide)
  refine ⟨_, .head rfl (step_readerLock hpc hwait) (.head rfl hcopy (.head rfl
    (step_readerCopied rfl) (.head rfl (step_readerUnlock rfl) (.refl _)))), ?_, rfl, ?_⟩
  · simp [Mutex.release]
  · exact ⟨(s.written.length, _), List.mem_append_right _ (List.mem_singleton_self _), rfl⟩

/-- So it does when it is signalled. -/
theorem Sound.captureSignalled (h : Sound d s) (hfree : s.mutex.owner = none)
    (hpc : s.reader = .waiting) (he : s.esnd = true) :
    ∃ s', CanReach (Slot.step V) (fun a => a.goesOn = true) s s' ∧ s'.mutex.owner = none ∧
      s'.written = s.written ∧ Caught s' := by
  have hwake := CanReach.head (P := fun a : Act ι => a.goesOn = true) rfl
    (step_wake (V := V) hpc he) (.refl _)
  obtain ⟨s', hr, hdone⟩ := (h.reaches hwake).capture (V := V) hfree rfl
  exact ⟨s', hwake.trans hr, hdone⟩

/-- With the mutex free, the newest record is captured or can be. -/
theorem Sound.catch (h : Sound d s) (hfree : s.mutex.owner = none) (hne : s.written ≠ []) :
    ∃ s', CanReach (Slot.step V) (fun a => a.goesOn = true) s s' ∧ s'.mutex.owner = none ∧
      s'.written = s.written ∧ Caught s' := by
  have hholds : ∀ p, s.holds p = false := fun p =>
    Bool.eq_false_iff.mpr fun hp => by simp [(h.owned.owner_iff p).mpr hp] at hfree
  by_cases hfresh : Fresh s
  · have hreader : s.reader = .waiting ∨ s.reader = .locking := by
      have hm := hholds .monitor
      have halive := h.inCopy.alive
      cases hpc : s.reader <;> simp_all [State.holds, ReaderPc.holds]
    rcases hreader with hpc | hpc
    · rcases h.pending hne hfresh with he | ⟨t, ht⟩ | hcommitted
      · exact h.captureSignalled hfree hpc he
      · have hout := hholds (.hook t)
        cases hw : s.writer t with
        | signalling len =>
          have hsignal := CanReach.head (P := fun a : Act ι => a.goesOn = true) rfl
            (step_signal (V := V) hw) (.refl _)
          obtain ⟨s', hr, hdone⟩ := (h.reaches hsignal).captureSignalled (V := V) hfree hpc rfl
          exact ⟨s', hsignal.trans hr, hdone⟩
        | unlocking len => simp [State.holds, hw, WriterPc.holds] at hout
        | outside _ | locking _ | copying _ _ | dead => simp [hw, WriterPc.announces] at ht
      · simp [hpc, ReaderPc.committed] at hcommitted
    · exact h.capture hfree hpc
  · obtain ⟨c, hc, hle⟩ : ∃ c ∈ s.captured, s.written.length ≤ c.1 := by
      simpa [Fresh] using hfresh
    exact ⟨s, .refl s, hfree, rfl, c, hc, Nat.le_antisymm (h.contents.captured c hc).1 hle⟩

/-- From every state of every run the newest record can be captured, and the mutex set free, by the
threads that are under way. -/
theorem newest_capturable {as : List (Act ι)} (hrun : run (step V) (init d b) as = some s)
    (hx : ∀ a ∈ as, a.isExit = false) (hl : ∀ a ∈ as, a.readerLocks = true)
    (hne : s.written ≠ []) :
    ∃ s', CanReach (step V) (fun a => a.goesOn = true) s s' ∧ s'.mutex.owner = none ∧
      s.written <+: s'.written ∧ ∃ c ∈ s'.captured, c.1 = s'.written.length := by
  obtain ⟨howned, hcontents⟩ := contents_run hrun hx
  have hcopy : InCopy s := (StepsMeet.of_forall _ hx).invariant
    (fun _ _ _ ha hi h => inCopy_step ha hi (does_of_step h)) (inCopy_init d b) hrun
  have hsound : Sound d s := ⟨howned, hcontents, pending_run hrun hx hl, hcopy⟩
  obtain ⟨m, hm, hfree, hprefix⟩ := hsound.release (V := V)
  have hne' : m.written ≠ [] := fun hnil => hne (List.prefix_nil.mp (hnil ▸ hprefix))
  obtain ⟨s', hr, hfree', hw, hcaught⟩ := (hsound.reaches hm).catch (V := V) hfree hne'
  exact ⟨s', hm.trans hr, hfree', hw ▸ hprefix, hcaught⟩

/-- A record waits in the slot, and another thread is in its copy. -/
def midCopy : List (Act Bool) :=
  writeActs true [1] ++ [.call false [2, 3], .lock false .object0, .copy false 1]

theorem newest_capturable_two : ∃ s : State Bool,
    run (step fun _ => attachedClient) (init (fun _ => 0) fun _ => 0) midCopy = some s ∧
    s.mutex.owner = some (.hook false) ∧
    ∃ s', CanReach (step fun _ => attachedClient) (fun a => a.goesOn = true) s s' ∧
      s'.mutex.owner = none ∧ s.written <+: s'.written ∧
      ∃ c ∈ s'.captured, c.1 = s'.written.length := by
  have hexists : ∃ s : State Bool, run (step fun _ => attachedClient)
      (init (fun _ => 0) fun _ => 0) midCopy = some s := ⟨_, rfl⟩
  obtain ⟨s, hs⟩ := hexists
  have hwritten : s.written = [[1]] := eq_of_run_map hs rfl
  exact ⟨s, hs, eq_of_run_map (f := fun s => s.mutex.owner) hs rfl,
    newest_capturable hs (by decide) (by decide) (by simp [hwritten])⟩

end Progress

end Slot

end DhcpToolset
