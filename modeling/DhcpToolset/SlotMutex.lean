import DhcpToolset.Slot

/-!
# The owner of the slot mutex

Threads may end anywhere, also while they own the mutex of the slot. The next wait then
takes the mutex and returns `WAIT_ABANDONED`, which `lock_wait` reports as a failure : the
caller leaves without the copy, and still owns the mutex.

`mutex_inside_iff` : in every state of a run the owner is inside its critical section,
exactly if no wait of the run returned `WAIT_ABANDONED`.
-/

set_option linter.unusedSectionVars false

open Win32 Transition

namespace DhcpToolset

namespace Slot

variable {ι : Type*} [DecidableEq ι]

/-- A thread that is not in `shm_write`, and the receive loop outside its critical section,
do not own the mutex. -/
structure MutexInside (s : State ι) : Prop where
  writer : ∀ t ret, s.writer t = .outside ret → s.mutex.owner ≠ some (.hook t)
  reader : s.reader.holds = false → s.mutex.owner ≠ some .monitor

/-- A wait for the mutex that returned `WAIT_ABANDONED`. -/
def Act.takesAbandoned : Act ι → Bool
  | .lock _ ret | .readerLock ret => ret == .abandoned
  | _ => false

/-- The mutex is owned once, by a thread inside its critical section. -/
structure OwnerInside (s : State ι) : Prop where
  once : s.mutex.Once
  owner : ∀ p, s.mutex.owner = some p → s.holds p = true

namespace OwnerInside

variable {s s' : State ι} {p : Party ι}

theorem mutexInside (h : OwnerInside s) : MutexInside s where
  writer t ret hpc ho := by
    have := h.owner _ ho
    simp [State.holds, hpc, WriterPc.holds] at this
  reader hpc ho := by
    have := h.owner _ ho
    simp [State.holds, hpc] at this

/-- A step that leaves the mutex and does not end a critical section. -/
theorem stay (h : OwnerInside s) (hm : s'.mutex = s.mutex)
    (hh : ∀ q, s.holds q = true → s'.holds q = true) : OwnerInside s' :=
  ⟨hm ▸ h.once, fun q hq => hh q (h.owner q (hm ▸ hq))⟩

/-- A thread takes the mutex and enters its critical section. -/
theorem acquire (hm : s'.mutex = ⟨some p, 1, false⟩) (hp : s'.holds p = true) : OwnerInside s' := by
  refine ⟨Or.inr (by rw [hm]), fun q hq => ?_⟩
  obtain rfl : p = q := by simpa [hm] using hq
  exact hp

/-- A thread gives the mutex up and leaves. -/
theorem leave (h : OwnerInside s) (hm : s'.mutex.Once ∧ ∀ q, s'.mutex.owner = some q →
    s.mutex.owner = some q ∧ q ≠ p) (hh : ∀ q, q ≠ p → s'.holds q = s.holds q) :
    OwnerInside s' := by
  refine ⟨hm.1, fun q hq => ?_⟩
  obtain ⟨ho, hne⟩ := hm.2 q hq
  rw [hh q hne]
  exact h.owner q ho

theorem holds_setWriter_of_ne (s : State ι) (t : ι) (pc : WriterPc) {q : Party ι}
    (hq : q ≠ .hook t) : (s.setWriter t pc).holds q = s.holds q := by
  rw [State.holds_setWriter, if_neg hq]

/-- A step of `shm_write` that leaves the mutex and does not end the critical section. -/
theorem setWriter (h : OwnerInside s) {t : ι} {pc : WriterPc} (hm : s'.mutex = s.mutex)
    (hh : ∀ q, s'.holds q = s.holds q) (hpc : (s.writer t).holds = true → pc.holds = true) :
    OwnerInside (s'.setWriter t pc) := by
  refine h.stay hm fun q hq => ?_
  rw [State.holds_setWriter, hh]
  split_ifs with hqt
  · subst hqt
    exact hpc hq
  · exact hq

end OwnerInside

theorem ownerInside_init (d b : Block) : OwnerInside (init d b : State ι) :=
  ⟨Or.inl rfl, fun p hp => by simp [init] at hp⟩

theorem ownerInside_step {s s' : State ι} {a : Act ι} (ha : a.takesAbandoned = false)
    (hi : OwnerInside s) (h : Does s a s') : OwnerInside s' := by
  cases h with
  | call hpc | copy hpc | copied hpc | signal hpc =>
    exact hi.setWriter rfl (fun _ => rfl) (by simp [hpc, WriterPc.holds])
  | @lock t data m hpc hw =>
    have hne : s.mutex.owner ≠ some (.hook t) := fun ho => by
      have := hi.owner _ ho
      simp [State.holds, hpc, WriterPc.holds] at this
    exact OwnerInside.acquire (Mutex.eq_of_wait_object0 hne hw)
      (by simp [State.holds, WriterPc.holds])
  | @lockFailed t data ret m hpc hr hw =>
    have hna : ret ≠ .abandoned := by simpa [Act.takesAbandoned] using ha
    exact hi.setWriter (Mutex.eq_of_wait hr hna hw) (fun _ => rfl) (by simp [hpc, WriterPc.holds])
  | @unlock t len hpc =>
    exact hi.leave (p := .hook t) (hi.once.release _) fun q hq =>
      OwnerInside.holds_setWriter_of_ne _ t _ hq
  | @exit t =>
    exact hi.leave (p := .hook t) (hi.once.exit _) fun q hq =>
      OwnerInside.holds_setWriter_of_ne _ t _ hq
  | wake hr he =>
    refine hi.stay rfl fun q hq => ?_
    cases q with
    | hook t => exact hq
    | monitor => simp [State.holds, hr, ReaderPc.holds] at hq
  | @readerLock m hr hw =>
    have hne : s.mutex.owner ≠ some .monitor := fun ho => by
      have := hi.owner _ ho
      simp [State.holds, hr, ReaderPc.holds] at this
    exact OwnerInside.acquire (Mutex.eq_of_wait_object0 hne hw)
      (by simp [State.holds, ReaderPc.holds])
  | @readerLockFailed ret m hr hne hw =>
    have hna : ret ≠ .abandoned := by simpa [Act.takesAbandoned] using ha
    refine hi.stay (Mutex.eq_of_wait hne hna hw) fun q hq => ?_
    cases q with
    | hook t => exact hq
    | monitor => simp [State.holds, hr, ReaderPc.holds] at hq
  | readerCopy hr | readerCopied hr =>
    refine hi.stay rfl fun q hq => ?_
    cases q with
    | hook t => exact hq
    | monitor => rfl
  | readerUnlock hr =>
    refine hi.leave (p := .monitor) (hi.once.release _) fun q hq => ?_
    cases q with
    | hook t => rfl
    | monitor => exact absurd rfl hq
  | readerExit =>
    refine hi.leave (p := .monitor) (hi.once.exit _) fun q hq => ?_
    cases q with
    | hook t => rfl
    | monitor => exact absurd rfl hq

/-- A thread that took an abandoned mutex is outside, and owns it. -/
theorem takesAbandoned_of_mutexInside {s s' : State ι} {a : Act ι} (h : Does s a s')
    (hi : MutexInside s') : a.takesAbandoned = false := by
  cases h with
  | @lockFailed t data ret m hpc hr hw =>
    simp only [Act.takesAbandoned, beq_eq_false_iff_ne]
    rintro rfl
    exact hi.writer t _ (State.setWriter_self _ t _)
      (by simp [State.setWriter, Mutex.eq_of_wait_abandoned hw])
  | @readerLockFailed ret m hr hne hw =>
    simp only [Act.takesAbandoned, beq_eq_false_iff_ne]
    rintro rfl
    exact hi.reader rfl (by simp [Mutex.eq_of_wait_abandoned hw])
  | call | lock | copy | copied | unlock | signal | exit | wake | readerLock | readerCopy
  | readerCopied | readerUnlock | readerExit => rfl

/-- Only a thread inside its critical section owns the mutex, in every state of a run, exactly
if no wait of the run returned `WAIT_ABANDONED`. -/
theorem mutex_inside_iff {V : Party ι → CalloutBlock} {d b : Block} {as : List (Act ι)}
    {s : State ι} (hrun : run (step V) (init d b) as = some s) :
    Always (step V) MutexInside (init d b) as ↔ ∀ a ∈ as, a.takesAbandoned = false := by
  have hiff := always_iff_stepsMeet (I := OwnerInside) (P := MutexInside)
    (fun _ hi => hi.mutexInside)
    (fun _ _ _ ha hi h => ownerInside_step ha hi (does_of_step h))
    (fun _ _ _ _ h hp => takesAbandoned_of_mutexInside (does_of_step h) hp)
    (ownerInside_init d b) hrun
  exact hiff.trans ⟨fun h => h.forall_mem hrun, StepsMeet.of_forall _⟩

/-- A thread ends in its copy, and another waits for the mutex. -/
def dyingWriter (ret : WaitResult) : List (Act Bool) :=
  [.call true [1], .lock true .object0, .exit true, .call false [2], .lock false ret]

theorem mutex_inside_iff_two : ∃ s, run (step fun _ => attachedClient)
    (init (fun _ => 0) fun _ => 0) (dyingWriter .failed) = some s ∧
      Always (step fun _ => attachedClient) MutexInside (init (fun _ => 0) fun _ => 0)
        (dyingWriter .failed) := by
  have hex : ∃ s, run (step fun _ => attachedClient) (init (fun _ => 0) fun _ => 0)
    (dyingWriter .failed) = some s := ⟨_, rfl⟩
  obtain ⟨s, hs⟩ := hex
  exact ⟨s, hs, (mutex_inside_iff hs).mpr (by decide)⟩

/-- The second thread has returned with `SHM_LOCK_FAILED`, and owns the mutex. -/
theorem not_mutex_inside : ¬∀ (as : List (Act Bool)) (s : State Bool),
    run (step fun _ => attachedClient) (init (fun _ => 0) fun _ => 0) as = some s →
    MutexInside s := by
  intro h
  have hex : ∃ s, run (step fun _ => attachedClient) (init (fun _ => 0) fun _ => 0)
    (dyingWriter .abandoned) = some s := ⟨_, rfl⟩
  obtain ⟨s, hs⟩ := hex
  have hpc : s.writer false = .outside (some shmLockFailed) :=
    eq_of_run_map (f := fun s => s.writer false) hs rfl
  have howner : s.mutex.owner = some (.hook false) :=
    eq_of_run_map (f := fun s => s.mutex.owner) hs rfl
  exact (h _ s hs).writer false _ hpc howner

end Slot

end DhcpToolset
