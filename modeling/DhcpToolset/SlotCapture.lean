import DhcpToolset.Slot

/-!
# What the Monitor captures

The slot holds one record and `esnd` one signal, and nothing is acknowledged. `Pending`
is the invariant that connects them : a write not yet captured is signalled, its writer
is about to signal it, or the receive loop is on its way to the slot. So the newest
record is never missed (`captured_whole_ordered_newest`), and a record that is missed was
overwritten by the next one (`captured_or_overwritten`).

A signal set after the slot was captured, or while the receive loop is on its way to
the slot, makes the loop come back to a record it already has. `captured_once` : without
such a signal no record is captured twice.
-/

set_option linter.unusedSectionVars false

open Win32 Transition

namespace DhcpToolset

namespace Slot

variable {ι : Type*} [DecidableEq ι]

/-! ## A write is announced until it is captured -/

/-- The last write has not been captured. -/
def Fresh (s : State ι) : Prop :=
  ∀ c ∈ s.captured, c.1 < s.written.length

/-- A write that has not been captured is signalled, its writer is about to signal it, or
the receive loop is on its way to the slot. -/
def Pending (s : State ι) : Prop :=
  s.written ≠ [] → Fresh s →
    s.esnd = true ∨ (∃ t, (s.writer t).announces = true) ∨ s.reader.committed = true

/-- The receive loop got its lock, in this step. -/
def Act.readerLocks : Act ι → Bool
  | .readerLock ret => ret == .object0
  | _ => true

/-- A step of `shm_write` that neither starts nor ends an announcement. -/
theorem Pending.setWriter {s s' : State ι} (h : Pending s) {t : ι} {pc : WriterPc}
    (he : s'.esnd = s.esnd) (hw : s'.writer = s.writer) (hr : s'.reader = s.reader)
    (hwr : s'.written = s.written) (hc : s'.captured = s.captured)
    (ht : (s.writer t).announces = false) : Pending (s'.setWriter t pc) := by
  intro hne hf
  rcases h (hwr ▸ hne) (fun c hm => hwr ▸ hf c (hc ▸ hm)) with h | ⟨u, hu⟩ | h
  · exact Or.inl (he.trans h)
  · have hut : u ≠ t := by
      rintro rfl
      simp [ht] at hu
    exact Or.inr (Or.inl ⟨u, by rw [State.setWriter_of_ne _ _ hut, hw]; exact hu⟩)
  · exact Or.inr (Or.inr (hr ▸ h))

theorem pending_init (d b : Block) : Pending (init d b : State ι) :=
  fun h => absurd rfl h

theorem pending_step {s s' : State ι} {a : Act ι} (hx : a.isExit = false)
    (hl : a.readerLocks = true) (hi : Pending s) (h : Does s a s') : Pending s' := by
  cases h with
  | call hpc => exact hi.setWriter rfl rfl rfl rfl rfl (by simp [hpc, WriterPc.announces])
  | lock hpc hw => exact hi.setWriter rfl rfl rfl rfl rfl (by simp [hpc, WriterPc.announces])
  | lockFailed hpc hr hw =>
    exact hi.setWriter rfl rfl rfl rfl rfl (by simp [hpc, WriterPc.announces])
  | copy hpc hk => exact hi.setWriter rfl rfl rfl rfl rfl (by simp [hpc, WriterPc.announces])
  | @copied t data i hpc hk =>
    exact fun _ _ => Or.inr (Or.inl ⟨t, by simp [WriterPc.announces]⟩)
  | @unlock t len hpc => exact fun _ _ => Or.inr (Or.inl ⟨t, by simp [WriterPc.announces]⟩)
  | signal hpc => exact fun _ _ => Or.inl rfl
  | exit => simp [Act.isExit] at hx
  | wake hr he => exact fun _ _ => Or.inr (Or.inr rfl)
  | readerLock hr hw => exact fun _ _ => Or.inr (Or.inr rfl)
  | readerLockFailed hr hne hw => simp [Act.readerLocks, hne] at hl
  | readerCopy hr hk => exact fun _ _ => Or.inr (Or.inr rfl)
  | readerCopied hr => exact fun _ hf => absurd (hf (s.written.length, s.buf) (by simp)) (by simp)
  | readerUnlock hr =>
    intro hne hf
    rcases hi hne hf with h | h | h
    · exact Or.inl h
    · exact Or.inr (Or.inl h)
    · simp [hr, ReaderPc.committed] at h
  | readerExit => simp [Act.isExit] at hx

/-! ## Runs -/

/-- A whole `shm_write` that finds the mutex free. -/
def writeActs {ι : Type*} (t : ι) (data : List UInt8) : List (Act ι) :=
  [.call t data, .lock t .object0, .copy t data.length, .copied t, .unlock t, .signal t]

/-- A whole capture that finds a signal and the mutex free. -/
def captureActs {ι : Type*} : List (Act ι) :=
  [.wake, .readerLock .object0, .readerCopy calloutLen, .readerCopied, .readerUnlock]

section Runs

variable {V : Party ι → CalloutBlock} {d b : Block} {as : List (Act ι)} {s : State ι}

/-- Mutual exclusion and the contents, in every run in which no thread ends. -/
theorem contents_run (hrun : run (step V) (init d b) as = some s)
    (hx : ∀ a ∈ as, a.isExit = false) : Owned s ∧ Contents d s :=
  (StepsMeet.of_forall _ hx).invariant (I := fun s => Owned s ∧ Contents d s)
    (fun _ _ _ ha hi h => ⟨owned_step ha hi.1 (does_of_step h),
      contents_step ha hi.1 hi.2 (does_of_step h)⟩)
    ⟨owned_init d b, contents_init d b⟩ hrun

/-- Announcements, in every run in which no thread ends and the receive loop always gets
its lock. -/
theorem pending_run (hrun : run (step V) (init d b) as = some s)
    (hx : ∀ a ∈ as, a.isExit = false) (hl : ∀ a ∈ as, a.readerLocks = true) : Pending s :=
  (StepsMeet.of_forall (P := fun a => a.isExit = false ∧ a.readerLocks = true) _
    fun a ha => ⟨hx a ha, hl a ha⟩).invariant
    (fun _ _ _ ha hi h => pending_step ha.1 ha.2 hi (does_of_step h)) (pending_init d b) hrun

/-- Nothing is signalled, no writer is between its copy and its `SetEvent`, and the
receive loop is at its wait. -/
structure Settled (s : State ι) : Prop where
  esnd : s.esnd = false
  writer : ∀ t, (s.writer t).announces = false
  reader : s.reader = .waiting

/-- In a settled state the last write has been captured. -/
theorem Pending.captured_last (h : Pending s) (hs : Settled s) (hne : s.written ≠ []) :
    ∃ c ∈ s.captured, s.written.length ≤ c.1 := by
  by_contra hno
  have hf : Fresh s := fun c hc => Nat.lt_of_not_le fun hle => hno ⟨c, hc, hle⟩
  rcases h hne hf with h | ⟨t, ht⟩ | h
  · simp [hs.esnd] at h
  · simp [hs.writer t] at ht
  · simp [hs.reader, ReaderPc.committed] at h

/-- The block captured after the first `k + 1` writes starts with the last of them. -/
theorem Contents.holdsRecord (h : Contents d s) {c : ℕ × Block} (hc : c ∈ s.captured)
    {data : List UInt8} (hl : (s.written.take c.1).getLast? = some data) :
    HoldsRecord c.2 data := by
  obtain ⟨ws, hws⟩ := List.getLast?_eq_some_iff.mp hl
  rw [(h.captured c hc).2, hws, slotAfter_append]
  exact holdsRecord_overwrite _ data

/-- Captured blocks are whole, ordered, and the newest record is never missed. -/
theorem captured_whole_ordered_newest (hrun : run (step V) (init d b) as = some s)
    (hx : ∀ a ∈ as, a.isExit = false) (hl : ∀ a ∈ as, a.readerLocks = true) :
    (∀ c ∈ s.captured, c.1 ≤ s.written.length ∧ c.2 = slotAfter d (s.written.take c.1) ∧
      ∀ data, (s.written.take c.1).getLast? = some data → HoldsRecord c.2 data) ∧
    s.captured.Pairwise (fun c c' => c.1 ≤ c'.1) ∧
    (Settled s → ∀ data, s.written.getLast? = some data →
      ∃ c ∈ s.captured, c.1 = s.written.length ∧ HoldsRecord c.2 data) := by
  obtain ⟨-, hi⟩ := contents_run hrun hx
  have hp := pending_run hrun hx hl
  refine ⟨fun c hc => ⟨(hi.captured c hc).1, (hi.captured c hc).2, fun data => hi.holdsRecord hc⟩,
    hi.ordered, fun hs data hdata => ?_⟩
  have hne : s.written ≠ [] := by
    rintro h
    simp [h] at hdata
  obtain ⟨c, hc, hle⟩ := hp.captured_last hs hne
  have heq : c.1 = s.written.length := Nat.le_antisymm (hi.captured c hc).1 hle
  exact ⟨c, hc, heq, hi.holdsRecord hc (by rw [heq, List.take_length, hdata])⟩

theorem captured_whole_ordered_newest_one : ∃ s : State Bool,
    run (step fun _ => attachedClient) (init (fun _ => 0) fun _ => 0)
      (writeActs true [1] ++ captureActs) = some s ∧
    s.captured.Pairwise (fun c c' => c.1 ≤ c'.1) ∧
    ∃ c ∈ s.captured, c.1 = s.written.length ∧ HoldsRecord c.2 [1] := by
  have hex : ∃ s : State Bool, run (step fun _ => attachedClient)
    (init (fun _ => 0) fun _ => 0) (writeActs true [1] ++ captureActs) = some s := ⟨_, rfl⟩
  obtain ⟨s, hs⟩ := hex
  obtain ⟨-, ho, hn⟩ := captured_whole_ordered_newest hs (by decide) (by decide)
  refine ⟨s, hs, ho, hn ⟨eq_of_run_map hs rfl, fun t => ?_, eq_of_run_map hs rfl⟩ [1]
    (eq_of_run_map (f := fun s => s.written.getLast?) hs rfl)⟩
  cases t with
  | false => exact eq_of_run_map (f := fun s => (s.writer false).announces) hs rfl
  | true => exact eq_of_run_map (f := fun s => (s.writer true).announces) hs rfl

/-- The wait of a lock attempt returned `WAIT_OBJECT_0`. -/
def Act.locks : Act ι → Bool
  | .lock _ ret | .readerLock ret => ret == .object0
  | _ => true

theorem Act.readerLocks_of_locks {a : Act ι} (h : a.locks = true) : a.readerLocks = true := by
  cases a <;> first | rfl | exact h

/-- Nothing is signalled, no `shm_write` is in progress, and the receive loop is at its
wait. -/
structure Quiescent (s : State ι) : Prop where
  esnd : s.esnd = false
  writer : ∀ t, ∃ ret, s.writer t = .outside ret
  reader : s.reader = .waiting

theorem Quiescent.settled (h : Quiescent s) : Settled s := by
  refine ⟨h.esnd, fun t => ?_, h.reader⟩
  obtain ⟨ret, ht⟩ := h.writer t
  simp [ht, WriterPc.announces]

/-- A record that was written is captured, whole, or the next write went over it before
the receive loop came. -/
theorem captured_or_overwritten (hrun : run (step V) (init d b) as = some s)
    (hx : ∀ a ∈ as, a.isExit = false) (hl : ∀ a ∈ as, a.locks = true) (hq : Quiescent s)
    (k : ℕ) (hk : k < s.written.length) :
    (∃ c ∈ s.captured, c.1 = k + 1 ∧ HoldsRecord c.2 s.written[k]) ∨
      (k + 1 < s.written.length ∧ ∀ c ∈ s.captured, c.1 ≠ k + 1) := by
  obtain ⟨-, hi⟩ := contents_run hrun hx
  have hp := pending_run hrun hx fun a ha => Act.readerLocks_of_locks (hl a ha)
  by_cases hc : ∃ c ∈ s.captured, c.1 = k + 1
  · obtain ⟨c, hc, hck⟩ := hc
    refine Or.inl ⟨c, hc, hck, hi.holdsRecord hc ?_⟩
    rw [hck, List.take_succ_eq_append_getElem hk, List.getLast?_concat]
  · have hno : ∀ c ∈ s.captured, c.1 ≠ k + 1 := fun c hm h => hc ⟨c, hm, h⟩
    refine Or.inr ⟨?_, hno⟩
    obtain ⟨c, hm, hle⟩ := hp.captured_last hq.settled (List.ne_nil_of_length_pos (by omega))
    have := (hi.captured c hm).1
    have := hno c hm
    omega

/-- Two writers, then the receive loop. -/
def twoWrites : List (Act Bool) :=
  writeActs false [1] ++ writeActs true [2] ++ captureActs

theorem captured_or_overwritten_two : ∃ (s : State Bool) (h : 0 < s.written.length),
    run (step fun _ => attachedClient) (init (fun _ => 0) fun _ => 0) twoWrites = some s ∧
    ((∃ c ∈ s.captured, c.1 = 1 ∧ HoldsRecord c.2 s.written[0]) ∨
      (1 < s.written.length ∧ ∀ c ∈ s.captured, c.1 ≠ 1)) := by
  have hex : ∃ s : State Bool, run (step fun _ => attachedClient)
    (init (fun _ => 0) fun _ => 0) twoWrites = some s := ⟨_, rfl⟩
  obtain ⟨s, hs⟩ := hex
  have hlen : s.written.length = 2 := eq_of_run_map (f := fun s => s.written.length) hs rfl
  have hq : Quiescent s := by
    refine ⟨eq_of_run_map hs rfl, fun t => ⟨some 1, ?_⟩, eq_of_run_map hs rfl⟩
    cases t with
    | false => exact eq_of_run_map (f := fun s => s.writer false) hs rfl
    | true => exact eq_of_run_map (f := fun s => s.writer true) hs rfl
  exact ⟨s, by omega, hs, captured_or_overwritten hs (by decide) (by decide) hq 0 (by omega)⟩

/-- Two writes before the receive loop comes : the first record is lost. -/
theorem not_all_captured : ¬∀ (as : List (Act Bool)) (s : State Bool),
    run (step fun _ => attachedClient) (init (fun _ => 0) fun _ => 0) as = some s →
    (∀ a ∈ as, a.isExit = false) → (∀ a ∈ as, a.locks = true) → Quiescent s →
    ∀ data ∈ s.written, ∃ c ∈ s.captured, HoldsRecord c.2 data := by
  intro h
  obtain ⟨c, hc, hr⟩ := h twoWrites _ rfl (by decide) (by decide)
    ⟨rfl, by rintro (_ | _) <;> exact ⟨_, rfl⟩, rfl⟩ [1] (by simp [State.setWriter])
  obtain rfl := List.mem_singleton.mp hc
  exact absurd (hr 0 (by decide)) (by decide)

end Runs

/-! ## A record captured twice -/

/-- A `SetEvent` finds the slot not captured since its last write, and the receive loop
not between its wait and the end of its copy. -/
def SignalsFresh (s : State ι) : Act ι → Prop
  | .signal _ => Fresh s ∧ s.reader.committed = false
  | _ => True

instance (s : State ι) : Decidable (Fresh s) :=
  inferInstanceAs (Decidable (∀ c ∈ s.captured, c.1 < s.written.length))

instance (s : State ι) (a : Act ι) : Decidable (SignalsFresh s a) :=
  match a with
  | .signal _ => inferInstanceAs (Decidable (Fresh s ∧ s.reader.committed = false))
  | .call _ _ | .lock _ _ | .copy _ _ | .copied _ | .unlock _ | .exit _ | .wake
  | .readerLock _ | .readerCopy _ | .readerCopied | .readerUnlock | .readerExit => isTrue trivial

/-- A signal, set or consumed, stands for a write that has not been captured. -/
structure Once (s : State ι) : Prop where
  signalled : s.esnd = true → Fresh s ∧ s.reader.committed = false
  committed : s.reader.committed = true → Fresh s
  bounded : ∀ c ∈ s.captured, c.1 ≤ s.written.length
  increasing : s.captured.Pairwise fun c c' => c.1 < c'.1

theorem once_init (d b : Block) : Once (init d b : State ι) :=
  ⟨by simp [init], by simp [init, ReaderPc.committed], by simp [init], List.Pairwise.nil⟩

/-- A reader that has taken the signal leaves none. -/
theorem Once.not_signalled {s : State ι} (hi : Once s) (hc : s.reader.committed = true) :
    ¬s.esnd = true := by
  intro he
  have := (hi.signalled he).2
  simp [hc] at this

theorem once_step {s s' : State ι} {a : Act ι} (ha : SignalsFresh s a) (hi : Once s)
    (h : Does s a s') : Once s' := by
  cases h with
  | call | lock | lockFailed | copy | unlock | exit =>
    exact ⟨hi.signalled, hi.committed, hi.bounded, hi.increasing⟩
  | copied hpc hk =>
    have hlt : ∀ c ∈ s.captured, c.1 < s.written.length + 1 :=
      fun c hc => Nat.lt_succ_of_le (hi.bounded c hc)
    refine ⟨fun he => ⟨fun c hc => ?_, (hi.signalled he).2⟩, fun _ c hc => ?_, fun c hc => ?_,
      hi.increasing⟩
    all_goals
      have := hlt c hc
      simp only [State.setWriter, List.length_append, List.length_singleton]
      omega
  | @signal t len hpc => exact ⟨fun _ => ha, hi.committed, hi.bounded, hi.increasing⟩
  | wake hr he =>
    exact ⟨fun h => by simp at h, fun _ => (hi.signalled he).1, hi.bounded, hi.increasing⟩
  | readerLock hr hw =>
    have hc : s.reader.committed = true := by simp [hr, ReaderPc.committed]
    exact ⟨fun he => absurd he (hi.not_signalled hc), fun _ => hi.committed hc, hi.bounded,
      hi.increasing⟩
  | readerLockFailed hr hne hw =>
    exact ⟨fun he => ⟨(hi.signalled he).1, rfl⟩, fun h => by simp [ReaderPc.committed] at h,
      hi.bounded, hi.increasing⟩
  | readerCopy hr hk =>
    have hc : s.reader.committed = true := by simp [hr, ReaderPc.committed]
    exact ⟨fun he => absurd he (hi.not_signalled hc), fun _ => hi.committed hc, hi.bounded,
      hi.increasing⟩
  | readerCopied hr =>
    have hc : s.reader.committed = true := by simp [hr, ReaderPc.committed]
    refine ⟨fun he => absurd he (hi.not_signalled hc), fun h => by simp [ReaderPc.committed] at h,
      fun c hm => ?_, ?_⟩
    · rcases List.mem_append.mp hm with hm | hm
      · exact hi.bounded c hm
      · obtain rfl := List.mem_singleton.mp hm
        exact Nat.le_refl _
    · refine List.pairwise_append.mpr ⟨hi.increasing, List.pairwise_singleton _ _,
        fun c hm c' hm' => ?_⟩
      obtain rfl := List.mem_singleton.mp hm'
      exact hi.committed hc c hm
  | readerUnlock hr | readerExit =>
    exact ⟨fun he => ⟨(hi.signalled he).1, rfl⟩, fun h => by simp [ReaderPc.committed] at h,
      hi.bounded, hi.increasing⟩

/-- In a run all of whose signals stand for a write not yet captured, no write is captured
twice. -/
theorem captured_once {V : Party ι → CalloutBlock} {d b : Block} {as : List (Act ι)}
    {s : State ι} (hrun : run (step V) (init d b) as = some s)
    (hm : StepsMeet (step V) SignalsFresh (init d b) as) :
    s.captured.Pairwise fun c c' => c.1 ≠ c'.1 :=
  (hm.invariant (fun _ _ _ ha hi h => once_step ha hi (does_of_step h)) (once_init d b)
    hrun).increasing.imp fun h => Nat.ne_of_lt h

theorem captured_once_two : ∃ s : State Bool,
    run (step fun _ => attachedClient) (init (fun _ => 0) fun _ => 0)
      (writeActs false [1] ++ captureActs ++ writeActs true [2] ++ captureActs) = some s ∧
    s.captured.Pairwise fun c c' => c.1 ≠ c'.1 := by
  have hex : ∃ s : State Bool, run (step fun _ => attachedClient) (init (fun _ => 0) fun _ => 0)
    (writeActs false [1] ++ captureActs ++ writeActs true [2] ++ captureActs) = some s := ⟨_, rfl⟩
  obtain ⟨s, hs⟩ := hex
  exact ⟨s, hs, captured_once hs (by decide)⟩

/-- The second writer copies after the receive loop consumed the first signal, and signals
after the loop left. -/
def lateSignal : List (Act Bool) :=
  writeActs false [1] ++ [.wake, .call true [2], .lock true .object0, .copy true 1, .copied true,
    .unlock true, .readerLock .object0, .readerCopy calloutLen, .readerCopied, .readerUnlock,
    .signal true] ++ captureActs

/-- A late signal makes the receive loop capture a record again. -/
theorem not_captured_once : ¬∀ (as : List (Act Bool)) (s : State Bool),
    run (step fun _ => attachedClient) (init (fun _ => 0) fun _ => 0) as = some s →
    s.captured.Pairwise fun c c' => c.1 ≠ c'.1 := by
  intro h
  have hex : ∃ s : State Bool, run (step fun _ => attachedClient)
    (init (fun _ => 0) fun _ => 0) lateSignal = some s := ⟨_, rfl⟩
  obtain ⟨s, hs⟩ := hex
  have hc : s.captured.map Prod.fst = [2, 2] :=
    eq_of_run_map (f := fun s => s.captured.map Prod.fst) hs rfl
  have hp := List.pairwise_map.mpr (h lateSignal s hs)
  rw [hc] at hp
  exact absurd hp (by decide)

end Slot

end DhcpToolset
