import DhcpToolset.Shm
import DhcpToolset.Transition
import Mathlib.Logic.Function.Basic

/-!
# The slot between the hooks and the Monitor

Any number of hook threads call `shm_write` on the callout block, and the receive loop
of `_tmain` copies the slot out. `step` is one atomic step of one of them : a wait, a part
of a `memcpy`, a release, a `SetEvent`. The two copies move any number of bytes at a
time, so that a run may interleave them at every byte.

`written` records the completed copies into the slot, in the order of the mutex, and
`captured` the blocks the receive loop copied out, each with the number of writes before
it. `does_of_step` says what a step does. While no thread ends, the mutex belongs to the
thread inside its lock (`owned_step`), and the slot is the one after the completed copies
but for a copy that is under way (`contents_step`).
-/

set_option linter.unusedSectionVars false

open Win32 Transition

namespace DhcpToolset

/-- The bytes of the slot, and of the Monitor's receive buffer. -/
abbrev Block := Fin calloutLen → UInt8

/-- The bytes `i ≤ j < i + k` of `memcpy(dst, src, _)`. -/
def memcpyPart (dst src : Block) (i k : ℕ) : Block :=
  fun j => if i ≤ j ∧ j < i + k then src j else dst j

/-- A record as `shm_write` reads it through `data`. -/
def bytesOf (data : List UInt8) : Block :=
  fun j => data.getD j 0

/-- The slot after a whole copy of a record : `min(len, shm->len)` bytes of it. -/
def overwrite (slot : Block) (data : List UInt8) : Block :=
  memcpyPart slot (bytesOf data) 0 data.length

/-- The slot after the records of `written`, from the slot `d`. -/
def slotAfter (d : Block) (written : List (List UInt8)) : Block :=
  written.foldl overwrite d

/-- The block starts with the record, as far as the record fits. -/
def HoldsRecord (block : Block) (data : List UInt8) : Prop :=
  ∀ (j : Fin calloutLen) (h : j < data.length), block j = data[j]

theorem memcpyPart_zero (dst src : Block) (i : ℕ) : memcpyPart dst src i 0 = dst := by
  funext j
  simp only [memcpyPart]
  rw [if_neg (by omega)]

/-- A copy goes on where it stopped. -/
theorem memcpyPart_add (dst src : Block) (i k : ℕ) :
    memcpyPart (memcpyPart dst src 0 i) src i k = memcpyPart dst src 0 (i + k) := by
  funext j
  simp only [memcpyPart, Nat.zero_le, true_and, Nat.zero_add]
  split_ifs <;> first | rfl | omega

/-- Bytes past the end of the slot are not copied. -/
theorem memcpyPart_min (dst src : Block) (n : ℕ) :
    memcpyPart dst src 0 (min n calloutLen) = memcpyPart dst src 0 n := by
  funext j
  have := j.isLt
  simp only [memcpyPart, Nat.zero_le, true_and, Nat.zero_add, Nat.lt_min, this, and_true]

theorem slotAfter_append (d : Block) (written : List (List UInt8)) (data : List UInt8) :
    slotAfter d (written ++ [data]) = overwrite (slotAfter d written) data := by
  simp [slotAfter]

theorem holdsRecord_overwrite (slot : Block) (data : List UInt8) :
    HoldsRecord (overwrite slot data) data := by
  intro j h
  simp [overwrite, memcpyPart, bytesOf, h]

namespace Slot

variable {ι : Type*}

/-- The threads that use the slot. -/
inductive Party (ι : Type*) where
  | hook (t : ι)
  | monitor
  deriving DecidableEq

/-- Where a hook thread is in `shm_write`. -/
inductive WriterPc where
  /-- Not in a call. `ret` is what its last call returned. -/
  | outside (ret : Option ℤ)
  /-- In `shm_lock`. -/
  | locking (data : List UInt8)
  /-- In `memcpy`, `i` bytes done. -/
  | copying (data : List UInt8) (i : ℕ)
  /-- Before `shm_unlock`. -/
  | unlocking (len : ℕ)
  /-- Before `SetEvent`. -/
  | signalling (len : ℕ)
  | dead

/-- Where the receive loop is. -/
inductive ReaderPc where
  /-- In its wait on `esnd`. -/
  | waiting
  /-- In `shm_lock`, the signal consumed. -/
  | locking
  /-- In `memcpy`, `i` bytes done. -/
  | copying (i : ℕ)
  /-- Before `shm_unlock`. -/
  | unlocking
  | dead
  deriving DecidableEq

/-- Inside the lock. -/
def WriterPc.holds : WriterPc → Bool
  | .copying _ _ | .unlocking _ => true
  | _ => false

/-- Between the copy and the `SetEvent`. -/
def WriterPc.announces : WriterPc → Bool
  | .unlocking _ | .signalling _ => true
  | _ => false

/-- Inside the lock. -/
def ReaderPc.holds : ReaderPc → Bool
  | .copying _ | .unlocking => true
  | _ => false

/-- Between its wait and the end of its copy. -/
def ReaderPc.committed : ReaderPc → Bool
  | .locking | .copying _ => true
  | _ => false

/-- The slot with its mutex and its event, where its threads are, and what has been copied. -/
structure State (ι : Type*) where
  data : Block
  mutex : Mutex (Party ι)
  esnd : Bool
  writer : ι → WriterPc
  reader : ReaderPc
  /-- The receive buffer. -/
  buf : Block
  /-- The records copied into the slot. -/
  written : List (List UInt8)
  /-- The blocks copied out of the slot, with the number of writes before each. -/
  captured : List (ℕ × Block)

/-- One atomic step. A wait carries what it returned, a part of a copy its length. -/
inductive Act (ι : Type*) where
  | call (t : ι) (data : List UInt8)
  | lock (t : ι) (ret : WaitResult)
  | copy (t : ι) (k : ℕ)
  | copied (t : ι)
  | unlock (t : ι)
  | signal (t : ι)
  | exit (t : ι)
  | wake
  | readerLock (ret : WaitResult)
  | readerCopy (k : ℕ)
  | readerCopied
  | readerUnlock
  | readerExit

variable [DecidableEq ι]

/-- A writer goes on. -/
def State.setWriter (s : State ι) (t : ι) (pc : WriterPc) : State ι :=
  { s with writer := Function.update s.writer t pc }

/-- Nothing written, nobody in a call, the slot and the receive buffer as they were found. -/
def init (d b : Block) : State ι where
  data := d
  mutex := {}
  esnd := false
  writer _ := .outside none
  reader := .waiting
  buf := b
  written := []
  captured := []

/-- One step of `shm_write` or of the receive loop, `V` being the blocks the threads are
attached with. -/
def step (V : Party ι → CalloutBlock) (s : State ι) : Act ι → Option (State ι)
  | .call t data =>
    match s.writer t with
    | .outside _ => some (s.setWriter t (.locking data))
    | _ => none
  | .lock t ret =>
    match s.writer t with
    | .locking data => (s.mutex.wait (.hook t) ret).map fun m =>
        { s with mutex := m }.setWriter t
          (if shmLock (V (.hook t)).block ret then .copying data 0
          else .outside (some shmLockFailed))
    | _ => none
  | .copy t k =>
    match s.writer t with
    | .copying data i =>
      if i + k ≤ min data.length (V (.hook t)).block.len then
        some ({ s with data := memcpyPart s.data (bytesOf data) i k }.setWriter t
          (.copying data (i + k)))
      else none
    | _ => none
  | .copied t =>
    match s.writer t with
    | .copying data i =>
      if i = min data.length (V (.hook t)).block.len then
        some ({ s with written := s.written ++ [data] }.setWriter t (.unlocking i))
      else none
    | _ => none
  | .unlock t =>
    match s.writer t with
    | .unlocking len =>
      some ({ s with mutex := s.mutex.release (.hook t) }.setWriter t (.signalling len))
    | _ => none
  | .signal t =>
    match s.writer t with
    | .signalling len =>
      some ({ s with esnd := s.esnd || (V (.hook t)).block.esnd.isSome }.setWriter t
        (.outside (some len)))
    | _ => none
  | .exit t =>
    match s.writer t with
    | .dead => none
    | _ => some ({ s with mutex := s.mutex.exit (.hook t) }.setWriter t .dead)
  | .wake =>
    if s.reader = .waiting ∧ s.esnd = true then
      some { s with esnd := false, reader := .locking }
    else none
  | .readerLock ret =>
    if s.reader = .locking then
      (s.mutex.wait .monitor ret).map fun m =>
        { s with
          mutex := m
          reader := if shmLock (V .monitor).block ret then .copying 0 else .waiting }
    else none
  | .readerCopy k =>
    match s.reader with
    | .copying i =>
      if i + k ≤ calloutLen then
        some { s with buf := memcpyPart s.buf s.data i k, reader := .copying (i + k) }
      else none
    | _ => none
  | .readerCopied =>
    if s.reader = .copying calloutLen then
      some { s with
        captured := s.captured ++ [(s.written.length, s.buf)]
        reader := .unlocking }
    else none
  | .readerUnlock =>
    if s.reader = .unlocking then
      some { s with mutex := s.mutex.release .monitor, reader := .waiting }
    else none
  | .readerExit =>
    if s.reader = .dead then none
    else some { s with mutex := s.mutex.exit .monitor, reader := .dead }

/-! ## What a step does -/

/-- The steps, with the outcome of a wait resolved : a block with an initialised lock
succeeds in `shm_lock` exactly on `WAIT_OBJECT_0`. -/
inductive Does (s : State ι) : Act ι → State ι → Prop where
  | call {t data ret} : s.writer t = .outside ret →
      Does s (.call t data) (s.setWriter t (.locking data))
  | lock {t data m} : s.writer t = .locking data → s.mutex.wait (.hook t) .object0 = some m →
      Does s (.lock t .object0) ({ s with mutex := m }.setWriter t (.copying data 0))
  | lockFailed {t data ret m} : s.writer t = .locking data → ret ≠ .object0 →
      s.mutex.wait (.hook t) ret = some m →
      Does s (.lock t ret) ({ s with mutex := m }.setWriter t (.outside (some shmLockFailed)))
  | copy {t data i k} : s.writer t = .copying data i → i + k ≤ min data.length calloutLen →
      Does s (.copy t k) ({ s with data := memcpyPart s.data (bytesOf data) i k }.setWriter t
        (.copying data (i + k)))
  | copied {t data i} : s.writer t = .copying data i → i = min data.length calloutLen →
      Does s (.copied t) ({ s with written := s.written ++ [data] }.setWriter t (.unlocking i))
  | unlock {t len} : s.writer t = .unlocking len →
      Does s (.unlock t)
        ({ s with mutex := s.mutex.release (.hook t) }.setWriter t (.signalling len))
  | signal {t len} : s.writer t = .signalling len →
      Does s (.signal t) ({ s with esnd := true }.setWriter t (.outside (some len)))
  | exit {t} : Does s (.exit t) ({ s with mutex := s.mutex.exit (.hook t) }.setWriter t .dead)
  | wake : s.reader = .waiting → s.esnd = true →
      Does s .wake { s with esnd := false, reader := .locking }
  | readerLock {m} : s.reader = .locking → s.mutex.wait .monitor .object0 = some m →
      Does s (.readerLock .object0) { s with mutex := m, reader := .copying 0 }
  | readerLockFailed {ret m} : s.reader = .locking → ret ≠ .object0 →
      s.mutex.wait .monitor ret = some m →
      Does s (.readerLock ret) { s with mutex := m, reader := .waiting }
  | readerCopy {i k} : s.reader = .copying i → i + k ≤ calloutLen →
      Does s (.readerCopy k)
        { s with buf := memcpyPart s.buf s.data i k, reader := .copying (i + k) }
  | readerCopied : s.reader = .copying calloutLen →
      Does s .readerCopied
        { s with captured := s.captured ++ [(s.written.length, s.buf)], reader := .unlocking }
  | readerUnlock : s.reader = .unlocking →
      Does s .readerUnlock { s with mutex := s.mutex.release .monitor, reader := .waiting }
  | readerExit :
      Does s .readerExit { s with mutex := s.mutex.exit .monitor, reader := .dead }

theorem shmLock_callout (v : CalloutBlock) (ret : WaitResult) :
    shmLock v.block ret = (ret == .object0) := by
  simp [shmLock, lockWait, v.lock_init]

theorem does_of_step {V : Party ι → CalloutBlock} {s s' : State ι} {a : Act ι}
    (h : step V s a = some s') : Does s a s' := by
  cases a with
  | call t data =>
    simp only [step] at h
    split at h
    · obtain rfl := Option.some.inj h
      exact .call ‹_›
    · cases h
  | lock t ret =>
    simp only [step, shmLock_callout] at h
    split at h
    · obtain ⟨m, hm, rfl⟩ := Option.map_eq_some_iff.mp h
      by_cases hr : ret = .object0
      · subst hr
        exact .lock ‹_› hm
      · simpa [hr] using Does.lockFailed ‹_› hr hm
    · cases h
  | copy t k =>
    simp only [step, (V _).len_eq] at h
    split at h
    · split at h
      · obtain rfl := Option.some.inj h
        exact .copy ‹_› ‹_›
      · cases h
    · cases h
  | copied t =>
    simp only [step, (V _).len_eq] at h
    split at h
    · split at h
      · obtain rfl := Option.some.inj h
        exact .copied ‹_› ‹_›
      · cases h
    · cases h
  | unlock t =>
    simp only [step] at h
    split at h
    · obtain rfl := Option.some.inj h
      exact .unlock ‹_›
    · cases h
  | signal t =>
    simp only [step, (V _).esnd_isSome, Bool.or_true] at h
    split at h
    · obtain rfl := Option.some.inj h
      exact .signal ‹_›
    · cases h
  | exit t =>
    simp only [step] at h
    split at h
    · cases h
    · obtain rfl := Option.some.inj h
      exact .exit
  | wake =>
    obtain ⟨⟨hr, he⟩, rfl⟩ : (s.reader = .waiting ∧ s.esnd = true) ∧ _ = s' := by
      simpa [step] using h
    exact .wake hr he
  | readerLock ret =>
    simp only [step, shmLock_callout] at h
    split at h
    · obtain ⟨m, hm, rfl⟩ := Option.map_eq_some_iff.mp h
      by_cases hr : ret = .object0
      · subst hr
        exact .readerLock ‹_› hm
      · simpa [hr] using Does.readerLockFailed ‹_› hr hm
    · cases h
  | readerCopy k =>
    simp only [step] at h
    split at h
    · split at h
      · obtain rfl := Option.some.inj h
        exact .readerCopy ‹_› ‹_›
      · cases h
    · cases h
  | readerCopied =>
    obtain ⟨hr, rfl⟩ : s.reader = .copying calloutLen ∧ _ = s' := by simpa [step] using h
    exact .readerCopied hr
  | readerUnlock =>
    obtain ⟨hr, rfl⟩ : s.reader = .unlocking ∧ _ = s' := by simpa [step] using h
    exact .readerUnlock hr
  | readerExit =>
    obtain ⟨-, rfl⟩ : s.reader ≠ .dead ∧ _ = s' := by simpa [step] using h
    exact .readerExit

/-! ## Mutual exclusion -/

/-- The thread is inside its lock. -/
def State.holds (s : State ι) : Party ι → Bool
  | .hook t => (s.writer t).holds
  | .monitor => s.reader.holds

@[simp] theorem State.setWriter_self (s : State ι) (t : ι) (pc : WriterPc) :
    (s.setWriter t pc).writer t = pc := by
  simp [setWriter]

theorem State.setWriter_of_ne (s : State ι) {t u : ι} (pc : WriterPc) (h : u ≠ t) :
    (s.setWriter t pc).writer u = s.writer u := by
  simp [setWriter, h]

theorem State.holds_setWriter (s : State ι) (t : ι) (pc : WriterPc) (p : Party ι) :
    (s.setWriter t pc).holds p = if p = .hook t then pc.holds else s.holds p := by
  cases p with
  | monitor => simp [holds, setWriter]
  | hook u =>
    by_cases h : u = t
    · subst h
      simp [holds]
    · simp [holds, setWriter_of_ne s pc h, h]

/-- The mutex is owned, once, by the thread inside its lock. -/
structure Owned (s : State ι) : Prop where
  plain : s.mutex.Plain
  owner_iff : ∀ p, s.mutex.owner = some p ↔ s.holds p = true

namespace Owned

variable {s s' : State ι} {p : Party ι}

theorem unique (h : Owned s) {q : Party ι} (hp : s.holds p = true) (hq : s.holds q = true) :
    p = q :=
  Option.some.inj (((h.owner_iff p).2 hp).symm.trans ((h.owner_iff q).2 hq))

/-- A step on one side of the lock. -/
theorem stay (h : Owned s) (hm : s'.mutex = s.mutex) (hh : ∀ q, s'.holds q = s.holds q) :
    Owned s' :=
  ⟨hm ▸ h.plain, fun q => by rw [hm, hh, h.owner_iff]⟩

/-- A step of `shm_write` on one side of the lock. -/
theorem setWriter (h : Owned s) {t : ι} {pc : WriterPc} (hm : s'.mutex = s.mutex)
    (hh : ∀ q, s'.holds q = s.holds q) (hpc : pc.holds = (s.writer t).holds) :
    Owned (s'.setWriter t pc) := by
  refine h.stay hm fun q => ?_
  rw [State.holds_setWriter, hh]
  split_ifs with hq
  · rw [hq, hpc]
    rfl
  · rfl

/-- A wait that succeeds. -/
theorem acquire (h : Owned s) (hp : s.holds p = false)
    (hw : s.mutex.wait p .object0 = some s'.mutex) (hp' : s'.holds p = true)
    (hh : ∀ q, q ≠ p → s'.holds q = s.holds q) : Owned s' := by
  have hne : s.mutex.owner ≠ some p := by simp [h.owner_iff, hp]
  obtain ⟨hfree, hm⟩ := (Mutex.wait_object0 h.plain hne).mp hw
  refine ⟨by simp [hm, Mutex.Plain], fun q => ?_⟩
  rw [hm, Option.some.injEq]
  by_cases hq : q = p
  · simp [hq, hp']
  · have : s.holds q = false := by
      rw [← Bool.not_eq_true, ← h.owner_iff, hfree]
      simp
    simp [hh q hq, this, Ne.symm hq]

/-- A release. -/
theorem release (h : Owned s) (hp : s.holds p = true) (hm : s'.mutex = s.mutex.release p)
    (hp' : s'.holds p = false) (hh : ∀ q, q ≠ p → s'.holds q = s.holds q) : Owned s' := by
  rw [Mutex.release_owner h.plain ((h.owner_iff p).2 hp)] at hm
  refine ⟨by simp [hm, Mutex.Plain], fun q => ?_⟩
  have hq' : s'.holds q = false := by
    by_cases hq : q = p
    · rw [hq, hp']
    · rw [hh q hq, ← Bool.not_eq_true]
      exact fun hq' => hq (h.unique hq' hp)
  simp [hm, hq']

end Owned

/-- A thread ends. -/
def Act.isExit : Act ι → Bool
  | .exit _ | .readerExit => true
  | _ => false

theorem owned_init (d b : Block) : Owned (init d b : State ι) := by
  refine ⟨Mutex.plain_default, fun p => ?_⟩
  cases p <;> simp [init, State.holds, WriterPc.holds, ReaderPc.holds]

/-- While no thread ends, the mutex belongs to the thread inside its lock. -/
theorem owned_step {s s' : State ι} {a : Act ι} (ha : a.isExit = false) (hi : Owned s)
    (h : Does s a s') : Owned s' := by
  cases h with
  | @call t data ret hpc =>
    exact hi.setWriter rfl (fun _ => rfl) (by simp [hpc, WriterPc.holds])
  | @lock t data m hpc hw =>
    refine hi.acquire (p := .hook t) (by simp [State.holds, hpc, WriterPc.holds]) hw
      (by simp [State.holds, WriterPc.holds]) fun q hq => ?_
    rw [State.holds_setWriter, if_neg hq]
    rfl
  | @lockFailed t data ret m hpc hr hw =>
    exact hi.setWriter (Mutex.wait_of_ne_object0 hi.plain hr hw) (fun _ => rfl)
      (by simp [hpc, WriterPc.holds])
  | @copy t data i k hpc hk =>
    exact hi.setWriter rfl (fun _ => rfl) (by simp [hpc, WriterPc.holds])
  | @copied t data i hpc hk =>
    exact hi.setWriter rfl (fun _ => rfl) (by simp [hpc, WriterPc.holds])
  | @unlock t len hpc =>
    refine hi.release (p := .hook t) (by simp [State.holds, hpc, WriterPc.holds]) rfl
      (by simp [State.holds, WriterPc.holds]) fun q hq => ?_
    rw [State.holds_setWriter, if_neg hq]
    rfl
  | @signal t len hpc =>
    exact hi.setWriter rfl (fun _ => rfl) (by simp [hpc, WriterPc.holds])
  | exit => simp [Act.isExit] at ha
  | wake hr he => exact hi.stay rfl fun q => by cases q <;> simp [State.holds, hr, ReaderPc.holds]
  | @readerLock m hr hw =>
    refine hi.acquire (p := .monitor) (by simp [State.holds, hr, ReaderPc.holds]) hw
      (by simp [State.holds, ReaderPc.holds]) fun q hq => ?_
    cases q with
    | hook t => rfl
    | monitor => exact absurd rfl hq
  | readerLockFailed hr hne hw =>
    refine hi.stay (Mutex.wait_of_ne_object0 hi.plain hne hw) fun q => ?_
    cases q <;> simp [State.holds, hr, ReaderPc.holds]
  | readerCopy hr hk =>
    exact hi.stay rfl fun q => by cases q <;> simp [State.holds, hr, ReaderPc.holds]
  | readerCopied hr =>
    exact hi.stay rfl fun q => by cases q <;> simp [State.holds, hr, ReaderPc.holds]
  | readerUnlock hr =>
    refine hi.release (p := .monitor) (by simp [State.holds, hr, ReaderPc.holds]) rfl
      (by simp [State.holds, ReaderPc.holds]) fun q hq => ?_
    cases q with
    | hook t => rfl
    | monitor => exact absurd rfl hq
  | readerExit => simp [Act.isExit] at ha

/-! ## The slot and the copies -/

/-- The slot is the one after the completed copies, but for the first `i` bytes of a copy
that is under way; the receive buffer has the first `i` bytes of the slot; a captured
block is the slot after the writes before it. -/
structure Contents (d : Block) (s : State ι) : Prop where
  writing : ∀ t data i, s.writer t = .copying data i →
    s.data = memcpyPart (slotAfter d s.written) (bytesOf data) 0 i
  quiet : (∀ t data i, s.writer t ≠ .copying data i) → s.data = slotAfter d s.written
  reading : ∀ i, s.reader = .copying i → ∀ j : Fin calloutLen, j < i → s.buf j = s.data j
  captured : ∀ c ∈ s.captured, c.1 ≤ s.written.length ∧ c.2 = slotAfter d (s.written.take c.1)
  ordered : s.captured.Pairwise fun c c' => c.1 ≤ c'.1

/-- No writer copies while another thread is inside the lock. -/
theorem Owned.not_copying {s : State ι} (h : Owned s) {p : Party ι} (hp : s.holds p = true)
    {t : ι} (ht : .hook t ≠ p) (data : List UInt8) (i : ℕ) : s.writer t ≠ .copying data i :=
  fun hpc => ht (h.unique (by simp [State.holds, hpc, WriterPc.holds]) hp)

/-- No writer copies while the mutex is free. -/
theorem Owned.not_copying_of_free {s : State ι} (h : Owned s) (hfree : s.mutex.owner = none)
    (t : ι) (data : List UInt8) (i : ℕ) : s.writer t ≠ .copying data i := by
  intro hpc
  have := (h.owner_iff (.hook t)).2 (by simp [State.holds, hpc, WriterPc.holds])
  simp [hfree] at this

/-- A step of `shm_write` outside its copy. -/
theorem Contents.setWriter {d : Block} {s : State ι} (h : Contents d s) {t : ι} {pc : WriterPc}
    (hs : ∀ data i, s.writer t ≠ .copying data i) (hpc : ∀ data i, pc ≠ .copying data i)
    (m : Mutex (Party ι)) (e : Bool) :
    Contents d ({ s with mutex := m, esnd := e }.setWriter t pc) := by
  refine ⟨fun u data i hu => ?_, fun hq => h.quiet fun u data i hu => ?_, h.reading, h.captured,
    h.ordered⟩
  · by_cases hut : u = t
    · subst hut
      simp only [State.setWriter_self] at hu
      exact absurd hu (hpc data i)
    · rw [State.setWriter_of_ne _ _ hut] at hu
      exact h.writing u data i hu
  · have hut : u ≠ t := fun hut => hs data i (hut ▸ hu)
    exact hq u data i (by rw [State.setWriter_of_ne _ _ hut]; exact hu)

theorem contents_init (d b : Block) : Contents d (init d b : State ι) :=
  ⟨fun _ _ _ h => by simp [init] at h, fun _ => rfl, fun _ h => by simp [init] at h,
    fun _ h => by simp [init] at h, List.Pairwise.nil⟩

theorem contents_step {d : Block} {s s' : State ι} {a : Act ι} (ha : a.isExit = false)
    (ho : Owned s) (hi : Contents d s) (h : Does s a s') : Contents d s' := by
  cases h with
  | call hpc => exact hi.setWriter (by simp [hpc]) (by simp) _ _
  | @lock t data m hpc hw =>
    have hne : s.mutex.owner ≠ some (.hook t) := by
      simp [ho.owner_iff, State.holds, hpc, WriterPc.holds]
    have hq := ho.not_copying_of_free ((Mutex.wait_object0 ho.plain hne).mp hw).1
    refine ⟨fun u data' i hu => ?_, fun hq' => ?_, hi.reading, hi.captured, hi.ordered⟩
    · by_cases hut : u = t
      · subst hut
        simp only [State.setWriter_self, WriterPc.copying.injEq] at hu
        obtain ⟨-, rfl⟩ := hu
        rw [memcpyPart_zero]
        exact hi.quiet hq
      · rw [State.setWriter_of_ne _ _ hut] at hu
        exact absurd hu (hq u data' i)
    · exact absurd (State.setWriter_self _ t _) (hq' t data 0)
  | lockFailed hpc hr hw => exact hi.setWriter (by simp [hpc]) (by simp) _ _
  | @copy t data i k hpc hk =>
    have hholds : s.holds (.hook t) = true := by simp [State.holds, hpc, WriterPc.holds]
    refine ⟨fun u data' i' hu => ?_, fun hq' => ?_, fun i' hr => ?_, hi.captured, hi.ordered⟩
    · by_cases hut : u = t
      · subst hut
        simp only [State.setWriter_self, WriterPc.copying.injEq] at hu
        obtain ⟨rfl, rfl⟩ := hu
        show memcpyPart s.data (bytesOf data) i k =
          memcpyPart (slotAfter d s.written) (bytesOf data) 0 (i + k)
        rw [hi.writing u data i hpc, memcpyPart_add]
      · rw [State.setWriter_of_ne _ _ hut] at hu
        exact absurd hu (ho.not_copying hholds (by simp [hut]) data' i')
    · exact absurd (State.setWriter_self _ t _) (hq' t data (i + k))
    · have hr' : s.reader = .copying i' := hr
      exact absurd (ho.unique hholds (q := .monitor)
        (by simp [State.holds, hr', ReaderPc.holds])) (by simp)
  | @copied t data i hpc hk =>
    have hholds : s.holds (.hook t) = true := by simp [State.holds, hpc, WriterPc.holds]
    have hdata : s.data = slotAfter d (s.written ++ [data]) := by
      rw [hi.writing t data i hpc, hk, memcpyPart_min, slotAfter_append]
      rfl
    refine ⟨fun u data' i' hu => ?_, fun _ => hdata, fun i' hr => ?_, fun c hc => ?_, hi.ordered⟩
    · by_cases hut : u = t
      · subst hut
        simp at hu
      · rw [State.setWriter_of_ne _ _ hut] at hu
        exact absurd hu (ho.not_copying hholds (by simp [hut]) data' i')
    · have hr' : s.reader = .copying i' := hr
      exact absurd (ho.unique hholds (q := .monitor)
        (by simp [State.holds, hr', ReaderPc.holds])) (by simp)
    · obtain ⟨hle, hc⟩ := hi.captured c hc
      refine ⟨Nat.le_trans hle (by simp [State.setWriter]), ?_⟩
      simpa [State.setWriter, List.take_append_of_le_length hle] using hc
  | unlock hpc => exact hi.setWriter (by simp [hpc]) (by simp) _ _
  | signal hpc => exact hi.setWriter (by simp [hpc]) (by simp) _ _
  | exit => simp [Act.isExit] at ha
  | wake hr he => exact ⟨hi.writing, hi.quiet, fun _ h => by simp at h, hi.captured, hi.ordered⟩
  | readerLock hr hw =>
    refine ⟨hi.writing, hi.quiet, fun i h j hj => ?_, hi.captured, hi.ordered⟩
    obtain rfl : 0 = i := by simpa using h
    omega
  | readerLockFailed hr hne hw =>
    exact ⟨hi.writing, hi.quiet, fun _ h => by simp at h, hi.captured, hi.ordered⟩
  | @readerCopy i k hr hk =>
    refine ⟨hi.writing, hi.quiet, fun i' h j hj => ?_, hi.captured, hi.ordered⟩
    obtain rfl : i + k = i' := by simpa using h
    simp only [memcpyPart]
    split_ifs with hji
    · rfl
    · exact hi.reading i hr j (by omega)
  | readerCopied hr =>
    have hholds : s.holds .monitor = true := by simp [State.holds, hr, ReaderPc.holds]
    have hbuf : s.buf = slotAfter d s.written := by
      rw [← hi.quiet fun t data i => ho.not_copying hholds (by simp) data i]
      funext j
      exact hi.reading _ hr j j.isLt
    refine ⟨hi.writing, hi.quiet, fun _ h => by simp at h, fun c hc => ?_, ?_⟩
    · rcases List.mem_append.mp hc with hc | hc
      · exact hi.captured c hc
      · obtain rfl := List.mem_singleton.mp hc
        exact ⟨le_rfl, by simpa using hbuf⟩
    · refine List.pairwise_append.mpr ⟨hi.ordered, List.pairwise_singleton _ _,
        fun c hc c' hc' => ?_⟩
      obtain rfl := List.mem_singleton.mp hc'
      exact (hi.captured c hc).1
  | readerUnlock hr =>
    exact ⟨hi.writing, hi.quiet, fun _ h => by simp at h, hi.captured, hi.ordered⟩
  | readerExit => simp [Act.isExit] at ha

end Slot

end DhcpToolset
