import Mathlib.Data.Nat.Basic

/-!
# Locks of the platform

A mutex is owned by at most one thread, which may take it again and then has to release
it as often. A thread that ends while it owns the mutex leaves it abandoned : the next
wait acquires it and says so. A wait that does not acquire the mutex timed out because
another thread kept it, or failed.

A slim reader/writer lock is held by one thread exclusively, or by any number of threads
that share it.
-/

namespace Win32

/-- What a wait on one object returned. -/
inductive WaitResult where
  | object0
  | abandoned
  | timeout
  | failed
  deriving DecidableEq, Repr

/-- The state of a mutex over the threads `θ`. -/
structure Mutex (θ : Type*) where
  owner : Option θ := none
  /-- How often the owner took the mutex. -/
  count : ℕ := 0
  abandoned : Bool := false

namespace Mutex

variable {θ : Type*} [DecidableEq θ]

/-- The mutex after a wait of `t` that returned `r`, if `r` is a result the wait can
have. -/
def wait (m : Mutex θ) (t : θ) : WaitResult → Option (Mutex θ)
  | .object0 =>
    if m.owner = none ∧ m.abandoned = false then some ⟨some t, 1, false⟩
    else if m.owner = some t then some { m with count := m.count + 1 }
    else none
  | .abandoned =>
    if m.owner = none ∧ m.abandoned = true then some ⟨some t, 1, false⟩ else none
  | .timeout => if m.owner = none ∨ m.owner = some t then none else some m
  | .failed => some m

/-- Released once by `t`. A thread that does not own the mutex cannot release it. -/
def release (m : Mutex θ) (t : θ) : Mutex θ :=
  if m.owner = some t then
    if m.count ≤ 1 then { m with owner := none, count := 0 }
    else { m with count := m.count - 1 }
  else m

/-- The mutex when `t` ends. -/
def exit (m : Mutex θ) (t : θ) : Mutex θ :=
  if m.owner = some t then ⟨none, 0, true⟩ else m

/-- Free or owned once, and not abandoned : the state of a mutex whose owners take it
once and release it. -/
def Plain (m : Mutex θ) : Prop :=
  m.abandoned = false ∧ (m.owner = none ∨ m.count = 1)

omit [DecidableEq θ] in
theorem plain_default : Plain ({} : Mutex θ) :=
  ⟨rfl, Or.inl rfl⟩

/-- A wait of another thread than the owner acquires a plain mutex when it is free. -/
theorem wait_object0 {m m' : Mutex θ} {t : θ} (hm : m.Plain) (ht : m.owner ≠ some t) :
    m.wait t .object0 = some m' ↔ m.owner = none ∧ m' = ⟨some t, 1, false⟩ := by
  by_cases h : m.owner = none
  · simp [wait, h, hm.1, eq_comm]
  · simp [wait, h, ht]

/-- The owner of a plain mutex frees it. -/
theorem release_owner {m : Mutex θ} {t : θ} (hm : m.Plain) (ht : m.owner = some t) :
    m.release t = ⟨none, 0, false⟩ := by
  have hc : m.count = 1 := hm.2.resolve_left (by simp [ht])
  simp [release, ht, hc, hm.1]

/-- Free or owned once, as `Plain`, but possibly abandoned. -/
def Once (m : Mutex θ) : Prop :=
  m.owner = none ∨ m.count = 1

/-- A wait of another thread than the owner that returns `WAIT_OBJECT_0`. -/
theorem eq_of_wait_object0 {m m' : Mutex θ} {t : θ} (ht : m.owner ≠ some t)
    (h : m.wait t .object0 = some m') : m' = ⟨some t, 1, false⟩ := by
  simp only [wait, ht, if_false] at h
  split_ifs at h
  exact (Option.some.inj h).symm

/-- A wait that returns `WAIT_ABANDONED` takes the mutex all the same. -/
theorem eq_of_wait_abandoned {m m' : Mutex θ} {t : θ} (h : m.wait t .abandoned = some m') :
    m' = ⟨some t, 1, false⟩ := by
  simp only [wait] at h
  split_ifs at h
  exact (Option.some.inj h).symm

/-- A wait that does not take the mutex changes nothing. -/
theorem eq_of_wait {m m' : Mutex θ} {t : θ} {r : WaitResult} (h0 : r ≠ .object0)
    (ha : r ≠ .abandoned) (h : m.wait t r = some m') : m' = m := by
  cases r with
  | object0 => exact absurd rfl h0
  | abandoned => exact absurd rfl ha
  | timeout =>
    simp only [wait] at h
    split_ifs at h
    exact (Option.some.inj h).symm
  | failed => exact (Option.some.inj h).symm

/-- On a plain mutex a wait that does not return `WAIT_OBJECT_0` changes nothing. -/
theorem wait_of_ne_object0 {m m' : Mutex θ} {t : θ} {r : WaitResult} (hm : m.Plain)
    (hr : r ≠ .object0) (h : m.wait t r = some m') : m' = m := by
  refine eq_of_wait hr ?_ h
  rintro rfl
  simp [wait, hm.1] at h

/-- A release by a thread leaves the mutex free, or with another owner. -/
theorem Once.release {m : Mutex θ} (hm : m.Once) (t : θ) :
    (m.release t).Once ∧ ∀ u, (m.release t).owner = some u → m.owner = some u ∧ u ≠ t := by
  unfold Mutex.release
  split_ifs with ht hc
  · exact ⟨Or.inl rfl, by simp⟩
  · exact absurd (hm.resolve_left (by simp [ht])) (by omega)
  · refine ⟨hm, fun u hu => ⟨hu, ?_⟩⟩
    rintro rfl
    exact ht hu

/-- So does the end of a thread. -/
theorem Once.exit {m : Mutex θ} (hm : m.Once) (t : θ) :
    (m.exit t).Once ∧ ∀ u, (m.exit t).owner = some u → m.owner = some u ∧ u ≠ t := by
  unfold Mutex.exit
  split_ifs with ht
  · exact ⟨Or.inl rfl, by simp⟩
  · refine ⟨hm, fun u hu => ⟨hu, ?_⟩⟩
    rintro rfl
    exact ht hu

end Mutex

/-- The state of an `SRWLOCK` that the threads `θ` share. -/
structure SrwLock (θ : Type*) where
  exclusive : Bool := false
  shared : List θ := []

namespace SrwLock

variable {θ : Type*} [DecidableEq θ]

/-- `AcquireSRWLockShared`, when it goes through. -/
def acquireShared (l : SrwLock θ) (t : θ) : Option (SrwLock θ) :=
  if l.exclusive then none else some { l with shared := t :: l.shared }

/-- `AcquireSRWLockExclusive`, when it goes through. -/
def acquireExclusive (l : SrwLock θ) : Option (SrwLock θ) :=
  if l.exclusive = false ∧ l.shared.isEmpty then some { l with exclusive := true } else none

/-- `ReleaseSRWLockShared`. -/
def releaseShared (l : SrwLock θ) (t : θ) : SrwLock θ :=
  { l with shared := l.shared.erase t }

/-- `ReleaseSRWLockExclusive`. -/
def releaseExclusive (l : SrwLock θ) : SrwLock θ :=
  { l with exclusive := false }

end SrwLock

end Win32
