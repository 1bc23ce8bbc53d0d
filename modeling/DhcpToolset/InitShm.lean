import DhcpToolset.CalloutHook
import Mathlib.Logic.Function.Basic

/-!
# `InitSHM` in several threads

The DHCP server calls the hooks from several threads, and each hook first calls `InitSHM`.
`step` is one statement of one of them : a read or a write of the global `shm`, a wait, a
release, the start or the end of `shm_init`. The blocks that `malloc` returned are cells
of a store, `shm` is the address of one of them or `NULL`. A `malloc` that returns `NULL`
makes the next statement fault and ends the process, so its steps are not in a run.

`does_of_step` says what a step does, and `owner_of_does` how a thread comes to own the lock.
`Inv` ties the position of the thread inside the lock to what it has made of `shm`; a thread
that left with the lock (the second check returns inside it) did so after the success, so it
never waits for the lock again. `inv_run` : it holds after every run.
-/

set_option linter.unusedSectionVars false

open Win32 Transition

namespace DhcpToolset

namespace InitShm

variable {ι : Type*}

/-- Where a thread is in `InitSHM`. -/
inductive Pc where
  | outside
  /-- Before the first check of `shm`. -/
  | checking
  /-- In `lock_wait`. -/
  | waiting
  /-- Before the second check of `shm`. -/
  | rechecking
  /-- Before `shm = malloc(..)`, `ZeroMemory`, `shm->len = 2048` and `_tcscpy`. -/
  | allocating
  | zeroing
  | setting
  | naming
  /-- Before the call of `shm_init_client`. -/
  | starting
  /-- In `shm_init` of the block at `b`. -/
  | initialising (b : ℕ)
  /-- Before `free(shm)` and before `shm = NULL`. -/
  | failing
  | resetting
  /-- Before `lock_release`, and before the last `return`. -/
  | releasing
  | returning
  deriving DecidableEq

namespace Pc

/-- Inside the lock. -/
def holds : Pc → Bool
  | .outside | .checking | .waiting | .returning => false
  | _ => true

/-- Between the second check and the end of what follows from it for `shm`. -/
def busy : Pc → Bool
  | .allocating | .zeroing | .setting | .naming | .starting | .initialising _ | .failing
  | .resetting => true
  | _ => false

/-- Between the `malloc` and the end of `shm_init`. -/
def building : Pc → Bool
  | .zeroing | .setting | .naming | .starting | .initialising _ => true
  | _ => false

/-- Between the `malloc` and the release of the lock. -/
def working : Pc → Bool
  | .zeroing | .setting | .naming | .starting | .initialising _ | .failing | .resetting
  | .releasing => true
  | _ => false

end Pc

/-- A block on the heap, with the calls of its `shm_init` and its result once it returned. -/
structure Cell where
  block : ShmBlock
  inited : Option (ShmInitCalls × ℤ)

/-- The `return` statements of `InitSHM`, in their order. -/
inductive Path where
  | first
  | lockFailed
  | second
  | last
  deriving DecidableEq

/-- What is returned there. -/
def Path.value : Path → Bool
  | .lockFailed => false
  | _ => true

/-- A call that returned, with `shm` and its block at that time. -/
structure Return where
  path : Path
  shm : Option ℕ
  cell : Option Cell

/-- `shm` and the blocks it may point to, the lock, and where the threads are. -/
structure State (ι : Type*) where
  shm : Option ℕ
  store : ℕ → Option Cell
  /-- The mutex of `_shm_init_lock`. -/
  mutex : Mutex ι
  pc : ι → Pc
  /-- The blocks whose `shm_init` succeeded. -/
  succeeded : List ℕ
  returns : List Return

/-- One statement of `InitSHM`. A wait carries its result, `malloc` the block it returned
with what was left in it, and the end of `shm_init` what its system calls returned. -/
inductive Act (ι : Type*) where
  | call (t : ι)
  | check (t : ι)
  | wait (t : ι) (ret : WaitResult)
  | recheck (t : ι)
  | alloc (t : ι) (b : ℕ) (junk : ShmBlock)
  | zero (t : ι)
  | setLen (t : ι)
  | setName (t : ι)
  | start (t : ι)
  | finish (t : ι) (calls : ShmInitCalls)
  | free (t : ι)
  | reset (t : ι)
  | release (t : ι)
  | ret (t : ι)

/-- After `DHCP_CONTROL_START`. -/
def init : State ι where
  shm := none
  store _ := none
  mutex := {}
  pc _ := .outside
  succeeded := []
  returns := []

variable [DecidableEq ι]

namespace State

/-- A thread goes on. -/
def goto (s : State ι) (t : ι) (pc : Pc) : State ι :=
  { s with pc := Function.update s.pc t pc }

/-- The call of `t` returns. -/
def leave (s : State ι) (t : ι) (path : Path) : State ι :=
  { s with returns := s.returns ++ [(⟨path, s.shm, s.shm.bind s.store⟩ : Return)] }.goto t .outside

/-- A block of the heap is written or freed. -/
def put (s : State ι) (b : ℕ) (c : Option Cell) : State ι :=
  { s with store := Function.update s.store b c }

/-- The block that `shm` points to. Without one the access faults. -/
def deref (s : State ι) : Option (ℕ × Cell) :=
  s.shm.bind fun b => (s.store b).map fun c => (b, c)

end State

/-- The cell after its `shm_init`. -/
def Cell.finish (c : Cell) (calls : ShmInitCalls) : Cell where
  block := (shmInit calls c.block none).1
  inited := some (calls, (shmInit calls c.block none).2)

/-- One statement of one thread, `lock` being `_shm_init_lock`. -/
def step (lock : Lock) (s : State ι) : Act ι → Option (State ι)
  | .call t => if s.pc t = .outside then some (s.goto t .checking) else none
  | .check t =>
    if s.pc t = .checking then
      some (if s.shm.isSome then s.leave t .first else s.goto t .waiting)
    else none
  | .wait t ret =>
    if s.pc t = .waiting then
      -- `lock_wait` does not wait for a lock that is not initialised
      (if lock.init then s.mutex.wait t ret else some s.mutex).map fun m =>
        if lockWait lock ret then { s with mutex := m }.goto t .rechecking
        else { s with mutex := m }.leave t .lockFailed
    else none
  | .recheck t =>
    if s.pc t = .rechecking then
      some (if s.shm.isSome then s.leave t .second else s.goto t .allocating)
    else none
  | .alloc t b junk =>
    if s.pc t = .allocating ∧ (s.store b).isNone then
      some (({ s with shm := some b }.put b (some ⟨junk, none⟩)).goto t .zeroing)
    else none
  | .zero t =>
    if s.pc t = .zeroing then
      s.deref.map fun (b, c) => (s.put b (some { c with block := {} })).goto t .setting
    else none
  | .setLen t =>
    if s.pc t = .setting then
      s.deref.map fun (b, c) =>
        (s.put b (some { c with block := { c.block with len := calloutLen } })).goto t .naming
    else none
  | .setName t => if s.pc t = .naming then s.deref.map fun _ => s.goto t .starting else none
  | .start t =>
    if s.pc t = .starting then s.shm.map fun b => s.goto t (.initialising b) else none
  | .finish t calls =>
    match s.pc t with
    | .initialising b =>
      (s.store b).map fun c =>
        if failed (shmInit calls c.block none).2 then
          (s.put b (some (c.finish calls))).goto t .failing
        else
          ({ s with succeeded := s.succeeded ++ [b] }.put b (some (c.finish calls))).goto t
            .releasing
    | _ => none
  | .free t =>
    if s.pc t = .failing then s.deref.map fun (b, _) => (s.put b none).goto t .resetting
    else none
  | .reset t =>
    if s.pc t = .resetting then some ({ s with shm := none }.goto t .releasing) else none
  | .release t =>
    if s.pc t = .releasing then
      some ({ s with mutex := if lock.init then s.mutex.release t else s.mutex }.goto t .returning)
    else none
  | .ret t => if s.pc t = .returning then some (s.leave t .last) else none

/-! ## What a step does -/

/-- The steps, with their branches resolved. A wait for a plain mutex that does not return
`WAIT_OBJECT_0` leaves it. -/
inductive Does (lock : Lock) (s : State ι) : Act ι → State ι → Prop where
  | call {t} : s.pc t = .outside → Does lock s (.call t) (s.goto t .checking)
  | found {t b} : s.pc t = .checking → s.shm = some b → Does lock s (.check t) (s.leave t .first)
  | notFound {t} : s.pc t = .checking → s.shm = none → Does lock s (.check t) (s.goto t .waiting)
  | locked {t m} : s.pc t = .waiting → lock.init = true → s.mutex.wait t .object0 = some m →
      Does lock s (.wait t .object0) ({ s with mutex := m }.goto t .rechecking)
  | lockFailed {t ret} : s.pc t = .waiting → Does lock s (.wait t ret) (s.leave t .lockFailed)
  | foundLocked {t b} : s.pc t = .rechecking → s.shm = some b →
      Does lock s (.recheck t) (s.leave t .second)
  | notFoundLocked {t} : s.pc t = .rechecking → s.shm = none →
      Does lock s (.recheck t) (s.goto t .allocating)
  | alloc {t b junk} : s.pc t = .allocating → s.store b = none →
      Does lock s (.alloc t b junk)
        (({ s with shm := some b }.put b (some ⟨junk, none⟩)).goto t .zeroing)
  | zero {t b c} : s.pc t = .zeroing → s.shm = some b → s.store b = some c →
      Does lock s (.zero t) ((s.put b (some { c with block := {} })).goto t .setting)
  | setLen {t b c} : s.pc t = .setting → s.shm = some b → s.store b = some c →
      Does lock s (.setLen t)
        ((s.put b (some { c with block := { c.block with len := calloutLen } })).goto t .naming)
  | setName {t} : s.pc t = .naming → Does lock s (.setName t) (s.goto t .starting)
  | start {t b} : s.pc t = .starting → s.shm = some b →
      Does lock s (.start t) (s.goto t (.initialising b))
  | finish {t b c calls} : s.pc t = .initialising b → s.store b = some c →
      (shmInit calls c.block none).2 = shmOk →
      Does lock s (.finish t calls)
        (({ s with succeeded := s.succeeded ++ [b] }.put b (some (c.finish calls))).goto t
          .releasing)
  | finishFailed {t b c calls} : s.pc t = .initialising b → s.store b = some c →
      (shmInit calls c.block none).2 ≠ shmOk →
      Does lock s (.finish t calls) ((s.put b (some (c.finish calls))).goto t .failing)
  | free {t b} : s.pc t = .failing → s.shm = some b →
      Does lock s (.free t) ((s.put b none).goto t .resetting)
  | reset {t} : s.pc t = .resetting →
      Does lock s (.reset t) ({ s with shm := none }.goto t .releasing)
  | release {t} : s.pc t = .releasing →
      Does lock s (.release t)
        ({ s with mutex := if lock.init then s.mutex.release t else s.mutex }.goto t .returning)
  | ret {t} : s.pc t = .returning → Does lock s (.ret t) (s.leave t .last)

theorem State.deref_eq_some {s : State ι} {b : ℕ} {c : Cell} :
    s.deref = some (b, c) ↔ s.shm = some b ∧ s.store b = some c := by
  simp only [deref, Option.bind_eq_some_iff, Option.map_eq_some_iff]
  constructor
  · rintro ⟨b', hb, c', hc, heq⟩
    obtain ⟨rfl, rfl⟩ := Prod.mk.inj heq
    exact ⟨hb, hc⟩
  · rintro ⟨hb, hc⟩
    exact ⟨b, hb, c, hc, rfl⟩

theorem does_of_step {lock : Lock} {s s' : State ι} {a : Act ι} (hm : s.mutex.Plain)
    (h : step lock s a = some s') : Does lock s a s' := by
  cases a with
  | call t =>
    obtain ⟨hpc, rfl⟩ : s.pc t = .outside ∧ _ = s' := by simpa [step] using h
    exact .call hpc
  | check t =>
    obtain ⟨hpc, h⟩ := Option.ite_none_right_eq_some.mp h
    obtain rfl := Option.some.inj h
    cases hs : s.shm with
    | none => exact .notFound hpc hs
    | some b => exact .found hpc hs
  | wait t ret =>
    obtain ⟨hpc, h⟩ := Option.ite_none_right_eq_some.mp h
    obtain ⟨m, hw, rfl⟩ := Option.map_eq_some_iff.mp h
    by_cases hl : lock.init = true
    · rw [if_pos hl] at hw
      by_cases hr : ret = .object0
      · subst hr
        simpa [lockWait, hl] using Does.locked hpc hl hw
      · obtain rfl := Mutex.wait_of_ne_object0 hm hr hw
        simpa [lockWait, hr] using (.lockFailed hpc : Does lock s (.wait t ret) _)
    · rw [if_neg hl] at hw
      obtain rfl := Option.some.inj hw
      simpa [lockWait, hl] using (.lockFailed hpc : Does lock s (.wait t ret) _)
  | recheck t =>
    obtain ⟨hpc, h⟩ := Option.ite_none_right_eq_some.mp h
    obtain rfl := Option.some.inj h
    cases hs : s.shm with
    | none => exact .notFoundLocked hpc hs
    | some b => exact .foundLocked hpc hs
  | alloc t b junk =>
    obtain ⟨⟨hpc, hb⟩, h⟩ := Option.ite_none_right_eq_some.mp h
    obtain rfl := Option.some.inj h
    exact .alloc hpc (by simpa using hb)
  | zero t =>
    obtain ⟨hpc, h⟩ := Option.ite_none_right_eq_some.mp h
    obtain ⟨⟨b, c⟩, hd, rfl⟩ := Option.map_eq_some_iff.mp h
    obtain ⟨hs, hc⟩ := State.deref_eq_some.mp hd
    exact .zero hpc hs hc
  | setLen t =>
    obtain ⟨hpc, h⟩ := Option.ite_none_right_eq_some.mp h
    obtain ⟨⟨b, c⟩, hd, rfl⟩ := Option.map_eq_some_iff.mp h
    obtain ⟨hs, hc⟩ := State.deref_eq_some.mp hd
    exact .setLen hpc hs hc
  | setName t =>
    obtain ⟨hpc, h⟩ := Option.ite_none_right_eq_some.mp h
    obtain ⟨_, -, rfl⟩ := Option.map_eq_some_iff.mp h
    exact .setName hpc
  | start t =>
    obtain ⟨hpc, h⟩ := Option.ite_none_right_eq_some.mp h
    obtain ⟨b, hs, rfl⟩ := Option.map_eq_some_iff.mp h
    exact .start hpc hs
  | finish t calls =>
    simp only [step] at h
    split at h
    · rename_i b hpc
      obtain ⟨c, hc, rfl⟩ := Option.map_eq_some_iff.mp h
      have hcode := failed_shmInit calls c.block none
      cases hf : failed (shmInit calls c.block none).2 with
      | false =>
        rw [if_neg (by simp)]
        exact .finish hpc hc (hcode.mp hf)
      | true =>
        rw [if_pos rfl]
        exact .finishFailed hpc hc fun hok => by simp [hcode.mpr hok] at hf
    · cases h
  | free t =>
    obtain ⟨hpc, h⟩ := Option.ite_none_right_eq_some.mp h
    obtain ⟨⟨b, c⟩, hd, rfl⟩ := Option.map_eq_some_iff.mp h
    exact .free hpc (State.deref_eq_some.mp hd).1
  | reset t =>
    obtain ⟨hpc, rfl⟩ : s.pc t = .resetting ∧ _ = s' := by simpa [step] using h
    exact .reset hpc
  | release t =>
    obtain ⟨hpc, h⟩ := Option.ite_none_right_eq_some.mp h
    obtain rfl := Option.some.inj h
    exact .release hpc
  | ret t =>
    obtain ⟨hpc, rfl⟩ : s.pc t = .returning ∧ _ = s' := by simpa [step] using h
    exact .ret hpc

/-! ## The owner of the lock -/

namespace State

@[simp] theorem goto_self (s : State ι) (t : ι) (pc : Pc) : (s.goto t pc).pc t = pc := by
  simp [goto]

@[simp] theorem goto_of_ne (s : State ι) {t u : ι} (pc : Pc) (h : u ≠ t) :
    (s.goto t pc).pc u = s.pc u := by
  simp [goto, h]

@[simp] theorem leave_self (s : State ι) (t : ι) (path : Path) :
    (s.leave t path).pc t = .outside := by
  simp [leave]

@[simp] theorem leave_of_ne (s : State ι) {t u : ι} (path : Path) (h : u ≠ t) :
    (s.leave t path).pc u = s.pc u := by
  simp [leave, h]

end State

/-- A plain mutex that belongs to any thread inside the lock. -/
structure Locked (lock : Lock) (s : State ι) : Prop where
  plain : s.mutex.Plain
  owner : ∀ t, (s.pc t).holds = true → lock.init = true ∧ s.mutex.owner = some t
  waiting : ∀ t, s.pc t = .waiting → s.mutex.owner ≠ some t

/-- A step of `t` leaves the other threads. -/
def Moves (s s' : State ι) (t : ι) : Prop :=
  ∀ u, u ≠ t → s'.pc u = s.pc u

theorem moves_goto {s s' : State ι} (hpc : s'.pc = s.pc) (t : ι) (pc : Pc) :
    Moves s (s'.goto t pc) t :=
  fun u h => by rw [s'.goto_of_ne pc h, hpc]

theorem moves_leave (s : State ι) (t : ι) (path : Path) : Moves s (s.leave t path) t :=
  fun _ h => s.leave_of_ne path h

namespace Locked

variable {lock : Lock} {s s' : State ι} {t : ι}

theorem unique (h : Locked lock s) {u : ι} (ht : (s.pc t).holds = true)
    (hu : (s.pc u).holds = true) : t = u :=
  Option.some.inj ((h.owner t ht).2.symm.trans (h.owner u hu).2)

/-- A step that takes nothing. -/
theorem stay (h : Locked lock s) (hm : s'.mutex = s.mutex) (hmove : Moves s s' t)
    (hh : (s'.pc t).holds = true → (s.pc t).holds = true)
    (hw : s'.pc t = .waiting → s.mutex.owner ≠ some t) : Locked lock s' := by
  refine ⟨hm ▸ h.plain, fun u hu => ?_, fun u hu => ?_⟩
  · rw [hm]
    by_cases hut : u = t
    · subst hut
      exact h.owner u (hh hu)
    · exact h.owner u (by rwa [hmove u hut] at hu)
  · rw [hm]
    by_cases hut : u = t
    · subst hut
      exact hw hu
    · exact h.waiting u (by rwa [hmove u hut] at hu)

/-- A wait that takes the lock. -/
theorem acquire (h : Locked lock s) (hpc : s.pc t = .waiting) (hl : lock.init = true)
    {m : Mutex ι} (hw : s.mutex.wait t .object0 = some m) :
    Locked lock ({ s with mutex := m }.goto t .rechecking) ∧ m.owner = some t := by
  obtain ⟨hfree, hm⟩ := (Mutex.wait_object0 h.plain (h.waiting t hpc)).mp hw
  have howner : m.owner = some t := by rw [hm]
  refine ⟨⟨?_, fun u hu => ?_, fun u hu heq => ?_⟩, howner⟩
  · exact hm ▸ ⟨rfl, Or.inr rfl⟩
  · by_cases hut : u = t
    · exact ⟨hl, hut ▸ howner⟩
    · rw [State.goto_of_ne _ _ hut] at hu
      have := (h.owner u hu).2
      simp [hfree] at this
  · obtain rfl := Option.some.inj (howner.symm.trans heq)
    simp at hu

/-- A release. -/
theorem release (h : Locked lock s) (hpc : s.pc t = .releasing) {s' : State ι}
    (hs' : s' = { s with mutex := if lock.init then s.mutex.release t else s.mutex }.goto t
      .returning) : Locked lock s' ∧ s'.mutex.owner = none := by
  have hholds : (s.pc t).holds = true := by simp [hpc, Pc.holds]
  obtain ⟨hl, ho⟩ := h.owner t hholds
  have hm : s'.mutex = ⟨none, 0, false⟩ := by
    rw [hs', ← Mutex.release_owner h.plain ho]
    exact if_pos hl
  refine ⟨⟨hm ▸ ⟨rfl, Or.inl rfl⟩, fun u hu => ?_, fun u _ => by simp [hm]⟩, by rw [hm]⟩
  rw [hs'] at hu
  by_cases hut : u = t
  · subst hut
    simp [Pc.holds] at hu
  · rw [State.goto_of_ne _ _ hut] at hu
    exact absurd (h.unique hu hholds) hut

end Locked

theorem locked_init (lock : Lock) : Locked lock (init : State ι) :=
  ⟨Mutex.plain_default, fun t h => by simp [init, Pc.holds] at h, fun t _ => by simp [init]⟩

/-- A thread that starts to wait does not own the lock. -/
def WaitsFresh (s : State ι) : Prop :=
  ∀ t, s.pc t = .checking → s.shm = none → s.mutex.owner ≠ some t

theorem locked_step {lock : Lock} {s s' : State ι} {a : Act ι} (hl : Locked lock s)
    (hw : WaitsFresh s) (h : Does lock s a s') : Locked lock s' := by
  cases h with
  | @call t hpc | @setName t hpc | @start t b hpc hs | @notFoundLocked t hpc hs =>
    exact hl.stay rfl (moves_goto rfl t _) (by simp [hpc, Pc.holds]) (by simp)
  | @found t b hpc hs | @lockFailed t ret hpc | @foundLocked t b hpc hs | @ret t hpc =>
    exact hl.stay rfl (moves_leave s t _) (by simp [Pc.holds]) (by simp)
  | @notFound t hpc hs =>
    exact hl.stay rfl (moves_goto rfl t _) (by simp [Pc.holds]) fun _ => hw t hpc hs
  | @locked t m hpc hlock hm =>
    exact (hl.acquire hpc hlock hm).1
  | @alloc t b junk hpc hb | @zero t b c hpc hs hc | @setLen t b c hpc hs hc
  | @finish t b c calls hpc hc hok | @finishFailed t b c calls hpc hc hok | @free t b hpc hs
  | @reset t hpc =>
    exact hl.stay rfl (moves_goto rfl t _) (by simp [hpc, Pc.holds]) (by simp)
  | @release t hpc => exact (hl.release hpc rfl).1

/-- The owner of the lock is inside it, or it was its owner outside it before, or it has left
by the second check. -/
theorem owner_of_does {lock : Lock} {s s' : State ι} {a : Act ι} {u : ι} (hl : Locked lock s)
    (h : Does lock s a s') (hu : s'.mutex.owner = some u) :
    (s'.pc u).holds = true ∨ (s.mutex.owner = some u ∧ (s.pc u).holds = false) ∨
      (a = .recheck u ∧ s.shm.isSome = true) := by
  have hstay : ∀ {t : ι}, Moves s s' t → s'.mutex = s.mutex → (s.pc t).holds = false ∨
      (s'.pc t).holds = true → (s'.pc u).holds = true ∨
        (s.mutex.owner = some u ∧ (s.pc u).holds = false) := by
    intro t hmove hm ht
    rw [hm] at hu
    by_cases hut : u = t
    · subst hut
      exact ht.symm.imp id fun hf => ⟨hu, hf⟩
    · rw [hmove u hut]
      cases hh : (s.pc u).holds with
      | true => exact Or.inl rfl
      | false => exact Or.inr ⟨hu, rfl⟩
  cases h with
  | @call t hpc | @notFound t hpc hs =>
    exact (hstay (moves_goto rfl t _) rfl (by simp [hpc, Pc.holds])).imp_right Or.inl
  | @found t b hpc hs | @lockFailed t ret hpc | @ret t hpc =>
    exact (hstay (moves_leave s t _) rfl (by simp [hpc, Pc.holds])).imp_right Or.inl
  | @foundLocked t b hpc hs =>
    by_cases hut : u = t
    · exact Or.inr (Or.inr ⟨by rw [hut], by simp [hs]⟩)
    · rw [State.leave_of_ne _ _ hut]
      cases hh : (s.pc u).holds with
      | true => exact Or.inl rfl
      | false => exact Or.inr (Or.inl ⟨hu, rfl⟩)
  | @locked t m hpc hlock hm =>
    have howner := (hl.acquire hpc hlock hm).2
    obtain rfl := Option.some.inj (hu.symm.trans howner)
    exact Or.inl (by simp [Pc.holds])
  | @alloc t b junk hpc hb | @zero t b c hpc hs hc | @setLen t b c hpc hs hc
  | @finish t b c calls hpc hc hok | @finishFailed t b c calls hpc hc hok | @free t b hpc hs
  | @reset t hpc | @setName t hpc | @start t b hpc hs | @notFoundLocked t hpc hs =>
    exact (hstay (moves_goto rfl t _) rfl (by simp [Pc.holds])).imp_right Or.inl
  | @release t hpc =>
    have hfree := (hl.release hpc rfl).2
    exact absurd (hu.symm.trans hfree) (by simp)

/-! ## The block -/

/-- The cell's `shm_init` has succeeded : it is the block that `InitSHM` attaches with these
calls when it runs alone. -/
def Cell.Finished (c : Cell) : Prop :=
  ∃ calls, c.inited = some (calls, shmOk) ∧
    CalloutHook.attach calls = some ⟨c.block, shmOk, false⟩

/-- Nothing is attached. -/
def Idle (s : State ι) : Prop :=
  s.shm = none ∧ s.succeeded = []

/-- The block is attached. -/
def Done (s : State ι) : Prop :=
  ∃ b c, s.shm = some b ∧ s.store b = some c ∧ c.Finished ∧ s.succeeded = [b]

/-- `shm` points to a block that its `shm_init` has not finished. -/
def Building (s : State ι) (b : ℕ) (block : ShmBlock) : Prop :=
  s.shm = some b ∧ s.store b = some ⟨block, none⟩ ∧ s.succeeded = []

/-- What the thread inside the lock has made of `shm`. -/
def At (s : State ι) : Pc → Prop
  | .allocating => Idle s
  | .zeroing => ∃ b block, Building s b block
  | .setting => ∃ b, Building s b {}
  | .naming | .starting => ∃ b, Building s b { len := calloutLen }
  | .initialising b => Building s b { len := calloutLen }
  | .failing | .resetting => s.succeeded = []
  | _ => True

theorem Pc.holds_of_busy {pc : Pc} (h : pc.busy = true) : pc.holds = true := by
  cases pc <;> first | rfl | simp [busy] at h

theorem at_of_not_busy (s : State ι) {pc : Pc} (h : pc.busy = false) : At s pc := by
  cases pc <;> trivial

theorem at_goto {s : State ι} (t : ι) (pc' : Pc) {pc : Pc} (h : At s pc) :
    At (s.goto t pc') pc := by
  cases pc <;> exact h

/-- Where every thread is, and what `shm` is then. A thread that owns the lock outside it does
so only after the success. -/
structure Inv (lock : Lock) (s : State ι) : Prop where
  locked : Locked lock s
  at_pc : ∀ t, At s (s.pc t)
  settled : (∀ t, (s.pc t).busy = false) → Idle s ∨ Done s
  left : ∀ t, s.mutex.owner = some t → (s.pc t).holds = false →
    Done s ∧ (s.pc t = .outside ∨ s.pc t = .checking)

theorem Done.shm_ne_none {s : State ι} (h : Done s) : s.shm ≠ none := by
  obtain ⟨b, c, hs, -⟩ := h
  simp [hs]

namespace Inv

variable {lock : Lock} {s s' : State ι} {t : ι}

theorem waitsFresh (h : Inv lock s) : WaitsFresh s := by
  intro t hpc hs ho
  exact (h.left t ho (by simp [hpc, Pc.holds])).1.shm_ne_none hs

/-- While a thread is inside the lock, no other is busy. -/
theorem not_busy_of_holds (h : Inv lock s) (ht : (s.pc t).holds = true) {u : ι} (hut : u ≠ t) :
    (s.pc u).busy = false :=
  Bool.eq_false_of_not_eq_true fun hu => hut (h.locked.unique (Pc.holds_of_busy hu) ht)

/-- If it is not busy itself, nobody is. -/
theorem settled_of_holds (h : Inv lock s) (ht : (s.pc t).holds = true)
    (hb : (s.pc t).busy = false) : Idle s ∨ Done s := by
  refine h.settled fun u => ?_
  by_cases hut : u = t
  · exact hut ▸ hb
  · exact h.not_busy_of_holds ht hut

/-- A step of the thread inside the lock, which the others leave to it. -/
theorem mem_of_holds (h : Inv lock s) (ht : (s.pc t).holds = true) (hmove : Moves s s' t)
    (hat : At s' (s'.pc t)) (hset : (s'.pc t).busy = false → Idle s' ∨ Done s') :
    (∀ u, At s' (s'.pc u)) ∧ ((∀ u, (s'.pc u).busy = false) → Idle s' ∨ Done s') := by
  refine ⟨fun u => ?_, fun hb => hset (hb t)⟩
  by_cases hut : u = t
  · exact hut ▸ hat
  · rw [hmove u hut]
    exact at_of_not_busy s' (h.not_busy_of_holds ht hut)

/-- A step of the thread inside the lock that leaves it busy. -/
theorem mem_of_busy (h : Inv lock s) (ht : (s.pc t).holds = true) {pc : Pc} (hpc : s'.pc = s.pc)
    (hb : pc.busy = true) (hat : At s' pc) : (∀ u, At (s'.goto t pc) ((s'.goto t pc).pc u)) ∧
      ((∀ u, ((s'.goto t pc).pc u).busy = false) → Idle (s'.goto t pc) ∨ Done (s'.goto t pc)) := by
  refine h.mem_of_holds ht (moves_goto hpc t pc) ?_ (by simp [hb])
  rw [State.goto_self]
  exact at_goto t pc hat

/-- A step that reads `shm` at most. -/
theorem mem_of_quiet (h : Inv lock s) (hmove : Moves s s' t) (hb : (s.pc t).busy = false)
    (hb' : (s'.pc t).busy = false) (hat : ∀ pc, At s pc → At s' pc)
    (hset : Idle s ∨ Done s → Idle s' ∨ Done s') :
    (∀ u, At s' (s'.pc u)) ∧ ((∀ u, (s'.pc u).busy = false) → Idle s' ∨ Done s') := by
  refine ⟨fun u => ?_, fun hall => hset (h.settled fun u => ?_)⟩
  · by_cases hut : u = t
    · exact at_of_not_busy s' (hut ▸ hb')
    · rw [hmove u hut]
      exact hat _ (h.at_pc u)
  · by_cases hut : u = t
    · exact hut ▸ hb
    · rw [← hmove u hut]
      exact hall u

end Inv

theorem inv_init (lock : Lock) : Inv lock (init : State ι) where
  locked := locked_init lock
  at_pc _ := trivial
  settled _ := Or.inl ⟨rfl, rfl⟩
  left t ho _ := by simp [init] at ho

theorem Building.put {s : State ι} {b : ℕ} {block : ShmBlock} (h : Building s b block)
    (block' : ShmBlock) : Building (s.put b (some ⟨block', none⟩)) b block' :=
  ⟨h.1, by simp [State.put], h.2.2⟩

theorem finished_finish {block : ShmBlock} (hblock : block = { len := calloutLen })
    {calls : ShmInitCalls} (hok : (shmInit calls block none).2 = shmOk) :
    (Cell.finish ⟨block, none⟩ calls).Finished := by
  subst hblock
  refine ⟨calls, by rw [← hok]; rfl, ?_⟩
  have hf : failed (CalloutHook.shmInitClient calls).2 = false :=
    (failed_shmInit calls _ none).mpr hok
  simp only [CalloutHook.attach, hf]
  simp [CalloutHook.shmInitClient, Cell.finish, hok]

theorem mem_step {lock : Lock} {s s' : State ι} {a : Act ι} (hi : Inv lock s)
    (h : Does lock s a s') :
    (∀ u, At s' (s'.pc u)) ∧ ((∀ u, (s'.pc u).busy = false) → Idle s' ∨ Done s') := by
  cases h with
  | @call t hpc | @notFound t hpc hs | @locked t m hpc hlock hm | @release t hpc =>
    refine hi.mem_of_quiet (moves_goto rfl t _) (by simp [hpc, Pc.busy]) (by simp [Pc.busy])
      (fun pc hat => ?_) (fun hs => hs)
    cases pc <;> exact hat
  | @found t b hpc hs | @lockFailed t ret hpc | @foundLocked t b hpc hs | @ret t hpc =>
    refine hi.mem_of_quiet (moves_leave s t _) (by simp [hpc, Pc.busy]) (by simp [Pc.busy])
      (fun pc hat => ?_) (fun hs => hs)
    cases pc <;> exact hat
  | @notFoundLocked t hpc hs =>
    have hidle : Idle s := (hi.settled_of_holds (t := t) (by simp [hpc, Pc.holds])
      (by simp [hpc, Pc.busy])).resolve_right fun hd => hd.shm_ne_none hs
    exact hi.mem_of_busy (by simp [hpc, Pc.holds]) rfl rfl hidle
  | @alloc t b junk hpc hb =>
    have hidle : At s .allocating := hpc ▸ hi.at_pc t
    exact hi.mem_of_busy (by simp [hpc, Pc.holds]) rfl rfl
      ⟨b, junk, rfl, by simp [State.put], hidle.2⟩
  | @zero t b c hpc hs hc =>
    obtain ⟨b', block, hb⟩ : At s .zeroing := hpc ▸ hi.at_pc t
    obtain rfl := Option.some.inj (hs.symm.trans hb.1)
    obtain rfl := Option.some.inj (hc.symm.trans hb.2.1)
    exact hi.mem_of_busy (by simp [hpc, Pc.holds]) rfl rfl ⟨b, hb.put {}⟩
  | @setLen t b c hpc hs hc =>
    obtain ⟨b', hb⟩ : At s .setting := hpc ▸ hi.at_pc t
    obtain rfl := Option.some.inj (hs.symm.trans hb.1)
    obtain rfl := Option.some.inj (hc.symm.trans hb.2.1)
    exact hi.mem_of_busy (by simp [hpc, Pc.holds]) rfl rfl ⟨b, hb.put _⟩
  | @setName t hpc =>
    have hb : At s .naming := hpc ▸ hi.at_pc t
    exact hi.mem_of_busy (by simp [hpc, Pc.holds]) rfl rfl hb
  | @start t b hpc hs =>
    obtain ⟨b', hb⟩ : At s .starting := hpc ▸ hi.at_pc t
    obtain rfl := Option.some.inj (hs.symm.trans hb.1)
    exact hi.mem_of_busy (by simp [hpc, Pc.holds]) rfl rfl hb
  | @finish t b c calls hpc hc hok =>
    have hb : At s (.initialising b) := hpc ▸ hi.at_pc t
    obtain rfl := Option.some.inj (hc.symm.trans hb.2.1)
    refine hi.mem_of_holds (by simp [hpc, Pc.holds]) (moves_goto rfl t _)
      (at_of_not_busy _ (by simp [Pc.busy])) fun _ => Or.inr ?_
    exact ⟨b, _, hb.1, by simp [State.goto, State.put], finished_finish rfl hok,
      by simp [State.goto, State.put, hb.2.2]⟩
  | @finishFailed t b c calls hpc hc hok =>
    have hb : At s (.initialising b) := hpc ▸ hi.at_pc t
    exact hi.mem_of_busy (by simp [hpc, Pc.holds]) rfl rfl hb.2.2
  | @free t b hpc hs =>
    have hb : At s .failing := hpc ▸ hi.at_pc t
    exact hi.mem_of_busy (by simp [hpc, Pc.holds]) rfl rfl hb
  | @reset t hpc =>
    have hb : At s .resetting := hpc ▸ hi.at_pc t
    exact hi.mem_of_holds (by simp [hpc, Pc.holds]) (moves_goto rfl t _)
      (at_of_not_busy _ (by simp [Pc.busy])) fun _ => Or.inl ⟨rfl, hb⟩

/-- A thread leaves with the lock by the second check, which finds the attached block. It then
finds it at every first check. -/
theorem left_step {lock : Lock} {s s' : State ι} {a : Act ι} (hi : Inv lock s)
    (h : Does lock s a s') (u : ι) (hu : s'.mutex.owner = some u) (hh : (s'.pc u).holds = false) :
    Done s' ∧ (s'.pc u = .outside ∨ s'.pc u = .checking) := by
  obtain hin | ⟨ho, hout⟩ | ⟨rfl, hs⟩ := owner_of_does hi.locked h hu
  · simp [hh] at hin
  · obtain ⟨hd, hpcu⟩ := hi.left u ho hout
    have hfree : ∀ t, (s.pc t).holds = false := fun t => by
      refine Bool.eq_false_of_not_eq_true fun ht => ?_
      obtain rfl := Option.some.inj (ho.symm.trans (hi.locked.owner t ht).2)
      simp [hout] at ht
    cases h with
    | @call t hpc =>
      refine ⟨hd, ?_⟩
      by_cases hut : u = t
      · simp [hut]
      · rwa [State.goto_of_ne _ _ hut]
    | @notFound t hpc hs => exact absurd hs hd.shm_ne_none
    | @locked t m hpc hlock hm =>
      obtain rfl := Option.some.inj (hu.symm.trans (hi.locked.acquire hpc hlock hm).2)
      simp [hpc] at hpcu
    | @found t b hpc hs | @lockFailed t ret hpc | @ret t hpc =>
      refine ⟨hd, ?_⟩
      by_cases hut : u = t
      · simp [hut]
      · rwa [State.leave_of_ne _ _ hut]
    | @foundLocked t b hpc hs | @notFoundLocked t hpc hs | @alloc t b junk hpc hb
    | @zero t b c hpc hs hc | @setLen t b c hpc hs hc | @setName t hpc | @start t b hpc hs
    | @finish t b c calls hpc hc hok | @finishFailed t b c calls hpc hc hok | @free t b hpc hs
    | @reset t hpc | @release t hpc =>
      have := hfree t
      simp [hpc, Pc.holds] at this
  · cases h with
    | foundLocked hpc hb =>
      have hd : Done s := (hi.settled_of_holds (t := u) (by simp [hpc, Pc.holds])
        (by simp [hpc, Pc.busy])).resolve_left fun hidle => by simp [hidle.1] at hb
      exact ⟨hd, by simp⟩
    | notFoundLocked hpc hn => simp [hn] at hs

theorem inv_step {lock : Lock} {s s' : State ι} {a : Act ι} (hi : Inv lock s)
    (h : step lock s a = some s') : Inv lock s' := by
  have hdoes := does_of_step hi.locked.plain h
  obtain ⟨hat, hset⟩ := mem_step hi hdoes
  exact ⟨locked_step hi.locked hi.waitsFresh hdoes, hat, hset, left_step hi hdoes⟩

theorem inv_run {lock : Lock} {s : State ι} {as : List (Act ι)}
    (h : run (step lock) init as = some s) : Inv lock s :=
  run_invariant (fun _ _ _ => inv_step) (inv_init lock) h

end InitShm

end DhcpToolset
