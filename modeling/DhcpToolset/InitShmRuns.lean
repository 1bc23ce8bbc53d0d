import DhcpToolset.InitShm

/-!
# What `InitSHM` leaves behind

`InitSHM` checks `shm` twice, first without its lock and then inside it. The first check
may see a block that another thread has not finished, and the second one returns without a
release :

* `lock_given_back_iff` : the lock is given back in every state of a run exactly if no
  second check finds `shm` set;
* `initialised_once` : in every run `shm_init` succeeds at most once, and its block stays;
* `returns_attached_iff` : when every `shm_init` succeeds, every call that returns `TRUE`
  does so on a finished block exactly if no first check falls between the `malloc` and the
  end of `shm_init` of another thread.
-/

set_option linter.unusedSectionVars false

open Win32 Transition

namespace DhcpToolset

namespace InitShm

variable {ι : Type*} [DecidableEq ι]

/-! ## The lock is given back -/

/-- A thread outside `InitSHM` does not own the lock, and a thread that waits for it waits for
another one inside. -/
structure LockGivenBack (s : State ι) : Prop where
  outside : ∀ t, s.pc t = .outside → s.mutex.owner ≠ some t
  waiting : ∀ t u, s.pc t = .waiting → s.mutex.owner = some u → u ≠ t ∧ s.pc u ≠ .outside

/-- The step is not a second check that finds `shm` set. -/
def SecondCheckFindsNull (s : State ι) : Act ι → Prop
  | .recheck _ => s.shm = none
  | _ => True

instance (s : State ι) : (a : Act ι) → Decidable (SecondCheckFindsNull s a)
  | .recheck _ => inferInstanceAs (Decidable (s.shm = none))
  | .call _ | .check _ | .wait _ _ | .alloc _ _ _ | .zero _ | .setLen _ | .setName _ | .start _
  | .finish _ _ | .free _ | .reset _ | .release _ | .ret _ => isTrue trivial

/-- Nobody owns the lock outside it. -/
structure NoneLeft (lock : Lock) (s : State ι) : Prop where
  inv : Inv lock s
  holds : ∀ t, s.mutex.owner = some t → (s.pc t).holds = true

theorem NoneLeft.lockGivenBack {lock : Lock} {s : State ι} (h : NoneLeft lock s) :
    LockGivenBack s where
  outside t hpc ho := by simpa [hpc, Pc.holds] using h.holds t ho
  waiting t u hpc ho := by
    have hu := h.holds u ho
    refine ⟨?_, fun hpcu => by simp [hpcu, Pc.holds] at hu⟩
    rintro rfl
    simp [hpc, Pc.holds] at hu

theorem noneLeft_init (lock : Lock) : NoneLeft lock (init : State ι) :=
  ⟨inv_init lock, fun t ho => by simp [init] at ho⟩

theorem noneLeft_step {lock : Lock} {s s' : State ι} {a : Act ι} (hc : SecondCheckFindsNull s a)
    (hi : NoneLeft lock s) (h : step lock s a = some s') : NoneLeft lock s' := by
  refine ⟨inv_step hi.inv h, fun u hu => ?_⟩
  obtain hin | ⟨ho, hout⟩ | ⟨rfl, hs⟩ :=
    owner_of_does hi.inv.locked (does_of_step hi.inv.locked.plain h) hu
  · exact hin
  · simp [hi.holds u ho] at hout
  · have hn : s.shm = none := hc
    simp [hn] at hs

/-- A second check that finds `shm` set returns inside the lock. -/
theorem findsNull_of_lockGivenBack {lock : Lock} {s s' : State ι} {a : Act ι}
    (hi : NoneLeft lock s) (h : step lock s a = some s') (hp : LockGivenBack s') :
    SecondCheckFindsNull s a := by
  cases does_of_step hi.inv.locked.plain h with
  | @foundLocked t b hpc hs =>
    exact absurd (hi.inv.locked.owner t (by simp [hpc, Pc.holds])).2
      (hp.outside t (State.leave_self s t _))
  | notFoundLocked hpc hs => exact hs
  | call | found | notFound | locked | lockFailed | alloc | zero | setLen | setName | start
  | finish | finishFailed | free | reset | release | ret => trivial

/-- The lock is given back in every state of a run, exactly if no second check of the run finds
`shm` set. -/
theorem lock_given_back_iff {lock : Lock} {as : List (Act ι)} {s : State ι}
    (hrun : run (step lock) init as = some s) :
    Always (step lock) LockGivenBack init as ↔
      StepsMeet (step lock) SecondCheckFindsNull init as :=
  always_iff_stepsMeet (fun _ hi => hi.lockGivenBack) (fun _ _ _ => noneLeft_step)
    (fun _ _ _ => findsNull_of_lockGivenBack) (noneLeft_init lock) hrun

/-- `_shm_init_lock` after a successful `lock_init`. -/
def startedLock : Lock :=
  (lockInit {} (some 5)).1

/-- Two threads pass the first check, and the first one attaches. -/
def twoThreads : List (Act Bool) :=
  [.call true, .check true, .call false, .check false, .wait true .object0, .recheck true,
    .alloc true 0 {}, .zero true, .setLen true, .setName true, .start true,
    .finish true ⟨some 1, some 2, calloutLockDef, some 3, some 4, none⟩, .release true, .ret true,
    .wait false .object0]

theorem lock_given_back_iff_two : ∃ s, run (step startedLock) init twoThreads = some s ∧
    Always (step startedLock) LockGivenBack init twoThreads := by
  have hex : ∃ s, run (step startedLock) init twoThreads = some s := ⟨_, rfl⟩
  obtain ⟨s, hs⟩ := hex
  exact ⟨s, hs, (lock_given_back_iff hs).mpr (by decide)⟩

/-- The second thread then finds `shm` set, and has returned with the lock. -/
theorem not_lock_given_back : ¬∀ (as : List (Act Bool)) (s : State Bool),
    run (step startedLock) init as = some s → LockGivenBack s := by
  intro h
  have hex : ∃ s, run (step startedLock) init (twoThreads ++ [.recheck false]) = some s :=
    ⟨_, rfl⟩
  obtain ⟨s, hs⟩ := hex
  have hpc : s.pc false = .outside := eq_of_run_map (f := fun s => s.pc false) hs rfl
  have howner : s.mutex.owner = some false := eq_of_run_map (f := fun s => s.mutex.owner) hs rfl
  exact (h _ s hs).outside false hpc howner

/-! ## The block is attached once -/

theorem succeeded_of_busy {s : State ι} {pc : Pc} (h : At s pc) (hb : pc.busy = true) :
    s.succeeded = [] := by
  cases pc with
  | allocating => exact h.2
  | zeroing =>
    obtain ⟨b, block, h⟩ := h
    exact h.2.2
  | setting | naming | starting =>
    obtain ⟨b, h⟩ := h
    exact h.2.2
  | initialising b => exact h.2.2
  | failing | resetting => exact h
  | outside | checking | waiting | rechecking | releasing | returning => simp [Pc.busy] at hb

/-- After the success nobody is busy. -/
theorem Inv.not_busy {lock : Lock} {s : State ι} (h : Inv lock s) (hs : s.succeeded ≠ []) (t : ι) :
    (s.pc t).busy = false :=
  Bool.eq_false_of_not_eq_true fun ht => hs (succeeded_of_busy (h.at_pc t) ht)

/-- The block is then attached. -/
theorem Inv.done {lock : Lock} {s : State ι} (h : Inv lock s) (hs : s.succeeded ≠ []) : Done s :=
  (h.settled (h.not_busy hs)).resolve_left fun hidle => hs hidle.2

/-- And no step writes `shm` or a block. -/
theorem unchanged_step {lock : Lock} {s s' : State ι} {a : Act ι} (hi : Inv lock s)
    (hs : s.succeeded ≠ []) (h : Does lock s a s') :
    s'.shm = s.shm ∧ s'.store = s.store ∧ s'.succeeded = s.succeeded := by
  cases h with
  | call | found | notFound | locked | lockFailed | foundLocked | notFoundLocked | setName | start
  | release | ret => exact ⟨rfl, rfl, rfl⟩
  | @alloc t b junk hpc _ | @zero t b c hpc _ _ | @setLen t b c hpc _ _
  | @finish t b c calls hpc _ _ | @finishFailed t b c calls hpc _ _ | @free t b hpc _
  | @reset t hpc =>
    have := hi.not_busy hs t
    simp [hpc, Pc.busy] at this

/-- The block `b` is attached, as the cell `c`. -/
structure Holds (lock : Lock) (b : ℕ) (c : Cell) (s : State ι) : Prop where
  inv : Inv lock s
  shm : s.shm = some b
  store : s.store b = some c
  succeeded : s.succeeded = [b]

theorem holds_step {lock : Lock} {b : ℕ} {c : Cell} {s s' : State ι} {a : Act ι}
    (hi : Holds lock b c s) (h : step lock s a = some s') : Holds lock b c s' := by
  obtain ⟨hshm, hstore, hsucc⟩ :=
    unchanged_step hi.inv (by simp [hi.succeeded]) (does_of_step hi.inv.locked.plain h)
  exact ⟨inv_step hi.inv h, hshm.trans hi.shm, (congrFun hstore b).trans hi.store,
    hsucc.trans hi.succeeded⟩

/-- Every return through the second check found the attached block. -/
def SecondReturns (s : State ι) : Prop :=
  ∀ r ∈ s.returns, r.path = .second →
    ∃ b c, s.succeeded = [b] ∧ r.shm = some b ∧ r.cell = some c ∧ c.Finished

theorem secondReturns_of_eq {lock : Lock} {s s' : State ι} {a : Act ι} (hi : Inv lock s)
    (hr : SecondReturns s) (h : Does lock s a s') {r : Return} (hmem : r ∈ s.returns)
    (hpath : r.path = .second) :
    ∃ b c, s'.succeeded = [b] ∧ r.shm = some b ∧ r.cell = some c ∧ c.Finished := by
  obtain ⟨b, c, hsucc, hrest⟩ := hr r hmem hpath
  obtain ⟨-, -, heq⟩ := unchanged_step hi (by simp [hsucc]) h
  exact ⟨b, c, heq.trans hsucc, hrest⟩

/-- What a step adds to the returns. -/
theorem returns_of_does {lock : Lock} {s s' : State ι} {a : Act ι} (h : Does lock s a s') :
    s'.returns = s.returns ∨
      ∃ t path, s' = s.leave t path ∧
        (path = .first ∧ a = .check t ∧ s.pc t = .checking ∧ s.shm.isSome = true ∨
          path = .lockFailed ∨ path = .second ∧ s.pc t = .rechecking ∧ s.shm.isSome = true ∨
          path = .last ∧ s.pc t = .returning) := by
  cases h with
  | @found t b hpc hs => exact Or.inr ⟨t, .first, rfl, by simp [hpc, hs]⟩
  | @lockFailed t ret hpc => exact Or.inr ⟨t, .lockFailed, rfl, by simp⟩
  | @foundLocked t b hpc hs => exact Or.inr ⟨t, .second, rfl, by simp [hpc, hs]⟩
  | @ret t hpc => exact Or.inr ⟨t, .last, rfl, by simp [hpc]⟩
  | call | notFound | locked | notFoundLocked | alloc | zero | setLen | setName | start | finish
  | finishFailed | free | reset | release => exact Or.inl rfl

theorem secondReturns_step {lock : Lock} {s s' : State ι} {a : Act ι} (hi : Inv lock s)
    (hr : SecondReturns s) (h : Does lock s a s') : SecondReturns s' := by
  intro r hmem hpath
  obtain heq | ⟨t, path, rfl, hcase⟩ := returns_of_does h
  · exact secondReturns_of_eq hi hr h (heq ▸ hmem) hpath
  · obtain hmem | rfl : r ∈ s.returns ∨ r = ⟨path, s.shm, s.shm.bind s.store⟩ := by
      simpa [State.leave, State.goto] using hmem
    · exact secondReturns_of_eq hi hr h hmem hpath
    · obtain rfl : path = .second := hpath
      obtain ⟨hpc, hs⟩ : s.pc t = .rechecking ∧ s.shm.isSome = true := by simpa using hcase
      obtain ⟨b, c, hb, hc, hf, hsucc⟩ := (hi.settled_of_holds (t := t) (by simp [hpc, Pc.holds])
        (by simp [hpc, Pc.busy])).resolve_left fun hidle => by simp [hidle.1] at hs
      exact ⟨b, c, hsucc, hb, by simp [hb, hc], hf⟩

theorem secondReturns_run {lock : Lock} {s : State ι} {as : List (Act ι)}
    (h : run (step lock) init as = some s) : SecondReturns s := by
  have hinit : Inv lock (init : State ι) ∧ SecondReturns (init : State ι) :=
    ⟨inv_init lock, fun r hr => by simp [init] at hr⟩
  refine (run_invariant (I := fun s => Inv lock s ∧ SecondReturns s) ?_ hinit h).2
  rintro s a s' ⟨hi, hr⟩ hstep
  exact ⟨inv_step hi hstep, secondReturns_step hi hr (does_of_step hi.locked.plain hstep)⟩

theorem Pc.holds_of_working {pc : Pc} (h : pc.working = true) : pc.holds = true := by
  cases pc <;> first | rfl | simp [working] at h

/-- In every run at most one thread is between the allocation and the release of the lock,
`shm_init` succeeds at most once, its block is `shm` from then on, unchanged, and a return
through the second check found it. -/
theorem initialised_once {lock : Lock} {as bs : List (Act ι)} {s s' : State ι}
    (hrun : run (step lock) init as = some s) (hrun' : run (step lock) s bs = some s') :
    (∀ t u, (s.pc t).working = true → (s.pc u).working = true → t = u) ∧
    s.succeeded.length ≤ 1 ∧
    (∀ b ∈ s.succeeded, ∃ c, c.Finished ∧ s.shm = some b ∧ s.store b = some c ∧
      s'.shm = some b ∧ s'.store b = some c) ∧
    ∀ r ∈ s.returns, r.path = .second →
      ∃ b ∈ s.succeeded, ∃ c, r.shm = some b ∧ r.cell = some c ∧ c.Finished := by
  have hi := inv_run hrun
  have hone : s.succeeded = [] ∨ ∃ b c, Holds lock b c s ∧ c.Finished := by
    by_cases hne : s.succeeded = []
    · exact Or.inl hne
    · obtain ⟨b, c, hb, hc, hf, hsucc⟩ := hi.done hne
      exact Or.inr ⟨b, c, ⟨hi, hb, hc, hsucc⟩, hf⟩
  refine ⟨fun t u ht hu => ?_, ?_, fun b hb => ?_, fun r hr hpath => ?_⟩
  · exact hi.locked.unique (Pc.holds_of_working ht) (Pc.holds_of_working hu)
  · obtain hnil | ⟨b, c, hh, -⟩ := hone
    · simp [hnil]
    · simp [hh.succeeded]
  · obtain hnil | ⟨b', c, hh, hf⟩ := hone
    · simp [hnil] at hb
    · obtain rfl : b = b' := by simpa [hh.succeeded] using hb
      have hh' := run_invariant (fun _ _ _ => holds_step) hh hrun'
      exact ⟨c, hf, hh.shm, hh.store, hh'.shm, hh'.store⟩
  · obtain ⟨b, c, hsucc, hrest⟩ := secondReturns_run hrun r hr hpath
    exact ⟨b, by simp [hsucc], c, hrest⟩

theorem initialised_once_two : ∃ s s', run (step startedLock) init twoThreads = some s ∧
    run (step startedLock) s [.recheck false] = some s' ∧ s.succeeded = [0] ∧
      ∃ c : Cell, c.Finished ∧ s'.shm = some 0 ∧ s'.store 0 = some c := by
  have hex : ∃ s s', run (step startedLock) init twoThreads = some s ∧
    run (step startedLock) s [.recheck false] = some s' := ⟨_, _, rfl, rfl⟩
  obtain ⟨s, s', hs, hs'⟩ := hex
  have hsucc : s.succeeded = [0] := eq_of_run_map (f := fun s => s.succeeded) hs rfl
  obtain ⟨-, -, hkeep, -⟩ := initialised_once hs hs'
  obtain ⟨c, hf, -, -, hshm, hstore⟩ := hkeep 0 (by simp [hsucc])
  exact ⟨s, s', hs, hs', hsucc, c, hf, hshm, hstore⟩

/-! ## What a call returns `TRUE` on -/

/-- The `shm_init` of a cell has returned `SHM_OK`, so that its data pointer is set, and its lock
if the header names one. -/
def Cell.Attached (c : Cell) : Prop :=
  ∃ calls, c.inited = some (calls, shmOk) ∧ c.block.data.isSome = true ∧
    (calls.header.lockname ≠ shmLockNone → c.block.lock.init = true)

theorem Cell.Finished.attached {c : Cell} (h : c.Finished) : c.Attached := by
  obtain ⟨calls, hinited, hattach⟩ := h
  simp only [CalloutHook.attach] at hattach
  split_ifs at hattach with hf
  have hok : (CalloutHook.shmInitClient calls).2 = shmOk :=
    (failed_shmInit calls _ none).mp (by simpa [CalloutHook.shmInitClient] using hf)
  have hblock : (CalloutHook.shmInitClient calls).1 = c.block :=
    congrArg CalloutHook.HookBlock.block (Option.some.inj hattach)
  refine ⟨calls, hinited, ?_, fun hname => ?_⟩
  · rw [← hblock]
    exact data_isSome_shmInit calls _ none hok
  · rw [← hblock]
    exact lock_init_shmInit calls _ none hok hname

/-- The `shm_init` that ends in the step succeeds. -/
def Act.initSucceeds : Act ι → Bool
  | .finish _ calls => (CalloutHook.shmInitClient calls).2 == shmOk
  | _ => true

/-- The step is not a first check while a thread is between the `malloc` and the end of its
`shm_init`. -/
def FirstCheckOutsideInit (s : State ι) : Act ι → Prop
  | .check _ => ∀ t, (s.pc t).building = false
  | _ => True

instance [Fintype ι] (s : State ι) : (a : Act ι) → Decidable (FirstCheckOutsideInit s a)
  | .check _ => inferInstanceAs (Decidable (∀ t, (s.pc t).building = false))
  | .call _ | .recheck _ | .wait _ _ | .alloc _ _ _ | .zero _ | .setLen _ | .setName _ | .start _
  | .finish _ _ | .free _ | .reset _ | .release _ | .ret _ => isTrue trivial

/-- No `shm_init` has failed, so a thread behind it follows a success. -/
structure NoneFailed (lock : Lock) (s : State ι) : Prop where
  inv : Inv lock s
  failing : ∀ t, s.pc t ≠ .failing ∧ s.pc t ≠ .resetting
  behind : ∀ t, s.pc t = .releasing ∨ s.pc t = .returning → s.succeeded ≠ []

theorem noneFailed_init (lock : Lock) : NoneFailed lock (init : State ι) :=
  ⟨inv_init lock, fun t => by simp [init], fun t h => by simp [init] at h⟩

/-- A step of `t` that fails nothing. -/
theorem NoneFailed.move {lock : Lock} {s s' : State ι} {t : ι} (h : NoneFailed lock s)
    (hi : Inv lock s') (hmove : Moves s s' t) (hsucc : s.succeeded ≠ [] → s'.succeeded ≠ [])
    (hpc : s'.pc t ≠ .failing ∧ s'.pc t ≠ .resetting)
    (hb : s'.pc t = .releasing ∨ s'.pc t = .returning → s'.succeeded ≠ []) :
    NoneFailed lock s' := by
  refine ⟨hi, fun u => ?_, fun u hu => ?_⟩
  · by_cases hut : u = t
    · exact hut ▸ hpc
    · rw [hmove u hut]
      exact h.failing u
  · by_cases hut : u = t
    · exact hb (hut ▸ hu)
    · rw [hmove u hut] at hu
      exact hsucc (h.behind u hu)

theorem noneFailed_step {lock : Lock} {s s' : State ι} {a : Act ι} (ha : a.initSucceeds = true)
    (h : NoneFailed lock s) (hstep : step lock s a = some s') : NoneFailed lock s' := by
  have hi := inv_step h.inv hstep
  cases does_of_step h.inv.locked.plain hstep with
  | @call t hpc | @notFound t hpc hs | @locked t m hpc hlock hm | @notFoundLocked t hpc hs
  | @alloc t b junk hpc hb | @zero t b c hpc hs hc | @setLen t b c hpc hs hc | @setName t hpc
  | @start t b hpc hs =>
    exact h.move hi (moves_goto rfl t _) id (by simp) (by simp)
  | @found t b hpc hs | @lockFailed t ret hpc | @foundLocked t b hpc hs | @ret t hpc =>
    exact h.move hi (moves_leave s t _) id (by simp) (by simp)
  | @finish t b c calls hpc hc hok =>
    have hne : s.succeeded ++ [b] ≠ [] := by simp
    exact h.move hi (moves_goto rfl t _) (fun _ => hne) (by simp) fun _ => hne
  | @finishFailed t b c calls hpc hc hok =>
    have hb : At s (.initialising b) := hpc ▸ h.inv.at_pc t
    obtain rfl := Option.some.inj (hc.symm.trans hb.2.1)
    exact absurd (eq_of_beq ha) hok
  | @free t b hpc hs => exact absurd hpc (h.failing t).1
  | @reset t hpc => exact absurd hpc (h.failing t).2
  | @release t hpc =>
    exact h.move hi (moves_goto rfl t _) id (by simp) fun _ => h.behind t (Or.inl hpc)

/-- Every call that returned `TRUE` did so on an attached block. -/
def ReturnsAttached (s : State ι) : Prop :=
  ∀ r ∈ s.returns, r.path.value = true → ∃ c, r.cell = some c ∧ c.Attached

theorem returnsAttached_leave (s : State ι) (t : ι) (path : Path) :
    ReturnsAttached (s.leave t path) ↔ ReturnsAttached s ∧
      (path.value = true → ∃ c, s.shm.bind s.store = some c ∧ c.Attached) := by
  simp only [ReturnsAttached, State.leave, State.goto, List.forall_mem_append,
    List.forall_mem_singleton]

theorem Done.attached {s : State ι} (h : Done s) :
    ∃ c, s.shm.bind s.store = some c ∧ c.Attached := by
  obtain ⟨b, c, hb, hc, hf, -⟩ := h
  exact ⟨c, by simp [hb, hc], hf.attached⟩

/-- A thread between the `malloc` and the end of `shm_init` has a block of its own in `shm`. -/
theorem building_of_at {s : State ι} {pc : Pc} (h : At s pc) (hb : pc.building = true) :
    ∃ b block, Building s b block := by
  cases pc with
  | zeroing => exact h
  | setting | naming | starting =>
    obtain ⟨b, h⟩ := h
    exact ⟨b, _, h⟩
  | initialising b => exact ⟨b, _, h⟩
  | outside | checking | waiting | rechecking | allocating | failing | resetting | releasing
  | returning => simp [Pc.building] at hb

theorem Building.not_attached {s : State ι} {b : ℕ} {block : ShmBlock} (h : Building s b block) :
    ¬∃ c, s.shm.bind s.store = some c ∧ c.Attached := by
  rintro ⟨c, hc, calls, hinited, -⟩
  obtain rfl : (⟨block, none⟩ : Cell) = c := by simpa [h.1, h.2.1] using hc
  simp at hinited

/-- Only a thread that has finished leaves `shm` set, when none has failed. -/
theorem NoneFailed.done_iff {lock : Lock} {s : State ι} (h : NoneFailed lock s)
    (hs : s.shm.isSome = true) : (∃ c, s.shm.bind s.store = some c ∧ c.Attached) ↔
      ∀ t, (s.pc t).building = false := by
  constructor
  · intro hc t
    refine Bool.eq_false_of_not_eq_true fun ht => ?_
    obtain ⟨b, block, hb⟩ := building_of_at (h.inv.at_pc t) ht
    exact hb.not_attached hc
  · intro hb
    have hidle : ¬Idle s := fun hi => by simp [hi.1] at hs
    have hfree : ∀ t, (s.pc t).busy = false := fun t => by
      have hat := h.inv.at_pc t
      have hfail := h.failing t
      have hbt := hb t
      cases hpc : s.pc t <;> simp_all [Pc.busy, Pc.building, At]
    exact ((h.inv.settled hfree).resolve_left hidle).attached

theorem returnsAttached_step {lock : Lock} {s s' : State ι} {a : Act ι} (hi : NoneFailed lock s)
    (h : step lock s a = some s') :
    ReturnsAttached s' ↔ ReturnsAttached s ∧ FirstCheckOutsideInit s a := by
  cases does_of_step hi.inv.locked.plain h with
  | @found t b hpc hs =>
    rw [returnsAttached_leave, FirstCheckOutsideInit, ← hi.done_iff (by simp [hs])]
    simp [Path.value]
  | @notFound t hpc hs =>
    refine ⟨fun hr => ⟨hr, fun u => Bool.eq_false_of_not_eq_true fun hu => ?_⟩, fun hr => hr.1⟩
    obtain ⟨b, block, hb⟩ := building_of_at (hi.inv.at_pc u) hu
    exact absurd (hs.symm.trans hb.1) (by simp)
  | @lockFailed t ret hpc =>
    rw [returnsAttached_leave]
    simp [Path.value, FirstCheckOutsideInit]
  | @foundLocked t b hpc hs =>
    have hd : Done s := (hi.inv.settled_of_holds (t := t) (by simp [hpc, Pc.holds])
      (by simp [hpc, Pc.busy])).resolve_left fun hidle => by simp [hidle.1] at hs
    rw [returnsAttached_leave]
    simp [FirstCheckOutsideInit, hd.attached]
  | @ret t hpc =>
    rw [returnsAttached_leave]
    simp [FirstCheckOutsideInit, (hi.inv.done (hi.behind t (Or.inr hpc))).attached]
  | call | locked | notFoundLocked | alloc | zero | setLen | setName | start | finish
  | finishFailed | free | reset | release =>
    exact ⟨fun hr => ⟨hr, trivial⟩, fun hr => hr.1⟩

/-- When every `shm_init` of a run succeeds, every call that returned `TRUE` did so on a block
that its `shm_init` had attached, exactly if no first check of the run fell between the `malloc`
and the end of `shm_init` of a thread. -/
theorem returns_attached_iff {lock : Lock} {as : List (Act ι)} {s : State ι}
    (hrun : run (step lock) init as = some s) (hsucceeds : ∀ a ∈ as, a.initSucceeds = true) :
    (∀ r ∈ s.returns, r.path.value = true → ∃ c, r.cell = some c ∧ c.Attached) ↔
      StepsMeet (step lock) FirstCheckOutsideInit init as := by
  have hinit : ReturnsAttached (init : State ι) := fun r hr => by simp [init] at hr
  have hiff := StepsMeet.iff_of_step (C := FirstCheckOutsideInit) (P := ReturnsAttached)
    (fun _ _ _ => noneFailed_step) (fun _ _ _ => returnsAttached_step)
    (StepsMeet.of_forall init hsucceeds) (noneFailed_init lock) hrun
  exact hiff.trans (and_iff_right hinit)

theorem returns_attached_iff_two : ∃ s, run (step startedLock) init twoThreads = some s ∧
    s.returns.length = 1 ∧
      ∀ r ∈ s.returns, r.path.value = true → ∃ c, r.cell = some c ∧ c.Attached := by
  have hex : ∃ s, run (step startedLock) init twoThreads = some s := ⟨_, rfl⟩
  obtain ⟨s, hs⟩ := hex
  have hok : ∀ a ∈ twoThreads, a.initSucceeds = true := by decide
  exact ⟨s, hs, eq_of_run_map (f := fun s => s.returns.length) hs rfl,
    (returns_attached_iff hs hok).mpr (by decide)⟩

/-- A thread makes its first check while the first one is in `shm_init`. -/
def earlyCheck : List (Act Bool) :=
  [.call true, .check true, .wait true .object0, .recheck true, .alloc true 0 {}, .zero true,
    .setLen true, .setName true, .start true, .call false, .check false,
    .finish true ⟨some 1, some 2, calloutLockDef, some 3, some 4, none⟩, .release true, .ret true]

/-- Its call returns `TRUE` on a block without a data pointer. -/
theorem not_returns_attached : ¬∀ (as : List (Act Bool)) (s : State Bool),
    run (step startedLock) init as = some s → (∀ a ∈ as, a.initSucceeds = true) →
    ∀ r ∈ s.returns, r.path.value = true → ∃ c, r.cell = some c ∧ c.Attached := by
  intro h
  have hex : ∃ s, run (step startedLock) init earlyCheck = some s := ⟨_, rfl⟩
  obtain ⟨s, hs⟩ := hex
  have hok : ∀ a ∈ earlyCheck, a.initSucceeds = true := by decide
  have hret : s.returns.head? = some ⟨.first, some 0, some ⟨{ len := calloutLen }, none⟩⟩ :=
    eq_of_run_map (f := fun s => s.returns.head?) hs rfl
  obtain ⟨c, hc, calls, hinited, -⟩ := h _ s hs hok _ (List.mem_of_head? hret) rfl
  obtain rfl := Option.some.inj hc
  simp at hinited

end InitShm

end DhcpToolset
