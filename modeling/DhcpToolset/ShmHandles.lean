import DhcpToolset.CalloutHook
import DhcpToolset.Traced
import Mathlib.Data.Finset.Card

/-!
# The handles of `shm_init`

`shm_init` opens a mapping, maps a view of it, and creates a mutex and two events, as far as the
header of the mapping names them. It returns at the first of these calls that fails, except for the
mutex, whose handle `lock_init_ex` takes without a look. It closes nothing that it has opened, and
`InitSHM` then frees the block with the handles in it.

Here each call of `InitSHM` is a step, with the outcome of every system call and the set of handles
and views that are live. `init_leaks_nothing_iff` : a failed call leaves this set as it was, and a
successful one has a handle for every object that is named, exactly in the runs where each
`shm_init` fails at the mapping or not at all. In these runs the set grows by 5 at most.
-/

set_option linter.unusedSectionVars false

open Win32 Transition Traced

namespace DhcpToolset

namespace ShmHandles

open CalloutHook

/-- What a system call opens. -/
inductive Resource where
  | handle (h : Handle)
  | view (addr : Handle)
  deriving DecidableEq

/-- A system call that returns a handle or an address, `NULL` if it failed. -/
def acquire (kind : Handle → Resource) (ret : Option Handle) : Traced Resource (Option Handle) :=
  ⟨ret, (ret.map kind).toList⟩

@[simp] theorem val_acquire (kind : Handle → Resource) (ret : Option Handle) :
    (acquire kind ret).val = ret := rfl

/-! ## `shm_init` with what it opens -/

section Init

variable (calls : ShmInitCalls) (names : LockDef) (shm : ShmBlock)

/-- The last name, with the handle that is opened for it. -/
def eackUses : Traced Resource (ShmBlock × ℤ) :=
  if names.eackname = shmLockNone then pure (shm, shmOk)
  else do
    let eack ← acquire .handle calls.eack
    pure ({ shm with eack := eack }, if eack.isNone then shmLockFailed else shmOk)

/-- From the second name on. -/
def eventsUses : Traced Resource (ShmBlock × ℤ) :=
  if names.esndname = shmLockNone then eackUses calls names shm
  else do
    let esnd ← acquire .handle calls.esnd
    let shm := { shm with esnd := esnd }
    if esnd.isNone then pure (shm, shmLockFailed) else eackUses calls names shm

/-- From the first name on. -/
def locksUses : Traced Resource (ShmBlock × ℤ) :=
  if names.lockname = shmLockNone then eventsUses calls names shm
  else do
    let mutex ← acquire .handle calls.mutex
    let shm' := { shm with lock := (lockInitEx shm.lock mutex).1 }
    if (lockInitEx shm.lock mutex).2 then eventsUses calls names shm'
    else pure (shm', shmLockFailed)

/-- `shm_init`. -/
def shmInitUses (lockdef : Option LockDef) : Traced Resource (ShmBlock × ℤ) := do
  let mapfile ← acquire .handle calls.mapping
  let shm := { shm with mapfile := mapfile }
  match mapfile with
  | none => pure (shm, shmMmapFailed)
  | some _ =>
    let view ← acquire .view calls.view
    let shm := { shm with lockdef := view }
    match view with
    | none => pure (shm, shmMmapFailed)
    | some view =>
      locksUses calls (lockdef.getD calls.header) { shm with data := some (view + sizeofLockDef) }

theorem val_eackUses : (eackUses calls names shm).val = shmInitEack calls names shm := by
  unfold eackUses shmInitEack
  by_cases hname : names.eackname = shmLockNone
  · rw [if_pos hname, if_pos hname, val_pure]
  · rw [if_neg hname, if_neg hname, val_bind, val_acquire, val_pure]

theorem val_eventsUses : (eventsUses calls names shm).val = shmInitEvents calls names shm := by
  unfold eventsUses shmInitEvents
  by_cases hname : names.esndname = shmLockNone
  · rw [if_pos hname, if_pos hname, val_eackUses]
  · rw [if_neg hname, if_neg hname, val_bind, val_acquire]
    cases calls.esnd with
    | none => rfl
    | some e => exact val_eackUses calls names _

theorem val_locksUses : (locksUses calls names shm).val = shmInitLocks calls names shm := by
  unfold locksUses shmInitLocks
  by_cases hname : names.lockname = shmLockNone
  · rw [if_pos hname, if_pos hname, val_eventsUses]
  · rw [if_neg hname, if_neg hname, val_bind, val_acquire]
    exact val_eventsUses calls names _

/-- The value is that of the function without the record. -/
theorem val_shmInitUses (lockdef : Option LockDef) :
    (shmInitUses calls shm lockdef).val = shmInit calls shm lockdef := by
  unfold shmInitUses shmInit
  rw [val_bind, val_acquire]
  cases calls.mapping with
  | none => rfl
  | some m =>
    dsimp only
    rw [val_bind, val_acquire]
    cases calls.view with
    | none => rfl
    | some v => exact val_locksUses _ _ _

/-! At most five things are opened. -/

theorem length_acquire_bind_le {α : Type} (kind : Handle → Resource) (ret : Option Handle)
    {f : Option Handle → Traced Resource α} {n : ℕ} (h : (f ret).uses.length ≤ n) :
    (acquire kind ret >>= f).uses.length ≤ n + 1 := by
  have hone : (acquire kind ret).uses.length ≤ 1 := by
    cases ret <;> simp [acquire]
  rw [uses_bind, List.length_append, val_acquire]
  omega

theorem length_eackUses_le : (eackUses calls names shm).uses.length ≤ 1 := by
  unfold eackUses
  split_ifs
  · exact Nat.zero_le _
  · exact length_acquire_bind_le _ _ (Nat.zero_le _)

theorem length_eventsUses_le : (eventsUses calls names shm).uses.length ≤ 2 := by
  unfold eventsUses
  split_ifs with hname
  · exact (length_eackUses_le calls names shm).trans (by decide)
  · refine length_acquire_bind_le _ _ ?_
    split_ifs
    · exact Nat.zero_le _
    · exact length_eackUses_le calls names _

theorem length_locksUses_le : (locksUses calls names shm).uses.length ≤ 3 := by
  unfold locksUses
  split_ifs
  · exact (length_eventsUses_le calls names shm).trans (by decide)
  · exact length_acquire_bind_le _ _ (length_eventsUses_le calls names _)

theorem length_shmInitUses_le (lockdef : Option LockDef) :
    (shmInitUses calls shm lockdef).uses.length ≤ 5 := by
  unfold shmInitUses
  refine length_acquire_bind_le _ _ ?_
  cases calls.mapping with
  | none => exact Nat.zero_le _
  | some m =>
    refine length_acquire_bind_le _ _ ?_
    cases calls.view with
    | none => exact Nat.zero_le _
    | some v => exact length_locksUses_le calls _ _

end Init

/-! ## What a call leaves -/

section Ok

variable {calls : ShmInitCalls} {names : LockDef} {shm : ShmBlock}

theorem eackUses_eq_shmOk_iff : (eackUses calls names shm).val.2 = shmOk ↔
    (names.eackname ≠ shmLockNone → calls.eack.isSome = true) := by
  unfold eackUses
  by_cases hname : names.eackname = shmLockNone
  · simp [hname]
  · cases calls.eack <;> simp [hname, shmLockFailed, shmOk]

theorem eventsUses_eq_shmOk_iff : (eventsUses calls names shm).val.2 = shmOk ↔
    (names.esndname ≠ shmLockNone → calls.esnd.isSome = true) ∧
      (names.eackname ≠ shmLockNone → calls.eack.isSome = true) := by
  unfold eventsUses
  by_cases hname : names.esndname = shmLockNone
  · simp [hname, eackUses_eq_shmOk_iff]
  · cases calls.esnd with
    | none => simp [hname, shmLockFailed, shmOk]
    | some e => simp [hname, eackUses_eq_shmOk_iff]

/-- Whether the mutex was created does not matter. -/
theorem locksUses_eq_shmOk_iff : (locksUses calls names shm).val.2 = shmOk ↔
    (names.esndname ≠ shmLockNone → calls.esnd.isSome = true) ∧
      (names.eackname ≠ shmLockNone → calls.eack.isSome = true) := by
  unfold locksUses
  by_cases hname : names.lockname = shmLockNone
  · rw [if_pos hname, eventsUses_eq_shmOk_iff]
  · rw [if_neg hname, val_bind]
    exact eventsUses_eq_shmOk_iff

/-- A handle of the block that is among the opened ones. -/
def Opened (t : Traced Resource (ShmBlock × ℤ)) (field : ShmBlock → Option Handle) : Prop :=
  ∃ h, field t.val.1 = some h ∧ Resource.handle h ∈ t.uses

/-- What a part of the function opened is open behind the whole. -/
theorem Opened.bind {α : Type} {t : Traced Resource α} {f : α → Traced Resource (ShmBlock × ℤ)}
    {field : ShmBlock → Option Handle} (h : Opened (f t.val) field) : Opened (t >>= f) field := by
  obtain ⟨x, hx, hmem⟩ := h
  exact ⟨x, hx, List.mem_append_right _ hmem⟩

theorem eackUses_ok (shm : ShmBlock) (h : (eackUses calls names shm).val.2 = shmOk) :
    (eackUses calls names shm).val.1.lock = shm.lock ∧
      (eackUses calls names shm).val.1.esnd = shm.esnd ∧
      (names.eackname ≠ shmLockNone → Opened (eackUses calls names shm) ShmBlock.eack) := by
  have hcall := eackUses_eq_shmOk_iff.mp h
  unfold eackUses Opened
  by_cases hname : names.eackname = shmLockNone
  · simp [hname]
  · obtain ⟨e, he⟩ := Option.isSome_iff_exists.mp (hcall hname)
    simp [hname, acquire, he]

theorem eventsUses_ok (shm : ShmBlock) (h : (eventsUses calls names shm).val.2 = shmOk) :
    (eventsUses calls names shm).val.1.lock = shm.lock ∧
      (names.esndname ≠ shmLockNone → Opened (eventsUses calls names shm) ShmBlock.esnd) ∧
      (names.eackname ≠ shmLockNone → Opened (eventsUses calls names shm) ShmBlock.eack) := by
  obtain ⟨hesnd, heack⟩ := eventsUses_eq_shmOk_iff.mp h
  unfold eventsUses
  by_cases hname : names.esndname = shmLockNone
  · obtain ⟨hlock, -, hopened⟩ := eackUses_ok shm (eackUses_eq_shmOk_iff.mpr heack)
    rw [if_pos hname]
    exact ⟨hlock, fun hne => absurd hname hne, hopened⟩
  · obtain ⟨e, he⟩ := Option.isSome_iff_exists.mp (hesnd hname)
    obtain ⟨hlock, hfield, hopened⟩ := eackUses_ok { shm with esnd := some e }
      (eackUses_eq_shmOk_iff.mpr heack)
    simp only [if_neg hname, he]
    refine ⟨hlock, fun _ => ⟨e, hfield, ?_⟩, fun hne => (hopened hne).bind⟩
    simp [acquire]

theorem locksUses_ok (h : (locksUses calls names shm).val.2 = shmOk) :
    (names.lockname ≠ shmLockNone → (locksUses calls names shm).val.1.lock.lock = calls.mutex ∧
      ∀ x ∈ calls.mutex, Resource.handle x ∈ (locksUses calls names shm).uses) ∧
      (names.esndname ≠ shmLockNone → Opened (locksUses calls names shm) ShmBlock.esnd) ∧
      (names.eackname ≠ shmLockNone → Opened (locksUses calls names shm) ShmBlock.eack) := by
  have hcalls := locksUses_eq_shmOk_iff.mp h
  unfold locksUses
  by_cases hname : names.lockname = shmLockNone
  · obtain ⟨-, hesnd, heack⟩ := eventsUses_ok shm (eventsUses_eq_shmOk_iff.mpr hcalls)
    rw [if_pos hname]
    exact ⟨fun hne => absurd hname hne, hesnd, heack⟩
  · obtain ⟨hlock, hesnd, heack⟩ := eventsUses_ok { shm with lock := ⟨true, calls.mutex⟩ }
      (eventsUses_eq_shmOk_iff.mpr hcalls)
    rw [if_neg hname]
    refine ⟨fun _ => ⟨congrArg Lock.lock hlock, fun x hx => ?_⟩, fun hne => (hesnd hne).bind,
      fun hne => (heack hne).bind⟩
    have hmutex : calls.mutex = some x := hx
    exact List.mem_append_left _ (by simp [acquire, hmutex])

end Ok

/-- A handle that is open. `NULL` is not. -/
def Valid (live : Finset Resource) (h : Option Handle) : Prop :=
  ∃ x, h = some x ∧ Resource.handle x ∈ live

/-- Every object with a name has a valid handle. -/
structure Complete (live : Finset Resource) (names : LockDef) (shm : ShmBlock) : Prop where
  lock : names.lockname ≠ shmLockNone → Valid live shm.lock.lock
  esnd : names.esndname ≠ shmLockNone → Valid live shm.esnd
  eack : names.eackname ≠ shmLockNone → Valid live shm.eack

/-- The mapping is not opened, or every call behind it succeeds. -/
def Clean (calls : ShmInitCalls) (names : LockDef) : Prop :=
  calls.mapping = none ∨ calls.view.isSome = true ∧
    (names.lockname ≠ shmLockNone → calls.mutex.isSome = true) ∧
    (names.esndname ≠ shmLockNone → calls.esnd.isSome = true) ∧
    (names.eackname ≠ shmLockNone → calls.eack.isSome = true)

instance (calls : ShmInitCalls) (names : LockDef) : Decidable (Clean calls names) :=
  inferInstanceAs (Decidable (_ ∨ _))

section Call

variable {calls : ShmInitCalls} {shm : ShmBlock} {lockdef : Option LockDef} {live : Finset Resource}

theorem union_eq_iff {new : List Resource} (hfresh : ∀ r ∈ new, r ∉ live) :
    live ∪ new.toFinset = live ↔ new = [] := by
  rw [Finset.union_eq_left]
  refine ⟨fun h => List.eq_nil_iff_forall_not_mem.mpr fun r hr => ?_, ?_⟩
  · exact hfresh r hr (h (List.mem_toFinset.mpr hr))
  · rintro rfl
    exact Finset.empty_subset live

theorem Opened.valid {t : Traced Resource (ShmBlock × ℤ)} {field : ShmBlock → Option Handle}
    (h : Opened t field) {uses : List Resource} (huses : t.uses ⊆ uses) :
    Valid (live ∪ uses.toFinset) (field t.val.1) := by
  obtain ⟨x, hx, hmem⟩ := h
  exact ⟨x, hx, Finset.mem_union_right _ (List.mem_toFinset.mpr (huses hmem))⟩

/-- A block whose `shm_init` succeeded is complete if its mutex was created. -/
theorem complete_locksUses_iff {names : LockDef} (h : (locksUses calls names shm).val.2 = shmOk)
    {uses : List Resource} (huses : (locksUses calls names shm).uses ⊆ uses) :
    Complete (live ∪ uses.toFinset) names (locksUses calls names shm).val.1 ↔
      (names.lockname ≠ shmLockNone → calls.mutex.isSome = true) := by
  obtain ⟨hlock, hesnd, heack⟩ := locksUses_ok h
  constructor
  · intro hc hne
    obtain ⟨x, hx, -⟩ := hc.lock hne
    rw [← (hlock hne).1, hx]
    rfl
  · intro hmutex
    refine ⟨fun hne => ?_, fun hne => (hesnd hne).valid huses, fun hne => (heack hne).valid huses⟩
    obtain ⟨x, hx⟩ := Option.isSome_iff_exists.mp (hmutex hne)
    refine ⟨x, (hlock hne).1.trans hx, Finset.mem_union_right _ (List.mem_toFinset.mpr ?_)⟩
    exact huses ((hlock hne).2 x hx)

theorem shmInitUses_of_view (shm : ShmBlock) (lockdef : Option LockDef) {m v : Handle}
    (hm : calls.mapping = some m) (hv : calls.view = some v) :
    ∃ shm', (shmInitUses calls shm lockdef).val =
        (locksUses calls (lockdef.getD calls.header) shm').val ∧
      (shmInitUses calls shm lockdef).uses =
        .handle m :: .view v :: (locksUses calls (lockdef.getD calls.header) shm').uses := by
  refine ⟨{ shm with mapfile := some m, lockdef := some v, data := some (v + sizeofLockDef) }, ?_⟩
  unfold shmInitUses acquire
  rw [hm, hv]
  exact ⟨rfl, rfl⟩

/-- One `shm_init`. -/
theorem shmInitUses_safe_iff (hfresh : ∀ r ∈ (shmInitUses calls shm lockdef).uses, r ∉ live) :
    ((failed (shmInit calls shm lockdef).2 = true →
        live ∪ (shmInitUses calls shm lockdef).uses.toFinset = live) ∧
      ((shmInit calls shm lockdef).2 = shmOk →
        Complete (live ∪ (shmInitUses calls shm lockdef).uses.toFinset)
          (lockdef.getD calls.header) (shmInit calls shm lockdef).1)) ↔
      Clean calls (lockdef.getD calls.header) := by
  have hcode := failed_shmInit calls shm lockdef
  rw [union_eq_iff hfresh]
  rw [← val_shmInitUses] at hcode ⊢
  unfold Clean
  cases hm : calls.mapping with
  | none =>
    simp [shmInitUses, acquire, hm, shmMmapFailed, shmOk]
  | some m =>
    cases hv : calls.view with
    | none => simp [shmInitUses, acquire, hm, hv, shmMmapFailed, shmOk, failed]
    | some v =>
      obtain ⟨shm', hval, huses⟩ := shmInitUses_of_view shm lockdef hm hv
      rw [hval] at hcode ⊢
      have hne : (shmInitUses calls shm lockdef).uses ≠ [] := by simp [huses]
      have hsub : (locksUses calls (lockdef.getD calls.header) shm').uses ⊆
          (shmInitUses calls shm lockdef).uses := by
        rw [huses]
        exact List.subset_cons_of_subset _ (List.subset_cons_self _ _)
      by_cases hret : (locksUses calls (lockdef.getD calls.header) shm').val.2 = shmOk
      · have hevents := locksUses_eq_shmOk_iff.mp hret
        constructor
        · rintro ⟨-, hc⟩
          exact Or.inr ⟨rfl, (complete_locksUses_iff hret hsub).mp (hc hret), hevents⟩
        · rintro (h | ⟨-, hmutex, -⟩)
          · simp at h
          · refine ⟨fun h => ?_, fun _ => (complete_locksUses_iff hret hsub).mpr hmutex⟩
            simp [hcode.mpr hret] at h
      · have hfailed := Bool.eq_true_of_not_eq_false fun h => hret (hcode.mp h)
        have hevents := fun h => hret (locksUses_eq_shmOk_iff.mpr h)
        refine iff_of_false (fun h => hne (h.1 hfailed)) ?_
        rintro (h | ⟨-, -, h⟩)
        · simp at h
        · exact hevents h

end Call

/-! ## Runs of `InitSHM` -/

/-- The globals of the DLL, and what is open in its process. -/
structure State where
  dll : CalloutHook.State
  live : Finset Resource

/-- `InitSHM` comes to its `shm_init`. -/
def CallsShmInit (s : CalloutHook.State) (calls : InitShmCalls) : Prop :=
  s.shm = none ∧ lockWait s.shmInitLock calls.wait = true

instance (s : CalloutHook.State) (calls : InitShmCalls) : Decidable (CallsShmInit s calls) :=
  inferInstanceAs (Decidable (_ ∧ _))

/-- What a call of `InitSHM` opens. -/
def opened (s : CalloutHook.State) (calls : InitShmCalls) : List Resource :=
  if CallsShmInit s calls then (shmInitUses calls.shmInit { len := calloutLen } none).uses else []

/-- A call of `InitSHM`. The system gives out handles and addresses that are not in use. -/
def step (s : State) (calls : InitShmCalls) : Option State :=
  if (opened s.dll calls).Nodup ∧ ∀ r ∈ opened s.dll calls, r ∉ s.live then
    some ⟨(initShm calls s.dll).1, s.live ∪ (opened s.dll calls).toFinset⟩
  else none

/-- The DLL is loaded, with its lock created or not, and other things are open. -/
def init (shmInitLock : Lock) (live : Finset Resource) : State :=
  ⟨{ CalloutHook.init with shmInitLock := shmInitLock }, live⟩

/-- What is asked of a call from `s` to `s'` that comes to `shm_init`. -/
structure CallSafe (s : State) (calls : InitShmCalls) (s' : State) : Prop where
  live_eq : CallsShmInit s.dll calls → failed (shmInitClient calls.shmInit).2 = true →
    s'.live = s.live
  complete : CallsShmInit s.dll calls → (shmInitClient calls.shmInit).2 = shmOk →
    Complete s'.live calls.shmInit.header (shmInitClient calls.shmInit).1

/-- The call does not come to `shm_init`, or this fails at the mapping or not at all. -/
def CleanCall (s : State) (calls : InitShmCalls) : Prop :=
  CallsShmInit s.dll calls → Clean calls.shmInit calls.shmInit.header

instance (s : State) (calls : InitShmCalls) : Decidable (CleanCall s calls) :=
  inferInstanceAs (Decidable (_ → _))

section Step

variable {s s' : State} {calls : InitShmCalls}

theorem step_eq_some (h : step s calls = some s') : (∀ r ∈ opened s.dll calls, r ∉ s.live) ∧
    s' = ⟨(initShm calls s.dll).1, s.live ∪ (opened s.dll calls).toFinset⟩ := by
  unfold step at h
  split_ifs at h with hfresh
  exact ⟨hfresh.2, (Option.some.inj h).symm⟩

theorem shm_initShm {dll : CalloutHook.State} (h : CallsShmInit dll calls) :
    (initShm calls dll).1.shm = attach calls.shmInit := by
  simp [initShm, initShmLocked, h.1, h.2]

theorem initShm_of_not {dll : CalloutHook.State} (h : ¬CallsShmInit dll calls) :
    (initShm calls dll).1 = dll := by
  unfold initShm
  cases hshm : dll.shm with
  | some b => rfl
  | none =>
    have hwait : ¬lockWait dll.shmInitLock calls.wait = true := fun hw => h ⟨hshm, hw⟩
    simp [hwait]

/-- A call is safe exactly if it is clean. -/
theorem callSafe_iff (h : step s calls = some s') : CallSafe s calls s' ↔ CleanCall s calls := by
  obtain ⟨hfresh, rfl⟩ := step_eq_some h
  by_cases hc : CallsShmInit s.dll calls
  · have hopened : opened s.dll calls =
        (shmInitUses calls.shmInit { len := calloutLen } none).uses := if_pos hc
    rw [hopened] at hfresh
    have hsafe := shmInitUses_safe_iff hfresh
    rw [← hopened] at hsafe
    exact ⟨fun hs _ => hsafe.mp ⟨hs.live_eq hc, hs.complete hc⟩, fun hclean =>
      ⟨fun _ => (hsafe.mpr (hclean hc)).1, fun _ => (hsafe.mpr (hclean hc)).2⟩⟩
  · refine iff_of_true ⟨fun hc' => absurd hc' hc, fun hc' => absurd hc' hc⟩ ?_
    exact fun hc' => absurd hc' hc

/-- Nothing is open but what was at the start, and what one `shm_init` opened for `shm`. -/
structure Within (live : Finset Resource) (s : State) : Prop where
  live_eq : s.dll.shm = none → s.live = live
  card_le : s.live.card ≤ live.card + 5

theorem Within.step {live : Finset Resource} (hi : Within live s) (hclean : CleanCall s calls)
    (h : step s calls = some s') : Within live s' := by
  have hsafe := (callSafe_iff h).mpr hclean
  obtain ⟨-, rfl⟩ := step_eq_some h
  by_cases hc : CallsShmInit s.dll calls
  · refine ⟨fun hnone => ?_, ?_⟩
    · have hattach : attach calls.shmInit = none := (shm_initShm hc).symm.trans hnone
      have hfailed : failed (shmInitClient calls.shmInit).2 = true := by
        simp only [attach] at hattach
        split_ifs at hattach with hf
        exact hf
      exact (hsafe.live_eq hc hfailed).trans (hi.live_eq hc.1)
    · have hcard : (opened s.dll calls).toFinset.card ≤ 5 := by
        rw [opened, if_pos hc]
        exact (List.toFinset_card_le _).trans (length_shmInitUses_le _ _ _)
      calc (s.live ∪ (opened s.dll calls).toFinset).card
          ≤ s.live.card + (opened s.dll calls).toFinset.card := Finset.card_union_le _ _
        _ ≤ live.card + 5 := by
          rw [hi.live_eq hc.1]
          exact Nat.add_le_add_left hcard _
  · rw [initShm_of_not hc, opened, if_neg hc, List.toFinset_nil, Finset.union_empty]
    exact hi

end Step

/-- In every run of `InitSHM`, all calls are safe exactly if all are clean, and then the set of live
handles and views stays bounded. -/
theorem init_leaks_nothing_iff (shmInitLock : Lock) (live : Finset Resource)
    {acts : List InitShmCalls} {s : State}
    (hrun : run step (init shmInitLock live) acts = some s) :
    (StepsMeet step (fun m calls => ∀ m', step m calls = some m' → CallSafe m calls m')
      (init shmInitLock live) acts ↔ StepsMeet step CleanCall (init shmInitLock live) acts) ∧
    (StepsMeet step CleanCall (init shmInitLock live) acts → s.live.card ≤ live.card + 5) := by
  refine ⟨stepsMeet_congr (fun m calls m' h => ?_) hrun, fun hclean => ?_⟩
  · refine ⟨fun hsafe => (callSafe_iff h).mp (hsafe m' h), fun hclean m'' h' => ?_⟩
    exact (callSafe_iff h').mpr hclean
  · have hwithin : Within live (init shmInitLock live) := ⟨fun _ => rfl, Nat.le_add_right _ _⟩
    exact (hclean.invariant (fun m calls m' hc hi h => Within.step hi hc h) hwithin hrun).card_le

/-- The Monitor is not running at first; the third call finds the block. -/
def retries : List InitShmCalls :=
  [⟨.object0, none, none, calloutLockDef, none, none, none⟩,
    ⟨.object0, some 1, some 2, calloutLockDef, some 3, some 4, none⟩,
    ⟨.object0, none, none, calloutLockDef, none, none, none⟩]

theorem init_leaks_nothing_iff_retries : ∃ s,
    run step (init ⟨true, some 9⟩ {.handle 9}) retries = some s ∧ s.live.card ≤ 1 + 5 := by
  have hex : ∃ s, run step (init ⟨true, some 9⟩ {.handle 9}) retries = some s := ⟨_, rfl⟩
  obtain ⟨s, hs⟩ := hex
  exact ⟨s, hs, (init_leaks_nothing_iff ⟨true, some 9⟩ {.handle 9} hs).2 (by decide)⟩

/-- The view cannot be mapped, and the handle of the mapping is lost. -/
theorem not_init_leaks_nothing : ¬∀ (shmInitLock : Lock) (live : Finset Resource)
    (acts : List InitShmCalls) (s : State), run step (init shmInitLock live) acts = some s →
      StepsMeet step (fun m calls => ∀ m', step m calls = some m' → CallSafe m calls m')
        (init shmInitLock live) acts := by
  intro h
  have hex : ∃ s, step (init ⟨true, some 9⟩ {.handle 9})
    ⟨.object0, some 1, none, calloutLockDef, none, none, none⟩ = some s := ⟨_, rfl⟩
  obtain ⟨s, hs⟩ := hex
  have hmeet := h ⟨true, some 9⟩ {.handle 9}
    [⟨.object0, some 1, none, calloutLockDef, none, none, none⟩] s (by rw [run, hs]; rfl)
  have hclean := (callSafe_iff hs).mp (hmeet.1 s hs)
  exact absurd hclean (by decide)

end ShmHandles

end DhcpToolset
