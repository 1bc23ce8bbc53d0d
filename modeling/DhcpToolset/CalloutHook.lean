import DhcpToolset.Acl
import DhcpToolset.Transition

/-!
# The callout hooks

The DHCP server calls the hooks of the DLL and its control hook. The first hook that needs
the callout block attaches to it (`InitSHM`), under a lock that `DHCP_CONTROL_START`
creates; `DHCP_CONTROL_STOP` closes the block.

Here one thread makes the calls one after another. `InitSHM` reports success also when
`shm_init` failed and `shm` is `NULL` again, and a closed block stays in `shm`.
`hook_writes_usable_iff` : every `shm_write` goes through an attached and open block exactly
when no hook is called in one of these two situations.
-/

set_option linter.unusedSectionVars false

open Win32 Transition

namespace DhcpToolset

namespace CalloutHook

/-- The block of `InitSHM`, with what happened to it. -/
structure HookBlock where
  block : ShmBlock
  /-- What its `shm_init` returned. -/
  ret : ℤ
  /-- `shm_close` was called on it. -/
  closed : Bool
  deriving DecidableEq

/-- `HookType` of a record. -/
inductive HookType where
  | addressOffer
  | addressDelete
  | clientDelete
  deriving DecidableEq

/-- The globals of the DLL. -/
structure State where
  shm : Option HookBlock
  shmInitLock : Lock
  acl : Option Handle
  /-- What `shm` was at each `shm_write`. -/
  writes : List (HookType × Option HookBlock)

/-- What the calls of one `InitSHM` return : the wait for its lock and `shm_init`. -/
structure InitShmCalls where
  wait : WaitResult
  shmInit : ShmInitCalls

/-- `DhcpControlHook`'s codes. -/
inductive ControlCode where
  /-- With what `CreateMutex` returned, and the calls of `acl_init`. -/
  | start (created : Option Handle) (acl : ShmInitCalls)
  | stop
  | pause
  | continue

/-- A call of the DHCP server into the DLL, with what the system calls in it return. -/
inductive Act where
  | control (code : ControlCode)
  | hook (type : HookType) (calls : InitShmCalls)

/-- The DLL as it is loaded. -/
def init : State where
  shm := none
  shmInitLock := {}
  acl := none
  writes := []

/-- `shm_init_client` on a zeroed block. -/
def shmInitClient (calls : ShmInitCalls) : ShmBlock × ℤ :=
  shmInit calls { len := calloutLen } none

/-- What `InitSHM` leaves in `shm`. A block whose `shm_init` failed is freed. -/
def attach (calls : ShmInitCalls) : Option HookBlock :=
  let (block, ret) := shmInitClient calls
  if failed ret then none else some ⟨block, ret, false⟩

/-- `InitSHM` inside its lock. -/
def initShmLocked (calls : ShmInitCalls) (s : State) : State × Bool :=
  match s.shm with
  | some _ => (s, true)
  | none => ({ s with shm := attach calls }, true)

/-- `InitSHM`. -/
def initShm (calls : InitShmCalls) (s : State) : State × Bool :=
  match s.shm with
  | some _ => (s, true)
  | none =>
    if lockWait s.shmInitLock calls.wait then initShmLocked calls.shmInit s else (s, false)

/-- A hook : `InitSHM`, then `shm_write` of a record of its type. -/
def hookWrite (type : HookType) (calls : InitShmCalls) (s : State) : State :=
  let (s, ret) := initShm calls s
  if ret then { s with writes := s.writes ++ [(type, s.shm)] } else s

/-- `DhcpAddressOfferHook`. -/
def dhcpAddressOfferHook : InitShmCalls → State → State :=
  hookWrite .addressOffer

/-- `DhcpAddressDelHook`. -/
def dhcpAddressDelHook : InitShmCalls → State → State :=
  hookWrite .addressDelete

/-- `DhcpDeleteClientHook`. -/
def dhcpDeleteClientHook : InitShmCalls → State → State :=
  hookWrite .clientDelete

/-- `DhcpControlHook`. `lock_destory` closes the handle and changes nothing in the lock. -/
def dhcpControlHook (code : ControlCode) (s : State) : State :=
  match code with
  | .start created acl =>
    { s with shmInitLock := (lockInit s.shmInitLock created).1, acl := (aclInit acl).2 }
  | .stop =>
    { s with shm := s.shm.map fun b => { b with block := shmClose b.block, closed := true } }
  | .pause | .continue => s

/-- One call. The server makes its calls in any order. -/
def step (s : State) : Act → Option State
  | .control code => some (dhcpControlHook code s)
  | .hook .addressOffer calls => some (dhcpAddressOfferHook calls s)
  | .hook .addressDelete calls => some (dhcpAddressDelHook calls s)
  | .hook .clientDelete calls => some (dhcpDeleteClientHook calls s)

/-! ## What a hook writes through -/

/-- A block that `shm_init` attached and that `shm_close` has not closed. -/
def Usable (shm : Option HookBlock) : Prop :=
  ∃ b, shm = some b ∧ b.ret = shmOk ∧ b.closed = false

theorem ret_of_attach {calls : ShmInitCalls} {b : HookBlock} (h : attach calls = some b) :
    b.ret = shmOk := by
  simp only [attach] at h
  split_ifs at h with hf
  obtain rfl := Option.some.inj h
  exact (failed_shmInit calls _ none).mp (by simpa [shmInitClient] using hf)

theorem usable_attach (calls : ShmInitCalls) :
    Usable (attach calls) ↔ (shmInitClient calls).2 = shmOk := by
  have hcode : failed (shmInitClient calls).2 = false ↔ (shmInitClient calls).2 = shmOk :=
    failed_shmInit calls _ none
  rw [attach]
  dsimp only
  split_ifs with hf
  · simp [Usable, ← hcode, hf]
  · have hok := hcode.mp (by simpa using hf)
    exact iff_of_true ⟨_, rfl, hok, rfl⟩ hok

/-- The three ways through a hook. -/
theorem hookWrite_cases (type : HookType) (calls : InitShmCalls) (s : State) :
    (∃ b, s.shm = some b ∧
      hookWrite type calls s = { s with writes := s.writes ++ [(type, some b)] }) ∨
    (s.shm = none ∧ lockWait s.shmInitLock calls.wait = false ∧ hookWrite type calls s = s) ∨
    (s.shm = none ∧ lockWait s.shmInitLock calls.wait = true ∧
      hookWrite type calls s =
        { s with
          shm := attach calls.shmInit
          writes := s.writes ++ [(type, attach calls.shmInit)] }) := by
  cases hs : s.shm with
  | some b => exact Or.inl ⟨b, rfl, by simp [hookWrite, initShm, hs]⟩
  | none =>
    cases hw : lockWait s.shmInitLock calls.wait with
    | false => exact Or.inr (Or.inl ⟨rfl, rfl, by simp [hookWrite, initShm, hs, hw]⟩)
    | true => exact Or.inr (Or.inr ⟨rfl, rfl, by simp [hookWrite, initShm, initShmLocked, hs, hw]⟩)

/-- A step is a control or a hook. -/
theorem step_cases {s s' : State} {a : Act} (h : step s a = some s') :
    (∃ code, a = .control code ∧ s' = dhcpControlHook code s) ∨
      ∃ type calls, a = .hook type calls ∧ s' = hookWrite type calls s := by
  rcases a with code | ⟨type, calls⟩
  · exact Or.inl ⟨code, rfl, (Option.some.inj h).symm⟩
  · cases type <;> exact Or.inr ⟨_, calls, rfl, (Option.some.inj h).symm⟩

/-- A hook finds the block open, and if it finds none and gets the lock, its `shm_init`
succeeds. -/
def Ready (s : State) : Act → Prop
  | .control _ => True
  | .hook _ calls => (∀ b ∈ s.shm, b.closed = false) ∧
      (s.shm = none → lockWait s.shmInitLock calls.wait = true →
        (shmInitClient calls.shmInit).2 = shmOk)

instance (s : State) : ∀ a : Act, Decidable (Ready s a)
  | .control _ => isTrue trivial
  | .hook _ _ => inferInstanceAs (Decidable (_ ∧ _))

/-- The block of the DLL is one that `shm_init` attached. -/
def Attached (s : State) : Prop :=
  ∀ b, s.shm = some b → b.ret = shmOk

theorem attached_step {s s' : State} {a : Act} (hs : Attached s) (h : step s a = some s') :
    Attached s' := by
  obtain ⟨code, rfl, rfl⟩ | ⟨type, calls, rfl, rfl⟩ := step_cases h
  · cases code with
    | start | pause | «continue» => exact hs
    | stop =>
      intro b hb
      obtain ⟨b', hb', rfl⟩ := Option.map_eq_some_iff.mp hb
      exact hs b' hb'
  · obtain ⟨b, -, heq⟩ | ⟨-, -, heq⟩ | ⟨-, -, heq⟩ := hookWrite_cases type calls s
    · rw [heq]
      exact hs
    · rw [heq]
      exact hs
    · rw [heq]
      exact fun b hb => ret_of_attach hb

/-- Every `shm_write` so far went through a usable block. -/
def WritesUsable (s : State) : Prop :=
  ∀ w ∈ s.writes, Usable w.2

theorem writesUsable_write (s : State) (type : HookType) (shm shm' : Option HookBlock) :
    WritesUsable { s with shm := shm', writes := s.writes ++ [(type, shm)] } ↔
      WritesUsable s ∧ Usable shm := by
  unfold WritesUsable
  rw [List.forall_mem_append]
  simp

theorem writesUsable_step {s s' : State} {a : Act} (hs : Attached s) (h : step s a = some s') :
    WritesUsable s' ↔ WritesUsable s ∧ Ready s a := by
  obtain ⟨code, rfl, rfl⟩ | ⟨type, calls, rfl, rfl⟩ := step_cases h
  · cases code <;> simp [WritesUsable, dhcpControlHook, Ready]
  · obtain ⟨b, hb, heq⟩ | ⟨hnone, hw, heq⟩ | ⟨hnone, hw, heq⟩ := hookWrite_cases type calls s
    · have husable : Usable (some b) ↔ b.closed = false := by
        simp [Usable, hs b hb]
      rw [heq, writesUsable_write, husable]
      simp [Ready, hb]
    · simp [heq, Ready, hnone, hw]
    · rw [heq, writesUsable_write, usable_attach]
      simp [Ready, hnone, hw]

/-- In every run, the hooks write through usable blocks exactly when each of them was ready. -/
theorem hook_writes_usable_iff {acts : List Act} {s : State} (hrun : run step init acts = some s) :
    (∀ w ∈ s.writes, Usable w.2) ↔ StepsMeet step Ready init acts := by
  have hinit : WritesUsable init ∧ Attached init := by
    simp [WritesUsable, Attached, init]
  have hiff := StepsMeet.iff_of_step (C := Ready) (fun _ _ _ _ hs h => attached_step hs h)
    (fun _ _ _ hs h => writesUsable_step hs h) (StepsMeet.of_forall init fun _ _ => trivial)
    hinit.2 hrun
  exact hiff.trans (and_iff_right hinit.1)

/-- A start, with every call successful. -/
def started : Act :=
  .control (.start (some 5) ⟨some 6, some 7, aclLockDef, none, none, none⟩)

/-- The first hook attaches, the second finds the block. -/
def twoHooks : List Act :=
  [started, .hook .addressOffer ⟨.object0, some 1, some 2, calloutLockDef, some 3, some 4, none⟩,
    .hook .clientDelete ⟨.timeout, none, none, calloutLockDef, none, none, none⟩]

theorem hook_writes_usable_iff_two : ∃ s, run step init twoHooks = some s ∧ s.writes.length = 2 ∧
    ∀ w ∈ s.writes, Usable w.2 := by
  have hex : ∃ s, run step init twoHooks = some s := ⟨_, rfl⟩
  obtain ⟨s, hs⟩ := hex
  exact ⟨s, hs, eq_of_run_map (f := fun s => s.writes.length) hs rfl,
    (hook_writes_usable_iff hs).mpr (by decide)⟩

/-- The Monitor is not running : `OpenFileMapping` fails, and the hook writes through `NULL`. -/
theorem not_hook_writes_usable : ¬∀ (acts : List Act) (s : State), run step init acts = some s →
    ∀ w ∈ s.writes, Usable w.2 := by
  intro h
  have hex : ∃ s, run step init [started, .hook .addressOffer
    ⟨.object0, none, none, calloutLockDef, none, none, none⟩] = some s := ⟨_, rfl⟩
  obtain ⟨s, hs⟩ := hex
  have hw : s.writes = [(.addressOffer, none)] := eq_of_run_map (f := fun s => s.writes) hs rfl
  obtain ⟨b, hb, -⟩ := h _ s hs (.addressOffer, none) (by simp [hw])
  simp at hb

end CalloutHook

end DhcpToolset
