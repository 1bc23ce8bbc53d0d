import DhcpToolset.Ledger
import DhcpToolset.ShmHandles

/-!
# What the DLL has open

`shm_init` opens more than its mapping and the objects in it : `shm_enable_privileges` opens the
token of the process, and on a server `shm_create_security_attr` allocates a security descriptor
with its parts. The latter frees what it has if one of its calls fails (`leaves_securityAttr`).
`DHCP_CONTROL_START` creates a mutex and the mapping of the access list, the first hook attaches
to the callout block, and `DHCP_CONTROL_STOP` closes the view and the mapping of the block and
the mutex, and nothing else.

`lock_destory` leaves the closed handle in its lock, and a second stop closes it again, whatever
it is by then. `restarts_leak` : without such a stop the DLL closes only what is its own and open,
and every start whose `acl_init` succeeds leaves its mapping and view open for good.
-/

set_option linter.unusedSectionVars false

open Win32 Transition Traced Ledger

namespace DhcpToolset

namespace HookResources

open CalloutHook ShmHandles

/-- What a process gets from the system and gives back. -/
inductive Item where
  | kernel (r : Resource)
  /-- From `malloc`, `LocalAlloc` or a call that allocates. -/
  | memory (addr : Handle)
  deriving DecidableEq

/-- A pointer or handle that is freed or closed unless it is `NULL`. -/
def releaseIf (item : Handle → Item) (p : Option Handle) : List (Event Item) :=
  (p.map fun a => Event.release (item a)).toList

/-! ## `shm_init`, with all that it acquires -/

/-- What the calls of `shm_enable_privileges` return. -/
structure PrivilegeCalls where
  /-- `OpenProcessToken`. -/
  token : Option Handle
  /-- `AdjustTokenPrivileges`. -/
  adjusted : Bool

/-- `shm_enable_privileges`. -/
def shmEnablePrivileges (calls : PrivilegeCalls) : Traced (Event Item) ℤ :=
  match calls.token with
  | none => pure (-1)
  | some token => do
    touch [.acquire (.kernel (.handle token))]
    pure (if calls.adjusted then 0 else -2)

/-- What the calls of `shm_create_security_attr` return. -/
structure SecurityCalls where
  /-- `AllocateAndInitializeSid`, `SetEntriesInAcl` and `LocalAlloc`. -/
  sid : Option Handle
  acl : Option Handle
  sd : Option Handle
  /-- `InitializeSecurityDescriptor` and `SetSecurityDescriptorDacl`. -/
  initialized : Bool
  dacl : Bool

/-- The code behind the label `Cleanup`. -/
def cleanup (pSID pACL pSD : Option Handle) : Traced (Event Item) (Option Handle) := do
  touch (releaseIf .memory pSID)
  touch (releaseIf .memory pACL)
  touch (releaseIf .memory pSD)
  pure none

/-- `shm_create_security_attr`, with the descriptor that it sets. Where it returns `FALSE` it
sets none. -/
def shmCreateSecurityAttr (calls : SecurityCalls) : Traced (Event Item) (Option Handle) :=
  match calls.sid with
  | none => cleanup none none none
  | some sid => do
    touch [.acquire (.memory sid)]
    match calls.acl with
    | none => cleanup (some sid) none none
    | some acl =>
      touch [.acquire (.memory acl)]
      match calls.sd with
      | none => cleanup (some sid) (some acl) none
      | some sd =>
        touch [.acquire (.memory sd)]
        if calls.initialized && calls.dacl then pure (some sd)
        else cleanup (some sid) (some acl) (some sd)

/-- What the calls of one `shm_init` return. -/
structure InitCalls where
  privileges : PrivilegeCalls
  security : SecurityCalls
  shmInit : ShmInitCalls

/-- The security attributes, which a server has. -/
def securityAttr (calls : SecurityCalls) (lockdef : Option LockDef) :
    Traced (Event Item) (Option Handle) :=
  match lockdef with
  | none => pure none
  | some _ => shmCreateSecurityAttr calls

/-- `shm_init`. The descriptor only goes to the system calls. -/
def shmInitAll (calls : InitCalls) (shm : ShmBlock) (lockdef : Option LockDef) :
    Traced (Event Item) (ShmBlock × ℤ) := do
  let _ ← shmEnablePrivileges calls.privileges
  let _ ← securityAttr calls.security lockdef
  (shmInitUses calls.shmInit shm lockdef).relabel fun r => [.acquire (.kernel r)]

theorem val_shmInitAll (calls : InitCalls) (shm : ShmBlock) (lockdef : Option LockDef) :
    (shmInitAll calls shm lockdef).val = shmInit calls.shmInit shm lockdef := by
  rw [shmInitAll, val_bind, val_bind, val_relabel, val_shmInitUses]

/-! ## What they leave -/

/-- What a privilege call leaves open : the token is never closed. -/
def PrivilegeCalls.left (calls : PrivilegeCalls) : List Item :=
  (calls.token.map fun t => Item.kernel (.handle t)).toList

theorem leaves_privileges (calls : PrivilegeCalls) :
    Leaves (shmEnablePrivileges calls).uses calls.left := by
  obtain ⟨token, adjusted⟩ := calls
  cases token with
  | none => exact leaves_nil
  | some t => exact leaves_acquire _

/-- All of its calls succeed. -/
def SecurityCalls.ok (calls : SecurityCalls) : Bool :=
  calls.sid.isSome && calls.acl.isSome && calls.sd.isSome && calls.initialized && calls.dacl

/-- What the calls leave allocated. -/
def SecurityCalls.left (calls : SecurityCalls) : List Item :=
  if calls.ok then (calls.sid.toList ++ calls.acl.toList ++ calls.sd.toList).map .memory else []

/-- The SID, the list and the descriptor are left if all calls succeed. A call that fails leaves
nothing, wherever it is. -/
theorem leaves_securityAttr (calls : SecurityCalls) :
    Leaves (shmCreateSecurityAttr calls).uses calls.left := by
  obtain ⟨sid, acl, sd, initialized, dacl⟩ := calls
  cases sid with
  | none => exact leaves_nil
  | some sid =>
    cases acl with
    | none =>
      have hnone := (leaves_acquire (Item.memory sid)).release (r := .memory sid) (by simp)
      simpa [shmCreateSecurityAttr, SecurityCalls.left, SecurityCalls.ok, cleanup, releaseIf]
        using hnone
    | some acl =>
      cases sd with
      | none =>
        have hnone := ((leaves_acquires [Item.memory sid, .memory acl]).release (r := .memory sid)
          (by simp)).release (r := .memory acl) (by simp)
        simpa [shmCreateSecurityAttr, SecurityCalls.left, SecurityCalls.ok, cleanup, releaseIf]
          using hnone
      | some sd =>
        have hall := leaves_acquires [Item.memory sid, .memory acl, .memory sd]
        cases hok : initialized && dacl with
        | true =>
          simpa [shmCreateSecurityAttr, SecurityCalls.left, SecurityCalls.ok, hok] using hall
        | false =>
          have hnone := ((hall.release (r := .memory sid) (by simp)).release (r := .memory acl)
            (by simp)).release (r := .memory sd) (by simp)
          simpa [shmCreateSecurityAttr, SecurityCalls.left, SecurityCalls.ok, hok, cleanup,
            releaseIf] using hnone

/-- What one `shm_init` leaves. -/
def InitCalls.left (calls : InitCalls) (shm : ShmBlock) (lockdef : Option LockDef) : List Item :=
  calls.privileges.left ++ (if lockdef.isSome then calls.security.left else []) ++
    (shmInitUses calls.shmInit shm lockdef).uses.map .kernel

theorem leaves_shmInitAll (calls : InitCalls) (shm : ShmBlock) (lockdef : Option LockDef) :
    Leaves (shmInitAll calls shm lockdef).uses (calls.left shm lockdef) := by
  have hsecurity : Leaves (securityAttr calls.security lockdef).uses
      (if lockdef.isSome then calls.security.left else []) := by
    cases lockdef with
    | none => exact leaves_nil
    | some _ => exact leaves_securityAttr _
  have hkernel := leaves_acquires ((shmInitUses calls.shmInit shm lockdef).uses.map Item.kernel)
  have hall := ((leaves_privileges calls.privileges).append hsecurity).append hkernel
  have hevents : (shmInitUses calls.shmInit shm lockdef).uses.flatMap
      (fun r => [Event.acquire (Item.kernel r)]) =
        ((shmInitUses calls.shmInit shm lockdef).uses.map Item.kernel).map .acquire := by
    rw [List.map_map, List.map_eq_flatMap]
    rfl
  simpa only [shmInitAll, InitCalls.left, relabel, uses_bind, hevents, List.append_assoc] using hall

/-! ## The DLL -/

/-- What a call of the DLL is given. A hook has the block that `malloc` returns. -/
inductive Act where
  | start (created : Option Handle) (acl : InitCalls)
  | stop
  | pause
  /-- `DHCP_CONTROL_CONTINUE`. -/
  | resume
  | hook (type : HookType) (wait : WaitResult) (block : Handle) (calls : InitCalls)

/-- The call, as one of `CalloutHook`. -/
def Act.toHook : Act → CalloutHook.Act
  | .start created acl => .control (.start created acl.shmInit)
  | .stop => .control .stop
  | .pause => .control .pause
  | .resume => .control .continue
  | .hook type wait _ calls => .hook type ⟨wait, calls.shmInit⟩

/-- What `shm_close` unmaps and closes. -/
def blockItems (shm : Option HookBlock) : List Item :=
  match shm with
  | none => []
  | some b => (b.block.lockdef.map fun v => Item.kernel (.view v)).toList ++
      (b.block.mapfile.map fun h => Item.kernel (.handle h)).toList

/-- What `lock_destory` closes. -/
def lockItems (lock : Lock) : List Item :=
  if lock.init then (lock.lock.map fun h => Item.kernel (.handle h)).toList else []

/-- `InitSHM` : the block is freed again if `shm_init` fails. -/
def initShmEvents (dll : CalloutHook.State) (wait : WaitResult) (block : Handle)
    (calls : InitCalls) : List (Event Item) :=
  if CallsShmInit dll ⟨wait, calls.shmInit⟩ then
    let t := shmInitAll calls { len := calloutLen } none
    .acquire (.memory block) :: t.uses ++
      if failed t.val.2 then [.release (.memory block)] else []
  else []

/-- What a call acquires and releases. -/
def events (dll : CalloutHook.State) : Act → List (Event Item)
  | .start created acl =>
    (created.map fun h => Event.acquire (Item.kernel (.handle h))).toList ++
      (shmInitAll acl { len := aclLen } (some aclLockDef)).uses
  | .stop => (blockItems dll.shm ++ lockItems dll.shmInitLock).map .release
  | .pause | .resume => []
  | .hook _ wait block calls => initShmEvents dll wait block calls

/-- The DLL, with an account of what is open in its process. -/
structure State where
  dll : CalloutHook.State
  /-- The lock was destroyed after the last start. -/
  destroyed : Bool
  ledger : Ledger.State Item

/-- The DLL is loaded, and other things are open in the process. -/
def init (live : Finset Item) : State :=
  ⟨CalloutHook.init, false, ⟨live, []⟩⟩

/-- Whether the lock is destroyed after a call. -/
def destroyedAfter (s : State) : Act → Bool
  | .start _ _ => false
  | .stop => s.dll.shmInitLock.init
  | .pause | .resume | .hook _ _ _ _ => s.destroyed

/-- One call, with what it acquires and releases. -/
def step (s : State) (a : Act) : Option State :=
  (run Ledger.step s.ledger (events s.dll a)).bind fun l =>
    (CalloutHook.step s.dll a.toHook).map fun dll => ⟨dll, destroyedAfter s a, l⟩

/-! ## What is its own -/

/-- What a stop closes, if its lock was not destroyed before. -/
def own (s : State) : List Item :=
  blockItems s.dll.shm ++ if s.destroyed then [] else lockItems s.dll.shmInitLock

/-- Nothing was closed that was not open. The things of others are open, and so is what the DLL
is to close; of the rest, `2 * n` things or more. -/
structure Inv (live : Finset Item) (n : ℕ) (s : State) : Prop where
  stray : s.ledger.stray = []
  others : live ⊆ s.ledger.live
  own_nodup : (own s).Nodup
  own_live : ∀ r ∈ own s, r ∈ s.ledger.live ∧ r ∉ live
  leaked : 2 * n ≤ (s.ledger.live \ (live ∪ (own s).toFinset)).card

section Step

variable {live : Finset Item} {n : ℕ} {s s' : State}

theorem inv_init (live : Finset Item) : Inv live 0 (init live) where
  stray := rfl
  others := Finset.Subset.refl live
  own_nodup := List.nodup_nil
  own_live := by simp [own, init, CalloutHook.init, blockItems, lockItems]
  leaked := Nat.zero_le _

/-- New things, of which some become the DLL's own and others are lost. -/
theorem Inv.grow (h : Inv live n s) {rs : List Item} (lost : List Item) {k : ℕ}
    (hfresh : ∀ r ∈ rs, r ∉ s.ledger.live)
    (hledger : s'.ledger = ⟨s.ledger.live ∪ rs.toFinset, s.ledger.stray⟩)
    (hnodup : (own s').Nodup) (hown : ∀ r ∈ own s', r ∈ own s ∨ r ∈ rs)
    (hlost : lost.Nodup) (hrs : ∀ r ∈ lost, r ∈ rs ∧ r ∉ own s') (hk : 2 * k ≤ lost.length) :
    Inv live (n + k) s' := by
  have hlive : s'.ledger.live = s.ledger.live ∪ rs.toFinset := by rw [hledger]
  refine ⟨by rw [hledger]; exact h.stray, ?_, hnodup, fun r hr => ?_, ?_⟩
  · rw [hlive]
    exact h.others.trans Finset.subset_union_left
  · rw [hlive, Finset.mem_union, List.mem_toFinset]
    rcases hown r hr with hold | hnew
    · exact ⟨Or.inl (h.own_live r hold).1, (h.own_live r hold).2⟩
    · exact ⟨Or.inr hnew, fun hr => hfresh r hnew (h.others hr)⟩
  · have hsub : s.ledger.live \ (live ∪ (own s).toFinset) ∪ lost.toFinset ⊆
        s'.ledger.live \ (live ∪ (own s').toFinset) := by
      intro r hr
      simp only [hlive, Finset.mem_union, Finset.mem_sdiff, List.mem_toFinset, not_or] at hr ⊢
      rcases hr with ⟨hr, hother, hold⟩ | hr
      · refine ⟨Or.inl hr, hother, fun hnew => ?_⟩
        exact (hown r hnew).elim hold fun hrs => hfresh r hrs hr
      · have hnew := (hrs r hr).1
        exact ⟨Or.inr hnew, fun hother => hfresh r hnew (h.others hother), (hrs r hr).2⟩
    have hdisj : Disjoint (s.ledger.live \ (live ∪ (own s).toFinset)) lost.toFinset := by
      rw [Finset.disjoint_left]
      intro r hr hr'
      exact hfresh r (hrs r (List.mem_toFinset.mp hr')).1 (Finset.mem_sdiff.mp hr).1
    have hcard := Finset.card_le_card hsub
    rw [Finset.card_union_of_disjoint hdisj, List.toFinset_card_of_nodup hlost] at hcard
    have := h.leaked
    omega

/-- What is the DLL's own is closed. -/
theorem Inv.close (h : Inv live n s)
    (hledger : s'.ledger = ⟨s.ledger.live \ (own s).toFinset, s.ledger.stray⟩)
    (hown : own s' = []) : Inv live n s' := by
  refine ⟨by rw [hledger]; exact h.stray, fun r hr => ?_, by simp [hown], by simp [hown], ?_⟩
  · rw [hledger]
    exact Finset.mem_sdiff.mpr
      ⟨h.others hr, fun hr' => (h.own_live r (List.mem_toFinset.mp hr')).2 hr⟩
  · have heq : s'.ledger.live \ (live ∪ (own s').toFinset) =
        s.ledger.live \ (live ∪ (own s).toFinset) := by
      rw [hledger, hown, List.toFinset_nil, Finset.union_empty, sdiff_sdiff_left, Finset.union_comm]
      rfl
    rw [heq]
    exact h.leaked

/-! ## What a call does -/

/-- `acl_init` succeeds in a start. -/
def Starts (_ : State) : Act → Prop
  | .start _ acl => (aclInit acl.shmInit).2.isSome = true
  | _ => False

instance (s : State) : ∀ a : Act, Decidable (Starts s a)
  | .start _ _ => inferInstanceAs (Decidable (_ = _))
  | .stop | .pause | .resume | .hook _ _ _ _ => isFalse id

/-- The lock is not destroyed twice. -/
def DestroysOnce (s : State) : Act → Prop
  | .stop => s.destroyed = false
  | _ => True

instance (s : State) : ∀ a : Act, Decidable (DestroysOnce s a)
  | .stop => inferInstanceAs (Decidable (_ = _))
  | .start _ _ | .pause | .resume | .hook _ _ _ _ => isTrue trivial

/-- A `shm_init` that succeeded has its mapping and its view. -/
theorem uses_of_shmOk {calls : ShmInitCalls} {shm : ShmBlock} {lockdef : Option LockDef}
    (h : (shmInit calls shm lockdef).2 = shmOk) : ∃ m v,
      (shmInit calls shm lockdef).1.mapfile = some m ∧
      (shmInit calls shm lockdef).1.lockdef = some v ∧
      Resource.handle m ∈ (shmInitUses calls shm lockdef).uses ∧
      Resource.view v ∈ (shmInitUses calls shm lockdef).uses := by
  obtain ⟨m, v, hm, hv, heq⟩ := shmInit_eq_shmOk h
  obtain ⟨shm', -, huses⟩ := shmInitUses_of_view shm lockdef hm hv
  refine ⟨m, v, ?_, ?_, by simp [huses], by simp [huses]⟩
  all_goals
    rw [heq]
    unfold shmInitLocks shmInitEvents shmInitEack lockInitEx
    repeat' split
    all_goals rfl

/-- The mutex of a start. -/
def mutexItems (created : Option Handle) : List Item :=
  (created.map fun h => Item.kernel (.handle h)).toList

theorem leaves_mutex (created : Option Handle) :
    Leaves (created.map fun h => Event.acquire (Item.kernel (.handle h))).toList
      (mutexItems created) := by
  cases created with
  | none => exact leaves_nil
  | some h => exact leaves_acquire _

theorem lockItems_lockInit (lock : Lock) (created : Option Handle) :
    lockItems (lockInit lock created).1 = mutexItems created := by
  cases created with
  | none => exact ite_self []
  | some h => rfl

/-- The mapping and the view of a successful `acl_init`. -/
theorem exists_of_starts {acl : InitCalls} (h : (aclInit acl.shmInit).2.isSome = true) :
    ∃ m v, [Item.kernel (.handle m), .kernel (.view v)] ⊆
      acl.left { len := aclLen } (some aclLockDef) := by
  have hok : (shmInit acl.shmInit { len := aclLen } (some aclLockDef)).2 = shmOk := by
    refine (failed_shmInit _ _ _).mp ?_
    by_contra hfailed
    simp [aclInit, eq_true_of_ne_false hfailed] at h
  obtain ⟨m, v, -, -, hm, hv⟩ := uses_of_shmOk hok
  refine ⟨m, v, ?_⟩
  simp [InitCalls.left, hm, hv]

theorem Inv.start (h : Inv live n s) {created : Option Handle} {acl : InitCalls}
    (hl : run Ledger.step s.ledger (events s.dll (.start created acl)) = some s'.ledger)
    (hdll : s'.dll = dhcpControlHook (.start created acl.shmInit) s.dll)
    (hd : s'.destroyed = false) :
    Inv live (n + if Starts s (.start created acl) then 1 else 0) s' := by
  obtain ⟨hnodup, hfresh, hledger⟩ := (leaves_mutex created).append
    (leaves_shmInitAll acl { len := aclLen } (some aclLockDef)) _ _ hl
  obtain ⟨hmutex, -, hdisj⟩ := List.nodup_append.mp hnodup
  have hown : own s' = blockItems s.dll.shm ++ mutexItems created := by
    simp [own, hdll, hd, dhcpControlHook, lockItems_lockInit]
  have hblock (r : Item) (hr : r ∈ blockItems s.dll.shm) : r ∈ s.ledger.live :=
    (h.own_live r (List.mem_append_left _ hr)).1
  have hnew : (own s').Nodup := by
    rw [hown]
    refine (List.nodup_append.mp h.own_nodup).1.append hmutex fun r hr hr' => ?_
    exact hfresh r (List.mem_append_left _ hr') (hblock r hr)
  have hsub : ∀ r ∈ own s', r ∈ own s ∨
      r ∈ mutexItems created ++ acl.left { len := aclLen } (some aclLockDef) := by
    rw [hown]
    intro r hr
    exact (List.mem_append.mp hr).imp (List.mem_append_left _) (List.mem_append_left _)
  by_cases hstart : Starts s (.start created acl)
  · obtain ⟨m, v, hleft⟩ := exists_of_starts hstart
    rw [if_pos hstart]
    refine h.grow [.kernel (.handle m), .kernel (.view v)] hfresh hledger hnew hsub
      (by simp) (fun r hr => ?_) (by simp)
    have hr := hleft hr
    refine ⟨List.mem_append_right _ hr, ?_⟩
    rw [hown, List.mem_append, not_or]
    exact ⟨fun hr' => hfresh r (List.mem_append_right _ hr) (hblock r hr'),
      fun hr' => hdisj r hr' r hr rfl⟩
  · rw [if_neg hstart]
    exact h.grow [] hfresh hledger hnew hsub (by simp) (by simp) (by simp)

theorem Inv.stop (h : Inv live n s) (hd : s.destroyed = false)
    (hl : run Ledger.step s.ledger (events s.dll .stop) = some s'.ledger)
    (hdll : s'.dll = dhcpControlHook .stop s.dll) (hd' : s'.destroyed = s.dll.shmInitLock.init) :
    Inv live n s' := by
  have hclosed : own s = blockItems s.dll.shm ++ lockItems s.dll.shmInitLock := by simp [own, hd]
  rw [events, ← hclosed] at hl
  refine h.close (run_releases h.own_nodup (fun r hr => (h.own_live r hr).1) hl) ?_
  have hblock : blockItems s'.dll.shm = [] := by
    rw [hdll]
    cases hshm : s.dll.shm <;> simp [dhcpControlHook, blockItems, shmClose, hshm]
  rw [own, hblock, hd', hdll]
  cases hinit : s.dll.shmInitLock.init with
  | true => rfl
  | false => simp [dhcpControlHook, lockItems, hinit]

/-- A hook that attaches. -/
theorem Inv.attach (h : Inv live n s) {wait : WaitResult} {block : Handle} {calls : InitCalls}
    (hcalls : CallsShmInit s.dll ⟨wait, calls.shmInit⟩)
    (hl : run Ledger.step s.ledger (initShmEvents s.dll wait block calls) = some s'.ledger)
    (hshm : s'.dll.shm = CalloutHook.attach calls.shmInit)
    (hlock : s'.dll.shmInitLock = s.dll.shmInitLock) (hd : s'.destroyed = s.destroyed) :
    Inv live n s' := by
  have hold : own s = if s.destroyed then [] else lockItems s.dll.shmInitLock := by
    simp [own, hcalls.1, blockItems]
  have hown : own s' = blockItems (CalloutHook.attach calls.shmInit) ++ own s := by
    rw [hold, own, hshm, hlock, hd]
  have hall := (leaves_acquire (Item.memory block)).append
    (leaves_shmInitAll calls { len := calloutLen } none)
  simp only [initShmEvents, if_pos hcalls, val_shmInitAll] at hl
  cases hret : failed (shmInit calls.shmInit { len := calloutLen } none).2 with
  | true =>
    have hnone : CalloutHook.attach calls.shmInit = none := by
      simp [CalloutHook.attach, shmInitClient, hret]
    rw [hnone, blockItems, List.nil_append] at hown
    rw [hret, if_pos rfl] at hl
    obtain ⟨-, hfresh, hledger⟩ := hall.release (r := .memory block) (by simp) _ _ hl
    exact h.grow (k := 0) [] hfresh hledger (hown ▸ h.own_nodup)
      (fun r hr => Or.inl (hown ▸ hr)) (by simp) (by simp) (by simp)
  | false =>
    obtain ⟨m, v, hm, hv, hmem, hmem'⟩ := uses_of_shmOk ((failed_shmInit _ _ _).mp hret)
    have hitems : blockItems (CalloutHook.attach calls.shmInit) =
        [.kernel (.view v), .kernel (.handle m)] := by
      simp [CalloutHook.attach, shmInitClient, hret, blockItems, hm, hv]
    rw [hret, if_neg (by decide), List.append_nil] at hl
    obtain ⟨-, hfresh, hledger⟩ := hall _ _ hl
    have hin : ∀ r ∈ blockItems (CalloutHook.attach calls.shmInit),
        r ∈ [Item.memory block] ++ calls.left { len := calloutLen } none := by
      simp [hitems, InitCalls.left, hmem, hmem']
    refine h.grow (k := 0) [] hfresh hledger ?_ ?_ (by simp) (by simp) (by simp)
    · rw [hown]
      refine List.Nodup.append (by simp [hitems]) h.own_nodup fun r hr hr' => ?_
      exact hfresh r (hin r hr) (h.own_live r hr').1
    · rw [hown]
      intro r hr
      exact (List.mem_append.mp hr).symm.imp id (hin r)

theorem step_eq_some {a : Act} (h : step s a = some s') :
    run Ledger.step s.ledger (events s.dll a) = some s'.ledger ∧
      CalloutHook.step s.dll a.toHook = some s'.dll ∧ s'.destroyed = destroyedAfter s a := by
  obtain ⟨l, hl, h⟩ := Option.bind_eq_some_iff.mp h
  obtain ⟨dll, hdll, rfl⟩ := Option.map_eq_some_iff.mp h
  exact ⟨hl, hdll, rfl⟩

/-- A call that acquires and releases nothing, and leaves `shm` and its lock. -/
theorem Inv.keep (h : Inv live n s) (hl : s'.ledger = s.ledger) (hshm : s'.dll.shm = s.dll.shm)
    (hlock : s'.dll.shmInitLock = s.dll.shmInitLock) (hd : s'.destroyed = s.destroyed) :
    Inv live n s' := by
  have hown : own s' = own s := by simp only [own, hshm, hlock, hd]
  exact ⟨hl ▸ h.stray, hl ▸ h.others, hown ▸ h.own_nodup, hown ▸ hl ▸ h.own_live,
    hown ▸ hl ▸ h.leaked⟩

/-- A hook that does not come to `shm_init` acquires nothing. -/
theorem ledger_of_not_callsShmInit {type : HookType} {wait : WaitResult} {block : Handle}
    {calls : InitCalls} (hno : ¬CallsShmInit s.dll ⟨wait, calls.shmInit⟩)
    (hl : run Ledger.step s.ledger (events s.dll (.hook type wait block calls)) = some s'.ledger) :
    s'.ledger = s.ledger := by
  rw [events, initShmEvents, if_neg hno] at hl
  exact (Option.some.inj hl).symm

theorem inv_step {a : Act} (ha : DestroysOnce s a) (h : Inv live n s) (hstep : step s a = some s') :
    Inv live (n + if Starts s a then 1 else 0) s' := by
  obtain ⟨hl, hdll, hd⟩ := step_eq_some hstep
  cases a with
  | start created acl => exact h.start hl (Option.some.inj hdll).symm hd
  | stop => exact h.stop ha hl (Option.some.inj hdll).symm hd
  | pause | resume =>
    have hdll := Option.some.inj hdll
    exact h.keep (Option.some.inj hl).symm (hdll ▸ rfl) (hdll ▸ rfl) hd
  | hook type wait block calls =>
    have hwrite : s'.dll = hookWrite type ⟨wait, calls.shmInit⟩ s.dll := by
      cases type <;> exact (Option.some.inj hdll).symm
    rcases hookWrite_cases type ⟨wait, calls.shmInit⟩ s.dll with
      ⟨b, hshm, heq⟩ | ⟨hshm, hwait, heq⟩ | ⟨hshm, hwait, heq⟩
    · have hno : ¬CallsShmInit s.dll ⟨wait, calls.shmInit⟩ := fun hc => by simp [hc.1] at hshm
      rw [heq] at hwrite
      exact h.keep (ledger_of_not_callsShmInit hno hl) (hwrite ▸ rfl) (hwrite ▸ rfl) hd
    · have hno : ¬CallsShmInit s.dll ⟨wait, calls.shmInit⟩ := fun hc => by simp [hc.2] at hwait
      rw [heq] at hwrite
      exact h.keep (ledger_of_not_callsShmInit hno hl) (hwrite ▸ rfl) (hwrite ▸ rfl) hd
    · rw [heq] at hwrite
      exact h.attach ⟨hshm, hwait⟩ hl (hwrite ▸ rfl) (hwrite ▸ rfl) hd

end Step

/-- In every run that destroys the lock once after each start, nothing is closed that is not open,
the things of others stay open, and every successful start leaves two things more. -/
theorem restarts_leak (live : Finset Item) {acts : List Act} {s : State}
    (hrun : run step (init live) acts = some s)
    (honce : StepsMeet step DestroysOnce (init live) acts) :
    s.ledger.stray = [] ∧ live ⊆ s.ledger.live ∧
      live.card + 2 * tally step Starts (init live) acts ≤ s.ledger.live.card := by
  have hinv := honce.tally (K := Starts) (I := fun s n => Inv live n s)
    (fun _ _ _ _ ha hi h => inv_step ha hi h) (inv_init live) hrun
  rw [Nat.zero_add] at hinv
  refine ⟨hinv.stray, hinv.others, ?_⟩
  have hcard := Finset.card_le_card (Finset.union_subset hinv.others
    (Finset.sdiff_subset (s := s.ledger.live) (t := live ∪ (own s).toFinset)))
  have hdisj : Disjoint live (s.ledger.live \ (live ∪ (own s).toFinset)) := by
    rw [Finset.disjoint_left]
    intro r hr hr'
    exact (Finset.mem_sdiff.mp hr').2 (Finset.mem_union_left _ hr)
  rw [Finset.card_union_of_disjoint hdisj] at hcard
  have := hinv.leaked
  omega

/-- Two starts and stops, with a hook between the first two. -/
def twoStarts : List Act :=
  let acl (k : ℕ) : InitCalls := ⟨⟨some k, true⟩, ⟨some k, some (k + 1), some (k + 2), true, true⟩,
    ⟨some (k + 1), some k, aclLockDef, none, none, none⟩⟩
  [.start (some 1) (acl 10),
    .hook .addressOffer .object0 2 ⟨⟨none, false⟩, ⟨none, none, none, false, false⟩,
      ⟨some 3, some 4, calloutLockDef, some 5, some 6, none⟩⟩,
    .stop, .start (some 1) (acl 20), .stop]

theorem restarts_leak_two : ∃ s, run step (init {.kernel (.handle 9)}) twoStarts = some s ∧
    s.ledger.stray = [] ∧ 1 + 2 * 2 ≤ s.ledger.live.card := by
  have hex : ∃ s, run step (init {.kernel (.handle 9)}) twoStarts = some s := ⟨_, rfl⟩
  obtain ⟨s, hs⟩ := hex
  obtain ⟨hstray, -, hcard⟩ := restarts_leak _ hs (by decide)
  have htally : tally step Starts (init {.kernel (.handle 9)}) twoStarts = 2 := by decide
  rw [htally] at hcard
  exact ⟨s, hs, hstray, hcard⟩

end HookResources

end DhcpToolset
