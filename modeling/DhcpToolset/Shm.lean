import DhcpToolset.Win32

/-!
# The shared block and its lock

`SHM_BLOCK` (`shmdefs.h`) is a process's view of a named mapping : a header with the
names of the synchronisation objects, then `len` bytes of data. `shmInit` attaches a
process to it; a server (`lockdef` given) creates the mapping and fills in the header, a
client opens it and reads the header. An empty name means that the object is not used :
`shmLock` then succeeds without a mutex, and `shm_write` signals nothing.

`lockInitEx` reports success whatever handle it is given, and `lockWait` reports success
only on `WAIT_OBJECT_0`, so a wait that acquired an abandoned mutex is a failure to the
caller.
-/

open Win32

namespace DhcpToolset

/-- A kernel handle, and the address of a mapped view. `NULL` is `none`. -/
abbrev Handle := ℕ

/-! ## Return codes -/

/-- `SHM_OK`. -/
def shmOk : ℤ := 0

/-- `SHM_LOCK_FAILED`. -/
def shmLockFailed : ℤ := -1

/-- `SHM_MMAP_FAILED`. -/
def shmMmapFailed : ℤ := -2

/-- `FAILED` reads a `DWORD` as a signed result. -/
def failed (ret : ℤ) : Bool :=
  decide (ret < 0)

/-! ## `LOCK` -/

/-- `LOCK` of `lock.h`. -/
structure Lock where
  init : Bool := false
  lock : Option Handle := none
  deriving DecidableEq, Repr

/-- `lock_init`, `created` being what `CreateMutex` returned. -/
def lockInit (lock : Lock) (created : Option Handle) : Lock × Bool :=
  match created with
  | some h => (⟨true, some h⟩, true)
  | none => ({ lock with lock := none }, false)

/-- `lock_init_ex`. -/
def lockInitEx (_lock : Lock) (handle : Option Handle) : Lock × Bool :=
  (⟨true, handle⟩, true)

/-- `lock_wait`, `ret` being what `WaitForSingleObject` returned. -/
def lockWait (lock : Lock) (ret : WaitResult) : Bool :=
  lock.init && ret == .object0

/-! ## `SHM_BLOCK` -/

/-- The names in the header of a mapping (`_SHM_LOCKDEF`). -/
structure LockDef where
  lockname : String
  esndname : String
  eackname : String
  deriving DecidableEq, Repr

/-- `SHM_LOCK_NONE`. -/
def shmLockNone : String := ""

/-- `sizeof(_SHM_LOCKDEF)` : three names of 256 two-byte characters. -/
def sizeofLockDef : ℕ := 1536

/-- `SHM_BLOCK`. `lockdef` is the address of the view, `data` the one behind the header. -/
structure ShmBlock where
  len : ℕ := 0
  mapfile : Option Handle := none
  lockdef : Option Handle := none
  lock : Lock := {}
  esnd : Option Handle := none
  eack : Option Handle := none
  data : Option Handle := none
  deriving DecidableEq, Repr

/-- What the system calls of one `shm_init` return, and the header a client finds. -/
structure ShmInitCalls where
  /-- `CreateFileMapping` or `OpenFileMapping`. -/
  mapping : Option Handle
  /-- `MapViewOfFile`. -/
  view : Option Handle
  header : LockDef
  /-- `CreateMutexEx`. -/
  mutex : Option Handle
  /-- `CreateEventEx` for `esnd` and for `eack`. -/
  esnd : Option Handle
  eack : Option Handle
  deriving DecidableEq, Repr

/-- The last part of `shm_init` : `eack`, if it has a name. -/
def shmInitEack (calls : ShmInitCalls) (names : LockDef) (shm : ShmBlock) : ShmBlock × ℤ :=
  if names.eackname = shmLockNone then (shm, shmOk)
  else
    let shm := { shm with eack := calls.eack }
    (shm, if calls.eack.isNone then shmLockFailed else shmOk)

/-- `shm_init` from the first event on. -/
def shmInitEvents (calls : ShmInitCalls) (names : LockDef) (shm : ShmBlock) : ShmBlock × ℤ :=
  if names.esndname = shmLockNone then shmInitEack calls names shm
  else
    let shm := { shm with esnd := calls.esnd }
    if calls.esnd.isNone then (shm, shmLockFailed) else shmInitEack calls names shm

/-- `shm_init` from the mutex on. -/
def shmInitLocks (calls : ShmInitCalls) (names : LockDef) (shm : ShmBlock) : ShmBlock × ℤ :=
  if names.lockname = shmLockNone then shmInitEvents calls names shm
  else
    let (lock, ok) := lockInitEx shm.lock calls.mutex
    let shm := { shm with lock := lock }
    if ok then shmInitEvents calls names shm else (shm, shmLockFailed)

/-- `shm_init`. A server's `lockdef` overwrites the header before the names are read. -/
def shmInit (calls : ShmInitCalls) (shm : ShmBlock) (lockdef : Option LockDef) : ShmBlock × ℤ :=
  let shm := { shm with mapfile := calls.mapping }
  match calls.mapping with
  | none => (shm, shmMmapFailed)
  | some _ =>
    let shm := { shm with lockdef := calls.view }
    match calls.view with
    | none => (shm, shmMmapFailed)
    | some view =>
      shmInitLocks calls (lockdef.getD calls.header)
        { shm with data := some (view + sizeofLockDef) }

/-- `shm_close`. The data pointer keeps its value. -/
def shmClose (shm : ShmBlock) : ShmBlock :=
  { shm with mapfile := none, lockdef := none }

/-- `shm_lock`. -/
def shmLock (shm : ShmBlock) (ret : WaitResult) : Bool :=
  if shm.lock.init then lockWait shm.lock ret else true

/-! ## What a successful `shm_init` leaves -/

theorem len_shmInit (calls : ShmInitCalls) (shm : ShmBlock) (lockdef : Option LockDef) :
    (shmInit calls shm lockdef).1.len = shm.len := by
  unfold shmInit shmInitLocks shmInitEvents shmInitEack lockInitEx
  repeat' split
  all_goals rfl

/-- `shm_init` returns one of three codes, so what does not fail is `SHM_OK`. -/
theorem failed_shmInit (calls : ShmInitCalls) (shm : ShmBlock) (lockdef : Option LockDef) :
    failed (shmInit calls shm lockdef).2 = false ↔ (shmInit calls shm lockdef).2 = shmOk := by
  unfold shmInit shmInitLocks shmInitEvents shmInitEack lockInitEx
  repeat' split
  all_goals first | decide | simp [failed, shmOk, shmLockFailed, shmMmapFailed]

/-- A successful `shm_init` mapped a view, and went on from the mutex. -/
theorem shmInit_eq_shmOk {calls : ShmInitCalls} {shm : ShmBlock} {lockdef : Option LockDef}
    (h : (shmInit calls shm lockdef).2 = shmOk) : ∃ m v, calls.mapping = some m ∧
      calls.view = some v ∧ shmInit calls shm lockdef =
        shmInitLocks calls (lockdef.getD calls.header)
          { shm with mapfile := some m, lockdef := some v, data := some (v + sizeofLockDef) } := by
  unfold shmInit at h ⊢
  cases hm : calls.mapping with
  | none => simp [hm, shmMmapFailed, shmOk] at h
  | some m =>
    cases hv : calls.view with
    | none => simp [hm, hv, shmMmapFailed, shmOk] at h
    | some v => exact ⟨m, v, rfl, rfl, rfl⟩

/-- The mutex and the events leave the data pointer. -/
theorem data_shmInitLocks (calls : ShmInitCalls) (names : LockDef) (shm : ShmBlock) :
    (shmInitLocks calls names shm).1.data = shm.data := by
  unfold shmInitLocks shmInitEvents shmInitEack lockInitEx
  repeat' split
  all_goals rfl

theorem data_isSome_shmInit (calls : ShmInitCalls) (shm : ShmBlock) (lockdef : Option LockDef)
    (h : (shmInit calls shm lockdef).2 = shmOk) :
    (shmInit calls shm lockdef).1.data.isSome = true := by
  obtain ⟨m, v, -, -, heq⟩ := shmInit_eq_shmOk h
  rw [heq, data_shmInitLocks]
  rfl

/-- A named mutex leaves the lock initialised, whatever its handle. -/
theorem lock_init_shmInit (calls : ShmInitCalls) (shm : ShmBlock) (lockdef : Option LockDef)
    (h : (shmInit calls shm lockdef).2 = shmOk)
    (hname : (lockdef.getD calls.header).lockname ≠ shmLockNone) :
    (shmInit calls shm lockdef).1.lock.init = true := by
  obtain ⟨m, v, -, -, heq⟩ := shmInit_eq_shmOk h
  rw [heq, shmInitLocks, if_neg hname]
  unfold shmInitEvents shmInitEack lockInitEx
  dsimp only
  repeat' split
  all_goals rfl

/-- A named send event has a handle. -/
theorem esnd_isSome_shmInit (calls : ShmInitCalls) (shm : ShmBlock) (lockdef : Option LockDef)
    (h : (shmInit calls shm lockdef).2 = shmOk)
    (hname : (lockdef.getD calls.header).esndname ≠ shmLockNone) :
    (shmInit calls shm lockdef).1.esnd.isSome = true := by
  obtain ⟨m, v, -, -, heq⟩ := shmInit_eq_shmOk h
  rw [heq] at h ⊢
  cases he : calls.esnd with
  | none =>
    unfold shmInitLocks shmInitEvents lockInitEx at h
    simp only [hname, he, if_false, Option.isNone_none, if_true] at h
    split at h <;> simp [shmLockFailed, shmOk] at h
  | some e =>
    unfold shmInitLocks shmInitEvents shmInitEack lockInitEx
    simp only [hname, he]
    repeat' split
    all_goals simp_all

/-! ## The callout block -/

/-- The names `_tmain` gives the callout block. -/
def calloutLockDef : LockDef where
  lockname := "Global\\SHM_CALLOUT_LOCK_\x7b096DEB52-BA7A-40E9-8A3B-3A528D1243CB\x7d"
  esndname := "Global\\SHM_CALLOUT_EVENT_SEND_\x7b096DEB52-BA7A-40E9-8A3B-3A528D1243CB\x7d"
  eackname := shmLockNone

/-- `shm.len` of the callout block in the Monitor and in the hook. -/
abbrev calloutLen : ℕ := 2048

/-- A block of a process attached to the callout mapping with every call successful. -/
structure CalloutBlock where
  block : ShmBlock
  len_eq : block.len = calloutLen
  lock_init : block.lock.init = true
  esnd_isSome : block.esnd.isSome = true

/-- Both sides of the callout mapping get such a block from `shm_init` : the server
writes the names above, a client finds them. -/
def attachCallout (calls : ShmInitCalls) (lockdef : Option LockDef)
    (hnames : lockdef.getD calls.header = calloutLockDef)
    (hok : (shmInit calls { len := calloutLen } lockdef).2 = shmOk) : CalloutBlock where
  block := (shmInit calls { len := calloutLen } lockdef).1
  len_eq := len_shmInit calls _ lockdef
  lock_init := lock_init_shmInit calls _ lockdef hok (by rw [hnames]; decide)
  esnd_isSome := esnd_isSome_shmInit calls _ lockdef hok (by rw [hnames]; decide)

/-- A client that attached with the handles 1 to 4. -/
def attachedClient : CalloutBlock :=
  attachCallout ⟨some 1, some 2, calloutLockDef, some 3, some 4, none⟩ none rfl (by decide)

end DhcpToolset
