import DhcpToolset.Shm
import DhcpToolset.Transition
import Mathlib.Logic.Function.Basic

/-!
# The server and its clients attach

A server and any number of clients run `shm_init` for one mapping. `step` is one statement
of one of them : a system call, a part of the server's `memcpy`, a test of a name in the
header or the creation of the object it names. The mapping can be opened as soon as the
server has created it, filled with zeros if it is new, and only then the server copies its
`lockdef` into the header; a client that reads the header before finds names that are empty,
old or half copied.

`names_agree` : in every run in which each client reads a name after the server has copied it,
a process whose `shm_init` returned `SHM_OK` uses the names of the server's `lockdef`, and its
block is the one `shmInit` gives it with that header.
-/

set_option linter.unusedSectionVars false

open Transition

namespace DhcpToolset

namespace ShmAttach

/-! ## The header -/

/-- Characters of a name in `_SHM_LOCKDEF`, and of the three names. -/
abbrev nameLen : ℕ := 256

/-- Characters of the three names. -/
abbrev headerLen : ℕ := 768

/-- `_SHM_LOCKDEF` as an array of characters. -/
abbrev Header := Fin headerLen → Char

/-- The names of the header, in their order. -/
inductive Name where
  | lock
  | esnd
  | eack
  deriving DecidableEq

/-- Where the name starts. -/
def Name.start : Name → ℕ
  | .lock => 0
  | .esnd => nameLen
  | .eack => 2 * nameLen

/-- A character of the header, `NUL` behind it. -/
def Header.get (h : Header) (i : ℕ) : Char :=
  if hi : i < headerLen then h ⟨i, hi⟩ else Char.ofNat 0

/-- The characters before the next `NUL`, of at most `n`. -/
def Header.read (h : Header) (i : ℕ) : ℕ → List Char
  | 0 => []
  | n + 1 => if h.get i = Char.ofNat 0 then [] else h.get i :: h.read (i + 1) n

/-- The characters of a name. Without a `NUL` in its place it runs on into the next one. -/
def Header.chars (h : Header) (n : Name) : List Char :=
  h.read n.start (headerLen - n.start)

/-- The name as the string that a call reads. -/
def Header.name (h : Header) (n : Name) : String :=
  String.ofList (h.chars n)

/-- The three names as they are read. -/
def Header.lockDef (h : Header) : LockDef :=
  ⟨h.name .lock, h.name .esnd, h.name .eack⟩

/-- A new mapping. -/
def Header.zero : Header :=
  fun _ => Char.ofNat 0

/-- The characters `i ≤ j < i + k` of `memcpy(shm->lockdef, lockdef, _)`. -/
def Header.copyPart (h lockdef : Header) (i k : ℕ) : Header :=
  fun j => if i ≤ j ∧ j < i + k then lockdef j else h j

theorem Header.read_congr {h h' : Header} : ∀ (n i : ℕ),
    (∀ j, j ≤ i + (h'.read i n).length → h.get j = h'.get j) → h.read i n = h'.read i n
  | 0, _, _ => rfl
  | n + 1, i, hj => by
    have hi : h.get i = h'.get i := hj i (by omega)
    by_cases hz : h'.get i = Char.ofNat 0
    · simp [read, hi, hz]
    · have ih := read_congr n (i + 1) fun j hle => hj j (by simp [read, hz]; omega)
      simp [read, hi, hz, ih]

/-- Two headers that agree on the first `c` characters have the name in common, if `c` is past
its end. -/
theorem Header.name_congr {h h' : Header} {n : Name} {c : ℕ}
    (hagree : ∀ j : Fin headerLen, j < c → h j = h' j)
    (hc : min (n.start + (h'.chars n).length + 1) headerLen ≤ c) : h.name n = h'.name n := by
  unfold name chars
  rw [read_congr _ _ fun j hj => ?_]
  unfold get
  split_ifs with hlt
  · have hlt' : j < c := by
      unfold chars at hc
      omega
    exact hagree ⟨j, hlt⟩ hlt'
  · rfl

/-- A name that does not start with a `NUL` is not empty. -/
theorem Header.name_ne_none {h : Header} {n : Name} (hc : h.get n.start ≠ Char.ofNat 0) :
    h.name n ≠ shmLockNone := by
  have hpos : headerLen - n.start = (headerLen - n.start - 1) + 1 := by
    cases n <;> rfl
  rw [name, chars, hpos, read, if_neg hc]
  simp [shmLockNone]

/-! ## `shm_init` in steps -/

/-- The processes of the mapping. -/
inductive Party (ι : Type*) where
  | server
  | client (i : ι)
  deriving DecidableEq

/-- Where a process is in `shm_init`. -/
inductive Pc where
  | outside
  /-- Before `CreateFileMapping` or `OpenFileMapping`. -/
  | mapping
  /-- Before `MapViewOfFile`. -/
  | viewing
  /-- In the server's `memcpy`, `n` characters done. -/
  | copying (n : ℕ)
  /-- Before the test of a name. -/
  | testing (n : Name)
  /-- Before the creation of the object of that name. -/
  | opening (n : Name)
  | returned (ret : ℤ)
  deriving DecidableEq

/-- A process in `shm_init`. -/
structure Proc where
  pc : Pc
  /-- What its system calls return. -/
  calls : ShmInitCalls
  /-- The block it was called with. -/
  given : ShmBlock
  block : ShmBlock
  /-- The names it created objects with. -/
  used : LockDef

/-- The mapping that the processes share, and each process in its `shm_init`. -/
structure State (ι : Type*) where
  /-- The header of the mapping, if there is one. -/
  mapping : Option Header
  proc : Party ι → Proc

/-- One statement of `shm_init`. -/
inductive Act (ι : Type*) where
  | call (p : Party ι) (calls : ShmInitCalls) (shm : ShmBlock)
  | map (p : Party ι)
  | view (p : Party ι)
  | copy (k : ℕ)
  | copied
  | test (p : Party ι)
  | create (p : Party ι)

/-- A `_SHM_LOCKDEF` that names no object. -/
def noNames : LockDef :=
  ⟨shmLockNone, shmLockNone, shmLockNone⟩

/-- Nobody attached. A mapping may be left from before. -/
def init {ι : Type*} (mapping : Option Header) : State ι where
  mapping := mapping
  proc _ := ⟨.outside, ⟨none, none, noNames, none, none, none⟩, {}, {}, noNames⟩

/-- Behind a name. -/
def Pc.after : Name → Pc
  | .lock => .testing .esnd
  | .esnd => .testing .eack
  | .eack => .returned shmOk

/-- The object of a name in the block, and whether it was created. -/
def createObject (calls : ShmInitCalls) (shm : ShmBlock) : Name → ShmBlock × Bool
  | .lock =>
    let (lock, ok) := lockInitEx shm.lock calls.mutex
    ({ shm with lock := lock }, ok)
  | .esnd => ({ shm with esnd := calls.esnd }, calls.esnd.isSome)
  | .eack => ({ shm with eack := calls.eack }, calls.eack.isSome)

/-- A name with which an object was created. -/
def recordName (used : LockDef) (name : String) : Name → LockDef
  | .lock => { used with lockname := name }
  | .esnd => { used with esndname := name }
  | .eack => { used with eackname := name }

namespace Proc

/-- `CreateFileMapping` or `OpenFileMapping`. -/
def map (p : Proc) : Proc :=
  { p with
    block := { p.block with mapfile := p.calls.mapping }
    pc := if p.calls.mapping.isSome then .viewing else .returned shmMmapFailed }

/-- `MapViewOfFile`, `next` being where a process with a view goes on. -/
def view (p : Proc) (next : Proc → Proc) : Proc :=
  let p := { p with block := { p.block with lockdef := p.calls.view } }
  if p.calls.view.isSome then next p else { p with pc := .returned shmMmapFailed }

/-- `shm->data` is set, and the names are next. -/
def point (p : Proc) : Proc :=
  { p with
    block := { p.block with data := p.block.lockdef.map (· + sizeofLockDef) }
    pc := .testing .lock }

/-- The test of a name. -/
def test (p : Proc) (n : Name) (name : String) : Proc :=
  { p with pc := if name = shmLockNone then .after n else .opening n }

/-- The creation of an object. -/
def create (p : Proc) (n : Name) (name : String) : Proc :=
  let (block, ok) := createObject p.calls p.block n
  { p with
    block := block
    used := recordName p.used name n
    pc := if ok then .after n else .returned shmLockFailed }

end Proc

variable {ι : Type*} [DecidableEq ι]

/-- A process goes on. -/
def State.set (s : State ι) (p : Party ι) (proc : Proc) : State ι :=
  { s with proc := Function.update s.proc p proc }

/-- One statement of the server, which is called with `lockdef`, or of a client. -/
def step (lockdef : Header) (s : State ι) : Act ι → Option (State ι)
  | .call p calls shm =>
    if (s.proc p).pc = .outside then some (s.set p ⟨.mapping, calls, shm, shm, noNames⟩) else none
  | .map .server =>
    let p := s.proc .server
    if p.pc = .mapping then
      -- `CreateFileMapping` opens a mapping that exists
      let mapping := if p.calls.mapping.isSome then some (s.mapping.getD .zero) else s.mapping
      some ({ s with mapping := mapping }.set .server p.map)
    else none
  | .map (.client i) =>
    let p := s.proc (.client i)
    -- `OpenFileMapping` does not
    if p.pc = .mapping ∧ (p.calls.mapping.isSome = true → s.mapping.isSome = true) then
      some (s.set (.client i) p.map)
    else none
  | .view .server =>
    let p := s.proc .server
    if p.pc = .viewing then
      some (s.set .server (p.view fun p => { p with pc := .copying 0 }))
    else none
  | .view (.client i) =>
    let p := s.proc (.client i)
    if p.pc = .viewing then some (s.set (.client i) (p.view .point)) else none
  | .copy k =>
    match (s.proc .server).pc with
    | .copying n =>
      if n + k ≤ headerLen then
        some ({ s with mapping := s.mapping.map fun h => Header.copyPart h lockdef n k }.set .server
          { s.proc .server with pc := .copying (n + k) })
      else none
    | _ => none
  | .copied =>
    if (s.proc .server).pc = .copying headerLen then
      some (s.set .server (s.proc .server).point)
    else none
  | .test p =>
    match (s.proc p).pc with
    | .testing n => s.mapping.map fun h => s.set p ((s.proc p).test n (h.name n))
    | _ => none
  | .create p =>
    match (s.proc p).pc with
    | .opening n => s.mapping.map fun h => s.set p ((s.proc p).create n (h.name n))
    | _ => none

/-! ## What a step does -/

/-- The steps, by what they do to their process. -/
inductive Does (lockdef : Header) (s : State ι) : Act ι → State ι → Prop where
  | call {p calls shm} : (s.proc p).pc = .outside →
      Does lockdef s (.call p calls shm) (s.set p ⟨.mapping, calls, shm, shm, noNames⟩)
  | mapServer {m} : (s.proc .server).pc = .mapping →
      Does lockdef s (.map .server) ({ s with mapping := m }.set .server (s.proc .server).map)
  | mapClient {i} : (s.proc (.client i)).pc = .mapping →
      Does lockdef s (.map (.client i)) (s.set (.client i) (s.proc (.client i)).map)
  | viewServer : (s.proc .server).pc = .viewing →
      Does lockdef s (.view .server)
        (s.set .server ((s.proc .server).view fun p => { p with pc := .copying 0 }))
  | viewClient {i} : (s.proc (.client i)).pc = .viewing →
      Does lockdef s (.view (.client i)) (s.set (.client i) ((s.proc (.client i)).view .point))
  | copy {n k} : (s.proc .server).pc = .copying n →
      Does lockdef s (.copy k)
        ({ s with mapping := s.mapping.map fun h => Header.copyPart h lockdef n k }.set .server
          { s.proc .server with pc := .copying (n + k) })
  | copied : (s.proc .server).pc = .copying headerLen →
      Does lockdef s .copied (s.set .server (s.proc .server).point)
  | test {p n h} : (s.proc p).pc = .testing n → s.mapping = some h →
      Does lockdef s (.test p) (s.set p ((s.proc p).test n (h.name n)))
  | create {p n h} : (s.proc p).pc = .opening n → s.mapping = some h →
      Does lockdef s (.create p) (s.set p ((s.proc p).create n (h.name n)))

theorem does_of_step {lockdef : Header} {s s' : State ι} {a : Act ι}
    (h : step lockdef s a = some s') : Does lockdef s a s' := by
  cases a with
  | call p calls shm =>
    obtain ⟨hpc, rfl⟩ : (s.proc p).pc = .outside ∧ _ = s' := by simpa [step] using h
    exact .call hpc
  | map p =>
    cases p with
    | server =>
      obtain ⟨hpc, rfl⟩ : (s.proc .server).pc = .mapping ∧ _ = s' := by simpa [step] using h
      exact .mapServer hpc
    | client i =>
      obtain ⟨⟨hpc, -⟩, h⟩ := Option.ite_none_right_eq_some.mp h
      obtain rfl := Option.some.inj h
      exact .mapClient hpc
  | view p =>
    cases p with
    | server =>
      obtain ⟨hpc, rfl⟩ : (s.proc .server).pc = .viewing ∧ _ = s' := by simpa [step] using h
      exact .viewServer hpc
    | client i =>
      obtain ⟨hpc, rfl⟩ : (s.proc (.client i)).pc = .viewing ∧ _ = s' := by simpa [step] using h
      exact .viewClient hpc
  | copy k =>
    simp only [step] at h
    split at h
    · obtain ⟨-, h⟩ := Option.ite_none_right_eq_some.mp h
      obtain rfl := Option.some.inj h
      exact .copy ‹_›
    · cases h
  | copied =>
    obtain ⟨hpc, rfl⟩ : (s.proc .server).pc = .copying headerLen ∧ _ = s' := by
      simpa [step] using h
    exact .copied hpc
  | test p =>
    simp only [step] at h
    split at h
    · obtain ⟨hdr, hm, rfl⟩ := Option.map_eq_some_iff.mp h
      exact .test ‹_› hm
    · cases h
  | create p =>
    simp only [step] at h
    split at h
    · obtain ⟨hdr, hm, rfl⟩ := Option.map_eq_some_iff.mp h
      exact .create ‹_› hm
    · cases h

/-! ## The server's copy -/

/-- How many characters of the header the server has copied. -/
def Pc.copied : Pc → ℕ
  | .outside | .mapping | .viewing => 0
  | .copying n => n
  | .testing _ | .opening _ => headerLen
  | .returned ret => if ret = shmMmapFailed then 0 else headerLen

/-- How many characters of the header are those of the server. -/
def State.copied (s : State ι) : ℕ :=
  (s.proc .server).pc.copied

/-- The server has copied the name with its `NUL`. -/
def NameCopied (lockdef : Header) (s : State ι) (n : Name) : Prop :=
  min (n.start + (lockdef.chars n).length + 1) headerLen ≤ s.copied

instance (lockdef : Header) (s : State ι) (n : Name) : Decidable (NameCopied lockdef s n) :=
  inferInstanceAs (Decidable (_ ≤ _))

/-- What the server has copied stands in the header. -/
def HeaderCopied (lockdef : Header) (s : State ι) : Prop :=
  ∀ h, s.mapping = some h → ∀ j : Fin headerLen, j < s.copied → h j = lockdef j

@[simp] theorem State.set_self (s : State ι) (p : Party ι) (proc : Proc) :
    (s.set p proc).proc p = proc := by
  simp [set]

theorem State.set_of_ne (s : State ι) {p q : Party ι} (proc : Proc) (h : q ≠ p) :
    (s.set p proc).proc q = s.proc q := by
  simp [set, h]

/-- A step that leaves the header, and copies nothing. -/
theorem HeaderCopied.stay {lockdef : Header} {s : State ι} (h : HeaderCopied lockdef s)
    {p : Party ι} {proc : Proc} (hc : p = .server → proc.pc.copied ≤ s.copied) :
    HeaderCopied lockdef (s.set p proc) := by
  intro hdr hm j hj
  refine h hdr hm j (Nat.lt_of_lt_of_le hj ?_)
  by_cases hp : p = .server
  · subst hp
    simpa [State.copied] using hc rfl
  · rw [State.copied, State.set_of_ne _ _ (Ne.symm hp)]
    rfl

theorem copied_after (n : Name) : (Pc.after n).copied = headerLen := by
  cases n <;> rfl

namespace Proc

theorem copied_view (p : Proc) :
    (p.view fun p => { p with pc := .copying 0 }).pc.copied = 0 := by
  simp only [view]
  split_ifs <;> rfl

theorem copied_test (p : Proc) (n : Name) (name : String) :
    (p.test n name).pc.copied = headerLen := by
  simp only [test]
  split_ifs
  · exact copied_after n
  · rfl

theorem copied_create (p : Proc) (n : Name) (name : String) :
    (p.create n name).pc.copied = headerLen := by
  simp only [create]
  split_ifs
  · exact copied_after n
  · rfl

end Proc

theorem headerCopied_step {lockdef : Header} {s s' : State ι} {a : Act ι}
    (hi : HeaderCopied lockdef s) (h : Does lockdef s a s') : HeaderCopied lockdef s' := by
  cases h with
  | call hpc => exact hi.stay fun _ => Nat.zero_le _
  | mapServer hpc =>
    intro hdr hm j hj
    simp only [State.copied, State.set_self, Proc.map] at hj
    split_ifs at hj <;> simp [Pc.copied] at hj
  | mapClient hpc => exact hi.stay (by simp)
  | viewServer hpc =>
    refine hi.stay fun _ => ?_
    rw [Proc.copied_view]
    exact Nat.zero_le _
  | viewClient hpc => exact hi.stay (by simp)
  | @copy n k hpc =>
    intro hdr hm j hj
    obtain ⟨h, hh, rfl⟩ := Option.map_eq_some_iff.mp hm
    have hlt : (j : ℕ) < n + k := by simpa [State.copied, Pc.copied] using hj
    have hcopied : s.copied = n := by rw [State.copied, hpc, Pc.copied]
    unfold Header.copyPart
    split_ifs with hin
    · rfl
    · exact hi h hh j (by omega)
  | copied hpc => exact hi.stay fun _ => by simp [State.copied, hpc, Pc.copied, Proc.point]
  | @test p n h hpc hm =>
    refine hi.stay ?_
    rintro rfl
    rw [Proc.copied_test, State.copied, hpc, Pc.copied]
  | @create p n h hpc hm =>
    refine hi.stay ?_
    rintro rfl
    rw [Proc.copied_create, State.copied, hpc, Pc.copied]

theorem name_eq_of_copied {lockdef : Header} {s : State ι} (hi : HeaderCopied lockdef s)
    {h : Header} (hm : s.mapping = some h) {n : Name} (hc : NameCopied lockdef s n) :
    h.name n = lockdef.name n :=
  Header.name_congr (hi h hm) hc

/-! ## What `shm_init` does from a name on -/

/-- The rest of `shm_init` from a name on, and behind it. -/
def shmInitFrom (calls : ShmInitCalls) (names : LockDef) : Name → ShmBlock → ShmBlock × ℤ
  | .lock => shmInitLocks calls names
  | .esnd => shmInitEvents calls names
  | .eack => shmInitEack calls names

/-- The rest of `shm_init` behind a name. -/
def shmInitAfter (calls : ShmInitCalls) (names : LockDef) : Name → ShmBlock → ShmBlock × ℤ
  | .lock => shmInitEvents calls names
  | .esnd => shmInitEack calls names
  | .eack => fun shm => (shm, shmOk)

/-- A name of a `_SHM_LOCKDEF`. -/
def nameIn (names : LockDef) : Name → String
  | .lock => names.lockname
  | .esnd => names.esndname
  | .eack => names.eackname

theorem shmInitFrom_of_none (calls : ShmInitCalls) {names : LockDef} {n : Name} (shm : ShmBlock)
    (h : nameIn names n = shmLockNone) :
    shmInitFrom calls names n shm = shmInitAfter calls names n shm := by
  cases n <;> exact if_pos h

theorem shmInitFrom_of_some (calls : ShmInitCalls) {names : LockDef} {n : Name} (shm : ShmBlock)
    (h : nameIn names n ≠ shmLockNone) :
    shmInitFrom calls names n shm =
      if (createObject calls shm n).2 then shmInitAfter calls names n (createObject calls shm n).1
      else ((createObject calls shm n).1, shmLockFailed) := by
  cases n with
  | lock => exact if_neg h
  | esnd =>
    refine (if_neg h).trans ?_
    cases he : calls.esnd <;> simp [createObject, shmInitAfter, he]
  | eack =>
    refine (if_neg h).trans ?_
    cases he : calls.eack <;> simp [createObject, shmInitAfter, he]

/-- The names a process has used before it tests the name. -/
def usedBefore (names : LockDef) : Name → LockDef
  | .lock => noNames
  | .esnd => { noNames with lockname := names.lockname }
  | .eack => { names with eackname := shmLockNone }

/-- How far a process is in the `shm_init` that it would make with the header `names`. -/
def Progress (names : LockDef) (p : Proc) : Pc → Prop
  | .outside => True
  | .mapping => p.block = p.given ∧ p.used = noNames
  | .viewing => p.calls.mapping.isSome = true ∧
      p.block = { p.given with mapfile := p.calls.mapping } ∧ p.used = noNames
  | .copying _ => p.calls.mapping.isSome = true ∧ p.calls.view.isSome = true ∧
      p.block = { p.given with mapfile := p.calls.mapping, lockdef := p.calls.view } ∧
      p.used = noNames
  | .testing n => shmInit p.calls p.given (some names) = shmInitFrom p.calls names n p.block ∧
      p.used = usedBefore names n
  | .opening n => shmInit p.calls p.given (some names) = shmInitFrom p.calls names n p.block ∧
      p.used = usedBefore names n ∧ nameIn names n ≠ shmLockNone
  | .returned ret => shmInit p.calls p.given (some names) = (p.block, ret) ∧
      (ret = shmOk → p.used = names)

namespace Progress

variable {names : LockDef} {p : Proc}

theorem map (h : Progress names p .mapping) : Progress names p.map p.map.pc := by
  obtain ⟨hb, hu⟩ := h
  cases hm : p.calls.mapping with
  | none =>
    simp only [Proc.map, hm, Option.isSome_none]
    exact ⟨by simp [shmInit, hm, hb], by simp [shmMmapFailed, shmOk]⟩
  | some m =>
    simp only [Proc.map, hm, Option.isSome_some]
    exact ⟨by simp [hm], by simp [hm, hb], hu⟩

theorem point (hm : p.calls.mapping.isSome = true) (hv : p.calls.view.isSome = true)
    (hb : p.block = { p.given with mapfile := p.calls.mapping, lockdef := p.calls.view })
    (hu : p.used = noNames) : Progress names p.point (.testing .lock) := by
  obtain ⟨m, hm⟩ := Option.isSome_iff_exists.mp hm
  obtain ⟨v, hv⟩ := Option.isSome_iff_exists.mp hv
  refine ⟨?_, hu⟩
  simp [Proc.point, shmInit, shmInitFrom, hb, hm, hv]

theorem view (h : Progress names p .viewing) {next : Proc → Proc}
    (hnext : ∀ q : Proc, Progress names q (.copying 0) → Progress names (next q) (next q).pc) :
    Progress names (p.view next) (p.view next).pc := by
  obtain ⟨hm, hb, hu⟩ := h
  cases hv : p.calls.view with
  | none =>
    obtain ⟨m, hm⟩ := Option.isSome_iff_exists.mp hm
    simp only [Proc.view, hv, Option.isSome_none]
    exact ⟨by simp [shmInit, hm, hv, hb], by simp [shmMmapFailed, shmOk]⟩
  | some v =>
    simp only [Proc.view, hv, Option.isSome_some, if_true]
    exact hnext _ ⟨hm, by simp [hv], by simp [hb, hv], hu⟩

/-- Behind a name. -/
theorem after {n : Name} (h : shmInit p.calls p.given (some names) =
    shmInitAfter p.calls names n p.block)
    (hu : p.used = recordName (usedBefore names n) (nameIn names n) n) :
    Progress names p (.after n) := by
  cases n with
  | lock | esnd => exact ⟨h, hu⟩
  | eack => exact ⟨h, fun _ => hu⟩

theorem test {n : Name} (h : Progress names p (.testing n)) :
    Progress names (p.test n (nameIn names n)) (p.test n (nameIn names n)).pc := by
  obtain ⟨hinit, hu⟩ := h
  simp only [Proc.test]
  split_ifs with hname
  · refine after (p := { p with pc := .after n }) ?_ ?_
    · rw [hinit, shmInitFrom_of_none _ _ hname]
    · rw [hname]
      exact hu.trans (by cases n <;> rfl)
  · exact ⟨hinit, hu, hname⟩

theorem create {n : Name} (h : Progress names p (.opening n)) :
    Progress names (p.create n (nameIn names n)) (p.create n (nameIn names n)).pc := by
  obtain ⟨hinit, hu, hname⟩ := h
  rw [shmInitFrom_of_some _ _ hname] at hinit
  simp only [Proc.create]
  split_ifs with hok
  · rw [if_pos hok] at hinit
    exact after hinit (by rw [hu])
  · rw [if_neg hok] at hinit
    exact ⟨hinit, by simp [shmLockFailed, shmOk]⟩

end Progress

/-! ## Agreement -/

/-- The name a process reads next. -/
def Pc.reads : Pc → Option Name
  | .testing n | .opening n => some n
  | _ => none

/-- A client reads a name only when the server has copied it. -/
def ReadsCopied (lockdef : Header) (s : State ι) : Act ι → Prop
  | .test (.client i) | .create (.client i) =>
    ∀ n ∈ (s.proc (.client i)).pc.reads, NameCopied lockdef s n
  | _ => True

instance (lockdef : Header) (s : State ι) : (a : Act ι) → Decidable (ReadsCopied lockdef s a)
  | .test (.client i) | .create (.client i) =>
    inferInstanceAs (Decidable (∀ n ∈ (s.proc (.client i)).pc.reads, NameCopied lockdef s n))
  | .test .server | .create .server | .call _ _ _ | .map _ | .view _ | .copy _ | .copied =>
    isTrue trivial

/-- The copied part of the header is that of the server, and every process has come where `shm_init`
with the names of the server comes. -/
structure Inv (lockdef : Header) (s : State ι) : Prop where
  header : HeaderCopied lockdef s
  progress : ∀ p, Progress lockdef.lockDef (s.proc p) (s.proc p).pc

theorem inv_init (lockdef : Header) (m : Option Header) : Inv lockdef (init m : State ι) :=
  ⟨fun _ _ j hj => by simp [State.copied, init, Pc.copied] at hj, fun _ => trivial⟩

/-- A step of `p`. -/
theorem progress_set {names : LockDef} {s : State ι}
    (hp : ∀ p, Progress names (s.proc p) (s.proc p).pc) {m : Option Header} {p : Party ι}
    {proc : Proc} (h : Progress names proc proc.pc) (q : Party ι) :
    Progress names (({ s with mapping := m }.set p proc).proc q)
      (({ s with mapping := m }.set p proc).proc q).pc := by
  by_cases hq : q = p
  · subst hq
    rwa [State.set_self]
  · rw [State.set_of_ne _ _ hq]
    exact hp q

theorem nameIn_lockDef (h : Header) (n : Name) : nameIn h.lockDef n = h.name n := by
  cases n <;> rfl

namespace Inv

variable {lockdef : Header} {s : State ι} {p : Party ι}

theorem at_pc (hi : Inv lockdef s) {pc : Pc} (hpc : (s.proc p).pc = pc) :
    Progress lockdef.lockDef (s.proc p) pc :=
  hpc ▸ hi.progress p

/-- A process that may read a name reads that of the server. The server reads its names after the
copy. -/
theorem name_eq (hi : Inv lockdef s) {a : Act ι} (hc : ReadsCopied lockdef s a)
    (ha : a = .test p ∨ a = .create p) {n : Name} (hn : (s.proc p).pc.reads = some n)
    (hcopied : (s.proc p).pc.copied = headerLen) {h : Header} (hm : s.mapping = some h) :
    h.name n = nameIn lockdef.lockDef n := by
  refine (name_eq_of_copied hi.header hm ?_).trans (nameIn_lockDef lockdef n).symm
  cases p with
  | server =>
    rw [NameCopied, State.copied, hcopied]
    exact Nat.min_le_right _ _
  | client i =>
    obtain rfl | rfl := ha
    · exact hc n hn
    · exact hc n hn

end Inv

theorem inv_step {lockdef : Header} {s s' : State ι} {a : Act ι} (hc : ReadsCopied lockdef s a)
    (hi : Inv lockdef s) (h : step lockdef s a = some s') : Inv lockdef s' := by
  have hdoes := does_of_step h
  refine ⟨headerCopied_step hi.header hdoes, ?_⟩
  cases hdoes with
  | call hpc => exact progress_set hi.progress ⟨rfl, rfl⟩
  | mapServer hpc | mapClient hpc => exact progress_set hi.progress (hi.at_pc hpc).map
  | viewServer hpc => exact progress_set hi.progress ((hi.at_pc hpc).view fun q hq => hq)
  | viewClient hpc =>
    exact progress_set hi.progress ((hi.at_pc hpc).view fun q ⟨hm, hv, hb, hu⟩ =>
      .point hm hv hb hu)
  | copy hpc => exact progress_set hi.progress (hi.at_pc hpc)
  | copied hpc =>
    obtain ⟨hm, hv, hb, hu⟩ := hi.at_pc hpc
    exact progress_set hi.progress (.point hm hv hb hu)
  | test hpc hm =>
    rw [hi.name_eq hc (Or.inl rfl) (by rw [hpc, Pc.reads]) (by rw [hpc, Pc.copied]) hm]
    exact progress_set hi.progress (hi.at_pc hpc).test
  | create hpc hm =>
    rw [hi.name_eq hc (Or.inr rfl) (by rw [hpc, Pc.reads]) (by rw [hpc, Pc.copied]) hm]
    exact progress_set hi.progress (hi.at_pc hpc).create

/-- In every run in which each client reads a name after the server has copied it, a process whose
`shm_init` returned `SHM_OK` uses the names of the server's `lockdef`, with the block that
`shm_init` makes of them : the mutex and the send event are there if the server named them. -/
theorem names_agree {lockdef : Header} {m : Option Header} {as : List (Act ι)} {s : State ι}
    (hrun : run (step lockdef) (init m) as = some s)
    (hreads : StepsMeet (step lockdef) (ReadsCopied lockdef) (init m) as) (p : Party ι)
    (hok : (s.proc p).pc = .returned shmOk) :
    (s.proc p).used = lockdef.lockDef ∧
    shmInit { (s.proc p).calls with header := lockdef.lockDef } (s.proc p).given none =
      ((s.proc p).block, shmOk) ∧
    (lockdef.lockDef.lockname ≠ shmLockNone → (s.proc p).block.lock.init = true) ∧
    (lockdef.lockDef.esndname ≠ shmLockNone → (s.proc p).block.esnd.isSome = true) := by
  have hi := hreads.invariant (fun _ _ _ => inv_step) (inv_init lockdef m) hrun
  have hp := hi.progress p
  rw [hok] at hp
  obtain ⟨hinit, hused⟩ := hp
  have hret : (shmInit (s.proc p).calls (s.proc p).given (some lockdef.lockDef)).2 = shmOk := by
    rw [hinit]
  refine ⟨hused rfl, hinit, fun hname => ?_, fun hname => ?_⟩
  · have := lock_init_shmInit _ _ _ hret hname
    rwa [hinit] at this
  · have := esnd_isSome_shmInit _ _ _ hret hname
    rwa [hinit] at this

/-- The array that `_tcscpy` leaves of some names, on zeros. -/
def Header.ofNames (names : LockDef) : Header :=
  fun i =>
    let n : Name := if i < nameLen then .lock else if i < 2 * nameLen then .esnd else .eack
    (nameIn names n).toList.getD (i - n.start) (Char.ofNat 0)

/-- Every call successful. -/
def attachCalls : ShmInitCalls :=
  ⟨some 1, some 2, noNames, some 3, some 4, some 5⟩

/-- A client attaches between the `CreateFileMapping` and the `memcpy` of the server. -/
def earlyClient : List (Act Unit) :=
  [.call .server attachCalls { len := calloutLen }, .map .server,
    .call (.client ()) attachCalls { len := calloutLen }, .map (.client ()), .view (.client ()),
    .test (.client ()), .test (.client ()), .test (.client ())]

/-- It attaches after the `memcpy`. -/
def lateClient : List (Act Unit) :=
  [.call .server attachCalls { len := calloutLen }, .map .server, .view .server, .copy headerLen,
    .call (.client ()) attachCalls { len := calloutLen }, .map (.client ()), .view (.client ()),
    .test (.client ()), .create (.client ()), .test (.client ()), .create (.client ()),
    .test (.client ())]

theorem names_agree_late : ∃ s : State Unit,
    run (step (Header.ofNames ⟨"L", "E", ""⟩)) (init none) lateClient = some s ∧
      (s.proc (.client ())).used = (Header.ofNames ⟨"L", "E", ""⟩).lockDef ∧
      (s.proc (.client ())).block.lock.init = true := by
  have hex : ∃ s : State Unit,
    run (step (Header.ofNames ⟨"L", "E", ""⟩)) (init none) lateClient = some s := ⟨_, rfl⟩
  obtain ⟨s, hs⟩ := hex
  have hok : (s.proc (.client ())).pc = .returned shmOk :=
    eq_of_run_map (f := fun s => (s.proc (.client ())).pc) hs rfl
  obtain ⟨hused, -, hlock, -⟩ := names_agree hs (by decide) (.client ()) hok
  exact ⟨s, hs, hused, hlock (by decide)⟩

/-- The client has no mutex, and `SHM_OK`. -/
theorem not_names_agree : ¬∀ (as : List (Act Unit)) (s : State Unit),
    run (step (Header.ofNames calloutLockDef)) (init none) as = some s → ∀ i : Unit,
    (s.proc (.client i)).pc = .returned shmOk →
    (s.proc (.client i)).used = (Header.ofNames calloutLockDef).lockDef := by
  intro h
  have hex : ∃ s : State Unit,
    run (step (Header.ofNames calloutLockDef)) (init none) earlyClient = some s := ⟨_, rfl⟩
  obtain ⟨s, hs⟩ := hex
  have hok : (s.proc (.client ())).pc = .returned shmOk :=
    eq_of_run_map (f := fun s => (s.proc (.client ())).pc) hs rfl
  have hused : (s.proc (.client ())).used = noNames :=
    eq_of_run_map (f := fun s => (s.proc (.client ())).used) hs rfl
  have hname : (Header.ofNames calloutLockDef).lockDef.lockname ≠ shmLockNone :=
    Header.name_ne_none (n := .lock) (by decide)
  have heq := (h _ s hs () hok).symm.trans hused
  exact hname (congrArg LockDef.lockname heq)

end ShmAttach

end DhcpToolset
