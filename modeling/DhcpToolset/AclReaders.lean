import DhcpToolset.AclUpdate
import DhcpToolset.Transition
import DhcpToolset.Win32
import Mathlib.Logic.Function.Basic

/-!
# The access list under its lock

Any number of threads call `acl_filter` while the Monitor publishes tables. A reader takes
the lock shared, reads the length and then scans the entries byte by byte; the writer takes
it exclusively, writes the length and copies the entries. `step` is one access of one of
them.

`updates` records the tables that were published, each at the release of the lock, and a
reader notes their number when it acquires the lock. `decisions_atomic` : every decision is
that of `aclFilter` on the table after these updates, which holds the sorted entries of the last of
them, byte by byte.
-/

set_option linter.unusedSectionVars false

open Bytes Qsort Transition Win32

namespace DhcpToolset

namespace AclReaders

variable {ι : Type*}

/-- Where a thread is in `acl_filter`. -/
inductive ReaderPc where
  | outside
  /-- In `AcquireSRWLockShared`. -/
  | acquiring (c : Client)
  /-- Before it reads the length. `seen` is the number of updates before it took the lock. -/
  | reading (c : Client) (seen : ℕ)
  /-- At the top of the outer loop. -/
  | scanning (c : Client) (seen len i : ℕ)
  /-- At the top of the inner loop, in an entry of the type of the client. -/
  | comparing (c : Client) (seen len i j : ℕ)
  /-- Before it reads the access of the entry that matches. -/
  | found (c : Client) (seen i : ℕ)
  /-- In the `__finally` block. -/
  | releasing (c : Client) (seen : ℕ) (ret : Int32)

/-- Where the Monitor is in `acl_do_update`, with the rows of the query. -/
inductive WriterPc where
  | outside
  /-- In `acl_write_lock`. -/
  | locking (rows : List AccessRow)
  /-- Before `acl->length = count`. -/
  | setting (rows : List AccessRow)
  /-- In `memcpy`, `n` bytes done. -/
  | copying (rows : List AccessRow) (n : ℕ)
  /-- In the `__finally` block. -/
  | unlocking (rows : List AccessRow)

/-- Inside the lock. -/
def ReaderPc.holds : ReaderPc → Bool
  | .outside | .acquiring _ => false
  | _ => true

/-- Inside the lock. -/
def WriterPc.holds : WriterPc → Bool
  | .outside | .locking _ => false
  | _ => true

/-- What a call of `acl_filter` returned, and the number of updates before it took the lock. -/
structure Decision where
  client : Client
  seen : ℕ
  ret : Int32

/-- The list in shared memory with its lock, where its threads are, and what they have done. -/
structure State (ι : Type*) where
  acl : AclList
  lock : SrwLock ι
  reader : ι → ReaderPc
  writer : WriterPc
  /-- The rows of the updates that released the lock. -/
  updates : List (List AccessRow)
  decisions : List Decision

/-- One access. An update carries the result of its query, a part of the copy its length. -/
inductive Act (ι : Type*) where
  | call (t : ι) (c : Client)
  | acquire (t : ι)
  | readLength (t : ι)
  | next (t : ι)
  | compare (t : ι)
  | readAccess (t : ι)
  | release (t : ι)
  | update (res : Option (List AccessRow))
  | writeLock
  | setLength
  | copy (k : ℕ)
  | copied
  | writeUnlock

/-- The list as it was found, with nobody inside the lock. -/
def init (acl : AclList) : State ι where
  acl := acl
  lock := {}
  reader _ := .outside
  writer := .outside
  updates := []
  decisions := []

/-- The bytes `n ≤ x < n + k` of `memcpy(entry, buff, _)`. -/
def copyPart (entry : ℕ → UInt8) (es : List AclEntry) (n k : ℕ) : ℕ → UInt8 :=
  fun x => if n ≤ x ∧ x < n + k then copyEntries entry es x else entry x

variable [DecidableEq ι]

/-- A reader goes on. -/
def State.goto (s : State ι) (t : ι) (pc : ReaderPc) : State ι :=
  { s with reader := Function.update s.reader t pc }

section Step

variable (qsort : (AclEntry → AclEntry → ℤ) → List AclEntry → List AclEntry)

/-- One access of a reader or of the writer. -/
def step (s : State ι) : Act ι → Option (State ι)
  | .call t c =>
    match s.reader t with
    | .outside => some (s.goto t (.acquiring c))
    | _ => none
  | .acquire t =>
    match s.reader t with
    | .acquiring c => (s.lock.acquireShared t).map fun l =>
        { s with lock := l }.goto t (.reading c s.updates.length)
    | _ => none
  | .readLength t =>
    match s.reader t with
    | .reading c seen => some (s.goto t (.scanning c seen s.acl.length 0))
    | _ => none
  | .next t =>
    match s.reader t with
    | .scanning c seen len i =>
      if i < len then
        if s.acl.entry (sizeofAclEntry * i) ≠ c.hwType then
          some (s.goto t (.scanning c seen len (i + 1)))
        else some (s.goto t (.comparing c seen len i 0))
      else some (s.goto t (.releasing c seen accessPermit))
    | _ => none
  | .compare t =>
    match s.reader t with
    | .comparing c seen len i j =>
      if j < c.hwAddrLen.toNat then
        if byteMatches s.acl.entry c i j then some (s.goto t (.comparing c seen len i (j + 1)))
        else some (s.goto t (.scanning c seen len (i + 1)))
      else some (s.goto t (.found c seen i))
    | _ => none
  | .readAccess t =>
    match s.reader t with
    | .found c seen i => some (s.goto t (.releasing c seen (entryAccess s.acl.entry i)))
    | _ => none
  | .release t =>
    match s.reader t with
    | .releasing c seen ret =>
      some ({ s with
        lock := s.lock.releaseShared t
        decisions := s.decisions ++ [(⟨c, seen, ret⟩ : Decision)] }.goto t .outside)
    | _ => none
  | .update res =>
    match s.writer with
    | .outside => some { s with writer := (res.map WriterPc.locking).getD .outside }
    | _ => none
  | .writeLock =>
    match s.writer with
    | .locking rows =>
      s.lock.acquireExclusive.map fun l => { s with lock := l, writer := .setting rows }
    | _ => none
  | .setLength =>
    match s.writer with
    | .setting rows =>
      some { s with
        acl := { s.acl with length := (loadRows rows).length }
        writer := .copying rows 0 }
    | _ => none
  | .copy k =>
    match s.writer with
    | .copying rows n =>
      if n + k ≤ sizeofAclEntry * (loadRows rows).length then
        some { s with
          acl := { s.acl with
            entry := copyPart s.acl.entry (aclSortEntry qsort (loadRows rows)) n k }
          writer := .copying rows (n + k) }
      else none
    | _ => none
  | .copied =>
    match s.writer with
    | .copying rows n =>
      if n = sizeofAclEntry * (loadRows rows).length then some { s with writer := .unlocking rows }
      else none
    | _ => none
  | .writeUnlock =>
    match s.writer with
    | .unlocking rows =>
      some { s with
        lock := s.lock.releaseExclusive
        updates := s.updates ++ [rows]
        writer := .outside }
    | _ => none

/-- The table after some updates. -/
def tableAfter (acl : AclList) (updates : List (List AccessRow)) : AclList :=
  updates.foldl (fun acl rows => aclDoUpdate qsort (some rows) acl) acl

end Step

variable {qsort : (AclEntry → AclEntry → ℤ) → List AclEntry → List AclEntry}

theorem tableAfter_append (acl : AclList) (updates : List (List AccessRow))
    (rows : List AccessRow) : tableAfter qsort acl (updates ++ [rows]) =
      aclDoUpdate qsort (some rows) (tableAfter qsort acl updates) := by
  simp [tableAfter]

/-! ## The copy -/

section Copy

variable {entry : ℕ → UInt8} {es : List AclEntry}

theorem copyEntries_of_lt (entry' : ℕ → UInt8) {x : ℕ} (h : x < sizeofAclEntry * es.length) :
    copyEntries entry es x = copyEntries entry' es x := by
  have hi : x / sizeofAclEntry < es.length := Nat.div_lt_of_lt_mul h
  simp [copyEntries, List.getElem?_eq_getElem hi]

theorem copyEntries_of_le {x : ℕ} (h : sizeofAclEntry * es.length ≤ x) :
    copyEntries entry es x = entry x := by
  have hi : es.length ≤ x / sizeofAclEntry :=
    (Nat.le_div_iff_mul_le (by decide)).mpr (by rwa [Nat.mul_comm])
  simp [copyEntries, List.getElem?_eq_none hi]

theorem copyPart_zero (entry : ℕ → UInt8) (es : List AclEntry) (n : ℕ) :
    copyPart entry es n 0 = entry := by
  funext x
  rw [copyPart, if_neg (by omega)]

/-- A copy goes on where it stopped. -/
theorem copyPart_add (entry : ℕ → UInt8) {n k : ℕ} (h : n + k ≤ sizeofAclEntry * es.length) :
    copyPart (copyPart entry es 0 n) es n k = copyPart entry es 0 (n + k) := by
  funext x
  simp only [copyPart, Nat.zero_le, true_and, Nat.zero_add]
  by_cases hn : x < n
  · rw [if_neg (by omega), if_pos hn, if_pos (by omega)]
  by_cases hk : x < n + k
  · rw [if_pos ⟨by omega, hk⟩, if_pos hk]
    exact copyEntries_of_lt entry (by omega)
  · rw [if_neg (by omega), if_neg hn, if_neg hk]

theorem copyPart_all (entry : ℕ → UInt8) (es : List AclEntry) :
    copyPart entry es 0 (sizeofAclEntry * es.length) = copyEntries entry es := by
  funext x
  simp only [copyPart, Nat.zero_le, true_and, Nat.zero_add]
  split_ifs with hx
  · rfl
  · exact (copyEntries_of_le (by omega)).symm

end Copy

/-! ## The scan -/

section Scan

variable {entry : ℕ → UInt8} {c : Client} {i n : ℕ}

theorem entryMatches_eq_true (htype : entry (sizeofAclEntry * i) = c.hwType)
    (hall : ∀ j < c.hwAddrLen.toNat, byteMatches entry c i j = true) :
    entryMatches entry c i = true := by
  simp only [entryMatches, htype, Bool.and_eq_true, List.all_eq_true, List.mem_range]
  exact ⟨beq_self_eq_true _, hall⟩

theorem entryMatches_eq_false_of_type (h : entry (sizeofAclEntry * i) ≠ c.hwType) :
    entryMatches entry c i = false := by
  simp [entryMatches, h]

theorem entryMatches_eq_false {j : ℕ} (hj : j < c.hwAddrLen.toNat)
    (h : byteMatches entry c i j = false) : entryMatches entry c i = false := by
  rw [← Bool.not_eq_true]
  intro hm
  simp only [entryMatches, Bool.and_eq_true, List.all_eq_true, List.mem_range] at hm
  have := hm.2 j hj
  simp [h] at this

/-- The loop goes on behind an entry that does not match. -/
theorem aclFilterFrom_of_not_matches (hi : i < n) (h : entryMatches entry c i = false) :
    aclFilterFrom entry c i (n - i) = aclFilterFrom entry c (i + 1) (n - (i + 1)) := by
  obtain ⟨m, hm⟩ : ∃ m, n - i = m + 1 := ⟨n - i - 1, by omega⟩
  have hm' : n - (i + 1) = m := by omega
  rw [hm, hm', aclFilterFrom, if_neg (by simp [h])]

/-- It ends at one that does. -/
theorem aclFilterFrom_of_matches (hi : i < n) (h : entryMatches entry c i = true) :
    aclFilterFrom entry c i (n - i) = entryAccess entry i := by
  obtain ⟨m, hm⟩ : ∃ m, n - i = m + 1 := ⟨n - i - 1, by omega⟩
  rw [hm, aclFilterFrom, if_pos h]

end Scan

/-! ## The invariant -/

/-- What the writer has made of the table `acl`. -/
def WriterAt (qsort : (AclEntry → AclEntry → ℤ) → List AclEntry → List AclEntry)
    (acl acl' : AclList) : WriterPc → Prop
  | .outside | .locking _ | .setting _ => acl' = acl
  | .copying rows n =>
    acl' = ⟨(loadRows rows).length, copyPart acl.entry (aclSortEntry qsort (loadRows rows)) 0 n⟩
  | .unlocking rows => acl' = aclDoUpdate qsort (some rows) acl

section Writer

variable {acl m : AclList} {rows : List AccessRow}

theorem writerAt_setLength (h : WriterAt qsort acl m (.setting rows)) :
    WriterAt qsort acl { m with length := (loadRows rows).length } (.copying rows 0) := by
  have hm : m = acl := h
  rw [WriterAt, copyPart_zero, hm]

theorem writerAt_copy (hq : IsQsort qsort) {n k : ℕ} (h : WriterAt qsort acl m (.copying rows n))
    (hk : n + k ≤ sizeofAclEntry * (loadRows rows).length) :
    WriterAt qsort acl
      { m with entry := copyPart m.entry (aclSortEntry qsort (loadRows rows)) n k }
      (.copying rows (n + k)) := by
  have hm : m = _ := h
  have hlen := (perm_aclSortEntry hq (loadRows rows)).length_eq
  rw [WriterAt, hm, copyPart_add _ (by rwa [hlen])]

/-- The whole copy is that of `acl_do_update`. -/
theorem writerAt_copied (hq : IsQsort qsort)
    (h : WriterAt qsort acl m (.copying rows (sizeofAclEntry * (loadRows rows).length))) :
    WriterAt qsort acl m (.unlocking rows) := by
  have hm : m = _ := h
  have hlen := (perm_aclSortEntry hq (loadRows rows)).length_eq
  rw [WriterAt, hm, ← hlen, copyPart_all, hlen]
  rfl

end Writer

/-- What a reader knows of the decision on `acl`, the table after `k` updates. -/
def ReaderAt (acl : AclList) (k : ℕ) : ReaderPc → Prop
  | .outside | .acquiring _ => True
  | .reading _ seen => seen = k
  | .scanning c seen len i =>
    seen = k ∧ len = acl.length ∧ aclFilter c acl = aclFilterFrom acl.entry c i (len - i)
  | .comparing c seen len i j =>
    seen = k ∧ len = acl.length ∧ aclFilter c acl = aclFilterFrom acl.entry c i (len - i) ∧
      i < len ∧ acl.entry (sizeofAclEntry * i) = c.hwType ∧
        ∀ j' < j, byteMatches acl.entry c i j' = true
  | .found c seen i => seen = k ∧ aclFilter c acl = entryAccess acl.entry i
  | .releasing c seen ret => seen = k ∧ ret = aclFilter c acl

/-- A decision is that on the table after the updates it saw. -/
def Decided (qsort : (AclEntry → AclEntry → ℤ) → List AclEntry → List AclEntry) (acl : AclList)
    (updates : List (List AccessRow)) (d : Decision) : Prop :=
  d.seen ≤ updates.length ∧ d.ret = aclFilter d.client (tableAfter qsort acl (updates.take d.seen))

/-- The readers inside the lock are those it lists, and a writer is there alone. The list is the
table after the updates so far but for the writer inside the lock, the readers have scanned that
table, and each decision was taken on the table after the updates it saw. -/
structure Inv (qsort : (AclEntry → AclEntry → ℤ) → List AclEntry → List AclEntry) (acl : AclList)
    (s : State ι) : Prop where
  shared : ∀ t, (s.reader t).holds = true → t ∈ s.lock.shared
  exclusive : s.lock.exclusive = s.writer.holds
  apart : s.lock.exclusive = true → s.lock.shared = []
  table : WriterAt qsort (tableAfter qsort acl s.updates) s.acl s.writer
  scan : ∀ t, ReaderAt (tableAfter qsort acl s.updates) s.updates.length (s.reader t)
  decided : ∀ d ∈ s.decisions, Decided qsort acl s.updates d

theorem inv_init (acl : AclList) : Inv qsort acl (init acl : State ι) where
  shared t h := by simp [init, ReaderPc.holds] at h
  exclusive := rfl
  apart h := by simp [init] at h
  table := rfl
  scan _ := trivial
  decided d h := by simp [init] at h

namespace Inv

variable {acl : AclList} {s : State ι} {t : ι}

/-- While a reader is inside the lock, the writer is not. -/
theorem acl_eq (h : Inv qsort acl s) (ht : (s.reader t).holds = true) :
    s.acl = tableAfter qsort acl s.updates := by
  have hmem := h.shared t ht
  have hw : s.writer.holds = false := by
    rw [← h.exclusive, ← Bool.not_eq_true]
    intro he
    simp [h.apart he] at hmem
  have htable := h.table
  cases hpc : s.writer with
  | outside | locking rows =>
    rw [hpc] at htable
    exact htable
  | setting rows | copying rows n | unlocking rows => simp [hpc, WriterPc.holds] at hw

/-- A step of a reader from one of its positions to another. -/
theorem goto (h : Inv qsort acl s) {pc : ReaderPc} (hpc : pc.holds = true → t ∈ s.lock.shared)
    (hat : ReaderAt (tableAfter qsort acl s.updates) s.updates.length pc) :
    Inv qsort acl (s.goto t pc) := by
  refine ⟨fun u hu => ?_, h.exclusive, h.apart, h.table, fun u => ?_, h.decided⟩
  · by_cases hut : u = t
    · subst hut
      exact hpc (by simpa [State.goto] using hu)
    · exact h.shared u (by simpa [State.goto, hut] using hu)
  · by_cases hut : u = t
    · subst hut
      simpa [State.goto] using hat
    · have := h.scan u
      simpa [State.goto, hut] using this

/-- A reader takes the lock. -/
theorem acquire (h : Inv qsort acl s) {l : SrwLock ι} (hl : s.lock.acquireShared t = some l) :
    Inv qsort acl { s with lock := l } ∧ t ∈ l.shared := by
  obtain ⟨he, rfl⟩ : s.lock.exclusive = false ∧ _ = l := by
    simpa [SrwLock.acquireShared] using hl
  refine ⟨⟨fun u hu => List.mem_cons_of_mem t (h.shared u hu), h.exclusive, fun he' => ?_, h.table,
    h.scan, h.decided⟩, List.mem_cons_self⟩
  simp [he] at he'

/-- A reader gives the lock back with its decision. -/
theorem release (h : Inv qsort acl s) {c : Client} {seen : ℕ} {ret : Int32}
    (ht : s.reader t = .releasing c seen ret) :
    Inv qsort acl ({ s with
      lock := s.lock.releaseShared t
      decisions := s.decisions ++ [(⟨c, seen, ret⟩ : Decision)] }.goto t .outside) := by
  obtain ⟨hseen, hret⟩ : ReaderAt _ _ (.releasing c seen ret) := ht ▸ h.scan t
  have hdec : Decided qsort acl s.updates ⟨c, seen, ret⟩ := by
    refine ⟨hseen.le, ?_⟩
    dsimp only
    rw [hseen, List.take_length, hret]
  refine ⟨fun u hu => ?_, h.exclusive, fun he => ?_, h.table, fun u => ?_, ?_⟩
  · by_cases hut : u = t
    · subst hut
      simp [State.goto, ReaderPc.holds] at hu
    · exact (List.mem_erase_of_ne hut).mpr (h.shared u (by simpa [State.goto, hut] using hu))
  · have hnil : s.lock.shared = [] := h.apart he
    simp [State.goto, SrwLock.releaseShared, hnil]
  · by_cases hut : u = t
    · subst hut
      simp [State.goto, ReaderAt]
    · have := h.scan u
      simpa [State.goto, hut] using this
  · exact List.forall_mem_append.mpr ⟨h.decided, List.forall_mem_singleton.mpr hdec⟩

/-- A step of the writer that leaves the lock and the updates. -/
theorem write (h : Inv qsort acl s) {m : AclList} {pc : WriterPc}
    (hpc : pc.holds = s.writer.holds)
    (hat : WriterAt qsort (tableAfter qsort acl s.updates) m pc) :
    Inv qsort acl { s with acl := m, writer := pc } :=
  ⟨h.shared, h.exclusive.trans hpc.symm, h.apart, hat, h.scan, h.decided⟩

/-- The writer takes the lock. -/
theorem writeLock (h : Inv qsort acl s) {l : SrwLock ι} {rows : List AccessRow}
    (hpc : s.writer = .locking rows) (hl : s.lock.acquireExclusive = some l) :
    Inv qsort acl { s with lock := l, writer := .setting rows } := by
  obtain ⟨⟨he, hempty⟩, rfl⟩ : (s.lock.exclusive = false ∧ s.lock.shared = []) ∧ _ = l := by
    simpa [SrwLock.acquireExclusive] using hl
  have htable : WriterAt qsort _ s.acl (.locking rows) := hpc ▸ h.table
  exact ⟨h.shared, rfl, fun _ => hempty, htable, h.scan, h.decided⟩

/-- The writer publishes its table. No reader is inside the lock. -/
theorem writeUnlock (h : Inv qsort acl s) {rows : List AccessRow}
    (hpc : s.writer = .unlocking rows) :
    Inv qsort acl { s with
      lock := s.lock.releaseExclusive
      updates := s.updates ++ [rows]
      writer := .outside } := by
  have htable : WriterAt qsort _ s.acl (.unlocking rows) := hpc ▸ h.table
  have hnil : s.lock.shared = [] := h.apart (h.exclusive.trans (by rw [hpc]; rfl))
  refine ⟨h.shared, rfl, fun he => by simp [SrwLock.releaseExclusive] at he, ?_, fun t => ?_,
    fun d hd => ?_⟩
  · rw [tableAfter_append]
    exact htable
  · have hout : (s.reader t).holds = false := by
      rw [← Bool.not_eq_true]
      intro ht
      simpa [hnil] using h.shared t ht
    dsimp only
    cases hr : s.reader t with
    | outside | acquiring c => trivial
    | reading | scanning | comparing | found | releasing => simp [hr, ReaderPc.holds] at hout
  · obtain ⟨hle, hret⟩ := h.decided d hd
    refine ⟨hle.trans (by simp), ?_⟩
    rw [List.take_append_of_le_length hle]
    exact hret

end Inv

/-! ## The steps -/

namespace Inv

variable {acl : AclList} {s : State ι} {t : ι} {c : Client} {seen len i j : ℕ}
  {rows : List AccessRow}

/-- A step of a reader inside the lock, which reads the published table. -/
theorem read (h : Inv qsort acl s) {pc : ReaderPc} (hpc : s.reader t = pc)
    (hholds : pc.holds = true) {f : AclList → ReaderPc}
    (hnext : ReaderAt (tableAfter qsort acl s.updates) s.updates.length pc →
      ReaderAt (tableAfter qsort acl s.updates) s.updates.length
        (f (tableAfter qsort acl s.updates))) : Inv qsort acl (s.goto t (f s.acl)) := by
  have ht : (s.reader t).holds = true := hpc ▸ hholds
  rw [h.acl_eq ht]
  exact h.goto (fun _ => h.shared t ht) (hnext (hpc ▸ h.scan t))

/-- The outer loop of `acl_filter`. -/
theorem next (h : Inv qsort acl s) (hpc : s.reader t = .scanning c seen len i) :
    Inv qsort acl (s.goto t (if i < len then
      if s.acl.entry (sizeofAclEntry * i) ≠ c.hwType then .scanning c seen len (i + 1)
      else .comparing c seen len i 0 else .releasing c seen accessPermit)) := by
  refine h.read hpc rfl (f := fun acl => if i < len then
    if acl.entry (sizeofAclEntry * i) ≠ c.hwType then .scanning c seen len (i + 1)
    else .comparing c seen len i 0 else .releasing c seen accessPermit) ?_
  rintro ⟨hseen, hlen, hfilter⟩
  split_ifs with hi htype
  · exact ⟨hseen, hlen, hfilter.trans
      (aclFilterFrom_of_not_matches hi (entryMatches_eq_false_of_type htype))⟩
  · exact ⟨hseen, hlen, hfilter, hi, not_not.mp htype, by simp⟩
  · refine ⟨hseen, ?_⟩
    rw [hfilter, Nat.sub_eq_zero_of_le (Nat.le_of_not_lt hi)]
    rfl

/-- The inner loop. -/
theorem compare (h : Inv qsort acl s) (hpc : s.reader t = .comparing c seen len i j) :
    Inv qsort acl (s.goto t (if j < c.hwAddrLen.toNat then
      if byteMatches s.acl.entry c i j then .comparing c seen len i (j + 1)
      else .scanning c seen len (i + 1) else .found c seen i)) := by
  refine h.read hpc rfl (f := fun acl => if j < c.hwAddrLen.toNat then
    if byteMatches acl.entry c i j then .comparing c seen len i (j + 1)
    else .scanning c seen len (i + 1) else .found c seen i) ?_
  rintro ⟨hseen, hlen, hfilter, hi, htype, hall⟩
  split_ifs with hj hbyte
  · refine ⟨hseen, hlen, hfilter, hi, htype, fun j' hj' => ?_⟩
    obtain hlt | rfl := Nat.lt_succ_iff_lt_or_eq.mp hj'
    · exact hall j' hlt
    · exact hbyte
  · exact ⟨hseen, hlen, hfilter.trans
      (aclFilterFrom_of_not_matches hi (entryMatches_eq_false hj (by simpa using hbyte)))⟩
  · exact ⟨hseen, hfilter.trans (aclFilterFrom_of_matches hi
      (entryMatches_eq_true htype fun j' hj' => hall j' (by omega)))⟩

theorem setLength (h : Inv qsort acl s) (hpc : s.writer = .setting rows) :
    Inv qsort acl { s with
      acl := { s.acl with length := (loadRows rows).length }
      writer := .copying rows 0 } := by
  have htable : WriterAt qsort _ s.acl (.setting rows) := hpc ▸ h.table
  exact h.write (by rw [hpc]; rfl) (writerAt_setLength htable)

theorem copy (h : Inv qsort acl s) (hq : IsQsort qsort) {n k : ℕ}
    (hpc : s.writer = .copying rows n) (hk : n + k ≤ sizeofAclEntry * (loadRows rows).length) :
    Inv qsort acl { s with
      acl := { s.acl with
        entry := copyPart s.acl.entry (aclSortEntry qsort (loadRows rows)) n k }
      writer := .copying rows (n + k) } := by
  have htable : WriterAt qsort _ s.acl (.copying rows n) := hpc ▸ h.table
  exact h.write (by rw [hpc]; rfl) (writerAt_copy hq htable hk)

theorem copied (h : Inv qsort acl s) (hq : IsQsort qsort)
    (hpc : s.writer = .copying rows (sizeofAclEntry * (loadRows rows).length)) :
    Inv qsort acl { s with writer := .unlocking rows } := by
  have htable : WriterAt qsort _ s.acl (.copying rows _) := hpc ▸ h.table
  exact h.write (m := s.acl) (by rw [hpc]; rfl) (writerAt_copied hq htable)

end Inv

theorem inv_step (hq : IsQsort qsort) {acl : AclList} {s s' : State ι} {a : Act ι}
    (h : Inv qsort acl s) (hstep : step qsort s a = some s') : Inv qsort acl s' := by
  cases a with
  | call t c =>
    simp only [step] at hstep
    split at hstep
    · obtain rfl := Option.some.inj hstep
      exact h.goto (by simp [ReaderPc.holds]) trivial
    · cases hstep
  | acquire t =>
    simp only [step] at hstep
    split at hstep
    · obtain ⟨l, hl, rfl⟩ := Option.map_eq_some_iff.mp hstep
      obtain ⟨hinv, hmem⟩ := h.acquire hl
      exact hinv.goto (fun _ => hmem) rfl
    · cases hstep
  | readLength t =>
    simp only [step] at hstep
    split at hstep
    · rename_i c seen hpc
      obtain rfl := Option.some.inj hstep
      exact h.read hpc rfl (f := fun acl => .scanning c seen acl.length 0)
        fun hseen => ⟨hseen, rfl, rfl⟩
    · cases hstep
  | next t =>
    simp only [step, ← apply_ite] at hstep
    split at hstep
    · obtain rfl := Option.some.inj hstep
      exact h.next ‹_›
    · cases hstep
  | compare t =>
    simp only [step, ← apply_ite] at hstep
    split at hstep
    · obtain rfl := Option.some.inj hstep
      exact h.compare ‹_›
    · cases hstep
  | readAccess t =>
    simp only [step] at hstep
    split at hstep
    · rename_i c seen i hpc
      obtain rfl := Option.some.inj hstep
      exact h.read hpc rfl (f := fun acl => .releasing c seen (entryAccess acl.entry i))
        fun hat => ⟨hat.1, hat.2.symm⟩
    · cases hstep
  | release t =>
    simp only [step] at hstep
    split at hstep
    · obtain rfl := Option.some.inj hstep
      exact h.release ‹_›
    · cases hstep
  | update res =>
    simp only [step] at hstep
    split at hstep
    · rename_i hpc
      obtain rfl := Option.some.inj hstep
      have htable : WriterAt qsort _ s.acl .outside := hpc ▸ h.table
      cases res <;> exact h.write (by rw [hpc]; rfl) htable
    · cases hstep
  | writeLock =>
    simp only [step] at hstep
    split at hstep
    · obtain ⟨l, hl, rfl⟩ := Option.map_eq_some_iff.mp hstep
      exact h.writeLock ‹_› hl
    · cases hstep
  | setLength =>
    simp only [step] at hstep
    split at hstep
    · obtain rfl := Option.some.inj hstep
      exact h.setLength ‹_›
    · cases hstep
  | copy k =>
    simp only [step] at hstep
    split at hstep
    · split_ifs at hstep with hk
      obtain rfl := Option.some.inj hstep
      exact h.copy hq ‹_› hk
    · cases hstep
  | copied =>
    simp only [step] at hstep
    split at hstep
    · split_ifs at hstep with hn
      obtain rfl := Option.some.inj hstep
      exact h.copied hq (hn ▸ ‹_›)
    · cases hstep
  | writeUnlock =>
    simp only [step] at hstep
    split at hstep
    · obtain rfl := Option.some.inj hstep
      exact h.writeUnlock ‹_›
    · cases hstep

/-- The table after an update holds the entries of its rows. -/
theorem holdsSorted_tableAfter (hq : IsQsort qsort) (acl : AclList)
    {updates : List (List AccessRow)} {k : ℕ} {rows : List AccessRow}
    (hk : updates[k]? = some rows) :
    (tableAfter qsort acl (updates.take (k + 1))).HoldsSorted (loadRows rows) := by
  obtain ⟨hlt, rfl⟩ := List.getElem?_eq_some_iff.mp hk
  rw [List.take_succ_eq_append_getElem hlt, tableAfter_append]
  exact holdsSorted_aclDoUpdate hq _ _

/-- In every run, every decision of `acl_filter` is that on one table : the one after the updates
that had released the lock when the call took it. Before the first update this is the table that was
found, and after each it holds the sorted entries of the rows of that update. -/
theorem decisions_atomic (hq : IsQsort qsort) {acl : AclList} {as : List (Act ι)} {s : State ι}
    (hrun : run (step qsort) (init acl) as = some s) : ∀ d ∈ s.decisions,
      d.seen ≤ s.updates.length ∧
        d.ret = aclFilter d.client (tableAfter qsort acl (s.updates.take d.seen)) ∧
        (d.seen = 0 → tableAfter qsort acl (s.updates.take d.seen) = acl) ∧
        ∀ k rows, d.seen = k + 1 → s.updates[k]? = some rows →
          (tableAfter qsort acl (s.updates.take d.seen)).HoldsSorted (loadRows rows) := by
  intro d hd
  have hinv := run_invariant (fun _ _ _ => inv_step hq) (inv_init acl) hrun
  obtain ⟨hle, hret⟩ := hinv.decided d hd
  refine ⟨hle, hret, fun h0 => ?_, fun k rows hseen hk => ?_⟩
  · rw [h0]
    rfl
  · rw [hseen]
    exact holdsSorted_tableAfter hq acl hk

/-- A client that is served calls before a rule against it is copied in two parts. It calls again in
the midst of the copy, and waits for the lock. -/
def aroundUpdate : List (Act Unit) :=
  [.call () fullClient, .update (some [wildcardRow]), .acquire (), .readLength (), .next (),
    .release (), .writeLock, .setLength, .copy 20, .call () fullClient, .copy 20, .copied,
    .writeUnlock, .acquire (), .readLength (), .next ()] ++ List.replicate 7 (.compare ()) ++
    [.readAccess (), .release ()]

theorem decisions_atomic_two : ∃ s,
    run (step insertion) (init ⟨0, fun _ => 0⟩) aroundUpdate = some s ∧
    s.decisions.map (fun d => (d.seen, d.ret)) = [(0, accessPermit), (1, 0)] ∧
    s.updates = [[wildcardRow]] ∧
    ∀ d ∈ s.decisions, d.seen = 1 →
      d.ret = aclFilter d.client (tableAfter insertion ⟨0, fun _ => 0⟩ (s.updates.take 1)) ∧
      (tableAfter insertion ⟨0, fun _ => 0⟩ (s.updates.take 1)).HoldsSorted
        [parseRow wildcardRow] := by
  have hex : ∃ s, run (step insertion) (init ⟨0, fun _ => 0⟩) aroundUpdate = some s := ⟨_, rfl⟩
  obtain ⟨s, hs⟩ := hex
  have hupdates : s.updates = [[wildcardRow]] := eq_of_run_map (f := State.updates) hs rfl
  refine ⟨s, hs, eq_of_run_map (f := fun s => s.decisions.map fun d => (d.seen, d.ret)) hs rfl,
    hupdates, fun d hd hseen => ?_⟩
  obtain ⟨-, hret, -, htable⟩ := decisions_atomic isQsort_insertion hs d hd
  rw [hseen] at hret htable
  exact ⟨hret, htable 0 [wildcardRow] rfl (by rw [hupdates]; rfl)⟩

end AclReaders

end DhcpToolset
