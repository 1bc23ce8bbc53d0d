import DhcpToolset.Bytes
import DhcpToolset.Qsort
import DhcpToolset.Shm
import Mathlib.Data.Prod.Lex

/-!
# The access list

`ACL_LIST` (`acl.h`) lies in a shared mapping : a length, a lock, and an array of entries
that the Monitor writes and `acl_filter` scans. An entry names a hardware type, an address
and a mask, and says whether a client that it matches is served; the first entry that
matches decides, and a client that none matches is served.

`aclFilter` reads the array byte by byte at the offsets of the C layout, as the indices of
its loops are not bounded by the arrays of an entry. Up to a hardware address of 16 bytes
it is the first match in the list of entries (`aclFilter_copyEntries`). `aclCompartor`
orders the entries by type, mask and address, ascending (`orders_aclCompartor`).
-/

set_option linter.unusedSectionVars false

open Bytes Qsort

namespace DhcpToolset

/-- `ACL_ENTRY`. -/
structure AclEntry where
  hwType : UInt8
  hwAddr : Fin 16 → UInt8
  hwMask : Fin 16 → UInt8
  access : Int32
  deriving DecidableEq

/-- `TRUE`. -/
def accessPermit : Int32 := 1

/-- `sizeof(ACL_ENTRY)`. -/
def sizeofAclEntry : ℕ := 40

/-- The byte of an entry at an offset below its size. The padding is that of a zeroed
buffer. -/
def AclEntry.byte (e : AclEntry) (k : ℕ) : UInt8 :=
  if k = 0 then e.hwType
  else if h : k - 1 < 16 then e.hwAddr ⟨k - 1, h⟩
  else if h : k - 17 < 16 then e.hwMask ⟨k - 17, h⟩
  else if k < 36 then 0
  else wordByte e.access.toUInt32 (k - 36)

/-- `ACL_LIST`. `entry` is the memory from the array on. -/
structure AclList where
  length : ℕ
  entry : ℕ → UInt8

/-- A client, as `acl_filter` is called. `hwAddr` is the memory from the pointer on. -/
structure Client where
  hwType : UInt8
  hwAddr : ℕ → UInt8
  hwAddrLen : UInt8

/-! ## `acl_init` and `acl_connect` -/

/-- The length of the mapping. -/
def aclLen : ℕ := 2048 * sizeofAclEntry + 4

/-- The access list uses no lock and no event of the mapping. -/
def aclLockDef : LockDef := ⟨shmLockNone, shmLockNone, shmLockNone⟩

/-- `acl_init`, with the address of the list. -/
def aclInit (calls : ShmInitCalls) : ShmBlock × Option Handle :=
  let (shm, ret) := shmInit calls { len := aclLen } (some aclLockDef)
  (shm, if failed ret then none else shm.data)

/-- `acl_connect`. -/
def aclConnect (calls : ShmInitCalls) : ShmBlock × Option Handle :=
  let (shm, ret) := shmInit calls { len := aclLen } none
  (shm, if failed ret then none else shm.data)

theorem len_aclInit (calls : ShmInitCalls) : (aclInit calls).1.len = aclLen :=
  len_shmInit calls _ _

theorem len_aclConnect (calls : ShmInitCalls) : (aclConnect calls).1.len = aclLen :=
  len_shmInit calls _ _

/-! ## `acl_compartor` -/

/-- The difference of the types, else of the first bytes of the masks that differ, else of
those of the addresses. -/
def aclCompartor (a b : AclEntry) : ℤ :=
  if a.hwType ≠ b.hwType then a.hwType.toNat - b.hwType.toNat
  else ((firstDiff a.hwMask b.hwMask).or (firstDiff a.hwAddr b.hwAddr)).getD 0

/-- What `acl_compartor` compares, in its order. -/
def AclEntry.key (e : AclEntry) : ℕ ×ₗ Lex (Fin 16 → ℕ) ×ₗ Lex (Fin 16 → ℕ) :=
  toLex (e.hwType.toNat, toLex (byteString e.hwMask, byteString e.hwAddr))

theorem AclEntry.key_lt_key {a b : AclEntry} : a.key < b.key ↔ a.hwType.toNat < b.hwType.toNat ∨
    a.hwType = b.hwType ∧ (byteString a.hwMask < byteString b.hwMask ∨
      a.hwMask = b.hwMask ∧ byteString a.hwAddr < byteString b.hwAddr) := by
  simp only [key, Prod.Lex.toLex_lt_toLex, UInt8.toNat_inj, byteString_injective.eq_iff]

theorem AclEntry.key_eq_key {a b : AclEntry} :
    a.key = b.key ↔ a.hwType = b.hwType ∧ a.hwMask = b.hwMask ∧ a.hwAddr = b.hwAddr := by
  simp only [key, toLex_inj, Prod.mk.injEq, UInt8.toNat_inj, byteString_injective.eq_iff]

/-- The comparison from the masks on. -/
theorem sign_firstDiff (a b : AclEntry) (d : ℤ)
    (hd : ((firstDiff a.hwMask b.hwMask).or (firstDiff a.hwAddr b.hwAddr)).getD 0 = d) :
    (d < 0 ↔ byteString a.hwMask < byteString b.hwMask ∨
      a.hwMask = b.hwMask ∧ byteString a.hwAddr < byteString b.hwAddr) ∧
    (d = 0 ↔ a.hwMask = b.hwMask ∧ a.hwAddr = b.hwAddr) := by
  cases hm : firstDiff a.hwMask b.hwMask with
  | some m =>
    obtain rfl : m = d := by simpa [hm] using hd
    obtain ⟨hne, h0, hneg⟩ := firstDiff_eq_some hm
    simp [hne, h0, hneg]
  | none =>
    have heq := firstDiff_eq_none.mp hm
    have hirrefl : ¬byteString b.hwMask < byteString b.hwMask := lt_irrefl _
    cases ha : firstDiff a.hwAddr b.hwAddr with
    | some m =>
      obtain rfl : m = d := by simpa [hm, ha] using hd
      obtain ⟨hne, h0, hneg⟩ := firstDiff_eq_some ha
      simp [heq, hirrefl, hne, h0, hneg]
    | none =>
      obtain rfl : 0 = d := by simpa [hm, ha] using hd
      have hnot : ¬byteString b.hwAddr < byteString b.hwAddr := lt_irrefl _
      simp [heq, firstDiff_eq_none.mp ha, hirrefl, hnot]

theorem orders_aclCompartor : Orders aclCompartor AclEntry.key where
  neg_iff a b := by
    rw [AclEntry.key_lt_key, aclCompartor]
    split_ifs with h
    · simp only [h, false_and, or_false]
      omega
    · rw [(sign_firstDiff a b _ rfl).1]
      simp only [ne_eq, not_not] at h
      simp [h]
  zero_iff a b := by
    rw [AclEntry.key_eq_key, aclCompartor]
    split_ifs with h
    · have hne : a.hwType.toNat ≠ b.hwType.toNat := fun h' => h (UInt8.toNat_inj.mp h')
      simp only [h, false_and, iff_false]
      omega
    · rw [(sign_firstDiff a b _ rfl).2]
      simp only [ne_eq, not_not] at h
      simp [h]

/-! ## `acl_filter` -/

section Filter

variable (entry : ℕ → UInt8) (c : Client)

/-- The test of `acl_filter` on the byte `j` of the address. -/
def byteMatches (i j : ℕ) : Bool :=
  c.hwAddr j &&& entry (sizeofAclEntry * i + 17 + j) == entry (sizeofAclEntry * i + 1 + j)

/-- The tests of `acl_filter` on `entries[i]`, read at their offsets. -/
def entryMatches (i : ℕ) : Bool :=
  entry (sizeofAclEntry * i) == c.hwType &&
    (List.range c.hwAddrLen.toNat).all fun j => byteMatches entry c i j

/-- `entries[i].access`. -/
def entryAccess (i : ℕ) : Int32 :=
  (word fun k => entry (sizeofAclEntry * i + 36 + k)).toInt32

/-- The loop of `acl_filter` from `i` on, with `n` entries left. -/
def aclFilterFrom : ℕ → ℕ → Int32
  | _, 0 => accessPermit
  | i, n + 1 =>
    if entryMatches entry c i then entryAccess entry i else aclFilterFrom (i + 1) n

/-- `acl_filter`. -/
def aclFilter (acl : AclList) : Int32 :=
  aclFilterFrom acl.entry c 0 acl.length

end Filter

/-- An entry matches a client of its type when every byte of the client's address is, under
the mask, that of the entry. -/
def AclEntry.Matches (e : AclEntry) (c : Client) : Bool :=
  e.hwType == c.hwType && decide (∀ j : Fin 16, j < c.hwAddrLen.toNat →
    c.hwAddr j &&& e.hwMask j = e.hwAddr j)

/-- `memcpy(entry, buff, sizeof(ACL_ENTRY)*count)`. -/
def copyEntries (entry : ℕ → UInt8) (es : List AclEntry) : ℕ → UInt8 :=
  fun x => (es[x / sizeofAclEntry]?.map fun e => e.byte (x % sizeofAclEntry)).getD (entry x)

/-- The first match decides. -/
def firstMatch (es : List AclEntry) (c : Client) : Int32 :=
  ((es.find? (·.Matches c)).map AclEntry.access).getD accessPermit

section Layout

variable {entry : ℕ → UInt8} {es : List AclEntry} {e : AclEntry} {i : ℕ}

theorem copyEntries_apply (h : es[i]? = some e) {k : ℕ} (hk : k < sizeofAclEntry) :
    copyEntries entry es (sizeofAclEntry * i + k) = e.byte k := by
  have hdiv : (sizeofAclEntry * i + k) / sizeofAclEntry = i := by
    simp only [sizeofAclEntry] at *
    omega
  have hmod : (sizeofAclEntry * i + k) % sizeofAclEntry = k := by
    simp only [sizeofAclEntry] at *
    omega
  simp [copyEntries, hdiv, hmod, h]

theorem AclEntry.byte_hwAddr (e : AclEntry) (j : Fin 16) : e.byte (1 + j) = e.hwAddr j := by
  simp [byte]

theorem AclEntry.byte_hwMask (e : AclEntry) (j : Fin 16) : e.byte (17 + j) = e.hwMask j := by
  have h : ¬17 + (j : ℕ) - 1 < 16 := by omega
  rw [byte, if_neg (by omega), dif_neg h]
  simp

theorem AclEntry.byte_access (e : AclEntry) {k : ℕ} :
    e.byte (36 + k) = wordByte e.access.toUInt32 k := by
  rw [byte, if_neg (by omega), dif_neg (by omega), dif_neg (by omega), if_neg (by omega),
    Nat.add_sub_cancel_left]

theorem entryAccess_copyEntries (h : es[i]? = some e) :
    entryAccess (copyEntries entry es) i = e.access := by
  have hbyte : ∀ k < 4, copyEntries entry es (sizeofAclEntry * i + 36 + k) =
      wordByte e.access.toUInt32 k := by
    intro k hk
    rw [Nat.add_assoc, copyEntries_apply h (by simp only [sizeofAclEntry]; omega), e.byte_access]
  rw [entryAccess, word_congr hbyte, word_wordByte, Int32.toInt32_toUInt32]

theorem entryMatches_copyEntries (h : es[i]? = some e) {c : Client}
    (hlen : c.hwAddrLen.toNat ≤ 16) :
    entryMatches (copyEntries entry es) c i = e.Matches c := by
  have htype : copyEntries entry es (sizeofAclEntry * i) = e.hwType :=
    copyEntries_apply (k := 0) h (by decide)
  have haddr : ∀ j : Fin 16, copyEntries entry es (sizeofAclEntry * i + 1 + j) = e.hwAddr j := by
    intro j
    rw [Nat.add_assoc, copyEntries_apply h (by simp only [sizeofAclEntry]; omega), e.byte_hwAddr]
  have hmask : ∀ j : Fin 16, copyEntries entry es (sizeofAclEntry * i + 17 + j) = e.hwMask j := by
    intro j
    rw [Nat.add_assoc, copyEntries_apply h (by simp only [sizeofAclEntry]; omega), e.byte_hwMask]
  rw [Bool.eq_iff_iff]
  simp only [entryMatches, byteMatches, AclEntry.Matches, htype, Bool.and_eq_true,
    List.all_eq_true, List.mem_range, beq_iff_eq, decide_eq_true_eq]
  refine and_congr_right fun _ => ⟨fun hall j hj => ?_, fun hall j hj => ?_⟩
  · rw [← hmask, ← haddr]
    exact hall j hj
  · have := hall ⟨j, by omega⟩ hj
    rwa [← hmask, ← haddr] at this

/-- The loop over the entries from `i` on. -/
theorem aclFilterFrom_copyEntries {c : Client} (hlen : c.hwAddrLen.toNat ≤ 16) :
    ∀ n i : ℕ, i + n = es.length →
      aclFilterFrom (copyEntries entry es) c i n = firstMatch (es.drop i) c
  | 0, i, h => by
    rw [List.drop_eq_nil_of_le (by omega)]
    rfl
  | n + 1, i, h => by
    have hi : i < es.length := by omega
    have hget : es[i]? = some es[i] := List.getElem?_eq_getElem hi
    rw [aclFilterFrom, entryMatches_copyEntries hget hlen, entryAccess_copyEntries hget,
      aclFilterFrom_copyEntries hlen n (i + 1) (by omega), List.drop_eq_getElem_cons hi, firstMatch,
      firstMatch, List.find?_cons]
    cases es[i].Matches c <;> rfl

end Layout

/-- `acl_filter` on a table of entries. -/
theorem aclFilter_copyEntries (entry : ℕ → UInt8) (es : List AclEntry) {c : Client}
    (hlen : c.hwAddrLen.toNat ≤ 16) :
    aclFilter c ⟨es.length, copyEntries entry es⟩ = firstMatch es c :=
  aclFilterFrom_copyEntries hlen es.length 0 (Nat.zero_add _)

end DhcpToolset
