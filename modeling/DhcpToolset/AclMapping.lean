import DhcpToolset.AclBounds
import DhcpToolset.AclUpdate

/-!
# The size of the access list's mapping

`acl_init` and `acl_connect` reserve room for 2048 entries and an `int`, but in front of the entries
an `ACL_LIST` has its length, padding and a lock of the size of a pointer. `acl_do_update` loads up
to 2048 rows, so the last entry of a full table ends behind the mapping.

`table_fits_iff` : what `acl_do_update` writes and `acl_filter` reads lies inside exactly for fewer
than 2048 rows, if the hardware address has at most 16 bytes. A longer one can take the comparison
out of the mapping from one of the last entries (`RunsOver`).
-/

set_option linter.unusedSectionVars false

open Traced Qsort

namespace DhcpToolset

/-! ## Layout of C structures -/

namespace CLayout

/-- The size and the alignment of a type. -/
structure CType where
  size : ℕ
  align : ℕ
  deriving DecidableEq

/-- `T a[n]`. -/
def array (n : ℕ) (t : CType) : CType :=
  ⟨n * t.size, t.align⟩

/-- The next multiple of an alignment. -/
def alignUp (n align : ℕ) : ℕ :=
  (n + align - 1) / align * align

/-- The offsets of the members of a structure from an offset on, and the end of the last of them. -/
def offsetsFrom : ℕ → List CType → List ℕ
  | off, [] => [off]
  | off, t :: ts => alignUp off t.align :: offsetsFrom (alignUp off t.align + t.size) ts

/-- A structure is padded to the greatest alignment of its members. -/
def struct (ts : List CType) : CType :=
  let align := (ts.map CType.align).foldr max 1
  ⟨alignUp ((offsetsFrom 0 ts).getD ts.length 0) align, align⟩

/-- The offset of a member. -/
def offsetof (ts : List CType) (i : ℕ) : ℕ :=
  (offsetsFrom 0 ts).getD i 0

end CLayout

open CLayout

/-- `unsigned char`. -/
def uchar : CType := ⟨1, 1⟩

/-- `unsigned int`, `int` and `BOOL`. -/
def uint : CType := ⟨4, 4⟩

/-- `SRWLOCK`, for a size of pointers. -/
def srwlock (ptr : ℕ) : CType := ⟨ptr, ptr⟩

/-- `HwType`, `HwAddr`, `HwMask` and `access`. -/
def aclEntryMembers : List CType := [uchar, array 16 uchar, array 16 uchar, uint]

/-- `length`, `lock` and `entry`. -/
def aclListMembers (ptr : ℕ) : List CType :=
  [uint, srwlock ptr, array 1 (struct aclEntryMembers)]

/-- The offset of `entry` in an `ACL_LIST`. -/
def offsetofEntry (ptr : ℕ) : ℕ :=
  offsetof (aclListMembers ptr) 2

/-- The offsets that the model of `acl_filter` reads at are those of the layout. -/
theorem offsetsFrom_aclEntryMembers : offsetsFrom 0 aclEntryMembers = [0, 1, 17, 36, 40] ∧
    (struct aclEntryMembers).size = sizeofAclEntry := by
  decide

theorem offsetofEntry_eq {ptr : ℕ} (hptr : ptr = 4 ∨ ptr = 8) : offsetofEntry ptr = 2 * ptr := by
  rcases hptr with rfl | rfl
  · decide
  · decide

/-! ## What is written and read -/

/-- The bytes of the `ACL_LIST` that `acl_do_update` writes for `count` entries : the length, and
the entries. -/
def updateWrites (ptr count : ℕ) : List ℕ :=
  List.range uint.size ++ List.range' (offsetofEntry ptr) (sizeofAclEntry * count)

/-- The bytes of the array that are not among them keep their contents. -/
theorem entry_aclDoUpdate_of_notMem
    {qsort : (AclEntry → AclEntry → ℤ) → List AclEntry → List AclEntry} (hq : IsQsort qsort)
    (rows : List AccessRow) (acl : AclList) (ptr : ℕ) {x : ℕ}
    (hx : offsetofEntry ptr + x ∉ updateWrites ptr (loadRows rows).length) :
    (aclDoUpdate qsort (some rows) acl).entry x = acl.entry x := by
  have hle : (loadRows rows).length * sizeofAclEntry ≤ x := by
    by_contra hlt
    rw [Nat.mul_comm] at hlt
    exact hx (List.mem_append_right _ (List.mem_range'_1.mpr ⟨by omega, by omega⟩))
  have hdiv : (aclSortEntry qsort (loadRows rows)).length ≤ x / sizeofAclEntry := by
    rw [(perm_aclSortEntry hq _).length_eq]
    exact (Nat.le_div_iff_mul_le (by decide)).mpr hle
  simp [aclDoUpdate, copyEntries, List.getElem?_eq_none hdiv]

/-- The bytes of a use of an entry. -/
def useBytes (ptr : ℕ) : FilterUse → List ℕ
  | .hwAddr i j => [offsetofEntry ptr + (sizeofAclEntry * i + 1 + j)]
  | .hwMask i j => [offsetofEntry ptr + (sizeofAclEntry * i + 17 + j)]
  | .chaddr _ => []

section Filter

variable (ptr : ℕ) (entry : ℕ → UInt8) (c : Client)

/-- The outer loop of `acl_filter` with the bytes that it reads, from `i` on with `n` entries
left. -/
def filterReadsFrom : ℕ → ℕ → Traced ℕ Int32
  | _, 0 => pure accessPermit
  | i, n + 1 => do
    touch [offsetofEntry ptr + sizeofAclEntry * i]
    if entry (sizeofAclEntry * i) = c.hwType then
      let same ← (compareFrom entry c i 0 c.hwAddrLen.toNat).relabel (useBytes ptr)
      if same then
        touch (List.range' (offsetofEntry ptr + (sizeofAclEntry * i + 36)) uint.size)
        pure (entryAccess entry i)
      else filterReadsFrom (i + 1) n
    else filterReadsFrom (i + 1) n

/-- `acl_filter`. -/
def aclFilterReads (acl : AclList) : Traced ℕ Int32 := do
  touch (List.range uint.size)
  filterReadsFrom ptr acl.entry c 0 acl.length

end Filter

section Loop

variable {ptr : ℕ} {entry : ℕ → UInt8} {c : Client}

theorem val_filterReadsFrom : ∀ i n : ℕ,
    (filterReadsFrom ptr entry c i n).val = aclFilterFrom entry c i n
  | _, 0 => rfl
  | i, n + 1 => by
    rw [aclFilterFrom, entryMatches_eq, ← val_filterReadsFrom (i + 1) n, filterReadsFrom]
    by_cases htype : entry (sizeofAclEntry * i) = c.hwType
    · cases hsame : (compareFrom entry c i 0 c.hwAddrLen.toNat).val <;> simp [htype, hsame]
    · simp [htype]

theorem val_aclFilterReads (acl : AclList) : (aclFilterReads ptr c acl).val = aclFilter c acl :=
  val_filterReadsFrom 0 acl.length

/-- What a turn of the outer loop reads. -/
structure TurnReads (q : ℕ → Prop) (ptr : ℕ) (entry : ℕ → UInt8) (c : Client) (i : ℕ) : Prop where
  hwType : q (offsetofEntry ptr + sizeofAclEntry * i)
  compare : entry (sizeofAclEntry * i) = c.hwType →
    Turns (fun j => byteMatches entry c i j = true)
      (fun j => q (offsetofEntry ptr + (sizeofAclEntry * i + 1 + j)) ∧
        q (offsetofEntry ptr + (sizeofAclEntry * i + 17 + j))) 0 c.hwAddrLen.toNat
  access : entryMatches entry c i = true →
    ∀ k < 4, q (offsetofEntry ptr + (sizeofAclEntry * i + 36) + k)

variable {q : ℕ → Prop}

theorem all_relabel_compareFrom (i j n : ℕ) :
    ((compareFrom entry c i j n).relabel (useBytes ptr)).All q ↔
      Turns (fun j => byteMatches entry c i j = true)
        (fun j => q (offsetofEntry ptr + (sizeofAclEntry * i + 1 + j)) ∧
          q (offsetofEntry ptr + (sizeofAclEntry * i + 17 + j))) j n := by
  simp only [all_relabel, all_compareFrom, useBytes, List.mem_singleton, forall_eq,
    List.not_mem_nil, false_implies, implies_true, true_and]

theorem all_touch_range' (off n : ℕ) :
    (touch (List.range' off n)).All q ↔ ∀ k < n, q (off + k) := by
  simp only [all_touch, List.mem_range'_1]
  constructor
  · intro h k hk
    exact h _ ⟨by omega, by omega⟩
  · rintro h x ⟨hlow, hhigh⟩
    obtain ⟨k, rfl⟩ := Nat.exists_eq_add_of_le hlow
    exact h k (by omega)

theorem all_filterReadsFrom : ∀ i n : ℕ, (filterReadsFrom ptr entry c i n).All q ↔
    Turns (fun k => entryMatches entry c k = false) (TurnReads q ptr entry c) i n
  | _, 0 => by simp [filterReadsFrom]
  | i, n + 1 => by
    have hmatch : entryMatches entry c i = _ := entryMatches_eq i
    rw [turns_succ, ← all_filterReadsFrom (i + 1) n, filterReadsFrom, all_bind, all_ite, all_bind,
      all_relabel_compareFrom, val_relabel, all_ite, all_bind, all_touch_range']
    by_cases htype : entry (sizeofAclEntry * i) = c.hwType
    · rw [if_pos htype]
      cases hsame : (compareFrom entry c i 0 c.hwAddrLen.toNat).val with
      | false =>
        have hno : entryMatches entry c i = false := by simp [hmatch, hsame]
        simp only [Bool.false_eq_true, if_false, all_touch, List.mem_singleton, forall_eq, hno,
          true_implies]
        constructor
        · rintro ⟨hfirst, hcompare, hrest⟩
          exact ⟨⟨hfirst, fun _ => hcompare, fun h => absurd (hno.symm.trans h) (by decide)⟩, hrest⟩
        · rintro ⟨h, hrest⟩
          exact ⟨h.hwType, h.compare htype, hrest⟩
      | true =>
        have hyes : entryMatches entry c i = true := by simp [hmatch, hsame, htype]
        simp only [if_true, all_touch, List.mem_singleton, forall_eq, hyes, all_pure, and_true,
          Bool.true_eq_false, false_implies]
        constructor
        · rintro ⟨hfirst, hcompare, haccess⟩
          exact ⟨hfirst, fun _ => hcompare, fun _ => haccess⟩
        · intro h
          exact ⟨h.hwType, h.compare htype, h.access hyes⟩
    · have hno : entryMatches entry c i = false := by simp [hmatch, htype]
      simp only [if_neg htype, all_touch, List.mem_singleton, forall_eq, hno, true_implies]
      refine and_congr_left fun _ => ⟨fun hfirst => ?_, TurnReads.hwType⟩
      exact ⟨hfirst, fun h => absurd h htype, fun h => absurd (hno.symm.trans h) (by decide)⟩

end Loop

/-! ## The mapping -/

/-- What the update writes and the filter reads lies in the bytes that both sides reserve. -/
structure TableFits (ptr : ℕ) (init connect : ShmInitCalls) (rows : List AccessRow) (acl : AclList)
    (c : Client) : Prop where
  writes : ∀ x ∈ updateWrites ptr (loadRows rows).length,
    x < (aclInit init).1.len ∧ x < (aclConnect connect).1.len
  reads : (aclFilterReads ptr c acl).All fun x =>
    x < (aclInit init).1.len ∧ x < (aclConnect connect).1.len

/-- The filter comes to an entry of the client's type whose mask it then reads behind the mapping :
no entry before matches, and the bytes before agree. -/
def RunsOver (ptr : ℕ) (acl : AclList) (c : Client) : Prop :=
  ∃ i < acl.length, (∀ k < i, entryMatches acl.entry c k = false) ∧
    acl.entry (sizeofAclEntry * i) = c.hwType ∧
      ∃ j < c.hwAddrLen.toNat, (∀ k < j, byteMatches acl.entry c i k = true) ∧
        aclLen ≤ offsetofEntry ptr + (sizeofAclEntry * i + 17 + j)

section Fits

variable {ptr : ℕ} {c : Client} {acl : AclList}

theorem updateWrites_lt_iff (hptr : ptr = 4 ∨ ptr = 8) {count : ℕ} (hcount : count ≤ 2048) :
    (∀ x ∈ updateWrites ptr count, x < aclLen) ↔ count < 2048 := by
  have hoff := offsetofEntry_eq hptr
  simp only [updateWrites, List.forall_mem_append, List.mem_range, List.mem_range'_1, uint, aclLen,
    sizeofAclEntry, hoff]
  constructor
  · rintro ⟨-, h⟩
    by_contra hfull
    have := h (2 * ptr + (40 * count - 1)) (by omega)
    omega
  · intro hlt
    exact ⟨fun x hx => by omega, fun x hx => by omega⟩

/-- In a table that is not full, only the comparison of a long address can leave the mapping. -/
theorem aclFilterReads_lt_iff (hptr : ptr = 4 ∨ ptr = 8) (hlen : acl.length < 2048) :
    (aclFilterReads ptr c acl).All (· < aclLen) ↔ ¬RunsOver ptr acl c := by
  have hoff := offsetofEntry_eq hptr
  have hentry : ∀ i < acl.length, offsetofEntry ptr + (sizeofAclEntry * i + 40) ≤ aclLen := by
    intro i hi
    simp only [hoff, sizeofAclEntry, aclLen]
    omega
  have hhead : ∀ x < 4, x < aclLen := fun x hx => hx.trans (by decide)
  simp only [aclFilterReads, all_bind, all_touch, List.mem_range, all_filterReadsFrom, uint]
  rw [and_iff_right hhead]
  constructor
  · rintro hturns ⟨i, hi, hno, htype, j, hj, hagree, hover⟩
    have hturn := hturns i (Nat.zero_le _) (by omega) fun k _ hk => hno k hk
    have hread := (hturn.compare htype j (Nat.zero_le _) (by omega) fun k _ hk => hagree k hk).2
    omega
  · intro hover i _ hi hno
    have hend := hentry i (by omega)
    refine ⟨by omega, fun htype j _ hj hagree => ?_, fun _ k hk => by omega⟩
    have hmask : offsetofEntry ptr + (sizeofAclEntry * i + 17 + j) < aclLen := by
      by_contra hge
      exact hover ⟨i, by omega, fun k hk => hno k (Nat.zero_le _) hk, htype, j, by omega,
        fun k hk => hagree k (Nat.zero_le _) hk, by omega⟩
    exact ⟨by omega, hmask⟩

/-- An address of at most 16 bytes does not. -/
theorem not_runsOver (hptr : ptr = 4 ∨ ptr = 8) (hlen : acl.length < 2048)
    (hc : c.hwAddrLen.toNat ≤ 16) : ¬RunsOver ptr acl c := by
  have hoff := offsetofEntry_eq hptr
  rintro ⟨i, hi, -, -, j, hj, -, hover⟩
  simp only [hoff, sizeofAclEntry, aclLen] at hover
  omega

end Fits

/-- A table of fewer than 2048 rows fits, and no other does, unless a long hardware address runs
over. -/
theorem table_fits_iff (ptr : ℕ) (hptr : ptr = 4 ∨ ptr = 8) (init connect : ShmInitCalls)
    (qsort : (AclEntry → AclEntry → ℤ) → List AclEntry → List AclEntry) (rows : List AccessRow)
    (acl : AclList) (c : Client) :
    (TableFits ptr init connect rows (aclDoUpdate qsort (some rows) acl) c ↔
      rows.length < 2048 ∧ ¬RunsOver ptr (aclDoUpdate qsort (some rows) acl) c) ∧
    (c.hwAddrLen.toNat ≤ 16 →
      (TableFits ptr init connect rows (aclDoUpdate qsort (some rows) acl) c ↔
        rows.length < 2048)) := by
  have hcount : (loadRows rows).length = min 2048 rows.length := by
    rw [loadRows, List.length_map, List.length_take]
  have hlength : (aclDoUpdate qsort (some rows) acl).length = (loadRows rows).length := rfl
  have hwrites : (∀ x ∈ updateWrites ptr (loadRows rows).length, x < aclLen) ↔ _ :=
    updateWrites_lt_iff hptr (by omega)
  have hfits : TableFits ptr init connect rows (aclDoUpdate qsort (some rows) acl) c ↔
      rows.length < 2048 ∧ ¬RunsOver ptr (aclDoUpdate qsort (some rows) acl) c := by
    constructor
    · rintro ⟨hw, hr⟩
      simp only [len_aclInit, len_aclConnect, and_self] at hw hr
      have hlt := hwrites.mp hw
      exact ⟨by omega, (aclFilterReads_lt_iff hptr (by omega)).mp hr⟩
    · rintro ⟨hlt, hover⟩
      have hw := hwrites.mpr (by omega)
      have hr := (aclFilterReads_lt_iff hptr (by omega)).mpr hover
      refine ⟨?_, ?_⟩
      · simpa only [len_aclInit, len_aclConnect, and_self] using hw
      · simpa only [len_aclInit, len_aclConnect, and_self] using hr
  refine ⟨hfits, fun hc => hfits.trans (and_iff_left_of_imp fun hlt => ?_)⟩
  exact not_runsOver hptr (by omega) hc

theorem table_fits_iff_one : TableFits 8 ⟨some 1, some 2, aclLockDef, none, none, none⟩
    ⟨some 3, some 4, aclLockDef, none, none, none⟩ [fullRow]
    (aclDoUpdate insertion (some [fullRow]) ⟨0, fun _ => 0⟩) fullClient :=
  ((table_fits_iff 8 (Or.inr rfl) _ _ insertion [fullRow] _ fullClient).2 (by decide)).mpr
    (by decide)

/-- The last entry of a full table ends behind the mapping. -/
theorem not_table_fits : ¬∀ ptr : ℕ, ptr = 4 ∨ ptr = 8 → ∀ (init connect : ShmInitCalls) qsort,
    IsQsort qsort → ∀ (rows : List AccessRow) (acl : AclList) (c : Client),
      TableFits ptr init connect rows (aclDoUpdate qsort (some rows) acl) c := by
  intro h
  have hfits := h 4 (Or.inl rfl) ⟨some 1, some 2, aclLockDef, none, none, none⟩
    ⟨some 3, some 4, aclLockDef, none, none, none⟩ insertion isQsort_insertion
    (List.replicate 2048 fullRow) ⟨0, fun _ => 0⟩ fullClient
  have hwrites := hfits.writes
  simp only [len_aclInit, len_aclConnect, and_self] at hwrites
  have hcount : (loadRows (List.replicate 2048 fullRow)).length = 2048 := by
    rw [loadRows, List.length_map, List.length_take, List.length_replicate, Nat.min_self]
  rw [hcount, updateWrites_lt_iff (Or.inl rfl) le_rfl] at hwrites
  exact absurd hwrites (by decide)

end DhcpToolset
