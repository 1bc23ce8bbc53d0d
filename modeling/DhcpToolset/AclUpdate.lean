import DhcpToolset.Acl
import DhcpToolset.CText

/-!
# Loading the access list

`acl_do_update` reads the rows of `access_list`, parses each into an entry, sorts the
entries and copies them into the shared list. Addresses and masks are texts of hexadecimal
bytes; what follows a number is taken for the separator, whatever it is, and the bytes that
the text does not reach stay zero.

The query asks for the greatest masks first, but `acl_sort_entry` sorts the masks
ascending, so the least mask of the entries that match a client decides.
`most_specific_iff` says for which rows this is the access of a most specific entry.
-/

set_option linter.unusedSectionVars false

open Bytes CText Qsort

namespace DhcpToolset

/-- A row of the query. -/
structure AccessRow where
  hwtype : List UInt8
  hwaddr : List UInt8
  hwmask : List UInt8
  access : List UInt8
  deriving DecidableEq

/-- The loop of `acl_parse_hwaddr`, with `n` bytes of the buffer left. -/
def aclParseFrom (str : List UInt8) : (n idx endptr : ℕ) → (ℕ → UInt8) → ℕ → UInt8
  | 0, _, _, buf => buf
  | n + 1, idx, endptr, buf =>
    let (v, endptr) := strtoul str endptr 16
    let buf := Function.update buf idx v.toUInt8
    if charAt str endptr = 0 then buf else aclParseFrom str n (idx + 1) (endptr + 1) buf

/-- `acl_parse_hwaddr`. -/
def aclParseHwaddr (buf : ℕ → UInt8) (bufsize : ℕ) (str : List UInt8) : ℕ → UInt8 :=
  aclParseFrom str bufsize 0 0 buf

/-- The entry of a row, in a zeroed buffer. -/
def parseRow (row : AccessRow) : AclEntry where
  hwType := UInt8.ofInt (atoi row.hwtype)
  hwAddr i := aclParseHwaddr (fun _ => 0) 16 row.hwaddr i
  hwMask i := aclParseHwaddr (fun _ => 0) 16 row.hwmask i
  access := Int32.ofInt (atoi row.access)

/-- The loop of `acl_do_update` over the rows fetched. -/
def loadRows (rows : List AccessRow) : List AclEntry :=
  (rows.take 2048).map parseRow

section Update

variable (qsort : (AclEntry → AclEntry → ℤ) → List AclEntry → List AclEntry)

/-- `acl_sort_entry`. -/
def aclSortEntry (es : List AclEntry) : List AclEntry :=
  qsort aclCompartor es

/-- `acl_do_update`, `res` being what `mysql_store_result` returned. -/
def aclDoUpdate (res : Option (List AccessRow)) (acl : AclList) : AclList :=
  match res with
  | none => acl
  | some rows =>
    let buff := loadRows rows
    ⟨buff.length, copyEntries acl.entry (aclSortEntry qsort buff)⟩

end Update

variable {qsort : (AclEntry → AclEntry → ℤ) → List AclEntry → List AclEntry}

theorem loadRows_eq_map {rows : List AccessRow} (h : rows.length ≤ 2048) :
    loadRows rows = rows.map parseRow := by
  rw [loadRows, List.take_of_length_le h]

theorem perm_aclSortEntry (hq : IsQsort qsort) (es : List AclEntry) :
    (aclSortEntry qsort es).Perm es :=
  hq.perm _ orders_aclCompartor.isComparator es

/-- The decision on a loaded table. -/
theorem aclFilter_aclDoUpdate (hq : IsQsort qsort) (rows : List AccessRow) (acl : AclList)
    {c : Client} (hlen : c.hwAddrLen.toNat ≤ 16) :
    aclFilter c (aclDoUpdate qsort (some rows) acl) =
      firstMatch (aclSortEntry qsort (loadRows rows)) c := by
  rw [← aclFilter_copyEntries acl.entry _ hlen, (perm_aclSortEntry hq _).length_eq]
  rfl

/-- The list holds the entries of `es`, byte by byte. -/
structure AclList.Holds (acl : AclList) (es : List AclEntry) : Prop where
  length_eq : acl.length = es.length
  byte_eq : ∀ i e, es[i]? = some e → ∀ k < sizeofAclEntry,
    acl.entry (sizeofAclEntry * i + k) = e.byte k

/-- The list is the sorted form of some entries. -/
def AclList.HoldsSorted (acl : AclList) (fs : List AclEntry) : Prop :=
  ∃ es, acl.Holds es ∧ es.Perm fs ∧ es.Pairwise fun a b => aclCompartor a b ≤ 0

/-- The list is the parsed and sorted form of the rows. -/
def AclList.Publishes (acl : AclList) (rows : List AccessRow) : Prop :=
  acl.HoldsSorted (rows.map parseRow)

/-- An update leaves the sorted form of the entries that it has loaded. -/
theorem holdsSorted_aclDoUpdate (hq : IsQsort qsort) (rows : List AccessRow) (acl : AclList) :
    (aclDoUpdate qsort (some rows) acl).HoldsSorted (loadRows rows) := by
  have hperm := perm_aclSortEntry hq (loadRows rows)
  refine ⟨aclSortEntry qsort (loadRows rows), ⟨hperm.length_eq.symm, ?_⟩, hperm, ?_⟩
  · intro i e he k hk
    exact copyEntries_apply he hk
  · exact hq.pairwise _ orders_aclCompartor.isComparator _

theorem publishes_aclDoUpdate (hq : IsQsort qsort) {rows : List AccessRow}
    (hrows : rows.length ≤ 2048) (acl : AclList) :
    (aclDoUpdate qsort (some rows) acl).Publishes rows := by
  have hsorted := holdsSorted_aclDoUpdate hq rows acl
  rwa [loadRows_eq_map hrows] at hsorted

theorem AclList.Publishes.perm {acl : AclList} {rows rows' : List AccessRow}
    (h : acl.Publishes rows) (hp : rows.Perm rows') : acl.Publishes rows' := by
  obtain ⟨es, hes, hperm, hsorted⟩ := h
  exact ⟨es, hes, hperm.trans (hp.map parseRow), hsorted⟩

/-! ## The most specific rule -/

/-- A matching entry whose mask is the greatest of those that match. -/
structure IsMostSpecific (es : List AclEntry) (c : Client) (e : AclEntry) : Prop where
  mem : e ∈ es
  holds : e.Matches c = true
  le : ∀ e' ∈ es, e'.Matches c = true → byteString e'.hwMask ≤ byteString e.hwMask

/-- `ret` is the access of a most specific entry, or permits a client that none matches. -/
structure DecidesMostSpecific (es : List AclEntry) (c : Client) (ret : Int32) : Prop where
  of_match : (∃ e ∈ es, e.Matches c = true) → ∃ e, IsMostSpecific es c e ∧ ret = e.access
  of_none : (∀ e ∈ es, ¬e.Matches c = true) → ret = accessPermit

/-- Every entry of least mask and then least address among those that match has the access
of a most specific one. -/
def LeastAgrees (es : List AclEntry) (c : Client) : Prop :=
  ∀ e, IsLeastMatch AclEntry.key (·.Matches c) es e →
    ∃ g, IsMostSpecific es c g ∧ g.access = e.access

theorem IsMostSpecific.perm {es fs : List AclEntry} {c : Client} {e : AclEntry}
    (h : IsMostSpecific es c e) (hp : fs.Perm es) : IsMostSpecific fs c e :=
  ⟨hp.mem_iff.mpr h.mem, h.holds, fun e' he' => h.le e' (hp.mem_iff.mp he')⟩

theorem LeastAgrees.perm {es fs : List AclEntry} {c : Client} (h : LeastAgrees es c)
    (hp : fs.Perm es) : LeastAgrees fs c := by
  intro e he
  obtain ⟨g, hg, ha⟩ := h e (he.perm hp.symm)
  exact ⟨g, hg.perm hp, ha⟩

/-- The first match in a sorted table has a least key. -/
theorem decidesMostSpecific_firstMatch {es : List AclEntry} {c : Client}
    (hsorted : es.Pairwise fun a b => a.key ≤ b.key) (h : LeastAgrees es c) :
    DecidesMostSpecific es c (firstMatch es c) := by
  cases hf : es.find? (·.Matches c) with
  | none =>
    have hnone := List.find?_eq_none.mp hf
    refine ⟨fun ⟨e, he, hm⟩ => absurd hm (hnone e he), fun _ => ?_⟩
    rw [firstMatch, hf]
    rfl
  | some e =>
    have hleast := find?_least hsorted hf
    refine ⟨fun _ => ?_, fun hall => absurd hleast.holds (hall e hleast.mem)⟩
    obtain ⟨g, hg, ha⟩ := h e hleast
    refine ⟨g, hg, ?_⟩
    rw [firstMatch, hf, ha]
    rfl

/-- `acl_filter` on the loaded table decides by a most specific rule, whichever sorted order
`qsort` returns, exactly for the rows and clients of `LeastAgrees`. -/
theorem most_specific_iff (rows : List AccessRow) (hrows : rows.length ≤ 2048) (acl : AclList)
    (c : Client) (hlen : c.hwAddrLen.toNat ≤ 16) :
    (∀ qsort, IsQsort qsort → DecidesMostSpecific (aclSortEntry qsort (loadRows rows)) c
      (aclFilter c (aclDoUpdate qsort (some rows) acl))) ↔ LeastAgrees (rows.map parseRow) c := by
  rw [← loadRows_eq_map hrows]
  constructor
  · intro h e he
    obtain ⟨t, hperm, hsorted, hfind⟩ := exists_sorted_find? he
    obtain ⟨qsort, hq, rfl⟩ := exists_isQsort hperm
      (hsorted.imp fun hab => (orders_aclCompartor.le_iff _ _).mpr hab)
    have hd := h qsort hq
    rw [aclFilter_aclDoUpdate hq rows acl hlen, firstMatch, aclSortEntry, hfind] at hd
    obtain ⟨g, hg, ha⟩ := hd.of_match ⟨e, (he.perm hperm).mem, he.holds⟩
    exact ⟨g, hg.perm hperm.symm, ha.symm⟩
  · intro h qsort hq
    rw [aclFilter_aclDoUpdate hq rows acl hlen]
    exact decidesMostSpecific_firstMatch (hq.pairwise_key orders_aclCompartor _)
      (h.perm (perm_aclSortEntry hq _))

/-- A rule for one client. -/
def fullRow : AccessRow :=
  ⟨ofString "1", ofString "02:11:22:33:44:55", ofString "ff:ff:ff:ff:ff:ff", ofString "1"⟩

/-- A rule against all others. -/
def wildcardRow : AccessRow :=
  ⟨ofString "1", ofString "00:00:00:00:00:00", ofString "00:00:00:00:00:00", ofString "0"⟩

/-- The client of `fullRow`. -/
def fullClient : Client :=
  ⟨1, aclParseHwaddr (fun _ => 0) 16 (ofString "02:11:22:33:44:55"), 6⟩

theorem hwMask_wildcardRow_lt :
    byteString (parseRow wildcardRow).hwMask < byteString (parseRow fullRow).hwMask :=
  byteString_lt_of (i := 0) (fun j hj => absurd hj (Fin.not_lt_zero j)) (by decide)

/-- A rule for the others that serves them too. -/
def openRow : AccessRow :=
  { wildcardRow with access := ofString "1" }

/-- The client matches both rows, of which the one with the lesser mask decides. -/
theorem most_specific_iff_two :
    DecidesMostSpecific (aclSortEntry insertion (loadRows [fullRow, openRow])) fullClient
      (aclFilter fullClient (aclDoUpdate insertion (some [fullRow, openRow]) ⟨0, fun _ => 0⟩)) := by
  refine (most_specific_iff [fullRow, openRow] (by decide) ⟨0, fun _ => 0⟩ fullClient
    (by decide)).mpr (fun e he => ?_) insertion isQsort_insertion
  refine ⟨parseRow fullRow, ⟨List.mem_cons_self, by decide, fun e' he' _ => ?_⟩, ?_⟩
  · rcases List.mem_pair.mp he' with rfl | rfl
    · exact le_rfl
    · exact hwMask_wildcardRow_lt.le
  · rcases List.mem_pair.mp he.mem with rfl | rfl <;> decide

/-- The rows as the query orders them : masks descending, then addresses. -/
def QueryOrder (rows : List AccessRow) : Prop :=
  rows.Pairwise fun a b => b.hwmask < a.hwmask ∨ a.hwmask = b.hwmask ∧ a.hwaddr ≤ b.hwaddr

instance (rows : List AccessRow) : Decidable (QueryOrder rows) :=
  inferInstanceAs (Decidable (rows.Pairwise _))

/-- The wildcard rule overrides the rule for the client. -/
theorem not_most_specific : ¬∀ qsort, IsQsort qsort → ∀ rows : List AccessRow, rows.length ≤ 2048 →
    QueryOrder rows → ∀ (acl : AclList) (c : Client), c.hwAddrLen.toNat ≤ 16 →
      DecidesMostSpecific (aclSortEntry qsort (loadRows rows)) c
        (aclFilter c (aclDoUpdate qsort (some rows) acl)) := by
  intro h
  have hq : IsQsort (insertion : (AclEntry → AclEntry → ℤ) → List AclEntry → List AclEntry) :=
    isQsort_insertion
  have hmem : ∀ e, e ∈ aclSortEntry insertion (loadRows [fullRow, wildcardRow]) ↔
      e = parseRow fullRow ∨ e = parseRow wildcardRow := fun e => by
    rw [(perm_aclSortEntry hq _).mem_iff]
    exact List.mem_pair
  have hd := h insertion hq [fullRow, wildcardRow] (by decide) (by decide) ⟨0, fun _ => 0⟩
    fullClient (by decide)
  rw [aclFilter_aclDoUpdate hq _ _ (by decide)] at hd
  obtain ⟨e, he, hret⟩ := hd.of_match ⟨parseRow fullRow, (hmem _).mpr (Or.inl rfl), by decide⟩
  rw [show firstMatch (aclSortEntry insertion (loadRows [fullRow, wildcardRow])) fullClient = 0 by
    decide] at hret
  rcases (hmem e).mp he.mem with rfl | rfl
  · exact absurd hret (by decide)
  · exact absurd hwMask_wildcardRow_lt
      (not_lt_of_ge (he.le _ ((hmem _).mpr (Or.inl rfl)) (by decide)))

end DhcpToolset
