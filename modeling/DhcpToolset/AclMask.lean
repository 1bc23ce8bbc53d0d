import DhcpToolset.AclOrder

/-!
# The mask of a rule

A rule is an address and a mask, and the usual meaning is that the bits of the mask count :
a client is under the rule if its address and that of the rule agree on them. `acl_filter`
masks the address of the client only and compares it with the whole address of the rule, so
a bit of that address outside the mask keeps every client away from the rule.

`mask_decides_iff` : for the only rule of a type the decision is the one the mask gives unless
the rule denies, the client is under it, and its address has such a bit in the bytes compared.
-/

set_option linter.unusedSectionVars false

open Qsort

namespace DhcpToolset

/-- The address of the client and that of the entry agree on the bits of the mask. -/
def AclEntry.Agrees (e : AclEntry) (c : Client) : Prop :=
  ∀ j : Fin 16, j < c.hwAddrLen.toNat → c.hwAddr j &&& e.hwMask j = e.hwAddr j &&& e.hwMask j

instance (e : AclEntry) (c : Client) : Decidable (e.Agrees c) :=
  inferInstanceAs (Decidable (∀ _ : Fin 16, _ → _))

/-- The first `n` bytes of the address have no bit outside the mask. -/
def AclEntry.AddrInMask (e : AclEntry) (n : ℕ) : Prop :=
  ∀ j : Fin 16, j < n → e.hwAddr j &&& e.hwMask j = e.hwAddr j

instance (e : AclEntry) (n : ℕ) : Decidable (e.AddrInMask n) :=
  inferInstanceAs (Decidable (∀ _ : Fin 16, _ → _))

/-- `ret` is the access of the entry for the clients under it, and permits the others. -/
def AclEntry.MaskDecides (e : AclEntry) (c : Client) (ret : Int32) : Prop :=
  ret = if e.Agrees c then e.access else accessPermit

/-- Of the rows that are loaded, `row` alone has its type. -/
def OnlyRow (rows : List AccessRow) (row : AccessRow) : Prop :=
  (rows.take 2048).filter (fun r => (parseRow r).hwType == (parseRow row).hwType) = [row]

instance (rows : List AccessRow) (row : AccessRow) : Decidable (OnlyRow rows row) :=
  inferInstanceAs (Decidable (_ = _))

section OneRule

variable {e : AclEntry} {c : Client}

/-- A match is an agreement in which the address of the entry is its own masked form. -/
theorem AclEntry.matches_iff (e : AclEntry) (c : Client) : e.Matches c = true ↔
    e.hwType = c.hwType ∧ e.Agrees c ∧ e.AddrInMask c.hwAddrLen.toNat := by
  simp only [Matches, Bool.and_eq_true, beq_iff_eq, decide_eq_true_eq]
  refine and_congr_right fun _ => ⟨fun h => ⟨fun j hj => ?_, fun j hj => ?_⟩, fun h j hj => ?_⟩
  · rw [← h j hj, UInt8.and_assoc, UInt8.and_self]
  · rw [← h j hj, UInt8.and_assoc, UInt8.and_self]
  · rw [h.1 j hj, h.2 j hj]

/-- What the mask gives and what the comparison with the whole address gives differ only in a
rule that denies. -/
theorem AclEntry.maskDecides_iff (htype : e.hwType = c.hwType) :
    e.MaskDecides c (if e.Matches c then e.access else accessPermit) ↔
      e.access = accessPermit ∨ e.AddrInMask c.hwAddrLen.toNat ∨ ¬e.Agrees c := by
  have hm := e.matches_iff c
  simp only [htype, true_and] at hm
  unfold MaskDecides
  by_cases hagrees : e.Agrees c <;> by_cases hin : e.AddrInMask c.hwAddrLen.toNat
  · simp [hm, hagrees, hin]
  · simp [hm, hagrees, hin, eq_comm]
  · simp [hm, hagrees]
  · simp [hm, hagrees]

/-- The entries of one type decide alone for the clients of this type. -/
theorem firstMatch_eq_of_filter {es : List AclEntry}
    (h : es.filter (fun a => a.hwType == e.hwType) = [e]) (htype : e.hwType = c.hwType) :
    firstMatch es c = if e.Matches c then e.access else accessPermit := by
  have hfind : es.find? (·.Matches c) = [e].find? (·.Matches c) := by
    rw [← h, List.find?_filter]
    congr 1
    funext a
    by_cases hm : a.Matches c = true
    · simp [hm, ((a.matches_iff c).mp hm).1, htype]
    · simp [hm]
  rw [firstMatch, hfind, List.find?_singleton]
  split_ifs <;> rfl

end OneRule

variable {qsort : (AclEntry → AclEntry → ℤ) → List AclEntry → List AclEntry}

/-- `acl_filter` on a table in which one row alone has the type of the client. -/
theorem aclFilter_of_onlyRow (hq : IsQsort qsort) {rows : List AccessRow} {row : AccessRow}
    (honly : OnlyRow rows row) (acl : AclList) {c : Client}
    (htype : (parseRow row).hwType = c.hwType) (hlen : c.hwAddrLen.toNat ≤ 16) :
    aclFilter c (aclDoUpdate qsort (some rows) acl) =
      if (parseRow row).Matches c then (parseRow row).access else accessPermit := by
  have hload : (loadRows rows).filter (fun a => a.hwType == (parseRow row).hwType) =
      [parseRow row] := by
    rw [loadRows, List.filter_map]
    exact congrArg (List.map parseRow) honly
  have hperm := (perm_aclSortEntry hq (loadRows rows)).filter
    (fun a => a.hwType == (parseRow row).hwType)
  rw [hload] at hperm
  rw [aclFilter_aclDoUpdate hq rows acl hlen]
  exact firstMatch_eq_of_filter (List.perm_singleton.mp hperm) htype

/-- For the only row of a type, the mask decides about a client unless the row denies, the client
is under it, and the address of the row has a bit outside the mask in the bytes compared. It
decides about every client of the type if and only if the row permits or its address is inside its
mask. -/
theorem mask_decides_iff (hq : IsQsort qsort) {rows : List AccessRow} {row : AccessRow}
    (honly : OnlyRow rows row) (acl : AclList) :
    (∀ c : Client, c.hwType = (parseRow row).hwType → c.hwAddrLen.toNat ≤ 16 →
      ((parseRow row).MaskDecides c (aclFilter c (aclDoUpdate qsort (some rows) acl)) ↔
        (parseRow row).access = accessPermit ∨ (parseRow row).AddrInMask c.hwAddrLen.toNat ∨
          ¬(parseRow row).Agrees c)) ∧
    ((∀ c : Client, c.hwType = (parseRow row).hwType → c.hwAddrLen.toNat ≤ 16 →
      (parseRow row).MaskDecides c (aclFilter c (aclDoUpdate qsort (some rows) acl))) ↔
        (parseRow row).access = accessPermit ∨ (parseRow row).AddrInMask 16) := by
  have hclient : ∀ c : Client, c.hwType = (parseRow row).hwType → c.hwAddrLen.toNat ≤ 16 →
      ((parseRow row).MaskDecides c (aclFilter c (aclDoUpdate qsort (some rows) acl)) ↔
        (parseRow row).access = accessPermit ∨ (parseRow row).AddrInMask c.hwAddrLen.toNat ∨
          ¬(parseRow row).Agrees c) := by
    intro c htype hlen
    rw [aclFilter_of_onlyRow hq honly acl htype.symm hlen]
    exact AclEntry.maskDecides_iff htype.symm
  refine ⟨hclient, fun h => ?_, fun h c htype hlen => ?_⟩
  · -- the client with the address of the row is under it
    let c : Client := ⟨(parseRow row).hwType, aclParseHwaddr (fun _ => 0) 16 row.hwaddr, 16⟩
    have hlen : c.hwAddrLen.toNat ≤ 16 := Nat.le_refl 16
    rcases (hclient c rfl hlen).mp (h c rfl hlen) with hacc | hin | hnot
    · exact Or.inl hacc
    · exact Or.inr hin
    · exact absurd (fun _ _ => rfl) hnot
  · refine (hclient c htype hlen).mpr ?_
    rcases h with hacc | hin
    · exact Or.inl hacc
    · exact Or.inr (Or.inl fun j _ => hin j j.isLt)

theorem mask_decides_iff_full : OnlyRow [otherRow, fullRow] fullRow ∧
    (parseRow fullRow).MaskDecides fullClient
      (aclFilter fullClient (aclDoUpdate insertion (some [otherRow, fullRow]) ⟨0, fun _ => 0⟩)) :=
  ⟨by decide, ((mask_decides_iff isQsort_insertion (by decide) ⟨0, fun _ => 0⟩).1 fullClient
    (by decide) (by decide)).mpr (Or.inl (by decide))⟩

/-- A rule against the addresses of a vendor, written with the address of one of its devices. -/
def vendorRow : AccessRow :=
  ⟨CText.ofString "1", CText.ofString "02:11:22:33:44:55", CText.ofString "ff:ff:ff:00:00:00",
    CText.ofString "0"⟩

/-- It does not even deny that device. -/
theorem not_mask_decides : ¬∀ qsort, IsQsort qsort → ∀ (rows : List AccessRow) (row : AccessRow),
    OnlyRow rows row → ∀ (acl : AclList) (c : Client), c.hwType = (parseRow row).hwType →
      c.hwAddrLen.toNat ≤ 16 →
        (parseRow row).MaskDecides c (aclFilter c (aclDoUpdate qsort (some rows) acl)) := by
  intro h
  have hd := h insertion isQsort_insertion [vendorRow] vendorRow (by decide) ⟨0, fun _ => 0⟩
    fullClient (by decide) (by decide)
  have honly : OnlyRow [vendorRow] vendorRow := by decide
  rw [aclFilter_of_onlyRow isQsort_insertion honly _ (by decide) (by decide),
    AclEntry.maskDecides_iff (by decide)] at hd
  exact absurd hd (by decide)

end DhcpToolset
