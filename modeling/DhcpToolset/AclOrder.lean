import DhcpToolset.AclUpdate

/-!
# What the decision does not depend on

`acl_sort_entry` leaves one table for the rows of `access_list`, in whatever order they
come, as long as no two rows of one type, mask and address disagree on the access
(`row_order_irrelevant`). `acl_filter` returns the access of a matching entry of least key,
so the rows that do not match a client have no part in its decision
(`unmatched_rows_irrelevant`), in particular those of another type and those that differ from it
under their mask (`AclEntry.Differs.not_matches`).
-/

set_option linter.unusedSectionVars false

open Qsort

namespace DhcpToolset

/-- Entries of one type, mask and address have one access. -/
def Consistent (es : List AclEntry) : Prop :=
  ∀ a ∈ es, ∀ b ∈ es, a.hwType = b.hwType → a.hwMask = b.hwMask → a.hwAddr = b.hwAddr →
    a.access = b.access

instance (es : List AclEntry) : Decidable (Consistent es) :=
  inferInstanceAs (Decidable (∀ a ∈ es, ∀ b ∈ es, _ → _))

/-- The client is of another type, or its address differs from that of the entry under the
mask, on some byte of it. -/
def AclEntry.Differs (e : AclEntry) (c : Client) : Prop :=
  e.hwType ≠ c.hwType ∨ ∃ j : Fin 16, j < c.hwAddrLen.toNat ∧
    c.hwAddr j &&& e.hwMask j ≠ e.hwAddr j &&& e.hwMask j

theorem Consistent.access_eq {es : List AclEntry} (h : Consistent es) {a b : AclEntry} (ha : a ∈ es)
    (hb : b ∈ es) (hkey : a.key = b.key) : a.access = b.access := by
  obtain ⟨ht, hm, hd⟩ := AclEntry.key_eq_key.mp hkey
  exact h a ha b hb ht hm hd

theorem Consistent.eq_of_key_eq {es : List AclEntry} (h : Consistent es) {a b : AclEntry}
    (ha : a ∈ es) (hb : b ∈ es) (hkey : a.key = b.key) : a = b := by
  obtain ⟨ht, hm, hd⟩ := AclEntry.key_eq_key.mp hkey
  have hacc := h.access_eq ha hb hkey
  cases a
  cases b
  simp_all

/-- An entry that differs under its mask is not matched, as a matched address is its own
masked form. -/
theorem AclEntry.Differs.not_matches {e : AclEntry} {c : Client} (h : e.Differs c) :
    ¬e.Matches c = true := by
  intro hm
  simp only [Matches, Bool.and_eq_true, beq_iff_eq, decide_eq_true_eq] at hm
  rcases h with ht | ⟨j, hj, hne⟩
  · exact ht hm.1
  · have hj' := hm.2 j hj
    apply hne
    rw [← hj', UInt8.and_assoc, UInt8.and_self]

variable {qsort qsort' : (AclEntry → AclEntry → ℤ) → List AclEntry → List AclEntry}

/-- A consistent table has one sorted order. -/
theorem aclSortEntry_eq_of_perm (hq : IsQsort qsort) (hq' : IsQsort qsort') {es fs : List AclEntry}
    (hperm : es.Perm fs) (hcons : Consistent es) :
    aclSortEntry qsort es = aclSortEntry qsort' fs := by
  have hes := perm_aclSortEntry hq es
  have hfs := (perm_aclSortEntry hq' fs).trans hperm.symm
  refine List.Perm.eq_of_pairwise (fun a b ha hb hab hba => ?_)
    (hq.pairwise_key orders_aclCompartor es) (hq'.pairwise_key orders_aclCompartor fs)
    (hes.trans hfs.symm)
  exact hcons.eq_of_key_eq (hes.mem_iff.mp ha) (hfs.mem_iff.mp hb) (le_antisymm hab hba)

/-- The order of the rows does not matter : `acl_compartor` is a total preorder that is zero on
equal keys only, so the published tables are equal and every decision is the same. -/
theorem row_order_irrelevant (hq : IsQsort qsort) (hq' : IsQsort qsort')
    {rows rows' : List AccessRow} (hperm : rows.Perm rows') (hrows : rows.length ≤ 2048)
    (hcons : Consistent (rows.map parseRow)) :
    (IsComparator aclCompartor ∧ ∀ a b, aclCompartor a b = 0 ↔
      a.hwType = b.hwType ∧ a.hwMask = b.hwMask ∧ a.hwAddr = b.hwAddr) ∧
    (∀ acl, aclDoUpdate qsort (some rows) acl = aclDoUpdate qsort' (some rows') acl) ∧
    ∀ acl acl' (c : Client), c.hwAddrLen.toNat ≤ 16 →
      aclFilter c (aclDoUpdate qsort (some rows) acl) =
        aclFilter c (aclDoUpdate qsort' (some rows') acl') := by
  have hload : (loadRows rows).Perm (loadRows rows') := by
    rw [loadRows_eq_map hrows, loadRows_eq_map (hperm.length_eq ▸ hrows)]
    exact hperm.map parseRow
  have htable := aclSortEntry_eq_of_perm hq hq' hload (by rwa [loadRows_eq_map hrows])
  refine ⟨⟨orders_aclCompartor.isComparator, fun a b => ?_⟩, fun acl => ?_, fun acl acl' c hc => ?_⟩
  · rw [orders_aclCompartor.zero_iff, AclEntry.key_eq_key]
  · simp only [aclDoUpdate, hload.length_eq, htable]
  · rw [aclFilter_aclDoUpdate hq rows acl hc, aclFilter_aclDoUpdate hq' rows' acl' hc, htable]

theorem row_order_irrelevant_two :
    aclDoUpdate insertion (some [fullRow, wildcardRow]) ⟨0, fun _ => 0⟩ =
      aclDoUpdate insertion (some [wildcardRow, fullRow]) ⟨0, fun _ => 0⟩ :=
  (row_order_irrelevant isQsort_insertion isQsort_insertion (List.Perm.swap _ _ _) (by decide)
    (by decide)).2.1 _

/-- Sorted tables with the same matching entries decide alike, if these are consistent. -/
theorem firstMatch_congr {es fs : List AclEntry} {c : Client}
    (hes : es.Pairwise fun a b => a.key ≤ b.key) (hfs : fs.Pairwise fun a b => a.key ≤ b.key)
    (hsame : ∀ e : AclEntry, e.Matches c = true → (e ∈ es ↔ e ∈ fs)) (hcons : Consistent fs) :
    firstMatch es c = firstMatch fs c := by
  have hkey := map_key_find?_eq hes hfs hsame
  unfold firstMatch
  cases he : es.find? (·.Matches c) with
  | none =>
    have hf : fs.find? (·.Matches c) = none := by simpa [he] using hkey.symm
    rw [hf]
  | some a =>
    obtain ⟨b, hb, hab⟩ := Option.map_eq_some_iff.mp ((he ▸ hkey).symm : _ = some a.key)
    have ha := find?_least hes he
    have hmem : a ∈ fs := (hsame a ha.holds).mp ha.mem
    rw [hb, Option.map_some, Option.map_some,
      hcons.access_eq hmem (find?_least hfs hb).mem hab.symm]

/-- Rows that do not match a client do not affect it, wherever they stand among the others. -/
theorem unmatched_rows_irrelevant (hq : IsQsort qsort) (hq' : IsQsort qsort')
    {rows extra all : List AccessRow} (hall : all.Perm (rows ++ extra)) (hlen : all.length ≤ 2048)
    (hcons : Consistent (rows.map parseRow)) {c : Client} (hc : c.hwAddrLen.toNat ≤ 16)
    (hextra : ∀ r ∈ extra, ¬(parseRow r).Matches c = true) (acl acl' : AclList) :
    aclFilter c (aclDoUpdate qsort (some all) acl) =
      aclFilter c (aclDoUpdate qsort' (some rows) acl') := by
  have hrows : rows.length ≤ 2048 := by
    have := hall.length_eq
    rw [List.length_append] at this
    omega
  have hfs := perm_aclSortEntry hq' (rows.map parseRow)
  have hes := perm_aclSortEntry hq (all.map parseRow)
  rw [aclFilter_aclDoUpdate hq all acl hc, aclFilter_aclDoUpdate hq' rows acl' hc,
    loadRows_eq_map hrows, loadRows_eq_map hlen]
  refine firstMatch_congr (hq.pairwise_key orders_aclCompartor _)
    (hq'.pairwise_key orders_aclCompartor _) (fun e he => ?_) ?_
  · rw [hes.mem_iff, hfs.mem_iff, (hall.map parseRow).mem_iff, List.map_append, List.mem_append]
    refine or_iff_left fun hmem => ?_
    obtain ⟨r, hr, rfl⟩ := List.mem_map.mp hmem
    exact hextra r hr he
  · intro a ha b hb
    exact hcons a (hfs.mem_iff.mp ha) b (hfs.mem_iff.mp hb)

/-- A rule for another type. -/
def otherRow : AccessRow :=
  ⟨CText.ofString "6", CText.ofString "0", CText.ofString "0", CText.ofString "0"⟩

/-- A rule for another client of the type. -/
def neighbourRow : AccessRow :=
  { fullRow with hwaddr := CText.ofString "02:11:22:33:44:56", access := CText.ofString "0" }

theorem unmatched_rows_irrelevant_two :
    aclFilter fullClient
        (aclDoUpdate insertion (some [otherRow, fullRow, neighbourRow]) ⟨0, fun _ => 0⟩) =
      aclFilter fullClient (aclDoUpdate insertion (some [fullRow]) ⟨0, fun _ => 0⟩) := by
  have hall : [otherRow, fullRow, neighbourRow].Perm ([fullRow] ++ [otherRow, neighbourRow]) :=
    List.Perm.swap _ _ _
  refine unmatched_rows_irrelevant isQsort_insertion isQsort_insertion hall (by decide) (by decide)
    (by decide) (fun r hr => AclEntry.Differs.not_matches ?_) _ _
  rcases List.mem_pair.mp hr with rfl | rfl
  · exact Or.inl (by decide)
  · exact Or.inr ⟨5, by decide, by decide⟩

end DhcpToolset
