import DhcpToolset.Acl
import DhcpToolset.HandleOffer
import DhcpToolset.Traced

/-!
# The indices of `acl_filter`

`DhcpNewPktHook` passes the `hlen` of a packet to `acl_filter`, which takes it for the length of
`chaddr` and of the address and the mask of every entry. All three have 16 bytes. The address is
formatted for the debug output first, and the loop then compares up to the first difference.

`filter_stays_inside_iff` : the indices stay below 16, and a match depends on the entry's own
type, address and mask and on the packet's `chaddr` only, exactly for an `hlen` of at most 16; the
answer of the hook then depends on the hardware address only (`dhcpNewPktHook_congr`). The loop
alone leaves an entry if the packet agrees with it on all of its 16 bytes (`entry_index_lt_iff`).
-/

set_option linter.unusedSectionVars false

namespace DhcpToolset

open Traced

/-- An index into one of the arrays : the address or the mask of an entry, or `chaddr`. -/
inductive FilterUse where
  | hwAddr (i j : ℕ)
  | hwMask (i j : ℕ)
  | chaddr (j : ℕ)
  deriving DecidableEq

/-- The index that is used. -/
def FilterUse.index : FilterUse → ℕ
  | hwAddr _ j | hwMask _ j | chaddr j => j

/-- The use of an entry. -/
def FilterUse.OfEntry : FilterUse → Prop
  | hwAddr _ _ | hwMask _ _ => True
  | chaddr _ => False

/-! ## `acl_filter` with its indices -/

section Filter

variable (entry : ℕ → UInt8) (c : Client)

/-- The inner loop of `acl_filter` from `j` on, with `n` bytes left. -/
def compareFrom (i : ℕ) : ℕ → ℕ → Traced FilterUse Bool
  | _, 0 => pure true
  | j, n + 1 => do
    -- the debug output, then the comparison
    touch [.hwAddr i j, .chaddr j]
    touch [.chaddr j, .hwMask i j, .hwAddr i j]
    if byteMatches entry c i j then compareFrom i (j + 1) n else pure false

/-- The outer loop from `i` on, with `n` entries left. -/
def filterFrom : ℕ → ℕ → Traced FilterUse Int32
  | _, 0 => pure accessPermit
  | i, n + 1 =>
    if entry (sizeofAclEntry * i) = c.hwType then do
      let same ← compareFrom entry c i 0 c.hwAddrLen.toNat
      if same then pure (entryAccess entry i) else filterFrom (i + 1) n
    else filterFrom (i + 1) n

/-- The bytes `dhcp_hw_addr` reads for the debug output. -/
def formatUses : List FilterUse :=
  (List.range c.hwAddrLen.toNat).map .chaddr

/-- `acl_filter`. -/
def aclFilterUses (acl : AclList) : Traced FilterUse Int32 := do
  touch (formatUses c)
  filterFrom acl.entry c 0 acl.length

end Filter

section Value

variable {entry : ℕ → UInt8} {c : Client}

theorem val_compareFrom (i : ℕ) : ∀ j n : ℕ, (compareFrom entry c i j n).val =
    (List.range' j n).all fun k => byteMatches entry c i k
  | _, 0 => rfl
  | j, n + 1 => by
    rw [List.range'_succ, List.all_cons, ← val_compareFrom i (j + 1) n]
    simp only [compareFrom, val_bind, val_ite, val_pure]
    cases byteMatches entry c i j <;> rfl

theorem entryMatches_eq (i : ℕ) : entryMatches entry c i =
    (entry (sizeofAclEntry * i) == c.hwType &&
      (compareFrom entry c i 0 c.hwAddrLen.toNat).val) := by
  rw [val_compareFrom, entryMatches, List.range_eq_range']

theorem val_filterFrom : ∀ i n : ℕ, (filterFrom entry c i n).val = aclFilterFrom entry c i n
  | _, 0 => rfl
  | i, n + 1 => by
    rw [aclFilterFrom, entryMatches_eq, ← val_filterFrom (i + 1) n, filterFrom]
    by_cases htype : entry (sizeofAclEntry * i) = c.hwType
    · simp [htype]
    · simp [htype]

/-- The result is that of `acl_filter`. -/
theorem val_aclFilterUses (acl : AclList) : (aclFilterUses c acl).val = aclFilter c acl :=
  val_filterFrom 0 acl.length

end Value

/-! ## The bytes of a packet -/

/-- The client of a packet. -/
def newPktClient (packet : ℕ → UInt8) : Client :=
  ⟨packet 1, chaddrOf packet, packet 2⟩

/-- `DhcpNewPktHook`, with what it stores in `ProcessIt`. -/
def dhcpNewPktHook (acl : AclList) (packet : ℕ → UInt8) : Int32 :=
  aclFilter (newPktClient packet) acl

/-- Two memories hold the same `HwType`, `HwAddr` and `HwMask` in `entries[i]`. -/
def SameRule (i : ℕ) (entry entry' : ℕ → UInt8) : Prop :=
  ∀ k < 33, entry' (sizeofAclEntry * i + k) = entry (sizeofAclEntry * i + k)

/-- Two packets have the same `htype`, `hlen` and `chaddr`. -/
structure SamePacket (packet packet' : ℕ → UInt8) : Prop where
  htype : packet' 1 = packet 1
  hlen : packet' 2 = packet 2
  chaddr : ∀ j < 16, chaddrOf packet' j = chaddrOf packet j

/-- The filter uses the 16 bytes of its arrays only, and an entry matches by its rule and the
packet's hardware address. -/
structure StaysInside (acl : AclList) (packet : ℕ → UInt8) : Prop where
  index_lt : (aclFilterUses (newPktClient packet) acl).All fun u => u.index < 16
  match_eq : ∀ i < acl.length, ∀ entry' packet', SameRule i acl.entry entry' →
    SamePacket packet packet' →
      entryMatches entry' (newPktClient packet') i = entryMatches acl.entry (newPktClient packet) i

section Bounds

variable {entry : ℕ → UInt8} {c : Client}

theorem all_compareFrom {q : FilterUse → Prop} (i : ℕ) : ∀ j n : ℕ,
    (compareFrom entry c i j n).All q ↔ Turns (fun k => byteMatches entry c i k = true)
      (fun k => q (.hwAddr i k) ∧ q (.chaddr k) ∧ q (.hwMask i k)) j n
  | _, 0 => by simp [compareFrom]
  | j, n + 1 => by
    rw [turns_succ, ← all_compareFrom i (j + 1) n]
    simp only [compareFrom, all_bind, all_touch, all_ite, all_pure, if_true_right,
      List.forall_mem_cons, List.not_mem_nil, false_implies, implies_true, and_true]
    constructor
    · rintro ⟨⟨haddr, hchaddr⟩, ⟨-, hmask, -⟩, hrest⟩
      exact ⟨⟨haddr, hchaddr, hmask⟩, hrest⟩
    · rintro ⟨⟨haddr, hchaddr, hmask⟩, hrest⟩
      exact ⟨⟨haddr, hchaddr⟩, ⟨hchaddr, hmask, haddr⟩, hrest⟩

theorem all_filterFrom {q : FilterUse → Prop} : ∀ i n : ℕ,
    (filterFrom entry c i n).All q ↔ Turns (fun k => entryMatches entry c k = false)
      (fun k => entry (sizeofAclEntry * k) = c.hwType →
        (compareFrom entry c k 0 c.hwAddrLen.toNat).All q) i n
  | _, 0 => by simp [filterFrom]
  | i, n + 1 => by
    rw [turns_succ, ← all_filterFrom (i + 1) n, entryMatches_eq, filterFrom]
    by_cases htype : entry (sizeofAclEntry * i) = c.hwType
    · simp [htype]
    · simp [htype]

theorem aclFilterUses_index_lt (acl : AclList) :
    (aclFilterUses c acl).All fun u => u.index < c.hwAddrLen.toNat := by
  simp only [aclFilterUses, all_bind, all_touch]
  refine ⟨fun u hu => ?_, (all_filterFrom 0 acl.length).mpr fun i _ _ _ _ => ?_⟩
  · obtain ⟨j, hj, rfl⟩ := List.mem_map.mp hu
    exact List.mem_range.mp hj
  · refine (all_compareFrom i 0 _).mpr fun j _ hj _ => ?_
    rw [Nat.zero_add] at hj
    exact ⟨hj, hj, hj⟩

end Bounds

/-- A match on at most 16 bytes reads the rule and the hardware address only. -/
theorem entryMatches_congr {i : ℕ} {entry entry' packet packet' : ℕ → UInt8}
    (hlen : (packet 2).toNat ≤ 16) (hrule : SameRule i entry entry')
    (hpacket : SamePacket packet packet') :
    entryMatches entry' (newPktClient packet') i = entryMatches entry (newPktClient packet) i := by
  have htype : entry' (sizeofAclEntry * i) = entry (sizeofAclEntry * i) := hrule 0 (by decide)
  simp only [entryMatches, byteMatches, newPktClient, htype, hpacket.htype, hpacket.hlen]
  congr 1
  rw [Bool.eq_iff_iff, List.all_eq_true, List.all_eq_true]
  refine forall₂_congr fun j hj => ?_
  have hlt := List.mem_range.mp hj
  rw [hpacket.chaddr j (by omega), Nat.add_assoc, Nat.add_assoc, hrule (17 + j) (by omega),
    hrule (1 + j) (by omega)]

/-- The answer of the hook to a packet with an `hlen` of at most 16 depends on its type, length and
address only. -/
theorem dhcpNewPktHook_congr (acl : AclList) {packet packet' : ℕ → UInt8}
    (hlen : (packet 2).toNat ≤ 16) (hpacket : SamePacket packet packet') :
    dhcpNewPktHook acl packet' = dhcpNewPktHook acl packet := by
  have hfrom : ∀ i n : ℕ, aclFilterFrom acl.entry (newPktClient packet') i n =
      aclFilterFrom acl.entry (newPktClient packet) i n := by
    intro i n
    induction n generalizing i with
    | zero => rfl
    | succ n ih =>
      have hrule : SameRule i acl.entry acl.entry := fun _ _ => rfl
      simp only [aclFilterFrom, entryMatches_congr hlen hrule hpacket, ih]
  exact hfrom 0 acl.length

/-- `acl_filter` stays inside the arrays exactly for an `hlen` of at most 16, whatever the table :
the address is formatted up to `hlen` before any entry is looked at. -/
theorem filter_stays_inside_iff (acl : AclList) (packet : ℕ → UInt8) :
    StaysInside acl packet ↔ (packet 2).toNat ≤ 16 := by
  refine ⟨fun h => ?_, fun hlen => ⟨fun u hu => ?_, fun i _ entry' packet' => ?_⟩⟩
  · by_contra hlt
    have hmem : FilterUse.chaddr 16 ∈ formatUses (newPktClient packet) :=
      List.mem_map_of_mem (List.mem_range.mpr (Nat.lt_of_not_le hlt))
    have hall := h.index_lt
    simp only [aclFilterUses, all_bind, all_touch] at hall
    exact absurd (hall.1 _ hmem) (by decide)
  · exact (aclFilterUses_index_lt acl u hu).trans_le hlen
  · exact entryMatches_congr hlen

/-- A packet with an `hlen` of 17, and a rule that all addresses are under : the loop compares the
byte of `sname` behind `chaddr` with the padding behind the mask. -/
theorem not_filter_stays_inside :
    ¬∀ (acl : AclList) (packet : ℕ → UInt8), StaysInside acl packet := by
  intro h
  have hlt := (h ⟨1, fun _ => 0⟩ fun x => if x = 2 then 17 else 0).index_lt
  exact absurd (hlt (.hwMask 0 16) (by decide)) (by decide)

/-! ## The loop alone -/

section Loop

variable {entry : ℕ → UInt8} {c : Client}

/-- Behind 16 bytes the inner loop has left the entry. -/
theorem compareFrom_all_iff (hlen : 16 < c.hwAddrLen.toNat) (i : ℕ) :
    (compareFrom entry c i 0 c.hwAddrLen.toNat).All (fun u => u.OfEntry → u.index < 16) ↔
      ∃ j < 16, byteMatches entry c i j = false := by
  have hturns : Turns (fun j => byteMatches entry c i j = true) (· < 16) 0 _ ↔ _ :=
    turns_lt_iff hlen
  simp only [Bool.not_eq_true] at hturns
  rw [all_compareFrom, ← hturns]
  simp only [FilterUse.OfEntry, FilterUse.index, true_implies, false_implies, true_and, and_self]

theorem entryMatches_eq_false (hlen : 16 < c.hwAddrLen.toNat) {i : ℕ}
    (h : entry (sizeofAclEntry * i) = c.hwType → ∃ j < 16, byteMatches entry c i j = false) :
    entryMatches entry c i = false := by
  rw [Bool.eq_false_iff]
  intro hmatch
  rw [entryMatches_eq, val_compareFrom, Bool.and_eq_true, beq_iff_eq, List.all_eq_true] at hmatch
  obtain ⟨j, hj, hf⟩ := h hmatch.1
  have ht := hmatch.2 j (List.mem_range'_1.mpr ⟨Nat.zero_le _, by omega⟩)
  simp [hf] at ht

/-- The outer loop leaves an entry exactly at one that agrees on all of its 16 bytes. -/
theorem filterFrom_all_iff (hlen : 16 < c.hwAddrLen.toNat) (n : ℕ) :
    (filterFrom entry c 0 n).All (fun u => u.OfEntry → u.index < 16) ↔
      ∀ i < n, entry (sizeofAclEntry * i) = c.hwType →
        ∃ j < 16, byteMatches entry c i j = false := by
  simp only [all_filterFrom, compareFrom_all_iff hlen]
  constructor
  · intro h i
    -- no entry before `i` matches, so the loop comes to it
    induction i using Nat.strong_induction_on with
    | _ i ih =>
      intro hi
      exact h i (Nat.zero_le _) (by omega) fun k _ hk =>
        entryMatches_eq_false hlen (ih k hk (by omega))
  · intro h i _ hi _
    exact h i (by omega)

end Loop

/-- Without the debug output : the loop reads behind the address or the mask of an entry exactly if
`hlen` is above 16 and some entry of the packet's type agrees with the packet on all 16 bytes. -/
theorem entry_index_lt_iff (acl : AclList) (packet : ℕ → UInt8) :
    (aclFilterUses (newPktClient packet) acl).All (fun u => u.OfEntry → u.index < 16) ↔
      (packet 2).toNat ≤ 16 ∨ ∀ i < acl.length,
        acl.entry (sizeofAclEntry * i) = packet 1 →
          ∃ j < 16, byteMatches acl.entry (newPktClient packet) i j = false := by
  rcases Nat.lt_or_ge 16 (packet 2).toNat with hlt | hge
  · have hloop : (filterFrom acl.entry (newPktClient packet) 0 acl.length).All _ ↔ _ :=
      filterFrom_all_iff hlt acl.length
    simp only [aclFilterUses, all_bind, all_touch, hloop, Nat.not_le.mpr hlt, false_or]
    refine and_iff_right fun u hu huse => ?_
    obtain ⟨j, -, rfl⟩ := List.mem_map.mp hu
    exact absurd huse id
  · refine iff_of_true (fun u hu _ => ?_) (Or.inl hge)
    exact (aclFilterUses_index_lt acl u hu).trans_le hge

end DhcpToolset
