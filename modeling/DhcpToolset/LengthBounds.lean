import DhcpToolset.AclBounds
import DhcpToolset.HwAddrText

/-!
# The lengths that come from outside

`PacketSize` and `HwAddressLength` are arguments of the hooks, and `hlen` is a byte of the packet.
The hooks copy that many bytes into arrays of fixed size, and the handlers of the Monitor and
`acl_filter` format that many bytes into buffers of fixed size. No length is checked.

`lengths_inside_iff` gives for each of the four ways the lengths for which all stores stay inside.
`TCHAR`, the element of the buffers that `dhcp_hw_addr` fills, has two bytes in the builds of the
projects.
-/

set_option linter.unusedSectionVars false

open Bytes

namespace DhcpToolset

/-- `buf` of `acl_filter`. -/
def sizeofFilterBuf : ℕ := 33

/-- `DHCP_CLIENT_DELETE_HOOK_ARGS` has 16 bytes for the address. -/
def sizeofHwAddress : ℕ := 16

/-- The indices that a `memcpy` writes. -/
def memcpyIndices (n : UInt32) : List ℕ :=
  List.range n.toNat

/-! ## The stores on the way of a length -/

/-- An offer : the copy of `DhcpAddressOfferHook`, and the two texts of `handle_offer`. -/
structure OfferInside (tchar : ℕ) (slot : Block) (args : ℕ → UInt8) (a : OfferArgs) : Prop where
  copy : ∀ k ∈ memcpyIndices a.packetSize, k < dhcpMtuMax
  print : StoresInside sizeofHwaddrBuf tchar
    (hwAddrStores (chaddrOf (OfferArgs.view (offerSlot slot args a).mem).packet)
      (hlenOf (OfferArgs.view (offerSlot slot args a).mem).packet))
  query : StoresInside sizeofHwaddrBuf 1
    (hwAddrStores (chaddrOf (OfferArgs.view (offerSlot slot args a).mem).packet)
      (hlenOf (OfferArgs.view (offerSlot slot args a).mem).packet))

/-- An address that is deleted : the copy of `DhcpAddressDelHook`, and the text of `handle_lease`,
which it makes for the control code `DHCP_PROB_RELEASE` only. -/
structure DeleteInside (release : UInt32) (slot : Block) (args : ℕ → UInt8) (a : DeleteArgs) :
    Prop where
  copy : ∀ k ∈ memcpyIndices a.packetSize, k < dhcpMtuMax
  query : (DeleteArgs.view (deleteSlot slot args a).mem).controlCode = release →
    StoresInside sizeofHwaddrBuf 1
      (hwAddrStores (chaddrOf (DeleteArgs.view (deleteSlot slot args a).mem).packet)
        (hlenOf (DeleteArgs.view (deleteSlot slot args a).mem).packet))

/-- A client that is deleted : the copy of `DhcpDeleteClientHook`, and the text of `handle_delete`.
The length is passed as an `int`. -/
structure ClientDeleteInside (slot : Block) (args : ℕ → UInt8) (a : ClientDeleteArgs) : Prop where
  copy : ∀ k ∈ memcpyIndices a.hwAddressLength, k < sizeofHwAddress
  query : StoresInside sizeofHwaddrBuf 1
    (hwAddrStores (ClientDeleteArgs.view (clientDeleteSlot slot args a).mem).hwAddress
      (ClientDeleteArgs.view (clientDeleteSlot slot args a).mem).hwAddressLength.toInt32.toInt)

/-- A new packet : the text that `acl_filter` makes for its debug output. -/
def NewPktInside (tchar : ℕ) (packet : ℕ → UInt8) : Prop :=
  StoresInside sizeofFilterBuf tchar
    (hwAddrStores (newPktClient packet).hwAddr (newPktClient packet).hwAddrLen.toNat)

/-! ## The length that the Monitor sees -/

/-- The `hlen` of the record, which is not that of the packet if the packet is shorter. -/
def OfferArgs.hlenSent (a : OfferArgs) (args : ℕ → UInt8) : ℕ :=
  (if 2 < a.packetSize.toNat then a.packet 2 else args 30).toNat

/-- The `hlen` of the record of a deletion. -/
def DeleteArgs.hlenSent (a : DeleteArgs) (args : ℕ → UInt8) : ℕ :=
  (if 2 < a.packetSize.toNat then a.packet 2 else args 10).toNat

theorem OfferArgs.hlenOf_view (slot : Block) (args : ℕ → UInt8) (a : OfferArgs) :
    hlenOf (view (offerSlot slot args a).mem).packet = a.hlenSent args := by
  have hbyte : (offerSlot slot args a).mem (28 + 2) = a.store args (28 + 2) := by
    rw [offerSlot, mem_overwrite (by decide) (by decide)]
  simp only [hlenOf, view, hbyte, hlenSent, store]
  split_ifs with h
  · rw [putBytes_add h]
  · rw [putBytes_of_disjoint (by omega)]
    simp (disch := omega) only [putWord_of_disjoint]

theorem DeleteArgs.hlenOf_view (slot : Block) (args : ℕ → UInt8) (a : DeleteArgs) :
    hlenOf (view (deleteSlot slot args a).mem).packet = a.hlenSent args := by
  have hbyte : (deleteSlot slot args a).mem (8 + 2) = a.store args (8 + 2) := by
    rw [deleteSlot, mem_overwrite (by decide) (by decide)]
  simp only [hlenOf, view, hbyte, hlenSent, store]
  split_ifs with h
  · rw [putBytes_add h]
  · rw [putBytes_of_disjoint (by omega)]
    simp (disch := omega) only [putWord_of_disjoint]

/-! ## The lengths for which the stores stay inside -/

theorem memcpyIndices_lt_iff {n : UInt32} {size : ℕ} :
    (∀ k ∈ memcpyIndices n, k < size) ↔ n.toNat ≤ size := by
  simp only [memcpyIndices, List.mem_range]
  refine ⟨fun h => ?_, fun h k hk => hk.trans_le h⟩
  by_contra hlt
  exact absurd (h size (by omega)) (lt_irrefl size)

theorem storesInside_natCast_iff {bytes elem len : ℕ} (helem : 1 ≤ elem) {addr : ℕ → UInt8} :
    StoresInside bytes elem (hwAddrStores addr len) ↔ 1 ≤ len ∧ 3 * len * elem ≤ bytes := by
  rw [storesInside_iff helem]
  exact and_congr (by omega) (by exact_mod_cast Iff.rfl)

section Ways

variable (slot : Block) (args : ℕ → UInt8)

theorem offerInside_iff {tchar : ℕ} (htchar : tchar = 1 ∨ tchar = 2) (a : OfferArgs) :
    OfferInside tchar slot args a ↔ a.packetSize.toNat ≤ dhcpMtuMax ∧
      1 ≤ a.hlenSent args ∧ 3 * a.hlenSent args * tchar ≤ sizeofHwaddrBuf := by
  have hpos : 1 ≤ tchar := by omega
  constructor
  · rintro ⟨hcopy, hprint, -⟩
    rw [storesInside_natCast_iff hpos, a.hlenOf_view] at hprint
    exact ⟨memcpyIndices_lt_iff.mp hcopy, hprint⟩
  · rintro ⟨hsize, hlen, hfits⟩
    have hone : 3 * a.hlenSent args * 1 ≤ sizeofHwaddrBuf := by
      rcases htchar with rfl | rfl <;> omega
    refine ⟨memcpyIndices_lt_iff.mpr hsize, ?_, ?_⟩
    · rw [storesInside_natCast_iff hpos, a.hlenOf_view]
      exact ⟨hlen, hfits⟩
    · rw [storesInside_natCast_iff le_rfl, a.hlenOf_view]
      exact ⟨hlen, hone⟩

theorem deleteInside_iff (release : UInt32) (a : DeleteArgs) :
    DeleteInside release slot args a ↔ a.packetSize.toNat ≤ dhcpMtuMax ∧
      (a.controlCode = release → 1 ≤ a.hlenSent args ∧ 3 * a.hlenSent args ≤ sizeofHwaddrBuf) := by
  -- the control code lies behind the packet, so it is seen if the copy stays inside
  have hseen : a.packetSize.toNat ≤ dhcpMtuMax → _ := fun hsize =>
    (DeleteArgs.seen slot args a hsize).2.controlCode
  constructor
  · rintro ⟨hcopy, hquery⟩
    have hsize := memcpyIndices_lt_iff.mp hcopy
    rw [hseen hsize, storesInside_natCast_iff le_rfl, a.hlenOf_view, Nat.mul_one] at hquery
    exact ⟨hsize, hquery⟩
  · rintro ⟨hsize, hfits⟩
    refine ⟨memcpyIndices_lt_iff.mpr hsize, ?_⟩
    rw [hseen hsize, storesInside_natCast_iff le_rfl, a.hlenOf_view, Nat.mul_one]
    exact hfits

theorem clientDeleteInside_iff (a : ClientDeleteArgs) : ClientDeleteInside slot args a ↔
    1 ≤ a.hwAddressLength.toNat ∧ a.hwAddressLength.toNat ≤ sizeofHwAddress := by
  have hsixteen : sizeofHwAddress = 16 := rfl
  have hbuf : sizeofHwaddrBuf = 98 := rfl
  have hlen : a.hwAddressLength.toNat ≤ sizeofHwAddress →
      (ClientDeleteArgs.view (clientDeleteSlot slot args a).mem).hwAddressLength.toInt32.toInt =
        a.hwAddressLength.toNat := fun hsize => by
    rw [(ClientDeleteArgs.seen slot args a hsize).2.hwAddressLength, toInt_toInt32,
      if_pos (by omega)]
  constructor
  · rintro ⟨hcopy, hquery⟩
    have hsize := memcpyIndices_lt_iff.mp hcopy
    rw [hlen hsize, storesInside_natCast_iff le_rfl] at hquery
    exact ⟨hquery.1, hsize⟩
  · rintro ⟨hpos, hsize⟩
    refine ⟨memcpyIndices_lt_iff.mpr hsize, ?_⟩
    rw [hlen hsize, storesInside_natCast_iff le_rfl]
    exact ⟨hpos, by omega⟩

end Ways

/-- All stores stay inside their arrays exactly for these lengths. -/
theorem lengths_inside_iff (tchar : ℕ) (htchar : tchar = 1 ∨ tchar = 2) (release : UInt32)
    (slot : Block) (args : ℕ → UInt8) :
    (∀ a : OfferArgs, OfferInside tchar slot args a ↔ a.packetSize.toNat ≤ dhcpMtuMax ∧
      1 ≤ a.hlenSent args ∧ 3 * a.hlenSent args * tchar ≤ sizeofHwaddrBuf) ∧
    (∀ a : DeleteArgs, DeleteInside release slot args a ↔ a.packetSize.toNat ≤ dhcpMtuMax ∧
      (a.controlCode = release → 1 ≤ a.hlenSent args ∧ 3 * a.hlenSent args ≤ sizeofHwaddrBuf)) ∧
    (∀ a : ClientDeleteArgs, ClientDeleteInside slot args a ↔
      1 ≤ a.hwAddressLength.toNat ∧ a.hwAddressLength.toNat ≤ sizeofHwAddress) ∧
    ∀ packet : ℕ → UInt8, NewPktInside tchar packet ↔
      1 ≤ (packet 2).toNat ∧ 3 * (packet 2).toNat * tchar ≤ sizeofFilterBuf :=
  ⟨offerInside_iff slot args htchar, deleteInside_iff slot args release,
    clientDeleteInside_iff slot args, fun _ => storesInside_natCast_iff (by omega)⟩

/-- An offer to an Ethernet client. -/
theorem lengths_inside_iff_named : OfferInside 2 (fun _ => 0) (fun _ => 0) namedOffer :=
  ((lengths_inside_iff 2 (Or.inr rfl) 0 (fun _ => 0) fun _ => 0).1 namedOffer).mpr (by decide)

/-- The packet of an Ethernet client is too long for the buffer of `acl_filter`. -/
theorem not_lengths_inside : ¬∀ (tchar : ℕ) (release : UInt32) (slot : Block) (args : ℕ → UInt8),
    tchar = 1 ∨ tchar = 2 → (∀ a, OfferInside tchar slot args a) ∧
      (∀ a, DeleteInside release slot args a) ∧ (∀ a, ClientDeleteInside slot args a) ∧
        ∀ packet, NewPktInside tchar packet := by
  intro h
  have hpacket := (h 2 0 (fun _ => 0) (fun _ => 0) (Or.inr rfl)).2.2.2 namedOffer.packet
  rw [NewPktInside, storesInside_natCast_iff (by decide)] at hpacket
  exact absurd hpacket.2 (by decide)

end DhcpToolset
