import DhcpToolset.Bytes
import DhcpToolset.Slot

/-!
# The records of the hooks

Each hook fills a record of its own layout (`dhcp.h`) on its stack, field by field, and
passes it to `shm_write`. The Monitor reads the first word of the block it copied out as
`HookType` and casts the block to the record of that type. What a hook does not store is
left from the stack, and what a record does not reach is left in the slot.

`hook_args_round_trip` : the handler of the hook sees every field, and the bytes of the packet
or of the hardware address up to their length, as the hook was called with them.
-/

set_option linter.unusedSectionVars false

open Bytes

namespace DhcpToolset

/-- `DHCP_MTU_MAX`. -/
abbrev dhcpMtuMax : ℕ := 1500

/-! ## `HookType` -/

/-- `CALLOUT_ADDRESS_OFFER`. -/
def calloutAddressOffer : UInt32 := 1

/-- `CALLOUT_ADDRESS_DELETE`. -/
def calloutAddressDelete : UInt32 := 2

/-- `CALLOUT_CLIENT_DELETE`. -/
def calloutClientDelete : UInt32 := 3

/-- The handlers of the Monitor. -/
inductive Handler where
  | handleOffer
  | handleLease
  | handleDelete
  deriving DecidableEq

/-- The `switch` of `handle_thread`. -/
def dispatch (hookType : UInt32) : Option Handler :=
  if hookType = calloutAddressOffer then some .handleOffer
  else if hookType = calloutAddressDelete then some .handleLease
  else if hookType = calloutClientDelete then some .handleDelete
  else none

/-! ## The records -/

/-- `DHCP_ADDR_OFFER_HOOK_ARGS` without its `HookType`, and the arguments of the hook. -/
structure OfferArgs where
  packetSize : UInt32
  controlCode : UInt32
  ipAddress : UInt32
  altAddress : UInt32
  addrType : UInt32
  leaseTime : UInt32
  packet : ℕ → UInt8

/-- `DHCP_ADDR_DELETE_HOOK_ARGS`. -/
structure DeleteArgs where
  packetSize : UInt32
  packet : ℕ → UInt8
  controlCode : UInt32
  ipAddress : UInt32
  altAddress : UInt32

/-- `DHCP_CLIENT_DELETE_HOOK_ARGS`. -/
structure ClientDeleteArgs where
  ipAddress : UInt32
  hwAddress : ℕ → UInt8
  hwAddressLength : UInt32
  clientType : UInt32

/-- The size of `DHCP_ADDR_OFFER_HOOK_ARGS`. -/
def sizeofOfferArgs : ℕ := 28 + dhcpMtuMax

/-- The size of `DHCP_ADDR_DELETE_HOOK_ARGS`, with three words behind the packet. -/
def sizeofDeleteArgs : ℕ := 8 + dhcpMtuMax + 12

/-- The size of `DHCP_CLIENT_DELETE_HOOK_ARGS`. -/
def sizeofClientDeleteArgs : ℕ := 32

/-- What `DhcpAddressOfferHook` stores in `args`, at the offsets of its fields. -/
def OfferArgs.store (a : OfferArgs) (args : ℕ → UInt8) : ℕ → UInt8 :=
  let args := putWord args 0 calloutAddressOffer
  let args := putWord args 4 a.packetSize
  let args := putWord args 8 a.controlCode
  let args := putWord args 12 a.ipAddress
  let args := putWord args 16 a.altAddress
  let args := putWord args 20 a.addrType
  let args := putWord args 24 a.leaseTime
  putBytes args 28 a.packet a.packetSize.toNat

/-- What `DhcpAddressDelHook` stores. -/
def DeleteArgs.store (a : DeleteArgs) (args : ℕ → UInt8) : ℕ → UInt8 :=
  let args := putWord args 0 calloutAddressDelete
  let args := putWord args 1508 a.controlCode
  let args := putWord args 1516 a.altAddress
  let args := putWord args 1512 a.ipAddress
  let args := putWord args 4 a.packetSize
  putBytes args 8 a.packet a.packetSize.toNat

/-- What `DhcpDeleteClientHook` stores. -/
def ClientDeleteArgs.store (a : ClientDeleteArgs) (args : ℕ → UInt8) : ℕ → UInt8 :=
  let args := putWord args 0 calloutClientDelete
  let args := putWord args 4 a.ipAddress
  let args := putBytes args 8 a.hwAddress a.hwAddressLength.toNat
  let args := putWord args 24 a.hwAddressLength
  putWord args 28 a.clientType

/-- The first `size` bytes of a memory, as `shm_write` is given them. -/
def recordOf (m : ℕ → UInt8) (size : ℕ) : List UInt8 :=
  (List.range size).map m

/-- The slot after a hook, `args` being its uninitialised record. -/
def offerSlot (slot : Block) (args : ℕ → UInt8) (a : OfferArgs) : Block :=
  overwrite slot (recordOf (a.store args) sizeofOfferArgs)

/-- The slot after `DhcpAddressDelHook`. -/
def deleteSlot (slot : Block) (args : ℕ → UInt8) (a : DeleteArgs) : Block :=
  overwrite slot (recordOf (a.store args) sizeofDeleteArgs)

/-- The slot after `DhcpDeleteClientHook`. -/
def clientDeleteSlot (slot : Block) (args : ℕ → UInt8) (a : ClientDeleteArgs) : Block :=
  overwrite slot (recordOf (a.store args) sizeofClientDeleteArgs)

/-! ## The casts of the Monitor -/

/-- A block as memory. -/
def Block.mem (b : Block) : ℕ → UInt8 :=
  fun x => if h : x < calloutLen then b ⟨x, h⟩ else 0

/-- `*HookType`. -/
def Block.hookType (b : Block) : UInt32 :=
  wordAt b.mem 0

/-- A memory read as a `DHCP_ADDR_OFFER_HOOK_ARGS`. -/
def OfferArgs.view (m : ℕ → UInt8) : OfferArgs where
  packetSize := wordAt m 4
  controlCode := wordAt m 8
  ipAddress := wordAt m 12
  altAddress := wordAt m 16
  addrType := wordAt m 20
  leaseTime := wordAt m 24
  packet x := m (28 + x)

/-- A memory read as a `DHCP_ADDR_DELETE_HOOK_ARGS`. -/
def DeleteArgs.view (m : ℕ → UInt8) : DeleteArgs where
  packetSize := wordAt m 4
  packet x := m (8 + x)
  controlCode := wordAt m 1508
  ipAddress := wordAt m 1512
  altAddress := wordAt m 1516

/-- A memory read as a `DHCP_CLIENT_DELETE_HOOK_ARGS`. -/
def ClientDeleteArgs.view (m : ℕ → UInt8) : ClientDeleteArgs where
  ipAddress := wordAt m 4
  hwAddress x := m (8 + x)
  hwAddressLength := wordAt m 24
  clientType := wordAt m 28

/-! ## The round trip -/

section Slot

variable {slot : Block} {m : ℕ → UInt8} {size off x : ℕ}

/-- A record that fits hides what was in the slot. -/
theorem mem_overwrite (hsize : size ≤ calloutLen) (hx : x < size) :
    (overwrite slot (recordOf m size)).mem x = m x := by
  have hlen : (recordOf m size).length = size := by simp [recordOf]
  have hbyte := holdsRecord_overwrite slot (recordOf m size) ⟨x, by omega⟩
    (by simpa [hlen] using hx)
  rw [Block.mem, dif_pos (by omega), hbyte]
  simp [recordOf]

theorem wordAt_overwrite (hsize : size ≤ calloutLen) (h : off + 4 ≤ size) :
    wordAt (overwrite slot (recordOf m size)).mem off = wordAt m off :=
  wordAt_congr fun _ _ => mem_overwrite hsize (by omega)

end Slot

/-- The Monitor sees the arguments. -/
structure OfferArgs.Seen (a v : OfferArgs) : Prop where
  packetSize : v.packetSize = a.packetSize
  controlCode : v.controlCode = a.controlCode
  ipAddress : v.ipAddress = a.ipAddress
  altAddress : v.altAddress = a.altAddress
  addrType : v.addrType = a.addrType
  leaseTime : v.leaseTime = a.leaseTime
  packet : ∀ x < a.packetSize.toNat, v.packet x = a.packet x

/-- The Monitor sees the arguments of a deletion. -/
structure DeleteArgs.Seen (a v : DeleteArgs) : Prop where
  packetSize : v.packetSize = a.packetSize
  controlCode : v.controlCode = a.controlCode
  ipAddress : v.ipAddress = a.ipAddress
  altAddress : v.altAddress = a.altAddress
  packet : ∀ x < a.packetSize.toNat, v.packet x = a.packet x

/-- The Monitor sees the arguments of an expired client. -/
structure ClientDeleteArgs.Seen (a v : ClientDeleteArgs) : Prop where
  ipAddress : v.ipAddress = a.ipAddress
  hwAddressLength : v.hwAddressLength = a.hwAddressLength
  clientType : v.clientType = a.clientType
  hwAddress : ∀ x < a.hwAddressLength.toNat, v.hwAddress x = a.hwAddress x

theorem OfferArgs.seen (slot : Block) (args : ℕ → UInt8) (a : OfferArgs)
    (ha : a.packetSize.toNat ≤ dhcpMtuMax) :
    (offerSlot slot args a).hookType = calloutAddressOffer ∧
      a.Seen (.view (offerSlot slot args a).mem) := by
  have hword : ∀ off, off + 4 ≤ sizeofOfferArgs →
      wordAt (offerSlot slot args a).mem off = wordAt (a.store args) off :=
    fun off hoff => wordAt_overwrite (by decide) hoff
  have hpacket : ∀ x < a.packetSize.toNat, (offerSlot slot args a).mem (28 + x) = a.packet x := by
    intro x hx
    rw [offerSlot, mem_overwrite (by decide) (by simp only [sizeofOfferArgs]; omega)]
    exact putBytes_add hx
  refine ⟨?_, ?_, ?_, ?_, ?_, ?_, ?_, hpacket⟩
  all_goals
    refine (hword _ (by decide)).trans ?_
    simp (disch := omega) only [store, wordAt_putBytes_of_disjoint, wordAt_putWord_of_disjoint,
      wordAt_putWord]

/-- The packet of this record lies before its last words, which a packet of at most
`DHCP_MTU_MAX` bytes does not reach. -/
theorem DeleteArgs.seen (slot : Block) (args : ℕ → UInt8) (a : DeleteArgs)
    (ha : a.packetSize.toNat ≤ dhcpMtuMax) :
    (deleteSlot slot args a).hookType = calloutAddressDelete ∧
      a.Seen (.view (deleteSlot slot args a).mem) := by
  have hword : ∀ off, off + 4 ≤ sizeofDeleteArgs →
      wordAt (deleteSlot slot args a).mem off = wordAt (a.store args) off :=
    fun off hoff => wordAt_overwrite (by decide) hoff
  have hpacket : ∀ x < a.packetSize.toNat, (deleteSlot slot args a).mem (8 + x) = a.packet x := by
    intro x hx
    rw [deleteSlot, mem_overwrite (by decide) (by simp only [sizeofDeleteArgs]; omega)]
    exact putBytes_add hx
  have hsize : a.packetSize.toNat ≤ 1500 := ha
  refine ⟨?_, ?_, ?_, ?_, ?_, hpacket⟩
  all_goals
    refine (hword _ (by decide)).trans ?_
    simp (disch := omega) only [store, wordAt_putBytes_of_disjoint, wordAt_putWord_of_disjoint,
      wordAt_putWord]

theorem ClientDeleteArgs.seen (slot : Block) (args : ℕ → UInt8) (a : ClientDeleteArgs)
    (ha : a.hwAddressLength.toNat ≤ 16) :
    (clientDeleteSlot slot args a).hookType = calloutClientDelete ∧
      a.Seen (.view (clientDeleteSlot slot args a).mem) := by
  have hword : ∀ off, off + 4 ≤ sizeofClientDeleteArgs →
      wordAt (clientDeleteSlot slot args a).mem off = wordAt (a.store args) off :=
    fun off hoff => wordAt_overwrite (by decide) hoff
  have haddr : ∀ x < a.hwAddressLength.toNat,
      (clientDeleteSlot slot args a).mem (8 + x) = a.hwAddress x := by
    intro x hx
    rw [clientDeleteSlot, mem_overwrite (by decide) (by simp only [sizeofClientDeleteArgs]; omega),
      store, putWord_of_disjoint (by omega), putWord_of_disjoint (by omega)]
    exact putBytes_add hx
  refine ⟨?_, ?_, ?_, ?_, haddr⟩
  all_goals
    refine (hword _ (by decide)).trans ?_
    simp (disch := omega) only [store, wordAt_putBytes_of_disjoint, wordAt_putWord_of_disjoint,
      wordAt_putWord]

/-- After the hook has written its record into the slot, whatever stood there and on its stack, the
Monitor calls the handler of the hook, and that handler sees the arguments of the hook. -/
theorem hook_args_round_trip (slot : Block) (args : ℕ → UInt8) :
    (∀ a : OfferArgs, a.packetSize.toNat ≤ dhcpMtuMax →
      dispatch (offerSlot slot args a).hookType = some .handleOffer ∧
        a.Seen (.view (offerSlot slot args a).mem)) ∧
    (∀ a : DeleteArgs, a.packetSize.toNat ≤ dhcpMtuMax →
      dispatch (deleteSlot slot args a).hookType = some .handleLease ∧
        a.Seen (.view (deleteSlot slot args a).mem)) ∧
    ∀ a : ClientDeleteArgs, a.hwAddressLength.toNat ≤ 16 →
      dispatch (clientDeleteSlot slot args a).hookType = some .handleDelete ∧
        a.Seen (.view (clientDeleteSlot slot args a).mem) := by
  refine ⟨fun a ha => ?_, fun a ha => ?_, fun a ha => ?_⟩
  · obtain ⟨htype, hseen⟩ := OfferArgs.seen slot args a ha
    exact ⟨by rw [htype]; rfl, hseen⟩
  · obtain ⟨htype, hseen⟩ := DeleteArgs.seen slot args a ha
    exact ⟨by rw [htype]; rfl, hseen⟩
  · obtain ⟨htype, hseen⟩ := ClientDeleteArgs.seen slot args a ha
    exact ⟨by rw [htype]; rfl, hseen⟩

/-- An offer of 192.0.2.2 for an hour, with a packet of the least length. -/
def sampleOffer : OfferArgs :=
  ⟨300, 0, 0xC0000201, 0xC0000202, 0, 3600, fun x => UInt8.ofNat x⟩

theorem hook_args_round_trip_offer : sampleOffer.packetSize.toNat ≤ dhcpMtuMax ∧
    dispatch (offerSlot (fun _ => 0) (fun _ => 0) sampleOffer).hookType = some .handleOffer ∧
      sampleOffer.Seen (.view (offerSlot (fun _ => 0) (fun _ => 0) sampleOffer).mem) :=
  ⟨by decide, (hook_args_round_trip (fun _ => 0) (fun _ => 0)).1 sampleOffer (by decide)⟩

end DhcpToolset
