import DhcpToolset.DhcpOptions
import DhcpToolset.HookArgs
import DhcpToolset.HwAddrText

/-!
# The log of an offer

`handle_offer` of the Monitor looks for the message type and the host name in the options of
the packet and builds the SQL text of a log entry. Both searches run over the whole array of
options, whatever the length of the packet : behind it the record holds what was on the stack
of the DHCP server, and behind the record the slot what an earlier hook left there.

`log_fixed_iff` : the entry is the same whatever these bytes are exactly if the received
bytes decide the two searches, and the texts of the hardware address fit `hwaddr_buf`. Here the
handler goes on behind an access outside an array; `OfferReport` lists the accesses of a call, and
says when all of them stay inside.
-/

set_option linter.unusedSectionVars false

open Bytes CText

namespace DhcpToolset

/-! ## `DHCP_PACKET` -/

/-- `DHCP_FIXED_NON_UDP`, the offset of the options. -/
abbrev dhcpFixedNonUdp : ℕ := 236

/-- `DHCP_MAX_OPTION_LEN`. -/
abbrev dhcpMaxOptionLen : ℕ := dhcpMtuMax - (dhcpFixedNonUdp + 28)

/-- `DHO_HOST_NAME`. -/
def dhoHostName : UInt8 := 12

/-- `DHO_DHCP_MESSAGE_TYPE`. -/
def dhoDhcpMessageType : UInt8 := 53

/-- `pkt->hlen`. -/
def hlenOf (packet : ℕ → UInt8) : ℕ :=
  (packet 2).toNat

/-- `pkt->chaddr`. -/
def chaddrOf (packet : ℕ → UInt8) : ℕ → UInt8 :=
  fun i => packet (28 + i)

/-- `pkt->options+4`, behind the cookie. -/
def optionsOf (packet : ℕ → UInt8) : ℕ → UInt8 :=
  fun i => packet (dhcpFixedNonUdp + 4 + i)

/-! ## Texts -/

/-- A digit, in upper case. -/
def upperHex (v : ℕ) : UInt8 :=
  (ofString "0123456789ABCDEF").getD v 0

/-- `%08X`. -/
def upperHex8 (w : UInt32) : List UInt8 :=
  (List.range 8).map fun k => upperHex (w.toNat / 16 ^ (7 - k) % 16)

/-- `%d`. -/
def decimal (w : UInt32) : List UInt8 :=
  ofString (toString w.toInt32.toInt)

/-! ## `handle_offer` -/

/-- `hwaddr_buf` keeps the stores of the two texts of the hardware address, the first of which has
wide characters. -/
def KeepsHwaddrBuf (buf : OfferArgs) : Prop :=
  StoresInside sizeofHwaddrBuf 2 (hwAddrStores (chaddrOf buf.packet) (hlenOf buf.packet)) ∧
    StoresInside sizeofHwaddrBuf 1 (hwAddrStores (chaddrOf buf.packet) (hlenOf buf.packet))

/-- The byte that `handle_offer` takes for the message type, 0 without such an option. -/
def foundMsgType (buf : OfferArgs) : UInt8 :=
  let options := optionsOf buf.packet
  let pmt := dhcpFindOption options (dhcpMaxOptionLen - 4) dhoDhcpMessageType
  (pmt.map fun p => options p.1).getD 0

/-- The host name at a found option, without a last `NUL`. An option of length 0 makes `hnl` wrap,
and `mysql_hex_string` runs over its buffer. -/
def hostName (data : ℕ → UInt8) (ohn : ℕ × UInt8) : Option (List UInt8) :=
  let hnl := ohn.2.toNat
  if hnl = 0 then none
  else
    let hnl := if data (ohn.1 + (hnl - 1)) = 0 then hnl - 1 else hnl
    some ((List.range hnl).map fun i => data (ohn.1 + i))

/-- The host name that `handle_offer` finds and passes on. -/
def foundName (buf : OfferArgs) : Option (List UInt8) :=
  let options := optionsOf buf.packet
  (dhcpFindOption options (dhcpMaxOptionLen - 4) dhoHostName).bind (hostName options)

/-- What `handle_offer` finds and builds : the message type, the host name, and the SQL text if both
of its texts are known. -/
structure Logged where
  msgType : UInt8
  name : Option (List UInt8)
  query : Option (List UInt8)

section Handle

variable (mysqlHexString : List UInt8 → List UInt8)

/-- The `sprintf` of `handle_offer`. -/
def offerQuery (hwaddr : List UInt8) (altAddress leaseTime : UInt32) (name : List UInt8) :
    List UInt8 :=
  ofString "INSERT INTO offer_log(hwaddr,ip,lease_time,hostname) VALUES ('" ++ hwaddr ++
    ofString "',0x" ++ upperHex8 altAddress ++ ofString "," ++ decimal leaseTime ++
    ofString ",0x" ++ mysqlHexString name ++ ofString ")"

/-- `handle_offer`. It goes on behind an access outside an array, and comes to no query only where
it reads the host name through `NULL` or passes on a length that has wrapped. The text in
`hwaddr_buf` is not known if it was not stored there as a whole. -/
def handleOffer (buf : OfferArgs) : Logged where
  msgType := foundMsgType buf
  name := foundName buf
  query := do
    let name ← foundName buf
    let hwaddr ← dhcpHwAddrAnsi (chaddrOf buf.packet) (hlenOf buf.packet)
    some (offerQuery mysqlHexString hwaddr buf.altAddress buf.leaseTime name)

/-- The host name with the SQL text. -/
def offerRow (buf : OfferArgs) : Option (List UInt8 × List UInt8) := do
  let name ← (handleOffer mysqlHexString buf).name
  let query ← (handleOffer mysqlHexString buf).query
  some (name, query)

end Handle

/-! ## What the received bytes decide -/

namespace OfferArgs

/-- The bytes of the packet that were received. -/
def received (a : OfferArgs) : ℕ → UInt8 :=
  fun x => if x < a.packetSize.toNat then a.packet x else 0

/-- How many bytes of the options were received. -/
def optionBytes (a : OfferArgs) : ℕ :=
  a.packetSize.toNat - (dhcpFixedNonUdp + 4)

/-- The search for the message type ends, or finds an option, inside the received bytes. The
caller reads one byte of its value. -/
def MsgTypeDecided (a : OfferArgs) : Prop :=
  Decided (optionsOf a.received) (dhcpMaxOptionLen - 4) a.optionBytes dhoDhcpMessageType
    (fun i => i + 3 ≤ a.optionBytes) 0

/-- The search for the host name does. The caller reads the whole value. -/
def HostNameDecided (a : OfferArgs) : Prop :=
  Decided (optionsOf a.received) (dhcpMaxOptionLen - 4) a.optionBytes dhoHostName
    (fun i => i + 2 + (optionsOf a.received (i + 1)).toNat ≤ a.optionBytes) 0

/-- The text of the hardware address fits its buffer. -/
def HwAddrFits (a : OfferArgs) : Prop :=
  1 ≤ hlenOf a.received ∧ hlenOf a.received ≤ 16

/-- Whatever was on the stack of the hook and in the slot, and behind the packet, the Monitor finds
and builds the same. A handler that stores outside `hwaddr_buf` builds nothing that is fixed. -/
def LogFixed (mysqlHexString : List UInt8 → List UInt8) (a : OfferArgs) : Prop :=
  ∀ a', a.Seen a' → ∀ (slot slot' : Block) (args args' : ℕ → UInt8),
    KeepsHwaddrBuf (.view (offerSlot slot args a).mem) ∧
    handleOffer mysqlHexString (.view (offerSlot slot args a).mem) =
      handleOffer mysqlHexString (.view (offerSlot slot' args' a').mem)

theorem Seen.trans {a b c : OfferArgs} (hab : a.Seen b) (hbc : b.Seen c) : a.Seen c where
  packetSize := hbc.packetSize.trans hab.packetSize
  controlCode := hbc.controlCode.trans hab.controlCode
  ipAddress := hbc.ipAddress.trans hab.ipAddress
  altAddress := hbc.altAddress.trans hab.altAddress
  addrType := hbc.addrType.trans hab.addrType
  leaseTime := hbc.leaseTime.trans hab.leaseTime
  packet x hx := (hbc.packet x (hab.packetSize ▸ hx)).trans (hab.packet x hx)

theorem Seen.refl (a : OfferArgs) : a.Seen a :=
  ⟨rfl, rfl, rfl, rfl, rfl, rfl, fun _ _ => rfl⟩

variable {a v : OfferArgs}

theorem Seen.received (h : a.Seen v) {x : ℕ} (hx : x < a.packetSize.toNat) :
    v.packet x = a.received x := by
  rw [h.packet x hx, OfferArgs.received, if_pos hx]

/-- The received options. -/
theorem Seen.options (h : a.Seen v) : ∀ i < a.optionBytes,
    optionsOf v.packet i = optionsOf a.received i := by
  intro i hi
  have hx : dhcpFixedNonUdp + 4 + i < a.packetSize.toNat := by
    unfold optionBytes at hi
    omega
  exact h.received hx

/-- A search that is decided has read the first byte of the options. -/
theorem optionBytes_pos {option : UInt8} {value : ℕ → Prop}
    (h : Decided (optionsOf a.received) (dhcpMaxOptionLen - 4) a.optionBytes option value 0) :
    240 < a.packetSize.toNat := by
  have hpos : 0 < a.optionBytes := by
    cases h with
    | past h => exact absurd h (by decide)
    | found hk _ _ | stop hk _ _ | last hk _ _ => exact hk
    | next hk _ _ _ => exact Nat.lt_of_succ_lt hk
  exact Nat.lt_of_sub_pos hpos

end OfferArgs

/-! ## The two searches -/

/-- What `handle_offer` reads of the message type. -/
def readMsgType (data : ℕ → UInt8) (p : ℕ × UInt8) : UInt8 :=
  data p.1

theorem foundMsgType_eq (v : OfferArgs) : foundMsgType v =
    outcome readMsgType 0 (optionsOf v.packet) (dhcpMaxOptionLen - 4) dhoDhcpMessageType 0 0 :=
  rfl

theorem foundName_eq (v : OfferArgs) : foundName v =
    outcome hostName none (optionsOf v.packet) (dhcpMaxOptionLen - 4) dhoHostName 0 0 := by
  simp only [foundName, outcome, dhcpFindOption]
  cases dhcpFindFrom (optionsOf v.packet) (dhcpMaxOptionLen - 4) dhoHostName 0 0 <;> rfl

/-- The texts of an address of 1 to 16 bytes fit. -/
theorem keepsHwaddrBuf_iff (v : OfferArgs) :
    KeepsHwaddrBuf v ↔ 1 ≤ hlenOf v.packet ∧ hlenOf v.packet ≤ 16 := by
  rw [KeepsHwaddrBuf, storesInside_iff (by decide), storesInside_iff (by decide), sizeofHwaddrBuf]
  push_cast
  omega

theorem offerRow_eq (hex : List UInt8 → List UInt8) (v : OfferArgs) : offerRow hex v =
    (foundName v).bind fun name =>
      (dhcpHwAddrAnsi (chaddrOf v.packet) (hlenOf v.packet)).map fun hwaddr =>
        (name, offerQuery hex hwaddr v.altAddress v.leaseTime name) := by
  unfold offerRow handleOffer
  cases foundName v with
  | none => rfl
  | some name => cases dhcpHwAddrAnsi (chaddrOf v.packet) (hlenOf v.packet) <;> rfl

section Enough

variable {a v : OfferArgs}

theorem outcome_readMsgType (h : a.MsgTypeDecided) (hv : a.Seen v) :
    outcome readMsgType 0 (optionsOf v.packet) (dhcpMaxOptionLen - 4) dhoDhcpMessageType 0 0 =
      outcome readMsgType 0 (optionsOf a.received) (dhcpMaxOptionLen - 4) dhoDhcpMessageType 0 0 :=
  outcome_congr (fun _ hi => Nat.le_of_succ_le hi) (fun i hi => hv.options (i + 2) hi) h hv.options
    (by decide)

theorem hostName_congr {data data' : ℕ → UInt8} {pos : ℕ} {len : UInt8}
    (h : ∀ i < len.toNat, data' (pos + i) = data (pos + i)) :
    hostName data' (pos, len) = hostName data (pos, len) := by
  unfold hostName
  dsimp only
  split_ifs with h0 h1 h2 h2
  · rfl
  · refine congrArg some (List.map_congr_left fun i hi => h i ?_)
    have := List.mem_range.mp hi
    omega
  · exact absurd ((h _ (by omega)).symm.trans h1) h2
  · exact absurd ((h _ (by omega)).trans h2) h1
  · exact congrArg some (List.map_congr_left fun i hi => h i (List.mem_range.mp hi))

theorem foundName_congr (h : a.HostNameDecided) (hv : a.Seen v) :
    foundName v =
      outcome hostName none (optionsOf a.received) (dhcpMaxOptionLen - 4) dhoHostName 0 0 :=
  (foundName_eq v).trans <| outcome_congr (fun i hi => by omega)
    (fun i hi => hostName_congr fun j hj => hv.options (i + 2 + j) (by omega)) h hv.options
    (by decide)

/-- The Monitor sees the length that was received. -/
theorem OfferArgs.Seen.hlen_eq (hv : a.Seen v) (hlong : 240 < a.packetSize.toNat) :
    hlenOf v.packet = hlenOf a.received :=
  congrArg UInt8.toNat (hv.received (by omega))

/-- What the Monitor logs of the packet is decided by the received bytes. -/
theorem handleOffer_congr (hex : List UInt8 → List UInt8) (hmsg : a.MsgTypeDecided)
    (hfits : a.HwAddrFits) (hname : a.HostNameDecided) {v' : OfferArgs} (hv : a.Seen v)
    (hv' : a.Seen v') : handleOffer hex v = handleOffer hex v' := by
  have hlong := OfferArgs.optionBytes_pos hmsg
  have htype : foundMsgType v = foundMsgType v' := by
    rw [foundMsgType_eq, foundMsgType_eq, outcome_readMsgType hmsg hv, outcome_readMsgType hmsg hv']
  have hchaddr : ∀ i < hlenOf a.received, chaddrOf v.packet i = chaddrOf v'.packet i := by
    intro i hi
    have hx : 28 + i < a.packetSize.toNat := by
      have := hfits.2
      omega
    exact (hv.received hx).trans (hv'.received hx).symm
  rw [handleOffer, handleOffer, htype, foundName_congr hname hv, foundName_congr hname hv',
    hv.hlen_eq hlong, hv'.hlen_eq hlong, dhcpHwAddrAnsi, dhcpHwAddr_congr hchaddr, hv.altAddress,
    hv'.altAddress, hv.leaseTime, hv'.leaseTime]

end Enough

/-! ## And no fewer -/

section Needed

variable {data : ℕ → UInt8} {known limit : ℕ}

theorem readsValue_readMsgType : ReadsValue readMsgType dhoDhcpMessageType data known limit
    fun i => i + 3 ≤ known where
  one data' i := by simp [readMsgType, putOption]
  known_of i hk hopt hlimit h := by
    by_contra hlt
    have hself : Extends data known limit data := fun _ _ => rfl
    have heq := h _ _ (hself.update (i := i + 2) (by omega) (by omega) 1)
      (hself.update (i := i + 2) (by omega) (by omega) 2)
    simp [readMsgType] at heq

theorem hostName_of_last_ne {pos : ℕ} {len : UInt8} (hlen : len.toNat ≠ 0)
    (hlast : data (pos + (len.toNat - 1)) ≠ 0) :
    hostName data (pos, len) = some ((List.range len.toNat).map fun i => data (pos + i)) := by
  simp only [hostName, if_neg hlen, if_neg hlast]

/-- The last byte of a host name shows. -/
theorem hostName_update_last {pos : ℕ} {len : UInt8} (hlen : len.toNat ≠ 0) :
    hostName (Function.update data (pos + (len.toNat - 1)) 1) (pos, len) ≠
      hostName (Function.update data (pos + (len.toNat - 1)) 2) (pos, len) := by
  rw [hostName_of_last_ne hlen (by simp), hostName_of_last_ne hlen (by simp)]
  intro heq
  have hget := congrArg (fun l => l[len.toNat - 1]?) (Option.some.inj heq)
  have hlt : len.toNat - 1 < len.toNat := by omega
  simp [hlt] at hget

theorem readsValue_hostName : ReadsValue hostName dhoHostName data known limit
    fun i => i + 2 + (data (i + 1)).toNat ≤ known where
  one data' i := by simp [hostName, putOption]
  known_of i hk hopt hlimit h := by
    by_contra hlt
    have hself : Extends data known limit data := fun _ _ => rfl
    have hbyte := (data (i + 1)).toNat_lt
    by_cases hk1 : i + 1 < known
    · -- the last byte of the value is not known
      have hlen : (data (i + 1)).toNat ≠ 0 := by omega
      have heq := h _ _
        (hself.update (i := i + 2 + ((data (i + 1)).toNat - 1)) (by omega) (by omega) 1)
        (hself.update (i := i + 2 + ((data (i + 1)).toNat - 1)) (by omega) (by omega) 2)
      rw [Function.update_of_ne (by omega), Function.update_of_ne (by omega)] at heq
      exact hostName_update_last hlen heq
    · -- nor is the length
      have hone := hself.update (i := i + 1) (by omega) (by omega) 1
      have heq := h _ _ (hone.update (i := i + 2) (by omega) (by omega) 1)
        (hone.update (i := i + 2) (by omega) (by omega) 2)
      simp [hostName] at heq

end Needed

/-- The bytes behind a record stay as they were in the slot. -/
theorem mem_overwrite_of_le {slot : Block} {m : ℕ → UInt8} {size x : ℕ} (hx : size ≤ x)
    (hlt : x < calloutLen) : (overwrite slot (recordOf m size)).mem x = slot ⟨x, hlt⟩ := by
  have hlen : (recordOf m size).length = size := by simp [recordOf]
  rw [Block.mem, dif_pos hlt, overwrite, memcpyPart, hlen, if_neg (by simp; omega)]

namespace OfferArgs

variable {a : OfferArgs}

/-- The bytes of the buffer from the options on. -/
abbrev optionsLimit : ℕ := calloutLen - (28 + (dhcpFixedNonUdp + 4))

/-- The searches and what is read of their values stay in the buffer. -/
theorem optionsLimit_le : dhcpMaxOptionLen - 4 + 256 ≤ optionsLimit := by
  decide

theorem zero_ne_end : (0 : UInt8) ≠ 255 := by
  decide

/-- The stack and the slot may hold any bytes behind the packet. -/
theorem exists_offerSlot (ha : a.packetSize.toNat ≤ dhcpMtuMax) {data : ℕ → UInt8}
    (h : Extends (optionsOf a.received) a.optionBytes optionsLimit data) :
    ∃ slot args, optionsOf (view (offerSlot slot args a).mem).packet = data := by
  refine ⟨fun j => data (j - 268), fun x => data (x - 268), funext fun i => ?_⟩
  have hn : a.packetSize.toNat ≤ 1500 := ha
  have hcallout : calloutLen = 2048 := rfl
  have hsize : sizeofOfferArgs = 1528 := rfl
  have hidx : 28 + (240 + i) - 268 = i := by omega
  change (offerSlot _ _ a).mem (28 + (240 + i)) = data i
  by_cases hlimit : i < 1780
  swap
  · have hzero : optionsOf a.received i = 0 := if_neg (by omega)
    rw [h i (Or.inr (Nat.le_of_not_lt hlimit)), hzero, Block.mem, dif_neg (by omega)]
  by_cases hrec : 28 + (240 + i) < sizeofOfferArgs
  swap
  · rw [offerSlot, mem_overwrite_of_le (Nat.le_of_not_lt hrec) (by omega)]
    exact congrArg data hidx
  rw [offerSlot, mem_overwrite (by decide) hrec, store]
  by_cases hk : 240 + i < a.packetSize.toNat
  · rw [putBytes_add hk, h i (Or.inl (Nat.lt_sub_iff_add_lt'.mpr hk))]
    exact (if_pos hk).symm
  · rw [putBytes_of_disjoint (by omega)]
    simp (disch := omega) only [putWord_of_disjoint]
    exact congrArg data hidx

theorem LogFixed.msgTypeDecided {hex : List UInt8 → List UInt8} (h : a.LogFixed hex)
    (ha : a.packetSize.toNat ≤ dhcpMtuMax) : a.MsgTypeDecided := by
  refine decided_of_outcome (d := 0) readsValue_readMsgType optionsLimit_le zero_ne_end
    fun data data' hd hd' => ?_
  obtain ⟨slot, args, rfl⟩ := exists_offerSlot ha hd
  obtain ⟨slot', args', rfl⟩ := exists_offerSlot ha hd'
  exact congrArg Logged.msgType (h a (Seen.refl a) slot slot' args args').2

theorem LogFixed.hwAddrFits {hex : List UInt8 → List UInt8} (h : a.LogFixed hex)
    (ha : a.packetSize.toNat ≤ dhcpMtuMax) : a.HwAddrFits := by
  have hlong := optionBytes_pos (h.msgTypeDecided ha)
  have hkeeps := (keepsHwaddrBuf_iff _).mp
    (h a (Seen.refl a) (fun _ => 0) (fun _ => 0) (fun _ => 0) fun _ => 0).1
  rwa [(seen (fun _ => 0) (fun _ => 0) a ha).2.hlen_eq hlong] at hkeeps

theorem LogFixed.hostNameDecided {hex : List UInt8 → List UInt8} (h : a.LogFixed hex)
    (ha : a.packetSize.toNat ≤ dhcpMtuMax) : a.HostNameDecided := by
  refine decided_of_outcome (d := none) readsValue_hostName optionsLimit_le zero_ne_end
    fun data data' hd hd' => ?_
  obtain ⟨slot, args, rfl⟩ := exists_offerSlot ha hd
  obtain ⟨slot', args', rfl⟩ := exists_offerSlot ha hd'
  rw [← foundName_eq, ← foundName_eq]
  exact congrArg Logged.name (h a (Seen.refl a) slot slot' args args').2

end OfferArgs

/-- What the Monitor logs of an offer does not depend on what was on the stack and in the slot,
exactly if the received bytes decide the searches for the message type and for the host name, and
the texts of the hardware address fit their buffer. -/
theorem log_fixed_iff (hex : List UInt8 → List UInt8) (a : OfferArgs)
    (ha : a.packetSize.toNat ≤ dhcpMtuMax) :
    a.LogFixed hex ↔ a.MsgTypeDecided ∧ a.HwAddrFits ∧ a.HostNameDecided := by
  constructor
  · intro h
    exact ⟨h.msgTypeDecided ha, h.hwAddrFits ha, h.hostNameDecided ha⟩
  · rintro ⟨hmsg, hfits, hname⟩ a' ha' slot slot' args args'
    have hsize : a'.packetSize.toNat ≤ dhcpMtuMax := by rwa [ha'.packetSize]
    have hv := (OfferArgs.seen slot args a ha).2
    refine ⟨(keepsHwaddrBuf_iff _).mpr ?_, handleOffer_congr hex hmsg hfits hname hv
      (ha'.trans (OfferArgs.seen slot' args' a' hsize).2)⟩
    rw [hv.hlen_eq (OfferArgs.optionBytes_pos hmsg)]
    exact hfits

/-- What `mysql_hex_string` writes. -/
def hexString (name : List UInt8) : List UInt8 :=
  name.flatMap fun c => [upperHex (c.toNat / 16), upperHex (c.toNat % 16)]

/-- A packet with a message type, the host name `hi` and the end of the options. -/
def namedOffer : OfferArgs :=
  { sampleOffer with
    packet := fun x =>
      if x = 2 then 6
      else if x < 240 then 0
      else ([53, 1, 1, 12, 2, 104, 105, 255] : List UInt8).getD (x - 240) 0 }

theorem log_fixed_iff_named : namedOffer.packetSize.toNat ≤ dhcpMtuMax ∧
    namedOffer.LogFixed hexString := by
  refine ⟨by decide, (log_fixed_iff hexString namedOffer (by decide)).mpr ⟨?_, ?_, ?_⟩⟩
  · exact .found (by decide) (by decide) (by decide)
  · unfold OfferArgs.HwAddrFits
    decide
  · exact .next (by decide) (by decide) (by decide)
      (.found (by decide) (by decide) (by decide))

/-- A packet that ends with the cookie : the message type is what the stack holds behind it. -/
def bareOffer : OfferArgs :=
  { sampleOffer with packetSize := 240 }

theorem not_log_fixed :
    ¬∀ a : OfferArgs, a.packetSize.toNat ≤ dhcpMtuMax → a.LogFixed hexString := by
  intro h
  have hdecided := (h bareOffer (by decide)).msgTypeDecided (by decide)
  exact absurd (OfferArgs.optionBytes_pos hdecided) (by decide)

end DhcpToolset
