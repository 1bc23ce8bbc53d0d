import DhcpToolset.HostName
import DhcpToolset.HwAddrText
import DhcpToolset.SqlLiteral
import Mathlib.Algebra.Group.Nat.Even

/-!
# The queries of the handlers

`handle_offer`, `handle_lease` and `handle_delete` print the bytes and words of a record into the
text of an `INSERT`. The hardware address is quoted, the address is `%08X` behind a `0x`, the
lease time is `%d`, and the host name is what `mysql_hex_string` makes of it behind a `0x`.

`client_data_contained` : whatever the record holds, these texts consist of digits, colons and a
sign, so that the query is the template of the handler. `sql_says_record_iff` : read back, the query
of an offer gives the fields of the record unless the lease time has its highest bit set, which
`%d` prints as a sign, or the host name is a single `NUL`, which leaves a literal without digits.
-/

set_option linter.unusedSectionVars false

open Bytes CText SqlLiteral

namespace DhcpToolset

/-- What `mysql_hex_string` does : two hexadecimal digits for each byte. -/
def WritesHex (mysqlHexString : List UInt8 → List UInt8) : Prop :=
  ∀ name, Spells 16 (pairs name) (mysqlHexString name)

/-! ## `handle_lease` and `handle_delete` -/

/-- The `sprintf` of the two handlers, with the end of the text. -/
def leaseQuery (tail hwaddr : List UInt8) (ip : UInt32) : List UInt8 :=
  ofString "INSERT INTO lease_log(hwaddr,ip,lease_type) VALUES ('" ++ hwaddr ++ ofString "',0x" ++
    upperHex8 ip ++ tail

/-- The end of the text of `handle_lease`. -/
def requestedTail : List UInt8 := ofString ",'requested')"

/-- The end of the text of `handle_delete`. -/
def timeoutTail : List UInt8 := ofString ",'timeout')"

/-- `handle_lease`, with the control code `DHCP_PROB_RELEASE`. -/
def handleLease (dhcpProbRelease : UInt32) (buf : DeleteArgs) : Option (List UInt8) :=
  if buf.controlCode ≠ dhcpProbRelease then none
  else (dhcpHwAddrAnsi (chaddrOf buf.packet) (hlenOf buf.packet)).map fun hwaddr =>
    leaseQuery requestedTail hwaddr buf.altAddress

/-- `handle_delete`. The length is passed as an `int`; a negative one formats nothing and stores
outside the buffer. -/
def handleDelete (buf : ClientDeleteArgs) : Option (List UInt8) :=
  (dhcpHwAddrAnsi buf.hwAddress buf.hwAddressLength.toInt32.toInt.toNat).map fun hwaddr =>
    leaseQuery timeoutTail hwaddr buf.ipAddress

/-! ## The texts of the fields -/

section Fields

/-- The first bytes of a memory. -/
def firstBytes (addr : ℕ → UInt8) (len : ℕ) : List UInt8 :=
  (List.range len).map addr

theorem length_firstBytes (addr : ℕ → UInt8) (len : ℕ) : (firstBytes addr len).length = len := by
  rw [firstBytes, List.length_map, List.length_range]

theorem dhcpHwAddr_eq_hexText {bufsize len : ℕ} (addr : ℕ → UInt8)
    (h : 1 ≤ len ∧ 3 * len ≤ bufsize) :
    dhcpHwAddr bufsize addr len = some (hexText (firstBytes addr len)) := by
  have hlen := length_firstBytes addr len
  have hne : firstBytes addr len ≠ [] := fun h0 => by
    rw [h0] at hlen
    simp at hlen
    omega
  have hfits : 3 * (firstBytes addr len).length ≤ bufsize := by omega
  rw [← dhcpHwAddr_eq hne hfits, hlen]
  refine dhcpHwAddr_congr fun i hi => ?_
  simp [firstBytes, hi]

/-- The text of an address of 1 to 16 bytes. -/
theorem dhcpHwAddrAnsi_eq {len : ℕ} (addr : ℕ → UInt8) (h : 1 ≤ len ∧ len ≤ 16) :
    dhcpHwAddrAnsi addr len = some (hexText (firstBytes addr len)) := by
  have hfits : 3 * len ≤ sizeofHwaddrBuf := by
    rw [sizeofHwaddrBuf]
    omega
  exact dhcpHwAddr_eq_hexText addr ⟨h.1, hfits⟩

/-- A lower-case hexadecimal digit. -/
def IsLowerHex (c : UInt8) : Prop :=
  48 ≤ c ∧ c ≤ 57 ∨ 97 ≤ c ∧ c ≤ 102

theorem isLowerHex_lowerHex {v : ℕ} (hv : v < 16) : IsLowerHex (lowerHex v) := by
  have h : ∀ v : Fin 16,
      48 ≤ lowerHex v ∧ lowerHex v ≤ 57 ∨ 97 ≤ lowerHex v ∧ lowerHex v ≤ 102 := by decide
  exact h ⟨v, hv⟩

/-- Lower-case hexadecimal digits and colons. -/
def IsHwaddr (t : List UInt8) : Prop :=
  ∀ c ∈ t, IsLowerHex c ∨ c = 58

theorem isHwaddr_hexText {b : List UInt8} (hb : b ≠ []) : IsHwaddr (hexText b) := by
  intro c hc
  have hmem : c ∈ b.flatMap fun x => hexPair x ++ [58] := by
    rw [flatMap_hexPair hb]
    exact List.mem_append_left _ hc
  obtain ⟨x, -, hx⟩ := List.mem_flatMap.mp hmem
  have hlt := x.toNat_lt
  simp only [hexPair, List.cons_append, List.nil_append, List.mem_cons, List.not_mem_nil,
    or_false] at hx
  rcases hx with rfl | rfl | rfl
  · exact Or.inl (isLowerHex_lowerHex (by omega))
  · exact Or.inl (isLowerHex_lowerHex (by omega))
  · exact Or.inr rfl

/-- The digits of a word. -/
def nibbles (w : UInt32) : List ℕ :=
  (List.range 8).map fun k => w.toNat / 16 ^ (7 - k) % 16

theorem digitValue_upperHex {v : ℕ} (hv : v < 16) : digitValue 16 (upperHex v) = some v := by
  have h : ∀ v : Fin 16, digitValue 16 (upperHex v) = some v.val := by decide
  exact h ⟨v, hv⟩

theorem spells_upperHex8 (w : UInt32) : Spells 16 (nibbles w) (upperHex8 w) := by
  unfold Spells nibbles upperHex8
  rw [List.map_map, List.map_map]
  exact List.map_congr_left fun k _ => digitValue_upperHex (Nat.mod_lt _ (by decide))

theorem value_nibbles (w : UInt32) : value 16 (nibbles w) = w.toNat := by
  -- the first `m` digits are the number without its last `8 - m` digits
  have hfirst : ∀ m ≤ 8, value 16 ((List.range m).map fun k => w.toNat / 16 ^ (7 - k) % 16) =
      w.toNat / 16 ^ (8 - m) := by
    intro m hm
    induction m with
    | zero => exact (Nat.div_eq_of_lt w.toNat_lt).symm
    | succ m ih =>
      have hstep : w.toNat / 16 ^ (8 - m) = w.toNat / 16 ^ (7 - m) / 16 := by
        rw [show 8 - m = (7 - m) + 1 by omega, pow_succ, Nat.div_div_eq_div_mul]
      rw [value] at ih ⊢
      rw [List.range_succ, List.map_append, List.foldl_append, ih (by omega), hstep,
        show 8 - (m + 1) = 7 - m by omega]
      simp only [List.map_cons, List.map_nil, List.foldl_cons, List.foldl_nil]
      omega
  rw [nibbles, hfirst 8 le_rfl, Nat.sub_self, pow_zero, Nat.div_one]

/-- A decimal number, with a sign or without. -/
def IsDecimal (t : List UInt8) : Prop :=
  ∃ ds, ds ≠ [] ∧ (∀ c ∈ ds, (digitValue 10 c).isSome = true) ∧ (t = ds ∨ t = 45 :: ds)

theorem isDecimal_decimal (w : UInt32) : IsDecimal (decimal w) ∧ (decimal w).length ≤ 11 := by
  have hw := w.toNat_lt
  have hint := toInt_toInt32 w
  have htext : ∀ n : ℕ, n < 10 ^ 10 → natText n ≠ [] ∧
      (∀ c ∈ natText n, (digitValue 10 c).isSome = true) ∧ (natText n).length ≤ 10 := by
    intro n hn
    obtain ⟨ds, hne, hds, -⟩ := spells_natText n
    refine ⟨fun h0 => hne ?_, fun c hc => hds.isSome_of_mem hc, length_natText_le (by decide) hn⟩
    rw [h0] at hds
    exact List.length_eq_zero_iff.mp hds.length_eq.symm
  rw [decimal, ofString_toString]
  split_ifs at hint ⊢ with hlow hsign
  · obtain ⟨hne, hall, hlen⟩ := htext _ (by omega : w.toInt32.toInt.toNat < 10 ^ 10)
    exact ⟨⟨_, hne, hall, Or.inl rfl⟩, by omega⟩
  · omega
  · omega
  · obtain ⟨hne, hall, hlen⟩ := htext _ (by omega : (-w.toInt32.toInt).toNat < 10 ^ 10)
    exact ⟨⟨_, hne, hall, Or.inr rfl⟩, by rw [List.length_cons]; omega⟩

end Fields

/-! ## The row of an offer -/

/-- A text without one last `NUL`. -/
def dropNul (v : List UInt8) : List UInt8 :=
  if v.getLast? = some 0 then v.dropLast else v

/-- The options of the record hold the host name `v`, read as items. -/
def HasHostName (buf : OfferArgs) (v : List UInt8) : Prop :=
  LandsOn (optionsOf buf.packet) (dhcpMaxOptionLen - 4) dhoHostName 0 v

/-- The hardware address of the record fits. -/
def HasHwAddr (packet : ℕ → UInt8) : Prop :=
  1 ≤ hlenOf packet ∧ hlenOf packet ≤ 16

section Row

variable {buf : OfferArgs} {v : List UInt8}

theorem hostName_eq_dropNul {data : ℕ → UInt8} {ohn : ℕ} {hnl : UInt8} (h0 : hnl ≠ 0) :
    hostName data (ohn, hnl) =
      some (dropNul ((List.range hnl.toNat).map fun i => data (ohn + i))) := by
  obtain ⟨n, hn⟩ : ∃ n, hnl.toNat = n + 1 := by
    refine ⟨hnl.toNat - 1, ?_⟩
    have : hnl.toNat ≠ 0 := fun h => h0 (UInt8.toNat_inj.mp h)
    omega
  simp only [hostName, hn, Nat.add_sub_cancel, Nat.add_one_ne_zero, if_false, dropNul,
    List.range_succ, List.map_append, List.map_cons, List.map_nil, List.getLast?_concat,
    Option.some.injEq, List.dropLast_concat]
  split_ifs with hzero
  · rfl
  · rw [List.range_succ, List.map_append, List.map_cons, List.map_nil]

theorem HasHostName.foundName_eq (h : HasHostName buf v) (hv : v ≠ []) :
    foundName buf = some (dropNul v) ∧ v.length ≤ 255 := by
  obtain ⟨r, hr, hvalue⟩ : ∃ r, findHostName (optionsOf buf.packet) = some r ∧
      (List.range r.2.toNat).map (fun i => optionsOf buf.packet (r.1 + i)) = v :=
    Option.map_eq_some_iff.mp ((foundValue_eq_some_iff (by decide) v).mpr h)
  have hlen : v.length = r.2.toNat := by
    rw [← hvalue, List.length_map, List.length_range]
  have h0 : r.2 ≠ 0 := fun h0 => hv (List.length_eq_zero_iff.mp (by rw [hlen, h0]; rfl))
  have hlt := r.2.toNat_lt
  refine ⟨?_, by omega⟩
  calc foundName buf
      = (findHostName (optionsOf buf.packet)).bind (hostName (optionsOf buf.packet)) := rfl
    _ = some (dropNul v) := by rw [hr, Option.bind_some, hostName_eq_dropNul h0, hvalue]

/-- The row of a record with a hardware address and a host name. -/
theorem offerRow_eq_some (hex : List UInt8 → List UInt8) (hhw : HasHwAddr buf.packet)
    (h : HasHostName buf v) (hv : v ≠ []) :
    offerRow hex buf = some (dropNul v,
      offerQuery hex (hexText (firstBytes (chaddrOf buf.packet) (hlenOf buf.packet))) buf.altAddress
        buf.leaseTime (dropNul v)) := by
  rw [offerRow_eq, (h.foundName_eq hv).1, dhcpHwAddrAnsi_eq _ hhw]
  rfl

end Row

/-! ## The templates -/

/-- A query of `handle_offer` with texts of the right form, that fits the buffer with its `NUL`. -/
def IsOfferQuery (query : List UInt8) : Prop :=
  ∃ hwaddr ip lease name,
    query = ofString "INSERT INTO offer_log(hwaddr,ip,lease_time,hostname) VALUES ('" ++ hwaddr ++
      ofString "',0x" ++ ip ++ ofString "," ++ lease ++ ofString ",0x" ++ name ++ ofString ")" ∧
    IsHwaddr hwaddr ∧ (ip.length = 8 ∧ ∀ c ∈ ip, (digitValue 16 c).isSome = true) ∧
    IsDecimal lease ∧ (Even name.length ∧ ∀ c ∈ name, (digitValue 16 c).isSome = true) ∧
    query.length + 1 ≤ 65536

/-- A query of `handle_lease` or `handle_delete`. -/
def IsLeaseQuery (tail query : List UInt8) : Prop :=
  ∃ hwaddr ip,
    query = ofString "INSERT INTO lease_log(hwaddr,ip,lease_type) VALUES ('" ++ hwaddr ++
      ofString "',0x" ++ ip ++ tail ∧
    IsHwaddr hwaddr ∧ (ip.length = 8 ∧ ∀ c ∈ ip, (digitValue 16 c).isSome = true) ∧
    query.length + 1 ≤ 65536

section Templates

theorem length_upperHex8 (w : UInt32) : (upperHex8 w).length = 8 := by
  rw [upperHex8, List.length_map, List.length_range]

theorem length_dropNul_le (v : List UInt8) : (dropNul v).length ≤ v.length := by
  unfold dropNul
  split_ifs
  · rw [List.length_dropLast]
    exact Nat.sub_le _ _
  · exact le_rfl

theorem firstBytes_ne_nil {addr : ℕ → UInt8} {len : ℕ} (h : 1 ≤ len) :
    firstBytes addr len ≠ [] := by
  intro h0
  have := length_firstBytes addr len
  rw [h0, List.length_nil] at this
  omega

theorem length_pairs (bs : List UInt8) : (pairs bs).length = bs.length + bs.length := by
  simp [pairs, List.length_flatMap]
  omega

theorem isOfferQuery_offerQuery {hex : List UInt8 → List UInt8} (hhex : WritesHex hex)
    {b : List UInt8} (hb : b ≠ [] ∧ b.length ≤ 16) (ip lease : UInt32) {name : List UInt8}
    (hname : name.length ≤ 255) : IsOfferQuery (offerQuery hex (hexText b) ip lease name) := by
  have hlen := length_hexText hb.1
  have hdigits : (hex name).length = name.length + name.length := by
    rw [(hhex name).length_eq, length_pairs]
  obtain ⟨hdecimal, hshort⟩ := isDecimal_decimal lease
  refine ⟨hexText b, upperHex8 ip, decimal lease, hex name, rfl, isHwaddr_hexText hb.1,
    ⟨length_upperHex8 ip, fun c hc => (spells_upperHex8 ip).isSome_of_mem hc⟩, hdecimal,
    ⟨⟨_, hdigits⟩, fun c hc => (hhex name).isSome_of_mem hc⟩, ?_⟩
  have hfixed : (ofString "INSERT INTO offer_log(hwaddr,ip,lease_time,hostname) VALUES ('").length +
      (ofString "',0x").length + (ofString ",").length + (ofString ",0x").length +
      (ofString ")").length ≤ 100 := by decide
  simp only [offerQuery, List.length_append, length_upperHex8, hdigits]
  omega

theorem isLeaseQuery_leaseQuery {b : List UInt8} (hb : b ≠ [] ∧ b.length ≤ 16) (ip : UInt32)
    {tail : List UInt8} (htail : tail.length ≤ 100) :
    IsLeaseQuery tail (leaseQuery tail (hexText b) ip) := by
  have hlen := length_hexText hb.1
  refine ⟨hexText b, upperHex8 ip, rfl, isHwaddr_hexText hb.1,
    ⟨length_upperHex8 ip, fun c hc => (spells_upperHex8 ip).isSome_of_mem hc⟩, ?_⟩
  have hfixed : (ofString "INSERT INTO lease_log(hwaddr,ip,lease_type) VALUES ('").length +
      (ofString "',0x").length ≤ 100 := by decide
  simp only [leaseQuery, List.length_append, length_upperHex8]
  omega

end Templates

/-- Client data stays in its literal : the query of a handler is its template with texts of the
right form, whatever the record holds. -/
theorem client_data_contained {hex : List UInt8 → List UInt8} (hhex : WritesHex hex)
    (dhcpProbRelease : UInt32) :
    (∀ (buf : OfferArgs) (v : List UInt8), HasHwAddr buf.packet → HasHostName buf v → v ≠ [] →
      ∃ name query, offerRow hex buf = some (name, query) ∧ IsOfferQuery query) ∧
    (∀ buf : DeleteArgs, HasHwAddr buf.packet →
      (buf.controlCode = dhcpProbRelease →
        ∃ query, handleLease dhcpProbRelease buf = some query ∧ IsLeaseQuery requestedTail query) ∧
      (buf.controlCode ≠ dhcpProbRelease → handleLease dhcpProbRelease buf = none)) ∧
    ∀ buf : ClientDeleteArgs, 1 ≤ buf.hwAddressLength.toNat → buf.hwAddressLength.toNat ≤ 16 →
      ∃ query, handleDelete buf = some query ∧ IsLeaseQuery timeoutTail query := by
  refine ⟨fun buf v hhw hname hv => ?_, fun buf hhw => ⟨fun hcode => ?_, fun hcode => ?_⟩,
    fun buf hlow hhigh => ?_⟩
  · refine ⟨_, _, offerRow_eq_some hex hhw hname hv, isOfferQuery_offerQuery hhex ?_ _ _ ?_⟩
    · exact ⟨firstBytes_ne_nil hhw.1, (length_firstBytes _ _).trans_le hhw.2⟩
    · exact (length_dropNul_le v).trans (hname.foundName_eq hv).2
  · refine ⟨_, ?_, isLeaseQuery_leaseQuery
      (b := firstBytes (chaddrOf buf.packet) (hlenOf buf.packet))
      ⟨firstBytes_ne_nil hhw.1, (length_firstBytes _ _).trans_le hhw.2⟩ buf.altAddress (by decide)⟩
    rw [handleLease, if_neg (not_not.mpr hcode), dhcpHwAddrAnsi_eq _ hhw, Option.map_some]
  · exact if_pos hcode
  · have hint : buf.hwAddressLength.toInt32.toInt.toNat = buf.hwAddressLength.toNat := by
      rw [toInt_toInt32, if_pos (by omega), Int.toNat_natCast]
    refine ⟨_, ?_, isLeaseQuery_leaseQuery
      (b := firstBytes buf.hwAddress buf.hwAddressLength.toNat)
      ⟨firstBytes_ne_nil hlow, (length_firstBytes _ _).trans_le hhigh⟩ buf.ipAddress (by decide)⟩
    rw [handleDelete, hint, dhcpHwAddrAnsi_eq _ ⟨hlow, hhigh⟩, Option.map_some]

theorem writesHex_hexString : WritesHex hexString := by
  intro name
  unfold Spells pairs hexString
  rw [List.map_flatMap, List.map_flatMap]
  refine List.flatMap_congr fun c _ => ?_
  have hc := c.toNat_lt
  simp [digitValue_upperHex (show c.toNat / 16 < 16 by omega),
    digitValue_upperHex (show c.toNat % 16 < 16 by omega)]

theorem hasHostName_namedOffer : HasHostName namedOffer [104, 105] :=
  ⟨3, by decide, .skip (by decide) (by decide) (.refl _ _ _), by decide, by decide,
    by unfold HoldsAt; decide⟩

theorem client_data_contained_named :
    ∃ name query, offerRow hexString namedOffer = some (name, query) ∧ IsOfferQuery query :=
  (client_data_contained writesHex_hexString 0).1 namedOffer [104, 105]
    (by unfold HasHwAddr; decide) hasHostName_namedOffer (by decide)

/-! ## Reading the values back -/

/-- The values of a query of `handle_offer` : the address as bytes, the IP address and the lease
time as numbers, the host name as bytes. -/
def readOfferValues (query : List UInt8) : Option (List UInt8 × ℕ × ℤ × List UInt8) := do
  let s ← readText (ofString "INSERT INTO offer_log(hwaddr,ip,lease_time,hostname) VALUES (") query
  let (hwaddr, s) ← readQuoted s
  let hwaddr ← colonBytes hwaddr
  let s ← readText (ofString ",") s
  let (ip, s) ← readHex s
  let s ← readText (ofString ",") s
  let (lease, s) ← readDecimal s
  let s ← readText (ofString ",") s
  let (name, s) ← readHex s
  let name ← pairBytes name
  let s ← readText (ofString ")") s
  if s.isEmpty then some (hwaddr, value 16 ip, lease, name) else none

section Values

theorem hexByte_hexPair (x : UInt8) :
    hexByte (lowerHex (x.toNat / 16)) (lowerHex (x.toNat % 16)) = some x := by
  have hx := x.toNat_lt
  simp only [hexByte, digitValue_lowerHex (show x.toNat / 16 < 16 by omega),
    digitValue_lowerHex (show x.toNat % 16 < 16 by omega), Option.bind_eq_bind, Option.bind_some,
    Nat.div_add_mod, UInt8.ofNat_toNat]

theorem colonBytes_hexText : ∀ {b : List UInt8}, b ≠ [] → colonBytes (hexText b) = some b
  | [], h => absurd rfl h
  | [x], _ => by simp [hexText, hexPair, colonBytes, hexByte_hexPair]
  | x :: y :: xs, _ => by
    simp [hexText, hexPair, colonBytes, hexByte_hexPair, colonBytes_hexText (List.cons_ne_nil y xs)]

/-- The text of `sprintf`, taken apart as it is read. -/
theorem offerQuery_eq (hex : List UInt8 → List UInt8) (hwaddr : List UInt8) (ip lease : UInt32)
    (name : List UInt8) : offerQuery hex hwaddr ip lease name =
      ofString "INSERT INTO offer_log(hwaddr,ip,lease_time,hostname) VALUES (" ++ (39 :: (hwaddr ++
        39 :: (ofString "," ++ (48 :: 120 :: (upperHex8 ip ++ (ofString "," ++ (decimal lease ++
          (ofString "," ++ (48 :: 120 :: (hex name ++ (ofString ")" ++ []))))))))))) := by
  have hopen : ofString "INSERT INTO offer_log(hwaddr,ip,lease_time,hostname) VALUES ('" =
      ofString "INSERT INTO offer_log(hwaddr,ip,lease_time,hostname) VALUES (" ++ [39] := by decide
  have hclose : ofString "',0x" = 39 :: (ofString "," ++ [48, 120]) := by decide
  have hzero : ofString ",0x" = ofString "," ++ [48, 120] := by decide
  simp only [offerQuery, hopen, hclose, hzero, List.append_assoc, List.cons_append, List.nil_append,
    List.append_nil]

theorem readOfferValues_offerQuery {hex : List UInt8 → List UInt8} (hhex : WritesHex hex)
    {b : List UInt8} (hb : b ≠ []) (ip lease : UInt32) (name : List UInt8) :
    readOfferValues (offerQuery hex (hexText b) ip lease name) =
      if name = [] then none else some (b, ip.toNat, lease.toInt32.toInt, name) := by
  have hquote : 39 ∉ hexText b := by
    intro h
    rcases isHwaddr_hexText hb 39 h with (⟨h1, -⟩ | ⟨h1, -⟩) | h1 <;> exact absurd h1 (by decide)
  have hcomma : ∀ base (t : List UInt8), ∀ c ∈ (ofString "," ++ t).head?,
      digitValue base c = none := by
    intro base t c hc
    obtain rfl : 44 = c := Option.some.inj hc
    rfl
  have hparen : ∀ c ∈ (ofString ")" ++ []).head?, digitValue 16 c = none := by
    intro c hc
    obtain rfl : 41 = c := Option.some.inj hc
    rfl
  have hip : (nibbles ip).isEmpty = false := rfl
  have hname : (pairs name).isEmpty = true ↔ name = [] := by
    rw [List.isEmpty_iff, ← List.length_eq_zero_iff, length_pairs, ← List.length_eq_zero_iff]
    omega
  rw [offerQuery_eq, readOfferValues]
  simp only [readText_append, readQuoted_append hquote, colonBytes_hexText hb, Option.bind_eq_bind,
    Option.bind_some, readHex_append (spells_upperHex8 ip) (hcomma 16 _), hip, Bool.false_eq_true,
    if_false, decimal, readDecimal_append _ (hcomma 10 _), readHex_append (hhex name) hparen, hname]
  split_ifs with h0
  · rfl
  · simp only [Option.bind_some, pairBytes_pairs, readText_append, List.isEmpty_nil, if_true,
      value_nibbles]

/-- The query of a record, and what is read back from it. -/
theorem exists_offerRow {hex : List UInt8 → List UInt8} (hhex : WritesHex hex) {buf : OfferArgs}
    {v : List UInt8} (hhw : HasHwAddr buf.packet) (hname : HasHostName buf v) (hv : v ≠ []) :
    ∃ query, offerRow hex buf = some (dropNul v, query) ∧ readOfferValues query =
      if dropNul v = [] then none
      else some (firstBytes (chaddrOf buf.packet) (hlenOf buf.packet), buf.altAddress.toNat,
        buf.leaseTime.toInt32.toInt, dropNul v) :=
  ⟨_, offerRow_eq_some hex hhw hname hv,
    readOfferValues_offerQuery hhex (firstBytes_ne_nil hhw.1) _ _ _⟩

theorem dropNul_eq_nil_iff {v : List UInt8} (hv : v ≠ []) : dropNul v = [] ↔ v = [0] := by
  constructor
  · intro h
    unfold dropNul at h
    split_ifs at h with hlast
    · rw [← List.dropLast_append_getLast? 0 hlast, h, List.nil_append]
    · exact absurd h hv
  · rintro rfl
    rfl

end Values

/-- What the query of an offer says, read back. -/
def SaysRecord (hex : List UInt8 → List UInt8) (buf : OfferArgs) (v : List UInt8) : Prop :=
  ∃ name query, offerRow hex buf = some (name, query) ∧
    readOfferValues query = some (firstBytes (chaddrOf buf.packet) (hlenOf buf.packet),
      buf.altAddress.toNat, (buf.leaseTime.toNat : ℤ), dropNul v)

/-- Of the four values only the lease time and the host name can differ. -/
theorem saysRecord_iff {hex : List UInt8 → List UInt8} (hhex : WritesHex hex) {buf : OfferArgs}
    {v : List UInt8} (hhw : HasHwAddr buf.packet) (hname : HasHostName buf v) (hv : v ≠ []) :
    SaysRecord hex buf v ↔
      buf.leaseTime.toInt32.toInt = (buf.leaseTime.toNat : ℤ) ∧ dropNul v ≠ [] := by
  obtain ⟨query, hrow, hread⟩ := exists_offerRow hhex hhw hname hv
  constructor
  · rintro ⟨name, query', hrow', hread'⟩
    obtain ⟨-, rfl⟩ : dropNul v = name ∧ query = query' := by
      simpa using hrow.symm.trans hrow'
    rw [hread] at hread'
    split_ifs at hread' with hnul
    exact ⟨by simpa using hread', hnul⟩
  · rintro ⟨hlease, hnul⟩
    refine ⟨_, query, hrow, ?_⟩
    rw [hread, if_neg hnul, hlease]

/-- The query of an offer says what the record says if and only if the lease time is below `2^31`
and the host name is not a single `NUL`. -/
theorem sql_says_record_iff {hex : List UInt8 → List UInt8} (hhex : WritesHex hex) {buf : OfferArgs}
    {v : List UInt8} (hhw : HasHwAddr buf.packet) (hname : HasHostName buf v) (hv : v ≠ []) :
    SaysRecord hex buf v ↔ buf.leaseTime.toNat < 2 ^ 31 ∧ v ≠ [0] := by
  have hlease : buf.leaseTime.toInt32.toInt = (buf.leaseTime.toNat : ℤ) ↔
      buf.leaseTime.toNat < 2 ^ 31 := by
    rw [toInt_toInt32]
    split_ifs with hlow
    · exact iff_of_true rfl hlow
    · exact iff_of_false (by omega) hlow
  rw [saysRecord_iff hhex hhw hname hv, hlease, ne_eq, dropNul_eq_nil_iff hv]

theorem sql_says_record_iff_named : SaysRecord hexString namedOffer [104, 105] :=
  (sql_says_record_iff writesHex_hexString (by unfold HasHwAddr; decide) hasHostName_namedOffer
    (by decide)).mpr (by decide)

/-- An offer with an infinite lease. -/
def infiniteOffer : OfferArgs :=
  { namedOffer with leaseTime := 0xFFFFFFFF }

theorem not_sql_says_record :
    ¬∀ (hex : List UInt8 → List UInt8), WritesHex hex → ∀ (buf : OfferArgs) (v : List UInt8),
      HasHwAddr buf.packet → HasHostName buf v → v ≠ [] → SaysRecord hex buf v := by
  intro h
  have hhw : HasHwAddr infiniteOffer.packet := by unfold HasHwAddr; decide
  have hname : HasHostName infiniteOffer [104, 105] := hasHostName_namedOffer
  have hsays := h hexString writesHex_hexString infiniteOffer [104, 105] hhw hname (by decide)
  have hlease := ((saysRecord_iff writesHex_hexString hhw hname (by decide)).mp hsays).1
  exact absurd hlease (by decide)

end DhcpToolset
