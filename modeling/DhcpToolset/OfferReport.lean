import DhcpToolset.HostName
import DhcpToolset.Transition

/-!
# The report of an offer

`handle_offer` prints the packet before it logs it. On the way it uses numbers of the packet as
indices and lengths, and tests none of them. The names of the message type and of the hardware type
are elements of two tables, at the first message type option, read as a `char`, and at `htype`; the
text of the address is stored twice, in `hwaddr_buf`; the host name is read at the length of its
option, and its digits are stored in `hnhex`.

`offerUses` lists these accesses for one call, `offer_inside_iff` says for which packets they all
stay inside. Then the entry of the log is built (`handleOffer`); every other packet makes the
Monitor read or write behind an array, or through `NULL`.

The time in the report is in one of sixteen static buffers, which `getTimeString` uses in turn.
`time_strings_hold` : in every sequence of calls, a text stays in its buffer for fifteen more
calls, and the sixteenth takes its place.
-/

set_option linter.unusedSectionVars false

open Traced Transition

namespace DhcpToolset

/-! ## The names -/

/-- `_dhcp_hw_type_name`. -/
def dhcpHwTypeName : List String :=
  ["(Unknown)", "Ethernet", "(Unknown)", "(Unknown)", "(Unknown)", "(Unknown)", "IEEE 802",
    "(Unknown)", "FDDI", "(Unknown)"]

/-- `_dhcp_msg_type_name`. -/
def dhcpMsgTypeName : List String :=
  ["(Unknown)", "Discovery", "Offer", "Request", "Decline", "Ack", "Nak", "Release", "Inform",
    "LeaseQuery", "LeaseUnassigned", "LeaseUnknow", "LeaseActive", "(Unknown)", "(Unknown)"]

/-- An element of a table at an `int`. There is none outside the table. -/
def elementAt (table : List String) (i : ℤ) : Option String :=
  if 0 ≤ i then table[i.toNat]? else none

/-- `msg_type` as an `int`, from the byte that `handle_offer` reads. `char` is signed. -/
def msgTypeIndex (msgType : UInt8) : ℤ :=
  msgType.toInt8.toInt

theorem isSome_elementAt {table : List String} {i : ℤ} :
    (elementAt table i).isSome = true ↔ 0 ≤ i ∧ i < table.length := by
  unfold elementAt
  split
  · rw [Option.isSome_iff_ne_none, Ne, List.getElem?_eq_none_iff]
    omega
  · simp
    omega

/-- A byte from 128 on is a negative `char`. -/
theorem isSome_msgTypeName (b : UInt8) :
    (elementAt dhcpMsgTypeName (msgTypeIndex b)).isSome = true ↔ b.toNat < 15 := by
  have hlen : (dhcpMsgTypeName.length : ℤ) = 15 := rfl
  have hlt := b.toNat_lt
  rw [isSome_elementAt, hlen, msgTypeIndex, Int8.toInt, UInt8.toBitVec_toInt8,
    BitVec.toInt_eq_toNat_cond, UInt8.toNat_toBitVec]
  split <;> omega

theorem isSome_hwTypeName (b : UInt8) :
    (elementAt dhcpHwTypeName b.toNat).isSome = true ↔ b.toNat < 10 := by
  have hlen : (dhcpHwTypeName.length : ℤ) = 10 := rfl
  rw [isSome_elementAt, hlen]
  omega

/-! ## The accesses of a call -/

/-- An access of `handle_offer` at a place that the packet gives. -/
inductive OfferUse where
  | msgTypeName (i : ℤ)
  | hwTypeName (i : ℤ)
  /-- A store in `hwaddr_buf`, to an element of some bytes. -/
  | hwaddrBuf (elem : ℕ) (i : ℤ)
  | ohn (u : NameUse)
  /-- `mysql_hex_string`, which reads so many bytes and stores two digits for each, and a `NUL`. -/
  | hnhex (n : ℕ)

/-- The access stays in its table or buffer, or in the value that was found. -/
def OfferUse.Inside (options : ℕ → UInt8) : OfferUse → Prop
  | .msgTypeName i => (elementAt dhcpMsgTypeName i).isSome = true
  | .hwTypeName i => (elementAt dhcpHwTypeName i).isSome = true
  | .hwaddrBuf elem i => 0 ≤ i * elem ∧ i * elem + elem ≤ sizeofHwaddrBuf
  | .ohn .null => False
  | .ohn (.byte off) => ∃ ohn hnl, findHostName options = some (ohn, hnl) ∧
    ohn ≤ off ∧ off < ohn + hnl.toNat
  | .hnhex n => (∃ ohn hnl, findHostName options = some (ohn, hnl) ∧ n ≤ hnl.toNat) ∧
    2 * n + 1 ≤ sizeofHnhex

/-- The accesses of `handle_offer`, with a `size_t` of `w` bits : for the report the names and the
text of the address in wide characters, then the host name, and for the query the text of the
address once more. It does not get past a read through `NULL`. -/
def offerUses (w : ℕ) (buf : OfferArgs) : Traced OfferUse Unit := do
  let stores := hwAddrStores (chaddrOf buf.packet) (hlenOf buf.packet)
  touch [.msgTypeName (msgTypeIndex (foundMsgType buf)), .hwTypeName (buf.packet 1).toNat]
  touch (stores.map fun s => .hwaddrBuf 2 s.1)
  match ← (hostNameLength w (optionsOf buf.packet)).relabel fun u => [OfferUse.ohn u] with
  | none => pure ()
  | some n => do
    touch [.hnhex n]
    touch (stores.map fun s => .hwaddrBuf 1 s.1)

section Uses

variable {w : ℕ} {options : ℕ → UInt8} {buf : OfferArgs}

theorem inside_hwaddrBuf_iff {elem : ℕ} {ss : List (ℤ × UInt8)} :
    (∀ u ∈ ss.map fun s => OfferUse.hwaddrBuf elem s.1, u.Inside options) ↔
      StoresInside sizeofHwaddrBuf elem ss := by
  simp only [List.forall_mem_map, OfferUse.Inside, StoresInside]

/-- The message type that is printed is 0, or the first one that the search comes to. -/
theorem foundMsgType_lt_iff : (foundMsgType buf).toNat < 15 ↔
    ∀ p < dhcpMaxOptionLen - 4, Reaches (optionsOf buf.packet) dhoDhcpMessageType 0 p →
      optionsOf buf.packet p = dhoDhcpMessageType → (optionsOf buf.packet (p + 2)).toNat < 15 := by
  rw [foundMsgType, dhcpFindOption]
  constructor
  · intro hlt p hp hreach hat
    rw [(dhcpFindFrom_eq_some_iff (by decide)).mpr ⟨p, hp, hreach, hat, rfl⟩] at hlt
    exact hlt
  · intro hall
    cases hfind : dhcpFindFrom (optionsOf buf.packet) (dhcpMaxOptionLen - 4) dhoDhcpMessageType
        0 0 with
    | none => exact (by decide : (0 : UInt8).toNat < 15)
    | some r =>
      obtain ⟨p, hp, hreach, hat, rfl⟩ := (dhcpFindFrom_eq_some_iff (by decide)).mp hfind
      exact hall p hp hreach hat

/-- The byte of the host name that is read lies in the value exactly for a name that is not
empty. -/
theorem inside_ohn_iff (hw : w = 32 ∨ w = 64) :
    ((hostNameLength w options).All fun u => (OfferUse.ohn u).Inside options) ↔
      ShowsHostName options := by
  rw [showsHostName_iff]
  cases hfind : findHostName options with
  | none => simp [hostNameLength, hfind, OfferUse.Inside]
  | some r =>
    obtain ⟨ohn, hnl⟩ := r
    have hlast := last_eq hw hnl (findHostName_bounds hfind)
    simp only [hostNameLength, hfind, all_bind, all_touch, all_pure, List.forall_mem_singleton,
      and_true, OfferUse.Inside, Option.some.injEq, Prod.mk.injEq]
    by_cases h0 : hnl = 0
    · rw [if_pos h0] at hlast
      refine iff_of_false ?_ ?_
      · rintro ⟨_, _, ⟨rfl, rfl⟩, hle, hlt⟩
        have hohn := findHostName_bounds hfind
        omega
      · rintro ⟨_, _, ⟨rfl, rfl⟩, hne⟩
        exact hne h0
    · rw [if_neg h0] at hlast
      have hpos : hnl.toNat ≠ 0 := fun h => h0 (UInt8.toNat_inj.mp h)
      rw [hlast.1, hlast.2]
      exact iff_of_true ⟨ohn, hnl, ⟨rfl, rfl⟩, by omega, by omega⟩ ⟨ohn, hnl, ⟨rfl, rfl⟩, h0⟩

/-- The host name of such an offer has a length, and its digits fit. -/
theorem inside_hnhex (hw : w = 32 ∨ w = 64) (h : ShowsHostName options) :
    ∃ n, (hostNameLength w options).val = some n ∧ (OfferUse.hnhex n).Inside options := by
  obtain ⟨ohn, hnl, hfind, h0⟩ := showsHostName_iff.mp h
  have hsafe : HostNameSafe w options := (hostNameSafe_iff hw).mpr ⟨ohn, hnl, hfind, h0⟩
  obtain ⟨n, hn⟩ : ∃ n, (hostNameLength w options).val = some n := by simp [hostNameLength, hfind]
  obtain ⟨hle, hfits⟩ := hsafe.length_le ohn hnl n hfind hn
  exact ⟨n, hn, ⟨ohn, hnl, hfind, hle⟩, hfits⟩

/-- The accesses, part by part. -/
theorem inside_offerUses_iff (hw : w = 32 ∨ w = 64) :
    (offerUses w buf).All (OfferUse.Inside (optionsOf buf.packet)) ↔
      ((foundMsgType buf).toNat < 15 ∧ (buf.packet 1).toNat < 10) ∧ KeepsHwaddrBuf buf ∧
        ShowsHostName (optionsOf buf.packet) := by
  have hnames : (∀ u ∈ [OfferUse.msgTypeName (msgTypeIndex (foundMsgType buf)),
      .hwTypeName (buf.packet 1).toNat], u.Inside (optionsOf buf.packet)) ↔
      (foundMsgType buf).toNat < 15 ∧ (buf.packet 1).toNat < 10 := by
    rw [List.forall_mem_cons, List.forall_mem_singleton, ← isSome_msgTypeName,
      ← isSome_hwTypeName]
    rfl
  simp only [offerUses, all_bind, all_touch, hnames, inside_hwaddrBuf_iff, all_relabel,
    List.forall_mem_singleton, val_relabel, inside_ohn_iff hw, KeepsHwaddrBuf, and_assoc]
  refine and_congr_right fun _ => and_congr_right fun _ => and_congr_right fun hwide => ?_
  constructor
  · rintro ⟨hname, hrest⟩
    obtain ⟨n, hn, -⟩ := inside_hnhex hw hname
    rw [hn] at hrest
    simp only [all_bind, all_touch, inside_hwaddrBuf_iff] at hrest
    exact ⟨hrest.2, hname⟩
  · rintro ⟨hnarrow, hname⟩
    obtain ⟨n, hn, hfits⟩ := inside_hnhex hw hname
    rw [hn]
    simp only [all_bind, all_touch, inside_hwaddrBuf_iff, List.forall_mem_singleton]
    exact ⟨hname, hfits, hnarrow⟩

/-- With the address and the host name inside, the entry is built. -/
theorem isSome_query (hex : List UInt8 → List UInt8) (hkeeps : KeepsHwaddrBuf buf)
    (hname : ShowsHostName (optionsOf buf.packet)) : (handleOffer hex buf).query.isSome = true := by
  obtain ⟨ohn, hnl, hfind, h0⟩ := showsHostName_iff.mp hname
  have hpos : hnl.toNat ≠ 0 := fun h => h0 (UInt8.toNat_inj.mp h)
  obtain ⟨name, hfound⟩ : ∃ name, foundName buf = some name := by
    have hbind : foundName buf =
        (findHostName (optionsOf buf.packet)).bind (hostName (optionsOf buf.packet)) := rfl
    rw [hbind, hfind, Option.bind_some, hostName, if_neg hpos]
    exact ⟨_, rfl⟩
  obtain ⟨hlow, hhigh⟩ := (keepsHwaddrBuf_iff buf).mp hkeeps
  have htext : (dhcpHwAddrAnsi (chaddrOf buf.packet) (hlenOf buf.packet)).isSome = true :=
    (isSome_dhcpHwAddr _).mpr ⟨hlow, by rw [sizeofHwaddrBuf]; omega⟩
  obtain ⟨hwaddr, hhwaddr⟩ := Option.isSome_iff_exists.mp htext
  simp [handleOffer, hfound, hhwaddr]

end Uses

/-- All accesses of a call of `handle_offer` stay inside exactly if the hardware type is below ten,
the first message type option, if the search comes to one, has a byte below fifteen, the address has
one to sixteen bytes, and the options come to a host name of at least one byte. Then the entry is
built. -/
theorem offer_inside_iff (w : ℕ) (hw : w = 32 ∨ w = 64) (hex : List UInt8 → List UInt8)
    (buf : OfferArgs) :
    ((offerUses w buf).All (OfferUse.Inside (optionsOf buf.packet)) ↔
      (buf.packet 1).toNat < 10 ∧
      (∀ p < dhcpMaxOptionLen - 4, Reaches (optionsOf buf.packet) dhoDhcpMessageType 0 p →
        optionsOf buf.packet p = dhoDhcpMessageType →
          (optionsOf buf.packet (p + 2)).toNat < 15) ∧
      (1 ≤ hlenOf buf.packet ∧ hlenOf buf.packet ≤ 16) ∧ ShowsHostName (optionsOf buf.packet)) ∧
    ((offerUses w buf).All (OfferUse.Inside (optionsOf buf.packet)) →
      (handleOffer hex buf).query.isSome = true) := by
  rw [inside_offerUses_iff hw]
  refine ⟨?_, fun h => isSome_query hex h.2.1 h.2.2⟩
  rw [foundMsgType_lt_iff, keepsHwaddrBuf_iff, and_comm (b := (buf.packet 1).toNat < 10),
    and_assoc]

/-- The offer of `namedOffer` to a client of 64 bits. -/
theorem offer_inside_iff_named :
    (offerUses 64 namedOffer).All (OfferUse.Inside (optionsOf namedOffer.packet)) := by
  refine (offer_inside_iff 64 (Or.inr rfl) hexString namedOffer).1.mpr
    ⟨by decide, fun p hp hreach hat => ?_, by decide, 3, by decide,
      .skip (by decide) (by decide) (.refl _ _ _), by decide, by decide⟩
  -- the message type is the first option
  have hfirst : dhcpFindFrom (optionsOf namedOffer.packet) (dhcpMaxOptionLen - 4)
      dhoDhcpMessageType 0 0 = some (0 + 2, optionsOf namedOffer.packet (0 + 1)) :=
    dhcpFindFrom_of_eq (by decide) (by decide) (by decide)
  rw [(dhcpFindFrom_eq_some_iff (by decide)).mpr ⟨p, hp, hreach, hat, rfl⟩] at hfirst
  obtain rfl : p = 0 := by
    have := (Prod.mk.inj (Option.some.inj hfirst)).1
    omega
  decide

/-! ## The time -/

namespace TimeString

variable {τ : Type*}

/-- `retBuf` and `bufIdx`, and what each call has returned : a buffer, with the text that
`strftime` left there. -/
structure State (τ : Type*) where
  retBuf : ℕ → τ
  bufIdx : ℕ
  returned : List (ℕ × τ)

/-- The buffers are as they were loaded. -/
def init (retBuf : ℕ → τ) : State τ :=
  ⟨retBuf, 0, []⟩

/-- `getTimeString`, for a time and a format whose text is given. -/
def getTimeString (s : State τ) (text : τ) : State τ :=
  let bufIdx := if s.bufIdx = 15 then 0 else s.bufIdx + 1
  ⟨Function.update s.retBuf bufIdx text, bufIdx, s.returned ++ [(bufIdx, text)]⟩

/-- One call. -/
def step (s : State τ) (text : τ) : Option (State τ) :=
  some (getTimeString s text)

/-- The calls have used the buffers in turn, and the last sixteen texts are there. -/
structure InTurn (s : State τ) : Prop where
  bufIdx : s.bufIdx = s.returned.length % 16
  buffer : ∀ k c, s.returned[k]? = some c → c.1 = (k + 1) % 16
  text : ∀ k c, s.returned[k]? = some c → s.returned.length ≤ k + 16 → s.retBuf c.1 = c.2

theorem inTurn_step {s : State τ} (h : InTurn s) (text : τ) : InTurn (getTimeString s text) := by
  have hidx : (if s.bufIdx = 15 then 0 else s.bufIdx + 1) = (s.returned.length + 1) % 16 := by
    rw [h.bufIdx]
    split <;> omega
  have hold {k : ℕ} {c : ℕ × τ} (hk : (s.returned ++ [((s.returned.length + 1) % 16, text)])[k]? =
      some c) : s.returned[k]? = some c ∨
        k = s.returned.length ∧ c = ((s.returned.length + 1) % 16, text) := by
    rcases Nat.lt_or_ge k s.returned.length with hlt | hge
    · exact Or.inl (by rwa [List.getElem?_append_left hlt] at hk)
    · obtain ⟨hlt, hc⟩ := List.getElem?_eq_some_iff.mp hk
      rw [List.length_append, List.length_singleton] at hlt
      obtain rfl : k = s.returned.length := by omega
      exact Or.inr ⟨rfl, by simpa using hc.symm⟩
  simp only [getTimeString, hidx]
  refine ⟨by simp, fun k c hk => ?_, fun k c hk hlast => ?_⟩
  · rcases hold hk with hk | ⟨rfl, rfl⟩
    · exact h.buffer k c hk
    · rfl
  · rw [List.length_append, List.length_singleton] at hlast
    rcases hold hk with hk | ⟨rfl, rfl⟩
    · have hlt : k < s.returned.length := (List.getElem?_eq_some_iff.mp hk).1
      have hne : c.1 ≠ (s.returned.length + 1) % 16 := by
        rw [h.buffer k c hk]
        omega
      simp only [Function.update_of_ne hne]
      exact h.text k c hk (by omega)
    · simp

/-- Each call returns its text. -/
theorem texts_of_run : ∀ {texts : List τ} {s s' : State τ}, run step s texts = some s' →
    s'.returned.map Prod.snd = s.returned.map Prod.snd ++ texts
  | [], s, s', h => by
    obtain rfl : s = s' := by simpa using h
    simp
  | text :: texts, s, s', h => by
    obtain ⟨m, hm, h⟩ := run_cons_eq_some.mp h
    obtain rfl := Option.some.inj hm
    rw [texts_of_run h]
    simp [getTimeString]

/-- In every sequence of calls the buffers are used in turn, and each of the last sixteen texts is
still in the buffer that was returned with it. -/
theorem time_strings_hold (retBuf : ℕ → τ) {texts : List τ} {s : State τ}
    (hrun : run step (init retBuf) texts = some s) :
    s.returned.map Prod.snd = texts ∧
      ∀ k c, s.returned[k]? = some c → c.1 = (k + 1) % 16 ∧
        (texts.length ≤ k + 16 → s.retBuf c.1 = c.2) := by
  have hturn : InTurn s := run_invariant
    (fun s text s' hi (h : step s text = some s') => Option.some.inj h ▸ inTurn_step hi text)
    ⟨rfl, by simp [init], by simp [init]⟩ hrun
  have htexts : s.returned.map Prod.snd = texts := by simpa [init] using texts_of_run hrun
  refine ⟨htexts, fun k c hk => ⟨hturn.buffer k c hk, fun hlast => hturn.text k c hk ?_⟩⟩
  rw [← htexts, List.length_map] at hlast
  exact hlast

/-- Seventeen calls : the text of the first is replaced, that of the second is still there. -/
theorem time_strings_hold_seventeen : ∃ s : State ℕ,
    run step (init fun _ => 0) (List.range 17) = some s ∧
    ∀ k c, s.returned[k]? = some c → 1 ≤ k → s.retBuf c.1 = c.2 := by
  have hex : ∃ s : State ℕ, run step (init fun _ => 0) (List.range 17) = some s := ⟨_, rfl⟩
  obtain ⟨s, hs⟩ := hex
  refine ⟨s, hs, fun k c hk hpos => ((time_strings_hold _ hs).2 k c hk).2 ?_⟩
  rw [List.length_range]
  omega

end TimeString

end DhcpToolset
