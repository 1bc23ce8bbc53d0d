import DhcpToolset.AclUpdate
import DhcpToolset.CText
import Mathlib.Algebra.Order.Ring.Int
import Mathlib.Tactic.Ring

/-!
# Hardware addresses as text

`dhcp_hw_addr_ansi` and `dhcp_hw_addr_unicode` write two digits and a colon for each byte and put
the `NUL` over the last colon, without a look at the size of the buffer (`hwAddrStores`). If the
stores stay inside it they leave the text of `dhcpHwAddr` (`holdsAt_hwAddrStores`); they do for the
lengths of `storesInside_iff`.

`acl_parse_hwaddr` reads numbers with `strtoul` and steps over whatever follows each. On
the text of the formatter every number is two digits and ends at a colon or at the `NUL`, so the
parser gets the bytes back (`hw_addr_round_trip`).
-/

set_option linter.unusedSectionVars false

open Bytes CText

namespace DhcpToolset

/-- A digit, in lower case. -/
def lowerHex (v : ℕ) : UInt8 :=
  (ofString "0123456789abcdef").getD v 0

/-- The digits of a byte. -/
def hexPair (x : UInt8) : List UInt8 :=
  [lowerHex (x.toNat / 16), lowerHex (x.toNat % 16)]

/-- The text of some bytes. -/
def hexText : List UInt8 → List UInt8
  | [] => []
  | [x] => hexPair x
  | x :: y :: xs => hexPair x ++ 58 :: hexText (y :: xs)

/-! ## The text -/

/-- The text of `dhcp_hw_addr` in a buffer of `bufsize` characters. It stores two digits and a colon
for each byte, and a `NUL` over the last colon. With a store outside the buffer the text is not
known. -/
def dhcpHwAddr (bufsize : ℕ) (addr : ℕ → UInt8) (len : ℕ) : Option (List UInt8) :=
  if len = 0 ∨ bufsize < 3 * len then none
  else
    let text := (List.range len).flatMap fun i =>
      [lowerHex ((addr i).toNat / 16), lowerHex ((addr i).toNat % 16), 58]
    some (text.take (3 * len - 1))

/-- `hwaddr_buf` of the handlers. -/
def sizeofHwaddrBuf : ℕ := 98

/-- `dhcp_hw_addr_ansi` into `hwaddr_buf`. -/
def dhcpHwAddrAnsi : (ℕ → UInt8) → ℕ → Option (List UInt8) :=
  dhcpHwAddr sizeofHwaddrBuf

theorem isSome_dhcpHwAddr {bufsize len : ℕ} (addr : ℕ → UInt8) :
    (dhcpHwAddr bufsize addr len).isSome = true ↔ 1 ≤ len ∧ 3 * len ≤ bufsize := by
  unfold dhcpHwAddr
  split_ifs with h
  · simp only [Option.isSome_none, Bool.false_eq_true, false_iff]
    omega
  · simp only [Option.isSome_some, true_iff]
    omega

/-- The text reads the bytes of the address only. -/
theorem dhcpHwAddr_congr {addr addr' : ℕ → UInt8} {bufsize len : ℕ}
    (h : ∀ i < len, addr i = addr' i) :
    dhcpHwAddr bufsize addr len = dhcpHwAddr bufsize addr' len := by
  unfold dhcpHwAddr
  split_ifs
  · rfl
  · dsimp only
    congr 2
    refine List.flatMap_congr fun i hi => ?_
    rw [h i (List.mem_range.mp hi)]

/-! ## Digits -/

theorem digitValue_lowerHex {v : ℕ} (hv : v < 16) : digitValue 16 (lowerHex v) = some v := by
  have h : ∀ v : Fin 16, digitValue 16 (lowerHex v) = some v.val := by decide
  exact h ⟨v, hv⟩

/-- A digit is no white space, sign, mark of base 16, separator or end. -/
theorem lowerHex_plain {v : ℕ} (hv : v < 16) : isSpace (lowerHex v) = false ∧
    lowerHex v ∉ ([43, 45, 88, 120, 58, 0] : List UInt8) := by
  have h : ∀ v : Fin 16, isSpace (lowerHex v) = false ∧
    lowerHex v ∉ ([43, 45, 88, 120, 58, 0] : List UInt8) := by decide
  exact h ⟨v, hv⟩

/-! ## The stores of the formatter -/

/-- The characters of a byte. -/
def hwAddrChars (x : UInt8) : List UInt8 :=
  [lowerHex (x.toNat / 16), lowerHex (x.toNat % 16), 58]

/-- The loop of the formatter : elements of the buffer, with the characters stored there. -/
def hwAddrLoop (addr : ℕ → UInt8) : ℕ → List (ℤ × UInt8)
  | 0 => []
  | i + 1 => hwAddrLoop addr i ++
    [((i : ℤ) * 3 + 0, lowerHex ((addr i).toNat / 16)),
      ((i : ℤ) * 3 + 1, lowerHex ((addr i).toNat % 16)), ((i : ℤ) * 3 + 2, 58)]

/-- `dhcp_hw_addr_ansi` and `dhcp_hw_addr_unicode`. The indices are integers : for a length of 0 the
`NUL` is stored in front of the buffer. -/
def hwAddrStores (addr : ℕ → UInt8) (len : ℤ) : List (ℤ × UInt8) :=
  hwAddrLoop addr len.toNat ++ [(len * 3 - 1, 0)]

/-- A buffer after some stores. -/
def putStores (buf : ℤ → UInt8) (ss : List (ℤ × UInt8)) : ℤ → UInt8 :=
  ss.foldl (fun b s => Function.update b s.1 s.2) buf

/-- Elements of `elem` bytes are stored inside a buffer of `bytes` bytes. -/
def StoresInside (bytes elem : ℕ) (ss : List (ℤ × UInt8)) : Prop :=
  ∀ s ∈ ss, 0 ≤ s.1 * elem ∧ s.1 * elem + elem ≤ bytes

section Stores

variable {addr : ℕ → UInt8}

theorem mem_hwAddrLoop {n : ℕ} {s : ℤ × UInt8} (h : s ∈ hwAddrLoop addr n) :
    0 ≤ s.1 ∧ s.1 < 3 * n := by
  induction n with
  | zero => exact absurd h List.not_mem_nil
  | succ n ih =>
    rcases List.mem_append.mp h with h | h
    · have := ih h
      omega
    · simp only [List.mem_cons, List.not_mem_nil, or_false] at h
      rcases h with rfl | rfl | rfl <;> dsimp only <;> omega

/-- The stores stay inside a buffer for a length of at least 1 whose text fits. -/
theorem storesInside_iff {bytes elem : ℕ} (helem : 1 ≤ elem) {len : ℤ} :
    StoresInside bytes elem (hwAddrStores addr len) ↔ 1 ≤ len ∧ 3 * len * elem ≤ bytes := by
  constructor
  · intro h
    have hlast := h (len * 3 - 1, 0) (List.mem_append_right _ List.mem_cons_self)
    obtain ⟨hlow, hhigh⟩ :
        0 ≤ (len * 3 - 1) * (elem : ℤ) ∧ (len * 3 - 1) * elem + elem ≤ bytes := hlast
    have hpos : 0 ≤ len * 3 - 1 := by
      by_contra hneg
      have : (len * 3 - 1) * (elem : ℤ) < 0 := mul_neg_of_neg_of_pos (by omega) (by omega)
      omega
    refine ⟨by omega, ?_⟩
    calc 3 * len * elem = (len * 3 - 1) * elem + elem := by ring
      _ ≤ bytes := hhigh
  · rintro ⟨hlen, hfits⟩ s hs
    have hrange : 0 ≤ s.1 ∧ s.1 + 1 ≤ 3 * len := by
      rcases List.mem_append.mp hs with hs | hs
      · have := mem_hwAddrLoop hs
        omega
      · rw [List.mem_singleton.mp hs]
        dsimp only
        omega
    refine ⟨mul_nonneg hrange.1 (by omega), ?_⟩
    calc s.1 * elem + elem = (s.1 + 1) * elem := by ring
      _ ≤ 3 * len * elem := mul_le_mul_of_nonneg_right hrange.2 (by omega)
      _ ≤ bytes := hfits

theorem length_flatMap_hwAddrChars (n : ℕ) :
    ((List.range n).flatMap fun i => hwAddrChars (addr i)).length = 3 * n := by
  simp [List.length_flatMap, hwAddrChars, Nat.mul_comm]

/-- The loop leaves the characters of the bytes. -/
theorem holdsAt_hwAddrLoop (buf : ℤ → UInt8) : ∀ n : ℕ,
    HoldsAt (fun k => putStores buf (hwAddrLoop addr n) k) 0
      ((List.range n).flatMap fun i => hwAddrChars (addr i))
  | 0 => holdsAt_nil
  | n + 1 => by
    have ih := holdsAt_hwAddrLoop buf n
    rw [List.range_succ, List.flatMap_append, holdsAt_append, length_flatMap_hwAddrChars]
    refine ⟨fun k hk => ?_, ?_⟩
    · rw [← ih k hk]
      rw [length_flatMap_hwAddrChars] at hk
      simp only [putStores, hwAddrLoop, List.foldl_append, List.foldl_cons, List.foldl_nil]
      rw [Function.update_of_ne (by omega), Function.update_of_ne (by omega),
        Function.update_of_ne (by omega)]
    · simp only [List.flatMap_singleton, hwAddrChars, holdsAt_cons, holdsAt_nil, and_true,
        putStores, hwAddrLoop, List.foldl_append, List.foldl_cons, List.foldl_nil]
      refine ⟨?_, ?_, ?_⟩
      · rw [Function.update_of_ne (by omega), Function.update_of_ne (by omega),
          show ((0 + 3 * n : ℕ) : ℤ) = n * 3 + 0 by omega, Function.update_self]
      · rw [Function.update_of_ne (by omega),
          show ((0 + 3 * n + 1 : ℕ) : ℤ) = n * 3 + 1 by omega, Function.update_self]
      · rw [show ((0 + 3 * n + 1 + 1 : ℕ) : ℤ) = n * 3 + 2 by omega, Function.update_self]

theorem zero_notMem_hwAddrChars (x : UInt8) : 0 ∉ hwAddrChars x := by
  have hx := x.toNat_lt
  have hhigh := (lowerHex_plain (show x.toNat / 16 < 16 by omega)).2
  have hlow := (lowerHex_plain (show x.toNat % 16 < 16 by omega)).2
  simp only [List.mem_cons, not_or] at hhigh hlow
  simp only [hwAddrChars, List.mem_cons, not_or]
  exact ⟨Ne.symm hhigh.2.2.2.2.2.1, Ne.symm hlow.2.2.2.2.2.1, by decide, List.not_mem_nil⟩

/-- Stores that stay inside the buffer leave the text, up to its `NUL`. -/
theorem holdsAt_hwAddrStores {bufsize len : ℕ} {text : List UInt8}
    (h : dhcpHwAddr bufsize addr len = some text) (buf : ℤ → UInt8) :
    StoresInside bufsize 1 (hwAddrStores addr len) ∧ 0 ∉ text ∧
      HoldsAt (fun k => putStores buf (hwAddrStores addr len) k) 0 (text ++ [0]) := by
  obtain ⟨hlen, hfits⟩ : 1 ≤ len ∧ 3 * len ≤ bufsize :=
    (isSome_dhcpHwAddr addr).mp (Option.isSome_iff_exists.mpr ⟨text, h⟩)
  have hchars : ((List.range len).flatMap fun i => hwAddrChars (addr i)).length = 3 * len :=
    length_flatMap_hwAddrChars len
  obtain rfl :
      ((List.range len).flatMap fun i => hwAddrChars (addr i)).take (3 * len - 1) = text := by
    rw [dhcpHwAddr, if_neg (by omega)] at h
    exact Option.some.inj h
  have hloop : HoldsAt (fun k => putStores buf (hwAddrLoop addr len) k) 0 _ :=
    holdsAt_hwAddrLoop buf len
  rw [← List.take_append_drop (3 * len - 1) (List.flatMap _ _), holdsAt_append] at hloop
  refine ⟨(storesInside_iff (by decide)).mpr (by omega), fun h0 => ?_, ?_⟩
  · obtain ⟨i, -, hi⟩ := List.mem_flatMap.mp (List.mem_of_mem_take h0)
    exact zero_notMem_hwAddrChars (addr i) hi
  · have hlast : (len : ℤ) * 3 - 1 = (3 * len - 1 : ℕ) := by omega
    simp only [hwAddrStores, Int.toNat_natCast, putStores, List.foldl_append, List.foldl_cons,
      List.foldl_nil, hlast, holdsAt_append, holdsAt_cons, holdsAt_nil, and_true]
    refine ⟨fun k hk => ?_, ?_⟩
    · rw [← hloop.1 k hk]
      rw [List.length_take] at hk
      exact Function.update_of_ne (by omega) _ _
    · rw [List.length_take, hchars, Nat.min_eq_left (by omega), Nat.zero_add, Function.update_self]

end Stores

/-! ## The text of the formatter -/

section Formatter

theorem flatMap_range_getD {β : Type*} (f : UInt8 → List β) (b : List UInt8) :
    (List.range b.length).flatMap (fun i => f (b.getD i 0)) = b.flatMap f := by
  have hmap : (List.range b.length).map (fun i => b.getD i 0) = b := by
    refine List.ext_getElem (by simp) fun k _ hk => ?_
    simp [hk]
  conv_rhs => rw [← hmap, List.flatMap_map]

theorem flatMap_hexPair : ∀ {b : List UInt8}, b ≠ [] →
    b.flatMap (fun x => hexPair x ++ [58]) = hexText b ++ [58]
  | [], h => absurd rfl h
  | [x], _ => by simp [hexText]
  | x :: y :: xs, _ => by
    have ih : (y :: xs).flatMap (fun x => hexPair x ++ [58]) = _ :=
      flatMap_hexPair (List.cons_ne_nil y xs)
    rw [List.flatMap_cons, ih, hexText, List.append_assoc, List.append_assoc]
    rfl

theorem length_hexText {b : List UInt8} (hb : b ≠ []) : (hexText b).length + 1 = 3 * b.length := by
  have hlen := congrArg List.length (flatMap_hexPair hb)
  rw [List.length_append, List.length_singleton, List.length_flatMap] at hlen
  rw [← hlen]
  simp [hexPair, Nat.mul_comm]

/-- In a buffer that is large enough the formatter leaves the text of the bytes. -/
theorem dhcpHwAddr_eq {b : List UInt8} (hb : b ≠ []) {bufsize : ℕ}
    (hsize : 3 * b.length ≤ bufsize) :
    dhcpHwAddr bufsize (fun i => b.getD i 0) b.length = some (hexText b) := by
  have hpos : b.length ≠ 0 := fun h => hb (List.length_eq_zero_iff.mp h)
  have hlen := length_hexText hb
  have htext : (List.range b.length).flatMap (fun i =>
      [lowerHex ((b.getD i 0).toNat / 16), lowerHex ((b.getD i 0).toNat % 16), 58]) =
        hexText b ++ [58] :=
    (flatMap_range_getD (fun x => hexPair x ++ [58]) b).trans (flatMap_hexPair hb)
  rw [dhcpHwAddr, if_neg (by omega), htext]
  exact congrArg some (List.take_left' (by omega))

end Formatter

/-! ## The parser -/

section Parser

variable {str rest : List UInt8} {off a b : ℕ}

/-- A number of two digits in front of a colon or the end. -/
theorem strtoul_pair (hstr : str.drop off = lowerHex a :: lowerHex b :: rest) (ha : a < 16)
    (hb : b < 16) (hrest : rest = [] ∨ ∃ r, rest = 58 :: r) :
    strtoul str off 16 = (UInt32.ofNat (16 * a + b), off + 2) := by
  obtain ⟨hspace, hplain⟩ := lowerHex_plain ha
  obtain ⟨-, hplain'⟩ := lowerHex_plain hb
  simp only [List.mem_cons, not_or] at hplain hplain'
  have hmark : hexMark 16 (str.drop off) = 0 := by
    rw [hstr]
    rcases hrest with rfl | ⟨r, rfl⟩
    · rfl
    · simp [hexMark, hplain']
  have hdigits : digits 16 (str.drop off) = [a, b] := by
    rw [hstr]
    rcases hrest with rfl | ⟨r, rfl⟩
    · simp [digits, digitValue_lowerHex ha, digitValue_lowerHex hb]
    · have hcolon : digitValue 16 58 = none := by decide
      simp [digits, digitValue_lowerHex ha, digitValue_lowerHex hb, hcolon]
  have hstart : charAt str off = lowerHex a := by
    rw [charAt_eq_headD, hstr, List.headD_cons]
  have hspaces : ((str.drop off).takeWhile isSpace).length = 0 := by
    simp [hstr, hspace]
  have hsign : signLength (str.drop off) = 0 := by
    simp [hstr, signLength, hplain]
  have hsubject : subject 16 str off = ⟨false, [a, b], off + 2⟩ := by
    simp [subject, hspaces, hsign, hmark, hdigits, hstart, hplain]
  have hvalue : value 16 [a, b] = 16 * a + b := by
    simp only [value, List.foldl_cons, List.foldl_nil]
    omega
  rw [strtoul, hsubject]
  simp only [hvalue]
  rw [if_neg (by simp), if_neg (by omega)]
  rfl

theorem toUInt8_pair (x : UInt8) :
    (UInt32.ofNat (16 * (x.toNat / 16) + x.toNat % 16)).toUInt8 = x := by
  rw [Nat.div_add_mod, ← UInt8.toNat_inj]
  simp

/-- The loop of the parser on the text of some bytes. -/
theorem aclParseFrom_hexText : ∀ (n : ℕ) {b : List UInt8} (idx endptr : ℕ) (buf : ℕ → UInt8),
    b ≠ [] → str.drop endptr = hexText b →
      aclParseFrom str n idx endptr buf = putBytes buf idx (fun i => b.getD i 0) (min b.length n)
  | 0, b, idx, endptr, buf, _, _ => by
    rw [aclParseFrom, Nat.min_zero, putBytes_zero]
  | n + 1, [], _, _, _, hb, _ => absurd rfl hb
  | n + 1, [x], idx, endptr, buf, _, hstr => by
    have hx := x.toNat_lt
    have hend : charAt str (endptr + 2) = 0 := by
      rw [charAt_eq_headD, ← List.drop_drop, hstr]
      rfl
    rw [aclParseFrom, strtoul_pair hstr (by omega) (by omega) (Or.inl rfl)]
    simp only [hend, if_true, toUInt8_pair]
    rw [show min [x].length (n + 1) = 0 + 1 by simp, putBytes_succ, putBytes_zero]
    rfl
  | n + 1, x :: y :: xs, idx, endptr, buf, _, hstr => by
    have hx := x.toNat_lt
    have hcolon : charAt str (endptr + 2) = 58 := by
      rw [charAt_eq_headD, ← List.drop_drop, hstr]
      rfl
    have hrest : str.drop (endptr + 2 + 1) = hexText (y :: xs) := by
      rw [← List.drop_drop, ← List.drop_drop, hstr]
      rfl
    rw [aclParseFrom, strtoul_pair hstr (by omega) (by omega) (Or.inr ⟨_, rfl⟩)]
    simp only [hcolon, toUInt8_pair]
    have hmin : min (x :: y :: xs).length (n + 1) = min (y :: xs).length n + 1 :=
      Nat.succ_min_succ _ _
    rw [if_neg (by decide), aclParseFrom_hexText n (idx + 1) _ _ (List.cons_ne_nil y xs) hrest,
      hmin, putBytes_succ]
    rfl

end Parser

/-- The parser stores the bytes whose text the formatter has written, up to the size of its buffer,
and leaves the rest of the buffer as it was. -/
theorem hw_addr_round_trip (b : List UInt8) (hb : b ≠ []) (textsize : ℕ)
    (htext : 3 * b.length ≤ textsize) (bufsize : ℕ) (buf : ℕ → UInt8) :
    ∃ text, dhcpHwAddr textsize (fun i => b.getD i 0) b.length = some text ∧
      (∀ k < min b.length bufsize, b[k]? = some (aclParseHwaddr buf bufsize text k)) ∧
      ∀ k, min b.length bufsize ≤ k → aclParseHwaddr buf bufsize text k = buf k := by
  refine ⟨hexText b, dhcpHwAddr_eq hb htext, fun k hk => ?_, fun k hk => ?_⟩
  · rw [aclParseHwaddr, aclParseFrom_hexText bufsize 0 0 buf hb List.drop_zero,
      ← Nat.zero_add k, putBytes_add hk]
    have hlt : k < b.length := by omega
    simp [hlt]
  · rw [aclParseHwaddr, aclParseFrom_hexText bufsize 0 0 buf hb List.drop_zero,
      putBytes_of_disjoint (by omega)]

theorem hw_addr_round_trip_three :
    ∃ text, dhcpHwAddr 98 (fun i => [2, 17, 34].getD i 0) 3 = some text ∧
      (∀ k < 2, [2, 17, 34][k]? = some (aclParseHwaddr (fun _ => 255) 2 text k)) ∧
      ∀ k, 2 ≤ k → aclParseHwaddr (fun _ => 255) 2 text k = 255 :=
  hw_addr_round_trip [2, 17, 34] (by decide) 98 (by decide) 2 fun _ => 255

end DhcpToolset
