import DhcpToolset.AclUpdate
import DhcpToolset.Traced

/-!
# Any text as a hardware address

`acl_parse_hwaddr` moves its cursor by `strtoul`, which may convert nothing, and by one character
that it takes for a colon. It tests for the `NUL` between the two, so the step never passes it :
the cursor is at or before the `NUL` whenever `strtoul` is called (`parse_hwaddr_safe`). A call
stores one byte for each number, from the start of the buffer on, and ends at the `NUL` or at the
end of the buffer.
-/

set_option linter.unusedSectionVars false

open CText Traced

namespace DhcpToolset

/-- What a turn of the loop does : it starts `strtoul` at an offset of the text, stores a byte of
the buffer, and tests the character at an offset. -/
inductive ParseUse where
  | strtoul (off : ℕ)
  | store (idx : ℕ)
  | test (off : ℕ)
  deriving DecidableEq

/-- The offset of the text that is used. -/
def ParseUse.offset : ParseUse → Option ℕ
  | strtoul off | test off => some off
  | store _ => none

/-- The byte of the buffer that is stored. -/
def ParseUse.stored : ParseUse → Option ℕ
  | store idx => some idx
  | strtoul _ | test _ => none

/-- The loop of `acl_parse_hwaddr` with what it uses, for at most `fuel` tests of its condition. The
value is `none` if they are not enough. -/
def aclParseLoop (str : List UInt8) (bufsize : ℕ) :
    (fuel idx endptr : ℕ) → (ℕ → UInt8) → Traced ParseUse (Option (ℕ → UInt8))
  | 0, _, _, _ => pure none
  | fuel + 1, idx, endptr, buf =>
    if idx < bufsize then do
      let v := strtoul str endptr 16
      touch [.strtoul endptr, .store idx, .test v.2]
      let buf := Function.update buf idx v.1.toUInt8
      if charAt str v.2 = 0 then pure (some buf)
      else aclParseLoop str bufsize fuel (idx + 1) (v.2 + 1) buf
    else pure (some buf)

/-- The bytes of the buffer that a call stores, in order. -/
def storesOf (t : Traced ParseUse (Option (ℕ → UInt8))) : List ℕ :=
  t.uses.filterMap ParseUse.stored

section Loop

variable {str : List UInt8} {bufsize : ℕ}

/-- The cursor is in the text at the start of every turn, and so are the offsets used in it. -/
theorem aclParseLoop_offset_le : ∀ (fuel idx endptr : ℕ) (buf : ℕ → UInt8), endptr ≤ str.length →
    (aclParseLoop str bufsize fuel idx endptr buf).All fun u => ∀ off ∈ u.offset, off ≤ str.length
  | 0, _, _, _, _ => by simp [aclParseLoop]
  | fuel + 1, idx, endptr, buf, hend => by
    have hstop := strtoul_le 16 hend
    rw [aclParseLoop, all_ite]
    split_ifs with hidx
    · refine (all_bind _ _).mpr ⟨by simp [ParseUse.offset, hend, hstop], ?_⟩
      rw [all_ite]
      split_ifs with hnul
      · simp
      · exact aclParseLoop_offset_le fuel _ _ _ (lt_length_of_charAt hnul)
    · simp

/-- With `n` bytes of the buffer left, the loop ends within `n + 1` tests and stores the next `m`
bytes, at least one if there is one left. -/
theorem aclParseLoop_stores (str : List UInt8) :
    ∀ (n idx endptr : ℕ) (buf : ℕ → UInt8), idx + n = bufsize → ∃ m, (0 < n → 0 < m) ∧ m ≤ n ∧
      (∀ k, idx + m ≤ k → aclParseFrom str n idx endptr buf k = buf k) ∧
      ∀ fuel, n < fuel →
        (aclParseLoop str bufsize fuel idx endptr buf).val =
            some (aclParseFrom str n idx endptr buf) ∧
          storesOf (aclParseLoop str bufsize fuel idx endptr buf) = List.range' idx m
  | 0, idx, endptr, buf, hidx => by
    refine ⟨0, id, le_rfl, fun _ _ => rfl, fun fuel hfuel => ?_⟩
    obtain ⟨fuel, rfl⟩ := Nat.exists_eq_succ_of_ne_zero (Nat.ne_of_gt hfuel)
    have hnot : ¬idx < bufsize := by omega
    simp [aclParseLoop, aclParseFrom, hnot, storesOf]
  | n + 1, idx, endptr, buf, hidx => by
    have hlt : idx < bufsize := by omega
    by_cases hnul : charAt str (strtoul str endptr 16).2 = 0
    · refine ⟨1, fun _ => Nat.one_pos, Nat.le_add_left 1 n, fun k hk => ?_, fun fuel hfuel => ?_⟩
      · rw [aclParseFrom]
        simp only [hnul, if_true]
        exact Function.update_of_ne (by omega) _ _
      · obtain ⟨fuel, rfl⟩ := Nat.exists_eq_succ_of_ne_zero (Nat.ne_of_gt (Nat.zero_lt_of_lt hfuel))
        simp [aclParseLoop, aclParseFrom, hlt, hnul, storesOf, List.filterMap_cons, ParseUse.stored]
    · obtain ⟨m, -, hm, hframe, hloop⟩ := aclParseLoop_stores str n (idx + 1)
        ((strtoul str endptr 16).2 + 1)
        (Function.update buf idx (strtoul str endptr 16).1.toUInt8) (by omega)
      refine ⟨m + 1, fun _ => Nat.succ_pos m, Nat.succ_le_succ hm, fun k hk => ?_,
        fun fuel hfuel => ?_⟩
      · rw [aclParseFrom]
        simp only [hnul, if_false]
        rw [hframe k (by omega), Function.update_of_ne (by omega)]
      · obtain ⟨fuel, rfl⟩ := Nat.exists_eq_succ_of_ne_zero (Nat.ne_of_gt (Nat.zero_lt_of_lt hfuel))
        obtain ⟨hval, hstores⟩ := hloop fuel (by omega)
        rw [storesOf] at hstores
        constructor
        · simp [aclParseLoop, aclParseFrom, hlt, hnul, hval]
        · simp [aclParseLoop, hlt, hnul, storesOf, List.filterMap_cons, ParseUse.stored, hstores,
            List.range'_succ]

end Loop

/-- `acl_parse_hwaddr` is safe on any text : neither `strtoul` nor the test of the loop starts
behind the `NUL`, and the call ends after it has stored the first bytes of the buffer, between 1 and
`bufsize` of them, and nothing else. -/
theorem parse_hwaddr_safe (str : List UInt8) (bufsize : ℕ) (hsize : 1 ≤ bufsize)
    (buf : ℕ → UInt8) :
    (∀ fuel, (aclParseLoop str bufsize fuel 0 0 buf).All
      fun u => ∀ off ∈ u.offset, off ≤ str.length) ∧
    ∃ n, 1 ≤ n ∧ n ≤ bufsize ∧
      (∀ fuel, bufsize < fuel →
        (aclParseLoop str bufsize fuel 0 0 buf).val = some (aclParseHwaddr buf bufsize str) ∧
          storesOf (aclParseLoop str bufsize fuel 0 0 buf) = List.range n) ∧
      ∀ k, n ≤ k → aclParseHwaddr buf bufsize str k = buf k := by
  refine ⟨fun fuel => aclParseLoop_offset_le fuel 0 0 buf (Nat.zero_le _), ?_⟩
  obtain ⟨n, hpos, hle, hframe, hloop⟩ := aclParseLoop_stores str bufsize 0 0 buf
    (Nat.zero_add bufsize)
  refine ⟨n, hpos hsize, hle, fun fuel hfuel => ?_, fun k hk => hframe k (by omega)⟩
  rw [List.range_eq_range']
  exact hloop fuel hfuel

/-- A sign without a number, a doubled separator, a number that is too long, and a mark of base 16
without a digit. -/
theorem parse_hwaddr_safe_odd : ∃ n, 1 ≤ n ∧ n ≤ 16 ∧
    (∀ fuel, 16 < fuel →
      (aclParseLoop (ofString "+:: 123456789ab-0x") 16 fuel 0 0 fun _ => 255).val =
          some (aclParseHwaddr (fun _ => 255) 16 (ofString "+:: 123456789ab-0x")) ∧
        storesOf (aclParseLoop (ofString "+:: 123456789ab-0x") 16 fuel 0 0 fun _ => 255) =
          List.range n) ∧
    ∀ k, n ≤ k → aclParseHwaddr (fun _ => 255) 16 (ofString "+:: 123456789ab-0x") k = 255 :=
  (parse_hwaddr_safe (ofString "+:: 123456789ab-0x") 16 (by decide) fun _ => 255).2

end DhcpToolset
