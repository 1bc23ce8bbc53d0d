import DhcpToolset.CText

/-!
# Literals of a SQL text

Readers for the front of a text : a fixed text, a quoted text, a hexadecimal literal and a decimal
one. Each gives what it read and the rest, and each has a law for a text that starts with such a
literal. A hexadecimal literal needs a digit; where a string is asked for it stands for the bytes
of its pairs of digits.
-/

set_option linter.unusedSectionVars false

open CText

namespace SqlLiteral

variable {ds : List ℕ} {cs t s : List UInt8}

/-- A fixed text. -/
def readText (t s : List UInt8) : Option (List UInt8) :=
  if t.isPrefixOf s then some (s.drop t.length) else none

@[simp] theorem readText_append (t s : List UInt8) : readText t (t ++ s) = some s := by
  simp [readText]

/-- A text in single quotes, without escapes. -/
def readQuoted : List UInt8 → Option (List UInt8 × List UInt8)
  | 39 :: s =>
    match s.dropWhile (· != 39) with
    | _ :: rest => some (s.takeWhile (· != 39), rest)
    | [] => none
  | _ => none

theorem readQuoted_append (h : 39 ∉ t) : readQuoted (39 :: (t ++ 39 :: s)) = some (t, s) := by
  have hne : ∀ c ∈ t, (c != 39) = true := fun c hc => by
    simpa using fun heq : c = 39 => h (heq ▸ hc)
  have hdrop : (t ++ 39 :: s).dropWhile (· != 39) = 39 :: s := by
    rw [List.dropWhile_append_of_pos hne]
    rfl
  have htake : (t ++ 39 :: s).takeWhile (· != 39) = t := by
    rw [List.takeWhile_append_of_pos hne]
    simp
  simp [readQuoted, hdrop, htake]

/-- A hexadecimal literal, with its digits. -/
def readHex : List UInt8 → Option (List ℕ × List UInt8)
  | 48 :: 120 :: s =>
    let ds := digits 16 s
    if ds.isEmpty then none else some (ds, s.drop ds.length)
  | _ => none

theorem readHex_append (h : Spells 16 ds cs) (hs : ∀ c ∈ s.head?, digitValue 16 c = none) :
    readHex (48 :: 120 :: (cs ++ s)) = if ds.isEmpty then none else some (ds, s) := by
  simp only [readHex, h.digits_append hs]
  rw [← h.length_eq, List.drop_left]

/-- A decimal literal. -/
def readDecimal (s : List UInt8) : Option (ℤ × List UInt8) :=
  let neg := s.head? = some 45
  let s := if neg then s.drop 1 else s
  let ds := digits 10 s
  if ds.isEmpty then none
  else some (if neg then -(value 10 ds : ℤ) else value 10 ds, s.drop ds.length)

/-- The text of an integer, in front of another character. -/
theorem readDecimal_append (a : ℤ) (hs : ∀ c ∈ s.head?, digitValue 10 c = none) :
    readDecimal (ofString (toString a) ++ s) = some (a, s) := by
  rw [ofString_toString]
  split_ifs with ha
  · obtain ⟨ds, hne, hds, hval⟩ := spells_natText a.toNat
    have hdigits := hds.digits_append hs
    have hsign : (natText a.toNat ++ s).head? ≠ some 45 := by
      cases htext : natText a.toNat with
      | nil =>
        rw [htext] at hds
        exact absurd (List.length_eq_zero_iff.mp hds.length_eq.symm) hne
      | cons c cs =>
        have hc : (digitValue 10 c).isSome = true := hds.isSome_of_mem (by rw [htext]; simp)
        intro h45
        obtain rfl : c = 45 := by simpa using h45
        exact absurd hc (by decide)
    simp only [readDecimal, hsign, if_false, hdigits, List.isEmpty_iff, hne, hval, ← hds.length_eq,
      List.drop_left, Int.toNat_of_nonneg ha]
  · obtain ⟨ds, hne, hds, hval⟩ := spells_natText (-a).toNat
    have hdigits := hds.digits_append hs
    simp only [readDecimal, List.cons_append, List.head?_cons, if_true, List.drop_succ_cons,
      List.drop_zero, hdigits, List.isEmpty_iff, hne, if_false, hval, ← hds.length_eq,
      List.drop_left]
    rw [Int.toNat_of_nonneg (by omega), Int.neg_neg]

/-- The byte of two characters. -/
def hexByte (h l : UInt8) : Option UInt8 := do
  let h ← digitValue 16 h
  let l ← digitValue 16 l
  some (UInt8.ofNat (16 * h + l))

/-- A text of bytes with colons between them. -/
def colonBytes : List UInt8 → Option (List UInt8)
  | [h, l] => (hexByte h l).map fun b => [b]
  | h :: l :: 58 :: s => do
    let b ← hexByte h l
    let bs ← colonBytes s
    some (b :: bs)
  | _ => none

/-- The bytes of pairs of digits. -/
def pairBytes : List ℕ → Option (List UInt8)
  | [] => some []
  | h :: l :: ds => (pairBytes ds).map fun bs => UInt8.ofNat (16 * h + l) :: bs
  | [_] => none

/-- The digits of some bytes. -/
def pairs (bs : List UInt8) : List ℕ :=
  bs.flatMap fun b => [b.toNat / 16, b.toNat % 16]

theorem pairBytes_pairs (bs : List UInt8) : pairBytes (pairs bs) = some bs := by
  induction bs with
  | nil => rfl
  | cons b bs ih =>
    have hb : UInt8.ofNat (16 * (b.toNat / 16) + b.toNat % 16) = b := by
      rw [Nat.div_add_mod, UInt8.ofNat_toNat]
    rw [pairs, List.flatMap_cons, ← pairs]
    simp [pairBytes, ih, hb]

end SqlLiteral
