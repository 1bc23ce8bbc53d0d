import Mathlib.Algebra.Group.Int.Defs
import Mathlib.Algebra.Group.Nat.Defs
import Mathlib.Data.Fintype.Basic
import Mathlib.Data.List.FinRange
import Mathlib.Order.PiLex

/-!
# Byte arrays

Arrays of a fixed number of bytes : their order as byte strings, with the loop that
compares them at the first difference, and the little-endian words in them. Memory is a
function from addresses to bytes, in which words and ranges of bytes are stored.
-/

set_option linter.unusedSectionVars false

namespace Bytes

variable {n : ℕ}

/-! ## The order of byte strings -/

/-- An array as a byte string, ordered by its first difference. -/
def byteString (a : Fin n → UInt8) : Lex (Fin n → ℕ) :=
  toLex fun i => (a i).toNat

theorem byteString_injective : Function.Injective (byteString : (Fin n → UInt8) → _) := by
  intro a b h
  funext i
  exact UInt8.toNat_inj.mp (congrFun (congrArg ofLex h) i)

theorem byteString_lt_of {a b : Fin n → UInt8} {i : Fin n} (heq : ∀ j < i, a j = b j)
    (hlt : (a i).toNat < (b i).toNat) : byteString a < byteString b :=
  ⟨i, fun j hj => congrArg UInt8.toNat (heq j hj), hlt⟩

/-- The loop over two arrays that returns the difference of the first bytes that differ. -/
def firstDiff (a b : Fin n → UInt8) : Option ℤ :=
  ((List.finRange n).find? fun i => a i != b i).map fun i => (a i).toNat - (b i).toNat

/-- The loop runs to its end on equal arrays only. -/
theorem firstDiff_eq_none {a b : Fin n → UInt8} : firstDiff a b = none ↔ a = b := by
  simp [firstDiff, funext_iff]

/-- It returns a number whose sign is the order of the byte strings. -/
theorem firstDiff_eq_some {a b : Fin n → UInt8} {d : ℤ} (h : firstDiff a b = some d) :
    a ≠ b ∧ d ≠ 0 ∧ (d < 0 ↔ byteString a < byteString b) := by
  have hab : a ≠ b := fun hab => by simp [firstDiff_eq_none.mpr hab] at h
  obtain ⟨i, hi, rfl⟩ := Option.map_eq_some_iff.mp h
  obtain ⟨hne, as, bs, hsplit, has⟩ := List.find?_eq_some_iff_append.mp hi
  -- the indices below `i` stand before it, where the arrays agree
  have heq : ∀ j < i, a j = b j := by
    intro j hj
    have hmem : j ∈ as ++ i :: bs := hsplit ▸ List.mem_finRange j
    have hlt : (as ++ i :: bs).Pairwise (· < ·) := hsplit ▸ List.pairwise_lt_finRange n
    rcases List.mem_append.mp hmem with hj' | hj'
    · simpa using has j hj'
    · rcases List.mem_cons.mp hj' with rfl | hj'
      · exact absurd hj (lt_irrefl _)
      · have := (List.pairwise_cons.mp (List.pairwise_append.mp hlt).2.1).1 j hj'
        exact absurd hj (not_lt.mpr this.le)
  have hne' : (a i).toNat ≠ (b i).toNat := fun h => by
    simp [UInt8.toNat_inj.mp h] at hne
  rcases Nat.lt_or_gt_of_ne hne' with hlt | hgt
  · exact ⟨hab, by omega, iff_of_true (by omega) (byteString_lt_of heq hlt)⟩
  · have hba := byteString_lt_of (fun j hj => (heq j hj).symm) hgt
    exact ⟨hab, by omega, iff_of_false (by omega) (lt_asymm hba)⟩

/-! ## Little-endian words -/

/-- The byte `k` of a 32-bit word. -/
def wordByte (w : UInt32) (k : ℕ) : UInt8 :=
  UInt8.ofNat (w.toNat / 256 ^ k)

/-- The word of four bytes, least significant first. -/
def word (b : ℕ → UInt8) : UInt32 :=
  UInt32.ofNat ((b 0).toNat + 256 * (b 1).toNat + 65536 * (b 2).toNat + 16777216 * (b 3).toNat)

theorem word_congr {b b' : ℕ → UInt8} (h : ∀ k < 4, b k = b' k) : word b = word b' := by
  simp only [word, h 0 (by omega), h 1 (by omega), h 2 (by omega), h 3 (by omega)]

theorem word_wordByte (w : UInt32) : word (wordByte w) = w := by
  have hw := w.toNat_lt
  rw [← UInt32.toNat_inj, word, UInt32.toNat_ofNat']
  simp only [wordByte, UInt8.toNat_ofNat']
  omega

/-- A word as a signed number. -/
theorem toInt_toInt32 (w : UInt32) :
    w.toInt32.toInt = if w.toNat < 2 ^ 31 then (w.toNat : ℤ) else w.toNat - 2 ^ 32 := by
  rw [Int32.toInt, UInt32.toBitVec_toInt32, BitVec.toInt_eq_toNat_cond, UInt32.toNat_toBitVec]
  split_ifs <;> omega

/-! ## Memory -/

section Memory

variable {m m' src : ℕ → UInt8} {off off' n x : ℕ} {w : UInt32}

/-- The word at an address. -/
def wordAt (m : ℕ → UInt8) (off : ℕ) : UInt32 :=
  word fun k => m (off + k)

/-- A word stored at an address. -/
def putWord (m : ℕ → UInt8) (off : ℕ) (w : UInt32) : ℕ → UInt8 :=
  fun x => if off ≤ x ∧ x < off + 4 then wordByte w (x - off) else m x

/-- `memcpy` of `n` bytes to an address. -/
def putBytes (m : ℕ → UInt8) (off : ℕ) (src : ℕ → UInt8) (n : ℕ) : ℕ → UInt8 :=
  fun x => if off ≤ x ∧ x < off + n then src (x - off) else m x

theorem wordAt_congr (h : ∀ k < 4, m (off + k) = m' (off + k)) : wordAt m off = wordAt m' off :=
  word_congr h

theorem putWord_of_disjoint (h : x < off ∨ off + 4 ≤ x) : putWord m off w x = m x :=
  if_neg (by omega)

theorem putBytes_of_disjoint (h : x < off ∨ off + n ≤ x) : putBytes m off src n x = m x :=
  if_neg (by omega)

theorem putBytes_zero (m : ℕ → UInt8) (off : ℕ) (src : ℕ → UInt8) : putBytes m off src 0 = m := by
  funext x
  exact putBytes_of_disjoint (by omega)

/-- The first byte is stored, then the others. -/
theorem putBytes_succ (m : ℕ → UInt8) (off : ℕ) (src : ℕ → UInt8) (n : ℕ) :
    putBytes m off src (n + 1) =
      putBytes (Function.update m off (src 0)) (off + 1) (fun k => src (k + 1)) n := by
  funext x
  unfold putBytes
  by_cases hx : x = off
  · subst hx
    rw [if_pos (by omega), if_neg (by omega), Function.update_self, Nat.sub_self]
  · rw [Function.update_of_ne hx]
    by_cases hin : off ≤ x ∧ x < off + (n + 1)
    · rw [if_pos hin, if_pos (by omega)]
      congr 1
      omega
    · rw [if_neg hin, if_neg (by omega)]

theorem putBytes_add (h : x < n) : putBytes m off src n (off + x) = src x := by
  rw [putBytes, if_pos (by omega), Nat.add_sub_cancel_left]

theorem wordAt_putWord (m : ℕ → UInt8) (off : ℕ) (w : UInt32) :
    wordAt (putWord m off w) off = w := by
  have hbyte : ∀ k < 4, putWord m off w (off + k) = wordByte w k := fun k hk => by
    rw [putWord, if_pos (by omega), Nat.add_sub_cancel_left]
  exact (word_congr hbyte).trans (word_wordByte w)

theorem wordAt_putWord_of_disjoint (h : off + 4 ≤ off' ∨ off' + 4 ≤ off) :
    wordAt (putWord m off' w) off = wordAt m off :=
  wordAt_congr fun _ _ => putWord_of_disjoint (by omega)

theorem wordAt_putBytes_of_disjoint (h : off + 4 ≤ off' ∨ off' + n ≤ off) :
    wordAt (putBytes m off' src n) off = wordAt m off :=
  wordAt_congr fun _ _ => putBytes_of_disjoint (by omega)

/-- The memory from an address on holds the bytes of a list. -/
def HoldsAt (m : ℕ → UInt8) (off : ℕ) (bs : List UInt8) : Prop :=
  ∀ k < bs.length, m (off + k) = bs.getD k 0

variable {as bs : List UInt8} {b : UInt8}

@[simp] theorem holdsAt_nil : HoldsAt m off [] :=
  fun _ hk => absurd hk (Nat.not_lt_zero _)

@[simp] theorem holdsAt_cons : HoldsAt m off (b :: bs) ↔ m off = b ∧ HoldsAt m (off + 1) bs := by
  refine ⟨fun h => ⟨h 0 (by simp), fun k hk => ?_⟩, fun ⟨h0, h⟩ k hk => ?_⟩
  · rw [Nat.add_assoc, Nat.add_comm 1]
    exact h (k + 1) (by simpa using hk)
  · cases k with
    | zero => exact h0
    | succ k =>
      rw [Nat.add_comm k, ← Nat.add_assoc, Nat.add_comm 1 k]
      exact h k (by simpa using hk)

theorem holdsAt_append :
    HoldsAt m off (as ++ bs) ↔ HoldsAt m off as ∧ HoldsAt m (off + as.length) bs := by
  induction as generalizing off with
  | nil => simp
  | cons a as ih =>
    simp only [List.cons_append, holdsAt_cons, ih, List.length_cons, and_assoc,
      Nat.add_right_comm, Nat.add_assoc]

/-- The bytes that are held. -/
theorem HoldsAt.map_range (h : HoldsAt m off bs) :
    (List.range bs.length).map (fun k => m (off + k)) = bs := by
  refine List.ext_getElem (by simp) fun k _ hk => ?_
  simp [h k hk, hk]

theorem holdsAt_map_range (m : ℕ → UInt8) (off n : ℕ) :
    HoldsAt m off ((List.range n).map fun k => m (off + k)) := by
  intro k hk
  have hlt : k < n := by simpa using hk
  simp [hlt]

end Memory

end Bytes
