import Mathlib.Algebra.Group.Int.Defs
import Mathlib.Algebra.Group.Nat.Defs
import Mathlib.Data.Nat.Basic

/-!
# Numbers in C strings

A C string is the list of its bytes before the terminating `NUL`, and a pointer into it an
offset. `strtoul` and `atoi` read a subject sequence as the C standard has it : white
space, a sign, in base 16 a `0x` that a digit follows, and the longest run of digits. The
results are those of 32-bit `unsigned long` and `int`.
-/

namespace CText

/-- The byte at an offset of a string. The `NUL` stands at its length. -/
def charAt (str : List UInt8) (off : ℕ) : UInt8 :=
  str.getD off 0

theorem charAt_eq_headD (str : List UInt8) (off : ℕ) : charAt str off = (str.drop off).headD 0 := by
  rw [charAt, List.getD_eq_getElem?_getD, ← List.head?_drop, List.headD_eq_head?_getD]

/-- The bytes of an ASCII text. -/
def ofString (s : String) : List UInt8 :=
  s.toList.map fun c => UInt8.ofNat c.toNat

/-- `isspace`. -/
def isSpace (c : UInt8) : Bool :=
  c == 32 || (9 ≤ c && c ≤ 13)

/-- The value of a digit. -/
def digitValue (base : ℕ) (c : UInt8) : Option ℕ :=
  let v :=
    if 48 ≤ c && c ≤ 57 then some (c.toNat - 48)
    else if 65 ≤ c && c ≤ 90 then some (c.toNat - 55)
    else if 97 ≤ c && c ≤ 122 then some (c.toNat - 87)
    else none
  v.filter (· < base)

/-- The longest run of digits at the start of a text. -/
def digits (base : ℕ) : List UInt8 → List ℕ
  | [] => []
  | c :: s =>
    match digitValue base c with
    | some d => d :: digits base s
    | none => []

/-- The length of the `0x` at the start of a text. It counts only in front of a digit. -/
def hexMark (base : ℕ) : List UInt8 → ℕ
  | c :: x :: d :: _ =>
    if base = 16 ∧ c = 48 ∧ (x = 120 ∨ x = 88) ∧ (digitValue 16 d).isSome then 2 else 0
  | _ => 0

/-- The length of a sign at the start of a text. -/
def signLength : List UInt8 → ℕ
  | c :: _ => if c = 43 ∨ c = 45 then 1 else 0
  | [] => 0

/-- A subject sequence : its sign, its digits, and where it ends. -/
structure Subject where
  neg : Bool
  digits : List ℕ
  stop : ℕ

/-- The subject sequence at an offset. -/
def subject (base : ℕ) (str : List UInt8) (off : ℕ) : Subject :=
  let start := off + ((str.drop off).takeWhile isSpace).length
  let first := start + signLength (str.drop start)
  let first := first + hexMark base (str.drop first)
  let ds := CText.digits base (str.drop first)
  ⟨charAt str start == 45, ds, first + ds.length⟩

/-- The number some digits denote. -/
def value (base : ℕ) (ds : List ℕ) : ℕ :=
  ds.foldl (fun n d => n * base + d) 0

/-- `strtoul`, with the end pointer. A number that does not fit gives `ULONG_MAX`, and the
end pointer is the start when there is no digit. -/
def strtoul (str : List UInt8) (off base : ℕ) : UInt32 × ℕ :=
  let s := subject base str off
  let n := value base s.digits
  if s.digits.isEmpty then (0, off)
  else if 2 ^ 32 ≤ n then (UInt32.ofNat (2 ^ 32 - 1), s.stop)
  else (if s.neg then -UInt32.ofNat n else UInt32.ofNat n, s.stop)

/-- `atoi`, that is `strtol` in base 10. -/
def atoi (str : List UInt8) : ℤ :=
  let s := subject 10 str 0
  let n : ℤ := value 10 s.digits
  max (-2 ^ 31) (min (2 ^ 31 - 1) (if s.neg then -n else n))

/-! ## The end pointer -/

section Stop

theorem length_digits_le (base : ℕ) (s : List UInt8) : (digits base s).length ≤ s.length := by
  induction s with
  | nil => exact le_rfl
  | cons c s ih =>
    unfold digits
    split
    · exact Nat.succ_le_succ ih
    · exact Nat.zero_le _

theorem hexMark_le (base : ℕ) (s : List UInt8) : hexMark base s ≤ s.length := by
  unfold hexMark
  split
  · split_ifs
    · exact Nat.le_add_left 2 _
    · exact Nat.zero_le _
  · exact Nat.zero_le _

theorem signLength_le (s : List UInt8) : signLength s ≤ s.length := by
  unfold signLength
  split
  · split_ifs
    · exact Nat.le_add_left 1 _
    · exact Nat.zero_le _
  · exact Nat.zero_le _

variable {str : List UInt8} {off : ℕ}

/-- A step over a part of what is left stays in the string. -/
theorem add_le_length {n : ℕ} (hoff : off ≤ str.length) (hn : n ≤ (str.drop off).length) :
    off + n ≤ str.length := by
  rw [List.length_drop] at hn
  omega

theorem stop_subject_le (base : ℕ) (h : off ≤ str.length) :
    (subject base str off).stop ≤ str.length := by
  have hspace := add_le_length h (List.takeWhile_prefix isSpace).length_le
  have hsign := add_le_length hspace (signLength_le _)
  have hmark := add_le_length hsign (hexMark_le base _)
  exact add_le_length hmark (length_digits_le base _)

/-- `strtoul` started in a string leaves its end pointer in it, the `NUL` included. -/
theorem strtoul_le (base : ℕ) (h : off ≤ str.length) : (strtoul str off base).2 ≤ str.length := by
  unfold strtoul
  dsimp only
  split_ifs
  · exact h
  · exact stop_subject_le base h
  · exact stop_subject_le base h
  · exact stop_subject_le base h

/-- A character that is not the `NUL` stands before it. -/
theorem lt_length_of_charAt (h : charAt str off ≠ 0) : off < str.length := by
  by_contra hle
  exact h (by rw [charAt_eq_headD, List.drop_eq_nil_of_le (Nat.le_of_not_lt hle), List.headD_nil])

end Stop

/-! ## Characters and the digits they are -/

/-- The characters are these digits. -/
def Spells (base : ℕ) (ds : List ℕ) (cs : List UInt8) : Prop :=
  cs.map (digitValue base) = ds.map some

section Spells

variable {base : ℕ} {ds ds' : List ℕ} {cs cs' s : List UInt8}

theorem Spells.length_eq (h : Spells base ds cs) : cs.length = ds.length := by
  have := congrArg List.length h
  rwa [List.length_map, List.length_map] at this

theorem Spells.isSome_of_mem (h : Spells base ds cs) {c : UInt8} (hc : c ∈ cs) :
    (digitValue base c).isSome = true := by
  obtain ⟨d, -, hd⟩ := List.mem_map.mp (h ▸ List.mem_map_of_mem hc)
  rw [← hd]
  rfl

theorem Spells.append (h : Spells base ds cs) (h' : Spells base ds' cs') :
    Spells base (ds ++ ds') (cs ++ cs') := by
  unfold Spells
  rw [List.map_append, List.map_append, h, h']

/-- The run of digits ends where no digit follows. -/
theorem Spells.digits_append (h : Spells base ds cs)
    (hs : ∀ c ∈ s.head?, digitValue base c = none) :
    digits base (cs ++ s) = ds := by
  induction cs generalizing ds with
  | nil =>
    obtain rfl : ds = [] := List.length_eq_zero_iff.mp h.length_eq.symm
    cases s with
    | nil => rfl
    | cons c s => simp [digits, hs c rfl]
  | cons c cs ih =>
    cases ds with
    | nil => simp [Spells] at h
    | cons d ds =>
      obtain ⟨hd, hds⟩ := List.cons.inj h
      simp [digits, hd, ih hds]

/-- The decimal text of a number. -/
def natText (n : ℕ) : List UInt8 :=
  (Nat.toDigits 10 n).map fun c => UInt8.ofNat c.toNat

theorem digitValue_of_isDigit {c : Char} (h : c.isDigit = true) :
    digitValue 10 (UInt8.ofNat c.toNat) = some (c.toNat - 48) := by
  obtain ⟨hlow, hhigh⟩ : 48 ≤ c.toNat ∧ c.toNat ≤ 57 := by
    simpa [Char.isDigit, UInt32.le_iff_toNat_le] using h
  have hall : ∀ k : Fin 10, digitValue 10 (UInt8.ofNat (48 + k)) = some k.val := by decide
  have := hall ⟨c.toNat - 48, by omega⟩
  rwa [show 48 + (c.toNat - 48) = c.toNat by omega] at this

theorem spells_natText (n : ℕ) :
    ∃ ds, ds ≠ [] ∧ Spells 10 ds (natText n) ∧ value 10 ds = n := by
  refine ⟨(Nat.toDigits 10 n).map fun c => c.toNat - '0'.toNat, ?_, ?_, ?_⟩
  · simp
  · unfold Spells natText
    rw [List.map_map, List.map_map]
    refine List.map_congr_left fun c hc => ?_
    exact digitValue_of_isDigit (Nat.isDigit_of_mem_toDigits (by decide) le_rfl hc)
  · have hval := Nat.ofDigitChars_ten_toDigits (n := n)
    rw [Nat.ofDigitChars_eq_foldl] at hval
    rw [value, List.foldl_map]
    simpa only [Nat.mul_comm] using hval

theorem length_natText_le {n k : ℕ} (hk : 0 < k) (h : n < 10 ^ k) : (natText n).length ≤ k := by
  rw [natText, List.length_map]
  exact (Nat.length_toDigits_le_iff (by decide) hk).mpr h

/-- The text of an integer. -/
theorem ofString_toString (a : ℤ) : ofString (toString a) =
    if 0 ≤ a then natText a.toNat else 45 :: natText (-a).toNat := by
  rw [Int.toString_eq_repr, Int.repr_eq_if]
  split_ifs
  · rw [ofString, Nat.toList_repr, natText]
  · rw [ofString, String.toList_append, List.map_append, Nat.toList_repr, natText]
    rfl

end Spells

end CText
