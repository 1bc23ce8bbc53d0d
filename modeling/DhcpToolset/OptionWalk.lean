import DhcpToolset.DhcpOptions
import DhcpToolset.Tlv
import DhcpToolset.Traced

/-!
# The walk over the options

The loop of `dhcp_find_option` as it runs : an index of 32 bits, and two bytes read at every
step, the code and the length, before the code is looked at. Below a size of `2 ^ 31` the index
does not wrap and the loop returns what `dhcpFindOption` says (`returns_iff`).

The walk steps over items as long as their codes are neither the one looked for nor the end, and
stops at the first code that is (`dhcpFindFrom_eq_some_iff`). On a list of options it finds the
first with the code (`find_option_correct`). It reads and returns what lies inside the array unless
the array ends behind a code, or inside the value that is found (`respects_size_iff`).
-/

set_option linter.unusedSectionVars false

open Bytes Tlv Traced

namespace DhcpToolset

/-! ## The loop -/

/-- The loop of `dhcp_find_option` with the offsets that it reads, for at most `fuel` tests of its
condition. The value is `none` if they are not enough. -/
def dhcpFindLoop (data : ℕ → UInt8) (size : ℕ) (option : UInt8) :
    ℕ → UInt8 → UInt32 → Traced ℕ (Option (Option (ℕ × UInt8)))
  | 0, _, _ => pure none
  | fuel + 1, cop, idx =>
    if cop ≠ 255 ∧ idx.toNat < size then do
      touch [idx.toNat, (idx + 1).toNat]
      let cop := data idx.toNat
      let dlen := data (idx + 1).toNat
      if cop = option then pure (some (some (idx.toNat + 2, dlen)))
      else dhcpFindLoop data size option fuel cop (idx + (dlen.toUInt32 + 2))
    else pure (some none)

/-- `dhcp_find_option` ends, and with this result. -/
def Returns (data : ℕ → UInt8) (size : ℕ) (option : UInt8) (r : Option (ℕ × UInt8)) : Prop :=
  ∃ n, ∀ fuel ≥ n, (dhcpFindLoop data size option fuel 0 0).val = some r

section Loop

variable {data : ℕ → UInt8} {size : ℕ} {option : UInt8}

theorem toNat_next {idx : UInt32} (h : idx.toNat < 2 ^ 31) :
    (idx + 1).toNat = idx.toNat + 1 ∧
      ∀ dlen : UInt8, (idx + (dlen.toUInt32 + 2)).toNat = idx.toNat + (dlen.toNat + 2) := by
  refine ⟨?_, fun dlen => ?_⟩
  · rw [UInt32.toNat_add, show (1 : UInt32).toNat = 1 from rfl]
    omega
  · have := dlen.toNat_lt
    rw [UInt32.toNat_add, UInt32.toNat_add, UInt8.toNat_toUInt32,
      show (2 : UInt32).toNat = 2 from rfl]
    omega

/-- The index grows by 2 at least, so `size - idx` bounds the tests that are left. -/
theorem val_dhcpFindLoop (hsize : size < 2 ^ 31) : ∀ (fuel : ℕ) (cop : UInt8) (idx : UInt32),
    size - idx.toNat < fuel →
      (dhcpFindLoop data size option fuel cop idx).val =
        some (dhcpFindFrom data size option cop idx.toNat)
  | 0, _, _, h => absurd h (Nat.not_lt_zero _)
  | fuel + 1, cop, idx, h => by
    rw [dhcpFindLoop, dhcpFindFrom]
    by_cases hcond : cop ≠ 255 ∧ idx.toNat < size
    · obtain ⟨hone, hnext⟩ := toNat_next (hcond.2.trans hsize)
      have ih := val_dhcpFindLoop hsize fuel (data idx.toNat)
        (idx + ((data (idx.toNat + 1)).toUInt32 + 2)) (by rw [hnext]; omega)
      rw [if_pos hcond, if_pos hcond]
      simp only [val_bind, val_ite, val_pure, hone, ih, hnext]
      split_ifs <;> rfl
    · rw [if_neg hcond, if_neg hcond]
      rfl

/-- The loop ends with the result of the search. -/
theorem returns_iff (hsize : size < 2 ^ 31) {r : Option (ℕ × UInt8)} :
    Returns data size option r ↔ dhcpFindOption data size option = r := by
  have hval : ∀ fuel > size, (dhcpFindLoop data size option fuel 0 0).val =
      some (dhcpFindOption data size option) :=
    fun fuel h => val_dhcpFindLoop hsize fuel 0 0 (Nat.lt_of_le_of_lt (Nat.sub_le _ _) h)
  constructor
  · rintro ⟨n, h⟩
    have := h (max n (size + 1)) (le_max_left _ _)
    rw [hval _ (Nat.lt_of_succ_le (le_max_right _ _))] at this
    exact Option.some.inj this
  · rintro rfl
    exact ⟨size + 1, hval⟩

end Loop

/-! ## Stepping over items -/

section Items

variable {data : ℕ → UInt8} {size idx p : ℕ} {option cop cop' : UInt8} {os : List Item}

/-- Items of other codes are stepped over. -/
theorem dhcpFindFrom_encode (hos : Avoids option 255 os) (h : HoldsAt data idx (encode os))
    (hcop : cop ≠ 255) (hcop' : cop' ≠ 255) :
    dhcpFindFrom data size option cop idx =
      dhcpFindFrom data size option cop' (idx + (encode os).length) := by
  induction os generalizing idx cop with
  | nil =>
    rw [encode_nil, List.length_nil, Nat.add_zero]
    rcases Nat.lt_or_ge idx size with hlt | hge
    · by_cases heq : data idx = option
      · rw [dhcpFindFrom_of_eq hcop hlt heq, dhcpFindFrom_of_eq hcop' hlt heq]
      · rw [dhcpFindFrom_of_ne hcop hlt heq, dhcpFindFrom_of_ne hcop' hlt heq]
    · rw [dhcpFindFrom_of_le hge, dhcpFindFrom_of_le hge]
  | cons o os ih =>
    obtain ⟨hitem, hrest⟩ := holdsAt_encode_cons.mp h
    obtain ⟨hcode, hlen, -⟩ := holdsAt_encode.mp hitem
    obtain ⟨hne, hend⟩ := hos o List.mem_cons_self
    rw [length_encode_cons, ← Nat.add_assoc]
    rcases Nat.lt_or_ge idx size with hlt | hge
    · rw [dhcpFindFrom_of_ne hcop hlt (by rwa [hcode]), hcode, hlen, o.toNat_length]
      exact ih (fun a ha => hos a (List.mem_cons_of_mem o ha)) hrest hend
    · rw [dhcpFindFrom_of_le hge, dhcpFindFrom_of_le (by omega)]

/-- From `i` on the bytes are items, of other codes than `option` and the end, up to `p`. -/
def Reaches (data : ℕ → UInt8) (option : UInt8) (i p : ℕ) : Prop :=
  ∃ os, Avoids option 255 os ∧ HoldsAt data i (encode os) ∧ i + (encode os).length = p

theorem Reaches.refl (data : ℕ → UInt8) (option : UInt8) (i : ℕ) : Reaches data option i i :=
  ⟨[], fun _ h => absurd h List.not_mem_nil, holdsAt_nil, rfl⟩

/-- Any two bytes are the code and the length of an item. -/
theorem Reaches.skip (hne : data idx ≠ option) (hend : data idx ≠ 255)
    (h : Reaches data option (idx + ((data (idx + 1)).toNat + 2)) p) :
    Reaches data option idx p := by
  obtain ⟨os, hos, hdata, hp⟩ := h
  obtain ⟨o, ho⟩ := exists_item data idx
  obtain ⟨hcode, hlen, -⟩ := holdsAt_encode.mp ho
  rw [hlen, o.toNat_length] at hdata hp
  refine ⟨o :: os, ?_, holdsAt_encode_cons.mpr ⟨ho, hdata⟩, ?_⟩
  · rw [hcode] at hne hend
    exact List.forall_mem_cons.mpr ⟨⟨hne, hend⟩, hos⟩
  · rw [length_encode_cons, ← hp, ← Nat.add_assoc]

/-- The search finds what it reaches first. -/
theorem dhcpFindFrom_eq_some_iff {cop : UInt8} {idx : ℕ} (hcop : cop ≠ 255) {r : ℕ × UInt8} :
    dhcpFindFrom data size option cop idx = some r ↔
      ∃ p < size, Reaches data option idx p ∧ data p = option ∧ r = (p + 2, data (p + 1)) := by
  constructor
  · intro h
    rcases Nat.lt_or_ge idx size with hlt | hge
    swap
    · simp [dhcpFindFrom_of_le hge] at h
    by_cases heq : data idx = option
    · rw [dhcpFindFrom_of_eq hcop hlt heq] at h
      exact ⟨idx, hlt, Reaches.refl data option idx, heq, (Option.some.inj h).symm⟩
    by_cases hend : data idx = 255
    · simp [dhcpFindFrom_of_end heq hend] at h
    rw [dhcpFindFrom_of_ne hcop hlt heq] at h
    obtain ⟨p, hp, hreach, hfound⟩ := (dhcpFindFrom_eq_some_iff hend).mp h
    exact ⟨p, hp, hreach.skip heq hend, hfound⟩
  · rintro ⟨p, hp, ⟨os, hos, hdata, rfl⟩, hfound, rfl⟩
    rw [dhcpFindFrom_encode hos hdata hcop hcop, dhcpFindFrom_of_eq hcop hp hfound]
termination_by size - idx

end Items

/-! ## Lists of options -/

theorem code_ne_end {code : UInt8} (h : 1 ≤ code ∧ code ≤ 254) : code ≠ 255 := by
  rintro rfl
  exact absurd h.2 (by decide)

/-- The search finds the first option with the code, and none if no option has it. Value bytes that
look like a code or like the end are not taken for one, and what follows the end does not matter. -/
theorem find_option_correct (os : List Item) (hos : ∀ o ∈ os, 1 ≤ o.code ∧ o.code ≤ 254)
    (data : ℕ → UInt8) (hdata : HoldsAt data 0 (encode os ++ [255])) (size : ℕ)
    (hsize : size < 2 ^ 31) (hend : (encode os).length + 2 ≤ size) (option : UInt8)
    (hoption : 1 ≤ option ∧ option ≤ 254) :
    (∀ as o bs, os = as ++ o :: bs → (∀ a ∈ as, a.code ≠ option) → o.code = option →
      Returns data size option (some ((encode as).length + 2, o.length)) ∧
        HoldsAt data ((encode as).length + 2) o.value) ∧
    ((∀ o ∈ os, o.code ≠ option) → Returns data size option none) := by
  obtain ⟨hitems, hstop⟩ := holdsAt_append.mp hdata
  have havoid : ∀ as : List Item, (∀ a ∈ as, a ∈ os) → (∀ a ∈ as, a.code ≠ option) →
      Avoids option 255 as :=
    fun as hmem hne a ha => ⟨hne a ha, code_ne_end (hos a (hmem a ha))⟩
  refine ⟨?_, fun hne => ?_⟩
  · rintro as o bs rfl hne hcode
    rw [encode_append, holdsAt_append, holdsAt_encode_cons, holdsAt_encode, Nat.zero_add] at hitems
    obtain ⟨has, ⟨hc, hlen, hvalue⟩, -⟩ := hitems
    refine ⟨(returns_iff hsize).mpr ?_, hvalue⟩
    refine (dhcpFindFrom_eq_some_iff (by decide)).mpr ⟨(encode as).length, ?_,
      ⟨as, havoid as (fun a ha => by simp [ha]) hne, has, Nat.zero_add _⟩, ?_, ?_⟩
    · rw [encode_append, List.length_append] at hend
      omega
    · rw [hc, hcode]
    · rw [hlen]
  · refine (returns_iff hsize).mpr ?_
    have hstop' : data (0 + (encode os).length) = 255 := (holdsAt_cons.mp hstop).1
    have hcop : (0 : UInt8) ≠ 255 := by decide
    rw [dhcpFindOption, dhcpFindFrom_encode (havoid os (fun _ h => h) hne) hitems hcop hcop]
    refine dhcpFindFrom_of_end (fun h => code_ne_end hoption ?_) hstop'
    rw [← h, hstop']

/-- A message type and the host name `hi`. -/
def sampleOptions : List Item :=
  [⟨53, [1], by decide⟩, ⟨12, [104, 105], by decide⟩]

/-- The sample options with their end, in front of other bytes. -/
def sampleData : ℕ → UInt8 :=
  fun i => (encode sampleOptions ++ [255]).getD i 12

theorem find_option_correct_sample :
    Returns sampleData 1232 12 (some (5, 2)) ∧ HoldsAt sampleData 5 [104, 105] := by
  have hdata : HoldsAt sampleData 0 (encode sampleOptions ++ [255]) := by
    unfold HoldsAt
    decide
  exact (find_option_correct sampleOptions (by decide) sampleData hdata 1232 (by decide) (by decide)
    12 (by decide)).1 [⟨53, [1], by decide⟩] ⟨12, [104, 105], by decide⟩ [] rfl (by decide) rfl

/-! ## The size of the array -/

/-- What is read, and the value that is returned, lie below the size. -/
structure RespectsSize (data : ℕ → UInt8) (size : ℕ) (option : UInt8) : Prop where
  reads : ∀ fuel, (dhcpFindLoop data size option fuel 0 0).All (· < size)
  value : ∀ p n, Returns data size option (some (p, n)) → p + n.toNat ≤ size

/-- Behind items of other codes the array ends with a code alone, or inside the value of the first
option with the code. -/
def CutShort (data : ℕ → UInt8) (size : ℕ) (option : UInt8) : Prop :=
  ∃ p, Reaches data option 0 p ∧ (p + 1 = size ∨
    p + 1 < size ∧ data p = option ∧ size < p + 2 + (data (p + 1)).toNat)

section Reads

variable {data : ℕ → UInt8} {size p : ℕ} {option : UInt8}

/-- One more test of the loop, at an index inside the array. -/
theorem all_dhcpFindLoop_succ {P : ℕ → Prop} (hsize : size < 2 ^ 31) {cop : UInt8} {idx : UInt32}
    (hcop : cop ≠ 255) (hidx : idx.toNat < size) (fuel : ℕ) :
    (dhcpFindLoop data size option (fuel + 1) cop idx).All P ↔ (P idx.toNat ∧ P (idx.toNat + 1)) ∧
      (data idx.toNat ≠ option → (dhcpFindLoop data size option fuel (data idx.toNat)
        (idx + ((data (idx.toNat + 1)).toUInt32 + 2))).All P) := by
  rw [dhcpFindLoop, if_pos ⟨hcop, hidx⟩]
  simp only [all_bind, all_touch, all_ite, all_pure, if_true_left, List.forall_mem_cons,
    (toNat_next (hidx.trans hsize)).1]
  simp

/-- The loop reads behind the array exactly if it reaches the last byte. -/
theorem all_lt_size_of (hsize : size < 2 ^ 31) : ∀ (fuel : ℕ) (cop : UInt8) (idx : UInt32),
    (¬∃ p, Reaches data option idx.toNat p ∧ p + 1 = size) →
      (dhcpFindLoop data size option fuel cop idx).All (· < size)
  | 0, _, _, _ => by simp [dhcpFindLoop]
  | fuel + 1, cop, idx, h => by
    by_cases hcond : cop ≠ 255 ∧ idx.toNat < size
    swap
    · simp [dhcpFindLoop, hcond]
    have hlast : idx.toNat + 1 ≠ size := fun hlast => h ⟨_, Reaches.refl data option _, hlast⟩
    refine (all_dhcpFindLoop_succ hsize hcond.1 hcond.2 fuel).mpr
      ⟨⟨hcond.2, by omega⟩, fun hne => ?_⟩
    by_cases hend : data idx.toNat = 255
    · rw [hend]
      cases fuel <;> simp [dhcpFindLoop]
    · refine all_lt_size_of hsize fuel _ _ fun ⟨p, hreach, hp⟩ => h ⟨p, ?_, hp⟩
      rw [(toNat_next (hcond.2.trans hsize)).2] at hreach
      exact hreach.skip hne hend

/-- The items up to the last byte are stepped over one by one. -/
theorem exists_not_all_lt_size (hsize : size < 2 ^ 31) :
    ∀ (os : List Item) (cop : UInt8) (idx : UInt32), cop ≠ 255 → Avoids option 255 os →
      HoldsAt data idx.toNat (encode os) → idx.toNat + (encode os).length + 1 = size →
        ∃ fuel, ¬(dhcpFindLoop data size option fuel cop idx).All (· < size)
  | [], cop, idx, hcop, _, _, hp => by
    refine ⟨1, fun h => ?_⟩
    rw [encode_nil, List.length_nil] at hp
    have := ((all_dhcpFindLoop_succ hsize hcop (by omega) 0).mp h).1.2
    omega
  | o :: os, cop, idx, hcop, hos, hdata, hp => by
    rw [length_encode_cons] at hp
    obtain ⟨hitem, hrest⟩ := holdsAt_encode_cons.mp hdata
    obtain ⟨hcode, hlen, -⟩ := holdsAt_encode.mp hitem
    obtain ⟨⟨hne, hend⟩, hos⟩ := List.forall_mem_cons.mp hos
    have hidx : idx.toNat < size := by omega
    have hnext := (toNat_next (hidx.trans hsize)).2 o.length
    rw [o.toNat_length] at hnext
    obtain ⟨fuel, hfuel⟩ := exists_not_all_lt_size hsize os o.code (idx + (o.length.toUInt32 + 2))
      hend hos (by rwa [hnext]) (by rw [hnext]; omega)
    refine ⟨fuel + 1, fun h => hfuel ?_⟩
    have := ((all_dhcpFindLoop_succ hsize hcop hidx fuel).mp h).2 (by rwa [hcode])
    rwa [hcode, hlen] at this

end Reads

/-- The search respects the size exactly if the array is not cut short. -/
theorem respects_size_iff (data : ℕ → UInt8) (size : ℕ) (hsize : size < 2 ^ 31) (option : UInt8) :
    RespectsSize data size option ↔ ¬CutShort data size option := by
  have hcop : (0 : UInt8) ≠ 255 := by decide
  constructor
  · rintro h ⟨p, hreach, hlast | ⟨hp, hcode, hlong⟩⟩
    · obtain ⟨os, hos, hdata, rfl⟩ := hreach
      obtain ⟨fuel, hfuel⟩ := exists_not_all_lt_size hsize os 0 0 hcop hos hdata hlast
      exact hfuel (h.reads fuel)
    · have hfound : dhcpFindOption data size option = some (p + 2, data (p + 1)) :=
        (dhcpFindFrom_eq_some_iff hcop).mpr ⟨p, by omega, hreach, hcode, rfl⟩
      have := h.value _ _ ((returns_iff hsize).mpr hfound)
      omega
  · intro h
    refine ⟨fun fuel => all_lt_size_of hsize fuel 0 0 ?_, fun p n hr => ?_⟩
    · rintro ⟨p, hreach, hlast⟩
      exact h ⟨p, hreach, Or.inl hlast⟩
    · obtain ⟨q, hq, hreach, hcode, heq⟩ :=
        (dhcpFindFrom_eq_some_iff hcop).mp ((returns_iff hsize).mp hr)
      obtain ⟨rfl, rfl⟩ := Prod.mk.inj heq
      by_contra hlong
      rcases Nat.eq_or_lt_of_le (Nat.succ_le_of_lt hq) with hlast | hlt
      · exact h ⟨q, hreach, Or.inl hlast⟩
      · exact h ⟨q, hreach, Or.inr ⟨hlt, hcode, by omega⟩⟩

/-- A host name of one byte that ends with the array, whatever lies behind it. -/
def tightData : ℕ → UInt8 :=
  fun x => ([12, 1, 65] : List UInt8).getD x 255

theorem respects_size_iff_found : RespectsSize tightData 3 12 ∧
    Returns tightData 3 12 (some (2, 1)) := by
  have hsize : (3 : ℕ) < 2 ^ 31 := by decide
  refine ⟨(respects_size_iff tightData 3 hsize 12).mpr ?_,
    (returns_iff hsize).mpr (dhcpFindFrom_of_eq (by decide) (by decide) (by decide))⟩
  rintro ⟨p, ⟨os, hos, hdata, rfl⟩, h⟩
  cases os with
  | nil => exact absurd h (by decide)
  | cons o os =>
    have hcode := (holdsAt_encode.mp (holdsAt_encode_cons.mp hdata).1).1
    exact (hos o List.mem_cons_self).1 hcode.symm

/-- A host name code in the last byte of the array. -/
theorem not_respects_size : ¬∀ (data : ℕ → UInt8) (size : ℕ), size < 2 ^ 31 → ∀ option,
    RespectsSize data size option := by
  intro h
  exact absurd ((h (fun _ => 12) 1 (by decide) 12).reads 1 1 (by decide)) (by decide)

end DhcpToolset
