import DhcpToolset.OptionWalk

/-!
# Pad bytes between the options

A pad (`DHO_PAD`) is a single byte, without a length. `dhcp_find_option` does not know it and
takes the byte behind a pad for its length. Two pads in a row are an item of length 0, so a run of
even length is stepped over. The last pad of an odd run takes the code of the next option, or the
end, for a length, and the walk goes on somewhere behind.

`padding_transparent_iff` : the search finds what it finds without the pads exactly if the runs it
meets are even, or what it reads behind the first odd run happens to come to the same.
-/

set_option linter.unusedSectionVars false

open Bytes Tlv

namespace DhcpToolset

/-- A pad or an option. -/
inductive Field where
  | pad
  | option (o : Item)

/-- The bytes of a field. -/
def Field.encode : Field → List UInt8
  | pad => [0]
  | option o => o.encode

/-- The bytes of a field list. -/
def encodeFields (fs : List Field) : List UInt8 :=
  fs.flatMap Field.encode

/-- The list without its pads. -/
def optionsIn : List Field → List Item
  | [] => []
  | .pad :: fs => optionsIn fs
  | .option o :: fs => o :: optionsIn fs

/-- The value of the option that was found. -/
def foundValue (data : ℕ → UInt8) (r : Option (ℕ × UInt8)) : Option (List UInt8) :=
  r.map fun p => (List.range p.2.toNat).map fun i => data (p.1 + i)

/-- The value of the first option with the code. -/
def firstValue (option : UInt8) (os : List Item) : Option (List UInt8) :=
  (os.find? (·.code == option)).map Item.value

/-- The searches in two arrays end, and find the same value or both none. -/
def SameFound (data : ℕ → UInt8) (size : ℕ) (data' : ℕ → UInt8) (size' : ℕ) (option : UInt8) :
    Prop :=
  ∃ r r', Returns data size option r ∧ Returns data' size' option r' ∧
    foundValue data r = foundValue data' r'

/-! ## Runs of pads -/

/-- Pads in pairs, and options of other codes. -/
inductive Paired (option : UInt8) : List Field → Prop where
  | nil : Paired option []
  | pads {fs} : Paired option fs → Paired option (.pad :: .pad :: fs)
  | skip {o fs} : o.code ≠ option → Paired option fs → Paired option (.option o :: fs)

/-- Every run of pads in front of the first option with the code, or of the end if there is none,
has an even length. -/
def InStep (option : UInt8) (fs : List Field) : Prop :=
  Paired option fs ∨ ∃ as o bs, fs = as ++ .option o :: bs ∧ Paired option as ∧ o.code = option

/-- Behind paired fields, `rest` stands behind the last pad of an odd run. -/
def OddRun (option : UInt8) (fs as rest : List Field) : Prop :=
  fs = as ++ .pad :: rest ∧ Paired option as ∧ ∀ bs, rest ≠ .pad :: bs

/-- Read as items from `q` on, the bytes first show the option with the value `v`. -/
def LandsOn (data : ℕ → UInt8) (size : ℕ) (option : UInt8) (q : ℕ) (v : List UInt8) : Prop :=
  ∃ p < size, Reaches data option q p ∧ data p = option ∧ (data (p + 1)).toNat = v.length ∧
    HoldsAt data (p + 2) v

/-- Where the walk goes on behind an odd run : the byte behind it is taken for a length. -/
def landing (as rest : List Field) : ℕ :=
  (encodeFields as).length + (((encodeFields rest ++ [255]).headD 0).toNat + 2)

section Fields

variable {option : UInt8} {fs : List Field}

theorem Paired.exists_items (h : Paired option fs) (hoption : option ≠ 0)
    (hend : ∀ o ∈ optionsIn fs, o.code ≠ 255) :
    ∃ os, Avoids option 255 os ∧ encode os = encodeFields fs := by
  induction h with
  | nil => exact ⟨[], fun _ h => absurd h List.not_mem_nil, rfl⟩
  | pads _ ih =>
    obtain ⟨os, hos, heq⟩ := ih hend
    refine ⟨⟨0, [], Nat.zero_le _⟩ :: os, List.forall_mem_cons.mpr ⟨⟨hoption.symm, ?_⟩, hos⟩, ?_⟩
    · exact (by decide : (0 : UInt8) ≠ 255)
    · rw [encode_cons, heq]
      rfl
  | @skip o fs hne _ ih =>
    obtain ⟨hend', hrest⟩ := List.forall_mem_cons.mp hend
    obtain ⟨os, hos, heq⟩ := ih hrest
    refine ⟨o :: os, List.forall_mem_cons.mpr ⟨⟨hne, hend'⟩, hos⟩, ?_⟩
    rw [encode_cons, heq]
    rfl

/-- Fields that keep a list paired can stand in front. -/
theorem inStep_or_oddRun_append (as : List Field)
    (has : ∀ {fs}, Paired option fs → Paired option (as ++ fs))
    (h : InStep option fs ∨ ∃ bs rest, OddRun option fs bs rest) :
    InStep option (as ++ fs) ∨ ∃ bs rest, OddRun option (as ++ fs) bs rest := by
  rcases h with (h | ⟨bs, o, cs, rfl, hbs, ho⟩) | ⟨bs, rest, rfl, hbs, hrest⟩
  · exact Or.inl (Or.inl (has h))
  · exact Or.inl (Or.inr ⟨as ++ bs, o, cs, (List.append_assoc _ _ _).symm, has hbs, ho⟩)
  · exact Or.inr ⟨as ++ bs, rest, (List.append_assoc _ _ _).symm, has hbs, hrest⟩

theorem inStep_or_oddRun (option : UInt8) :
    ∀ fs : List Field, InStep option fs ∨ ∃ as rest, OddRun option fs as rest
  | [] => Or.inl (Or.inl .nil)
  | [.pad] => Or.inr ⟨[], [], rfl, .nil, nofun⟩
  | .pad :: .option o :: fs => Or.inr ⟨[], .option o :: fs, rfl, .nil, nofun⟩
  | .pad :: .pad :: fs =>
    inStep_or_oddRun_append [.pad, .pad] .pads (inStep_or_oddRun option fs)
  | .option a :: fs => by
    by_cases ha : a.code = option
    · exact Or.inl (Or.inr ⟨[], a, fs, rfl, .nil, ha⟩)
    · exact inStep_or_oddRun_append [.option a] (.skip ha) (inStep_or_oddRun option fs)

theorem encodeFields_append (as bs : List Field) :
    encodeFields (as ++ bs) = encodeFields as ++ encodeFields bs :=
  List.flatMap_append

theorem optionsIn_append (as bs : List Field) :
    optionsIn (as ++ bs) = optionsIn as ++ optionsIn bs := by
  induction as with
  | nil => rfl
  | cons f as ih => cases f <;> simp [optionsIn, ih]

/-- Paired fields hold no option with the code. -/
theorem Paired.firstValue_append (h : Paired option fs) (bs : List Field) :
    firstValue option (optionsIn (fs ++ bs)) = firstValue option (optionsIn bs) := by
  induction h with
  | nil => rfl
  | pads _ ih => exact ih
  | @skip o fs hne _ ih =>
    rw [← ih]
    simp [optionsIn, firstValue, hne]

end Fields

/-! ## The search -/

section Search

variable {data : ℕ → UInt8} {size idx : ℕ} {option cop : UInt8}

theorem foundValue_eq_some_iff (hcop : cop ≠ 255) (v : List UInt8) :
    foundValue data (dhcpFindFrom data size option cop idx) = some v ↔
      LandsOn data size option idx v := by
  rw [foundValue, Option.map_eq_some_iff]
  constructor
  · rintro ⟨r, hr, rfl⟩
    obtain ⟨p, hp, hreach, hcode, rfl⟩ := (dhcpFindFrom_eq_some_iff hcop).mp hr
    exact ⟨p, hp, hreach, hcode, by simp, holdsAt_map_range data (p + 2) _⟩
  · rintro ⟨p, hp, hreach, hcode, hlen, hv⟩
    refine ⟨_, (dhcpFindFrom_eq_some_iff hcop).mpr ⟨p, hp, hreach, hcode, rfl⟩, ?_⟩
    rw [hlen]
    exact hv.map_range

/-- Without pads, the search finds the first option with the code. -/
theorem foundValue_encode {os : List Item} (hos : ∀ o ∈ os, o.code ≠ 255) (hoption : option ≠ 255)
    (hdata : HoldsAt data idx (encode os ++ [255])) (hsize : idx + (encode os).length < size)
    (hcop : cop ≠ 255) :
    foundValue data (dhcpFindFrom data size option cop idx) = firstValue option os := by
  induction os generalizing idx cop with
  | nil =>
    have hend : data idx = 255 := (holdsAt_cons.mp hdata).1
    rw [dhcpFindFrom_of_end (by rwa [hend, ne_comm]) hend]
    rfl
  | cons o os ih =>
    rw [encode_cons, List.append_assoc, holdsAt_append, holdsAt_encode, o.length_encode] at hdata
    rw [length_encode_cons] at hsize
    obtain ⟨⟨hcode, hlen, hvalue⟩, hrest⟩ := hdata
    by_cases heq : o.code = option
    · rw [dhcpFindFrom_of_eq hcop (by omega) (by rw [hcode, heq]), hlen]
      simp only [foundValue, Option.map_some, o.toNat_length, hvalue.map_range]
      simp [firstValue, heq]
    · rw [dhcpFindFrom_of_ne hcop (by omega) (by rwa [hcode]), hlen, hcode, o.toNat_length,
        ih (fun a ha => hos a (List.mem_cons_of_mem o ha)) hrest (by omega)
          (hos o List.mem_cons_self)]
      simp [firstValue, heq]

/-- The searches in a padded list and in the list without its pads. -/
theorem sameFound_iff {data' : ℕ → UInt8} {size' : ℕ} {os : List Item}
    (hos : ∀ o ∈ os, o.code ≠ 255) (hoption : option ≠ 255) (hsize : size < 2 ^ 31)
    (hsize' : size' < 2 ^ 31) (hdata' : HoldsAt data' 0 (encode os ++ [255]))
    (hend' : (encode os).length < size') :
    SameFound data size data' size' option ↔
      foundValue data (dhcpFindOption data size option) = firstValue option os := by
  have hfound : foundValue data' (dhcpFindOption data' size' option) = firstValue option os :=
    foundValue_encode hos hoption hdata' (by omega) (by decide)
  constructor
  · rintro ⟨r, r', hr, hr', heq⟩
    rw [(returns_iff hsize).mp hr, ← hfound, (returns_iff hsize').mp hr', heq]
  · intro heq
    exact ⟨_, _, (returns_iff hsize).mpr rfl, (returns_iff hsize').mpr rfl, heq.trans hfound.symm⟩

variable {fs : List Field}

/-- Paired fields are stepped over. -/
theorem dhcpFindOption_append (size : ℕ) {bs : List Field} (h : Paired option fs)
    (hoption : option ≠ 0) (hend : ∀ o ∈ optionsIn fs, o.code ≠ 255)
    (hdata : HoldsAt data 0 (encodeFields (fs ++ bs) ++ [255])) :
    dhcpFindOption data size option =
        dhcpFindFrom data size option 0 (encodeFields fs).length ∧
      HoldsAt data (encodeFields fs).length (encodeFields bs ++ [255]) := by
  obtain ⟨os, hos, heq⟩ := h.exists_items hoption hend
  rw [encodeFields_append, List.append_assoc, holdsAt_append, Nat.zero_add, ← heq] at hdata
  have hcop : (0 : UInt8) ≠ 255 := by decide
  rw [dhcpFindOption, dhcpFindFrom_encode hos hdata.1 hcop hcop, Nat.zero_add, heq]
  exact ⟨rfl, heq ▸ hdata.2⟩

/-- In step with the fields, the search finds the first option with the code. -/
theorem InStep.foundValue_eq (h : InStep option fs) (hoption : option ≠ 0) (hne : option ≠ 255)
    (hfs : ∀ o ∈ optionsIn fs, o.code ≠ 255)
    (hdata : HoldsAt data 0 (encodeFields fs ++ [255])) (hend : (encodeFields fs).length < size) :
    foundValue data (dhcpFindOption data size option) = firstValue option (optionsIn fs) := by
  have hcop : (0 : UInt8) ≠ 255 := by decide
  rcases h with h | ⟨as, o, bs, rfl, has, ho⟩
  · rw [← List.append_nil fs] at hdata
    obtain ⟨hfind, hrest⟩ := dhcpFindOption_append size h hoption hfs hdata
    have hfirst := h.firstValue_append []
    rw [List.append_nil] at hfirst
    rw [hfind, hfirst]
    exact foundValue_encode nofun hne hrest hend hcop
  · rw [optionsIn_append] at hfs
    obtain ⟨hfind, hrest⟩ := dhcpFindOption_append size has hoption
      (fun a ha => hfs a (List.mem_append_left _ ha)) hdata
    rw [encodeFields_append, List.length_append] at hend
    have hpos : 0 < (encodeFields (.option o :: bs)).length := Nat.succ_pos _
    have hitem :
        HoldsAt data (encodeFields as).length (o.encode ++ (encodeFields bs ++ [255])) := by
      rwa [← List.append_assoc]
    obtain ⟨hcode, hlen, hvalue⟩ := holdsAt_encode.mp (holdsAt_append.mp hitem).1
    rw [hfind, has.firstValue_append, dhcpFindFrom_of_eq hcop (by omega) (by rw [hcode, ho]), hlen]
    simp only [foundValue, Option.map_some, o.toNat_length, hvalue.map_range]
    simp [firstValue, optionsIn, ho]

/-- Behind an odd run the search goes on where the length that it takes leads. -/
theorem OddRun.dhcpFindOption_eq {as rest : List Field} (h : OddRun option fs as rest)
    (hoption : option ≠ 0) (hfs : ∀ o ∈ optionsIn fs, o.code ≠ 255)
    (hdata : HoldsAt data 0 (encodeFields fs ++ [255])) (hend : (encodeFields fs).length < size) :
    dhcpFindOption data size option = dhcpFindFrom data size option 0 (landing as rest) := by
  obtain ⟨rfl, has, -⟩ := h
  rw [optionsIn_append] at hfs
  obtain ⟨hfind, hrest⟩ := dhcpFindOption_append size has hoption
    (fun a ha => hfs a (List.mem_append_left _ ha)) hdata
  rw [encodeFields_append, List.length_append] at hend
  have hpad : HoldsAt data (encodeFields as).length (0 :: (encodeFields rest ++ [255])) := hrest
  obtain ⟨hzero, hnext⟩ := holdsAt_cons.mp hpad
  have hlen : data ((encodeFields as).length + 1) = (encodeFields rest ++ [255]).headD 0 := by
    rw [← Nat.add_zero (_ + 1), hnext 0 (by simp), List.headD_eq_head?_getD, List.head?_eq_getElem?,
      List.getD_eq_getElem?_getD]
  rw [hfind, dhcpFindFrom_of_ne (by decide) (by omega) (by rwa [hzero, ne_comm]), hlen, hzero]
  rfl

end Search

/-- The search in a padded list finds what it finds in the list without the pads exactly if every
run of pads that it meets is even, or the bytes behind the first odd run lead to the same. -/
theorem padding_transparent_iff (fs : List Field)
    (hfs : ∀ o ∈ optionsIn fs, 1 ≤ o.code ∧ o.code ≤ 254) (option : UInt8)
    (hoption : 1 ≤ option ∧ option ≤ 254) (data data' : ℕ → UInt8) (size size' : ℕ)
    (hsize : size < 2 ^ 31) (hsize' : size' < 2 ^ 31)
    (hdata : HoldsAt data 0 (encodeFields fs ++ [255])) (hend : (encodeFields fs).length < size)
    (hdata' : HoldsAt data' 0 (encode (optionsIn fs) ++ [255]))
    (hend' : (encode (optionsIn fs)).length < size') :
    SameFound data size data' size' option ↔
      InStep option fs ∨ ∃ as rest, OddRun option fs as rest ∧
        ∀ v, LandsOn data size option (landing as rest) v ↔
          firstValue option (optionsIn fs) = some v := by
  have hne := code_ne_end hoption
  have hpos : option ≠ 0 := by
    rintro rfl
    exact absurd hoption.1 (by decide)
  have hcodes : ∀ o ∈ optionsIn fs, o.code ≠ 255 := fun o ho => code_ne_end (hfs o ho)
  have hcop : (0 : UInt8) ≠ 255 := by decide
  rw [sameFound_iff hcodes hne hsize hsize' hdata' hend']
  constructor
  · intro h
    refine (inStep_or_oddRun option fs).imp id ?_
    rintro ⟨as, rest, hodd⟩
    refine ⟨as, rest, hodd, fun v => ?_⟩
    rw [← foundValue_eq_some_iff hcop, ← hodd.dhcpFindOption_eq hpos hcodes hdata hend, h]
  · rintro (h | ⟨as, rest, hodd, h⟩)
    · exact h.foundValue_eq hpos hne hcodes hdata hend
    · rw [hodd.dhcpFindOption_eq hpos hcodes hdata hend]
      ext v
      rw [foundValue_eq_some_iff hcop, h v]

theorem length_messageType_le : ([1] : List UInt8).length ≤ 255 := by decide

/-- A message type behind `n` pads. -/
def paddedType (n : ℕ) : List Field :=
  List.replicate n .pad ++ [.option ⟨53, [1], length_messageType_le⟩]

/-- The bytes of a list, in front of zeros. -/
def arrayOf (bs : List UInt8) : ℕ → UInt8 :=
  fun i => bs.getD i 0

theorem holdsAt_arrayOf (bs : List UInt8) : HoldsAt (arrayOf bs) 0 bs := by
  intro k _
  rw [Nat.zero_add, arrayOf]

theorem padding_transparent_iff_two :
    SameFound (arrayOf (encodeFields (paddedType 2) ++ [255])) 1232
      (arrayOf (encode (optionsIn (paddedType 2)) ++ [255])) 1232 53 :=
  (padding_transparent_iff (paddedType 2) (by decide) 53 (by decide) _ _ 1232 1232 (by decide)
    (by decide) (holdsAt_arrayOf _) (by decide) (holdsAt_arrayOf _) (by decide)).mpr
    (Or.inl (Or.inr ⟨[.pad, .pad], ⟨53, [1], by decide⟩, [], rfl, .pads .nil, rfl⟩))

/-- One pad in front of the message type makes the search jump by 55 bytes, behind the array. -/
theorem not_padding_transparent : ¬∀ (fs : List Field),
    (∀ o ∈ optionsIn fs, 1 ≤ o.code ∧ o.code ≤ 254) → ∀ option : UInt8, 1 ≤ option ∧ option ≤ 254 →
      ∀ (data data' : ℕ → UInt8) (size size' : ℕ), size < 2 ^ 31 → size' < 2 ^ 31 →
        HoldsAt data 0 (encodeFields fs ++ [255]) → (encodeFields fs).length < size →
          HoldsAt data' 0 (encode (optionsIn fs) ++ [255]) →
            (encode (optionsIn fs)).length < size' → SameFound data size data' size' option := by
  intro h
  have hsame := h (paddedType 1) (by decide) 53 (by decide) _ _ 5 5 (by decide) (by decide)
    (holdsAt_arrayOf _) (by decide) (holdsAt_arrayOf _) (by decide)
  have hodd : OddRun 53 (paddedType 1) [] [.option ⟨53, [1], by decide⟩] := ⟨rfl, .nil, nofun⟩
  rw [sameFound_iff (by decide) (by decide) (by decide) (by decide) (holdsAt_arrayOf _) (by decide),
    hodd.dhcpFindOption_eq (by decide) (by decide) (holdsAt_arrayOf _) (by decide),
    dhcpFindFrom_of_le (by decide)] at hsame
  exact absurd hsame (by decide)

end DhcpToolset
