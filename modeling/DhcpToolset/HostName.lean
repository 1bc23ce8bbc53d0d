import DhcpToolset.HandleOffer
import DhcpToolset.OptionPads

/-!
# The host name of an offer

`handle_offer` looks for the host name, drops a last `NUL` byte and passes the rest to
`mysql_hex_string`. It does not ask whether an option was found, and it reads the byte at the
length minus one before it knows that the length is not 0. The length is a `size_t` : below an
empty value the index wraps to the byte before it, which is the length byte 0, so the length wraps
too.

`host_name_safe_iff` : the lines are safe exactly if the search comes to a host name of at least
one byte.
-/

set_option linter.unusedSectionVars false

open Bytes Tlv Traced

namespace DhcpToolset

/-- An access through `ohn` : `NULL`, or a byte of the options. -/
inductive NameUse where
  | null
  | byte (off : ℕ)
  deriving DecidableEq

/-- The search for the host name. -/
def findHostName (options : ℕ → UInt8) : Option (ℕ × UInt8) :=
  dhcpFindOption options (dhcpMaxOptionLen - 4) dhoHostName

/-- The length that `handle_offer` passes to `mysql_hex_string`, with a `size_t` of `w` bits. There
is none once it has read through `NULL`. -/
def hostNameLength (w : ℕ) (options : ℕ → UInt8) : Traced NameUse (Option ℕ) :=
  match findHostName options with
  | none => do
    touch [.null]
    pure none
  | some (ohn, hnl) => do
    let last := (hnl.toNat + (2 ^ w - 1)) % 2 ^ w
    let off := (ohn + last) % 2 ^ w
    touch [.byte off]
    pure (some (if options off = 0 then last else hnl.toNat))

/-- The buffer `hnhex`. -/
def sizeofHnhex : ℕ := 512

/-- No access through `NULL` or before the value, and a length whose digits fit the buffer. -/
structure HostNameSafe (w : ℕ) (options : ℕ → UInt8) : Prop where
  not_null : (hostNameLength w options).All (· ≠ .null)
  in_value : ∀ ohn hnl, findHostName options = some (ohn, hnl) →
    (hostNameLength w options).All fun u => ∀ off, u = .byte off → ohn ≤ off
  length_le : ∀ ohn hnl n, findHostName options = some (ohn, hnl) →
    (hostNameLength w options).val = some n → n ≤ hnl.toNat ∧ 2 * n + 1 ≤ sizeofHnhex

/-- The bytes, read as items, first show a host name that is not empty. -/
def ShowsHostName (options : ℕ → UInt8) : Prop :=
  ∃ p < dhcpMaxOptionLen - 4, Reaches options dhoHostName 0 p ∧ options p = dhoHostName ∧
    options (p + 1) ≠ 0

section Name

variable {w : ℕ} {options : ℕ → UInt8}

theorem showsHostName_iff : ShowsHostName options ↔
    ∃ ohn hnl, findHostName options = some (ohn, hnl) ∧ hnl ≠ 0 := by
  have hfind : ∀ r, findHostName options = some r ↔ _ :=
    fun r => dhcpFindFrom_eq_some_iff (by decide)
  constructor
  · rintro ⟨p, hp, hreach, hcode, hne⟩
    exact ⟨_, _, (hfind _).mpr ⟨p, hp, hreach, hcode, rfl⟩, hne⟩
  · rintro ⟨ohn, hnl, h, hne⟩
    obtain ⟨p, hp, hreach, hcode, heq⟩ := (hfind _).mp h
    obtain ⟨rfl, rfl⟩ := Prod.mk.inj heq
    exact ⟨p, hp, hreach, hcode, hne⟩

/-- An option that is found starts inside the array, behind its code and length. -/
theorem findHostName_bounds {ohn : ℕ} {hnl : UInt8} (h : findHostName options = some (ohn, hnl)) :
    2 ≤ ohn ∧ ohn < 2 ^ 16 := by
  obtain ⟨p, hp, -, -, heq⟩ := (dhcpFindFrom_eq_some_iff (by decide)).mp h
  obtain ⟨rfl, -⟩ := Prod.mk.inj heq
  have hsize : dhcpMaxOptionLen - 4 = 1232 := rfl
  omega

/-- In a `size_t`, one less than 0 is the greatest number. -/
theorem last_eq (hw : w = 32 ∨ w = 64) (hnl : UInt8) {ohn : ℕ} (hohn : 2 ≤ ohn ∧ ohn < 2 ^ 16) :
    if hnl = 0 then (ohn + (hnl.toNat + (2 ^ w - 1)) % 2 ^ w) % 2 ^ w = ohn - 1
    else (hnl.toNat + (2 ^ w - 1)) % 2 ^ w = hnl.toNat - 1 ∧
      (ohn + (hnl.toNat - 1)) % 2 ^ w = ohn + (hnl.toNat - 1) := by
  have hlt := hnl.toNat_lt
  split_ifs with h0
  · subst h0
    rcases hw with rfl | rfl <;> simp only [show (0 : UInt8).toNat = 0 from rfl] <;> omega
  · have hpos : hnl.toNat ≠ 0 := fun h => h0 (UInt8.toNat_inj.mp h)
    rcases hw with rfl | rfl <;> omega

/-- The lines are safe exactly on a host name that is found and not empty. -/
theorem hostNameSafe_iff (hw : w = 32 ∨ w = 64) : HostNameSafe w options ↔
    ∃ ohn hnl, findHostName options = some (ohn, hnl) ∧ hnl ≠ 0 := by
  cases hfind : findHostName options with
  | none =>
    refine iff_of_false (fun h => ?_) nofun
    have hnull := h.not_null
    simp only [hostNameLength, hfind, all_bind, all_touch] at hnull
    exact hnull.1 _ List.mem_cons_self rfl
  | some r =>
    obtain ⟨ohn, hnl⟩ := r
    have hohn := findHostName_bounds hfind
    have hlast := last_eq hw hnl hohn
    by_cases h0 : hnl = 0
    · rw [if_pos h0] at hlast
      refine iff_of_false (fun h => ?_) (by rintro ⟨_, _, heq, hne⟩; simp_all)
      have hin := h.in_value ohn hnl hfind
      simp only [hostNameLength, hfind, all_bind, all_touch] at hin
      have := hin.1 _ List.mem_cons_self _ rfl
      omega
    · rw [if_neg h0] at hlast
      have hbyte := hnl.toNat_lt
      refine iff_of_true ⟨?_, ?_, ?_⟩ ⟨ohn, hnl, rfl, h0⟩
      · simp [hostNameLength, hfind]
      · rintro ohn' hnl' heq
        obtain ⟨rfl, rfl⟩ := Prod.mk.inj (Option.some.inj (hfind.symm.trans heq))
        simp only [hostNameLength, hfind, all_bind, all_touch, all_pure, List.forall_mem_singleton,
          hlast.1, hlast.2, NameUse.byte.injEq]
        refine ⟨?_, trivial⟩
        rintro off rfl
        omega
      · rintro ohn' hnl' n heq hn
        obtain ⟨rfl, rfl⟩ := Prod.mk.inj (Option.some.inj (hfind.symm.trans heq))
        simp only [hostNameLength, hfind, val_bind, val_pure, hlast.1, Option.some.injEq] at hn
        have hle : n ≤ hnl.toNat := by
          rw [← hn]
          split_ifs <;> omega
        exact ⟨hle, show 2 * n + 1 ≤ 512 by omega⟩

/-- On a name that is not empty, the length is that of the host name which is logged. -/
theorem hostName_eq_of_val (hw : w = 32 ∨ w = 64) {ohn n : ℕ} {hnl : UInt8} (h0 : hnl ≠ 0)
    (hfind : findHostName options = some (ohn, hnl))
    (hn : (hostNameLength w options).val = some n) :
    hostName options (ohn, hnl) = some ((List.range n).map fun i => options (ohn + i)) := by
  have hohn := findHostName_bounds hfind
  have hlast := last_eq hw hnl hohn
  have hpos : hnl.toNat ≠ 0 := fun h => h0 (UInt8.toNat_inj.mp h)
  rw [if_neg h0] at hlast
  simp only [hostNameLength, hfind, val_bind, val_pure, hlast.1, hlast.2, Option.some.injEq] at hn
  simp only [hostName, if_neg hpos, hn]

end Name

/-- The host name lines of `handle_offer` are safe exactly if the options, read as items, come to a
host name of at least one byte. For a list of options up to `DHO_END` inside the array this says
that its first host name has at least one byte. -/
theorem host_name_safe_iff (w : ℕ) (hw : w = 32 ∨ w = 64) (buf : OfferArgs) :
    (HostNameSafe w (optionsOf buf.packet) ↔ ShowsHostName (optionsOf buf.packet)) ∧
    ∀ os : List Item, (∀ o ∈ os, 1 ≤ o.code ∧ o.code ≤ 254) →
      HoldsAt (optionsOf buf.packet) 0 (encode os ++ [255]) →
        (encode os).length < dhcpMaxOptionLen - 4 →
          (HostNameSafe w (optionsOf buf.packet) ↔
            ∃ v, firstValue dhoHostName os = some v ∧ v ≠ []) := by
  refine ⟨(hostNameSafe_iff hw).trans showsHostName_iff.symm, fun os hos hdata hend => ?_⟩
  have hcodes : ∀ o ∈ os, o.code ≠ 255 := fun o ho => code_ne_end (hos o ho)
  have hfound : foundValue (optionsOf buf.packet) (findHostName (optionsOf buf.packet)) =
      firstValue dhoHostName os :=
    foundValue_encode hcodes (by decide) hdata (by omega) (by decide)
  rw [hostNameSafe_iff hw, ← hfound]
  cases hfind : findHostName (optionsOf buf.packet) with
  | none => simp [foundValue]
  | some r =>
    obtain ⟨ohn, hnl⟩ := r
    have hempty : hnl = 0 ↔ hnl.toNat = 0 := UInt8.toNat_inj.symm
    simp [foundValue, hempty]

/-- The host name lines on the packet of `namedOffer`. -/
theorem host_name_safe_iff_named : HostNameSafe 64 (optionsOf namedOffer.packet) := by
  refine (host_name_safe_iff 64 (Or.inr rfl) namedOffer).1.mpr
    ⟨3, by decide, ?_, by decide, by decide⟩
  exact .skip (by decide) (by decide) (.refl _ _ _)

/-- An offer without a host name. -/
def namelessOffer : OfferArgs :=
  { sampleOffer with
    packet := fun x =>
      if x = 2 then 6
      else if x < 240 then 0
      else ([53, 1, 1, 255] : List UInt8).getD (x - 240) 0 }

theorem not_host_name_safe : ¬∀ w : ℕ, w = 32 ∨ w = 64 → ∀ (buf : OfferArgs) (os : List Item),
    (∀ o ∈ os, 1 ≤ o.code ∧ o.code ≤ 254) →
      HoldsAt (optionsOf buf.packet) 0 (encode os ++ [255]) →
        (encode os).length < dhcpMaxOptionLen - 4 → HostNameSafe w (optionsOf buf.packet) := by
  intro h
  have hsafe := h 32 (Or.inl rfl) namelessOffer [⟨53, [1], by decide⟩] (by decide)
    (by unfold HoldsAt; decide) (by decide)
  obtain ⟨ohn, hnl, hfind, -⟩ := (hostNameSafe_iff (Or.inl rfl)).mp hsafe
  have hnone : findHostName (optionsOf namelessOffer.packet) = none := by
    rw [findHostName, dhcpFindOption, dhcpFindFrom_of_ne (by decide) (by decide) (by decide)]
    exact dhcpFindFrom_of_end (by decide) (by decide)
  simp [hnone] at hfind

end DhcpToolset
