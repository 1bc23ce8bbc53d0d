import Mathlib.Data.List.Basic
import Mathlib.Logic.Function.Basic

/-!
# The options of a packet

`dhcp_find_option` (`dhcp.c`) walks the options of a packet : a code, a length, and the
value. It is given the size of the array the options lie in, not how much of it was
received.

`Decided` : from an index on, the first `known` bytes say what the search finds and what
its caller reads of it. `outcome_congr` : then the bytes behind do not matter, and
`decided_of_outcome` : otherwise some of them do.
-/

set_option linter.unusedSectionVars false

namespace DhcpToolset

/-- The loop of `dhcp_find_option` from `idx` on, `cop` being the last code. It gives where the
value of the option starts, and its length. -/
def dhcpFindFrom (data : ℕ → UInt8) (size : ℕ) (option cop : UInt8) (idx : ℕ) :
    Option (ℕ × UInt8) :=
  if cop ≠ 255 ∧ idx < size then
    let cop := data idx
    let dlen := data (idx + 1)
    if cop = option then some (idx + 2, dlen)
    else dhcpFindFrom data size option cop (idx + (dlen.toNat + 2))
  else none
termination_by size - idx

/-- `dhcp_find_option`. -/
def dhcpFindOption (data : ℕ → UInt8) (size : ℕ) (option : UInt8) : Option (ℕ × UInt8) :=
  dhcpFindFrom data size option 0 0

/-! ## One step of the search -/

section Search

variable {data data' : ℕ → UInt8} {size known limit idx : ℕ} {option cop : UInt8}

theorem dhcpFindFrom_of_le (h : size ≤ idx) : dhcpFindFrom data size option cop idx = none := by
  rw [dhcpFindFrom, if_neg (by omega)]

theorem dhcpFindFrom_of_eq (hcop : cop ≠ 255) (hidx : idx < size) (h : data idx = option) :
    dhcpFindFrom data size option cop idx = some (idx + 2, data (idx + 1)) := by
  rw [dhcpFindFrom, if_pos ⟨hcop, hidx⟩]
  exact if_pos h

theorem dhcpFindFrom_of_end (hne : data idx ≠ option) (h : data idx = 255) :
    dhcpFindFrom data size option cop idx = none := by
  rw [dhcpFindFrom]
  split_ifs
  · dsimp only
    rw [if_neg hne, h, dhcpFindFrom, if_neg (by simp)]
  · rfl

theorem dhcpFindFrom_of_ne (hcop : cop ≠ 255) (hidx : idx < size) (hne : data idx ≠ option) :
    dhcpFindFrom data size option cop idx =
      dhcpFindFrom data size option (data idx) (idx + ((data (idx + 1)).toNat + 2)) := by
  rw [dhcpFindFrom, if_pos ⟨hcop, hidx⟩]
  exact if_neg hne

/-! ## What the first bytes decide -/

/-- The first `known` bytes decide the search from an index on. `value` says that they hold what
the caller reads of an option found at an index. -/
inductive Decided (data : ℕ → UInt8) (size known : ℕ) (option : UInt8) (value : ℕ → Prop) :
    ℕ → Prop where
  /-- The array ends. -/
  | past {i} : size ≤ i → Decided data size known option value i
  | found {i} : i < known → data i = option → value i → Decided data size known option value i
  /-- The options end. -/
  | stop {i} : i < known → data i ≠ option → data i = 255 → Decided data size known option value i
  /-- The array ends behind this option, whatever its length. -/
  | last {i} : i < known → data i ≠ option → size ≤ i + 2 → Decided data size known option value i
  | next {i} : i + 1 < known → data i ≠ option → data i ≠ 255 →
      Decided data size known option value (i + ((data (i + 1)).toNat + 2)) →
      Decided data size known option value i

variable {value : ℕ → Prop}

/-- Then the search is the same with other bytes behind. -/
theorem dhcpFindFrom_congr (hvalue : ∀ i, value i → i + 2 ≤ known)
    (h : Decided data size known option value idx) (hagree : ∀ i < known, data' i = data i) :
    ∀ {cop : UInt8}, cop ≠ 255 →
      dhcpFindFrom data' size option cop idx = dhcpFindFrom data size option cop idx := by
  induction h with
  | past h =>
    intro cop _
    rw [dhcpFindFrom_of_le h, dhcpFindFrom_of_le h]
  | @found idx hk heq hval =>
    intro cop hcop
    by_cases hidx : idx < size
    · have hlen := hagree (idx + 1) (hvalue idx hval)
      rw [dhcpFindFrom_of_eq hcop hidx ((hagree idx hk).trans heq),
        dhcpFindFrom_of_eq hcop hidx heq, hlen]
    · rw [dhcpFindFrom_of_le (by omega), dhcpFindFrom_of_le (by omega)]
  | @stop idx hk hne hend =>
    intro cop _
    rw [dhcpFindFrom_of_end (by rwa [hagree idx hk]) (by rwa [hagree idx hk]),
      dhcpFindFrom_of_end hne hend]
  | @last idx hk hne hsize =>
    intro cop hcop
    by_cases hidx : idx < size
    · rw [dhcpFindFrom_of_ne hcop hidx (by rwa [hagree idx hk]), dhcpFindFrom_of_le (by omega),
        dhcpFindFrom_of_ne hcop hidx hne, dhcpFindFrom_of_le (by omega)]
    · rw [dhcpFindFrom_of_le (by omega), dhcpFindFrom_of_le (by omega)]
  | @next idx hk hne hend _ ih =>
    intro cop hcop
    by_cases hidx : idx < size
    · rw [dhcpFindFrom_of_ne hcop hidx (by rwa [hagree idx (by omega)]), hagree (idx + 1) hk,
        hagree idx (by omega), dhcpFindFrom_of_ne hcop hidx hne, ih hend]
    · rw [dhcpFindFrom_of_le (by omega), dhcpFindFrom_of_le (by omega)]

/-- An option that is found has a known value. -/
theorem value_of_decided (h : Decided data size known option value idx) {p : ℕ × UInt8} :
    ∀ {cop : UInt8}, cop ≠ 255 → dhcpFindFrom data size option cop idx = some p →
      ∃ i, p = (i + 2, data (i + 1)) ∧ value i := by
  induction h with
  | past h =>
    intro cop _ hf
    simp [dhcpFindFrom_of_le h] at hf
  | @found i hk heq hval =>
    intro cop hcop hf
    by_cases hidx : i < size
    · rw [dhcpFindFrom_of_eq hcop hidx heq] at hf
      exact ⟨i, (Option.some.inj hf).symm, hval⟩
    · simp [dhcpFindFrom_of_le (Nat.le_of_not_lt hidx)] at hf
  | stop hk hne hend =>
    intro cop _ hf
    simp [dhcpFindFrom_of_end hne hend] at hf
  | @last i hk hne hsize =>
    intro cop hcop hf
    by_cases hidx : i < size
    · rw [dhcpFindFrom_of_ne hcop hidx hne, dhcpFindFrom_of_le (by omega)] at hf
      cases hf
    · simp [dhcpFindFrom_of_le (Nat.le_of_not_lt hidx)] at hf
  | @next i hk hne hend _ ih =>
    intro cop hcop hf
    by_cases hidx : i < size
    · rw [dhcpFindFrom_of_ne hcop hidx hne] at hf
      exact ih hend hf
    · simp [dhcpFindFrom_of_le (Nat.le_of_not_lt hidx)] at hf

/-! ## What the caller makes of the search -/

variable {β : Type*} {out : (ℕ → UInt8) → ℕ × UInt8 → β} {d : β}

/-- What a caller makes of the search from `idx` on : `out` of an option that is found, else `d`. -/
def outcome (out : (ℕ → UInt8) → ℕ × UInt8 → β) (d : β) (data : ℕ → UInt8) (size : ℕ)
    (option cop : UInt8) (idx : ℕ) : β :=
  ((dhcpFindFrom data size option cop idx).map (out data)).getD d

/-- A caller that reads known bytes only has the same result with other bytes behind. -/
theorem outcome_congr (hvalue : ∀ i, value i → i + 2 ≤ known)
    (hout : ∀ i, value i → out data' (i + 2, data (i + 1)) = out data (i + 2, data (i + 1)))
    (h : Decided data size known option value idx) (hagree : ∀ i < known, data' i = data i)
    (hcop : cop ≠ 255) :
    outcome out d data' size option cop idx = outcome out d data size option cop idx := by
  rw [outcome, outcome, dhcpFindFrom_congr hvalue h hagree hcop]
  cases hf : dhcpFindFrom data size option cop idx with
  | none => rfl
  | some p =>
    obtain ⟨i, rfl, hval⟩ := value_of_decided h hcop hf
    exact hout i hval

/-- The bytes below `known` and from `limit` on are those of `data`. -/
def Extends (data : ℕ → UInt8) (known limit : ℕ) (data' : ℕ → UInt8) : Prop :=
  ∀ i, i < known ∨ limit ≤ i → data' i = data i

theorem Extends.update {i : ℕ} (h : Extends data known limit data') (hk : known ≤ i)
    (hl : i < limit) (v : UInt8) : Extends data known limit (Function.update data' i v) := by
  intro j hj
  rw [Function.update_of_ne (by omega), h j hj]

/-- The option at an index with the value `v`, of one byte. -/
def putOption (data : ℕ → UInt8) (option : UInt8) (i : ℕ) (v : UInt8) : ℕ → UInt8 :=
  Function.update (Function.update (Function.update data i option) (i + 1) 1) (i + 2) v

theorem Extends.putOption {i : ℕ} (h : Extends data known limit data') (hk : known ≤ i)
    (hl : i + 2 < limit) (option v : UInt8) :
    Extends data known limit (putOption data' option i v) :=
  ((h.update hk (by omega) option).update (by omega) (by omega) 1).update (by omega) hl v

/-- Callers that read the value : one of an option of one byte shows it, and one whose bytes are
not all known can change. -/
structure ReadsValue (out : (ℕ → UInt8) → ℕ × UInt8 → β) (option : UInt8) (data : ℕ → UInt8)
    (known limit : ℕ) (value : ℕ → Prop) : Prop where
  one : ∀ data' i, out (putOption data' option i 1) (i + 2, 1) ≠
    out (putOption data' option i 2) (i + 2, 1)
  known_of : ∀ i, i < known → data i = option → i + 257 ≤ limit →
    (∀ data' data'', Extends data known limit data' → Extends data known limit data'' →
      out data' (i + 2, data' (i + 1)) = out data'' (i + 2, data'' (i + 1))) → value i

@[simp] theorem putOption_code (data : ℕ → UInt8) (option : UInt8) (i : ℕ) (v : UInt8) :
    putOption data option i v i = option := by
  simp [putOption]

@[simp] theorem putOption_length (data : ℕ → UInt8) (option : UInt8) (i : ℕ) (v : UInt8) :
    putOption data option i v (i + 1) = 1 := by
  simp [putOption]

theorem putOption_of_lt (data : ℕ → UInt8) (option v : UInt8) {i j : ℕ} (h : j < i) :
    putOption data option i v j = data j := by
  rw [putOption, Function.update_of_ne (by omega), Function.update_of_ne (by omega),
    Function.update_of_ne (by omega)]

theorem outcome_of_eq (hcop : cop ≠ 255) (hidx : idx < size) (h : data idx = option) :
    outcome out d data size option cop idx = out data (idx + 2, data (idx + 1)) := by
  rw [outcome, dhcpFindFrom_of_eq hcop hidx h]
  rfl

theorem outcome_of_ne (hcop : cop ≠ 255) (hidx : idx < size) (hne : data idx ≠ option) :
    outcome out d data size option cop idx =
      outcome out d data size option (data idx) (idx + ((data (idx + 1)).toNat + 2)) := by
  rw [outcome, dhcpFindFrom_of_ne hcop hidx hne, outcome]

theorem outcome_putOption (data : ℕ → UInt8) (hcop : cop ≠ 255) (hidx : idx < size) (v : UInt8) :
    outcome out d (putOption data option idx v) size option cop idx =
      out (putOption data option idx v) (idx + 2, 1) := by
  rw [outcome_of_eq hcop hidx (putOption_code data option idx v), putOption_length]

/-- Without a length, the next option may follow at once. -/
theorem outcome_putOption_next (data : ℕ → UInt8) (hcop : cop ≠ 255) (hidx : idx + 2 < size)
    (hne : data idx ≠ option) (hend : data idx ≠ 255) (v : UInt8) :
    outcome out d (putOption (Function.update data (idx + 1) 0) option (idx + 2) v) size option cop
        idx =
      out (putOption (Function.update data (idx + 1) 0) option (idx + 2) v) (idx + 4, 1) := by
  have hcode : putOption (Function.update data (idx + 1) 0) option (idx + 2) v idx = data idx := by
    rw [putOption_of_lt _ _ _ (by omega), Function.update_of_ne (by omega)]
  have hlen : putOption (Function.update data (idx + 1) 0) option (idx + 2) v (idx + 1) = 0 := by
    rw [putOption_of_lt _ _ _ (by omega), Function.update_self]
  rw [outcome_of_ne hcop (by omega) (by rwa [hcode]), hcode, hlen]
  exact outcome_putOption _ hend hidx v

/-- A caller whose result the bytes behind cannot change searched what the first bytes decide. -/
theorem decided_of_outcome (hr : ReadsValue out option data known limit value)
    (hlimit : size + 256 ≤ limit) {cop : UInt8} {idx : ℕ} (hcop : cop ≠ 255)
    (h : ∀ data' data'', Extends data known limit data' → Extends data known limit data'' →
      outcome out d data' size option cop idx = outcome out d data'' size option cop idx) :
    Decided data size known option value idx := by
  have hself : Extends data known limit data := fun _ _ => rfl
  by_cases hidx : idx < size
  swap
  · exact .past (by omega)
  by_cases hk : idx < known
  swap
  · -- the option may stand here, with any value
    have heq := h _ _ (hself.putOption (i := idx) (by omega) (by omega) option 1)
      (hself.putOption (i := idx) (by omega) (by omega) option 2)
    rw [outcome_putOption _ hcop hidx, outcome_putOption _ hcop hidx] at heq
    exact absurd heq (hr.one data idx)
  by_cases heq : data idx = option
  · refine .found hk heq (hr.known_of idx hk heq (by omega) fun data' data'' h' h'' => ?_)
    have := h data' data'' h' h''
    rwa [outcome_of_eq hcop hidx ((h' idx (Or.inl hk)).trans heq),
      outcome_of_eq hcop hidx ((h'' idx (Or.inl hk)).trans heq)] at this
  by_cases hend : data idx = 255
  · exact .stop hk heq hend
  by_cases hsize : size ≤ idx + 2
  · exact .last hk heq hsize
  by_cases hk1 : idx + 1 < known
  · refine .next hk1 heq hend (decided_of_outcome hr hlimit hend fun data' data'' h' h'' => ?_)
    have := h data' data'' h' h''
    rwa [outcome_of_ne hcop hidx (by rwa [h' idx (Or.inl hk)]),
      outcome_of_ne hcop hidx (by rwa [h'' idx (Or.inl hk)]), h' _ (Or.inl hk), h'' _ (Or.inl hk),
      h' _ (Or.inl hk1), h'' _ (Or.inl hk1)] at this
  · have hzero : Extends data known limit (Function.update data (idx + 1) 0) :=
      hself.update (by omega) (by omega) 0
    have hout := h _ _ (hzero.putOption (i := idx + 2) (by omega) (by omega) option 1)
      (hzero.putOption (i := idx + 2) (by omega) (by omega) option 2)
    rw [outcome_putOption_next _ hcop (by omega) heq hend,
      outcome_putOption_next _ hcop (by omega) heq hend] at hout
    exact absurd hout (hr.one _ (idx + 2))
termination_by size - idx

end Search

end DhcpToolset
