import DhcpToolset.AclPolls
import DhcpToolset.Bytes
import Mathlib.Data.List.GetD

/-!
# The text of `last_update`

The watermark of the polls is not a number but sixteen characters : `acl_check_last_update` prints
them into its query, and `strncpy` puts the answer of the server in their place. A text of sixteen
characters has no `NUL` there, and the next query goes on with whatever stands behind.

`text_refines_polls` : with timestamps of fifteen digits at most, every run of the polls with the
text is one of `AclPolls` with the number that the text spells. Nothing behind the sixteen
characters is written, and every query fits its buffer.
-/

set_option linter.unusedSectionVars false

open Bytes CText Qsort Transition

namespace DhcpToolset

namespace LastUpdate

/-- `strncpy` to an array : the text is cut at `n` characters, or filled up with `NUL`s. -/
def strncpy (m : ℕ → UInt8) (src : List UInt8) (n : ℕ) : ℕ → UInt8 :=
  fun x => if x < n then src.getD x 0 else m x

/-- The string that `%s` reads, out of `size` bytes that can be read. -/
def cString (m : ℕ → UInt8) (size : ℕ) : List UInt8 :=
  ((List.range size).map m).takeWhile (· ≠ 0)

/-- The query of `acl_check_last_update`, in front of `last_update`. -/
def queryText : List UInt8 :=
  ofString "SELECT MAX(ts+0) FROM access_list where (ts+0)>"

/-- The state of `AclPolls`, with `last_update` as the characters it is kept in. -/
structure State where
  rows : List AclPolls.DbRow
  clock : ℕ
  /-- The memory from `last_update` on. -/
  lastUpdate : ℕ → UInt8
  acl : AclList
  reloading : Bool

/-- The state with a number in place of the text. -/
def State.polls (s : State) (lastUpdate : ℕ) : AclPolls.State :=
  ⟨s.rows, s.clock, lastUpdate, s.acl, s.reloading⟩

/-- `last_update` is `"0"`, and `globals` is the memory that it stands in. -/
def init (start : ℕ) (entry : ℕ → UInt8) (globals : ℕ → UInt8) : State where
  rows := []
  clock := start + 1
  lastUpdate := strncpy globals (ofString "0") 16
  acl := ⟨0, entry⟩
  reloading := false

/-- `acl_check_last_update`. `answer` is what the server returns for a query : nothing if it fails,
else the first field of the row, which may be `NULL`. -/
def aclCheckLastUpdate (answer : List UInt8 → Option (Option (List UInt8))) (size : ℕ)
    (lastUpdate : ℕ → UInt8) : (ℕ → UInt8) × Bool :=
  match answer (queryText ++ cString lastUpdate size) with
  | none | some none => (lastUpdate, false)
  | some (some field) => (strncpy lastUpdate field 16, true)

section Step

variable (qsort : (AclEntry → AclEntry → ℤ) → List AclEntry → List AclEntry)
  (orderBy : List AccessRow → List AccessRow)
  (server : List AclPolls.DbRow → List UInt8 → Option (Option (List UInt8))) (size : ℕ)

/-- One step of `AclPolls` on the text. -/
def step (s : State) : AclPolls.Act → Option State
  | .check ok =>
    if s.reloading then none
    else
      let answer := fun query => if ok then server s.rows query else none
      let (lastUpdate, ret) := aclCheckLastUpdate answer size s.lastUpdate
      some { s with lastUpdate := lastUpdate, reloading := ret }
  -- the other steps do not read `last_update`
  | a => (AclPolls.step qsort orderBy (s.polls 0) a).map fun p =>
    { s with rows := p.rows, clock := p.clock, acl := p.acl, reloading := p.reloading }

end Step

/-- What the server is taken to do : it compares the timestamps with the number of the query, and
writes the greatest in decimal. -/
def IsServer (server : List AclPolls.DbRow → List UInt8 → Option (Option (List UInt8))) : Prop :=
  ∀ rows n, server rows (queryText ++ natText n) = some ((AclPolls.maxTs rows n).map natText)

/-! ## Texts -/

theorem zero_notMem_natText (n : ℕ) : (0 : UInt8) ∉ natText n := by
  obtain ⟨ds, -, hspells, -⟩ := spells_natText n
  intro h
  have := hspells.isSome_of_mem h
  revert this
  decide

theorem cString_of_holdsAt {m : ℕ → UInt8} {t : List UInt8} {size : ℕ} (h : HoldsAt m 0 (t ++ [0]))
    (hsize : t.length < size) (ht : 0 ∉ t) : cString m size = t := by
  obtain ⟨htext, hnul⟩ := holdsAt_append.mp h
  have hmap : (List.range t.length).map m = t := by simpa using htext.map_range
  obtain ⟨k, rfl⟩ : ∃ k, size = t.length + (k + 1) := ⟨size - t.length - 1, by omega⟩
  have hpos : ∀ c ∈ t, decide (c ≠ 0) = true := fun c hc =>
    decide_eq_true fun h0 => ht (h0 ▸ hc)
  rw [cString, List.range_add, List.map_append, hmap, List.takeWhile_append_of_pos hpos]
  have hzero : m t.length = 0 := by simpa using hnul
  simp [List.range_succ_eq_map, hzero]

theorem holdsAt_strncpy (m : ℕ → UInt8) {t : List UInt8} (ht : t.length ≤ 15) :
    HoldsAt (strncpy m t 16) 0 (t ++ [0]) := by
  intro k hk
  rw [List.length_append, List.length_singleton] at hk
  rw [Nat.zero_add, strncpy, if_pos (by omega)]
  rcases Nat.lt_succ_iff_lt_or_eq.mp hk with hlt | rfl
  · rw [List.getD_append _ _ _ _ hlt]
  · simp

/-! ## The two machines -/

variable {qsort : (AclEntry → AclEntry → ℤ) → List AclEntry → List AclEntry}
  {orderBy : List AccessRow → List AccessRow}
  {server : List AclPolls.DbRow → List UInt8 → Option (Option (List UInt8))} {size : ℕ}

/-- The memory from `last_update` on holds a number, and behind it what was there. -/
structure Spelled (globals m : ℕ → UInt8) (n : ℕ) : Prop where
  holds : HoldsAt m 0 (natText n ++ [0])
  behind : ∀ x, 16 ≤ x → m x = globals x

theorem spelled_strncpy {globals m : ℕ → UInt8} (h : ∀ x, 16 ≤ x → m x = globals x) {n : ℕ}
    (hn : n < 10 ^ 15) : Spelled globals (strncpy m (natText n) 16) n where
  holds := holdsAt_strncpy m (length_natText_le (by decide) hn)
  behind x hx := by rw [strncpy, if_neg (by omega), h x hx]

/-- The query for a number, and its length with the `NUL`. -/
theorem Spelled.query {globals m : ℕ → UInt8} {n : ℕ} (h : Spelled globals m n) (hn : n < 10 ^ 15)
    (hsize : 16 ≤ size) : queryText ++ cString m size = queryText ++ natText n ∧
      (queryText ++ cString m size).length + 1 ≤ 256 := by
  have hlen : (natText n).length ≤ 15 := length_natText_le (by decide) hn
  have hquery : queryText.length = 47 := by decide
  rw [cString_of_holdsAt h.holds (by omega) (zero_notMem_natText n), List.length_append, hquery]
  exact ⟨rfl, by omega⟩

/-- The check of the text does what the check of the number does. -/
theorem aclCheckLastUpdate_eq (hserver : IsServer server) (hsize : 16 ≤ size)
    {globals m : ℕ → UInt8} {n : ℕ} (h : Spelled globals m n) (hn : n < 10 ^ 15)
    {rows : List AclPolls.DbRow} (hrows : ∀ r ∈ rows, r.ts < 10 ^ 15) (ok : Bool) :
    Spelled globals
        (aclCheckLastUpdate (fun query => if ok then server rows query else none) size m).1
        (AclPolls.aclCheckLastUpdate ok rows n).1 ∧
      (aclCheckLastUpdate (fun query => if ok then server rows query else none) size m).2 =
        (AclPolls.aclCheckLastUpdate ok rows n).2 := by
  cases ok with
  | false => exact ⟨h, rfl⟩
  | true =>
    rw [aclCheckLastUpdate, (h.query hn hsize).1, if_pos rfl, hserver rows n,
      AclPolls.aclCheckLastUpdate, if_pos rfl]
    cases hmax : AclPolls.maxTs rows n with
    | none => exact ⟨h, rfl⟩
    | some ts =>
      obtain ⟨r, hr, rfl, -⟩ := AclPolls.exists_of_maxTs hmax
      exact ⟨spelled_strncpy h.behind (hrows r hr), rfl⟩

/-- Nothing is later than the clock. -/
def Clocked (p : AclPolls.State) : Prop :=
  p.lastUpdate ≤ p.clock ∧ ∀ r ∈ p.rows, r.ts ≤ p.clock

theorem clocked_step {p p' : AclPolls.State} {a : AclPolls.Act} (hi : Clocked p)
    (h : AclPolls.Does qsort orderBy p a p') : Clocked p' := by
  obtain ⟨hlast, hrows⟩ := hi
  cases h with
  | tick => exact ⟨Nat.le_succ_of_le hlast, fun r hr => Nat.le_succ_of_le (hrows r hr)⟩
  | insert =>
    refine ⟨hlast, fun r hr => ?_⟩
    rcases List.mem_append.mp hr with hr | hr
    · exact hrows r hr
    · obtain rfl := List.mem_singleton.mp hr
      exact Nat.le_refl _
  | update _ =>
    refine ⟨hlast, fun r hr => ?_⟩
    rcases List.mem_or_eq_of_mem_set hr with hr | rfl
    · exact hrows r hr
    · exact Nat.le_refl _
  | delete _ => exact ⟨hlast, fun r hr => hrows r (List.mem_of_mem_eraseIdx hr)⟩
  | unchanged _ => exact ⟨hlast, hrows⟩
  | reported hr _ => exact ⟨hrows _ hr, hrows⟩
  | loaded | failed => exact ⟨hlast, hrows⟩

/-- The text is that of the number. -/
structure Related (globals : ℕ → UInt8) (s : State) (p : AclPolls.State) : Prop where
  polls : s.polls p.lastUpdate = p
  spelled : Spelled globals s.lastUpdate p.lastUpdate
  clocked : Clocked p

theorem related_init (start : ℕ) (entry globals : ℕ → UInt8) :
    Related globals (init start entry globals) (AclPolls.init start entry) where
  polls := rfl
  spelled := spelled_strncpy (n := 0) (fun _ _ => rfl) (by decide)
  clocked := ⟨Nat.zero_le _, by simp [AclPolls.init]⟩

/-- A step that does not read the watermark. -/
theorem step_polls (s : State) (n : ℕ) {a : AclPolls.Act} (ha : ∀ ok, a ≠ .check ok) :
    AclPolls.step qsort orderBy (s.polls n) a =
      (AclPolls.step qsort orderBy (s.polls 0) a).map fun q => { q with lastUpdate := n } := by
  cases a with
  | check ok => exact absurd rfl (ha ok)
  | tick | insert _ => rfl
  | update i _ | delete i =>
    by_cases hi : i < s.rows.length <;> simp [AclPolls.step, State.polls, hi]
  | doUpdate ok =>
    cases hr : s.reloading <;> simp [AclPolls.step, State.polls, AclPolls.doUpdate, hr]

theorem related_step (hserver : IsServer server) (hsize : 16 ≤ size) {globals : ℕ → UInt8}
    {s s' : State} {p : AclPolls.State} {a : AclPolls.Act} (hclock : s.clock < 10 ^ 15)
    (hr : Related globals s p) (h : step qsort orderBy server size s a = some s') :
    ∃ p', AclPolls.step qsort orderBy p a = some p' ∧ Related globals s' p' := by
  obtain ⟨hpolls, hspelled, hclocked⟩ := hr
  obtain ⟨n, rfl⟩ : ∃ n, p = s.polls n := ⟨p.lastUpdate, hpolls.symm⟩
  have hkeep {p' : AclPolls.State} (hp : AclPolls.step qsort orderBy (s.polls n) a = some p') :
      Clocked p' := clocked_step hclocked (AclPolls.does_of_step hp)
  cases a with
  | check ok =>
    simp only [step] at h
    split at h
    · cases h
    · obtain ⟨htext, hret⟩ := aclCheckLastUpdate_eq hserver hsize hspelled
        (Nat.lt_of_le_of_lt hclocked.1 hclock)
        (fun r hr => Nat.lt_of_le_of_lt (hclocked.2 r hr) hclock) ok
      obtain rfl := Option.some.inj h
      have hp : AclPolls.step qsort orderBy (s.polls n) (.check ok) =
          some (AclPolls.check ok (s.polls n)) := if_neg ‹_›
      refine ⟨_, hp, ?_, htext, hkeep hp⟩
      exact congrArg (fun ret => (⟨s.rows, s.clock, _, s.acl, ret⟩ : AclPolls.State)) hret
  | tick | insert _ | update _ _ | delete _ | doUpdate _ =>
    simp only [step] at h
    obtain ⟨q, hq, rfl⟩ := Option.map_eq_some_iff.mp h
    have hp := (step_polls s n (by simp)).trans (congrArg _ hq)
    exact ⟨_, hp, rfl, hspelled, hkeep hp⟩

/-- The clock has fifteen digits at most. -/
def ClockFits (s : State) (_ : AclPolls.Act) : Prop :=
  s.clock < 10 ^ 15

instance (s : State) (a : AclPolls.Act) : Decidable (ClockFits s a) :=
  inferInstanceAs (Decidable (_ < _))

/-- With timestamps of fifteen digits, every run is one of the polls with the number that the text
spells. The memory behind the text stays as it was, and the next query fits its buffer. -/
theorem text_refines_polls (hserver : IsServer server) (hsize : 16 ≤ size) {start : ℕ}
    {entry globals : ℕ → UInt8} {acts : List AclPolls.Act} {s : State}
    (hrun : run (step qsort orderBy server size) (init start entry globals) acts = some s)
    (hfits : StepsMeet (step qsort orderBy server size) ClockFits (init start entry globals) acts)
    (hclock : s.clock < 10 ^ 15) :
    ∃ n, run (AclPolls.step qsort orderBy) (AclPolls.init start entry) acts = some (s.polls n) ∧
      cString s.lastUpdate size = natText n ∧ (∀ x, 16 ≤ x → s.lastUpdate x = globals x) ∧
      (queryText ++ cString s.lastUpdate size).length + 1 ≤ 256 := by
  obtain ⟨p, hp, hpolls, hspelled, hclocked⟩ := hfits.simulation (R := Related globals)
    (fun s a s' p hc hr (h : step qsort orderBy server size s a = some s') =>
      related_step hserver hsize hc hr h)
    (related_init start entry globals) hrun
  have hn : p.lastUpdate < 10 ^ 15 := by
    rw [← hpolls] at hclocked
    exact Nat.lt_of_le_of_lt hclocked.1 hclock
  obtain ⟨hquery, hlen⟩ := hspelled.query hn hsize
  exact ⟨p.lastUpdate, hpolls ▸ hp, List.append_cancel_left hquery, hspelled.behind, hlen⟩

/-- A server that reads the number behind the text of the query. -/
def decimalServer (rows : List AclPolls.DbRow) (query : List UInt8) :
    Option (Option (List UInt8)) :=
  some ((AclPolls.maxTs rows (value 10 (digits 10 (query.drop queryText.length)))).map natText)

theorem isServer_decimalServer : IsServer decimalServer := by
  intro rows n
  obtain ⟨ds, -, hspells, hvalue⟩ := spells_natText n
  have hdigits : digits 10 (natText n) = ds := by
    simpa using hspells.digits_append (s := []) (by simp)
  rw [decimalServer, List.drop_left, hdigits, hvalue]

/-- Two polls, with a row inserted before each. -/
def twoPolls : List AclPolls.Act :=
  [.insert fullRow, .check true, .doUpdate true, .tick, .insert wildcardRow, .check true]

theorem text_refines_polls_two : ∃ s n,
    run (step insertion id decimalServer 16) (init 7 (fun _ => 0) fun _ => 1) twoPolls = some s ∧
    run (AclPolls.step insertion id) (AclPolls.init 7 fun _ => 0) twoPolls = some (s.polls n) ∧
    cString s.lastUpdate 16 = natText n := by
  have hex : ∃ s, run (step insertion id decimalServer 16) (init 7 (fun _ => 0) fun _ => 1)
      twoPolls = some s := ⟨_, rfl⟩
  obtain ⟨s, hs⟩ := hex
  have hfits : StepsMeet (step insertion id decimalServer 16) ClockFits
      (init 7 (fun _ => 0) fun _ => 1) twoPolls := by decide
  have hclock : s.clock = 9 := eq_of_run_map (f := State.clock) hs rfl
  obtain ⟨n, hrun, htext, -, -⟩ :=
    text_refines_polls isServer_decimalServer (Nat.le_refl 16) hs hfits (by rw [hclock]; decide)
  exact ⟨s, n, hs, hrun, htext⟩

end LastUpdate

end DhcpToolset
