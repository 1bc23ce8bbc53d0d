import DhcpToolset.AclUpdate
import DhcpToolset.Transition

/-!
# Polling the access list

`acl_update_thread` polls the database : `acl_check_last_update` asks for the latest
timestamp after `last_update` and keeps it there, and if there is one, `acl_do_update` loads
the table. The rows change while this goes on. An insert or an update stamps its row with
the second of the database clock; a delete leaves no trace.

The two results are about what the watermark misses. After a poll without failures the
list is that of the rows (`published_after_poll`) if the poll loaded it, or if since the
last load every change is one that the check sees. And as `last_update` moves before
the load, the rows up to it are in the list as long as no load fails
(`reflected_of_reloads`).
-/

set_option linter.unusedSectionVars false

open Qsort Transition

namespace DhcpToolset

namespace AclPolls

/-- A row of `access_list`, with the second of its last change. -/
structure DbRow where
  row : AccessRow
  ts : ℕ

/-- The rows of the database, and what the Monitor keeps between two polls. -/
structure State where
  rows : List DbRow
  /-- The clock of the database. -/
  clock : ℕ
  lastUpdate : ℕ
  acl : AclList
  /-- `acl_check_last_update` returned `TRUE`, and `acl_do_update` is to run. -/
  reloading : Bool

/-- The clock of the database, a change of its rows, or a half of a poll. -/
inductive Act where
  | tick
  | insert (row : AccessRow)
  | update (i : ℕ) (row : AccessRow)
  | delete (i : ℕ)
  /-- `acl_check_last_update`, `ok` if its query succeeds. -/
  | check (ok : Bool)
  /-- `acl_do_update`, `ok` if its query succeeds. -/
  | doUpdate (ok : Bool)

/-- An empty table and an empty list. Timestamps are positive. -/
def init (start : ℕ) (entry : ℕ → UInt8) : State where
  rows := []
  clock := start + 1
  lastUpdate := 0
  acl := ⟨0, entry⟩
  reloading := false

/-- `SELECT MAX(ts+0) FROM access_list where (ts+0)>last_update`. -/
def maxTs (rows : List DbRow) (lastUpdate : ℕ) : Option ℕ :=
  ((rows.map DbRow.ts).filter (lastUpdate < ·)).max?

/-- `acl_check_last_update`, with the new `last_update`. -/
def aclCheckLastUpdate (ok : Bool) (rows : List DbRow) (lastUpdate : ℕ) : ℕ × Bool :=
  if ok then
    match maxTs rows lastUpdate with
    | none => (lastUpdate, false)
    | some ts => (ts, true)
  else (lastUpdate, false)

section Step

variable (qsort : (AclEntry → AclEntry → ℤ) → List AclEntry → List AclEntry)
  (orderBy : List AccessRow → List AccessRow)

/-- The first half of a poll. -/
def check (ok : Bool) (s : State) : State :=
  let (lastUpdate, ret) := aclCheckLastUpdate ok s.rows s.lastUpdate
  { s with lastUpdate := lastUpdate, reloading := ret }

/-- The second half. `orderBy` is the order in which the query returns the rows. -/
def doUpdate (ok : Bool) (s : State) : State :=
  let res := if ok then some (orderBy (s.rows.map DbRow.row)) else none
  { s with acl := aclDoUpdate qsort res s.acl, reloading := false }

/-- One step. An update stamps its row, a deletion leaves nothing, and a poll that has found a
change loads the rows before the next check. -/
def step (s : State) : Act → Option State
  | .tick => some { s with clock := s.clock + 1 }
  | .insert row => some { s with rows := s.rows ++ [⟨row, s.clock⟩] }
  | .update i row =>
    if i < s.rows.length then some { s with rows := s.rows.set i ⟨row, s.clock⟩ } else none
  | .delete i => if i < s.rows.length then some { s with rows := s.rows.eraseIdx i } else none
  | .check ok => if s.reloading then none else some (check ok s)
  | .doUpdate ok => if s.reloading then some (doUpdate qsort orderBy ok s) else none

/-- A poll whose queries succeed, while no row changes. -/
def poll (s : State) : State :=
  let s := check true s
  if s.reloading then doUpdate qsort orderBy true s else s

end Step

/-- What the query is taken to do : it returns every row once. -/
def IsOrderBy (orderBy : List AccessRow → List AccessRow) : Prop :=
  ∀ rows, (orderBy rows).Perm rows

/-- The poll finds a later timestamp. -/
def State.Reports (s : State) : Prop :=
  ∃ r ∈ s.rows, s.lastUpdate < r.ts

/-- The list is that of the rows. -/
def State.Published (s : State) : Prop :=
  s.acl.Publishes (s.rows.map DbRow.row)

/-! ## What the steps do -/

variable {qsort : (AclEntry → AclEntry → ℤ) → List AclEntry → List AclEntry}
  {orderBy : List AccessRow → List AccessRow}

theorem maxTs_eq_none {rows : List DbRow} {lastUpdate : ℕ} :
    maxTs rows lastUpdate = none ↔ ∀ r ∈ rows, r.ts ≤ lastUpdate := by
  simp [maxTs]

theorem exists_of_maxTs {rows : List DbRow} {lastUpdate ts : ℕ}
    (h : maxTs rows lastUpdate = some ts) : ∃ r ∈ rows, r.ts = ts ∧ lastUpdate < ts := by
  obtain ⟨hmem, -⟩ := List.max?_eq_some_iff.mp h
  obtain ⟨hmem, hlt⟩ := List.mem_filter.mp hmem
  obtain ⟨r, hr, rfl⟩ := List.mem_map.mp hmem
  exact ⟨r, hr, rfl, by simpa using hlt⟩

/-- A check fails, finds nothing, or moves `last_update` to a later timestamp. -/
theorem check_cases (ok : Bool) (s : State) (hidle : s.reloading = false) :
    (check ok s = s ∧ (ok = true → ¬s.Reports)) ∨
      ∃ r ∈ s.rows, s.lastUpdate < r.ts ∧
        check ok s = { s with lastUpdate := r.ts, reloading := true } := by
  have hsame : { s with reloading := false } = s := by rw [← hidle]
  cases ok with
  | false => exact Or.inl ⟨hsame, by simp⟩
  | true =>
    cases hm : maxTs s.rows s.lastUpdate with
    | none =>
      refine Or.inl ⟨by simpa [check, aclCheckLastUpdate, hm] using hsame, ?_⟩
      rintro - ⟨r, hr, hlt⟩
      exact absurd hlt (not_lt.mpr (maxTs_eq_none.mp hm r hr))
    | some ts =>
      obtain ⟨r, hr, rfl, hlt⟩ := exists_of_maxTs hm
      exact Or.inr ⟨r, hr, hlt, by simp [check, aclCheckLastUpdate, hm]⟩

/-- A poll is a check, followed by a load if it reports a change. -/
theorem run_poll (s : State) (hidle : s.reloading = false) :
    run (step qsort orderBy) s (if (check true s).reloading then [.check true, .doUpdate true]
      else [.check true]) = some (poll qsort orderBy s) := by
  obtain ⟨heq, -⟩ | ⟨r, -, -, heq⟩ := check_cases true s hidle
  · simp [run, step, poll, heq, hidle]
  · simp [run, step, poll, heq, hidle]

theorem published_doUpdate (hq : IsQsort qsort) (ho : IsOrderBy orderBy) {s : State}
    (hrows : s.rows.length ≤ 2048) : (doUpdate qsort orderBy true s).Published := by
  have hperm := ho (s.rows.map DbRow.row)
  refine (publishes_aclDoUpdate hq ?_ s.acl).perm hperm
  rwa [hperm.length_eq, List.length_map]

/-- The steps from a state. -/
inductive Does (qsort : (AclEntry → AclEntry → ℤ) → List AclEntry → List AclEntry)
    (orderBy : List AccessRow → List AccessRow) (s : State) : Act → State → Prop where
  | tick : Does qsort orderBy s .tick { s with clock := s.clock + 1 }
  | insert {row} : Does qsort orderBy s (.insert row) { s with rows := s.rows ++ [⟨row, s.clock⟩] }
  | update {i row} : i < s.rows.length →
      Does qsort orderBy s (.update i row) { s with rows := s.rows.set i ⟨row, s.clock⟩ }
  | delete {i} : i < s.rows.length →
      Does qsort orderBy s (.delete i) { s with rows := s.rows.eraseIdx i }
  | unchanged {ok} : s.reloading = false → Does qsort orderBy s (.check ok) s
  | reported {ok r} : r ∈ s.rows → s.lastUpdate < r.ts →
      Does qsort orderBy s (.check ok) { s with lastUpdate := r.ts, reloading := true }
  | loaded : Does qsort orderBy s (.doUpdate true) (doUpdate qsort orderBy true s)
  | failed : Does qsort orderBy s (.doUpdate false) { s with reloading := false }

theorem does_of_step {s s' : State} {a : Act} (h : step qsort orderBy s a = some s') :
    Does qsort orderBy s a s' := by
  cases a with
  | tick | insert row =>
    obtain rfl := Option.some.inj h
    constructor
  | update i row | delete i =>
    simp only [step] at h
    split_ifs at h with hlt
    obtain rfl := Option.some.inj h
    constructor
    exact hlt
  | check ok =>
    simp only [step] at h
    split_ifs at h with hidle
    obtain rfl := Option.some.inj h
    have hidle' : s.reloading = false := by simpa using hidle
    obtain ⟨heq, -⟩ | ⟨r, hr, hlt, heq⟩ := check_cases ok s hidle'
    · rw [heq]
      exact .unchanged hidle'
    · rw [heq]
      exact .reported hr hlt
  | doUpdate ok =>
    simp only [step] at h
    split_ifs at h
    obtain rfl := Option.some.inj h
    cases ok with
    | true => exact .loaded
    | false => exact .failed

/-! ## Convergence -/

/-- The table does not outgrow the list. -/
def Fits (s : State) : Act → Prop
  | .insert _ => s.rows.length < 2048
  | _ => True

/-- The check sees this change : an insert or an update is stamped later than `last_update`.
A delete it cannot see, and after a failed load it sees no change from before. -/
def Detected (s : State) : Act → Prop
  | .insert _ | .update _ _ => s.lastUpdate < s.clock
  | .delete _ => False
  | .doUpdate ok => ok = true
  | .tick | .check _ => True

instance (s : State) : ∀ a : Act, Decidable (Fits s a)
  | .insert _ => inferInstanceAs (Decidable (_ < _))
  | .update _ _ | .delete _ | .tick | .check _ | .doUpdate _ => isTrue trivial

instance (s : State) : ∀ a : Act, Decidable (Detected s a)
  | .insert _ | .update _ _ => inferInstanceAs (Decidable (_ < _))
  | .delete _ => isFalse id
  | .doUpdate _ => inferInstanceAs (Decidable (_ = _))
  | .tick | .check _ => isTrue trivial

/-- The run has a completed load, or is at its start, and from there on every change was
detected. -/
def DetectedSinceReload (step : State → Act → Option State) (s₀ : State) (acts : List Act) : Prop :=
  ∃ acts₁ acts₂, acts = acts₁ ++ acts₂ ∧ (acts₁ = [] ∨ ∃ as, acts₁ = as ++ [.doUpdate true]) ∧
    ∀ s₁, run step s₀ acts₁ = some s₁ → StepsMeet step Detected s₁ acts₂

theorem length_step {s s' : State} {a : Act} (hf : Fits s a) (hrows : s.rows.length ≤ 2048)
    (h : Does qsort orderBy s a s') : s'.rows.length ≤ 2048 := by
  cases h with
  | tick | unchanged | reported | loaded | failed => exact hrows
  | insert =>
    rw [List.length_append]
    exact hf
  | update => rwa [List.length_set]
  | @delete i => exact (List.length_eraseIdx_le _ i).trans hrows

/-- Between polls the list is that of the rows, or the next check reports a change. -/
def UpToDate (s : State) : Prop :=
  s.reloading = false → s.Published ∨ s.Reports

theorem upToDate_step (hq : IsQsort qsort) (ho : IsOrderBy orderBy) {s s' : State} {a : Act}
    (hd : Detected s a) (hrows : s.rows.length ≤ 2048) (hi : UpToDate s)
    (h : Does qsort orderBy s a s') : UpToDate s' := by
  cases h with
  | tick | unchanged => exact hi
  | @insert row => exact fun _ => Or.inr ⟨⟨row, s.clock⟩, by simp, hd⟩
  | @update i row hlt => exact fun _ => Or.inr ⟨⟨row, s.clock⟩, List.mem_set hlt _, hd⟩
  | delete => exact hd.elim
  | reported => exact fun hidle => absurd hidle (by simp)
  | loaded => exact fun _ => Or.inl (published_doUpdate hq ho hrows)
  | failed => exact absurd hd (by simp [Detected])

theorem published_poll (hq : IsQsort qsort) (ho : IsOrderBy orderBy) {s : State}
    (hidle : s.reloading = false) (hrows : s.rows.length ≤ 2048)
    (h : s.Published ∨ s.Reports) : (poll qsort orderBy s).Published := by
  obtain ⟨heq, hnot⟩ | ⟨r, -, -, heq⟩ := check_cases true s hidle
  · rw [poll, heq, hidle]
    exact h.resolve_right (hnot rfl)
  · rw [poll, heq]
    exact published_doUpdate hq ho hrows

theorem upToDate_init (start : ℕ) (entry : ℕ → UInt8) : UpToDate (init start entry) :=
  fun _ => Or.inl ⟨[], ⟨rfl, by simp⟩, by simp [init], List.Pairwise.nil⟩

/-- A run of detected changes, from a list that is up to date. -/
theorem upToDate_run (hq : IsQsort qsort) (ho : IsOrderBy orderBy) {acts : List Act} {s s' : State}
    (hfits : StepsMeet (step qsort orderBy) Fits s acts)
    (hdetected : StepsMeet (step qsort orderBy) Detected s acts)
    (hi : UpToDate s) (hrows : s.rows.length ≤ 2048)
    (hrun : run (step qsort orderBy) s acts = some s') : UpToDate s' :=
  ((hfits.and hdetected).invariant (I := fun s => UpToDate s ∧ s.rows.length ≤ 2048)
    (fun _ _ _ hc hi h => ⟨upToDate_step hq ho hc.2 hi.2 hi.1 (does_of_step h),
      length_step hc.1 hi.2 (does_of_step h)⟩) ⟨hi, hrows⟩ hrun).1

theorem length_run {acts : List Act} {s s' : State}
    (hfits : StepsMeet (step qsort orderBy) Fits s acts) (hrows : s.rows.length ≤ 2048)
    (hrun : run (step qsort orderBy) s acts = some s') : s'.rows.length ≤ 2048 :=
  hfits.invariant (I := fun s => s.rows.length ≤ 2048)
    (fun _ _ _ hf hi h => length_step hf hi (does_of_step h)) hrows hrun

/-- A run that ends with a load ends up to date. -/
theorem upToDate_of_loaded (hq : IsQsort qsort) (ho : IsOrderBy orderBy) {acts : List Act}
    {s s' : State} (hfits : StepsMeet (step qsort orderBy) Fits s (acts ++ [.doUpdate true]))
    (hrows : s.rows.length ≤ 2048)
    (hrun : run (step qsort orderBy) s (acts ++ [.doUpdate true]) = some s') : UpToDate s' := by
  rw [run_append] at hrun
  obtain ⟨m, hm, hlast⟩ := Option.bind_eq_some_iff.mp hrun
  obtain ⟨m', hstep, hnil⟩ := run_cons_eq_some.mp hlast
  obtain rfl : m' = s' := by simpa using hnil
  have hlen := length_run ((stepsMeet_append _).mp hfits).1 hrows hm
  cases does_of_step hstep with
  | loaded => exact fun _ => Or.inl (published_doUpdate hq ho hlen)

/-- The list is that of the rows after a poll that succeeds, if the poll reports a change, or
if since the last load every change was one that the check sees. -/
theorem published_after_poll (hq : IsQsort qsort) (ho : IsOrderBy orderBy) {start : ℕ}
    {entry : ℕ → UInt8} {acts : List Act} {s : State}
    (hrun : run (step qsort orderBy) (init start entry) acts = some s)
    (hfits : StepsMeet (step qsort orderBy) Fits (init start entry) acts)
    (hidle : s.reloading = false)
    (hseen : s.Reports ∨ DetectedSinceReload (step qsort orderBy) (init start entry) acts) :
    (poll qsort orderBy s).acl.Publishes ((poll qsort orderBy s).rows.map DbRow.row) := by
  have hinit : (init start entry).rows.length ≤ 2048 := by simp [init]
  have hrows := length_run hfits hinit hrun
  refine published_poll hq ho hidle hrows ?_
  rcases hseen with hrep | ⟨acts₁, acts₂, rfl, hstart, hdetected⟩
  · exact Or.inr hrep
  rw [run_append] at hrun
  obtain ⟨s₁, h₁, h₂⟩ := Option.bind_eq_some_iff.mp hrun
  obtain ⟨hfits₁, hfits₂⟩ := (stepsMeet_append _).mp hfits
  have hup : UpToDate s₁ := by
    rcases hstart with rfl | ⟨as, rfl⟩
    · obtain rfl : init start entry = s₁ := by simpa using h₁
      exact upToDate_init start entry
    · exact upToDate_of_loaded hq ho hfits₁ hinit h₁
  have hrows₁ := length_run hfits₁ hinit h₁
  exact upToDate_run hq ho (hfits₂ s₁ h₁) (hdetected s₁ h₁) hup hrows₁ h₂ hidle

theorem isOrderBy_id : IsOrderBy id :=
  fun rows => List.Perm.refl rows

/-- One row, polled. -/
def onePoll : List Act :=
  [.insert fullRow, .check true, .doUpdate true]

theorem published_after_poll_one : ∃ s, run (step insertion id) (init 0 fun _ => 0)
    (onePoll ++ [.tick, .insert wildcardRow]) = some s ∧
      (poll insertion id s).acl.Publishes ((poll insertion id s).rows.map DbRow.row) := by
  have hex : ∃ s, run (step insertion id) (init 0 fun _ => 0)
    (onePoll ++ [.tick, .insert wildcardRow]) = some s := ⟨_, rfl⟩
  obtain ⟨s, hs⟩ := hex
  refine ⟨s, hs, published_after_poll isQsort_insertion isOrderBy_id hs (by decide)
    (eq_of_run_map (f := fun s => s.reloading) hs rfl) (Or.inr ⟨onePoll,
      [.tick, .insert wildcardRow], rfl, Or.inr ⟨[.insert fullRow, .check true], rfl⟩,
      fun s₁ h₁ => ?_⟩)⟩
  obtain rfl := Option.some.inj h₁
  decide

/-- After a poll the row is deleted, and the next poll sees no change. -/
theorem not_published_after_poll : ¬∀ (start : ℕ) (entry : ℕ → UInt8) (acts : List Act) (s : State),
    run (step insertion id) (init start entry) acts = some s →
    StepsMeet (step insertion id) Fits (init start entry) acts → s.reloading = false →
    (poll insertion id s).acl.Publishes ((poll insertion id s).rows.map DbRow.row) := by
  intro h
  have hex : ∃ s, run (step insertion id) (init 0 fun _ => 0) (onePoll ++ [.delete 0]) = some s :=
    ⟨_, rfl⟩
  obtain ⟨s, hs⟩ := hex
  obtain ⟨es, hes, hperm, -⟩ := h 0 (fun _ => 0) _ s hs (by decide)
    (eq_of_run_map (f := fun s => s.reloading) hs rfl)
  have hlen : (poll insertion id s).acl.length = 1 :=
    eq_of_run_map (f := fun s => (poll insertion id s).acl.length) hs rfl
  have hrows : (poll insertion id s).rows.length = 0 :=
    eq_of_run_map (f := fun s => (poll insertion id s).rows.length) hs rfl
  have := hes.length_eq
  have := hperm.length_eq
  simp only [List.length_map] at this
  omega

/-! ## The watermark -/

/-- Only inserts and updates, with strictly increasing timestamps. -/
def Increasing (s : State) : Act → Prop
  | .insert _ | .update _ _ => ∀ r ∈ s.rows, r.ts < s.clock
  | .delete _ => False
  | .tick | .check _ | .doUpdate _ => True

/-- A load succeeds, and the table fits. -/
def Reloads (s : State) : Act → Prop
  | .doUpdate ok => ok = true ∧ s.rows.length ≤ 2048
  | _ => True

instance (s : State) : ∀ a : Act, Decidable (Increasing s a)
  | .insert _ | .update _ _ => inferInstanceAs (Decidable (∀ r ∈ s.rows, _))
  | .delete _ => isFalse id
  | .tick | .check _ | .doUpdate _ => isTrue trivial

instance (s : State) : ∀ a : Act, Decidable (Reloads s a)
  | .doUpdate _ => inferInstanceAs (Decidable (_ ∧ _))
  | .insert _ | .update _ _ | .delete _ | .tick | .check _ => isTrue trivial

/-- The row's entry is in the list. -/
def State.Reflects (s : State) (row : AccessRow) : Prop :=
  ∃ es, s.acl.Holds es ∧ parseRow row ∈ es

theorem State.Published.reflects {s : State} (h : s.Published) {r : DbRow} (hr : r ∈ s.rows) :
    s.Reflects r.row := by
  obtain ⟨es, hes, hperm, -⟩ := h
  exact ⟨es, hes, hperm.mem_iff.mpr (List.mem_map_of_mem (List.mem_map_of_mem hr))⟩

/-- The watermark is a timestamp that the rows have reached, and between polls the rows up to
it are in the list. -/
structure Watermarked (s : State) : Prop where
  clock_pos : 0 < s.clock
  reached : s.lastUpdate = 0 ∨ ∃ r ∈ s.rows, s.lastUpdate ≤ r.ts
  reflects : s.reloading = false → ∀ r ∈ s.rows, r.ts ≤ s.lastUpdate → s.Reflects r.row

theorem watermarked_init (start : ℕ) (entry : ℕ → UInt8) : Watermarked (init start entry) :=
  ⟨Nat.succ_pos start, Or.inl rfl, by simp [init]⟩

/-- A change is stamped later than the watermark. -/
theorem Watermarked.lastUpdate_lt {s : State} (h : Watermarked s)
    (hts : ∀ r ∈ s.rows, r.ts < s.clock) :
    s.lastUpdate < s.clock := by
  rcases h.reached with h0 | ⟨r, hr, hle⟩
  · rw [h0]
    exact h.clock_pos
  · exact hle.trans_lt (hts r hr)

/-- Rows of which each is an old one or stamped with the clock. -/
theorem Watermarked.of_stamped {s : State} (h : Watermarked s) (hlt : s.lastUpdate < s.clock)
    {rows : List DbRow} {row : AccessRow} (hmem : ⟨row, s.clock⟩ ∈ rows)
    (hsub : ∀ r ∈ rows, r ∈ s.rows ∨ r = ⟨row, s.clock⟩) : Watermarked { s with rows := rows } := by
  refine ⟨h.clock_pos, Or.inr ⟨_, hmem, hlt.le⟩, fun hidle r hr hle => ?_⟩
  rcases hsub r hr with hr | rfl
  · exact h.reflects hidle r hr hle
  · exact absurd hlt (not_lt.mpr hle)

theorem watermarked_step (hq : IsQsort qsort) (ho : IsOrderBy orderBy) {s s' : State} {a : Act}
    (hinc : Increasing s a) (hrel : Reloads s a) (hi : Watermarked s)
    (h : Does qsort orderBy s a s') : Watermarked s' := by
  cases h with
  | tick => exact ⟨Nat.succ_pos _, hi.reached, hi.reflects⟩
  | @insert row =>
    have hmem : ⟨row, s.clock⟩ ∈ s.rows ++ [⟨row, s.clock⟩] := by simp
    exact hi.of_stamped (hi.lastUpdate_lt hinc) hmem fun r hr => by simpa using hr
  | update hlt =>
    exact hi.of_stamped (hi.lastUpdate_lt hinc) (List.mem_set hlt _) fun r hr =>
      List.mem_or_eq_of_mem_set hr
  | delete => exact hinc.elim
  | unchanged => exact hi
  | @reported ok r hr hlt =>
    exact ⟨hi.clock_pos, Or.inr ⟨r, hr, le_rfl⟩, fun hidle => absurd hidle (by simp)⟩
  | loaded =>
    have hpub := published_doUpdate hq ho hrel.2
    exact ⟨hi.clock_pos, hi.reached, fun _ r hr _ => hpub.reflects hr⟩
  | failed => exact absurd hrel.1 (by decide)

/-- Between polls, every row up to `last_update` is in the list, in every run whose loads
succeed. -/
theorem reflected_of_reloads (hq : IsQsort qsort) (ho : IsOrderBy orderBy) {start : ℕ}
    {entry : ℕ → UInt8} {acts : List Act} {s : State}
    (hrun : run (step qsort orderBy) (init start entry) acts = some s)
    (hincreasing : StepsMeet (step qsort orderBy) Increasing (init start entry) acts)
    (hreloads : StepsMeet (step qsort orderBy) Reloads (init start entry) acts)
    (hidle : s.reloading = false) :
    ∀ r ∈ s.rows, r.ts ≤ s.lastUpdate → s.Reflects r.row := by
  have hi := (hincreasing.and hreloads).invariant (I := Watermarked)
    (fun _ _ _ hc hi h => watermarked_step hq ho hc.1 hc.2 hi (does_of_step h))
    (watermarked_init start entry) hrun
  exact hi.reflects hidle

theorem reflected_of_reloads_one : ∃ s,
    run (step insertion id) (init 0 fun _ => 0) onePoll = some s ∧
    s.lastUpdate = 1 ∧ ∀ r ∈ s.rows, r.ts ≤ s.lastUpdate → s.Reflects r.row := by
  have hex : ∃ s, run (step insertion id) (init 0 fun _ => 0) onePoll = some s := ⟨_, rfl⟩
  obtain ⟨s, hs⟩ := hex
  exact ⟨s, hs, eq_of_run_map (f := fun s => s.lastUpdate) hs rfl,
    reflected_of_reloads isQsort_insertion isOrderBy_id hs (by decide) (by decide)
      (eq_of_run_map (f := fun s => s.reloading) hs rfl)⟩

/-- The load fails after `last_update` has moved. -/
theorem not_reflected : ¬∀ (start : ℕ) (entry : ℕ → UInt8) (acts : List Act) (s : State),
    run (step insertion id) (init start entry) acts = some s →
    StepsMeet (step insertion id) Increasing (init start entry) acts → s.reloading = false →
    ∀ r ∈ s.rows, r.ts ≤ s.lastUpdate → s.Reflects r.row := by
  intro h
  have hex : ∃ s, run (step insertion id) (init 0 fun _ => 0)
    [.insert fullRow, .check true, .doUpdate false] = some s := ⟨_, rfl⟩
  obtain ⟨s, hs⟩ := hex
  have hrows : s.rows = [⟨fullRow, 1⟩] := eq_of_run_map (f := fun s => s.rows) hs rfl
  have hlast : s.lastUpdate = 1 := eq_of_run_map (f := fun s => s.lastUpdate) hs rfl
  have hlen : s.acl.length = 0 := eq_of_run_map (f := fun s => s.acl.length) hs rfl
  obtain ⟨es, hes, hmem⟩ := h 0 (fun _ => 0) _ s hs (by decide)
    (eq_of_run_map (f := fun s => s.reloading) hs rfl) ⟨fullRow, 1⟩ (by simp [hrows]) hlast.ge
  have := hes.length_eq
  have := List.length_pos_of_mem hmem
  omega

end AclPolls

end DhcpToolset
