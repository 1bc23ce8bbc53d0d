import DhcpToolset.AclPolls
import DhcpToolset.Win32

/-!
# The thread that polls

`acl_update_thread` connects to the database and to the list and then waits for its exit event,
a second at a time. Every third wait that times out starts a poll. `_tmain` has its call of
`acl_update_start` commented out, so the Monitor of the repository does not run the thread.

`acl_update_stop` sets the exit event. The `break` after the wait leaves the `switch` and not the
loop : `stop_ignored`, a run without these steps ends in the same state, and a thread that has
come to its loop stays there and polls again. The counter wraps, and there one poll is a time-out
late. `published_within_four` : four time-outs after the last change the list is that of the
rows, wherever the thread was when they began.
-/

set_option linter.unusedSectionVars false

open Qsort Transition Win32

namespace DhcpToolset

/-- A tick of the clock of the database, or a change of a row. -/
def AclPolls.Act.isDatabase : AclPolls.Act → Bool
  | .tick | .insert _ | .update _ _ | .delete _ => true
  | .check _ | .doUpdate _ => false

namespace AclThread

/-- Where `acl_update_thread` is. -/
inductive Pc where
  /-- Before `mysql_real_connect` and before `acl_connect`. -/
  | connecting
  | attaching
  /-- In `WaitForSingleObject`. -/
  | waiting
  /-- Before `acl_check_last_update` and before `acl_do_update`. -/
  | checking
  | updating
  | returned (ret : ℤ)
  deriving DecidableEq

/-- In the `while` loop. -/
def Pc.inLoop : Pc → Bool
  | .waiting | .checking | .updating => true
  | .connecting | .attaching | .returned _ => false

/-- The polling thread, its exit event, and the polls. -/
structure State where
  pc : Pc
  /-- `counter`, an `int`. It wraps as the compiler has it. -/
  counter : Int32
  /-- `acl_update_event_exit` is set. The wait that it ends resets it. -/
  exit : Bool
  polls : AclPolls.State

/-- A change of the database, a call of another thread, or a call of the polling thread with what it
returned. -/
inductive Act where
  | database (a : AclPolls.Act)
  /-- `acl_update_stop`. -/
  | stop
  | connect (ok : Bool)
  | attach (ok : Bool)
  | wait (ret : WaitResult)
  | check (ok : Bool)
  | doUpdate (ok : Bool)

/-- After `acl_update_start`. -/
def init (start : ℕ) (entry : ℕ → UInt8) : State where
  pc := .connecting
  counter := 0
  exit := false
  polls := AclPolls.init start entry

/-- The `switch` on what the wait returned. -/
def afterWait (s : State) : WaitResult → Option State
  | .object0 => if s.exit then some { s with exit := false } else none
  | .timeout =>
    if s.exit then none
    else some { s with
      counter := s.counter + 1
      pc := if s.counter % 3 = 0 then .checking else .waiting }
  | .failed => some s
  -- only a mutex can be abandoned
  | .abandoned => none

section Step

variable (qsort : (AclEntry → AclEntry → ℤ) → List AclEntry → List AclEntry)
  (orderBy : List AccessRow → List AccessRow)

/-- One step. A call of the thread is taken only where the thread is. -/
def step (s : State) : Act → Option State
  | .database a =>
    if a.isDatabase then
      (AclPolls.step qsort orderBy s.polls a).map fun p => { s with polls := p }
    else none
  | .stop => some { s with exit := true }
  | .connect ok =>
    if s.pc = .connecting then some { s with pc := if ok then .attaching else .returned (-1) }
    else none
  | .attach ok =>
    if s.pc = .attaching then some { s with pc := if ok then .waiting else .returned (-2) }
    else none
  | .wait ret => if s.pc = .waiting then afterWait s ret else none
  | .check ok =>
    if s.pc = .checking then
      (AclPolls.step qsort orderBy s.polls (.check ok)).map fun p =>
        { s with polls := p, pc := if p.reloading then .updating else .waiting }
    else none
  | .doUpdate ok =>
    if s.pc = .updating then
      (AclPolls.step qsort orderBy s.polls (.doUpdate ok)).map fun p =>
        { s with polls := p, pc := .waiting }
    else none

end Step

/-- The action as one of `AclPolls`. -/
def Act.poll? : Act → Option AclPolls.Act
  | .database a => some a
  | .check ok => some (.check ok)
  | .doUpdate ok => some (.doUpdate ok)
  | .stop | .connect _ | .attach _ | .wait _ => none

/-- A call of `acl_update_stop`, or a wait that the exit event ends. -/
def Act.isStop : Act → Bool
  | .stop | .wait .object0 => true
  | _ => false

/-- A wait that times out. -/
def Act.isTimeout : Act → Bool
  | .wait .timeout => true
  | _ => false

/-- No row changes, and the queries succeed. -/
def Act.quiet : Act → Bool
  | .database .tick | .stop | .connect _ | .attach _ | .wait _ => true
  | .database _ => false
  | .check ok | .doUpdate ok => ok

/-- A step of the thread in its loop. -/
def Act.inLoop : Act → Bool
  | .wait _ | .check _ | .doUpdate _ => true
  | .database _ | .stop | .connect _ | .attach _ => false

/-! ## What a step does -/

variable {qsort : (AclEntry → AclEntry → ℤ) → List AclEntry → List AclEntry}
  {orderBy : List AccessRow → List AccessRow}

/-- The steps, with their branches resolved. -/
inductive Does (qsort : (AclEntry → AclEntry → ℤ) → List AclEntry → List AclEntry)
    (orderBy : List AccessRow → List AccessRow) (s : State) : Act → State → Prop where
  | database {a p} : a.isDatabase = true → AclPolls.step qsort orderBy s.polls a = some p →
      Does qsort orderBy s (.database a) { s with polls := p }
  | stop : Does qsort orderBy s .stop { s with exit := true }
  | connect {ok} : s.pc = .connecting →
      Does qsort orderBy s (.connect ok)
        { s with pc := if ok then .attaching else .returned (-1) }
  | attach {ok} : s.pc = .attaching →
      Does qsort orderBy s (.attach ok) { s with pc := if ok then .waiting else .returned (-2) }
  | woken : s.pc = .waiting → s.exit = true →
      Does qsort orderBy s (.wait .object0) { s with exit := false }
  | failed : s.pc = .waiting → Does qsort orderBy s (.wait .failed) s
  | due : s.pc = .waiting → s.exit = false → s.counter % 3 = 0 →
      Does qsort orderBy s (.wait .timeout) { s with counter := s.counter + 1, pc := .checking }
  | notDue : s.pc = .waiting → s.exit = false → s.counter % 3 ≠ 0 →
      Does qsort orderBy s (.wait .timeout) { s with counter := s.counter + 1, pc := .waiting }
  | check {ok p} : s.pc = .checking → AclPolls.step qsort orderBy s.polls (.check ok) = some p →
      Does qsort orderBy s (.check ok)
        { s with polls := p, pc := if p.reloading then .updating else .waiting }
  | doUpdate {ok p} : s.pc = .updating →
      AclPolls.step qsort orderBy s.polls (.doUpdate ok) = some p →
      Does qsort orderBy s (.doUpdate ok) { s with polls := p, pc := .waiting }

theorem does_of_step {s s' : State} {a : Act} (h : step qsort orderBy s a = some s') :
    Does qsort orderBy s a s' := by
  cases a with
  | database a =>
    simp only [step] at h
    split at h
    · obtain ⟨p, hp, rfl⟩ := Option.map_eq_some_iff.mp h
      exact .database ‹_› hp
    · cases h
  | stop =>
    obtain rfl := Option.some.inj h
    exact .stop
  | connect ok =>
    simp only [step] at h
    split at h
    · obtain rfl := Option.some.inj h
      exact .connect ‹_›
    · cases h
  | attach ok =>
    simp only [step] at h
    split at h
    · obtain rfl := Option.some.inj h
      exact .attach ‹_›
    · cases h
  | wait ret =>
    simp only [step] at h
    split at h
    · cases ret with
      | object0 =>
        simp only [afterWait] at h
        split at h
        · obtain rfl := Option.some.inj h
          exact .woken ‹_› ‹_›
        · cases h
      | timeout =>
        simp only [afterWait] at h
        split at h
        · cases h
        · obtain rfl := Option.some.inj h
          split
          · exact .due ‹_› (by simpa using ‹¬s.exit = true›) ‹_›
          · exact .notDue ‹_› (by simpa using ‹¬s.exit = true›) ‹_›
      | failed =>
        obtain rfl := Option.some.inj h
        exact .failed ‹_›
      | abandoned => cases h
    · cases h
  | check ok =>
    simp only [step] at h
    split at h
    · obtain ⟨p, hp, rfl⟩ := Option.map_eq_some_iff.mp h
      exact .check ‹_› hp
    · cases h
  | doUpdate ok =>
    simp only [step] at h
    split at h
    · obtain ⟨p, hp, rfl⟩ := Option.map_eq_some_iff.mp h
      exact .doUpdate ‹_› hp
    · cases h

/-- The thread and the database make a run of the polls. -/
theorem run_polls {acts : List Act} {s s' : State}
    (hrun : run (step qsort orderBy) s acts = some s') :
    run (AclPolls.step qsort orderBy) s.polls (acts.filterMap Act.poll?) = some s'.polls := by
  refine run_filterMap (fun s a s' h => ?_) hrun
  cases does_of_step h with
  | database _ hp | check _ hp | doUpdate _ hp => exact run_cons_eq_some.mpr ⟨_, hp, rfl⟩
  | stop | connect _ | attach _ | woken _ _ | failed _ | due _ _ _ | notDue _ _ _ => rfl

/-! ## The exit event -/

/-- The loop has no way out. -/
theorem inLoop_step {s s' : State} {a : Act} (hs : s.pc.inLoop = true)
    (h : Does qsort orderBy s a s') : s'.pc.inLoop = true := by
  cases h with
  | database _ _ | stop | woken _ _ | failed _ => exact hs
  | connect hpc | attach hpc =>
    rw [hpc] at hs
    cases hs
  | due _ _ _ | notDue _ _ _ | doUpdate _ _ => rfl
  | check _ _ =>
    simp only
    split <;> rfl

/-- The state but for the exit event. -/
def State.quieted (s : State) : State :=
  { s with exit := false }

/-- Without the exit event a step does the same, and the steps for it do nothing. -/
theorem run_quieted {s s' : State} {a : Act} (h : Does qsort orderBy s a s') :
    run (step qsort orderBy) s.quieted (Option.guard (fun a => !a.isStop) a).toList =
      some s'.quieted := by
  cases h with
  | stop | woken _ _ => rfl
  | database hd hp => simp [Act.isStop, run, step, State.quieted, hd, hp]
  | connect hpc | attach hpc | failed hpc =>
    simp [Act.isStop, run, step, afterWait, State.quieted, hpc]
  | due hpc _ hc | notDue hpc _ hc =>
    simp [Act.isStop, run, step, afterWait, State.quieted, hpc, hc]
  | check hpc hp | doUpdate hpc hp => simp [Act.isStop, run, step, State.quieted, hpc, hp]

/-! ## The counter -/

theorem mod_three_eq_zero_iff (c : Int32) : c % 3 = 0 ↔ 3 ∣ c.toInt := by
  rw [← Int32.toInt_inj, Int32.toInt_mod]
  exact Int.dvd_iff_tmod_eq_zero.symm

/-- How many time-outs it takes until one starts a poll. -/
def untilPoll (c : Int32) : ℕ :=
  if c % 3 = 0 then 1 else if (c + 1) % 3 = 0 then 2 else if (c + 2) % 3 = 0 then 3 else 4

theorem untilPoll_pos (c : Int32) : 0 < untilPoll c := by
  unfold untilPoll
  split_ifs <;> decide

theorem untilPoll_le (c : Int32) : untilPoll c ≤ 4 := by
  unfold untilPoll
  split_ifs <;> decide

/-- An addition that may wrap. -/
theorem toInt_add_cases (c k : Int32) (hk : 0 ≤ k.toInt) :
    (c.toInt + k.toInt < 2 ^ 31 ∧ (c + k).toInt = c.toInt + k.toInt) ∨
      (2 ^ 31 ≤ c.toInt + k.toInt ∧ (c + k).toInt = c.toInt + k.toInt - 2 ^ 32) := by
  have hlo := c.le_toInt
  have hhi := c.toInt_lt
  have hhi' := k.toInt_lt
  rw [Int32.toInt_add, Int.bmod_def]
  split <;> omega

/-- Where three values in a row are no multiples of three, the counter wraps. -/
theorem mod_three_of_wrap {c : Int32} (h : c % 3 ≠ 0) (h1 : (c + 1) % 3 ≠ 0)
    (h2 : (c + 2) % 3 ≠ 0) : (c + 3) % 3 = 0 := by
  rw [Ne, mod_three_eq_zero_iff] at h h1 h2
  rw [mod_three_eq_zero_iff]
  have hlo := c.le_toInt
  have hhi := c.toInt_lt
  have hone : Int32.toInt 1 = 1 := rfl
  have htwo : Int32.toInt 2 = 2 := rfl
  have hthree : Int32.toInt 3 = 3 := rfl
  rcases toInt_add_cases c 1 (by decide) with h1' | h1' <;>
    rcases toInt_add_cases c 2 (by decide) with h2' | h2' <;>
    rcases toInt_add_cases c 3 (by decide) with h3' | h3' <;> omega

/-- A time-out that starts no poll brings the next one nearer. -/
theorem untilPoll_succ {c : Int32} (h : c % 3 ≠ 0) : untilPoll (c + 1) + 1 ≤ untilPoll c := by
  have hassoc : c + 1 + 1 = c + 2 := by rw [Int32.add_assoc]; rfl
  have hassoc' : c + 1 + 2 = c + 3 := by rw [Int32.add_assoc]; rfl
  unfold untilPoll
  rw [hassoc, hassoc', if_neg h]
  by_cases h1 : (c + 1) % 3 = 0
  · simp [h1]
  by_cases h2 : (c + 2) % 3 = 0
  · simp [h1, h2]
  · simp [h1, h2, mod_three_of_wrap h h1 h2]

/-- The next poll of a thread can be reached. -/
def PollsNext (qsort : (AclEntry → AclEntry → ℤ) → List AclEntry → List AclEntry)
    (orderBy : List AccessRow → List AccessRow) (s : State) : Prop :=
  ∃ s', CanReach (step qsort orderBy) (fun a => a.inLoop = true) s s' ∧ s'.pc = .checking

theorem PollsNext.head {s m : State} {a : Act} (ha : a.inLoop = true)
    (h : step qsort orderBy s a = some m) (hm : PollsNext qsort orderBy m) :
    PollsNext qsort orderBy s := by
  obtain ⟨s', hr, hs'⟩ := hm
  exact ⟨s', hr.head ha h, hs'⟩

theorem pollsNext_of_noExit : ∀ (n : ℕ) (s : State), untilPoll s.counter ≤ n → s.pc = .waiting →
    s.exit = false → PollsNext qsort orderBy s
  | 0, s, hn, _, _ => by
    have := untilPoll_pos s.counter
    omega
  | n + 1, s, hn, hpc, hexit => by
    by_cases hc : s.counter % 3 = 0
    · have hdue : step qsort orderBy s (.wait .timeout) =
          some { s with counter := s.counter + 1, pc := .checking } := by
        simp [step, afterWait, hpc, hexit, hc]
      exact .head rfl hdue ⟨_, .refl _, rfl⟩
    · have hnext : step qsort orderBy s (.wait .timeout) =
          some { s with counter := s.counter + 1, pc := .waiting } := by
        simp [step, afterWait, hpc, hexit, hc]
      have hsucc := untilPoll_succ hc
      exact .head rfl hnext (pollsNext_of_noExit n _ (by simp only; omega) rfl hexit)

theorem pollsNext_of_waiting {s : State} (hpc : s.pc = .waiting) : PollsNext qsort orderBy s := by
  cases hexit : s.exit with
  | false => exact pollsNext_of_noExit 4 s (untilPoll_le _) hpc hexit
  | true =>
    have hwoken : step qsort orderBy s (.wait .object0) = some { s with exit := false } := by
      simp [step, afterWait, hpc, hexit]
    exact .head rfl hwoken (pollsNext_of_noExit 4 _ (untilPoll_le _) hpc rfl)

/-- `acl_do_update` runs when `acl_check_last_update` returned `TRUE`. -/
def InStep (s : State) : Prop :=
  s.polls.reloading = true ↔ s.pc = .updating

/-- From every state of the loop. -/
theorem InStep.pollsNext {s : State} (h : InStep s) (hs : s.pc.inLoop = true) :
    PollsNext qsort orderBy s := by
  cases hpc : s.pc with
  | connecting | attaching | returned _ =>
    rw [hpc] at hs
    cases hs
  | waiting => exact pollsNext_of_waiting hpc
  | checking => exact ⟨s, .refl s, hpc⟩
  | updating =>
    have hload : step qsort orderBy s (.doUpdate false) = some { s with
        polls := AclPolls.doUpdate qsort orderBy false s.polls
        pc := .waiting } := by
      simp [step, AclPolls.step, hpc, h.mpr hpc]
    exact .head rfl hload (pollsNext_of_waiting rfl)

theorem inStep_step {s s' : State} {a : Act} (hi : InStep s) (h : Does qsort orderBy s a s') :
    InStep s' := by
  cases h with
  | database hd hp =>
    have hkeeps := AclPolls.does_of_step hp
    cases hkeeps with
    | tick | insert | update _ | delete _ => exact hi
    | unchanged _ | reported _ _ | loaded | failed => cases hd
  | stop | woken _ _ | failed _ => exact hi
  | connect hpc | attach hpc =>
    refine iff_of_false (fun hr => by simp [hi.mp hr] at hpc) ?_
    simp only
    split <;> simp
  | due hpc _ _ | notDue hpc _ _ =>
    exact iff_of_false (fun hr => by simp [hi.mp hr] at hpc) (by simp)
  | check hpc hp =>
    simp only [InStep]
    split <;> simp_all
  | doUpdate hpc hp =>
    cases AclPolls.does_of_step hp with
    | loaded | failed => simp [InStep, AclPolls.doUpdate]

theorem inStep_run {start : ℕ} {entry : ℕ → UInt8} {acts : List Act} {s : State}
    (hrun : run (step qsort orderBy) (init start entry) acts = some s) : InStep s :=
  run_invariant (fun _ _ _ hi h => inStep_step hi (does_of_step h))
    (by simp [InStep, init, AclPolls.init]) hrun

/-- The steps for the exit event can be left out of a run, and a thread in its loop stays there
and comes to its next poll. -/
theorem stop_ignored {start : ℕ} {entry : ℕ → UInt8} {acts : List Act} {s : State}
    (hrun : run (step qsort orderBy) (init start entry) acts = some s) :
    run (step qsort orderBy) (init start entry) (acts.filter fun a => !a.isStop) =
      some { s with exit := false } ∧
    (s.pc.inLoop = true → ∀ acts' s', run (step qsort orderBy) s acts' = some s' →
      s'.pc.inLoop = true ∧
      ∃ m, CanReach (step qsort orderBy) (fun a => a.inLoop = true) s' m ∧ m.pc = .checking) := by
  refine ⟨?_, fun hs acts' s' hrun' => ?_⟩
  · rw [← List.filterMap_eq_filter]
    exact run_filterMap (f := State.quieted) (fun _ _ _ h => run_quieted (does_of_step h)) hrun
  · have hstep : InStep s' := run_invariant (fun _ _ _ hi h => inStep_step hi (does_of_step h))
      (inStep_run hrun) hrun'
    have hloop : s'.pc.inLoop = true := run_invariant (I := fun s => s.pc.inLoop = true)
      (fun _ _ _ hi h => inLoop_step hi (does_of_step h)) hs hrun'
    exact ⟨hloop, hstep.pollsNext hloop⟩

/-- The thread is stopped twice, and then polls a row. -/
def stoppedTwice : List Act :=
  [.stop, .connect true, .attach true, .wait .object0, .stop, .database (.insert fullRow),
    .wait .object0, .wait .timeout, .check true, .doUpdate true, .wait .failed]

theorem stop_ignored_twice : ∃ s,
    run (step insertion id) (init 0 fun _ => 0) stoppedTwice = some s ∧ s.pc.inLoop = true ∧
    run (step insertion id) (init 0 fun _ => 0) [.connect true, .attach true,
      .database (.insert fullRow), .wait .timeout, .check true, .doUpdate true, .wait .failed] =
      some { s with exit := false } ∧
    ∃ m, CanReach (step insertion id) (fun a => a.inLoop = true) s m ∧ m.pc = .checking := by
  have hex : ∃ s, run (step insertion id) (init 0 fun _ => 0) stoppedTwice = some s := ⟨_, rfl⟩
  obtain ⟨s, hs⟩ := hex
  have hloop : s.pc.inLoop = true := eq_of_run_map (f := fun s => s.pc.inLoop) hs rfl
  obtain ⟨hfilter, hstays⟩ := stop_ignored hs
  exact ⟨s, hs, hloop, hfilter, (hstays hloop [] s rfl).2⟩

/-! ## Four time-outs -/

/-- A reported change is on its way : its load is next, or its check, or the check follows as soon
as the rest of four time-outs has passed, `n` of them being over. -/
def OnTheWay (s : State) (n : ℕ) : Prop :=
  s.polls.Published ∨ s.pc = .updating ∨
    (s.polls.Reports ∧ (s.pc = .checking ∨ untilPoll s.counter + n ≤ 4))

theorem onTheWay_zero {s : State} (hi : InStep s) (hup : AclPolls.UpToDate s.polls) :
    OnTheWay s 0 := by
  cases hr : s.polls.reloading with
  | true => exact Or.inr (Or.inl (hi.mp hr))
  | false =>
    rcases hup hr with hp | hrep
    · exact Or.inl hp
    · exact Or.inr (Or.inr ⟨hrep, Or.inr (untilPoll_le s.counter)⟩)

/-- A waiting thread is not in the midst of a poll. -/
theorem OnTheWay.of_waiting {s : State} {n : ℕ} (h : OnTheWay s n) (hpc : s.pc = .waiting) :
    s.polls.Published ∨ (s.polls.Reports ∧ untilPoll s.counter + n ≤ 4) := by
  rcases h with hp | hu | ⟨hrep, hc | hle⟩
  · exact Or.inl hp
  · rw [hpc] at hu
    cases hu
  · rw [hpc] at hc
    cases hc
  · exact Or.inr ⟨hrep, hle⟩

/-- After four of them, nothing but the list of the rows is left for a waiting thread. -/
theorem OnTheWay.published {s : State} {n : ℕ} (h : OnTheWay s n) (hn : 4 ≤ n)
    (hpc : s.pc = .waiting) : s.polls.Published := by
  rcases h.of_waiting hpc with hp | ⟨-, hle⟩
  · exact hp
  · have := untilPoll_pos s.counter
    omega

/-- A step that leaves the polls and the counter, and is not taken in the midst of a poll. -/
theorem OnTheWay.of_eq {s s' : State} {n : ℕ} (h : OnTheWay s n) (hpolls : s'.polls = s.polls)
    (hcounter : s'.counter = s.counter) (hpc : s'.pc = s.pc ∨ s.pc ≠ .updating ∧ s.pc ≠ .checking) :
    OnTheWay s' n := by
  rw [OnTheWay, hpolls, hcounter]
  rcases hpc with hpc | ⟨hu, hc⟩
  · rw [hpc]
    exact h
  · rcases h with hp | hu' | ⟨hrep, hc' | hle⟩
    · exact Or.inl hp
    · exact absurd hu' hu
    · exact absurd hc' hc
    · exact Or.inr (Or.inr ⟨hrep, Or.inr hle⟩)

theorem onTheWay_step (hq : IsQsort qsort) (ho : AclPolls.IsOrderBy orderBy) {s s' : State}
    {a : Act} {n : ℕ} (ha : a.quiet = true) (hrows : s.polls.rows.length ≤ 2048) (hi : OnTheWay s n)
    (h : Does qsort orderBy s a s') :
    s'.polls.rows.length ≤ 2048 ∧ OnTheWay s' (n + if a.isTimeout = true then 1 else 0) := by
  cases h with
  | database hd hp =>
    cases AclPolls.does_of_step hp with
    | tick => exact ⟨hrows, hi⟩
    | insert | update _ | delete _ => cases ha
    | unchanged _ | reported _ _ | loaded | failed => cases hd
  | stop | woken _ _ | failed _ => exact ⟨hrows, hi.of_eq rfl rfl (Or.inl rfl)⟩
  | connect hpc | attach hpc => exact ⟨hrows, hi.of_eq rfl rfl (Or.inr (by simp [hpc]))⟩
  | due hpc _ _ =>
    refine ⟨hrows, ?_⟩
    rcases hi.of_waiting hpc with hp | ⟨hrep, -⟩
    · exact Or.inl hp
    · exact Or.inr (Or.inr ⟨hrep, Or.inl rfl⟩)
  | notDue hpc _ hc =>
    refine ⟨hrows, ?_⟩
    rcases hi.of_waiting hpc with hp | ⟨hrep, hle⟩
    · exact Or.inl hp
    · refine Or.inr (Or.inr ⟨hrep, Or.inr ?_⟩)
      have := untilPoll_succ hc
      simp only [Act.isTimeout, if_true]
      omega
  | @check ok p hpc hp =>
    obtain rfl : ok = true := ha
    have hidle : s.polls.reloading = false := by
      simp only [AclPolls.step] at hp
      split at hp
      · cases hp
      · simpa using ‹¬s.polls.reloading = true›
    obtain rfl : AclPolls.check true s.polls = p := by simpa [AclPolls.step, hidle] using hp
    rcases AclPolls.check_cases true s.polls hidle with ⟨heq, hno⟩ | ⟨r, -, -, heq⟩
    · rw [heq]
      refine ⟨hrows, ?_⟩
      rcases hi with hp | hu | ⟨hrep, -⟩
      · exact Or.inl hp
      · exact absurd (hpc.symm.trans hu) (by decide)
      · exact absurd hrep (hno rfl)
    · rw [heq]
      exact ⟨hrows, Or.inr (Or.inl rfl)⟩
  | @doUpdate ok p _ hp =>
    obtain rfl : ok = true := ha
    cases AclPolls.does_of_step hp with
    | loaded => exact ⟨hrows, Or.inl (AclPolls.published_doUpdate hq ho hrows)⟩

theorem upToDate_of_detected (hq : IsQsort qsort) (ho : AclPolls.IsOrderBy orderBy) {start : ℕ}
    {entry : ℕ → UInt8} {acts : List AclPolls.Act} {p : AclPolls.State}
    (hrun : run (AclPolls.step qsort orderBy) (AclPolls.init start entry) acts = some p)
    (hfits : StepsMeet (AclPolls.step qsort orderBy) AclPolls.Fits (AclPolls.init start entry) acts)
    (hdetected : AclPolls.DetectedSinceReload (AclPolls.step qsort orderBy)
      (AclPolls.init start entry) acts) : AclPolls.UpToDate p := by
  obtain ⟨acts₁, acts₂, rfl, hstart, hdetected⟩ := hdetected
  have hinit : (AclPolls.init start entry).rows.length ≤ 2048 := by simp [AclPolls.init]
  rw [run_append] at hrun
  obtain ⟨m, hm, hrun⟩ := Option.bind_eq_some_iff.mp hrun
  obtain ⟨hfits₁, hfits₂⟩ := (stepsMeet_append _).mp hfits
  refine AclPolls.upToDate_run hq ho (hfits₂ m hm) (hdetected m hm) ?_
    (AclPolls.length_run hfits₁ hinit hm) hrun
  rcases hstart with rfl | ⟨as, rfl⟩
  · obtain rfl : AclPolls.init start entry = m := by simpa using hm
    exact AclPolls.upToDate_init start entry
  · exact AclPolls.upToDate_of_loaded hq ho hfits₁ hinit hm

/-- After a run whose changes were detected since the last load, the rows stay as they are, and the
queries succeed. Once four waits have timed out and the thread waits again, the list is that of the
rows. -/
theorem published_within_four (hq : IsQsort qsort) (ho : AclPolls.IsOrderBy orderBy) {start : ℕ}
    {entry : ℕ → UInt8} {acts acts' : List Act} {s s' : State}
    (hrun : run (step qsort orderBy) (init start entry) acts = some s)
    (hfits : StepsMeet (AclPolls.step qsort orderBy) AclPolls.Fits (AclPolls.init start entry)
      (acts.filterMap Act.poll?))
    (hseen : s.polls.Reports ∨ AclPolls.DetectedSinceReload (AclPolls.step qsort orderBy)
      (AclPolls.init start entry) (acts.filterMap Act.poll?))
    (hrun' : run (step qsort orderBy) s acts' = some s') (hquiet : ∀ a ∈ acts', a.quiet = true)
    (htimeouts : 4 ≤ acts'.countP Act.isTimeout) (hpc : s'.pc = .waiting) : s'.polls.Published := by
  have hpolls := run_polls hrun
  have hrows : s.polls.rows.length ≤ 2048 :=
    AclPolls.length_run hfits (by simp [AclPolls.init]) hpolls
  have hup : AclPolls.UpToDate s.polls := by
    rcases hseen with hrep | hdetected
    · exact fun _ => Or.inr hrep
    · exact upToDate_of_detected hq ho hpolls hfits hdetected
  have hway := (StepsMeet.of_forall s hquiet).tally (K := fun _ a => a.isTimeout = true)
    (I := fun s n => s.polls.rows.length ≤ 2048 ∧ OnTheWay s n)
    (fun _ _ _ _ ha hi h => onTheWay_step hq ho ha hi.1 hi.2 (does_of_step h))
    ⟨hrows, onTheWay_zero (inStep_run hrun) hup⟩ hrun'
  rw [tally_eq_countP Act.isTimeout hrun', Nat.zero_add] at hway
  exact hway.2.published htimeouts hpc

/-- A row is inserted right after a poll, and found by the poll of the third time-out. -/
theorem published_within_four_one : ∃ s, run (step insertion id) (init 0 fun _ => 0)
    [.connect true, .attach true, .wait .timeout, .check true, .database (.insert fullRow),
      .wait .timeout, .wait .timeout, .wait .timeout, .check true, .doUpdate true,
      .wait .timeout] = some s ∧ s.polls.Published := by
  have hex : ∃ s, run (step insertion id) (init 0 fun _ => 0) [.connect true, .attach true,
      .wait .timeout, .check true, .database (.insert fullRow)] = some s := ⟨_, rfl⟩
  obtain ⟨s, hs⟩ := hex
  have hex' : ∃ s', run (step insertion id) s [.wait .timeout, .wait .timeout, .wait .timeout,
      .check true, .doUpdate true, .wait .timeout] = some s' := by
    obtain rfl := Option.some.inj hs
    exact ⟨_, rfl⟩
  obtain ⟨s', hs'⟩ := hex'
  have hrun : run (step insertion id) (init 0 fun _ => 0) ([.connect true, .attach true,
      .wait .timeout, .check true, .database (.insert fullRow)] ++ [.wait .timeout, .wait .timeout,
      .wait .timeout, .check true, .doUpdate true, .wait .timeout]) = some s' := by
    rw [run_append, hs]
    exact hs'
  refine ⟨s', hrun, published_within_four isQsort_insertion AclPolls.isOrderBy_id hs (by decide)
    (Or.inr ⟨[], _, rfl, Or.inl rfl, fun m hm => ?_⟩) hs' (by decide) (by decide)
    (eq_of_run_map (f := State.pc) hrun rfl)⟩
  obtain rfl := Option.some.inj hm
  decide

end AclThread

end DhcpToolset
