import DhcpToolset.AclPolls
import DhcpToolset.AclReaders

/-!
# The access list as a service

The rows of `access_list` change, the Monitor polls them and publishes tables, and the threads
of the DHCP server decide on the packets, all at the same time. The server may end and start
again : the list stays in the mapping that the Monitor keeps open, and `acl_init` initialises
its lock anew.

`AclPolls` publishes in one step, `AclReaders` publishes any tables. Here the writer of the
second publishes what the polls of the first load. `polls_refined` : whenever no update is under
way, the list in memory is the one of `AclPolls`. `decisions_follow_database` : every decision is
the one that the rows prescribe as they stood at one load, and `decisions_never_go_back` : no
decision uses an older load than one that was published when it began. The last two hold as long as
the server does not start while the lock is held.
-/

set_option linter.unusedSectionVars false

open Qsort Transition Win32

namespace DhcpToolset

/-! ## Tables on their way -/

namespace AclReaders

variable {ι : Type*}

/-- The rows that are being published. -/
def WriterPc.pending : WriterPc → List (List AccessRow)
  | .outside => []
  | .locking rows | .setting rows | .copying rows _ | .unlocking rows => [rows]

/-- The rows of all updates, the one under way included. -/
def State.issued (s : State ι) : List (List AccessRow) :=
  s.updates ++ s.writer.pending

/-- The rows that an action adds to them. -/
def Act.issues : Act ι → List (List AccessRow)
  | .update res => res.toList
  | _ => []

variable (qsort : (AclEntry → AclEntry → ℤ) → List AclEntry → List AclEntry) in
/-- What a step does to the update under way, the updates and the decisions. Between its query and
its release the writer stays on its way to the table of its rows. -/
inductive Effect (s : State ι) : Act ι → State ι → Prop where
  | keeps {a s'} : a.issues = [] → s'.writer.pending = s.writer.pending →
      (∀ acl, WriterAt qsort acl s.acl s.writer → WriterAt qsort acl s'.acl s'.writer) →
      s'.updates = s.updates → s'.decisions = s.decisions → Effect s a s'
  | decides {t c seen ret s'} : s.reader t = .releasing c seen ret → s'.acl = s.acl →
      s'.writer = s.writer → s'.updates = s.updates →
      s'.decisions = s.decisions ++ [(⟨c, seen, ret⟩ : Decision)] → Effect s (.release t) s'
  | issues {res s'} : s.writer = .outside → s'.acl = s.acl →
      s'.writer = (res.map WriterPc.locking).getD .outside → s'.updates = s.updates →
      s'.decisions = s.decisions → Effect s (.update res) s'
  | publishes {rows s'} : s.writer = .unlocking rows → s'.acl = s.acl → s'.writer = .outside →
      s'.updates = s.updates ++ [rows] → s'.decisions = s.decisions → Effect s .writeUnlock s'

variable [DecidableEq ι] {qsort : (AclEntry → AclEntry → ℤ) → List AclEntry → List AclEntry}
  {s s' : State ι} {a : Act ι}

theorem effect_of_step (hq : IsQsort qsort) (h : step qsort s a = some s') :
    Effect qsort s a s' := by
  cases a with
  | call t c | readLength t | readAccess t =>
    simp only [step] at h
    split at h
    · obtain rfl := Option.some.inj h
      exact .keeps rfl rfl (fun _ => id) rfl rfl
    · cases h
  | acquire t =>
    simp only [step] at h
    split at h
    · obtain ⟨l, -, rfl⟩ := Option.map_eq_some_iff.mp h
      exact .keeps rfl rfl (fun _ => id) rfl rfl
    · cases h
  | next t | compare t =>
    simp only [step, ← apply_ite] at h
    split at h
    · obtain rfl := Option.some.inj h
      exact .keeps rfl rfl (fun _ => id) rfl rfl
    · cases h
  | release t =>
    simp only [step] at h
    split at h
    · obtain rfl := Option.some.inj h
      exact .decides ‹_› rfl rfl rfl rfl
    · cases h
  | update res =>
    simp only [step] at h
    split at h
    · obtain rfl := Option.some.inj h
      exact .issues ‹_› rfl rfl rfl rfl
    · cases h
  | writeLock =>
    simp only [step] at h
    split at h
    · rename_i hpc
      obtain ⟨l, -, rfl⟩ := Option.map_eq_some_iff.mp h
      exact .keeps rfl (by rw [hpc]; rfl) (fun _ hw => by rwa [hpc] at hw) rfl rfl
    · cases h
  | setLength =>
    simp only [step] at h
    split at h
    · rename_i hpc
      obtain rfl := Option.some.inj h
      exact .keeps rfl (by rw [hpc]; rfl) (fun _ hw => writerAt_setLength (hpc ▸ hw)) rfl rfl
    · cases h
  | copy k =>
    simp only [step] at h
    split at h
    · rename_i hpc
      split_ifs at h with hk
      obtain rfl := Option.some.inj h
      exact .keeps rfl (by rw [hpc]; rfl) (fun _ hw => writerAt_copy hq (hpc ▸ hw) hk) rfl rfl
    · cases h
  | copied =>
    simp only [step] at h
    split at h
    · rename_i hpc
      split_ifs at h with hn
      obtain rfl := Option.some.inj h
      exact .keeps rfl (by rw [hpc]; rfl) (fun _ hw => writerAt_copied hq (hn ▸ hpc ▸ hw)) rfl rfl
    · cases h
  | writeUnlock =>
    simp only [step] at h
    split at h
    · obtain rfl := Option.some.inj h
      exact .publishes ‹_› rfl rfl rfl rfl
    · cases h

/-- An update is issued once, at its query. -/
theorem issued_step (h : Effect qsort s a s') : s'.issued = s.issued ++ a.issues := by
  cases h with
  | keeps ha hw _ hu _ => rw [State.issued, hw, hu, ha, List.append_nil, State.issued]
  | decides _ _ hw hu _ => simp [State.issued, hw, hu, Act.issues]
  | @issues res _ hpc _ hw hu _ =>
    rw [State.issued, hw, hu, State.issued, hpc]
    cases res <;> simp [WriterPc.pending, Act.issues]
  | publishes hpc _ hw hu _ =>
    rw [State.issued, hw, hu, State.issued, hpc]
    simp [WriterPc.pending, Act.issues]

/-- The writer's part of the invariant, whoever else has the lock. -/
theorem writerAt_step {acl : AclList}
    (hi : WriterAt qsort (tableAfter qsort acl s.updates) s.acl s.writer)
    (h : Effect qsort s a s') :
    WriterAt qsort (tableAfter qsort acl s'.updates) s'.acl s'.writer := by
  cases h with
  | keeps _ _ hw hu _ =>
    rw [hu]
    exact hw _ hi
  | decides _ hacl hw hu _ => rwa [hacl, hw, hu]
  | @issues res _ hpc hacl hw hu _ =>
    rw [hpc] at hi
    rw [hacl, hw, hu]
    cases res <;> exact hi
  | publishes hpc hacl hw hu _ =>
    rw [hpc] at hi
    rw [hacl, hw, hu, tableAfter_append]
    exact hi

/-- The steps from `s` to `s'` published more tables, and decided on none older than those of
`s`. -/
structure Later (s s' : State ι) : Prop where
  updates : s.updates.length ≤ s'.updates.length
  decisions : ∃ ds, s'.decisions = s.decisions ++ ds ∧ ∀ d ∈ ds, s.updates.length ≤ d.seen

theorem Later.refl (s : State ι) : Later s s :=
  ⟨le_rfl, [], by simp⟩

theorem Later.of_eq (hu : s'.updates = s.updates) (hd : s'.decisions = s.decisions) : Later s s' :=
  ⟨hu ▸ le_rfl, [], by simp [hd]⟩

theorem Later.trans {m : State ι} (h : Later s m) (h' : Later m s') : Later s s' := by
  obtain ⟨ds, hds, hseen⟩ := h.decisions
  obtain ⟨ds', hds', hseen'⟩ := h'.decisions
  refine ⟨h.updates.trans h'.updates, ds ++ ds', by rw [hds', hds, List.append_assoc], ?_⟩
  intro d hd
  rcases List.mem_append.mp hd with hd | hd
  · exact hseen d hd
  · exact h.updates.trans (hseen' d hd)

/-- A reader that releases the lock has kept the writer out since it took it. -/
theorem later_step {acl : AclList} (hi : Inv qsort acl s) (h : Effect qsort s a s') :
    Later s s' := by
  cases h with
  | keeps _ _ _ hu hd | issues _ _ _ hu hd => exact .of_eq hu hd
  | @decides t c seen ret _ hpc _ _ hu hd =>
    have hat := hi.scan t
    rw [hpc] at hat
    exact ⟨hu ▸ le_rfl, [⟨c, seen, ret⟩], hd, by simpa using hat.1.ge⟩
  | publishes _ _ _ hu hd => exact ⟨by simp [hu], [], by simp [hd]⟩

end AclReaders

/-! ## The service -/

namespace AclService

variable {ι : Type*}

/-- The database with the Monitor, and the list in memory. -/
structure State (ι : Type*) where
  /-- The database and the Monitor, with the list as it will be when the update is done. -/
  polls : AclPolls.State
  /-- The list in memory, its lock, and the threads that use it. -/
  list : AclReaders.State ι
  /-- The rows of the table at each successful load. -/
  loads : List (List AccessRow)

/-- A step of a part, or of the DHCP server as a process. -/
inductive Act (ι : Type*) where
  /-- A change of the rows, or a query of the Monitor. -/
  | poll (a : AclPolls.Act)
  /-- An access to the list. -/
  | list (a : AclReaders.Act ι)
  /-- The DHCP server ends. What its threads did to the lock stays. -/
  | exit
  /-- `acl_init` of the DHCP server, on the mapping that the Monitor keeps open. -/
  | start

/-- An empty table, and a mapping that was just created. -/
def init (start : ℕ) (entry : ℕ → UInt8) : State ι where
  polls := AclPolls.init start entry
  list := AclReaders.init ⟨0, entry⟩
  loads := []

variable [DecidableEq ι]

section Step

variable (qsort : (AclEntry → AclEntry → ℤ) → List AclEntry → List AclEntry)
  (orderBy : List AccessRow → List AccessRow)

/-- One step. The Monitor has one thread, which polls when it is not publishing. -/
def step (s : State ι) : Act ι → Option (State ι)
  | .poll (.doUpdate ok) =>
    let rows := s.polls.rows.map AclPolls.DbRow.row
    let res := if ok then some (orderBy rows) else none
    (AclPolls.step qsort orderBy s.polls (.doUpdate ok)).bind fun polls =>
      (AclReaders.step qsort s.list (.update res)).map fun list =>
        ⟨polls, list, if ok then s.loads ++ [rows] else s.loads⟩
  | .poll (.check ok) =>
    match s.list.writer with
    | .outside => (AclPolls.step qsort orderBy s.polls (.check ok)).map ({ s with polls := · })
    | _ => none
  | .poll a => (AclPolls.step qsort orderBy s.polls a).map ({ s with polls := · })
  | .list (.update _) => none
  | .list a => (AclReaders.step qsort s.list a).map ({ s with list := · })
  | .exit => some { s with list := { s.list with reader := fun _ => .outside } }
  | .start => some { s with list := { s.list with lock := {} } }

end Step

variable {qsort : (AclEntry → AclEntry → ℤ) → List AclEntry → List AclEntry}
  {orderBy : List AccessRow → List AccessRow}

/-- The steps of the parts. -/
inductive Does (qsort : (AclEntry → AclEntry → ℤ) → List AclEntry → List AclEntry)
    (orderBy : List AccessRow → List AccessRow) (s : State ι) : Act ι → State ι → Prop where
  | load {ok polls list} : AclPolls.step qsort orderBy s.polls (.doUpdate ok) = some polls →
      AclReaders.step qsort s.list (.update (if ok then
        some (orderBy (s.polls.rows.map AclPolls.DbRow.row)) else none)) = some list →
      Does qsort orderBy s (.poll (.doUpdate ok)) ⟨polls, list,
        if ok then s.loads ++ [s.polls.rows.map AclPolls.DbRow.row] else s.loads⟩
  | poll {a polls} : (∀ ok, a ≠ .doUpdate ok) → AclPolls.step qsort orderBy s.polls a = some polls →
      Does qsort orderBy s (.poll a) { s with polls := polls }
  | list {a list} : (∀ res, a ≠ .update res) → AclReaders.step qsort s.list a = some list →
      Does qsort orderBy s (.list a) { s with list := list }
  | exit : Does qsort orderBy s .exit { s with list := { s.list with reader := fun _ => .outside } }
  | start : Does qsort orderBy s .start { s with list := { s.list with lock := {} } }

theorem does_of_step {s s' : State ι} {a : Act ι} (h : step qsort orderBy s a = some s') :
    Does qsort orderBy s a s' := by
  cases a with
  | poll a =>
    cases a with
    | doUpdate ok =>
      obtain ⟨polls, hp, h⟩ := Option.bind_eq_some_iff.mp h
      obtain ⟨list, hl, rfl⟩ := Option.map_eq_some_iff.mp h
      exact .load hp hl
    | check ok =>
      simp only [step] at h
      split at h
      · obtain ⟨polls, hp, rfl⟩ := Option.map_eq_some_iff.mp h
        exact .poll (by simp) hp
      · cases h
    | tick | insert _ | update _ _ | delete _ =>
      simp only [step] at h
      obtain ⟨polls, hp, rfl⟩ := Option.map_eq_some_iff.mp h
      exact .poll (by simp) hp
  | list a =>
    cases a with
    | update res => cases h
    | call _ _ | acquire _ | readLength _ | next _ | compare _ | readAccess _ | release _
    | writeLock | setLength | copy _ | copied | writeUnlock =>
      obtain ⟨list, hl, rfl⟩ := Option.map_eq_some_iff.mp h
      exact .list (by simp) hl
  | exit =>
    obtain rfl := Option.some.inj h
    exact .exit
  | start =>
    obtain rfl := Option.some.inj h
    exact .start

/-! ## The invariant -/

/-- The server starts while nobody holds the lock of the list. -/
def StartsFree (s : State ι) : Act ι → Prop
  | .start => s.list.writer.holds = false ∧ ∀ t, (s.list.reader t).holds = false
  | _ => True

/-- The updates are those of the loads, and so are the list of the polls and the one that the writer
leaves in memory. -/
structure Publishing (qsort : (AclEntry → AclEntry → ℤ) → List AclEntry → List AclEntry)
    (orderBy : List AccessRow → List AccessRow) (entry : ℕ → UInt8) (s : State ι) : Prop where
  writer : AclReaders.WriterAt qsort (AclReaders.tableAfter qsort ⟨0, entry⟩ s.list.updates)
    s.list.acl s.list.writer
  issued : s.list.issued = s.loads.map orderBy
  table : s.polls.acl = AclReaders.tableAfter qsort ⟨0, entry⟩ (s.loads.map orderBy)

/-- And the readers see the tables of these updates. -/
structure Inv (qsort : (AclEntry → AclEntry → ℤ) → List AclEntry → List AclEntry)
    (orderBy : List AccessRow → List AccessRow) (entry : ℕ → UInt8) (s : State ι) : Prop where
  list : AclReaders.Inv qsort ⟨0, entry⟩ s.list
  publishing : Publishing qsort orderBy entry s

/-- Only a load changes the list of the polls. -/
theorem acl_of_step {s s' : AclPolls.State} {a : AclPolls.Act} (ha : ∀ ok, a ≠ .doUpdate ok)
    (h : AclPolls.step qsort orderBy s a = some s') : s'.acl = s.acl := by
  cases AclPolls.does_of_step h with
  | tick | insert | update _ | delete _ | unchanged _ | reported _ _ => rfl
  | loaded => exact absurd rfl (ha true)
  | failed => exact absurd rfl (ha false)

section Inv

variable {entry : ℕ → UInt8} {s s' : State ι} {a : Act ι}

theorem publishing_init (start : ℕ) (entry : ℕ → UInt8) :
    Publishing qsort orderBy entry (init start entry : State ι) :=
  ⟨rfl, rfl, rfl⟩

/-- The polls and the writer go on alike, whatever the server does to the lock. -/
theorem publishing_step (hq : IsQsort qsort) (hi : Publishing qsort orderBy entry s)
    (h : Does qsort orderBy s a s') : Publishing qsort orderBy entry s' := by
  cases h with
  | @load ok polls list hpolls hlist =>
    have heffect := AclReaders.effect_of_step hq hlist
    have hissued := (AclReaders.issued_step heffect).trans (congrArg (· ++ _) hi.issued)
    obtain rfl : AclPolls.doUpdate qsort orderBy ok s.polls = polls := by
      simp only [AclPolls.step] at hpolls
      split_ifs at hpolls
      exact Option.some.inj hpolls
    refine ⟨AclReaders.writerAt_step hi.writer heffect, ?_, ?_⟩
    · cases ok with
      | false => simpa [AclReaders.Act.issues] using hissued
      | true => simpa [AclReaders.Act.issues] using hissued
    · cases ok with
      | false => exact hi.table
      | true =>
        simp only [if_true, List.map_append, List.map_cons, List.map_nil,
          AclReaders.tableAfter_append, ← hi.table]
        rfl
  | poll ha hpolls => exact ⟨hi.writer, hi.issued, (acl_of_step ha hpolls).trans hi.table⟩
  | @list a list ha hlist =>
    have hnone : a.issues = [] := by
      cases a <;> first | rfl | exact absurd rfl (ha _)
    have heffect := AclReaders.effect_of_step hq hlist
    have hissued := AclReaders.issued_step heffect
    rw [hnone, List.append_nil] at hissued
    exact ⟨AclReaders.writerAt_step hi.writer heffect, hissued.trans hi.issued, hi.table⟩
  | exit | start => exact ⟨hi.writer, hi.issued, hi.table⟩

theorem inv_init (start : ℕ) (entry : ℕ → UInt8) :
    Inv qsort orderBy entry (init start entry : State ι) :=
  ⟨AclReaders.inv_init _, publishing_init start entry⟩

theorem inv_step (hq : IsQsort qsort) (hfree : StartsFree s a) (hi : Inv qsort orderBy entry s)
    (h : Does qsort orderBy s a s') : Inv qsort orderBy entry s' := by
  refine ⟨?_, publishing_step hq hi.publishing h⟩
  cases h with
  | load _ hlist | list _ hlist => exact AclReaders.inv_step hq hi.list hlist
  | poll _ _ => exact hi.list
  | exit =>
    exact ⟨fun _ ht => by simp [AclReaders.ReaderPc.holds] at ht, hi.list.exclusive,
      hi.list.apart, hi.list.table, fun _ => trivial, hi.list.decided⟩
  | start =>
    -- the lock is free before, and the new one is free
    obtain ⟨hwriter, hreader⟩ := hfree
    exact ⟨fun t ht => by simp [hreader t] at ht, hwriter.symm, fun _ => rfl,
      hi.list.table, hi.list.scan, hi.list.decided⟩

/-- A step decides on no table older than those published before it. -/
theorem later_step (hq : IsQsort qsort) (hi : Inv qsort orderBy entry s)
    (h : Does qsort orderBy s a s') : AclReaders.Later s.list s'.list := by
  cases h with
  | load _ hlist | list _ hlist =>
    exact AclReaders.later_step hi.list (AclReaders.effect_of_step hq hlist)
  | poll _ _ | exit | start => exact .of_eq rfl rfl

end Inv

/-! ## Every run -/

section Runs

variable {start : ℕ} {entry : ℕ → UInt8} {acts : List (Act ι)} {s : State ι}

theorem inv_run (hq : IsQsort qsort)
    (hrun : run (step qsort orderBy) (init start entry) acts = some s)
    (hfree : StepsMeet (step qsort orderBy) StartsFree (init start entry) acts) :
    Inv qsort orderBy entry s :=
  hfree.invariant (fun _ _ _ hf hi h => inv_step hq hf hi (does_of_step h))
    (inv_init start entry) hrun

/-- The part of the polls. -/
def Act.poll? : Act ι → Option AclPolls.Act
  | .poll a => some a
  | _ => none

/-- While no update is under way, the list in memory is the one of the polls. -/
theorem Publishing.acl_eq (h : Publishing qsort orderBy entry s) (hout : s.list.writer = .outside) :
    s.list.acl = s.polls.acl := by
  have hwriter := h.writer
  have hissued := h.issued
  rw [hout] at hwriter
  rw [AclReaders.State.issued, hout] at hissued
  rw [h.table, ← hissued, AclReaders.WriterPc.pending, List.append_nil]
  exact hwriter

/-- The list of the polls is the sorted form of the last load. -/
theorem Publishing.holdsSorted (hq : IsQsort qsort) (h : Publishing qsort orderBy entry s)
    {rows : List AccessRow} (hlast : s.loads.getLast? = some rows) :
    s.polls.acl.HoldsSorted (loadRows (orderBy rows)) := by
  obtain ⟨loads, hloads⟩ := List.getLast?_eq_some_iff.mp hlast
  rw [h.table, hloads, List.map_append, List.map_singleton, AclReaders.tableAfter_append]
  exact holdsSorted_aclDoUpdate hq (orderBy rows) _

/-- The rows, the watermark and the list of the service are those of the polls alone : the list in
memory is the one that they publish in one step, the sorted form of the last load, whenever no
update is under way, also where the server starts in the midst of one. -/
theorem polls_refined (hq : IsQsort qsort)
    (hrun : run (step qsort orderBy) (init start entry) acts = some s) :
    run (AclPolls.step qsort orderBy) (AclPolls.init start entry) (acts.filterMap Act.poll?) =
      some s.polls ∧
    (s.list.writer = .outside → s.list.acl = s.polls.acl ∧
      ∀ rows, s.loads.getLast? = some rows →
        s.list.acl.HoldsSorted (loadRows (orderBy rows))) := by
  have hi : Publishing qsort orderBy entry s := run_invariant
    (fun _ _ _ hi h => publishing_step hq hi (does_of_step h)) (publishing_init start entry) hrun
  refine ⟨run_filterMap (f := State.polls) (fun s a s' h => ?_) hrun, fun hout => ?_⟩
  · cases does_of_step h with
    | load hpolls _ | poll _ hpolls => exact run_cons_eq_some.mpr ⟨_, hpolls, rfl⟩
    | list _ _ | exit | start => rfl
  · exact ⟨hi.acl_eq hout, fun rows hlast => hi.acl_eq hout ▸ hi.holdsSorted hq hlast⟩

/-- The decision that the rows prescribe : the access of a matching entry of least key, or a permit
if none matches. -/
inductive Prescribes (rows : List AccessRow) (c : Client) : Int32 → Prop where
  | least {e} : IsLeastMatch AclEntry.key (·.Matches c) (rows.map parseRow) e →
      Prescribes rows c e.access
  | none : (∀ e ∈ rows.map parseRow, ¬e.Matches c = true) → Prescribes rows c accessPermit

theorem prescribes_aclFilter (hq : IsQsort qsort) (ho : AclPolls.IsOrderBy orderBy)
    {rows : List AccessRow} (hrows : rows.length ≤ 2048) (acl : AclList) {c : Client}
    (hc : c.hwAddrLen.toNat ≤ 16) :
    Prescribes rows c (aclFilter c (aclDoUpdate qsort (some (orderBy rows)) acl)) := by
  have hload : loadRows (orderBy rows) = (orderBy rows).map parseRow :=
    loadRows_eq_map ((ho rows).length_eq.trans_le hrows)
  have hperm : (aclSortEntry qsort (loadRows (orderBy rows))).Perm (rows.map parseRow) :=
    (perm_aclSortEntry hq _).trans (hload ▸ (ho rows).map parseRow)
  rw [aclFilter_aclDoUpdate hq _ acl hc, firstMatch]
  cases hf : (aclSortEntry qsort (loadRows (orderBy rows))).find? (·.Matches c) with
  | none =>
    exact .none fun e he => List.find?_eq_none.mp hf e (hperm.mem_iff.mpr he)
  | some e =>
    have hleast := find?_least (hq.pairwise_key orders_aclCompartor _) hf
    exact .least (hleast.perm hperm.symm)

/-- The decision is the one that the rows prescribe as they stood at the last load it saw, or a
permit before the first one. -/
structure FollowsLoad (loads : List (List AccessRow)) (d : AclReaders.Decision) : Prop where
  seen_le : d.seen ≤ loads.length
  permit : d.seen = 0 → d.ret = accessPermit
  prescribed : ∀ k rows, d.seen = k + 1 → loads[k]? = some rows → rows.length ≤ 2048 →
    d.client.hwAddrLen.toNat ≤ 16 → Prescribes rows d.client d.ret

theorem Inv.followsLoad (hq : IsQsort qsort) (ho : AclPolls.IsOrderBy orderBy)
    (hi : Inv qsort orderBy entry s) {d : AclReaders.Decision} (hd : d ∈ s.list.decisions) :
    FollowsLoad s.loads d := by
  obtain ⟨hle, hret⟩ := hi.list.decided d hd
  have hprefix : s.list.updates <+: s.loads.map orderBy :=
    hi.publishing.issued ▸ List.prefix_append _ _
  refine ⟨?_, fun h0 => ?_, fun k rows hk hload hrows hc => ?_⟩
  · have := hprefix.length_le
    rw [List.length_map] at this
    omega
  · rw [hret, h0]
    rfl
  · have hlt : k < s.list.updates.length := by omega
    have hupdate : s.list.updates[k] = orderBy rows := by
      have hget : s.list.updates[k]? = (s.loads.map orderBy)[k]? := by
        obtain ⟨rest, hrest⟩ := hprefix
        rw [← hrest, List.getElem?_append_left hlt]
      rw [List.getElem?_eq_getElem hlt, List.getElem?_map, hload] at hget
      exact Option.some.inj hget
    rw [hret, hk, List.take_succ_eq_append_getElem hlt, AclReaders.tableAfter_append, hupdate]
    exact prescribes_aclFilter hq ho hrows _ hc

/-- Every decision is the one that the rows prescribe as they stood at one load, and a permit
before the first one. -/
theorem decisions_follow_database (hq : IsQsort qsort) (ho : AclPolls.IsOrderBy orderBy)
    (hrun : run (step qsort orderBy) (init start entry) acts = some s)
    (hfree : StepsMeet (step qsort orderBy) StartsFree (init start entry) acts) :
    ∀ d ∈ s.list.decisions, d.seen ≤ s.loads.length ∧
      (d.seen = 0 → d.ret = accessPermit) ∧
      ∀ k rows, d.seen = k + 1 → s.loads[k]? = some rows → rows.length ≤ 2048 →
        d.client.hwAddrLen.toNat ≤ 16 → Prescribes rows d.client d.ret := by
  intro d hd
  have hfollows := (inv_run hq hrun hfree).followsLoad hq ho hd
  exact ⟨hfollows.seen_le, hfollows.permit, hfollows.prescribed⟩

/-- What is decided before a state uses loads that were published by then. What is decided after it
uses none older than the last of these, and is what the load it uses prescribes. -/
theorem decisions_never_go_back (hq : IsQsort qsort) (ho : AclPolls.IsOrderBy orderBy)
    (hrun : run (step qsort orderBy) (init start entry) acts = some s)
    (hfree : StepsMeet (step qsort orderBy) StartsFree (init start entry) acts)
    {acts' : List (Act ι)} {s' : State ι} (hrun' : run (step qsort orderBy) s acts' = some s')
    (hfree' : StepsMeet (step qsort orderBy) StartsFree s acts') :
    (∀ d ∈ s.list.decisions, d.seen ≤ s.list.updates.length) ∧
      ∃ ds, s'.list.decisions = s.list.decisions ++ ds ∧
        ∀ d ∈ ds, s.list.updates.length ≤ d.seen ∧ FollowsLoad s'.loads d := by
  have hi := inv_run hq hrun hfree
  refine ⟨fun d hd => (hi.list.decided d hd).1, ?_⟩
  have hlater : Inv qsort orderBy entry s' ∧ AclReaders.Later s.list s'.list :=
    hfree'.invariant
      (I := fun m => Inv qsort orderBy entry m ∧ AclReaders.Later s.list m.list)
      (fun _ _ _ hf hi h => ⟨inv_step hq hf hi.1 (does_of_step h),
        hi.2.trans (later_step hq hi.1 (does_of_step h))⟩)
      ⟨hi, .refl _⟩ hrun'
  obtain ⟨ds, hds, hseen⟩ := hlater.2.decisions
  refine ⟨ds, hds, fun d hd => ⟨hseen d hd, hlater.1.followsLoad hq ho ?_⟩⟩
  rw [hds]
  exact List.mem_append_right _ hd

end Runs

/-! ## A restart between two decisions -/

instance (s : State Unit) : ∀ a : Act Unit, Decidable (StartsFree s a)
  | .start => inferInstanceAs (Decidable (_ ∧ _))
  | .poll _ | .list _ | .exit => isTrue trivial

/-- A client of type 1 without an address. -/
def plainClient : Client :=
  ⟨1, fun _ => 0, 0⟩

/-- A decision on the empty list, and a row against every client of type 1 that is inserted, loaded
and published. -/
def publishOne : List (Act Unit) :=
  [.list (.call () plainClient), .list (.acquire ()), .list (.readLength ()), .list (.next ()),
    .list (.release ()), .poll (.insert wildcardRow), .poll (.check true), .poll (.doUpdate true),
    .list .writeLock, .list .setLength, .list (.copy 40), .list .copied, .list .writeUnlock]

/-- The server starts again, and decides on the list it finds. -/
def restart : List (Act Unit) :=
  [.exit, .start, .list (.call () plainClient), .list (.acquire ()), .list (.readLength ()),
    .list (.next ()), .list (.compare ()), .list (.readAccess ()), .list (.release ())]

/-- The server ends and starts in the midst of the update. -/
def restartInUpdate : List (Act Unit) :=
  [.poll (.insert wildcardRow), .poll (.check true), .poll (.doUpdate true), .list .writeLock,
    .list .setLength, .list (.copy 20), .exit, .start, .list (.copy 20), .list .copied,
    .list .writeUnlock]

theorem polls_refined_restart : ∃ s,
    run (step insertion id) (init 0 fun _ => 0) restartInUpdate = some s ∧
    s.polls.acl.length = 1 ∧ s.list.writer = .outside ∧ s.list.acl = s.polls.acl ∧
    s.list.acl.HoldsSorted [parseRow wildcardRow] := by
  have hex : ∃ s, run (step insertion id) (init 0 fun _ => 0) restartInUpdate = some s := ⟨_, rfl⟩
  obtain ⟨s, hs⟩ := hex
  have hout : s.list.writer = .outside := eq_of_run_map (f := fun s => s.list.writer) hs rfl
  have hlast : s.loads.getLast? = some [wildcardRow] :=
    eq_of_run_map (f := fun s => s.loads.getLast?) hs rfl
  obtain ⟨hacl, hsorted⟩ := (polls_refined isQsort_insertion hs).2 hout
  exact ⟨s, hs, eq_of_run_map (f := fun s => s.polls.acl.length) hs rfl, hout, hacl,
    hsorted [wildcardRow] hlast⟩

theorem decisions_follow_database_two : ∃ s,
    run (step insertion id) (init 0 fun _ => 0) (publishOne ++ restart) = some s ∧
    s.list.decisions.map AclReaders.Decision.ret = [accessPermit, 0] ∧
    ∀ d ∈ s.list.decisions, d.seen = 1 → Prescribes [wildcardRow] d.client d.ret := by
  have hex : ∃ s, run (step insertion id) (init 0 fun _ => 0) (publishOne ++ restart) = some s :=
    ⟨_, rfl⟩
  obtain ⟨s, hs⟩ := hex
  have hdecided := decisions_follow_database isQsort_insertion AclPolls.isOrderBy_id hs (by decide)
  have hloads : s.loads = [[wildcardRow]] := eq_of_run_map (f := State.loads) hs rfl
  have hclients : s.list.decisions.map (fun d => d.client.hwAddrLen.toNat) = [0, 0] :=
    eq_of_run_map (f := fun s => s.list.decisions.map fun d => d.client.hwAddrLen.toNat) hs rfl
  refine ⟨s, hs, eq_of_run_map (f := fun s => s.list.decisions.map AclReaders.Decision.ret) hs rfl,
    fun d hd hseen => (hdecided d hd).2.2 0 _ hseen (by rw [hloads]; rfl) (by decide) ?_⟩
  have hmem := List.mem_map_of_mem (f := fun d => d.client.hwAddrLen.toNat) hd
  rw [hclients] at hmem
  simp at hmem
  omega

theorem decisions_never_go_back_two : ∃ s s',
    run (step insertion id) (init 0 fun _ => 0) publishOne = some s ∧
    run (step insertion id) s restart = some s' ∧ s.list.updates.length = 1 ∧
    ∃ ds, s'.list.decisions = s.list.decisions ++ ds ∧
      ∀ d ∈ ds, s.list.updates.length ≤ d.seen ∧ FollowsLoad s'.loads d := by
  have hex : ∃ s s', run (step insertion id) (init 0 fun _ => 0) publishOne = some s ∧
      run (step insertion id) s restart = some s' := ⟨_, _, rfl, rfl⟩
  obtain ⟨s, s', hs, hs'⟩ := hex
  have hfree : StepsMeet (step insertion id) StartsFree (init 0 fun _ => 0)
      (publishOne ++ restart) := by decide
  obtain ⟨hbefore, hafter⟩ := (stepsMeet_append restart).mp hfree
  exact ⟨s, s', hs, hs', eq_of_run_map (f := fun s => s.list.updates.length) hs rfl,
    (decisions_never_go_back isQsort_insertion AclPolls.isOrderBy_id hs hbefore hs'
      (hafter s hs)).2⟩

end AclService

end DhcpToolset
