import DhcpToolset.BufferSignals

/-!
# What stays in the buffer

`buffer_add_tail` sets an event that is one bit, and every consumer takes one entry for one
signal. An addition that finds the event still set adds an entry and no signal, and no later
step makes up for it : `backlog_permanent` counts the entries of the queue as the signals, set
or taken, and the additions of this kind. Such an entry, or one behind it, is left for
good. After `max_size` of them the queue is full and stays full.

`buffer_leaks_nothing` : the memory is in order all the same. The entries that are allocated
are those of the queue.
-/

set_option linter.unusedSectionVars false

open Segment Transition

namespace DhcpToolset

namespace Buffer

variable {ι α : Type*} [DecidableEq ι]

/-! ## The backlog -/

/-- An accepted addition finds the event set, and adds no signal. -/
def Merges (s : State ι α) (a : Act ι α) : Prop :=
  ¬FindsClear s a

instance (s : State ι α) (a : Act ι α) : Decidable (Merges s a) :=
  inferInstanceAs (Decidable (¬_))

/-- The entries are the signals, set or taken, and `n` more. -/
structure Backlog (s : State ι α) (l : List α) (woken : Finset ι) (n : ℕ) : Prop where
  mem_iff : ∀ t, t ∈ woken ↔ s.pc t = .woken
  count : l.length = woken.card + s.evt.toNat + n

theorem backlog_init (maxSize : ℕ) : Backlog (init maxSize : State ι α) [] ∅ 0 :=
  ⟨fun t => by simp [init], by simp [init]⟩

theorem not_merges_of_ne_add {s : State ι α} {a : Act ι α} (h : ∀ t malloc, a ≠ .add t malloc) :
    ¬Merges s a := by
  cases a with
  | add t malloc => exact absurd rfl (h t malloc)
  | callAdd _ _ | callRemove _ | wake _ | timeout _ | remove _ => exact not_not.mpr trivial

/-- An addition merges its signal if it is accepted and the event is set. -/
theorem merges_add {s : State ι α} {t : ι} {malloc : Malloc} : Merges s (.add t malloc) ↔
    (decide (s.buff.size < s.buff.maxSize) && malloc.isSome) = true ∧ s.evt = true := by
  simp [Merges, FindsClear, and_assoc]

theorem Backlog.step {s s' : State ι α} {a : Act ι α} {l l' : List α} {woken : Finset ι} {n : ℕ}
    (hlen : l.length = s.buff.size) (hi : Backlog s l woken n) (h : Does s l a s' l') :
    ∃ woken', Backlog s' l' woken' (n + if Merges s a then 1 else 0) := by
  have hcount := hi.count
  cases h with
  | @callAdd t data hpc =>
    rw [if_neg (not_merges_of_ne_add (by simp))]
    exact ⟨woken, mem_iff_update hi.mem_iff (by simp [hpc]) (by simp), hcount⟩
  | @add t malloc data ret buff as hpc hret =>
    refine ⟨woken, mem_iff_update hi.mem_iff (by simp [hpc]) (by simp), ?_⟩
    rw [hlen] at hret
    simp only [State.setPc, merges_add, ← hret]
    cases ret with
    | false => simpa using hcount
    | true =>
      cases hevt : s.evt <;> simp [hevt] at hcount ⊢ <;> omega
  | @callRemove t hpc =>
    rw [if_neg (not_merges_of_ne_add (by simp))]
    exact ⟨woken, mem_iff_update hi.mem_iff (by simp [hpc]) (by simp), hcount⟩
  | @wake t hpc hevt =>
    rw [if_neg (not_merges_of_ne_add (by simp))]
    refine ⟨insert t woken, mem_insert_iff_update hi.mem_iff, ?_⟩
    have hnot : t ∉ woken := fun ht => by simpa [hpc] using (hi.mem_iff t).mp ht
    rw [hevt] at hcount
    simpa [State.setPc, Finset.card_insert_of_notMem hnot] using hcount
  | @timeout t hpc =>
    rw [if_neg (not_merges_of_ne_add (by simp))]
    exact ⟨woken, mem_iff_update hi.mem_iff (by simp [hpc]) (by simp), hcount⟩
  | @remove t buff as hpc =>
    rw [if_neg (not_merges_of_ne_add (by simp))]
    refine ⟨woken.erase t, mem_erase_iff_update hi.mem_iff (by simp), ?_⟩
    have ht : t ∈ woken := (hi.mem_iff t).mpr hpc
    have hpos : 0 < woken.card := Finset.card_pos.mpr ⟨t, ht⟩
    simp only [State.setPc, Finset.card_erase_of_mem ht, List.length_tail]
    omega

section Runs

variable [DecidableEq α] {maxSize : ℕ} {acts : List (Act ι α)} {s : State ι α}

/-- The count of every run. -/
theorem backlog_run (hrun : run step (init maxSize) acts = some s) :
    ∃ l woken, Refines maxSize s l ∧ Backlog s l woken (tally step Merges (init maxSize) acts) := by
  have hcount := run_tally (K := Merges)
    (I := fun (s : State ι α) n => ∃ l woken, Refines maxSize s l ∧ Backlog s l woken n)
    (fun s a s' n ⟨l, woken, hr, hb⟩ h => by
      obtain ⟨as, hrep⟩ := hr.represents
      obtain ⟨l', hd⟩ := does_of_step hrep h
      obtain ⟨woken', hb'⟩ := hb.step hrep.length_eq hd
      exact ⟨l', woken', hr.step hd, hb'⟩)
    ⟨[], ∅, refines_init maxSize, backlog_init maxSize⟩ hrun
  simpa using hcount

/-- In every run the entries are as many as the signals, set or taken, and the additions that found
the event set. The queue never gets shorter than these, and with `max_size` of them it is full for
good. -/
theorem backlog_permanent (hrun : run step (init maxSize) acts = some s) :
    (s.buff.size : ℕ∞) = {t | s.pc t = .woken}.encard + s.evt.toNat +
      tally step Merges (init maxSize) acts ∧
    ∀ acts' s', run step s acts' = some s' →
      tally step Merges (init maxSize) acts ≤ s'.buff.size ∧
      (maxSize ≤ tally step Merges (init maxSize) acts → s'.buff.size = maxSize) := by
  refine ⟨?_, fun acts' s' hrun' => ?_⟩
  · obtain ⟨l, woken, hr, hb⟩ := backlog_run hrun
    obtain ⟨as, hrep⟩ := hr.represents
    have hset : {t | s.pc t = .woken} = (woken : Set ι) := by
      ext t
      exact (hb.mem_iff t).symm
    rw [hset, Set.encard_coe_eq_coe_finsetCard, ← hrep.length_eq, hb.count]
    push_cast
    rfl
  · have hboth : run step (init maxSize) (acts ++ acts') = some s' := by
      rw [run_append, hrun]
      exact hrun'
    obtain ⟨l, woken, hr, hb⟩ := backlog_run hboth
    obtain ⟨as, hrep⟩ := hr.represents
    have hcount := hb.count
    rw [hrep.length_eq, tally_append hrun] at hcount
    have hbound := hrep.bound
    rw [hr.max_eq] at hbound
    exact ⟨by omega, fun hfull => by omega⟩

end Runs

/-- Of two entries the second one is left behind by every run from there. -/
theorem backlog_permanent_two : ∃ s : State Role ℕ, run step (init 65536) twoAdds = some s ∧
    tally step Merges (init 65536) twoAdds = 1 ∧
    ∀ acts' s', run step s acts' = some s' → 1 ≤ s'.buff.size := by
  have hex : ∃ s : State Role ℕ, run step (init 65536) twoAdds = some s := ⟨_, rfl⟩
  obtain ⟨s, hs⟩ := hex
  have htally : tally step Merges (init 65536) twoAdds = 1 := by decide
  refine ⟨s, hs, htally, fun acts' s' hrun => ?_⟩
  have hleft := ((backlog_permanent hs).2 acts' s' hrun).1
  rwa [htally] at hleft

/-! ## Memory -/

/-- The entries that are allocated, as many as `size` says. -/
structure Live (buff : LinkedBuffer α) (live : Finset Addr) : Prop where
  mem_iff : ∀ a, a ∈ live ↔ (buff.heap a).isSome = true
  card_eq : live.card = buff.size

section Memory

variable {buff buff' : LinkedBuffer α} {live : Finset Addr}

/-- One entry more. The store into the tail changes no entry's life. -/
theorem Live.linkEntry (h : Live buff live) {data : α} {entry : Addr} {garbage : Option Addr}
    (hfree : buff.heap entry = none)
    (hlink : DhcpToolset.linkEntry buff data entry garbage = .ok buff') :
    Live buff' (insert entry live) := by
  have hnot : entry ∉ live := fun hmem => by simpa [hfree] using (h.mem_iff entry).mp hmem
  have hcard : (insert entry live).card = buff.size + 1 := by
    rw [Finset.card_insert_of_notMem hnot, h.card_eq]
  have hnew : ∀ a, a ∈ insert entry live ↔
      (Function.update buff.heap entry (some ⟨data, garbage, false⟩) a).isSome = true := by
    intro a
    rw [Finset.mem_insert]
    rcases eq_or_ne a entry with rfl | hne
    · simp
    · rw [Function.update_of_ne hne, or_iff_right hne]
      exact h.mem_iff a
  unfold DhcpToolset.linkEntry at hlink
  dsimp only at hlink
  split at hlink
  · next tail htail =>
    split at hlink
    · cases hlink
    · next e he =>
      obtain rfl := Except.ok.inj hlink
      refine ⟨fun a => (hnew a).trans ?_, hcard⟩
      rcases eq_or_ne a tail with rfl | hne
      · simp [he]
      · simp [Function.update_of_ne hne]
  · obtain rfl := Except.ok.inj hlink
    exact ⟨hnew, hcard⟩

theorem Live.bufferAddTail (h : Live buff live) {data : α} {malloc : Malloc} {ret : Bool}
    (hfree : ∀ m ∈ malloc, buff.heap m.1 = none)
    (hadd : DhcpToolset.bufferAddTail buff data malloc = .ok (ret, buff')) :
    ∃ live', Live buff' live' := by
  unfold DhcpToolset.bufferAddTail at hadd
  split at hadd
  · obtain ⟨-, rfl⟩ := Prod.mk.inj (Except.ok.inj hadd)
    exact ⟨live, h⟩
  · split at hadd
    · obtain ⟨-, rfl⟩ := Prod.mk.inj (Except.ok.inj hadd)
      exact ⟨live, h⟩
    · next entry garbage =>
      cases hlink : DhcpToolset.linkEntry buff data entry garbage with
      | error f => rw [hlink] at hadd; cases hadd
      | ok buff₁ =>
        rw [hlink] at hadd
        obtain ⟨-, rfl⟩ := Prod.mk.inj (Except.ok.inj hadd)
        exact ⟨_, h.linkEntry (hfree _ rfl) hlink⟩

/-- The entry that is taken is freed. -/
theorem Live.bufferRemoveHead (h : Live buff live) {ret : Option α}
    (hremove : DhcpToolset.bufferRemoveHead buff = .ok (ret, buff')) :
    ∃ live', Live buff' live' := by
  unfold DhcpToolset.bufferRemoveHead at hremove
  split at hremove
  · obtain ⟨-, rfl⟩ := Prod.mk.inj (Except.ok.inj hremove)
    exact ⟨live, h⟩
  · next entry hhead =>
    split at hremove
    · cases hremove
    · next e he =>
      split at hremove
      · cases hremove
      split at hremove
      · cases hremove
      obtain ⟨-, rfl⟩ := Prod.mk.inj (Except.ok.inj hremove)
      have hmem : entry ∈ live := (h.mem_iff entry).mpr (by simp [he])
      refine ⟨live.erase entry, fun a => ?_, ?_⟩
      · rw [Finset.mem_erase]
        rcases eq_or_ne a entry with rfl | hne
        · simp
        · rw [and_iff_right hne]
          simpa [Function.update_of_ne hne] using h.mem_iff a
      · rw [Finset.card_erase_of_mem hmem, h.card_eq]

/-- As many entries are allocated as are linked, so these are all. -/
theorem Live.mem_iff_of_represents (h : Live buff live) {as : List Addr} {l : List α}
    (hr : Represents buff as l) (a : Addr) : (buff.heap a).isSome = true ↔ a ∈ as := by
  have hsub : as.toFinset ⊆ live := by
    intro b hb
    obtain ⟨c, hc⟩ := hr.seg.linked.isSome b (List.mem_toFinset.mp hb)
    exact (h.mem_iff b).mpr (by simp [hc])
  have hcard : live.card ≤ as.toFinset.card := by
    rw [List.toFinset_card_of_nodup hr.seg.nodup, h.card_eq, hr.size]
  rw [← h.mem_iff, ← Finset.eq_of_subset_of_card_le hsub hcard, List.mem_toFinset]

end Memory

theorem live_step {s s' : State ι α} {a : Act ι α} (hi : ∃ live, Live s.buff live)
    (h : step s a = some s') : ∃ live, Live s'.buff live := by
  obtain ⟨live, hlive⟩ := hi
  cases a with
  | add t malloc =>
    simp only [step] at h
    split at h
    · split_ifs at h with hall
      split at h
      · obtain rfl := Option.some.inj h
        exact ⟨live, hlive⟩
      · next ret buff hadd =>
        obtain rfl := Option.some.inj h
        have hfree : ∀ m ∈ malloc, s.buff.heap m.1 = none := by
          rintro m rfl
          simpa using hall
        exact hlive.bufferAddTail hfree hadd
    · cases h
  | remove t =>
    simp only [step] at h
    split at h
    · split at h
      · obtain rfl := Option.some.inj h
        exact ⟨live, hlive⟩
      · next ret buff hremove =>
        obtain rfl := Option.some.inj h
        exact hlive.bufferRemoveHead hremove
    · cases h
  | wake t | timeout t =>
    simp only [step] at h
    split at h
    · split_ifs at h
      obtain rfl := Option.some.inj h
      exact ⟨live, hlive⟩
    · cases h
  | callAdd t data | callRemove t =>
    simp only [step] at h
    split at h
    · obtain rfl := Option.some.inj h
      exact ⟨live, hlive⟩
    · cases h

/-- In every run the entries that are allocated are those of the queue, from `head` to `tail`. -/
theorem buffer_leaks_nothing [DecidableEq α] {maxSize : ℕ} {acts : List (Act ι α)} {s : State ι α}
    (hrun : run step (init maxSize) acts = some s) :
    ∃ as l, Represents s.buff as l ∧ ∀ a, (s.buff.heap a).isSome = true ↔ a ∈ as := by
  obtain ⟨live, hlive⟩ := run_invariant (I := fun s : State ι α => ∃ live, Live s.buff live)
    (fun _ _ _ hi h => live_step hi h)
    ⟨∅, fun a => by simp [init, bufferInit], rfl⟩ hrun
  obtain ⟨l, hr⟩ := refines_run hrun
  obtain ⟨as, hrep⟩ := hr.represents
  exact ⟨as, l, hrep, hlive.mem_iff_of_represents hrep⟩

/-- Two entries are added and one is taken. -/
theorem buffer_leaks_nothing_two : ∃ s : State Role ℕ, run step (init 65536) twoAdds = some s ∧
    s.buff.size = 1 ∧
    ∃ as l, Represents s.buff as l ∧ ∀ a, (s.buff.heap a).isSome = true ↔ a ∈ as := by
  have hex : ∃ s : State Role ℕ, run step (init 65536) twoAdds = some s := ⟨_, rfl⟩
  obtain ⟨s, hs⟩ := hex
  exact ⟨s, hs, eq_of_run_map (f := fun s => s.buff.size) hs rfl, buffer_leaks_nothing hs⟩

end Buffer

end DhcpToolset
