import DhcpToolset.BufferRuns
import Mathlib.Data.Set.Card

/-!
# Signals and entries of the linked buffer

A consumer takes the signal of the event first and the lock of the buffer after it, so that other
threads may add and remove entries while it holds a signal and no entry. The count is still right :
an addition sets the event with its entry already linked, and only a thread that took a signal
removes one.

`consumed_signal_finds_entry` : in every run there are at least as many entries as consumers that
hold a signal, and one more when the event is signalled. The locked section of a consumer
therefore finds the head of the queue, and returns a pointer that a producer gave.
-/

set_option linter.unusedSectionVars false

open Transition

namespace DhcpToolset

namespace Buffer

variable {ι α : Type*} [DecidableEq ι]

/-! ## Counting the signals -/

/-- `woken` are the consumers that hold a signal, and there is an entry for each of them and for the
event. -/
structure Backed (s : State ι α) (l : List α) (woken : Finset ι) : Prop where
  mem_iff : ∀ t, t ∈ woken ↔ s.pc t = .woken
  count : woken.card + s.evt.toNat ≤ l.length

theorem backed_init (maxSize : ℕ) : Backed (init maxSize : State ι α) [] ∅ :=
  ⟨fun t => by simp [init], by simp [init]⟩

section Move

variable {pc : ι → Pc α} {woken : Finset ι} {t : ι} {p : Pc α}

/-- A thread moves, and holds no signal before and after. -/
theorem mem_iff_update (h : ∀ u, u ∈ woken ↔ pc u = .woken) (ht : pc t ≠ .woken) (hp : p ≠ .woken)
    (u : ι) : u ∈ woken ↔ Function.update pc t p u = .woken := by
  rcases eq_or_ne u t with rfl | hne
  · rw [Function.update_self]
    exact iff_of_false (fun hu => ht ((h u).mp hu)) hp
  · rw [Function.update_of_ne hne]
    exact h u

/-- A thread takes the signal. -/
theorem mem_insert_iff_update (h : ∀ u, u ∈ woken ↔ pc u = .woken) (u : ι) :
    u ∈ insert t woken ↔ Function.update pc t .woken u = .woken := by
  rw [Finset.mem_insert]
  rcases eq_or_ne u t with rfl | hne
  · simp
  · rw [Function.update_of_ne hne, or_iff_right hne]
    exact h u

/-- A thread that held a signal leaves. -/
theorem mem_erase_iff_update (h : ∀ u, u ∈ woken ↔ pc u = .woken) (hp : p ≠ .woken) (u : ι) :
    u ∈ woken.erase t ↔ Function.update pc t p u = .woken := by
  rw [Finset.mem_erase]
  rcases eq_or_ne u t with rfl | hne
  · simp [hp]
  · rw [Function.update_of_ne hne, and_iff_right hne]
    exact h u

end Move

theorem Backed.step {s s' : State ι α} {a : Act ι α} {l l' : List α} {woken : Finset ι}
    (hi : Backed s l woken) (h : Does s l a s' l') : ∃ woken', Backed s' l' woken' := by
  have hcount := hi.count
  cases h with
  | @callAdd t data hpc =>
    exact ⟨woken, mem_iff_update hi.mem_iff (by simp [hpc]) (by simp), hcount⟩
  | @add t malloc data ret buff as hpc =>
    refine ⟨woken, mem_iff_update hi.mem_iff (by simp [hpc]) (by simp), ?_⟩
    cases ret with
    | false => simpa [State.setPc] using hcount
    | true =>
      simp only [State.setPc, if_true, List.length_append, List.length_singleton, Bool.or_true,
        Bool.toNat_true]
      omega
  | @callRemove t hpc =>
    exact ⟨woken, mem_iff_update hi.mem_iff (by simp [hpc]) (by simp), hcount⟩
  | @wake t hpc hevt =>
    refine ⟨insert t woken, mem_insert_iff_update hi.mem_iff, ?_⟩
    have hnot : t ∉ woken := fun ht => by simpa [hpc] using (hi.mem_iff t).mp ht
    rw [hevt] at hcount
    simpa [State.setPc, Finset.card_insert_of_notMem hnot] using hcount
  | @timeout t hpc =>
    exact ⟨woken, mem_iff_update hi.mem_iff (by simp [hpc]) (by simp), hcount⟩
  | @remove t buff as hpc =>
    refine ⟨woken.erase t, mem_erase_iff_update hi.mem_iff (by simp), ?_⟩
    have ht : t ∈ woken := (hi.mem_iff t).mpr hpc
    have hpos : 0 < woken.card := Finset.card_pos.mpr ⟨t, ht⟩
    simp only [State.setPc, Finset.card_erase_of_mem ht, List.length_tail]
    omega

/-- A consumer that holds a signal finds an entry. -/
theorem Backed.ne_nil {s : State ι α} {l : List α} {woken : Finset ι} (hi : Backed s l woken)
    {t : ι} (ht : s.pc t = .woken) : l ≠ [] := by
  rintro rfl
  have hpos : 0 < woken.card := Finset.card_pos.mpr ⟨t, (hi.mem_iff t).mpr ht⟩
  have hcount := hi.count
  rw [List.length_nil] at hcount
  omega

/-! ## What the consumers return -/

/-- The pointers in the queue, and those returned by the locked sections, are of a kind. -/
structure Carries (P : α → Prop) (s : State ι α) (l : List α) : Prop where
  adding : ∀ t data, s.pc t = .adding data → P data
  queue : ∀ v ∈ l, P v
  returned : ∀ ret, Fifo.Op.remove ret ∈ s.ops → ∃ v, ret = some v ∧ P v

theorem carries_init (P : α → Prop) (maxSize : ℕ) : Carries P (init maxSize : State ι α) [] :=
  ⟨fun t data h => by simp [init] at h, by simp, by simp [init]⟩

/-- A pointer that a producer gave. -/
def Given (acts : List (Act ι α)) (v : α) : Prop :=
  ∃ t, Act.callAdd t v ∈ acts

/-- The producers add pointers of the kind. -/
def Act.Gives (P : α → Prop) (a : Act ι α) : Prop :=
  ∀ t data, a = .callAdd t data → P data

section Kinds

variable {P : α → Prop} {s s' : State ι α} {a : Act ι α} {l l' : List α} {woken : Finset ι}

/-- A thread moves to a place without a pointer. -/
theorem adding_update {pc : ι → Pc α} (h : ∀ u data, pc u = .adding data → P data) {t : ι}
    {p : Pc α} (hp : ∀ data, p = .adding data → P data) (u : ι) (data : α)
    (hu : Function.update pc t p u = .adding data) : P data := by
  rcases eq_or_ne u t with rfl | hne
  · rw [Function.update_self] at hu
    exact hp data hu
  · rw [Function.update_of_ne hne] at hu
    exact h u data hu

theorem Carries.step (ha : a.Gives P) (hb : Backed s l woken) (hi : Carries P s l)
    (h : Does s l a s' l') : Carries P s' l' := by
  cases h with
  | @callAdd t data hpc =>
    refine ⟨adding_update hi.adding fun data' heq => ?_, hi.queue, hi.returned⟩
    obtain rfl := Pc.adding.inj heq
    exact ha t data rfl
  | @add t malloc data ret buff as hpc =>
    refine ⟨adding_update hi.adding (by simp), ?_, fun ret' hret' => hi.returned ret' ?_⟩
    · cases ret with
      | false => exact hi.queue
      | true => simpa [or_imp, forall_and] using ⟨hi.queue, hi.adding t data hpc⟩
    · simpa [State.setPc] using hret'
  | @callRemove t hpc => exact ⟨adding_update hi.adding (by simp), hi.queue, hi.returned⟩
  | @wake t hpc hevt => exact ⟨adding_update hi.adding (by simp), hi.queue, hi.returned⟩
  | @timeout t hpc hevt => exact ⟨adding_update hi.adding (by simp), hi.queue, hi.returned⟩
  | @remove t buff as hpc =>
    refine ⟨adding_update hi.adding (by simp), fun v hv => hi.queue v (List.mem_of_mem_tail hv), ?_⟩
    intro ret hret
    rcases List.mem_append.mp hret with hold | hnew
    · exact hi.returned ret hold
    · obtain rfl : ret = l.head? := by simpa using hnew
      obtain ⟨v, hv⟩ := Option.isSome_iff_exists.mp (List.isSome_head?.mpr (hb.ne_nil hpc))
      exact ⟨v, hv, hi.queue v (List.mem_of_head? hv)⟩

end Kinds

/-! ## Every run -/

variable [DecidableEq α]

/-- A signal that is consumed always finds an entry. A `NULL` comes back from a locked section, all
of which are logged, only if a producer gave it. -/
theorem consumed_signal_finds_entry {maxSize : ℕ} {acts : List (Act ι α)} {s : State ι α}
    (hrun : run step (init maxSize) acts = some s) :
    {t | s.pc t = .woken}.encard + s.evt.toNat ≤ s.buff.size ∧
      (∀ t, s.pc t = .woken → s.buff.head ≠ none) ∧
      s.ops.map Fifo.Op.call = lockedSections (fun _ => none) acts ∧
      ∀ ret, Fifo.Op.remove ret ∈ s.ops → ∃ v, ret = some v ∧ Given acts v := by
  have hgives : StepsMeet step (fun _ a => a.Gives (Given acts)) (init maxSize) acts := by
    refine StepsMeet.of_forall _ fun a ha t data heq => ⟨t, ?_⟩
    rw [← heq]
    exact ha
  obtain ⟨l, woken, hr, hb, hc⟩ := hgives.invariant
    (I := fun s => ∃ l woken, Refines maxSize s l ∧ Backed s l woken ∧
      Carries (Given acts) s l)
    (fun s a s' ha ⟨l, woken, hr, hb, hc⟩ h => by
      obtain ⟨as, hrep⟩ := hr.represents
      obtain ⟨l', hd⟩ := does_of_step hrep h
      obtain ⟨woken', hb'⟩ := hb.step hd
      exact ⟨l', woken', hr.step hd, hb', hc.step ha hb hd⟩)
    ⟨[], ∅, refines_init maxSize, backed_init maxSize, carries_init _ maxSize⟩ hrun
  obtain ⟨as, hrep⟩ := hr.represents
  refine ⟨?_, fun t ht hhead => hb.ne_nil ht ?_, ops_eq_lockedSections hrun, hc.returned⟩
  · have hset : {t | s.pc t = .woken} = (woken : Set ι) := by
      ext t
      exact (hb.mem_iff t).symm
    rw [hset, Set.encard_coe_eq_coe_finsetCard, ← hrep.length_eq]
    exact_mod_cast hb.count
  · rw [hrep.head, List.head?_eq_none_iff] at hhead
    exact hrep.eq_nil_iff.mp hhead

/-- Two consumers wait, and the first of them is between its wait and its lock while the second
entry comes and its signal is taken. -/
def twoConsumers : List (Act ℕ ℕ) :=
  [.callRemove 1, .callRemove 2, .callAdd 0 7, .add 0 (some (4, none)), .wake 1, .callAdd 0 8,
    .add 0 (some (5, some 9)), .wake 2, .remove 2]

theorem consumed_signal_finds_entry_two : ∃ s : State ℕ ℕ,
    run step (init 65536) twoConsumers = some s ∧ s.pc 1 = .woken ∧ s.buff.head ≠ none := by
  have hex : ∃ s : State ℕ ℕ, run step (init 65536) twoConsumers = some s := ⟨_, rfl⟩
  obtain ⟨s, hs⟩ := hex
  have hpc : s.pc 1 = .woken := eq_of_run_map (f := fun s => s.pc 1) hs rfl
  exact ⟨s, hs, hpc, (consumed_signal_finds_entry hs).2.1 1 hpc⟩

end Buffer

end DhcpToolset
