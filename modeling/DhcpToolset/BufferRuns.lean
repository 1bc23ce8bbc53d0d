import DhcpToolset.LinkedBuffer

/-!
# Threads on the linked buffer

Any number of threads call `buffer_add_tail` and `buffer_remove_head` on one buffer. Both
do their work inside `buff->lock`, which is taken exclusively, so a locked section is one
step, its `SetEvent` included; `buffer_remove_head` waits on the auto-reset event first,
and another thread may run between its wait and its locked section.

`buffer_refines_fifo` : in every run the entries are a well-linked list (`WellLinked`), no
fault happens, and the locked sections (`lockedSections`), each of which is logged, returned what a
bounded FIFO queue returns.

The event is one bit while the queue counts. `buffer_wakes` : if no addition finds the
event already signalled, a queue that is not empty is signalled whenever nobody is inside
a call, and a wait times out only on an empty queue.
-/

set_option linter.unusedSectionVars false

open Segment Transition

namespace DhcpToolset

namespace Buffer

variable {ι α : Type*}

/-- Where a thread is. -/
inductive Pc (α : Type*) where
  | outside
  /-- In `buffer_add_tail`, before its lock. -/
  | adding (data : α)
  /-- In the wait of `buffer_remove_head`. -/
  | waiting
  /-- In `buffer_remove_head`, the signal consumed, before its lock. -/
  | woken
  deriving DecidableEq

/-- The buffer, its event, and where the threads are. -/
structure State (ι α : Type*) where
  buff : LinkedBuffer α
  evt : Bool
  pc : ι → Pc α
  /-- The locked sections so far. -/
  ops : List (Fifo.Op α)
  fault : Option Fault

/-- A call, the end of a wait, or a locked section as a whole. -/
inductive Act (ι α : Type*) where
  | callAdd (t : ι) (data : α)
  | add (t : ι) (malloc : Malloc)
  | callRemove (t : ι)
  | wake (t : ι)
  | timeout (t : ι)
  | remove (t : ι)

variable [DecidableEq ι]

/-- A thread goes on. -/
def State.setPc (s : State ι α) (t : ι) (pc : Pc α) : State ι α :=
  { s with pc := Function.update s.pc t pc }

/-- After `buffer_init`. -/
def init (maxSize : ℕ) : State ι α where
  buff := bufferInit maxSize
  evt := false
  pc _ := .outside
  ops := []
  fault := none

/-- One step. `malloc` returns an address without a live entry; a wait times out on an
event that is not signalled. -/
def step (s : State ι α) : Act ι α → Option (State ι α)
  | .callAdd t data =>
    match s.pc t with
    | .outside => some (s.setPc t (.adding data))
    | _ => none
  | .add t malloc =>
    match s.pc t with
    | .adding data =>
      if malloc.all fun m => (s.buff.heap m.1).isNone then
        match bufferAddTail s.buff data malloc with
        | .error f => some { s with fault := some f }
        | .ok (ret, buff) =>
          some ({ s with
            buff := buff
            evt := s.evt || ret
            ops := s.ops ++ [Fifo.Op.add data malloc.isNone ret] }.setPc t .outside)
      else none
    | _ => none
  | .callRemove t =>
    match s.pc t with
    | .outside => some (s.setPc t .waiting)
    | _ => none
  | .wake t =>
    match s.pc t with
    | .waiting => if s.evt then some ({ s with evt := false }.setPc t .woken) else none
    | _ => none
  | .timeout t =>
    match s.pc t with
    | .waiting => if s.evt then none else some (s.setPc t .outside)
    | _ => none
  | .remove t =>
    match s.pc t with
    | .woken =>
      match bufferRemoveHead s.buff with
      | .error f => some { s with fault := some f }
      | .ok (ret, buff) =>
        some ({ s with buff := buff, ops := s.ops ++ [Fifo.Op.remove ret] }.setPc t .outside)
    | _ => none

/-- The locked sections of some steps, in their order. `given` holds the pointers that the threads
came with before. -/
def lockedSections (given : ι → Option α) : List (Act ι α) → List (Fifo.Call α)
  | [] => []
  | .callAdd t data :: acts => lockedSections (Function.update given t (some data)) acts
  | .add t malloc :: acts =>
    ((given t).map fun data => .add data malloc.isNone).toList ++ lockedSections given acts
  | .remove _ :: acts => .remove :: lockedSections given acts
  | .callRemove _ :: acts | .wake _ :: acts | .timeout _ :: acts => lockedSections given acts

/-! ## What a step does -/

/-- The steps from a state whose buffer represents `l`. -/
inductive Does (s : State ι α) (l : List α) : Act ι α → State ι α → List α → Prop where
  | callAdd {t data} : s.pc t = .outside → Does s l (.callAdd t data) (s.setPc t (.adding data)) l
  | add {t malloc data ret buff as} : s.pc t = .adding data →
      ret = (decide (l.length < s.buff.maxSize) && malloc.isSome) →
      buff.maxSize = s.buff.maxSize → Represents buff as (if ret then l ++ [data] else l) →
      Does s l (.add t malloc)
        ({ s with
          buff := buff
          evt := s.evt || ret
          ops := s.ops ++ [Fifo.Op.add data malloc.isNone ret] }.setPc t .outside)
        (if ret then l ++ [data] else l)
  | callRemove {t} : s.pc t = .outside → Does s l (.callRemove t) (s.setPc t .waiting) l
  | wake {t} : s.pc t = .waiting → s.evt = true →
      Does s l (.wake t) ({ s with evt := false }.setPc t .woken) l
  | timeout {t} : s.pc t = .waiting → s.evt = false →
      Does s l (.timeout t) (s.setPc t .outside) l
  | remove {t buff as} : s.pc t = .woken → buff.maxSize = s.buff.maxSize →
      Represents buff as l.tail →
      Does s l (.remove t)
        ({ s with buff := buff, ops := s.ops ++ [Fifo.Op.remove l.head?] }.setPc t .outside) l.tail

theorem does_of_step {s s' : State ι α} {a : Act ι α} {as : List Addr} {l : List α}
    (hr : Represents s.buff as l) (h : step s a = some s') : ∃ l', Does s l a s' l' := by
  cases a with
  | callAdd t data =>
    simp only [step] at h
    split at h
    · obtain rfl := Option.some.inj h
      exact ⟨l, .callAdd ‹_›⟩
    · cases h
  | add t malloc =>
    simp only [step] at h
    split at h
    · split at h
      · rename_i data hpc hm
        have hfree : ∀ m ∈ malloc, s.buff.heap m.1 = none := by
          rintro m rfl
          simpa using hm
        obtain ⟨ret, buff, as', heq, hret, hmax, hrep⟩ := bufferAddTail_spec hr data malloc hfree
        rw [heq] at h
        obtain rfl := Option.some.inj h
        exact ⟨_, .add hpc hret hmax hrep⟩
      · cases h
    · cases h
  | callRemove t =>
    simp only [step] at h
    split at h
    · obtain rfl := Option.some.inj h
      exact ⟨l, .callRemove ‹_›⟩
    · cases h
  | wake t =>
    simp only [step] at h
    split at h
    · split at h
      · obtain rfl := Option.some.inj h
        exact ⟨l, .wake ‹_› ‹_›⟩
      · cases h
    · cases h
  | timeout t =>
    simp only [step] at h
    split at h
    · split at h
      · cases h
      · obtain rfl := Option.some.inj h
        exact ⟨l, .timeout ‹_› (by simpa using ‹¬s.evt = true›)⟩
    · cases h
  | remove t =>
    simp only [step] at h
    split at h
    · obtain ⟨buff, as', heq, hmax, hrep⟩ := bufferRemoveHead_spec hr
      rw [heq] at h
      obtain rfl := Option.some.inj h
      exact ⟨_, .remove ‹_› hmax hrep⟩
    · cases h

/-! ## Refinement -/

/-- Following `next` from `head`, `size - 1` times, passes distinct live entries and ends at
`tail`; `head` and `tail` are `NULL` exactly when the buffer is empty. -/
structure WellLinked (buff : LinkedBuffer α) : Prop where
  walk : 0 < buff.size → ∃ as, walk buff.heap buff.head (buff.size - 1) = some as ∧ as.Nodup ∧
    (∀ a ∈ as, (buff.heap a).isSome = true) ∧ as.getLast? = buff.tail
  head : buff.head = none ↔ buff.size = 0
  tail : buff.tail = none ↔ buff.size = 0
  bound : buff.size ≤ buff.maxSize

theorem wellLinked_of_represents {buff : LinkedBuffer α} {as : List Addr}
    {l : List α} (h : Represents buff as l) : WellLinked buff := by
  refine ⟨fun hpos => ?_, ?_, ?_, h.bound⟩
  · cases as with
    | nil => simp [h.size] at hpos
    | cons a as =>
      refine ⟨a :: as, ?_, h.seg.nodup, fun b hb => ?_, h.tail.symm⟩
      · rw [h.head, h.size]
        exact h.seg.linked.walk_eq
      · obtain ⟨c, hc⟩ := h.seg.linked.isSome b hb
        simp [hc]
  · rw [h.head, h.size, List.head?_eq_none_iff, List.length_eq_zero_iff]
  · rw [h.tail, h.size, List.getLast?_eq_none_iff, List.length_eq_zero_iff]

variable [DecidableEq α]

/-- The buffer represents what the calls so far leave in a bounded FIFO queue. -/
structure Refines (maxSize : ℕ) (s : State ι α) (l : List α) : Prop where
  fault : s.fault = none
  max_eq : s.buff.maxSize = maxSize
  represents : ∃ as, Represents s.buff as l
  ops : run (Fifo.exec maxSize) [] s.ops = some l

theorem refines_init (maxSize : ℕ) : Refines maxSize (init maxSize : State ι α) [] :=
  ⟨rfl, rfl, ⟨[], represents_init maxSize⟩, rfl⟩

theorem Refines.step {maxSize : ℕ} {s s' : State ι α} {a : Act ι α} {l l' : List α}
    (hi : Refines maxSize s l) (h : Does s l a s' l') : Refines maxSize s' l' := by
  obtain ⟨as, hr⟩ := hi.represents
  cases h with
  | callAdd | callRemove | wake | timeout => exact ⟨hi.fault, hi.max_eq, hi.represents, hi.ops⟩
  | @add t malloc data ret buff as' hpc hret hmax hrep =>
    refine ⟨hi.fault, hmax.trans hi.max_eq, ⟨as', hrep⟩, ?_⟩
    rw [hi.max_eq, ← Option.not_isNone] at hret
    simp [State.setPc, run_append, hi.ops, run, Fifo.exec, hret]
  | @remove t buff as' hpc hmax hrep =>
    refine ⟨hi.fault, hmax.trans hi.max_eq, ⟨as', hrep⟩, ?_⟩
    simp [State.setPc, run_append, hi.ops, run, Fifo.exec]

/-- What every run of the threads keeps, with the list the buffer represents. -/
theorem refines_run {maxSize : ℕ} {acts : List (Act ι α)} {s : State ι α}
    (hrun : run step (init maxSize) acts = some s) : ∃ l, Refines maxSize s l :=
  run_invariant (I := fun s => ∃ l, Refines maxSize s l) (fun s a s' ⟨l, hi⟩ h => by
    obtain ⟨as, hr⟩ := hi.represents
    obtain ⟨l', hd⟩ := does_of_step hr h
    exact ⟨l', hi.step hd⟩) ⟨[], refines_init maxSize⟩ hrun

/-- The threads in `buffer_add_tail` hold the pointers they came with. -/
def Holding (given : ι → Option α) (pc : ι → Pc α) : Prop :=
  ∀ t data, pc t = .adding data → given t = some data

theorem Holding.update {given : ι → Option α} {pc : ι → Pc α} (h : Holding given pc) {t : ι}
    {p : Pc α} (hp : ∀ data, p ≠ .adding data) : Holding given (Function.update pc t p) := by
  intro u data hu
  rcases eq_or_ne u t with rfl | hne
  · rw [Function.update_self] at hu
    exact absurd hu (hp data)
  · rw [Function.update_of_ne hne] at hu
    exact h u data hu

theorem Holding.callAdd {given : ι → Option α} {pc : ι → Pc α} (h : Holding given pc) (t : ι)
    (data : α) :
    Holding (Function.update given t (some data)) (Function.update pc t (.adding data)) := by
  intro u data' hu
  rcases eq_or_ne u t with rfl | hne
  · rw [Function.update_self] at hu ⊢
    exact congrArg some (Pc.adding.inj hu)
  · rw [Function.update_of_ne hne] at hu ⊢
    exact h u data' hu

/-- Every locked section is logged, once and in its place. -/
theorem ops_run {maxSize : ℕ} : ∀ {acts : List (Act ι α)} {s s' : State ι α} {l : List α}
    {given : ι → Option α}, Refines maxSize s l → Holding given s.pc → run step s acts = some s' →
      s'.ops.map Fifo.Op.call = s.ops.map Fifo.Op.call ++ lockedSections given acts
  | [], s, s', _, _, _, _, h => by
    obtain rfl : s = s' := by simpa using h
    rw [lockedSections, List.append_nil]
  | a :: acts, s, s', l, given, hi, hg, h => by
    obtain ⟨m, hm, h⟩ := run_cons_eq_some.mp h
    obtain ⟨as, hr⟩ := hi.represents
    obtain ⟨l', hd⟩ := does_of_step hr hm
    have hi' := hi.step hd
    cases hd with
    | @callAdd t data hpc =>
      have ih := ops_run hi' (hg.callAdd t data) h
      exact ih
    | @add t malloc data ret buff as hpc =>
      have ih := ops_run hi' (hg.update (by simp)) h
      rw [ih, lockedSections, hg t data hpc]
      simp [State.setPc, Fifo.Op.call]
    | callRemove _ | wake _ _ | timeout _ _ =>
      have ih := ops_run hi' (hg.update (by simp)) h
      exact ih
    | remove _ _ _ =>
      have ih := ops_run hi' (hg.update (by simp)) h
      rw [ih, lockedSections]
      simp [State.setPc, Fifo.Op.call]

/-- The log of a run. -/
theorem ops_eq_lockedSections {maxSize : ℕ} {acts : List (Act ι α)} {s : State ι α}
    (hrun : run step (init maxSize) acts = some s) :
    s.ops.map Fifo.Op.call = lockedSections (fun _ => none) acts :=
  ops_run (refines_init maxSize) (fun t data h => by simp [init] at h) hrun

/-- The linked buffer refines a bounded FIFO queue : the log holds one result for every locked
section of the run, in their order, and these are the results of the queue. -/
theorem buffer_refines_fifo {maxSize : ℕ} {acts : List (Act ι α)} {s : State ι α}
    (hrun : run step (init maxSize) acts = some s) :
    s.fault = none ∧ WellLinked s.buff ∧ s.buff.maxSize = maxSize ∧
      s.ops.map Fifo.Op.call = lockedSections (fun _ => none) acts ∧
      ∃ l as, run (Fifo.exec maxSize) [] s.ops = some l ∧ Represents s.buff as l := by
  obtain ⟨l, hi⟩ := refines_run hrun
  obtain ⟨as, hr⟩ := hi.represents
  exact ⟨hi.fault, wellLinked_of_represents hr, hi.max_eq, ops_eq_lockedSections hrun, l, as,
    hi.ops, hr⟩

theorem buffer_refines_fifo_two : ∃ s : State Bool ℕ,
    run step (init 1) [.callAdd true 7, .add true (some (4, some 9)), .callAdd true 8,
      .add true (some (5, none)), .callRemove false, .wake false, .remove false] = some s ∧
    s.fault = none ∧ WellLinked s.buff ∧ s.buff.maxSize = 1 ∧
      s.ops.map Fifo.Op.call = [.add 7 false, .add 8 false, .remove] ∧
      ∃ l as, run (Fifo.exec 1) [] s.ops = some l ∧ Represents s.buff as l := by
  have hex : ∃ s : State Bool ℕ, run step (init 1) [.callAdd true 7, .add true (some (4, some 9)),
    .callAdd true 8, .add true (some (5, none)), .callRemove false, .wake false,
    .remove false] = some s := ⟨_, rfl⟩
  obtain ⟨s, hs⟩ := hex
  exact ⟨s, hs, buffer_refines_fifo hs⟩

/-! ## One producer and one consumer -/

/-- The receive loop and `handle_thread`. -/
inductive Role where
  | producer
  | consumer
  deriving DecidableEq

/-- Only the producer adds, only the consumer removes. -/
def Act.byRole : Act Role α → Bool
  | .callAdd t _ => t == .producer
  | .callRemove t => t == .consumer
  | _ => true

/-- An addition that is accepted finds the event not signalled. -/
def FindsClear (s : State ι α) : Act ι α → Prop
  | .add _ malloc => s.buff.size < s.buff.maxSize → malloc.isSome = true → s.evt = false
  | _ => True

instance (s : State ι α) (a : Act ι α) : Decidable (FindsClear s a) :=
  match a with
  | .add _ malloc => inferInstanceAs
      (Decidable (s.buff.size < s.buff.maxSize → malloc.isSome = true → s.evt = false))
  | .callAdd _ _ | .callRemove _ | .wake _ | .timeout _ | .remove _ => isTrue trivial

/-- The elements are as many as the signals, set or consumed. -/
structure Counted (s : State Role α) (l : List α) : Prop where
  producer : s.pc .producer = .outside ∨ ∃ data, s.pc .producer = .adding data
  consumer : s.pc .consumer = .outside ∨ s.pc .consumer = .waiting ∨ s.pc .consumer = .woken
  count : l.length = s.evt.toNat + if s.pc .consumer = .woken then 1 else 0

namespace Counted

variable {s : State Role α} {l : List α}

theorem eq_producer (h : Counted s l) {t : Role} {data : α} (ht : s.pc t = .adding data) :
    t = .producer := by
  cases t with
  | producer => rfl
  | consumer => rcases h.consumer with h | h | h <;> simp [h] at ht

theorem eq_consumer (h : Counted s l) {t : Role} (ht : s.pc t = .waiting ∨ s.pc t = .woken) :
    t = .consumer := by
  cases t with
  | consumer => rfl
  | producer => rcases h.producer with h | ⟨data, h⟩ <;> simp [h] at ht

end Counted

theorem counted_init (maxSize : ℕ) : Counted (init maxSize : State Role α) [] :=
  ⟨Or.inl rfl, Or.inl rfl, rfl⟩

theorem counted_step {s s' : State Role α} {a : Act Role α} {l l' : List α}
    (ha : a.byRole = true) (hf : FindsClear s a) (hlen : l.length = s.buff.size)
    (hi : Counted s l) (h : Does s l a s' l') : Counted s' l' := by
  have hcount := hi.count
  cases h with
  | @callAdd t data hpc =>
    obtain rfl : t = .producer := by simpa [Act.byRole] using ha
    exact ⟨Or.inr ⟨data, by simp [State.setPc]⟩, hi.consumer, hi.count⟩
  | @add t malloc data ret buff as hpc hret hmax hrep =>
    obtain rfl := hi.eq_producer hpc
    refine ⟨Or.inl (by simp [State.setPc]), hi.consumer, ?_⟩
    have hpc' : ∀ s' : State Role α, (s'.setPc .producer .outside).pc .consumer =
      s'.pc .consumer := fun s' => by simp [State.setPc]
    rw [hpc']
    cases ret with
    | false => simpa [State.setPc] using hcount
    | true =>
      obtain ⟨hlt, hm⟩ : l.length < s.buff.maxSize ∧ malloc.isSome = true := by
        simpa using hret.symm
      have he : s.evt = false := hf (hlen ▸ hlt) hm
      simp only [he, Bool.toNat_false] at hcount
      simp only [State.setPc, if_true, List.length_append, List.length_singleton, Bool.or_true,
        Bool.toNat_true]
      omega
  | @callRemove t hpc =>
    obtain rfl : t = .consumer := by simpa [Act.byRole] using ha
    simp only [hpc, reduceCtorEq, if_false] at hcount
    exact ⟨hi.producer, Or.inr (Or.inl (by simp [State.setPc])),
      by simpa [State.setPc] using hcount⟩
  | @wake t hpc he =>
    obtain rfl := hi.eq_consumer (Or.inl hpc)
    simp only [hpc, he, reduceCtorEq, if_false, Bool.toNat_true] at hcount
    exact ⟨hi.producer, Or.inr (Or.inr (by simp [State.setPc])),
      by simpa [State.setPc] using hcount⟩
  | @timeout t hpc he =>
    obtain rfl := hi.eq_consumer (Or.inl hpc)
    simp only [hpc, reduceCtorEq, if_false] at hcount
    exact ⟨hi.producer, Or.inl (by simp [State.setPc]), by simpa [State.setPc] using hcount⟩
  | @remove t buff as hpc hmax hrep =>
    obtain rfl := hi.eq_consumer (Or.inr hpc)
    simp only [hpc, if_true] at hcount
    refine ⟨hi.producer, Or.inl (by simp [State.setPc]), ?_⟩
    simp only [List.length_tail, hcount, Nat.add_sub_cancel]
    simp [State.setPc]

/-- No lost wake-up, in every run whose accepted additions find the event clear. -/
theorem buffer_wakes {maxSize : ℕ} {acts : List (Act Role α)} {s : State Role α}
    (hrun : run step (init maxSize) acts = some s) (hroles : ∀ a ∈ acts, a.byRole = true)
    (hclear : StepsMeet step FindsClear (init maxSize) acts) :
    (s.pc .producer = .outside → s.pc .consumer = .outside → 0 < s.buff.size → s.evt = true) ∧
      ∀ s', step s (.timeout .consumer) = some s' → s.buff.size = 0 := by
  obtain ⟨l, hi, hc⟩ := ((StepsMeet.of_forall _ hroles).and hclear).invariant
    (I := fun s => ∃ l, Refines maxSize s l ∧ Counted s l)
    (fun s a s' ha ⟨l, hi, hc⟩ h => by
      obtain ⟨as, hr⟩ := hi.represents
      obtain ⟨l', hd⟩ := does_of_step hr h
      exact ⟨l', hi.step hd, counted_step ha.1 ha.2 hr.length_eq hc hd⟩)
    ⟨[], refines_init maxSize, counted_init maxSize⟩ hrun
  obtain ⟨as, hr⟩ := hi.represents
  have hcount := hc.count
  rw [hr.length_eq] at hcount
  refine ⟨fun _ hcons hpos => ?_, fun s' h => ?_⟩
  · simp only [hcons, reduceCtorEq, if_false] at hcount
    cases he : s.evt with
    | true => rfl
    | false =>
      rw [he] at hcount
      simp only [Bool.toNat_false] at hcount
      omega
  · obtain ⟨l', hd⟩ := does_of_step hr h
    cases hd with
    | timeout hpc he => simpa [hpc, he] using hcount

theorem buffer_wakes_one : ∃ s : State Role ℕ,
    run step (init 2) [.callAdd .producer 7, .add .producer (some (4, none))] = some s ∧
    (s.pc .producer = .outside → s.pc .consumer = .outside → 0 < s.buff.size → s.evt = true) ∧
      ∀ s', step s (.timeout .consumer) = some s' → s.buff.size = 0 := by
  have hex : ∃ s : State Role ℕ, run step (init 2) [.callAdd .producer 7,
    .add .producer (some (4, none))] = some s := ⟨_, rfl⟩
  obtain ⟨s, hs⟩ := hex
  exact ⟨s, hs, buffer_wakes hs (by decide) (by decide)⟩

/-- Two additions set the event once, and one removal consumes it. -/
def twoAdds : List (Act Role ℕ) :=
  [.callAdd .producer 7, .add .producer (some (4, none)), .callAdd .producer 8,
    .add .producer (some (5, none)), .callRemove .consumer, .wake .consumer, .remove .consumer]

/-- An entry is left in the queue without a signal. -/
theorem not_buffer_wakes : ¬∀ (acts : List (Act Role ℕ)) (s : State Role ℕ),
    run step (init 65536) acts = some s → (∀ a ∈ acts, a.byRole = true) →
    s.pc .producer = .outside → s.pc .consumer = .outside → 0 < s.buff.size → s.evt = true := by
  intro h
  have hex : ∃ s : State Role ℕ, run step (init 65536) twoAdds = some s := ⟨_, rfl⟩
  obtain ⟨s, hs⟩ := hex
  have he : s.evt = false := eq_of_run_map (f := fun s => s.evt) hs rfl
  have hsize : s.buff.size = 1 := eq_of_run_map (f := fun s => s.buff.size) hs rfl
  have := h twoAdds s hs (by decide) (eq_of_run_map (f := fun s => s.pc .producer) hs rfl)
    (eq_of_run_map (f := fun s => s.pc .consumer) hs rfl) (by omega)
  simp [he] at this

end Buffer

end DhcpToolset
