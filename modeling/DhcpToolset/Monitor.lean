import DhcpToolset.LinkedBuffer
import DhcpToolset.Slot

/-!
# The receive loop and the handler thread

`_tmain` allocates one receive buffer before its loop. Each capture copies the slot into
it and passes it to `buffer_add_tail`; `handle_thread` takes buffers from the queue,
dispatches on their contents and frees them. The store maps buffer addresses to contents
and to whether they are live, and `misuse` records every access to a freed buffer.

Every entry of the queue is the same buffer, so a later capture overwrites the earlier
ones, and the first `free` leaves the others dangling. `handled_as_captured` : the handler
reads what was captured, and no freed buffer is touched, as long as the loop copies into
the buffer, and the handler frees it, only while the other thread has no use for it.
`clean_runs_handle_one` : that does not last, since the buffer is freed with the first record.
-/

set_option linter.unusedSectionVars false

open Segment Transition

namespace DhcpToolset

namespace Monitor

/-- A buffer of the store. -/
structure Buf where
  contents : Block
  live : Bool

/-- An access to a freed buffer. -/
inductive Misuse where
  | overwritten
  | enqueued
  | processed
  | freedTwice
  deriving DecidableEq

/-- Where the receive loop is. -/
inductive LoopPc where
  /-- Before its next capture. -/
  | receiving
  /-- Between `memcpy` and `buffer_add_tail`. -/
  | captured (block : Block)

/-- The loop has nothing to enqueue. -/
def LoopPc.isReceiving : LoopPc → Bool
  | .receiving => true
  | .captured _ => false

/-- Where `handle_thread` is. -/
inductive HandlerPc where
  /-- In the wait of `buffer_remove_head`. -/
  | waiting
  /-- In `buffer_remove_head`, before its lock. -/
  | woken
  /-- Before the dispatch on a buffer. -/
  | holding (buf : Addr)
  /-- Before the `free` of a buffer. -/
  | handled (buf : Addr)

/-- The queue with its event, the memory of the buffers, and the two threads. -/
structure State where
  buffer : LinkedBuffer Addr
  evt : Bool
  store : Addr → Buf
  /-- The receive buffer. -/
  buf : Addr
  loop : LoopPc
  handler : HandlerPc
  /-- The contents captured for the accepted additions. -/
  accepted : List Block
  /-- The contents read by the handler. -/
  processed : List Block
  misuse : List Misuse

/-- One statement of a thread. Of the waits only those that succeed are there. -/
inductive Act where
  /-- `memcpy(buf, shm.data, 2048)`. -/
  | capture (block : Block)
  /-- `buffer_add_tail(buffer, buf)`. -/
  | enqueue (malloc : Malloc)
  /-- The wait of `buffer_remove_head` succeeds. -/
  | wake
  /-- Its locked section. -/
  | dequeue
  /-- The dispatch. -/
  | handle
  | free

/-- `misuse` if the buffer is not live. -/
def misuseIf (b : Buf) (m : Misuse) : List Misuse :=
  if b.live then [] else [m]

/-- `_tmain` before its loop : an empty queue, and a receive buffer at `buf` with whatever
`malloc` left there. -/
def init (buf : Addr) (store : Addr → Buf) : State where
  buffer := bufferInit 65536
  evt := false
  store := Function.update store buf ⟨(store buf).contents, true⟩
  buf := buf
  loop := .receiving
  handler := .waiting
  accepted := []
  processed := []
  misuse := []

/-- One step. What touches a freed buffer goes on, and is noted. -/
def step (s : State) : Act → Option State
  | .capture block =>
    match s.loop with
    | .receiving =>
      some { s with
        store := Function.update s.store s.buf ⟨block, (s.store s.buf).live⟩
        loop := .captured block
        misuse := s.misuse ++ misuseIf (s.store s.buf) .overwritten }
    | _ => none
  | .enqueue malloc =>
    match s.loop with
    | .captured block =>
      if malloc.all fun m => (s.buffer.heap m.1).isNone then
        match bufferAddTail s.buffer s.buf malloc with
        | .error _ => none
        | .ok (ret, buffer) =>
          some { s with
            buffer := buffer
            evt := s.evt || ret
            loop := .receiving
            accepted := if ret then s.accepted ++ [block] else s.accepted
            misuse := s.misuse ++ if ret then misuseIf (s.store s.buf) .enqueued else [] }
      else none
    | _ => none
  | .wake =>
    match s.handler with
    | .waiting => if s.evt then some { s with evt := false, handler := .woken } else none
    | _ => none
  | .dequeue =>
    match s.handler with
    | .woken =>
      match bufferRemoveHead s.buffer with
      | .error _ => none
      | .ok (none, buffer) => some { s with buffer := buffer, handler := .waiting }
      | .ok (some buf, buffer) => some { s with buffer := buffer, handler := .holding buf }
    | _ => none
  | .handle =>
    match s.handler with
    | .holding buf =>
      some { s with
        handler := .handled buf
        processed := s.processed ++ [(s.store buf).contents]
        misuse := s.misuse ++ misuseIf (s.store buf) .processed }
    | _ => none
  | .free =>
    match s.handler with
    | .handled buf =>
      some { s with
        store := Function.update s.store buf ⟨(s.store buf).contents, false⟩
        handler := .waiting
        misuse := s.misuse ++ misuseIf (s.store buf) .freedTwice }
    | _ => none

/-! ## What a step does -/

/-- The steps from a state whose queue represents `l`. -/
inductive Does (s : State) (l : List Addr) : Act → State → List Addr → Prop where
  | capture {block} : s.loop = .receiving →
      Does s l (.capture block)
        { s with
          store := Function.update s.store s.buf ⟨block, (s.store s.buf).live⟩
          loop := .captured block
          misuse := s.misuse ++ misuseIf (s.store s.buf) .overwritten } l
  | accepted {malloc block buffer as} : s.loop = .captured block →
      Represents buffer as (l ++ [s.buf]) →
      Does s l (.enqueue malloc)
        { s with
          buffer := buffer
          evt := true
          loop := .receiving
          accepted := s.accepted ++ [block]
          misuse := s.misuse ++ misuseIf (s.store s.buf) .enqueued } (l ++ [s.buf])
  | rejected {malloc block buffer as} : s.loop = .captured block → Represents buffer as l →
      Does s l (.enqueue malloc) { s with buffer := buffer, loop := .receiving } l
  | wake : s.handler = .waiting → s.evt = true →
      Does s l .wake { s with evt := false, handler := .woken } l
  | dequeue {buffer as} : s.handler = .woken → Represents buffer as l.tail →
      Does s l .dequeue
        { s with
          buffer := buffer
          handler := (l.head?.map HandlerPc.holding).getD .waiting } l.tail
  | handle {buf} : s.handler = .holding buf →
      Does s l .handle
        { s with
          handler := .handled buf
          processed := s.processed ++ [(s.store buf).contents]
          misuse := s.misuse ++ misuseIf (s.store buf) .processed } l
  | free {buf} : s.handler = .handled buf →
      Does s l .free
        { s with
          store := Function.update s.store buf ⟨(s.store buf).contents, false⟩
          handler := .waiting
          misuse := s.misuse ++ misuseIf (s.store buf) .freedTwice } l

theorem does_of_step {s s' : State} {a : Act} {as : List Addr} {l : List Addr}
    (hr : Represents s.buffer as l) (h : step s a = some s') : ∃ l', Does s l a s' l' := by
  cases a with
  | capture block =>
    simp only [step] at h
    split at h
    · obtain rfl := Option.some.inj h
      exact ⟨l, .capture ‹_›⟩
    · cases h
  | enqueue malloc =>
    simp only [step] at h
    split at h
    · split at h
      · rename_i block hpc hm
        have hfree : ∀ m ∈ malloc, s.buffer.heap m.1 = none := by
          rintro m rfl
          simpa using hm
        obtain ⟨ret, buffer, as', heq, -, -, hrep⟩ := bufferAddTail_spec hr s.buf malloc hfree
        rw [heq] at h
        obtain rfl := Option.some.inj h
        cases ret with
        | true => exact ⟨_, by simpa using Does.accepted hpc hrep⟩
        | false => exact ⟨_, by simpa using Does.rejected hpc hrep⟩
      · cases h
    · cases h
  | wake =>
    simp only [step] at h
    split at h
    · split at h
      · obtain rfl := Option.some.inj h
        exact ⟨l, .wake ‹_› ‹_›⟩
      · cases h
    · cases h
  | dequeue =>
    simp only [step] at h
    split at h
    · obtain ⟨buffer, as', heq, -, hrep⟩ := bufferRemoveHead_spec hr
      rw [heq] at h
      have hd := Does.dequeue ‹s.handler = .woken› hrep
      cases hl : l.head? with
      | none =>
        simp only [hl] at h hd
        obtain rfl := Option.some.inj h
        exact ⟨_, hd⟩
      | some buf =>
        simp only [hl] at h hd
        obtain rfl := Option.some.inj h
        exact ⟨_, hd⟩
    · cases h
  | handle =>
    simp only [step] at h
    split at h
    · obtain rfl := Option.some.inj h
      exact ⟨l, .handle ‹_›⟩
    · cases h
  | free =>
    simp only [step] at h
    split at h
    · obtain rfl := Option.some.inj h
      exact ⟨l, .free ‹_›⟩
    · cases h

theorem Does.represents {s s' : State} {a : Act} {as l l' : List Addr}
    (h : Does s l a s' l') (hr : Represents s.buffer as l) :
    ∃ as', Represents s'.buffer as' l' := by
  cases h with
  | capture | wake | handle | free => exact ⟨as, hr⟩
  | accepted _ hrep => exact ⟨_, hrep⟩
  | rejected _ hrep => exact ⟨_, hrep⟩
  | dequeue _ hrep => exact ⟨_, hrep⟩

/-! ## The receive buffer -/

/-- The receive loop copies into its buffer only while the handler has not freed it and has
read every accepted entry; the handler frees it only when it has read every accepted entry
and the loop is not about to enqueue it. -/
def OwnsBuffer (s : State) : Act → Prop
  | .capture _ => (s.store s.buf).live = true ∧ s.processed.length = s.accepted.length
  | .free => s.loop.isReceiving = true ∧ s.processed.length = s.accepted.length
  | _ => True

instance (s : State) : ∀ a : Act, Decidable (OwnsBuffer s a)
  | .capture _ => inferInstanceAs (Decidable (_ ∧ _))
  | .free => inferInstanceAs (Decidable (_ ∧ _))
  | .enqueue _ | .wake | .dequeue | .handle => isTrue trivial

/-- At most one accepted entry is unread. It is in the queue or in the handler's hands, and
the receive buffer holds what was captured for it. -/
inductive Unread (s : State) (l : List Addr) : Prop where
  | none : s.processed = s.accepted → l = [] → (∀ a, s.handler ≠ .holding a) → Unread s l
  | queued (b : Block) : s.processed ++ [b] = s.accepted → s.store s.buf = ⟨b, true⟩ →
      s.loop = .receiving → l = [s.buf] → (∀ a, s.handler ≠ .holding a) → Unread s l
  | held (b : Block) : s.processed ++ [b] = s.accepted → s.store s.buf = ⟨b, true⟩ →
      s.loop = .receiving → l = [] → s.handler = .holding s.buf → Unread s l

/-- The invariant of the runs whose steps meet `OwnsBuffer`. -/
structure Exclusive (s : State) (l : List Addr) : Prop where
  represents : ∃ as, Represents s.buffer as l
  unread : Unread s l
  captured : ∀ b, s.loop = .captured b → s.store s.buf = ⟨b, true⟩
  handled : ∀ a, s.handler = .handled a → a = s.buf ∧ (s.store s.buf).live = true
  misuse : s.misuse = []

theorem misuseIf_eq_nil {b : Buf} {m : Misuse} (h : b.live = true) : misuseIf b m = [] :=
  if_pos h

theorem exclusive_init (buf : Addr) (store : Addr → Buf) : Exclusive (init buf store) [] where
  represents := ⟨[], represents_init 65536⟩
  unread := .none rfl rfl (by simp [init])
  captured := by simp [init]
  handled := by simp [init]
  misuse := rfl

namespace Exclusive

variable {s : State} {l : List Addr}

/-- Nothing is unread when the counts agree. -/
theorem none_of_length (h : Exclusive s l) (hlen : s.processed.length = s.accepted.length) :
    s.processed = s.accepted ∧ l = [] ∧ ∀ a, s.handler ≠ .holding a := by
  cases h.unread with
  | none hp hl hh => exact ⟨hp, hl, hh⟩
  | queued b hp | held b hp =>
    rw [← hp, List.length_append, List.length_singleton] at hlen
    omega

/-- Nothing is unread between a capture and its `buffer_add_tail`. -/
theorem none_of_captured (h : Exclusive s l) {b : Block} (hpc : s.loop = .captured b) :
    s.processed = s.accepted ∧ l = [] ∧ ∀ a, s.handler ≠ .holding a := by
  cases h.unread with
  | none hp hl hh => exact ⟨hp, hl, hh⟩
  | queued _ _ _ hr | held _ _ _ hr => simp [hr] at hpc

end Exclusive

theorem exclusive_step {s s' : State} {a : Act} {l l' : List Addr} (ho : OwnsBuffer s a)
    (hi : Exclusive s l) (h : Does s l a s' l') : Exclusive s' l' := by
  obtain ⟨as, hrep⟩ := hi.represents
  have hrep' := h.represents hrep
  cases h with
  | @capture block hpc =>
    obtain ⟨hlive, hlen⟩ := ho
    obtain ⟨hp, hl, hh⟩ := hi.none_of_length hlen
    refine ⟨hrep', .none hp hl hh, fun b hb => ?_, fun a ha => ?_, ?_⟩
    · obtain rfl := LoopPc.captured.inj hb
      simp [hlive]
    · exact ⟨(hi.handled a ha).1, by simpa using hlive⟩
    · simp [hi.misuse, misuseIf_eq_nil hlive]
  | @accepted malloc block buffer as' hpc hr =>
    obtain ⟨hp, rfl, hh⟩ := hi.none_of_captured hpc
    have hbuf := hi.captured block hpc
    refine ⟨hrep', .queued block ?_ hbuf rfl rfl hh, by simp, hi.handled, ?_⟩
    · simp [hp]
    · simp [hi.misuse, misuseIf, hbuf]
  | @rejected malloc block buffer as' hpc hr =>
    obtain ⟨hp, hl, hh⟩ := hi.none_of_captured hpc
    exact ⟨hrep', .none hp hl hh, by simp, hi.handled, hi.misuse⟩
  | wake hpc he =>
    refine ⟨hrep', ?_, hi.captured, by simp, hi.misuse⟩
    cases hi.unread with
    | none hp hl hh => exact .none hp hl (by simp)
    | queued b hp hb hr hl hh => exact .queued b hp hb hr hl (by simp)
    | held b hp hb hr hl hh => simp [hh] at hpc
  | @dequeue buffer as' hpc htail =>
    cases hi.unread with
    | none hp hl hh =>
      subst hl
      exact ⟨hrep', .none hp rfl (by simp), hi.captured, by simp, hi.misuse⟩
    | queued b hp hb hr hl hh =>
      subst hl
      exact ⟨hrep', .held b hp hb hr rfl rfl, hi.captured, by simp, hi.misuse⟩
    | held b hp hb hr hl hh => simp [hh] at hpc
  | @handle buf hpc =>
    cases hi.unread with
    | none hp hl hh | queued b hp hb hr hl hh => exact absurd hpc (hh buf)
    | held b hp hb hr hl hh =>
      -- the entry read is the receive buffer, still as it was captured
      obtain rfl : buf = s.buf := by simpa [hh] using hpc.symm
      refine ⟨hrep', .none ?_ hl (by simp), hi.captured, fun a ha => ?_, ?_⟩
      · simp [hb, hp]
      · obtain rfl := HandlerPc.handled.inj ha
        exact ⟨rfl, by simp [hb]⟩
      · simp [hi.misuse, misuseIf, hb]
  | @free buf hpc =>
    obtain ⟨hrec, hlen⟩ := ho
    obtain ⟨hp, hl, hh⟩ := hi.none_of_length hlen
    obtain ⟨rfl, hlive⟩ := hi.handled buf hpc
    refine ⟨hrep', .none hp hl (by simp), fun b hb => ?_, by simp, ?_⟩
    · simp only [LoopPc.isReceiving] at hrec
      simp [show s.loop = .captured b from hb] at hrec
    · simp [hi.misuse, misuseIf_eq_nil hlive]

/-- The handler reads, for the n-th entry it takes, what was captured for the n-th accepted
addition, and no freed buffer is touched. -/
theorem handled_as_captured {buf : Addr} {store : Addr → Buf} {acts : List Act} {s : State}
    (hrun : run step (init buf store) acts = some s)
    (howns : StepsMeet step OwnsBuffer (init buf store) acts) :
    s.processed <+: s.accepted ∧ s.misuse = [] := by
  obtain ⟨l, hi⟩ := howns.invariant (I := fun s => ∃ l, Exclusive s l)
    (fun s a s' ho ⟨l, hi⟩ h => by
      obtain ⟨as, hr⟩ := hi.represents
      obtain ⟨l', hd⟩ := does_of_step hr h
      exact ⟨l', exclusive_step ho hi hd⟩)
    ⟨[], exclusive_init buf store⟩ hrun
  refine ⟨?_, hi.misuse⟩
  cases hi.unread with
  | none hp => exact hp ▸ List.prefix_refl _
  | queued b hp | held b hp => exact ⟨[b], hp⟩

/-- One record, handled and freed. -/
def oneRecord (b : Block) : List Act :=
  [.capture b, .enqueue (some (4, none)), .wake, .dequeue, .handle, .free]

theorem handled_as_captured_one : ∃ s, run step (init 0 fun _ => ⟨fun _ => 0, false⟩)
    (oneRecord fun _ => 1) = some s ∧ s.processed.length = 1 ∧
      s.processed <+: s.accepted ∧ s.misuse = [] := by
  have hex : ∃ s, run step (init 0 fun _ => ⟨fun _ => 0, false⟩) (oneRecord fun _ => 1) = some s :=
    ⟨_, rfl⟩
  obtain ⟨s, hs⟩ := hex
  exact ⟨s, hs, eq_of_run_map (f := fun s => s.processed.length) hs rfl,
    handled_as_captured hs (by decide)⟩

/-- Two records, captured before the handler wakes. -/
def twoRecords (b c : Block) : List Act :=
  [.capture b, .enqueue (some (4, none)), .capture c, .enqueue (some (5, none)), .wake, .dequeue,
    .handle]

/-- The handler reads the second record in place of the first. -/
theorem not_handled_as_captured :
    ¬∀ (buf : Addr) (store : Addr → Buf) (acts : List Act) (s : State),
    run step (init buf store) acts = some s → s.processed <+: s.accepted ∧ s.misuse = [] := by
  intro h
  have hex : ∃ s, run step (init 0 fun _ => ⟨fun _ => 0, false⟩)
    (twoRecords (fun _ => 1) fun _ => 2) = some s := ⟨_, rfl⟩
  obtain ⟨s, hs⟩ := hex
  have hp : s.processed = [fun _ => 2] := eq_of_run_map (f := fun s => s.processed) hs rfl
  have ha : s.accepted = [fun _ => 1, fun _ => 2] := eq_of_run_map (f := fun s => s.accepted) hs rfl
  obtain ⟨hread, -⟩ := h _ _ _ _ hs
  rw [hp, ha, List.cons_prefix_cons] at hread
  exact absurd (congrFun hread.1 0) (by decide)

/-! ## One record -/

/-- Every entry of the queue, and what the handler has in its hands, is the receive buffer. -/
structure OneBuffer (s : State) (l : List Addr) : Prop where
  queue : ∀ a ∈ l, a = s.buf
  holding : ∀ a, s.handler = .holding a → a = s.buf
  handled : ∀ a, s.handler = .handled a → a = s.buf

theorem oneBuffer_step {s s' : State} {a : Act} {l l' : List Addr} (hi : OneBuffer s l)
    (h : Does s l a s' l') : OneBuffer s' l' := by
  cases h with
  | capture _ | rejected _ _ => exact ⟨hi.queue, hi.holding, hi.handled⟩
  | accepted hpc hr =>
    refine ⟨fun a ha => ?_, hi.holding, hi.handled⟩
    rcases List.mem_append.mp ha with ha | ha
    · exact hi.queue a ha
    · exact List.mem_singleton.mp ha
  | wake hpc he => exact ⟨hi.queue, by simp, by simp⟩
  | dequeue hpc hr =>
    refine ⟨fun a ha => hi.queue a (List.mem_of_mem_tail ha), fun a ha => ?_, fun a ha => ?_⟩
    · cases l with
      | nil => simp at ha
      | cons b l =>
        obtain rfl : b = a := by simpa using ha
        exact hi.queue b (by simp)
    · cases l <;> simp at ha
  | @handle buf hpc =>
    refine ⟨hi.queue, by simp, fun a ha => ?_⟩
    obtain rfl : buf = a := by simpa using ha
    exact hi.holding buf hpc
  | free hpc => exact ⟨hi.queue, by simp, by simp⟩

/-- How far a run without misuse has come : no record is handled, one is handled and its buffer
not yet freed, or the buffer is freed. -/
inductive Served (s : State) : Prop where
  | none : (s.store s.buf).live = true → s.processed = [] → (∀ a, s.handler ≠ .handled a) → Served s
  | handled : (s.store s.buf).live = true → s.processed.length = 1 → s.handler = .handled s.buf →
      Served s
  | freed : (s.store s.buf).live = false → s.processed.length = 1 →
      (∀ a, s.handler ≠ .handled a) → Served s

namespace Served

variable {s s' : State}

theorem length_le (h : Served s) : s.processed.length ≤ 1 := by
  cases h with
  | none _ hp _ => simp [hp]
  | handled _ hp _ | freed _ hp _ => exact Nat.le_of_eq hp

/-- A step of the receive loop. -/
theorem stay (h : Served s) (hlive : (s'.store s'.buf).live = (s.store s.buf).live)
    (hbuf : s'.buf = s.buf) (hp : s'.processed = s.processed) (hh : s'.handler = s.handler) :
    Served s' := by
  cases h with
  | none hl hp' hh' => exact .none (hlive.trans hl) (hp.trans hp') fun a => hh ▸ hh' a
  | handled hl hp' hh' => exact .handled (hlive.trans hl) (hp ▸ hp') (by rw [hh, hh', hbuf])
  | freed hl hp' hh' => exact .freed (hlive.trans hl) (hp ▸ hp') fun a => hh ▸ hh' a

/-- A step of the handler to its next record. -/
theorem move (h : Served s) {pc : HandlerPc} (hs : ∀ a, s.handler ≠ .handled a)
    (hpc : ∀ a, pc ≠ .handled a) {buffer : LinkedBuffer Addr} {evt : Bool} :
    Served { s with handler := pc, buffer := buffer, evt := evt } := by
  cases h with
  | none hl hp hh => exact .none hl hp hpc
  | handled hl hp hh => exact absurd hh (hs _)
  | freed hl hp hh => exact .freed hl hp hpc

end Served

theorem served_step {s s' : State} {a : Act} {l l' : List Addr} (hone : OneBuffer s l)
    (hi : s.misuse = [] → Served s) (h : Does s l a s' l') : s'.misuse = [] → Served s' := by
  intro hclean
  cases h with
  | capture hpc => exact (hi (List.append_eq_nil_iff.mp hclean).1).stay (by simp) rfl rfl rfl
  | accepted hpc hr => exact (hi (List.append_eq_nil_iff.mp hclean).1).stay rfl rfl rfl rfl
  | rejected hpc hr => exact (hi hclean).stay rfl rfl rfl rfl
  | wake hpc he => exact (hi hclean).move (by simp [hpc]) (by simp)
  | dequeue hpc hr =>
    refine (hi hclean).move (by simp [hpc]) ?_
    cases l <;> simp
  | @handle buf hpc =>
    obtain ⟨hbefore, hlive⟩ := List.append_eq_nil_iff.mp hclean
    obtain rfl := hone.holding buf hpc
    cases hi hbefore with
    | none hl hp hh => exact .handled hl (by simp [hp]) rfl
    | handled hl hp hh => simp [hpc] at hh
    | freed hl hp hh => simp [misuseIf, hl] at hlive
  | @free buf hpc =>
    obtain rfl := hone.handled buf hpc
    cases hi (List.append_eq_nil_iff.mp hclean).1 with
    | none hl hp hh => exact absurd hpc (hh _)
    | handled hl hp hh => exact .freed (by simp) hp (by simp)
    | freed hl hp hh => exact absurd hpc (hh _)

/-- The invariant of every run. -/
structure Kept (s : State) (l : List Addr) : Prop where
  represents : ∃ as, Represents s.buffer as l
  one : OneBuffer s l
  served : s.misuse = [] → Served s

theorem kept_init (buf : Addr) (store : Addr → Buf) : Kept (init buf store) [] where
  represents := ⟨[], represents_init 65536⟩
  one := ⟨by simp, by simp [init], by simp [init]⟩
  served _ := .none (by simp [init]) rfl (by simp [init])

theorem Kept.step {s s' : State} {a : Act} {l l' : List Addr} (h : Kept s l)
    (hd : Does s l a s' l') : Kept s' l' := by
  obtain ⟨as, hr⟩ := h.represents
  exact ⟨hd.represents hr, oneBuffer_step h.one hd, served_step h.one h.served hd⟩

/-- A run that touches no freed buffer handles one record at most. -/
theorem clean_runs_handle_one {buf : Addr} {store : Addr → Buf} {acts : List Act} {s : State}
    (hrun : run step (init buf store) acts = some s) (hclean : s.misuse = []) :
    s.processed.length ≤ 1 := by
  have hinv : ∃ l, Kept s l := run_invariant (I := fun s => ∃ l, Kept s l)
    (fun s a s' ⟨l, hk⟩ h => by
      obtain ⟨as, hr⟩ := hk.represents
      obtain ⟨l', hd⟩ := does_of_step hr h
      exact ⟨l', hk.step hd⟩)
    ⟨[], kept_init buf store⟩ hrun
  obtain ⟨l, hk⟩ := hinv
  exact (hk.served hclean).length_le

theorem clean_runs_handle_one_record : ∃ s, run step (init 0 fun _ => ⟨fun _ => 0, false⟩)
    (oneRecord fun _ => 1) = some s ∧ s.misuse = [] ∧ s.processed.length ≤ 1 := by
  have hex : ∃ s, run step (init 0 fun _ => ⟨fun _ => 0, false⟩) (oneRecord fun _ => 1) = some s :=
    ⟨_, rfl⟩
  obtain ⟨s, hs⟩ := hex
  have hclean : s.misuse = [] := eq_of_run_map (f := fun s => s.misuse) hs rfl
  exact ⟨s, hs, hclean, clean_runs_handle_one hs hclean⟩

end Monitor

end DhcpToolset
