import DhcpToolset.Segment
import DhcpToolset.Transition

/-!
# The linked buffer

`linked_buffer.cpp` : a queue of pointers, a singly linked list with a head, a tail and a
size, bounded by `max_size`. `buffer_add_tail` never writes the `next` field of the entry
it allocates, so the last entry's `next` is whatever the allocator left there;
`buffer_remove_head` reads it only when the entry is not the tail.

Reading a freed entry, following a `next` that was never written, and decrementing a
size of 0 are faults of the model. `Represents` is the pointer-level invariant : the
queue's cells are a segment from `head` to `tail`, and their values the elements of a
list. On that list the operations are those of a bounded FIFO queue (`Fifo`), and no
fault happens (`bufferAddTail_spec`, `bufferRemoveHead_spec`).
-/

set_option linter.unusedSectionVars false

open Segment

namespace DhcpToolset

/-- An address in the Monitor's heap. `NULL` is `none`. -/
abbrev Addr := ℕ

/-- Undefined behaviour. -/
inductive Fault where
  /-- A freed entry is read or written. -/
  | freed
  /-- An uninitialised `next` is followed. -/
  | unlinked
  /-- `size` is decremented below 0. -/
  | underflow
  deriving DecidableEq, Repr

/-- A `LINKED_BUFFER` with the entries (`LINKED_BUFFER_ENTRY`) of the heap. `α` is the type of
`ptr`. -/
structure LinkedBuffer (α : Type*) where
  heap : Heap Addr α
  size : ℕ
  maxSize : ℕ
  head : Option Addr
  tail : Option Addr

/-- What `malloc` returned for an entry : `NULL`, or an address and the bits found in the
`next` field there. -/
abbrev Malloc := Option (Addr × Option Addr)

variable {α : Type*}

/-- `buffer_init`, in a heap without entries. -/
def bufferInit (maxSize : ℕ) : LinkedBuffer α where
  heap _ := none
  size := 0
  maxSize := maxSize
  head := none
  tail := none

/-- `buffer_add_tail` from the new entry on : fill in its `ptr`, and put it behind the tail. -/
def linkEntry (buff : LinkedBuffer α) (data : α) (entry : Addr) (garbage : Option Addr) :
    Except Fault (LinkedBuffer α) :=
  let heap := Function.update buff.heap entry (some ⟨data, garbage, false⟩)
  match buff.tail with
  | some tail =>
    match heap tail with
    | none => .error .freed
    | some e =>
      .ok { buff with
        heap := Function.update heap tail (some { e with next := some entry, linked := true })
        tail := some entry
        size := buff.size + 1 }
  | none =>
    .ok { buff with heap := heap, head := some entry, tail := some entry, size := buff.size + 1 }

/-- `buffer_add_tail`, inside the lock. -/
def bufferAddTail (buff : LinkedBuffer α) (data : α) (malloc : Malloc) :
    Except Fault (Bool × LinkedBuffer α) :=
  if buff.maxSize ≤ buff.size then .ok (false, buff)
  else
    match malloc with
    | none => .ok (false, buff)
    | some (entry, garbage) => (linkEntry buff data entry garbage).map (true, ·)

/-- `buffer_remove_head`, inside the lock. -/
def bufferRemoveHead (buff : LinkedBuffer α) : Except Fault (Option α × LinkedBuffer α) :=
  match buff.head with
  | none => .ok (none, buff)
  | some entry =>
    match buff.heap entry with
    | none => .error .freed
    | some e =>
      if buff.tail ≠ some entry ∧ e.linked = false then .error .unlinked
      else if buff.size = 0 then .error .underflow
      else
        .ok (some e.val, { buff with
          heap := Function.update buff.heap entry none
          head := if buff.tail = some entry then none else e.next
          tail := if buff.tail = some entry then none else buff.tail
          size := buff.size - 1 })

/-! ## Bounded FIFO queues -/

namespace Fifo

/-- A call and what it returned. `oom` : no memory for an entry. -/
inductive Op (α : Type*) where
  | add (data : α) (oom ret : Bool)
  | remove (ret : Option α)

/-- A call without its result. -/
inductive Call (α : Type*) where
  | add (data : α) (oom : Bool)
  | remove

/-- The call of an operation. -/
def Op.call : Op α → Call α
  | .add data oom _ => .add data oom
  | .remove _ => .remove

/-- An addition appends unless the queue is full or there is no memory, and says so; a
removal takes the oldest element. `none` if this is not what was returned. -/
def exec [DecidableEq α] (maxSize : ℕ) (l : List α) : Op α → Option (List α)
  | .add data oom ret =>
    if ret = (decide (l.length < maxSize) && !oom) then some (if ret then l ++ [data] else l)
    else none
  | .remove ret => if ret = l.head? then some l.tail else none

end Fifo

/-! ## The pointer-level invariant -/

/-- The entries at `as` are the queue, and `l` the pointers in them. -/
structure Represents (buff : LinkedBuffer α) (as : List Addr) (l : List α) : Prop where
  seg : Seg buff.heap as l
  head : buff.head = as.head?
  tail : buff.tail = as.getLast?
  size : buff.size = as.length
  bound : buff.size ≤ buff.maxSize

theorem represents_init (maxSize : ℕ) :
    Represents (bufferInit maxSize : LinkedBuffer α) [] [] :=
  ⟨seg_nil _, rfl, rfl, rfl, Nat.zero_le _⟩

theorem Represents.length_eq {buff : LinkedBuffer α} {as : List Addr} {l : List α}
    (h : Represents buff as l) : l.length = buff.size := by
  rw [h.size, h.seg.linked.length_eq]

/-- The queue is empty exactly when its list is, and then `head` and `tail` are `NULL`. -/
theorem Represents.eq_nil_iff {buff : LinkedBuffer α} {as : List Addr} {l : List α}
    (h : Represents buff as l) : as = [] ↔ l = [] := by
  rw [← List.length_eq_zero_iff, ← List.length_eq_zero_iff, h.seg.linked.length_eq]

/-- A new entry, at an address that holds no live one, goes behind the tail. -/
theorem linkEntry_spec {buff : LinkedBuffer α} {as : List Addr} {l : List α}
    (h : Represents buff as l) (hlt : buff.size < buff.maxSize) (data : α) {entry : Addr}
    (garbage : Option Addr) (hfree : buff.heap entry = none) :
    ∃ buff', linkEntry buff data entry garbage = .ok buff' ∧ buff'.maxSize = buff.maxSize ∧
      Represents buff' (as ++ [entry]) (l ++ [data]) := by
  unfold linkEntry
  cases ht : buff.tail with
  | none =>
    obtain rfl : as = [] := List.getLast?_eq_none_iff.mp (h.tail ▸ ht)
    obtain rfl : l = [] := h.eq_nil_iff.mp rfl
    refine ⟨_, rfl, rfl, ?_, rfl, rfl, by simp [h.size], hlt⟩
    exact seg_singleton (c := ⟨data, garbage, false⟩) (by simp)
  | some tail =>
    have hlast : as.getLast? = some tail := h.tail ▸ ht
    obtain ⟨e, he⟩ := h.seg.linked.isSome tail (List.mem_of_getLast? hlast)
    have hne : tail ≠ entry := by
      rintro rfl
      simp [hfree] at he
    simp only [Function.update_of_ne hne, he]
    refine ⟨_, rfl, rfl, h.seg.snoc hlast he hfree, ?_, by simp, by simp [h.size], hlt⟩
    cases as with
    | nil => simp at hlast
    | cons a as => exact h.head

/-- `buffer_add_tail` : the result of a bounded queue, and its elements. -/
theorem bufferAddTail_spec {buff : LinkedBuffer α} {as : List Addr} {l : List α}
    (h : Represents buff as l) (data : α) (malloc : Malloc)
    (hfree : ∀ m ∈ malloc, buff.heap m.1 = none) :
    ∃ ret buff' as', bufferAddTail buff data malloc = .ok (ret, buff') ∧
      ret = (decide (l.length < buff.maxSize) && malloc.isSome) ∧
      buff'.maxSize = buff.maxSize ∧ Represents buff' as' (if ret then l ++ [data] else l) := by
  rw [h.length_eq]
  by_cases hfull : buff.maxSize ≤ buff.size
  · exact ⟨false, buff, as, by simp [bufferAddTail, hfull],
      by simp [Nat.not_lt.mpr hfull], rfl, h⟩
  have hlt : buff.size < buff.maxSize := Nat.lt_of_not_le hfull
  match malloc, hfree with
  | none, _ => exact ⟨false, buff, as, by simp [bufferAddTail, hfull], by simp, rfl, h⟩
  | some (entry, garbage), hfree =>
    obtain ⟨buff', hlink, hmax, hrep⟩ := linkEntry_spec h hlt data garbage (hfree _ rfl)
    exact ⟨true, buff', _, by simp [bufferAddTail, hfull, hlink, Except.map], by simp [hlt], hmax,
      hrep⟩

/-- `buffer_remove_head` : the oldest element, if there is one. -/
theorem bufferRemoveHead_spec {buff : LinkedBuffer α} {as : List Addr} {l : List α}
    (h : Represents buff as l) :
    ∃ buff' as', bufferRemoveHead buff = .ok (l.head?, buff') ∧ buff'.maxSize = buff.maxSize ∧
      Represents buff' as' l.tail := by
  unfold bufferRemoveHead
  match as, l, h with
  | [], [], h =>
    have hh : buff.head = none := h.head
    exact ⟨buff, [], by simp [hh], rfl, h⟩
  | [a], [v], h =>
    obtain ⟨e, he, rfl⟩ := h.seg.linked
    have hh : buff.head = some a := h.head
    have ht : buff.tail = some a := h.tail
    have hs : buff.size = 1 := h.size
    simp only [hh, he, ht, hs, ne_eq, not_true_eq_false, false_and, if_false, if_true,
      Nat.one_ne_zero]
    exact ⟨_, [], rfl, rfl, seg_nil _, rfl, rfl, rfl, Nat.zero_le _⟩
  | a :: b :: as, v :: vs, h =>
    obtain ⟨e, he, rfl, hn, hl⟩ := h.seg.linked.1
    have hh : buff.head = some a := h.head
    have ht : buff.tail ≠ some a := by
      rw [h.tail, List.getLast?_cons_cons]
      intro hlast
      exact (List.nodup_cons.mp h.seg.nodup).1 (List.mem_of_getLast? hlast)
    have hs : buff.size = as.length + 2 := h.size
    simp only [hh, he]
    rw [if_neg (by simp [hl]), if_neg (by omega), if_neg ht, if_neg ht, hn]
    refine ⟨_, b :: as, rfl, rfl, h.seg.free_head, rfl, ?_, ?_, ?_⟩
    · exact h.tail.trans List.getLast?_cons_cons
    · simp only [hs, List.length_cons]
      omega
    · exact Nat.le_trans (Nat.sub_le _ _) h.bound

end DhcpToolset
