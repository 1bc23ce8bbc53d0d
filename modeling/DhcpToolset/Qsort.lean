import Mathlib.Data.List.Sort
import Mathlib.Data.List.TakeWhile
import Mathlib.Data.Int.Order.Basic

/-!
# Sorting with a comparison function, and the first match

A C comparison function returns a negative, zero or positive number. `IsComparator` is
what `qsort` needs of it, and `IsQsort` what `qsort` promises then : a permutation in
which no element compares greater than a later one. Which of several such permutations
is returned is left open.

A linear scan for the first element with a property finds, in a list sorted by a key, one
of least key among those that have it (`find?_least`), and every one of least key is found
in some sorted order (`exists_sorted_find?`).
-/

set_option linter.unusedSectionVars false

namespace Qsort

variable {α κ : Type*}

/-- A total preorder, as a comparison function. -/
structure IsComparator (cmp : α → α → ℤ) : Prop where
  antisymm : ∀ a b, cmp a b < 0 ↔ 0 < cmp b a
  trans : ∀ a b c, cmp a b ≤ 0 → cmp b c ≤ 0 → cmp a c ≤ 0

/-- What `qsort` promises. -/
structure IsQsort (qsort : (α → α → ℤ) → List α → List α) : Prop where
  perm : ∀ cmp, IsComparator cmp → ∀ l, (qsort cmp l).Perm l
  pairwise : ∀ cmp, IsComparator cmp → ∀ l, (qsort cmp l).Pairwise fun a b => cmp a b ≤ 0

/-- The comparison function orders by a key. -/
structure Orders [LinearOrder κ] (cmp : α → α → ℤ) (key : α → κ) : Prop where
  neg_iff : ∀ a b, cmp a b < 0 ↔ key a < key b
  zero_iff : ∀ a b, cmp a b = 0 ↔ key a = key b

section Orders

variable [LinearOrder κ] {cmp : α → α → ℤ} {key : α → κ}

theorem Orders.le_iff (h : Orders cmp key) (a b : α) : cmp a b ≤ 0 ↔ key a ≤ key b := by
  rw [le_iff_lt_or_eq, h.neg_iff, h.zero_iff, ← le_iff_lt_or_eq]

theorem Orders.isComparator (h : Orders cmp key) : IsComparator cmp where
  antisymm a b := by
    rw [h.neg_iff, ← not_le, ← not_le, h.le_iff]
  trans a b c hab hbc := by
    rw [h.le_iff] at *
    exact hab.trans hbc

theorem IsQsort.pairwise_key {qsort : (α → α → ℤ) → List α → List α} (hq : IsQsort qsort)
    (h : Orders cmp key) (l : List α) : (qsort cmp l).Pairwise fun a b => key a ≤ key b :=
  (hq.pairwise cmp h.isComparator l).imp fun hab => (h.le_iff _ _).mp hab

end Orders

section Insertion

/-- A `qsort`, by insertion. -/
def insertion (cmp : α → α → ℤ) (l : List α) : List α :=
  l.insertionSort fun a b => cmp a b ≤ 0

theorem isQsort_insertion : IsQsort (insertion : (α → α → ℤ) → List α → List α) where
  perm cmp _ l := List.perm_insertionSort _ l
  pairwise cmp hcmp l := by
    have htotal : Std.Total fun a b => cmp a b ≤ 0 := ⟨fun a b => by
      have := hcmp.antisymm b a
      omega⟩
    have htrans : IsTrans α fun a b => cmp a b ≤ 0 := ⟨hcmp.trans⟩
    exact List.pairwise_insertionSort _ l

/-- Any sorted order of a list is returned by some `qsort`. -/
theorem exists_isQsort {cmp : α → α → ℤ} {l t : List α} (hperm : t.Perm l)
    (hsorted : t.Pairwise fun a b => cmp a b ≤ 0) :
    ∃ qsort : (α → α → ℤ) → List α → List α, IsQsort qsort ∧ qsort cmp l = t := by
  classical
  refine ⟨fun c m => if c = cmp ∧ m = l then t else insertion c m, ⟨?_, ?_⟩, if_pos ⟨rfl, rfl⟩⟩
  · intro c hc m
    split_ifs with h
    · rwa [h.2]
    · exact isQsort_insertion.perm c hc m
  · intro c hc m
    split_ifs with h
    · rwa [h.1]
    · exact isQsort_insertion.pairwise c hc m

end Insertion

section FirstMatch

variable [LinearOrder κ] {key : α → κ} {p : α → Bool} {l : List α} {a : α}

/-- `a` has the property, and no element that has it has a smaller key. -/
structure IsLeastMatch (key : α → κ) (p : α → Bool) (l : List α) (a : α) : Prop where
  mem : a ∈ l
  holds : p a = true
  le : ∀ b ∈ l, p b = true → key a ≤ key b

theorem IsLeastMatch.perm {t : List α} (h : IsLeastMatch key p l a) (ht : t.Perm l) :
    IsLeastMatch key p t a :=
  ⟨ht.mem_iff.mpr h.mem, h.holds, fun b hb => h.le b (ht.mem_iff.mp hb)⟩

theorem find?_least (hsorted : l.Pairwise fun a b => key a ≤ key b) (hf : l.find? p = some a) :
    IsLeastMatch key p l a := by
  obtain ⟨hp, as, bs, rfl, has⟩ := List.find?_eq_some_iff_append.mp hf
  refine ⟨by simp, hp, fun b hb hpb => ?_⟩
  rcases List.mem_append.mp hb with hb | hb
  · exact absurd hpb (by simpa using has b hb)
  · obtain ⟨-, hsorted, -⟩ := List.pairwise_append.mp hsorted
    rcases List.mem_cons.mp hb with rfl | hb
    · exact le_rfl
    · exact (List.pairwise_cons.mp hsorted).1 b hb

/-- The first matches of two sorted lists with the same matching elements have the same key. -/
theorem map_key_find?_eq {m : List α} (hl : l.Pairwise fun a b => key a ≤ key b)
    (hm : m.Pairwise fun a b => key a ≤ key b) (h : ∀ a, p a = true → (a ∈ l ↔ a ∈ m)) :
    (l.find? p).map key = (m.find? p).map key := by
  cases hfl : l.find? p with
  | none =>
    have hnone := List.find?_eq_none.mp hfl
    have : m.find? p = none := List.find?_eq_none.mpr fun a ha hpa => hnone a ((h a hpa).mpr ha) hpa
    rw [this]
  | some a =>
    have ha := find?_least hl hfl
    cases hfm : m.find? p with
    | none => exact absurd ha.holds (List.find?_eq_none.mp hfm a ((h a ha.holds).mp ha.mem))
    | some b =>
      have hb := find?_least hm hfm
      have hab := ha.le b ((h b hb.holds).mpr hb.mem) hb.holds
      have hba := hb.le a ((h a ha.holds).mp ha.mem) ha.holds
      exact congrArg some (le_antisymm hab hba)

/-- An element of least key is inserted in front of every other match. -/
theorem exists_sorted_find? (h : IsLeastMatch key p l a) :
    ∃ t : List α, t.Perm l ∧ (t.Pairwise fun a b => key a ≤ key b) ∧ t.find? p = some a := by
  classical
  have htotal : Std.Total fun a b : α => key a ≤ key b := ⟨fun a b => le_total _ _⟩
  have htrans : IsTrans α fun a b : α => key a ≤ key b := ⟨fun _ _ _ => le_trans⟩
  set m := (l.erase a).insertionSort fun a b => key a ≤ key b with hm
  have hmem : ∀ b ∈ m, b ∈ l := fun b hb =>
    List.mem_of_mem_erase ((List.mem_insertionSort _).mp (hm ▸ hb))
  refine ⟨m.orderedInsert (fun a b => key a ≤ key b) a, ?_, ?_, ?_⟩
  · refine (List.perm_orderedInsert _ a m).trans ?_
    exact ((List.perm_insertionSort _ _).cons a).trans (List.perm_cons_erase h.mem).symm
  · exact (List.pairwise_insertionSort _ _).orderedInsert a m
  · rw [List.orderedInsert_eq_take_drop, List.find?_append]
    have hnone : (m.takeWhile fun b => decide ¬key a ≤ key b).find? p = none := by
      refine List.find?_eq_none.mpr fun b hb hpb => ?_
      have hlt := List.mem_takeWhile_imp hb
      have hle := h.le b (hmem b ((List.takeWhile_prefix _).subset hb)) hpb
      simp [hle] at hlt
    rw [hnone, Option.none_or, List.find?_cons_of_pos h.holds]

end FirstMatch

end Qsort
