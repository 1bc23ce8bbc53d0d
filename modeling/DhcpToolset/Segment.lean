import Mathlib.Data.List.Nodup
import Mathlib.Logic.Function.Basic

/-!
# Segments of a linked list in a heap

A heap maps addresses to live cells. A cell carries a value and a `next` field, which
holds any value until it is written (`linked`). A segment is a list of distinct live
cells, each linked to the one after it; nothing is said of the `next` field of its last
cell.

`walk` follows `next` through live cells, and stops at a field that was never written. A
segment is what a walk along it visits (`Seg.walk_eq`); it grows at its end
(`Seg.snoc`), loses its head (`Seg.free_head`), and does not depend on the rest of the
heap (`Seg.congr`).
-/

set_option linter.unusedSectionVars false

namespace Segment

variable {A V : Type*} [DecidableEq A]

/-- A value, with the link to the next cell. -/
structure Cell (A V : Type*) where
  val : V
  next : Option A
  /-- `next` has been written. -/
  linked : Bool

/-- The cells that are allocated, by their addresses. -/
abbrev Heap (A V : Type*) := A → Option (Cell A V)

/-- Follow `next` from `a`, `n` times. -/
def walk (h : Heap A V) : Option A → ℕ → Option (List A)
  | none, _ => none
  | some a, 0 => (h a).map fun _ => [a]
  | some a, n + 1 => (h a).bind fun c => if c.linked then (walk h c.next n).map (a :: ·) else none

/-- The cells at `as`, each linked to the next one, with the values `vs`. -/
def Linked (h : Heap A V) : List A → List V → Prop
  | [], [] => True
  | [a], [v] => ∃ c, h a = some c ∧ c.val = v
  | a :: b :: as, v :: vs =>
    (∃ c, h a = some c ∧ c.val = v ∧ c.next = some b ∧ c.linked = true) ∧ Linked h (b :: as) vs
  | _, _ => False

/-- Distinct cells, each linked to the next one. -/
structure Seg (h : Heap A V) (as : List A) (vs : List V) : Prop where
  nodup : as.Nodup
  linked : Linked h as vs

theorem Linked.length_eq {h : Heap A V} : ∀ {as : List A} {vs : List V}, Linked h as vs →
    as.length = vs.length
  | [], [], _ => rfl
  | [_], [_], _ => rfl
  | _ :: b :: as, _ :: vs, hl => by
    have := length_eq hl.2
    simp only [List.length_cons] at this ⊢
    omega
  | [], _ :: _, hl => hl.elim
  | [_], [], hl => hl.elim
  | [_], _ :: _ :: _, hl => hl.elim

theorem Linked.isSome {h : Heap A V} : ∀ {as : List A} {vs : List V}, Linked h as vs →
    ∀ a ∈ as, ∃ c, h a = some c
  | [], _, _, _, ha => by simp at ha
  | [b], [_], ⟨c, hc, _⟩, a, ha => by
    obtain rfl := List.mem_singleton.mp ha
    exact ⟨c, hc⟩
  | b :: b' :: as, _ :: vs, ⟨⟨c, hc, _⟩, hl⟩, a, ha => by
    rcases List.mem_cons.mp ha with rfl | ha
    · exact ⟨c, hc⟩
    · exact isSome hl a ha

/-- A segment lives in its own cells. -/
theorem Linked.congr {h h' : Heap A V} : ∀ {as : List A} {vs : List V},
    (∀ a ∈ as, h' a = h a) → Linked h as vs → Linked h' as vs
  | [], [], _, _ => trivial
  | [a], [_], heq, ⟨c, hc, hv⟩ => ⟨c, (heq a (by simp)).trans hc, hv⟩
  | a :: b :: as, _ :: vs, heq, ⟨⟨c, hc, hr⟩, hl⟩ =>
    ⟨⟨c, (heq a (by simp)).trans hc, hr⟩, congr (fun x hx => heq x (by simp [hx])) hl⟩
  | [], _ :: _, _, hl => hl.elim
  | [_], [], _, hl => hl.elim
  | [_], _ :: _ :: _, _, hl => hl.elim

theorem Seg.congr {h h' : Heap A V} {as : List A} {vs : List V} (hs : Seg h as vs)
    (heq : ∀ a ∈ as, h' a = h a) : Seg h' as vs :=
  ⟨hs.nodup, hs.linked.congr heq⟩

theorem seg_nil (h : Heap A V) : Seg h [] [] :=
  ⟨List.nodup_nil, trivial⟩

theorem seg_singleton {h : Heap A V} {a : A} {c : Cell A V} (hc : h a = some c) :
    Seg h [a] [c.val] :=
  ⟨List.nodup_singleton a, c, hc, rfl⟩

/-- Linking the last cell to a cell behind it. -/
theorem Linked.snoc {h : Heap A V} {a t : A} {c e : Cell A V} (hne : a ≠ t) (ha : h a = some c)
    (ht : h t = some e) : ∀ (as : List A) {vs : List V}, t ∉ as → Linked h (as ++ [t]) vs →
      Linked (Function.update h t (some { e with next := some a, linked := true }))
        (as ++ [t] ++ [a]) (vs ++ [c.val])
  | [], [v], _, ⟨e', he', hv⟩ => by
    obtain rfl : e = e' := Option.some.inj (ht.symm.trans he')
    exact ⟨⟨{ e with next := some a, linked := true }, by simp, hv, rfl, rfl⟩, c,
      by simp [hne, ha], rfl⟩
  | [b], v :: vs, hb, ⟨⟨e', he', hv, hn, hl⟩, hrest⟩ => by
    have hbt : b ≠ t := fun h => hb (by simp [h])
    refine ⟨⟨e', by simp [hbt, he'], hv, hn, hl⟩, ?_⟩
    exact snoc hne ha ht [] (by simp) hrest
  | b :: b' :: as, v :: vs, hb, ⟨⟨e', he', hv, hn, hl⟩, hrest⟩ => by
    have hbt : b ≠ t := fun h => hb (by simp [h])
    refine ⟨⟨e', by simp [hbt, he'], hv, hn, hl⟩, ?_⟩
    exact snoc hne ha ht (b' :: as) (fun h => hb (by simp [List.mem_cons.mp h])) hrest
  | [], [], _, hl => hl.elim
  | [], _ :: _ :: _, _, hl => hl.elim
  | [_], [], _, hl => hl.elim

/-- A new cell `a` behind the last cell `t` of a segment. -/
theorem Seg.snoc {h : Heap A V} {as : List A} {vs : List V} {a t : A} {c e : Cell A V}
    (hs : Seg h as vs) (ht : as.getLast? = some t) (he : h t = some e) (ha : h a = none) :
    Seg (Function.update (Function.update h a (some c)) t
      (some { e with next := some a, linked := true })) (as ++ [a]) (vs ++ [c.val]) := by
  obtain ⟨as, rfl⟩ := List.getLast?_eq_some_iff.mp ht
  have hmem : a ∉ as ++ [t] := by
    intro hm
    obtain ⟨c', hc'⟩ := hs.linked.isSome a hm
    simp [ha] at hc'
  have hne : a ≠ t := fun h => hmem (by simp [h])
  have hta : t ∉ as := fun h => List.disjoint_of_nodup_append hs.nodup h (by simp)
  refine ⟨hs.nodup.append (List.nodup_singleton a) (List.disjoint_singleton.mpr hmem), ?_⟩
  refine Linked.snoc hne (by simp) (by simp [hne.symm, he]) as hta (hs.linked.congr fun x hx => ?_)
  have hxa : x ≠ a := fun h => hmem (h ▸ hx)
  rw [Function.update_of_ne hxa]

/-- Freeing the first of several cells. -/
theorem Seg.free_head {h : Heap A V} {a b : A} {as : List A} {v : V} {vs : List V}
    (hs : Seg h (a :: b :: as) (v :: vs)) : Seg (Function.update h a none) (b :: as) vs := by
  have hn := List.nodup_cons.mp hs.nodup
  refine ⟨hn.2, hs.linked.2.congr fun x hx => ?_⟩
  have hxa : x ≠ a := fun h => hn.1 (h ▸ hx)
  rw [Function.update_of_ne hxa]

/-- A walk along a segment visits its cells. -/
theorem Linked.walk_eq {h : Heap A V} : ∀ {a : A} {as : List A} {vs : List V},
    Linked h (a :: as) vs → walk h (some a) as.length = some (a :: as)
  | a, [], [_], ⟨c, hc, _⟩ => by simp [walk, hc]
  | a, b :: as, _ :: vs, ⟨⟨c, hc, _, hn, hl⟩, hrest⟩ => by
    have ih := walk_eq hrest
    simp [walk, hc, hn, hl, ih]

end Segment
