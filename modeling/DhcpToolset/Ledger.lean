import DhcpToolset.Transition
import Mathlib.Data.Finset.Card

/-!
# What is acquired and released

A program acquires resources from the system and releases them. The ledger has the resources that
are live, and those that were released without being live. The system gives out resources that
are not in use, so an acquisition of a live one is no step.

`Leaves es rs` : wherever the operations `es` are made, they release nothing but what they have
acquired themselves, and `rs` is what they leave acquired. `Leaves.append` composes two parts of a
program, `Leaves.release` is a clean-up. `run_releases` is the release of what is live.
-/

open Transition

namespace Ledger

variable {R : Type*}

/-- A thing is acquired or released. -/
inductive Event (R : Type*) where
  | acquire (r : R)
  | release (r : R)

/-- What is live, and what was released in error. -/
structure State (R : Type*) where
  live : Finset R
  /-- Released while they were not live. -/
  stray : List R

variable [DecidableEq R]

/-- One entry. Only what is not live can be acquired. -/
def step (s : State R) : Event R → Option (State R)
  | .acquire r => if r ∈ s.live then none else some { s with live := insert r s.live }
  | .release r => some ⟨s.live.erase r, if r ∈ s.live then s.stray else s.stray ++ [r]⟩

/-- The operations leave `rs` acquired, and nothing else is changed. -/
def Leaves (es : List (Event R)) (rs : List R) : Prop :=
  ∀ s s' : State R, run step s es = some s' →
    rs.Nodup ∧ (∀ r ∈ rs, r ∉ s.live) ∧ s' = ⟨s.live ∪ rs.toFinset, s.stray⟩

variable {es es' : List (Event R)} {rs rs' : List R} {r : R}

theorem leaves_nil : Leaves ([] : List (Event R)) [] := by
  intro s s' h
  obtain rfl : s = s' := by simpa using h
  simp

theorem leaves_acquire (r : R) : Leaves [.acquire r] [r] := by
  intro s s' h
  obtain ⟨m, hm, hnil⟩ := run_cons_eq_some.mp h
  obtain rfl : m = s' := by simpa using hnil
  simp only [step] at hm
  split at hm
  · cases hm
  · obtain rfl := Option.some.inj hm
    refine ⟨by simp, by simpa using ‹r ∉ s.live›, ?_⟩
    rw [Finset.union_comm]
    rfl

theorem Leaves.append (h : Leaves es rs) (h' : Leaves es' rs') :
    Leaves (es ++ es') (rs ++ rs') := by
  intro s s' hrun
  rw [run_append] at hrun
  obtain ⟨m, hm, hrun⟩ := Option.bind_eq_some_iff.mp hrun
  obtain ⟨hnodup, hfresh, rfl⟩ := h s m hm
  obtain ⟨hnodup', hfresh', rfl⟩ := h' _ s' hrun
  have hnot (x : R) (hx : x ∈ rs') : x ∉ s.live ∧ x ∉ rs := by simpa using hfresh' x hx
  refine ⟨hnodup.append hnodup' fun x hx hx' => (hnot x hx').2 hx, fun x hx => ?_, ?_⟩
  · rcases List.mem_append.mp hx with hx | hx
    · exact hfresh x hx
    · exact (hnot x hx).1
  · rw [List.toFinset_append, Finset.union_assoc]

/-- Something that was left is released. -/
theorem Leaves.release (h : Leaves es rs) (hr : r ∈ rs) :
    Leaves (es ++ [.release r]) (rs.erase r) := by
  intro s s' hrun
  rw [run_append] at hrun
  obtain ⟨m, hm, hrun⟩ := Option.bind_eq_some_iff.mp hrun
  obtain ⟨hnodup, hfresh, rfl⟩ := h s m hm
  obtain ⟨m, hm, hnil⟩ := run_cons_eq_some.mp hrun
  obtain rfl : m = s' := by simpa using hnil
  obtain rfl := Option.some.inj hm
  refine ⟨hnodup.erase r, fun x hx => hfresh x (List.mem_of_mem_erase hx), ?_⟩
  have hlive : r ∈ s.live ∪ rs.toFinset := by simp [hr]
  have herase : (s.live ∪ rs.toFinset).erase r = s.live ∪ (rs.erase r).toFinset := by
    ext x
    have hx : x ∈ s.live → x ≠ r := fun hx hxr => hfresh r hr (hxr ▸ hx)
    simp only [Finset.mem_erase, Finset.mem_union, List.mem_toFinset, hnodup.mem_erase_iff]
    tauto
  simp only [if_pos hlive, herase]

theorem leaves_acquires : ∀ rs : List R, Leaves (rs.map .acquire) rs
  | [] => leaves_nil
  | r :: rs => (leaves_acquire r).append (leaves_acquires rs)

/-- The release of different resources that are live. -/
theorem run_releases : ∀ {rs : List R} {s s' : State R}, rs.Nodup → (∀ r ∈ rs, r ∈ s.live) →
    run step s (rs.map .release) = some s' → s' = ⟨s.live \ rs.toFinset, s.stray⟩
  | [], s, s', _, _, h => by
    obtain rfl : s = s' := by simpa using h
    simp
  | r :: rs, s, s', hnodup, hlive, h => by
    obtain ⟨hr, hnodup⟩ := List.nodup_cons.mp hnodup
    obtain ⟨m, hm, h⟩ := run_cons_eq_some.mp h
    obtain rfl := Option.some.inj hm
    have hrest : ∀ x ∈ rs, x ∈ s.live.erase r := fun x hx =>
      Finset.mem_erase.mpr ⟨fun hxr => hr (hxr ▸ hx), hlive x (by simp [hx])⟩
    rw [run_releases hnodup hrest h, if_pos (hlive r (by simp))]
    congr 1
    ext x
    simp only [Finset.mem_sdiff, Finset.mem_erase, List.toFinset_cons, Finset.mem_insert]
    tauto

end Ledger
