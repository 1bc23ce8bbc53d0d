import Mathlib.Data.List.Basic

/-!
# Runs of a partial step function

A system is a function `step : σ → α → Option σ` : an action `α` is taken from a state,
or it is not enabled there. The action carries every choice the environment makes (which
thread runs, what a system call returned), so a run is a list of actions.

`run` takes a list of actions, and `StepsMeet` says that every step of a run meets a
condition on its action and on the state before it. `StepsMeet.invariant` is the
induction of a run : a property kept by every step that meets the condition holds in
the state the run ends in, and `StepsMeet.simulation` the one of two systems side by side.
`Always` says that a property holds in every state a run passes,
and `CanReach` that some run with actions of a kind leads from one state to another. `tally`
counts the steps of a run that are of a kind.
-/

namespace Transition

variable {σ α : Type*} (step : σ → α → Option σ)

/-- Take the actions in order, or stop with `none` at one that is not enabled. -/
def run : σ → List α → Option σ
  | s, [] => some s
  | s, a :: as => (step s a).bind fun s' => run s' as

/-- Every step of the run from `s` meets `C` in the state before it. -/
def StepsMeet (C : σ → α → Prop) : σ → List α → Prop
  | _, [] => True
  | s, a :: as => C s a ∧ ∀ s', step s a = some s' → StepsMeet C s' as

/-- `P` holds in every state that the run from `s` passes. -/
def Always (P : σ → Prop) : σ → List α → Prop
  | s, [] => P s
  | s, a :: as => P s ∧ ∀ s', step s a = some s' → Always P s' as

variable {step}

@[simp] theorem run_nil (s : σ) : run step s [] = some s :=
  rfl

theorem run_cons_eq_some {s s' : σ} {a : α} {as : List α} :
    run step s (a :: as) = some s' ↔ ∃ m, step s a = some m ∧ run step m as = some s' :=
  Option.bind_eq_some_iff

/-- A run splits at any of its actions. -/
theorem run_append {s : σ} : ∀ (as bs : List α),
    run step s (as ++ bs) = (run step s as).bind fun m => run step m bs
  | [], _ => rfl
  | a :: as, bs => by
    simp only [List.cons_append, run]
    cases step s a with
    | none => rfl
    | some m => exact run_append as bs

/-- A value read off the state a run reaches, by evaluating the run. -/
theorem eq_of_run_map {β : Type*} {s s' : σ} {as : List α} {f : σ → β} {v : β}
    (h : run step s as = some s') (hv : (run step s as).map f = some v) : f s' = v := by
  simpa [h] using hv

/-- Conditions on the actions alone. -/
theorem StepsMeet.of_forall {P : α → Prop} : ∀ {as : List α} (s : σ), (∀ a ∈ as, P a) →
    StepsMeet step (fun _ a => P a) s as
  | [], _, _ => trivial
  | a :: _, _, h => ⟨h a (by simp), fun s' _ => of_forall s' fun b hb => h b (by simp [hb])⟩

/-- In a run that goes through, they hold of each action. -/
theorem StepsMeet.forall_mem {P : α → Prop} : ∀ {as : List α} {s s' : σ},
    StepsMeet step (fun _ a => P a) s as → run step s as = some s' → ∀ a ∈ as, P a
  | [], _, _, _, _ => by simp
  | a :: as, s, s', hc, h => by
    obtain ⟨m, hm, h⟩ := run_cons_eq_some.mp h
    have ih := (hc.2 m hm).forall_mem h
    simpa using ⟨hc.1, ih⟩

theorem StepsMeet.and {C D : σ → α → Prop} : ∀ {as : List α} {s : σ}, StepsMeet step C s as →
    StepsMeet step D s as → StepsMeet step (fun s a => C s a ∧ D s a) s as
  | [], _, _, _ => trivial
  | _ :: _, _, hc, hd => ⟨⟨hc.1, hd.1⟩, fun s' h => (hc.2 s' h).and (hd.2 s' h)⟩

theorem stepsMeet_cons_of_some {C : σ → α → Prop} {s m : σ} {a : α} {as : List α}
    (h : step s a = some m) : C s a ∧ StepsMeet step C m as ↔ StepsMeet step C s (a :: as) := by
  simp [StepsMeet, h]

theorem stepsMeet_cons_of_none {C : σ → α → Prop} {s : σ} {a : α} {as : List α}
    (h : step s a = none) : C s a ↔ StepsMeet step C s (a :: as) := by
  simp [StepsMeet, h]

theorem stepsMeet_append {C : σ → α → Prop} : ∀ {as : List α} {s : σ} (bs : List α),
    StepsMeet step C s (as ++ bs) ↔
      StepsMeet step C s as ∧ ∀ m, run step s as = some m → StepsMeet step C m bs
  | [], s, bs => by simp [StepsMeet]
  | a :: as, s, bs => by
    cases h : step s a with
    | none => simp [StepsMeet, run, h]
    | some m => simp [StepsMeet, run, h, stepsMeet_append bs, and_assoc]

/-- Two conditions that agree on the steps that are taken. -/
theorem stepsMeet_congr {C D : σ → α → Prop}
    (hiff : ∀ s a s', step s a = some s' → (C s a ↔ D s a)) :
    ∀ {as : List α} {s s' : σ}, run step s as = some s' →
      (StepsMeet step C s as ↔ StepsMeet step D s as)
  | [], _, _, _ => Iff.rfl
  | a :: as, s, s', h => by
    obtain ⟨m, hm, h⟩ := run_cons_eq_some.mp h
    rw [← stepsMeet_cons_of_some hm, ← stepsMeet_cons_of_some hm, hiff s a m hm,
      stepsMeet_congr hiff h]

instance StepsMeet.decidable {C : σ → α → Prop} [∀ s a, Decidable (C s a)] :
    ∀ (s : σ) (as : List α), Decidable (StepsMeet step C s as)
  | _, [] => isTrue trivial
  | s, a :: as =>
    match h : step s a with
    | none => decidable_of_iff _ (stepsMeet_cons_of_none h)
    | some m =>
      have := StepsMeet.decidable (C := C) m as
      decidable_of_iff _ (stepsMeet_cons_of_some h)

/-- What every step that meets `C` keeps, the run keeps. -/
theorem StepsMeet.invariant {C : σ → α → Prop} {I : σ → Prop}
    (hstep : ∀ s a s', C s a → I s → step s a = some s' → I s') :
    ∀ {as : List α} {s s' : σ}, StepsMeet step C s as → I s → run step s as = some s' → I s'
  | [], s, s', _, hi, h => by
    obtain rfl : s = s' := by simpa using h
    exact hi
  | a :: as, s, s', hc, hi, h => by
    obtain ⟨m, hm, h⟩ := run_cons_eq_some.mp h
    exact invariant hstep (hc.2 m hm) (hstep s a m hc.1 hi hm) h

/-- What every step keeps, every run keeps. -/
theorem run_invariant {I : σ → Prop} (hstep : ∀ s a s', I s → step s a = some s' → I s')
    {as : List α} {s s' : σ} (hi : I s) (h : run step s as = some s') : I s' :=
  (StepsMeet.of_forall s fun _ _ => trivial : StepsMeet step (fun _ _ => True) s as).invariant
    (fun s a s' _ => hstep s a s') hi h

theorem Always.head {P : σ → Prop} : ∀ {as : List α} {s : σ}, Always step P s as → P s
  | [], _, h => h
  | _ :: _, _, h => h.1

/-- An invariant of the steps that meet `C`, which is also what a step has to meet for `P` to
hold after it. -/
theorem always_iff_stepsMeet {C : σ → α → Prop} {I P : σ → Prop} (hinv : ∀ s, I s → P s)
    (hstep : ∀ s a s', C s a → I s → step s a = some s' → I s')
    (hneed : ∀ s a s', I s → step s a = some s' → P s' → C s a) :
    ∀ {as : List α} {s s' : σ}, I s → run step s as = some s' →
      (Always step P s as ↔ StepsMeet step C s as)
  | [], s, _, hi, _ => iff_of_true (hinv s hi) trivial
  | a :: as, s, s', hi, h => by
    obtain ⟨m, hm, h⟩ := run_cons_eq_some.mp h
    rw [← stepsMeet_cons_of_some hm]
    constructor
    · rintro ⟨-, halways⟩
      have hc := hneed s a m hi hm (halways m hm).head
      exact ⟨hc, (always_iff_stepsMeet hinv hstep hneed (hstep s a m hc hi hm) h).mp (halways m hm)⟩
    · rintro ⟨hc, hmeet⟩
      refine ⟨hinv s hi, fun m' hm' => ?_⟩
      obtain rfl : m = m' := Option.some.inj (hm.symm.trans hm')
      exact (always_iff_stepsMeet hinv hstep hneed (hstep s a m hc hi hm) h).mpr hmeet

/-- Among the steps that meet `D`, what a step keeps exactly when it meets `C`, a run keeps
exactly when all its steps do. -/
theorem StepsMeet.iff_of_step {C D : σ → α → Prop} {I P : σ → Prop}
    (hinv : ∀ s a s', D s a → I s → step s a = some s' → I s')
    (hiff : ∀ s a s', I s → step s a = some s' → (P s' ↔ P s ∧ C s a)) :
    ∀ {as : List α} {s s' : σ}, StepsMeet step D s as → I s → run step s as = some s' →
      (P s' ↔ P s ∧ StepsMeet step C s as)
  | [], s, s', _, _, h => by
    obtain rfl : s = s' := by simpa using h
    simp [StepsMeet]
  | a :: as, s, s', hd, hi, h => by
    obtain ⟨m, hm, h⟩ := run_cons_eq_some.mp h
    rw [iff_of_step hinv hiff (hd.2 m hm) (hinv s a m hd.1 hi hm) h, hiff s a m hi hm, and_assoc,
      stepsMeet_cons_of_some hm]

/-- A part of the state, whose steps are those of some of the actions, makes the run of these. -/
theorem run_filterMap {τ β : Type*} {step' : τ → β → Option τ} {f : σ → τ} {g : α → Option β}
    (hstep : ∀ s a s', step s a = some s' →
      run step' (f s) (g a).toList = some (f s')) :
    ∀ {as : List α} {s s' : σ}, run step s as = some s' →
      run step' (f s) (as.filterMap g) = some (f s')
  | [], s, s', h => by
    obtain rfl : s = s' := by simpa using h
    rfl
  | a :: as, s, s', h => by
    obtain ⟨m, hm, h⟩ := run_cons_eq_some.mp h
    have hfirst := hstep s a m hm
    have hsplit : (a :: as).filterMap g = (g a).toList ++ as.filterMap g := by
      cases hg : g a <;> simp [hg]
    rw [hsplit, run_append, hfirst]
    exact run_filterMap hstep h

/-- Two systems with the same actions : as long as the steps meet `C`, a run of the one is a run of
the other, in states that are related. -/
theorem StepsMeet.simulation {τ : Type*} {step' : τ → α → Option τ} {C : σ → α → Prop}
    {R : σ → τ → Prop}
    (hstep : ∀ s a s' t, C s a → R s t → step s a = some s' → ∃ t', step' t a = some t' ∧ R s' t') :
    ∀ {as : List α} {s s' : σ} {t : τ}, StepsMeet step C s as → R s t → run step s as = some s' →
      ∃ t', run step' t as = some t' ∧ R s' t'
  | [], s, s', t, _, hr, h => by
    obtain rfl : s = s' := by simpa using h
    exact ⟨t, rfl, hr⟩
  | a :: as, s, s', t, hc, hr, h => by
    obtain ⟨m, hm, h⟩ := run_cons_eq_some.mp h
    obtain ⟨t', ht', hr'⟩ := hstep s a m t hc.1 hr hm
    obtain ⟨t'', ht'', hr''⟩ := (hc.2 m hm).simulation hstep hr' h
    exact ⟨t'', run_cons_eq_some.mpr ⟨t', ht', ht''⟩, hr''⟩

/-! ## Going on from a state -/

variable {P : α → Prop} {s m s' : σ} {a : α}

variable (step) in
/-- Some run with actions of a kind leads from `s` to `s'`. -/
def CanReach (P : α → Prop) (s s' : σ) : Prop :=
  ∃ as, (∀ a ∈ as, P a) ∧ run step s as = some s'

theorem CanReach.refl (s : σ) : CanReach step P s s :=
  ⟨[], by simp, rfl⟩

theorem CanReach.head (ha : P a) (h : step s a = some m) (hr : CanReach step P m s') :
    CanReach step P s s' := by
  obtain ⟨as, hall, hrun⟩ := hr
  exact ⟨a :: as, by simpa using ⟨ha, hall⟩, run_cons_eq_some.mpr ⟨m, h, hrun⟩⟩

theorem CanReach.trans (h : CanReach step P s m) (h' : CanReach step P m s') :
    CanReach step P s s' := by
  obtain ⟨as, hall, hrun⟩ := h
  obtain ⟨bs, hall', hrun'⟩ := h'
  refine ⟨as ++ bs, fun a ha => ?_, ?_⟩
  · rcases List.mem_append.mp ha with ha | ha
    · exact hall a ha
    · exact hall' a ha
  · rw [run_append, hrun]
    exact hrun'

/-- What the steps of the kind keep. -/
theorem CanReach.invariant {I : σ → Prop} (hr : CanReach step P s s')
    (hstep : ∀ s a s', P a → I s → step s a = some s' → I s') (hi : I s) : I s' := by
  obtain ⟨as, hall, hrun⟩ := hr
  exact (StepsMeet.of_forall s hall).invariant hstep hi hrun

/-! ## Counting steps -/

section Tally

variable {K : σ → α → Prop} [∀ s a, Decidable (K s a)]

variable (step K) in
/-- How many steps of the run from `s` are of a kind. -/
def tally : σ → List α → ℕ
  | _, [] => 0
  | s, a :: as => (if K s a then 1 else 0) + ((step s a).map fun s' => tally s' as).getD 0

theorem tally_cons (h : step s a = some m) (as : List α) :
    tally step K s (a :: as) = (if K s a then 1 else 0) + tally step K m as := by
  rw [tally, h]
  rfl

theorem tally_append : ∀ {as : List α} {s m : σ}, run step s as = some m → ∀ bs : List α,
    tally step K s (as ++ bs) = tally step K s as + tally step K m bs
  | [], s, m, h, bs => by
    obtain rfl : s = m := by simpa using h
    simp [tally]
  | a :: as, s, m, h, bs => by
    obtain ⟨n, hn, h⟩ := run_cons_eq_some.mp h
    rw [List.cons_append, tally_cons hn, tally_cons hn, tally_append h, Nat.add_assoc]

/-- An invariant with a count that the steps of the kind increase, among steps that meet `C`. -/
theorem StepsMeet.tally {C : σ → α → Prop} {I : σ → ℕ → Prop}
    (hstep : ∀ s a s' n, C s a → I s n → step s a = some s' → I s' (n + if K s a then 1 else 0)) :
    ∀ {as : List α} {s s' : σ} {n : ℕ}, StepsMeet step C s as → I s n → run step s as = some s' →
      I s' (n + Transition.tally step K s as)
  | [], s, s', n, _, hi, h => by
    obtain rfl : s = s' := by simpa using h
    exact hi
  | a :: as, s, s', n, hc, hi, h => by
    obtain ⟨m, hm, h⟩ := run_cons_eq_some.mp h
    rw [tally_cons hm, ← Nat.add_assoc]
    exact (hc.2 m hm).tally hstep (hstep s a m n hc.1 hi hm) h

theorem run_tally {I : σ → ℕ → Prop}
    (hstep : ∀ s a s' n, I s n → step s a = some s' → I s' (n + if K s a then 1 else 0))
    {as : List α} {s s' : σ} {n : ℕ} (hi : I s n) (h : run step s as = some s') :
    I s' (n + Transition.tally step K s as) :=
  (StepsMeet.of_forall (P := fun _ => True) s fun _ _ => trivial).tally
    (fun s a s' n _ => hstep s a s' n) hi h

/-- A kind of actions is counted in the list of them. -/
theorem tally_eq_countP (p : α → Bool) : ∀ {as : List α} {s s' : σ}, run step s as = some s' →
    Transition.tally step (fun _ a => p a = true) s as = as.countP p
  | [], _, _, _ => rfl
  | a :: as, s, s', h => by
    obtain ⟨m, hm, h⟩ := run_cons_eq_some.mp h
    rw [tally_cons hm, tally_eq_countP p h, List.countP_cons, Nat.add_comm]

end Tally

end Transition
