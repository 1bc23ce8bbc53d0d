import Mathlib.Data.List.Basic
import Mathlib.Order.Nat

/-!
# Computations with a record of their accesses

`Traced ι α` is a value together with the places that were accessed to compute it, in order.
A loop is written once in this monad; its value is the result, and `All` says of every access
what the arrays ask for. The rules for `pure`, `touch`, `bind` and `if` take `All` apart along
the program, and `turns_succ` takes a loop apart into its turns.
-/

set_option linter.unusedSectionVars false

universe u

/-- A value, and the accesses made for it. -/
structure Traced (ι α : Type*) where
  val : α
  uses : List ι
  deriving DecidableEq

namespace Traced

variable {ι : Type*} {α β : Type u}

instance : Monad (Traced ι) where
  pure a := ⟨a, []⟩
  bind t f := ⟨(f t.val).val, t.uses ++ (f t.val).uses⟩

/-- Accesses for no value. -/
def touch (us : List ι) : Traced ι Unit :=
  ⟨(), us⟩

/-- The same computation, with other names for its accesses. -/
def relabel {κ : Type*} (f : ι → List κ) (t : Traced ι α) : Traced κ α :=
  ⟨t.val, t.uses.flatMap f⟩

@[simp] theorem val_relabel {κ : Type*} (f : ι → List κ) (t : Traced ι α) :
    (t.relabel f).val = t.val := rfl

@[simp] theorem val_pure (a : α) : (pure a : Traced ι α).val = a := rfl

@[simp] theorem val_bind (t : Traced ι α) (f : α → Traced ι β) :
    (t >>= f).val = (f t.val).val := rfl

@[simp] theorem uses_pure (a : α) : (pure a : Traced ι α).uses = [] := rfl

@[simp] theorem uses_touch (us : List ι) : (touch us).uses = us := rfl

@[simp] theorem uses_bind (t : Traced ι α) (f : α → Traced ι β) :
    (t >>= f).uses = t.uses ++ (f t.val).uses := rfl

@[simp] theorem val_ite (p : Prop) [Decidable p] (t u : Traced ι α) :
    (if p then t else u).val = if p then t.val else u.val :=
  apply_ite val p t u

/-- Every access is of a kind. -/
def All (p : ι → Prop) (t : Traced ι α) : Prop :=
  ∀ i ∈ t.uses, p i

variable {p : ι → Prop}

@[simp] theorem all_pure (a : α) : (pure a : Traced ι α).All p ↔ True := by
  simp [All, pure]

@[simp] theorem all_touch (us : List ι) : (touch us).All p ↔ ∀ i ∈ us, p i :=
  Iff.rfl

@[simp] theorem all_bind (t : Traced ι α) (f : α → Traced ι β) :
    (t >>= f).All p ↔ t.All p ∧ (f t.val).All p :=
  List.forall_mem_append

@[simp] theorem all_ite (q : Prop) [Decidable q] (t u : Traced ι α) :
    (if q then t else u).All p ↔ if q then t.All p else u.All p := by
  split_ifs <;> rfl

@[simp] theorem all_relabel {κ : Type*} {q : κ → Prop} (f : ι → List κ) (t : Traced ι α) :
    (t.relabel f).All q ↔ t.All fun i => ∀ k ∈ f i, q k := by
  simp only [All, relabel, List.mem_flatMap]
  exact ⟨fun h i hi k hk => h k ⟨i, hi, hk⟩, fun h k ⟨i, hi, hk⟩ => h i hi k hk⟩

/-! ## Loops -/

/-- `P` holds of every turn that a loop takes, which starts at `i`, has `n` turns left, and goes on
behind a turn `k` if `goes k`. -/
def Turns (goes P : ℕ → Prop) (i n : ℕ) : Prop :=
  ∀ k, i ≤ k → k < i + n → (∀ l, i ≤ l → l < k → goes l) → P k

variable {goes P : ℕ → Prop} {i n : ℕ}

@[simp] theorem turns_zero : Turns goes P i 0 ↔ True :=
  iff_true_intro fun _ hik hki => absurd hik (Nat.not_le_of_lt hki)

/-- The first turn, and the rest if the loop goes on. -/
theorem turns_succ : Turns goes P i (n + 1) ↔ P i ∧ (goes i → Turns goes P (i + 1) n) := by
  constructor
  · intro h
    refine ⟨h i le_rfl (by omega) fun l hil hli => by omega, fun hgoes k hik hki hall => ?_⟩
    refine h k (by omega) (by omega) fun l hil hlk => ?_
    rcases Nat.eq_or_lt_of_le hil with rfl | hlt
    · exact hgoes
    · exact hall l hlt hlk
  · rintro ⟨hfirst, hrest⟩ k hik hki hall
    rcases Nat.eq_or_lt_of_le hik with rfl | hlt
    · exact hfirst
    · exact hrest (hall i le_rfl hlt) k hlt (by omega) fun l hil hlk => hall l (by omega) hlk

/-- The turns stay below `m` exactly if the loop stops behind one of them. -/
theorem turns_lt_iff {m : ℕ} (h : m < n) : Turns goes (· < m) 0 n ↔ ∃ k < m, ¬goes k := by
  constructor
  · intro hall
    by_contra hgoes
    refine lt_irrefl m (hall m (Nat.zero_le _) (by omega) fun l _ hlm => ?_)
    by_contra hnot
    exact hgoes ⟨l, hlm, hnot⟩
  · rintro ⟨k, hkm, hnot⟩ l - - hall
    by_contra hle
    exact hnot (hall k (Nat.zero_le _) (by omega))

end Traced
