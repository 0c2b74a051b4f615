import Mathlib.Tactic.Common

/-!
# Conditions on the steps of a run

A run is a list of actions taken one after another from a state. `Each step P s as` states a
condition on every step of the run, over the state before it and the action. Two conditions that
are equivalent in every state of an invariant hold along the same runs (`each_iff`), and a
condition that restores the invariant holds it along the whole run (`inv_of_each`).
-/

namespace RagLeap.Steps

variable {σ α : Type} {step : σ → α → σ} {P Q : σ → α → Prop} {I : σ → Prop}

/-- `P` holds of every step of the run. -/
def Each (step : σ → α → σ) (P : σ → α → Prop) : σ → List α → Prop
  | _, [] => True
  | s, a :: as => P s a ∧ Each step P (step s a) as

@[simp] theorem each_nil (s : σ) : Each step P s [] := trivial

@[simp] theorem each_cons {s : σ} {a : α} {as : List α} :
    Each step P s (a :: as) ↔ P s a ∧ Each step P (step s a) as := Iff.rfl

theorem each_append {s : σ} {as bs : List α} :
    Each step P s (as ++ bs) ↔ Each step P s as ∧ Each step P (as.foldl step s) bs := by
  induction as generalizing s with
  | nil => simp
  | cons a as ih => simp only [List.cons_append, each_cons, ih, List.foldl_cons, and_assoc]

/-- Under an invariant that `P` restores, it is enough to compare the conditions step by step. -/
theorem each_iff (hiff : ∀ s a, I s → (P s a ↔ Q s a)) (hinv : ∀ s a, I s → P s a → I (step s a))
    {s : σ} (hs : I s) (as : List α) : Each step P s as ↔ Each step Q s as := by
  induction as generalizing s with
  | nil => exact Iff.rfl
  | cons a as ih =>
    rw [each_cons, each_cons, ← hiff s a hs]
    exact and_congr_right fun h => ih (hinv s a hs h)

/-- An invariant that every step of the run restores holds at its end. -/
theorem inv_of_each (hinv : ∀ s a, I s → P s a → I (step s a)) {s : σ} (hs : I s) {as : List α}
    (h : Each step P s as) : I (as.foldl step s) := by
  induction as generalizing s with
  | nil => exact hs
  | cons a as ih => exact ih (hinv s a hs h.1) h.2

end RagLeap.Steps
