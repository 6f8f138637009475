import Mathlib.Tactic

/-!
# Totals over a run

A component takes its actions one after the other, and each action adds to some
quantities and takes from others.  What is added and taken depends on the state
in which the action runs, so that a total is read along the run.  A level that
every single action balances is balanced by the totals.
-/

namespace DistCache
namespace RunTotals

variable {σ α M : Type*} (step : σ → α → σ)

def total [AddCommMonoid M] (amount : σ → α → M) : σ → List α → M
  | _, [] => 0
  | s, a :: rest => amount s a + total amount (step s a) rest

theorem level_add_total [AddCommMonoid M] {level : σ → M} {gain loss : σ → α → M}
    (hstep : ∀ s a, level s + gain s a = level (step s a) + loss s a) (s : σ) (actions : List α) :
    level s + total step gain s actions =
      level (actions.foldl step s) + total step loss s actions := by
  induction actions generalizing s with
  | nil => rfl
  | cons a rest ih =>
      calc level s + (gain s a + total step gain (step s a) rest)
          = level s + gain s a + total step gain (step s a) rest := (add_assoc _ _ _).symm
        _ = level (step s a) + loss s a + total step gain (step s a) rest := by rw [hstep]
        _ = loss s a + (level (step s a) + total step gain (step s a) rest) := by
            rw [add_comm (level (step s a)) (loss s a), add_assoc]
        _ = loss s a +
            (level (rest.foldl step (step s a)) + total step loss (step s a) rest) := by rw [ih]
        _ = level (rest.foldl step (step s a)) +
            (loss s a + total step loss (step s a) rest) := add_left_comm _ _ _

theorem total_add [AddCommMonoid M] (first second : σ → α → M) (s : σ) (actions : List α) :
    total step (fun s a => first s a + second s a) s actions =
      total step first s actions + total step second s actions := by
  induction actions generalizing s with
  | nil => exact (add_zero 0).symm
  | cons a rest ih =>
      simp only [total]
      rw [ih, add_add_add_comm]

theorem total_eq_zero_iff (amount : σ → α → ℕ) (s : σ) (actions : List α) :
    total step amount s actions = 0 ↔
      ∀ before a after, actions = before ++ a :: after → amount (before.foldl step s) a = 0 := by
  induction actions generalizing s with
  | nil =>
      constructor
      · intro _ before a after hsplit
        simp at hsplit
      · exact fun _ => rfl
  | cons first rest ih =>
      rw [total, Nat.add_eq_zero_iff, ih]
      constructor
      · rintro ⟨hfirst, hrest⟩ before a after hsplit
        cases before with
        | nil =>
            obtain ⟨rfl, rfl⟩ := List.cons.inj hsplit
            exact hfirst
        | cons b before =>
            obtain ⟨rfl, htail⟩ := List.cons.inj hsplit
            exact hrest before a after htail
      · intro hall
        refine ⟨hall [] first rest rfl, ?_⟩
        intro before a after hsplit
        exact hall (first :: before) a after (by rw [hsplit]; rfl)

end RunTotals
end DistCache
