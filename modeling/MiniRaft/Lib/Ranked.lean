import Mathlib.Order.Basic
import Mathlib.Order.Nat

/-!
# Runs that come to their end

A run is a sequence of states, each a step after the one before. A rank that decreases until the goal is reached bounds
the number of steps it takes.
-/

namespace Lib

/-- Steps keep `inv` and do not leave `goal`, and before the goal each decreases `rank`. -/
structure Ranked {α : Type*} (inv goal : α → Prop) (rank : α → ℕ) (step : α → α → Prop) : Prop where
  keeps : ∀ {a b}, inv a → step a b → inv b
  stays : ∀ {a b}, inv a → goal a → step a b → goal b
  less : ∀ {a b}, inv a → ¬ goal a → step a b → rank b < rank a

namespace Ranked

variable {α : Type*} {inv goal : α → Prop} {rank : α → ℕ} {step : α → α → Prop} {c : ℕ → α}

theorem run (ranked : Ranked inv goal rank step) (start : inv (c 0)) (steps : ∀ k, step (c k) (c (k + 1))) (k : ℕ) :
    inv (c k) := by
  induction k with
  | zero => exact start
  | succ k ih => exact ranked.keeps ih (steps k)

/-- Every step before the goal uses up some of the rank. -/
theorem spent (ranked : Ranked inv goal rank step) (start : inv (c 0)) (steps : ∀ k, step (c k) (c (k + 1))) {k : ℕ}
    (before : ¬ goal (c k)) : rank (c k) + k ≤ rank (c 0) := by
  induction k with
  | zero => exact le_rfl
  | succ k ih =>
    have here := ranked.run start steps k
    have earlier : ¬ goal (c k) := fun reached => before (ranked.stays here reached (steps k))
    have := ranked.less here earlier (steps k)
    have := ih earlier
    omega

/-- **The goal is reached** after as many steps as the rank says, and kept from then on. -/
theorem reaches (ranked : Ranked inv goal rank step) (start : inv (c 0)) (steps : ∀ k, step (c k) (c (k + 1))) {k : ℕ}
    (enough : rank (c 0) ≤ k) : goal (c k) := by
  by_contra before
  have used := ranked.spent start steps before
  have more := ranked.less (ranked.run start steps k) before (steps k)
  omega

end Ranked

end Lib
