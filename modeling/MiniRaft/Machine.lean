import Mathlib.Data.Int.Basic
import Mathlib.Algebra.Order.Ring.Int
import Mathlib.Data.Int.DivMod

/-!
# Fixed-width integers

Terms, indices and counters are `uint64_t` and are modelled by `ℕ`; these are the places where the width
shows. Terms and `Seqno` are taken below `2 ^ 64` throughout.
-/

namespace MiniRaft

/-- `uint64_t` arithmetic. -/
def u64 (n : ℕ) : ℕ := n % 2 ^ 64

/-- `uint64_t` subtraction, which wraps. -/
def u64Sub (a b : ℕ) : ℕ := (a + (2 ^ 64 - b)) % 2 ^ 64

/-- A `uint64_t` passed as `int64_t`. -/
def toInt64 (n : ℕ) : ℤ := if n < 2 ^ 63 then n else n - (2 ^ 64 : ℕ)

/-- A `uint64_t` that goes through an `int` and back: the low 32 bits, sign-extended. -/
def throughInt (n : ℕ) : ℕ :=
  if n % 2 ^ 32 < 2 ^ 31 then n % 2 ^ 32 else n % 2 ^ 32 + (2 ^ 64 - 2 ^ 32)

/-- An `int` shifted left by one place. -/
def shiftLeft (n : ℤ) : ℤ := Int.bmod (2 * n) (2 ^ 32)

theorem u64_of_lt {n : ℕ} (h : n < 2 ^ 64) : u64 n = n := Nat.mod_eq_of_lt h

theorem u64Sub_of_le {a b : ℕ} (h : b ≤ a) (ha : a < 2 ^ 64) : u64Sub a b = a - b := by
  unfold u64Sub
  rw [show a + (2 ^ 64 - b) = a - b + 2 ^ 64 by omega, Nat.add_mod_right]
  exact Nat.mod_eq_of_lt (by omega)

theorem toInt64_of_lt {n : ℕ} (h : n < 2 ^ 63) : toInt64 n = n := if_pos h

/-- Values below `2 ^ 31` survive the `int`. -/
theorem throughInt_of_lt {n : ℕ} (h : n < 2 ^ 31) : throughInt n = n := by
  have low : n % 2 ^ 32 = n := Nat.mod_eq_of_lt (by omega)
  rw [throughInt, low, if_pos h]

/-- The `int` keeps what it can represent, where the top `2 ^ 31` values stand for the negative ones. -/
theorem throughInt_eq_iff {n : ℕ} (h : n < 2 ^ 64) : throughInt n = n ↔ n < 2 ^ 31 ∨ 2 ^ 64 - 2 ^ 31 ≤ n := by
  unfold throughInt
  split <;> omega

/-- Values below `2 ^ 32` do not get smaller. -/
theorem le_throughInt {n : ℕ} (h : n < 2 ^ 32) : n ≤ throughInt n := by
  rw [throughInt, Nat.mod_eq_of_lt h]
  split
  · exact le_rfl
  · exact Nat.le_add_right ..

end MiniRaft
