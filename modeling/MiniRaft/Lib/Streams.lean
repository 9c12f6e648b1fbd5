import Mathlib.Data.Finset.Basic
import Mathlib.Data.List.TakeDrop

/-!
# Streams that come in pieces

A stream of items is read from a position on. One read returns some of the next items, none of them behind the end of a
piece: whatever a sequence of reads returns, it is what they return for the pieces that end where the reads did.
-/

namespace Lib

/-- Items, and the positions at which a piece ends. -/
structure Stream (α : Type*) where
  items : List α
  ends : Finset ℕ

namespace Stream

variable {α : Type*} {s : Stream α}

/-- How many items one read of at most `n` returns from position `p` on. -/
def readSome (s : Stream α) : ℕ → ℕ → ℕ
  | 0, _ => 0
  | n + 1, p => if s.items.length ≤ p then 0 else if p + 1 ∈ s.ends then 1 else s.readSome n (p + 1) + 1

/-- The `n` items from position `p` on. -/
def slice (s : Stream α) (p n : ℕ) : List α := (s.items.drop p).take n

/-- A piece ends within the `n` items from position `p` on. -/
def Splits (s : Stream α) (p n : ℕ) : Prop := ∃ e ∈ s.ends, p < e ∧ e < p + n

instance (s : Stream α) (p n : ℕ) : Decidable (s.Splits p n) := inferInstanceAs (Decidable (∃ _ ∈ _, _))

theorem readSome_le (n p : ℕ) : s.readSome n p ≤ n := by
  induction n generalizing p with
  | zero => exact Nat.le_refl 0
  | succ n ih =>
    unfold readSome
    split
    · exact Nat.zero_le _
    split
    · exact Nat.succ_le_succ (Nat.zero_le n)
    · exact Nat.succ_le_succ (ih (p + 1))

/-- Only at the end of the stream a read returns nothing. -/
theorem readSome_pos {n p : ℕ} (pos : 0 < n) (inside : p < s.items.length) : 0 < s.readSome n p := by
  cases n with
  | zero => cases pos
  | succ n =>
    rw [readSome, if_neg (Nat.not_le.mpr inside)]
    split
    · exact Nat.one_pos
    · exact Nat.succ_pos _

theorem readSome_inside {p : ℕ} (n : ℕ) (inside : p ≤ s.items.length) : p + s.readSome n p ≤ s.items.length := by
  induction n generalizing p with
  | zero => exact inside
  | succ n ih =>
    unfold readSome
    by_cases closed : s.items.length ≤ p
    · rwa [if_pos closed]
    rw [if_neg closed]
    split
    · omega
    · have := ih (p := p + 1) (by omega)
      omega

/-- Where the one piece ends a read ends. -/
theorem readSome_piece {items : List α} {n k p : ℕ} (pos : 0 < k) (le : k ≤ n) (inside : p + k ≤ items.length) :
    (Stream.mk items {p + k}).readSome n p = k := by
  induction n generalizing p k with
  | zero => omega
  | succ n ih =>
    have more : ¬ items.length ≤ p := by omega
    rw [readSome, if_neg more]
    by_cases one : k = 1
    · subst one
      rw [if_pos (Finset.mem_singleton_self _)]
    · have further : p + 1 ∉ ({p + k} : Finset ℕ) := by
        rw [Finset.mem_singleton]
        omega
      have rest := ih (p := p + 1) (k := k - 1) (by omega) (by omega) (by omega)
      rw [show p + 1 + (k - 1) = p + k by omega] at rest
      rw [if_neg further, rest]
      omega

/-- **A read returns all it asks for** exactly where they are there and no piece ends within. -/
theorem readSome_eq_iff {n : ℕ} (pos : 0 < n) (p : ℕ) :
    s.readSome n p = n ↔ p + n ≤ s.items.length ∧ ¬ s.Splits p n := by
  induction n generalizing p with
  | zero => cases pos
  | succ n ih =>
    unfold readSome
    by_cases closed : s.items.length ≤ p
    · rw [if_pos closed]
      apply iff_of_false
      · omega
      · omega
    rw [if_neg closed]
    by_cases cut : p + 1 ∈ s.ends
    · rw [if_pos cut]
      constructor
      · intro one
        refine ⟨by omega, ?_⟩
        rintro ⟨e, -, low, high⟩
        omega
      · rintro ⟨-, whole⟩
        by_contra more
        exact whole ⟨p + 1, cut, by omega, by omega⟩
    · rw [if_neg cut]
      rcases Nat.eq_zero_or_pos n with rfl | more
      · apply iff_of_true rfl
        refine ⟨by omega, ?_⟩
        rintro ⟨e, -, low, high⟩
        omega
      · rw [Nat.succ_inj, ih more]
        have shift : s.Splits (p + 1) n ↔ s.Splits p (n + 1) := by
          constructor
          · rintro ⟨e, mem, low, high⟩
            exact ⟨e, mem, by omega, by omega⟩
          · rintro ⟨e, mem, low, high⟩
            have past : e ≠ p + 1 := fun same => cut (same ▸ mem)
            exact ⟨e, mem, by omega, by omega⟩
        rw [shift, Nat.add_right_comm, Nat.add_assoc]

theorem slice_of_drop {p : ℕ} {xs rest : List α} (here : s.items.drop p = xs ++ rest) : s.slice p xs.length = xs := by
  rw [slice, here, List.take_left]

theorem drop_of_drop {p : ℕ} {xs rest : List α} (here : s.items.drop p = xs ++ rest) :
    s.items.drop (p + xs.length) = rest := by
  rw [← List.drop_drop, here, List.drop_left]

theorem length_of_drop {p : ℕ} {xs rest : List α} (here : s.items.drop p = xs ++ rest) (some_ : xs ≠ []) :
    p + xs.length ≤ s.items.length := by
  have := congrArg List.length here
  rw [List.length_drop, List.length_append] at this
  have := List.length_pos_iff.mpr some_
  omega

end Stream

end Lib
