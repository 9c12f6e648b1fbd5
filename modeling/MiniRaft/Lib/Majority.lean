import Mathlib.Data.List.Sort
import MiniRaft.Lib.Consensus

/-!
# Quorums by counting

Votes need more than half of the members, commitment at least half of them. The commit position is read
off a sorted list, so the second threshold comes with a counting lemma for sorted lists.
-/

namespace Lib

/-- Members that together outnumber the whole have one in common. -/
theorem meet_of_card {S : Type*} [DecidableEq S] {ids A B : Finset S} (hA : A ⊆ ids) (hB : B ⊆ ids)
    (many : ids.card < A.card + B.card) : ∃ s, s ∈ A ∧ s ∈ B := by
  obtain ⟨s, hs⟩ := Finset.inter_nonempty_of_card_lt_card_add_card hA hB many
  exact ⟨s, Finset.mem_inter.mp hs⟩

/-- Vote quorums of `n / 2 + 1` and commit quorums of `n - n / 2` out of `n` members. -/
def majority {S : Type*} [DecidableEq S] (ids : Finset S) : Quorums S where
  vote A := A ⊆ ids ∧ ids.card / 2 + 1 ≤ A.card
  commit A := A ⊆ ids ∧ ids.card - ids.card / 2 ≤ A.card
  vote_vote hA hB := meet_of_card hA.1 hB.1 (by omega)
  commit_vote hA hB := meet_of_card hA.1 hB.1 (by omega)

/-- At position `k` of a sorted list stands a value that all but `k` of the elements reach. -/
theorem count_of_sorted {l : List ℕ} (sorted : l.Pairwise (· ≤ ·)) {k x : ℕ} (at_k : l[k]? = some x) :
    l.length - k ≤ l.countP (x ≤ ·) := by
  have rest : ∀ y ∈ l.drop k, x ≤ y := by
    intro y hy
    obtain ⟨j, hj⟩ := List.mem_iff_getElem?.mp hy
    rw [List.getElem?_drop] at hj
    rcases Nat.eq_zero_or_pos j with rfl | pos
    · simp_all
    · obtain ⟨hk, rfl⟩ := List.getElem?_eq_some_iff.mp at_k
      obtain ⟨hj', rfl⟩ := List.getElem?_eq_some_iff.mp hj
      exact List.pairwise_iff_getElem.mp sorted k (k + j) hk hj' (by omega)
  calc l.length - k = (l.drop k).countP (x ≤ ·) := by
        rw [List.countP_eq_length.mpr (fun y hy => by simpa using rest y hy), List.length_drop]
    _ ≤ l.countP (x ≤ ·) := (List.drop_sublist k l).countP_le

/-- All values from position `k` of a sorted list on are needed to reach more than is at `k`. -/
theorem count_lt_of_sorted {l : List ℕ} (sorted : l.Pairwise (· ≤ ·)) {k x y : ℕ} (at_k : l[k]? = some y) (less : y < x) :
    l.countP (x ≤ ·) < l.length - k := by
  obtain ⟨inside, here⟩ := List.getElem?_eq_some_iff.mp at_k
  have first : (l.take (k + 1)).countP (x ≤ ·) = 0 := by
    rw [List.countP_eq_zero]
    intro z hz
    obtain ⟨j, low, rfl⟩ := List.mem_take_iff_getElem.mp hz
    have := (List.pairwise_iff_getElem.mp sorted) j k (by omega) inside
    rcases Nat.lt_or_ge j k with before | past
    · have := this before
      simp; omega
    · obtain rfl : j = k := by omega
      simp; omega
  have rest := List.countP_le_length (p := (x ≤ ·)) (l := l.drop (k + 1))
  rw [List.length_drop] at rest
  have split : l.countP (x ≤ ·) = (l.take (k + 1)).countP (x ≤ ·) + (l.drop (k + 1)).countP (x ≤ ·) := by
    rw [← List.countP_append, List.take_append_drop]
  omega

/-- **Order statistics.** A list that is sorted first has a value of `x` or more at position `k` just if all but `k`
of its elements reach `x`. -/
theorem le_insertionSort_iff {l : List ℕ} {k x : ℕ} (inside : k < l.length) :
    x ≤ (l.insertionSort (· ≤ ·)).getD k 0 ↔ l.length - k ≤ l.countP (x ≤ ·) := by
  have perm := List.perm_insertionSort (· ≤ ·) l
  have sorted := List.pairwise_insertionSort (· ≤ ·) l
  rw [← perm.length_eq] at inside
  have at_k := List.getElem?_eq_getElem inside
  rw [List.getD_eq_getElem?_getD, at_k, Option.getD_some, ← perm.length_eq, ← perm.countP_eq]
  constructor
  · intro reach
    exact (count_of_sorted sorted at_k).trans (List.countP_mono_left fun z _ hz => by simp at hz ⊢; omega)
  · intro many
    by_contra less
    have := count_lt_of_sorted sorted at_k (Nat.not_le.mp less)
    omega

end Lib
