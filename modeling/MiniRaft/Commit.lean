import Mathlib.Order.Bounds.Basic
import MiniRaft.Raft

/-!
# The commit position

The value that `CommitAdvance` reads off the sorted match indices is the greatest index that `n - n / 2` of the `n`
servers have reached. That is more than half of them where `n` is odd, and half of them where `n` is even.
-/

namespace MiniRaft

open Lib

/-- The terms in the log do not decrease, and none is later than the present one. -/
structure TState.Ordered (s : TState) : Prop where
  sorted : (s.log.map (·.term)).Pairwise (· ≤ ·)
  present : ∀ e ∈ s.log, e.term ≤ s.currentTerm

theorem TState.Ordered.termAt_le {s : TState} (ordered : s.Ordered) {i j : ℕ} (le : i ≤ j) (inside : j ≤ s.log.length) :
    termAt TLogEntry.term s.log i ≤ termAt TLogEntry.term s.log j := by
  cases i with
  | zero => exact Nat.zero_le _
  | succ i =>
    obtain ⟨j, rfl⟩ : ∃ k, j = k + 1 := ⟨j - 1, by omega⟩
    have at_i := List.getElem?_eq_getElem (by omega : i < s.log.length)
    have at_j := List.getElem?_eq_getElem (by omega : j < s.log.length)
    rw [termAt_of_get at_i, termAt_of_get at_j]
    rcases Nat.eq_or_lt_of_le le with same | less
    · obtain rfl : i = j := by omega
      exact le_rfl
    · have := List.pairwise_iff_getElem.mp ordered.sorted i j (by simp; omega) (by simp; omega) (by omega)
      simpa using this

theorem TState.Ordered.termAt_le_present {s : TState} (ordered : s.Ordered) (i : ℕ) :
    termAt TLogEntry.term s.log i ≤ s.currentTerm := by
  cases i with
  | zero => exact Nat.zero_le _
  | succ i =>
    rw [termAt_succ]
    cases here : s.log[i]? with
    | none => exact Nat.zero_le _
    | some e => exact ordered.present e (List.mem_of_getElem? here)

/-- The commit index goes up to a position if the entry there is of the present term. -/
def TState.advance (s : TState) (commitIndex position : ℕ) : ℕ :=
  if commitIndex < position ∧ termAt TLogEntry.term s.log position = s.currentTerm then position else commitIndex

theorem TState.le_advance (s : TState) (commitIndex position : ℕ) : commitIndex ≤ s.advance commitIndex position := by
  unfold advance
  split
  · rename_i up
    exact up.1.le
  · exact le_rfl

/-- **Of two positions only the later counts.** -/
theorem TState.Ordered.advance_advance {s : TState} (ordered : s.Ordered) {p q : ℕ} (le : p ≤ q)
    (inside : q ≤ s.log.length) (commitIndex : ℕ) : s.advance (s.advance commitIndex p) q = s.advance commitIndex q := by
  have later := ordered.termAt_le le inside
  have present := ordered.termAt_le_present q
  unfold advance
  split
  · rename_i first
    split
    · rename_i second
      rw [if_pos ⟨by omega, second.2⟩]
    · rename_i stays
      rw [if_pos ⟨by omega, by omega⟩]
      by_contra differs
      exact stays ⟨by omega, by omega⟩
  · rfl

namespace TVolatileState

variable {v v' : TVolatileState} {n last i j : ℕ} {state : TState}

/-- `Indices[nservers / 2]`. -/
def position (v : TVolatileState) (n last : ℕ) : ℕ := ((v.indices n last).insertionSort (· ≤ ·)).getD (n / 2) 0

theorem matchIndex_commitAdvance (v : TVolatileState) (n : ℕ) (state : TState) (seqno : ℕ) :
    (v.commitAdvance n state seqno).matchIndex = v.matchIndex := by
  obtain ⟨_, _, same⟩ := v.commitAdvance_eq n state seqno
  rw [same]

/-- `CommitAdvance` leaves the position where it is. -/
theorem position_commitAdvance (v : TVolatileState) (n last k : ℕ) (state : TState) (seqno : ℕ) :
    (v.commitAdvance n state seqno).position k last = v.position k last := by
  unfold position indices
  rw [matchIndex_commitAdvance]

/-- Match indices of at most `n - 1` peers, none beyond the own log. -/
structure Sized (v : TVolatileState) (n last : ℕ) : Prop where
  peers : v.matchIndex.keys.length + 1 ≤ n
  within : ∀ id, v.matchOf id ≤ last

theorem Sized.length_indices (sized : v.Sized n last) : (v.indices n last).length = n := by
  have := sized.peers
  rw [AList.keys, List.keys, List.length_map] at this
  simp only [indices, List.length_append, List.length_map, List.length_singleton, List.length_replicate]
  omega

/-- **The position.** It is the greatest index that `n - n / 2` servers have reached. -/
theorem Sized.le_position_iff (sized : v.Sized n last) (pos : 0 < i) :
    i ≤ v.position n last ↔ n - n / 2 ≤ v.holders last i := by
  have := sized.peers
  rw [position, le_insertionSort_iff (by rw [sized.length_indices]; omega), sized.length_indices, v.count_indices pos]

/-- What any server has reached is within the own log. -/
theorem Sized.le_last (sized : v.Sized n last) (held : 0 < v.holders last i) : i ≤ last := by
  by_contra beyond
  rw [holders, if_neg beyond, Nat.add_zero, Finset.card_pos] at held
  obtain ⟨id, reached⟩ := held
  exact beyond ((Finset.mem_filter.mp reached).2.trans (sized.within id))

theorem Sized.position_le (sized : v.Sized n last) : v.position n last ≤ last := by
  have := sized.peers
  rcases Nat.eq_zero_or_pos (v.position n last) with zero | pos
  · omega
  · have many := (sized.le_position_iff pos).mp le_rfl
    exact sized.le_last (by omega)

/-- Fewer servers have reached more. -/
theorem holders_anti (le : i ≤ j) : v.holders last j ≤ v.holders last i := by
  unfold holders
  apply Nat.add_le_add
  · apply Finset.card_le_card
    intro id reached
    obtain ⟨key, reach⟩ := Finset.mem_filter.mp reached
    exact Finset.mem_filter.mpr ⟨key, by simpa using le.trans (by simpa using reach)⟩
  · split
    · rw [if_pos (by omega)]
    · exact Nat.zero_le _

theorem mem_of_matchOf {id : ℕ} (pos : 0 < v.matchOf id) : id ∈ v.matchIndex := by
  rw [← AList.lookup_isSome]
  unfold matchOf at pos
  cases stored : v.matchIndex.lookup id with
  | none =>
    rw [stored] at pos
    cases pos
  | some m => rfl

/-- Greater match indices are not reached by fewer servers. -/
theorem holders_mono (grown : ∀ id, v.matchOf id ≤ v'.matchOf id) (pos : 0 < i) :
    v.holders last i ≤ v'.holders last i := by
  unfold holders
  apply Nat.add_le_add_right
  apply Finset.card_le_card
  intro id reached
  have reach : i ≤ v'.matchOf id := (by simpa using (Finset.mem_filter.mp reached).2 : i ≤ v.matchOf id).trans (grown id)
  refine Finset.mem_filter.mpr ⟨List.mem_toFinset.mpr ?_, by simpa using reach⟩
  exact AList.mem_keys.mp (mem_of_matchOf (by omega))

theorem position_mono (sized : v.Sized n last) (sized' : v'.Sized n last) (grown : ∀ id, v.matchOf id ≤ v'.matchOf id) :
    v.position n last ≤ v'.position n last := by
  rcases Nat.eq_zero_or_pos (v.position n last) with zero | pos
  · omega
  · rw [sized'.le_position_iff pos]
    exact ((sized.le_position_iff pos).mp le_rfl).trans (holders_mono grown pos)

/-- **What `CommitAdvance` does to the commit index.** -/
theorem Sized.commitIndex_commitAdvance (sized : v.Sized n state.lastLogIndex) (small : state.log.length < maxLogSize)
    (seqno : ℕ) : (v.commitAdvance n state seqno).commitIndex =
      state.advance v.commitIndex (v.position n state.lastLogIndex) := by
  have same : (v.commitAdvance n state seqno).commitIndex =
      if state.logTerm (toInt64 (max v.commitIndex (v.position n state.lastLogIndex))) = state.currentTerm
      then max v.commitIndex (v.position n state.lastLogIndex) else v.commitIndex := by
    unfold commitAdvance position
    dsimp only
    split <;> rfl
  rw [same, TState.advance]
  have inside := sized.position_le
  rw [state.index_eq] at inside ⊢
  rw [maxLogSize] at small
  rcases Nat.lt_or_ge v.commitIndex (v.position n state.log.length) with up | down
  · rw [Nat.max_eq_right up.le, state.logTerm_eq (by omega)]
    simp only [up, true_and]
  · rw [Nat.max_eq_left down, if_neg (Nat.not_lt.mpr down ∘ And.left), ite_self]

/-- The index is new, most of the servers have it, and its entry is of the present term. -/
def ByMajority (v : TVolatileState) (n : ℕ) (state : TState) (i : ℕ) : Prop :=
  v.commitIndex < i ∧ n / 2 + 1 ≤ v.holders state.lastLogIndex i ∧
    termAt TLogEntry.term state.log i = state.currentTerm

/-- The majority rule: the greatest such index, or the old commit index if there is none. -/
def MajorityRule (v : TVolatileState) (n : ℕ) (state : TState) (commitIndex : ℕ) : Prop :=
  IsGreatest {i | v.ByMajority n state i} commitIndex ∨
    (∀ i, ¬ v.ByMajority n state i) ∧ commitIndex = v.commitIndex

end TVolatileState

/-- **The majority rule of `CommitAdvance`.** It holds for an odd number of servers. For an even number it holds where no
new index of the present term is stored by exactly half of the servers. -/
theorem commit_advance_majority {v : TVolatileState} {n : ℕ} {state : TState} (seqno : ℕ)
    (sized : v.Sized n state.lastLogIndex) (ordered : state.Ordered) (small : state.log.length < maxLogSize) :
    v.MajorityRule n state (v.commitAdvance n state seqno).commitIndex ↔
      n % 2 = 1 ∨ ∀ i, v.commitIndex < i → termAt TLogEntry.term state.log i = state.currentTerm →
        v.holders state.lastLogIndex i ≠ n / 2 := by
  have peers := sized.peers
  rw [sized.commitIndex_commitAdvance small, TState.advance]
  have inside := sized.position_le
  -- an index that at least half of the servers have is not past the position
  have below : ∀ i, v.commitIndex < i → n - n / 2 ≤ v.holders state.lastLogIndex i →
      termAt TLogEntry.term state.log i = state.currentTerm →
      i ≤ v.position n state.lastLogIndex ∧ v.commitIndex < v.position n state.lastLogIndex ∧
        termAt TLogEntry.term state.log (v.position n state.lastLogIndex) = state.currentTerm := by
    intro i new many own
    have reach := (sized.le_position_iff (by omega)).mpr many
    have later := ordered.termAt_le reach (state.index_eq ▸ inside)
    have present := ordered.termAt_le_present (v.position n state.lastLogIndex)
    exact ⟨reach, by omega, by omega⟩
  constructor
  · intro rule
    by_contra! fails
    obtain ⟨even, i, new, own, half⟩ := fails
    obtain ⟨reach, up, last⟩ := below i new (by omega) own
    rw [if_pos ⟨up, last⟩] at rule
    rcases rule with ⟨⟨-, many, -⟩, -⟩ | ⟨-, same⟩
    · have fewer : v.holders state.lastLogIndex (v.position n state.lastLogIndex) ≤ v.holders state.lastLogIndex i :=
        TVolatileState.holders_anti reach
      omega
    · omega
  · intro condition
    split
    · rename_i raised
      obtain ⟨up, own⟩ := raised
      have many := (sized.le_position_iff (by omega)).mp (le_refl (v.position n state.lastLogIndex))
      refine .inl ⟨⟨up, ?_, own⟩, fun i elected => (below i elected.1 (by have := elected.2.1; omega) elected.2.2).1⟩
      rcases condition with odd | never
      · omega
      · have := never _ up own
        omega
    · rename_i kept
      refine .inr ⟨fun i elected => kept ?_, rfl⟩
      exact (below i elected.1 (by have := elected.2.1; omega) elected.2.2).2

/-- A leader in term 1 with one entry, which server 2 has as well. -/
def oneStored : TVolatileState := ({} : TVolatileState).setMatchIndex 2 1

def oneEntry : TState := .ofLog 1 0 [{ term := 1 }]

theorem oneStored_within (id : ℕ) : oneStored.matchOf id ≤ 1 := by
  rw [oneStored, TVolatileState.matchOf_setMatchIndex]
  split
  · exact le_rfl
  · exact Nat.zero_le _

theorem oneEntry_ordered : oneEntry.Ordered := ⟨by decide, by decide⟩

theorem commit_advance_majority_three :
    oneStored.MajorityRule 3 oneEntry (oneStored.commitAdvance 3 oneEntry 0).commitIndex :=
  (commit_advance_majority 0 ⟨by decide, oneStored_within⟩ oneEntry_ordered (by decide)).mpr (.inl (by decide))

/-- Two servers out of four commit. -/
theorem commit_advance_half :
    oneStored.Sized 4 oneEntry.lastLogIndex ∧ oneEntry.Ordered ∧
      ¬ oneStored.MajorityRule 4 oneEntry (oneStored.commitAdvance 4 oneEntry 0).commitIndex := by
  refine ⟨⟨by decide, oneStored_within⟩, oneEntry_ordered, ?_⟩
  have advanced : (oneStored.commitAdvance 4 oneEntry 0).commitIndex = 1 := by decide
  have two : oneStored.holders oneEntry.lastLogIndex 1 = 2 := by decide
  rw [advanced]
  rintro (⟨⟨-, many, -⟩, -⟩ | ⟨-, same⟩)
  · omega
  · cases same

end MiniRaft
