import Mathlib.Data.List.AList
import Mathlib.Data.Finset.Insert
import MiniRaft.State
import MiniRaft.Lib.Majority

/-!
# The volatile state (`TVolatileState`)

The tables are read with `operator[]`, which finds the default value where nothing was stored, so they are
functions. The keys of `MatchIndex` matter, because `CommitAdvance` runs over them, and reading one with
`operator[]` adds it.
-/

namespace MiniRaft

open Lib

structure TVolatileState where
  commitIndex : ℕ := 0
  commitSeqno : ℕ := 0
  leaderId : ℕ := 0
  nextIndex : ℕ → ℕ := fun _ => 0
  matchIndex : AList (fun _ : ℕ => ℕ) := ∅
  votes : Finset ℕ := ∅
  heartbeatDue : ℕ → Time := fun _ => 0
  rpcDue : ℕ → Time := fun _ => 0
  batchSize : ℕ → ℤ := fun _ => 0
  backOff : ℕ → ℤ := fun _ => 0
  electionDue : Time := 0

namespace TVolatileState

/-- `MatchIndex[id]` as a value. -/
def matchOf (v : TVolatileState) (id : ℕ) : ℕ := (v.matchIndex.lookup id).getD 0

/-- `MatchIndex[id]` as a statement: the key is there afterwards. -/
def touchMatch (v : TVolatileState) (id : ℕ) : TVolatileState :=
  { v with matchIndex := v.matchIndex.insert id (v.matchOf id) }

def vote (v : TVolatileState) (id : ℕ) : TVolatileState := { v with votes := insert id v.votes }

def setElectionDue (v : TVolatileState) (due : Time) : TVolatileState := { v with electionDue := due }

def setNextIndex (v : TVolatileState) (id n : ℕ) : TVolatileState :=
  { v with nextIndex := Function.update v.nextIndex id n }

def setMatchIndex (v : TVolatileState) (id n : ℕ) : TVolatileState :=
  { v with matchIndex := v.matchIndex.insert id n }

def setHearbeatDue (v : TVolatileState) (id : ℕ) (due : Time) : TVolatileState :=
  { v with heartbeatDue := Function.update v.heartbeatDue id due }

def setRpcDue (v : TVolatileState) (id : ℕ) (due : Time) : TVolatileState :=
  { v with rpcDue := Function.update v.rpcDue id due }

def setBatchSize (v : TVolatileState) (id : ℕ) (size : ℤ) : TVolatileState :=
  { v with batchSize := Function.update v.batchSize id size }

def setBackOff (v : TVolatileState) (id : ℕ) (size : ℤ) : TVolatileState :=
  { v with backOff := Function.update v.backOff id size }

def setLeaderId (v : TVolatileState) (id : ℕ) : TVolatileState := { v with leaderId := id }

/-- `SetCommitIndex(int index)`: the argument is an `int`, the field a `uint64_t`. -/
def setCommitIndex (v : TVolatileState) (index : ℕ) : TVolatileState := { v with commitIndex := throughInt index }

/-- `Indices` before sorting: the stored match indices, the own last index, padded with zeros to `nservers`. -/
def indices (v : TVolatileState) (nservers lastIndex : ℕ) : List ℕ :=
  let known := v.matchIndex.entries.map (·.2) ++ [lastIndex]
  known ++ List.replicate (nservers - known.length) 0

/-- `CommitAdvance`. -/
def commitAdvance (v : TVolatileState) (nservers : ℕ) (state : TState) (seqno : ℕ) : TVolatileState :=
  let sorted := (v.indices nservers state.lastLogIndex).insertionSort (· ≤ ·)
  let commitIndex := max v.commitIndex (sorted.getD (nservers / 2) 0)
  if state.logTerm (toInt64 commitIndex) = state.currentTerm then
    { v with commitSeqno := max v.commitSeqno seqno, commitIndex := commitIndex }
  else v

/-- What a leader notes of a peer that has its log up to `index`. -/
def matched (v : TVolatileState) (id index : ℕ) : TVolatileState :=
  let v := (v.setMatchIndex id (max (v.matchOf id) index)).setNextIndex id (u64 (index + 1))
  ((v.setRpcDue id 0).setBatchSize id 1024).setBackOff id 1

/-- What a leader notes of a peer that lacks the previous entry: it goes further back, one entry at least. -/
def steppedBack (v : TVolatileState) (id : ℕ) : TVolatileState :=
  let backOff := max (v.backOff id) 1
  let nextIndex := if backOff.toNat < v.nextIndex id then v.nextIndex id - backOff.toNat else 0
  let v := ((v.setNextIndex id (max 1 nextIndex)).setRpcDue id 0).setBatchSize id 1
  v.setBackOff id (min 32768 (shiftLeft backOff))

@[simp] theorem matchOf_setMatchIndex (v : TVolatileState) (id n x : ℕ) :
    (v.setMatchIndex id n).matchOf x = if x = id then n else v.matchOf x := by
  unfold matchOf setMatchIndex
  split
  · subst x; simp
  · rename_i ne; simp [AList.lookup_insert_ne ne]

@[simp] theorem matchOf_touchMatch (v : TVolatileState) (id x : ℕ) : (v.touchMatch id).matchOf x = v.matchOf x := by
  have := matchOf_setMatchIndex v id (v.matchOf id) x
  rw [show (v.touchMatch id) = v.setMatchIndex id (v.matchOf id) from rfl, this]
  split
  · subst x; rfl
  · rfl

/-- `CommitAdvance` writes two fields. -/
theorem commitAdvance_eq (v : TVolatileState) (n : ℕ) (state : TState) (seqno : ℕ) : ∃ commitSeqno commitIndex,
    v.commitAdvance n state seqno = { v with commitSeqno := commitSeqno, commitIndex := commitIndex } := by
  unfold commitAdvance
  dsimp only
  split
  · exact ⟨_, _, rfl⟩
  · exact ⟨_, _, rfl⟩

theorem votes_commitAdvance (v : TVolatileState) (n : ℕ) (state : TState) (seqno : ℕ) :
    (v.commitAdvance n state seqno).votes = v.votes := by
  obtain ⟨_, _, same⟩ := v.commitAdvance_eq n state seqno
  rw [same]

theorem commitAdvance_cases (v : TVolatileState) (n : ℕ) (state : TState) (seqno : ℕ) :
    (v.commitAdvance n state seqno).commitSeqno = v.commitSeqno ∨
      (v.commitAdvance n state seqno).commitSeqno = max v.commitSeqno seqno ∧
        state.logTerm (toInt64 (v.commitAdvance n state seqno).commitIndex) = state.currentTerm := by
  unfold commitAdvance
  dsimp only
  split
  · rename_i own
    exact .inr ⟨rfl, own⟩
  · exact .inl rfl

theorem mem_touchMatch {v : TVolatileState} {id x : ℕ} (h : x ∈ (v.touchMatch id).matchIndex) :
    x = id ∨ x ∈ v.matchIndex := by simpa [touchMatch] using h

theorem mem_setMatchIndex {v : TVolatileState} {id n x : ℕ} (h : x ∈ (v.setMatchIndex id n).matchIndex) :
    x = id ∨ x ∈ v.matchIndex := by simpa [setMatchIndex] using h

/-- The stored match indices that reach `k`, counted by server. -/
theorem count_matchIndex (v : TVolatileState) (k : ℕ) :
    (v.matchIndex.entries.map (·.2)).countP (k ≤ ·) = (v.matchIndex.keys.toFinset.filter (k ≤ v.matchOf ·)).card := by
  have stored : ∀ e ∈ v.matchIndex.entries, v.matchOf e.1 = e.2 := by
    intro e he
    have : v.matchIndex.lookup e.1 = some e.2 := AList.mem_lookup_iff.mpr he
    rw [matchOf, this]; rfl
  have nodup := v.matchIndex.keys_nodup.filter (decide <| k ≤ v.matchOf ·)
  calc (v.matchIndex.entries.map (·.2)).countP (k ≤ ·)
      = (v.matchIndex.keys.filter (k ≤ v.matchOf ·)).length := by
        rw [← List.countP_eq_length_filter, AList.keys, List.keys, List.countP_map, List.countP_map]
        apply List.countP_congr
        intro e he
        simp [stored e he]
    _ = (v.matchIndex.keys.toFinset.filter (k ≤ v.matchOf ·)).card := by
        rw [← List.toFinset_card_of_nodup nodup, List.toFinset_filter]
        simp

/-- How many servers have reached `k`: those with such a stored match index, and the own server by its last index. -/
def holders (v : TVolatileState) (last k : ℕ) : ℕ :=
  (v.matchIndex.keys.toFinset.filter (k ≤ v.matchOf ·)).card + if k ≤ last then 1 else 0

/-- The padding counts for nothing. -/
theorem count_indices (v : TVolatileState) {n last k : ℕ} (pos : 0 < k) :
    (v.indices n last).countP (k ≤ ·) = v.holders last k := by
  have zeros : ∀ c, (List.replicate c 0).countP (k ≤ ·) = 0 := by
    intro c
    rw [List.countP_eq_zero]
    intro x hx
    simp [List.eq_of_mem_replicate hx]
    omega
  simp only [indices, List.countP_append, zeros, count_matchIndex, Nat.add_zero, holders]
  congr 1
  by_cases own : k ≤ last <;> simp [own]

theorem le_length_indices (v : TVolatileState) (n last : ℕ) : n ≤ (v.indices n last).length := by
  simp only [indices, List.length_append, List.length_replicate]
  omega

/-- **The commit position.** Where the sorted list has a positive `k` at `n / 2`, at least `n - n / 2` servers
have reached `k`: `self` by its own last index, the others by their stored match index. -/
theorem quorum (v : TVolatileState) (self : ℕ) {n last k : ℕ} (pos : 0 < k)
    (at_k : ((v.indices n last).insertionSort (· ≤ ·)).getD (n / 2) 0 = k) (other : self ∉ v.matchIndex) :
    ∃ A : Finset ℕ, n - n / 2 ≤ A.card ∧ ∀ x ∈ A, x = self ∧ k ≤ last ∨ x ∈ v.matchIndex ∧ k ≤ v.matchOf x := by
  have inside : n / 2 < (v.indices n last).length := by
    by_contra past
    rw [List.getD_eq_getElem?_getD, List.getElem?_eq_none (by rw [List.length_insertionSort]; omega)] at at_k
    simp at at_k
    omega
  have many := (le_insertionSort_iff inside).mp at_k.ge
  have long := v.le_length_indices n last
  rw [v.count_indices pos, holders] at many
  have known : ∀ x ∈ v.matchIndex.keys.toFinset.filter (k ≤ v.matchOf ·), x ∈ v.matchIndex ∧ k ≤ v.matchOf x := by
    intro x hx
    obtain ⟨key, le⟩ := Finset.mem_filter.mp hx
    exact ⟨AList.mem_keys.mpr (List.mem_toFinset.mp key), le⟩
  by_cases own : k ≤ last
  · rw [if_pos own] at many
    refine ⟨insert self (v.matchIndex.keys.toFinset.filter (k ≤ v.matchOf ·)), ?_, fun x hx => ?_⟩
    · rw [Finset.card_insert_of_notMem fun hs => other (known self hs).1]
      omega
    · rcases Finset.mem_insert.mp hx with rfl | hx
      · exact .inl ⟨rfl, own⟩
      · exact .inr (known x hx)
  · rw [if_neg own] at many
    exact ⟨v.matchIndex.keys.toFinset.filter (k ≤ v.matchOf ·), by omega, fun x hx => .inr (known x hx)⟩

end TVolatileState

end MiniRaft
