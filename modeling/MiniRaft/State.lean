import MiniRaft.Messages
import MiniRaft.Machine
import MiniRaft.Lib.Log

/-!
# The stored state (`state.h`)

`TState` is the log with its fields in memory. The cached `lastLogIndex` and `lastLogTerm` carry the proof that
they are those of the log, so that every operation has to restore it.
-/

namespace MiniRaft

open Lib

/-- The fields that `Commit` stores. -/
structure TStateFields where
  currentTerm : ℕ := 1
  votedFor : ℕ := 0
  lastLogIndex : ℕ := 0
  lastLogTerm : ℕ := 0
  deriving DecidableEq, Repr

/-- No `std::vector` holds this many entries. -/
def maxLogSize : ℕ := 2 ^ 63

structure TState extends TStateFields where
  log : List TLogEntry := []
  index_eq : lastLogIndex = log.length := by rfl
  term_eq : lastLogTerm = lastTerm TLogEntry.term log := by rfl
  deriving DecidableEq

namespace TState

/-- The stored state with the given log; the cached fields follow. -/
def ofLog (currentTerm votedFor : ℕ) (log : List TLogEntry) : TState where
  currentTerm := currentTerm
  votedFor := votedFor
  lastLogIndex := log.length
  lastLogTerm := lastTerm TLogEntry.term log
  log := log

/-- `RemoveLast`: `pop_back`, then the cached fields are read off the log again. -/
def removeLast (s : TState) : TState :=
  { s with
    log := s.log.dropLast
    lastLogIndex := s.log.dropLast.length
    lastLogTerm := lastTerm TLogEntry.term s.log.dropLast
    index_eq := rfl
    term_eq := rfl }

/-- `Append`. -/
def append (s : TState) (entry : TLogEntry) : TState :=
  { s with
    log := s.log ++ [entry]
    lastLogIndex := (s.log ++ [entry]).length
    lastLogTerm := entry.term
    index_eq := rfl
    term_eq := (lastTerm_append ..).symm }

/-- `Get`; reading outside the vector is undefined in the source and reads a default entry here. -/
def get (s : TState) (index : ℕ) : TLogEntry := if index = 0 then default else s.log.getD (index - 1) default

/-- `LogTerm`: a negative index (the default argument) stands for the last one. -/
def logTerm (s : TState) (index : ℤ) : ℕ :=
  let index := if index < 0 then (s.lastLogIndex : ℤ) else index
  if index < 1 ∨ (s.lastLogIndex : ℤ) < index then 0 else (s.get index.toNat).term

/-- `CurrentTerm` and `VotedFor` set. -/
def withVote (s : TState) (currentTerm votedFor : ℕ) : TState :=
  { s with currentTerm := currentTerm, votedFor := votedFor }

@[simp] theorem log_withVote (s : TState) (t v : ℕ) : (s.withVote t v).log = s.log := rfl

@[simp] theorem currentTerm_withVote (s : TState) (t v : ℕ) : (s.withVote t v).currentTerm = t := rfl

@[simp] theorem votedFor_withVote (s : TState) (t v : ℕ) : (s.withVote t v).votedFor = v := rfl

@[simp] theorem log_ofLog (t v : ℕ) (log : List TLogEntry) : (ofLog t v log).log = log := rfl

@[simp] theorem log_append (s : TState) (e : TLogEntry) : (s.append e).log = s.log ++ [e] := rfl

@[simp] theorem log_removeLast (s : TState) : s.removeLast.log = s.log.dropLast := rfl

@[simp] theorem currentTerm_append (s : TState) (e : TLogEntry) : (s.append e).currentTerm = s.currentTerm := rfl

@[simp] theorem votedFor_append (s : TState) (e : TLogEntry) : (s.append e).votedFor = s.votedFor := rfl

theorem get_eq_getElem (s : TState) {i : ℕ} (pos : 1 ≤ i) (len : i ≤ s.log.length) :
    s.log[i - 1]? = some (s.get i) := by
  have : i - 1 < s.log.length := by omega
  rw [get, if_neg (by omega)]
  simp [List.getD_eq_getElem?_getD, List.getElem?_eq_getElem this]

/-- Reading `n` entries after index `k` one by one gives the piece of the log. -/
theorem map_get_range (s : TState) {k n : ℕ} (inside : k + n ≤ s.log.length) :
    (List.range' (k + 1) n).map s.get = (s.log.drop k).take n := by
  refine List.ext_getElem? fun j => ?_
  rcases Nat.lt_or_ge j n with low | high
  · have := s.get_eq_getElem (by omega : 1 ≤ k + 1 + j) (by omega)
    simp only [List.getElem?_map, List.getElem?_range' low, Option.map_some, List.getElem?_take, if_pos low,
      List.getElem?_drop, one_mul, ← this]
    congr 1; omega
  · rw [List.getElem?_eq_none (by simpa using high), List.getElem?_eq_none (by simp; omega)]

/-- `LogTerm` of an index below `2 ^ 63` is the term at that index. -/
theorem logTerm_eq (s : TState) {i : ℕ} (h : i < 2 ^ 63) : s.logTerm (toInt64 i) = termAt TLogEntry.term s.log i := by
  rw [toInt64_of_lt h, logTerm]
  simp only [if_neg (by omega : ¬ (i : ℤ) < 0), s.index_eq, Int.toNat_natCast]
  split
  · rename_i out
    rcases out with zero | past
    · obtain rfl : i = 0 := by omega
      rfl
    · rw [termAt_beyond (by omega)]
  · rename_i inside
    have : termAt TLogEntry.term s.log _ = _ := termAt_of_get (s.get_eq_getElem (by omega : 1 ≤ i) (by omega))
    rw [show i - 1 + 1 = i by omega] at this
    exact this.symm

/-- `LogTerm()` is the term of the last entry. -/
theorem logTerm_last (s : TState) : s.logTerm (-1) = lastTerm TLogEntry.term s.log := by
  have : s.logTerm (-1) = s.logTerm (s.log.length : ℤ) := by
    simp only [logTerm, s.index_eq, if_neg (by omega : ¬ (s.log.length : ℤ) < 0)]
    rfl
  rw [this, logTerm, lastTerm]
  simp only [if_neg (by omega : ¬ (s.log.length : ℤ) < 0), s.index_eq, Int.toNat_natCast]
  split
  · rename_i out
    have : s.log.length = 0 := by omega
    rw [this]; rfl
  · rename_i inside
    have : termAt TLogEntry.term s.log _ = _ :=
      termAt_of_get (s.get_eq_getElem (by omega : 1 ≤ s.log.length) le_rfl)
    rw [show s.log.length - 1 + 1 = s.log.length by omega] at this
    exact this.symm

/-- `while (LastLogIndex > n) RemoveLast()`, with as many rounds as the log is long. -/
def removeWhile (n : ℕ) : ℕ → TState → TState
  | 0, s => s
  | rounds + 1, s => if n < s.lastLogIndex then removeWhile n rounds s.removeLast else s

/-- The inner loop of `OnAppendEntries`. -/
def truncate (s : TState) (n : ℕ) : TState := removeWhile n s.lastLogIndex s

theorem removeWhile_spec (n : ℕ) (rounds : ℕ) : ∀ s : TState, s.log.length ≤ n + rounds →
    (removeWhile n rounds s).log = s.log.take n ∧ (removeWhile n rounds s).currentTerm = s.currentTerm ∧
      (removeWhile n rounds s).votedFor = s.votedFor := by
  induction rounds with
  | zero => intro s len; exact ⟨(List.take_of_length_le (show s.log.length ≤ n by omega)).symm, rfl, rfl⟩
  | succ rounds ih =>
    intro s len
    rw [removeWhile]
    split
    · rename_i more
      rw [s.index_eq] at more
      obtain ⟨log, term, voted⟩ := ih s.removeLast (by simp; omega)
      refine ⟨?_, term, voted⟩
      rw [log, log_removeLast, List.dropLast_eq_take, List.take_take, Nat.min_eq_left (by omega)]
    · rename_i done
      rw [s.index_eq] at done
      exact ⟨(List.take_of_length_le (by omega)).symm, rfl, rfl⟩

theorem truncate_spec (s : TState) (n : ℕ) :
    (s.truncate n).log = s.log.take n ∧ (s.truncate n).currentTerm = s.currentTerm ∧
      (s.truncate n).votedFor = s.votedFor :=
  removeWhile_spec n s.lastLogIndex s (by rw [s.index_eq]; omega)

/-- One round of the loop of `OnAppendEntries`: the entry for `index` replaces or extends the log unless the log
has an entry of the same term there. -/
def replace (s : TState) (index : ℕ) (entry : TLogEntry) : TState :=
  if s.logTerm (toInt64 index) ≠ entry.term then (s.truncate (index - 1)).append entry else s

/-- The loop of `OnAppendEntries` over the payload, from the index before it. -/
def replaceAll (index : ℕ) : List TLogEntry → TState → TState
  | [], s => s
  | entry :: payload, s => replaceAll (index + 1) payload (s.replace (index + 1) entry)

theorem replace_fields (s : TState) (index : ℕ) (entry : TLogEntry) :
    (s.replace index entry).currentTerm = s.currentTerm ∧ (s.replace index entry).votedFor = s.votedFor := by
  unfold replace
  split
  · exact (s.truncate_spec (index - 1)).2
  · exact ⟨rfl, rfl⟩

theorem replaceAll_fields (payload : List TLogEntry) : ∀ (index : ℕ) (s : TState),
    (replaceAll index payload s).currentTerm = s.currentTerm ∧ (replaceAll index payload s).votedFor = s.votedFor := by
  induction payload with
  | nil => exact fun _ _ => ⟨rfl, rfl⟩
  | cons entry payload ih =>
    intro index s
    obtain ⟨term, vote⟩ := ih (index + 1) (s.replace (index + 1) entry)
    obtain ⟨term', vote'⟩ := s.replace_fields (index + 1) entry
    exact ⟨term.trans term', vote.trans vote'⟩

end TState

end MiniRaft
