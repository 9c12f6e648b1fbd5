import MiniRaft.Entries
import MiniRaft.Raft

/-!
# Requests to append

What `OnAppendEntries` does with a request of the present term, whatever the log and the payload are and whoever
sent it: to the log, and to the commit index. The leader's log does not come into it.
-/

namespace MiniRaft

open Lib

/-- The request continues the log: it starts at the beginning, or right after an entry that the log has. -/
def TState.Continues (s : TState) (message : TAppendEntriesRequest) : Prop :=
  message.prevLogIndex = 0 ∨
    message.prevLogIndex ≤ s.log.length ∧ termAt TLogEntry.term s.log message.prevLogIndex = message.prevLogTerm

section

variable {s s' : TState} {message : TAppendEntriesRequest}

theorem TState.Continues.inside (continues : s.Continues message) : message.prevLogIndex ≤ s.log.length := by
  rcases continues with zero | ⟨inside, -⟩
  · omega
  · exact inside

theorem TRaft.fitsLog_iff (small : message.prevLogIndex ≤ s.log.length → message.prevLogIndex < 2 ^ 63) :
    TRaft.fitsLog message s ↔ s.Continues message := by
  rw [fitsLog, decide_eq_true_iff, TState.Continues, s.index_eq]
  refine or_congr_right (and_congr_right fun inside => ?_)
  rw [s.logTerm_eq (small inside)]

end

namespace TRaft

variable {delay : UInt32 → ℕ} {now : Time} {ex : TMessageEx} {message : TAppendEntriesRequest} {r : TRaft}

/-- The log after a request of the present term. -/
theorem log_of_present (present : ex.term = r.state.currentTerm) :
    (r.onAppendEntries delay now ex message).state.log =
      if fitsLog message r.state then (r.state.replaceAll message.prevLogIndex message.payload).log else r.state.log := by
  split
  · rename_i fits
    rw [onAppendEntries_fits present fits, state_send]
    rfl
  · rename_i fits
    rw [onAppendEntries_rejects present fits, state_send]
    rfl

/-- A request of which nothing clashes leaves the log alone, whether it continues the log or not. -/
theorem log_of_held (present : ex.term = r.state.currentTerm)
    (small : message.prevLogIndex + message.payload.length < 2 ^ 63)
    (fits : ∀ j, ¬ r.state.Clashes message.prevLogIndex message.payload j) :
    (r.onAppendEntries delay now ex message).state.log = r.state.log := by
  rw [log_of_present present]
  split
  · rw [TState.replaceAll_fits message.payload small fits]
  · rfl

/-- A request that does not continue the log leaves it alone. -/
theorem log_of_apart (present : ex.term = r.state.currentTerm) (small : r.state.log.length < 2 ^ 63)
    (apart : ¬ r.state.Continues message) : (r.onAppendEntries delay now ex message).state.log = r.state.log := by
  rw [log_of_present present, if_neg]
  rwa [fitsLog_iff fun inside => inside.trans_lt small]

/-- A request that continues the log leaves a log that has its payload. -/
theorem onAppendEntries_holds (present : ex.term = r.state.currentTerm) (continues : r.state.Continues message)
    (terms : ∀ e ∈ message.payload, 1 ≤ e.term) (room : r.state.log.length + message.payload.length < 2 ^ 63) :
    r.state.log.take message.prevLogIndex <+: (r.onAppendEntries delay now ex message).state.log ∧
    (∀ j, ¬ (r.onAppendEntries delay now ex message).state.Clashes message.prevLogIndex message.payload j) ∧
    message.prevLogIndex + message.payload.length ≤ (r.onAppendEntries delay now ex message).state.log.length := by
  have inside := continues.inside
  have fits : fitsLog message r.state := (fitsLog_iff (by omega)).mpr continues
  have log : (r.onAppendEntries delay now ex message).state.log =
      (r.state.replaceAll message.prevLogIndex message.payload).log := by rw [log_of_present present, if_pos fits]
  have held : r.state.log.take message.prevLogIndex <+: (r.onAppendEntries delay now ex message).state.log :=
    log ▸ TState.take_replaceAll message.payload le_rfl
  have holds : ∀ j, ¬ (r.onAppendEntries delay now ex message).state.Clashes message.prevLogIndex message.payload j := by
    unfold TState.Clashes
    rw [log]
    exact TState.replaceAll_holds message.payload (by omega) inside terms
  have reach := held.length_le
  rw [List.length_take, Nat.min_eq_left inside] at reach
  exact ⟨held, holds, TState.length_of_not_clashes reach holds⟩

end TRaft

/-- **The merge of an `AppendEntries` request.** A request of the present term that continues the log keeps the log up
to `PrevLogIndex`. The log is cut before the first clash and goes on with the payload from there; without a clash it is
left alone. Any other request leaves the log alone. The same request again, in the same term and on the same log,
changes nothing. -/
theorem append_entries_merge (delay : UInt32 → ℕ) (now : Time) {ex : TMessageEx} {message : TAppendEntriesRequest}
    {r : TRaft} (present : ex.term = r.state.currentTerm) (terms : ∀ e ∈ message.payload, 1 ≤ e.term)
    (room : r.state.log.length + message.payload.length < maxLogSize) :
    let after := r.onAppendEntries delay now ex message
    let prev := message.prevLogIndex
    let n := message.payload.length
    (r.state.Continues message →
      after.state.log.take prev = r.state.log.take prev ∧
      (∀ k, r.state.Clashes prev message.payload k → (∀ j < k, ¬ r.state.Clashes prev message.payload j) →
        after.state.log = r.state.log.take (prev + k) ++ message.payload.drop k) ∧
      ((∀ k, ¬ r.state.Clashes prev message.payload k) → after.state.log = r.state.log) ∧
      after.effects = (r.send ex.src (r.reply ex (prev + n) true)).effects ∧ prev + n ≤ after.state.lastLogIndex) ∧
    (¬ r.state.Continues message →
      after.state.log = r.state.log ∧ after.effects = (r.send ex.src (r.reply ex 0 false)).effects) ∧
    ∀ (again : TRaft) (later : Time), again.state.log = after.state.log → again.state.currentTerm = ex.term →
      (again.onAppendEntries delay later ex message).state.log = again.state.log := by
  unfold maxLogSize at room
  dsimp only
  by_cases continues : r.state.Continues message
  · have inside := continues.inside
    have fits : TRaft.fitsLog message r.state := (TRaft.fitsLog_iff (by omega)).mpr continues
    generalize merged : r.onAppendEntries delay now ex message = after
    have log : after.state.log = (r.state.replaceAll message.prevLogIndex message.payload).log := by
      rw [← merged, TRaft.log_of_present present, if_pos fits]
    obtain ⟨held, holds, reach⟩ : r.state.log.take message.prevLogIndex <+: after.state.log ∧
        (∀ j, ¬ after.state.Clashes message.prevLogIndex message.payload j) ∧
        message.prevLogIndex + message.payload.length ≤ after.state.log.length := by
      rw [← merged]
      exact TRaft.onAppendEntries_holds present continues terms room
    refine ⟨fun _ => ⟨?_, fun k clash first => ?_, fun fits => ?_, ?_, ?_⟩, fun not => absurd continues not, ?_⟩
    · rw [take_of_prefixed held (by rw [List.length_take, Nat.min_eq_left inside]), List.take_take, Nat.min_self]
    · rw [log, TState.replaceAll_clash message.payload terms (by omega) inside first clash]
    · rw [log, TState.replaceAll_fits message.payload (by omega) fits]
    · rw [← merged, TRaft.onAppendEntries_fits present fits, TRaft.effects_send, TRaft.effects_send]
      rfl
    · rw [after.state.index_eq]
      exact reach
    · intro again later same term
      apply TRaft.log_of_held term.symm (by omega)
      unfold TState.Clashes at holds ⊢
      rwa [same]
  · have apart : (r.onAppendEntries delay now ex message).state.log = r.state.log :=
      TRaft.log_of_apart present (by omega) continues
    refine ⟨fun met => absurd met continues, fun _ => ⟨apart, ?_⟩, fun again later same term => ?_⟩
    · rw [TRaft.onAppendEntries_rejects present, TRaft.effects_send, TRaft.effects_send]
      · rfl
      · rwa [TRaft.fitsLog_iff (by omega)]
    · have same : again.state.log = r.state.log := same.trans apart
      apply TRaft.log_of_apart term.symm (by rw [same]; omega)
      unfold TState.Continues at continues ⊢
      rwa [same]

/-- A server in term 3 with entries of the terms 1, 1, 2 and 2. -/
def conflicted : TRaft where
  id := 2
  nodes := [1]
  state := .ofLog 3 0 [{ term := 1 }, { term := 1 }, { term := 2 }, { term := 2 }]

/-- The second entry of the payload clashes: the log becomes 1, 1, 3. -/
theorem append_entries_merge_conflict :
    let request : TAppendEntriesRequest :=
      { prevLogIndex := 1, prevLogTerm := 1, leaderId := 1, payload := [{ term := 1 }, { term := 3 }] }
    (conflicted.onAppendEntries (fun _ => 5000) 0 { src := 1, dst := 2, term := 3 } request).state.log =
      [{ term := 1 }, { term := 1 }] ++ [{ term := 3 }] := by
  intro request
  have present : ({ src := 1, dst := 2, term := 3 } : TMessageEx).term = conflicted.state.currentTerm := rfl
  have terms : ∀ e ∈ request.payload, 1 ≤ e.term := by decide
  have merge := append_entries_merge (fun _ => 5000) 0 present terms (by decide)
  obtain ⟨-, cut, -⟩ := merge.1 (.inr ⟨by decide, by decide⟩)
  apply cut 1 ⟨{ term := 3 }, rfl, .inr (by decide)⟩
  intro j first
  obtain rfl : j = 0 := by omega
  rintro ⟨e, get, beyond | differs⟩
  · revert beyond
    decide
  · cases get
    exact differs (by decide)

/-! ## The commit index -/

namespace TRaft

variable {delay : UInt32 → ℕ} {now : Time} {ex : TMessageEx} {message : TAppendEntriesRequest} {r r' : TRaft}

/-- The commit index that the server should have after the request. -/
def nextCommit (message : TAppendEntriesRequest) (r : TRaft) : ℕ :=
  if fitsLog message r.state then max r.volatileState.commitIndex message.leaderCommit else r.volatileState.commitIndex

/-- That commit index is the value of an `int`. -/
def CommitFitsInt (message : TAppendEntriesRequest) (r : TRaft) : Prop :=
  r.nextCommit message < 2 ^ 31 ∨ 2 ^ 64 - 2 ^ 31 ≤ r.nextCommit message

theorem commitIndex_onAppendEntries (delay : UInt32 → ℕ) (now : Time) (message : TAppendEntriesRequest)
    (present : ex.term = r.state.currentTerm) :
    (r.onAppendEntries delay now ex message).volatileState.commitIndex = throughInt (r.nextCommit message) := by
  unfold nextCommit
  split
  · rename_i fits
    rw [onAppendEntries_fits present fits, volatileState_send]
    rfl
  · rename_i fits
    rw [onAppendEntries_rejects present fits, volatileState_send]
    rfl

/-- Requests of the present term that satisfy `ok`, one after the other. -/
inductive Fed (delay : UInt32 → ℕ) (ok : TRaft → TAppendEntriesRequest → Prop) :
    TRaft → List TAppendEntriesRequest → TRaft → Prop where
  | nil (r : TRaft) : Fed delay ok r [] r
  | cons (now : Time) {ex : TMessageEx} {message : TAppendEntriesRequest} {requests : List TAppendEntriesRequest}
      {r r' : TRaft} (present : ex.term = r.state.currentTerm) (fits : ok r message)
      (rest : Fed delay ok (r.onAppendEntries delay now ex message) requests r') : Fed delay ok r (message :: requests) r'

/-- It is the commit index of before, or the one that was sent. -/
theorem nextCommit_cases (message : TAppendEntriesRequest) (r : TRaft) :
    r.volatileState.commitIndex ≤ r.nextCommit message ∧
      (r.nextCommit message = r.volatileState.commitIndex ∨ r.nextCommit message = message.leaderCommit) := by
  unfold nextCommit
  split
  · exact ⟨le_max_left .., max_choice ..⟩
  · exact ⟨le_rfl, .inl rfl⟩

/-- Over a sequence of requests the commit index does not decrease, and it is one that was held or sent. -/
theorem Fed.commitIndex {requests : List TAppendEntriesRequest}
    (fed : Fed delay (fun r m => r.CommitFitsInt m) r requests r') (held : r.volatileState.commitIndex < 2 ^ 64)
    (sent : ∀ m ∈ requests, m.leaderCommit < 2 ^ 64) :
    r.volatileState.commitIndex ≤ r'.volatileState.commitIndex ∧
      r'.volatileState.commitIndex ∈ r.volatileState.commitIndex :: requests.map (·.leaderCommit) := by
  induction fed with
  | nil r => exact ⟨le_rfl, List.mem_cons_self ..⟩
  | @cons now ex message requests r r' present fits rest ih =>
    have first := sent message (List.mem_cons_self ..)
    obtain ⟨step, origin⟩ := nextCommit_cases message r
    have small : r.nextCommit message < 2 ^ 64 := by omega
    have stored := commitIndex_onAppendEntries delay now message present
    rw [(throughInt_eq_iff small).mpr fits] at stored
    obtain ⟨grown, member⟩ := ih (stored ▸ small) fun m hm => sent m (List.mem_cons_of_mem _ hm)
    rw [stored] at grown member
    refine ⟨step.trans grown, ?_⟩
    rcases List.mem_cons.mp member with same | later
    · rcases origin with old | new
      · exact List.mem_cons.mpr (.inl (same.trans old))
      · exact List.mem_cons_of_mem _ (List.mem_map.mpr ⟨message, List.mem_cons_self .., (same.trans new).symm⟩)
    · exact List.mem_cons_of_mem _ (List.mem_cons_of_mem _ later)

end TRaft

/-- **The commit index of a follower.** It is computed without loss exactly where the value to be stored is that of an
`int`, and over requests of that kind it only grows, to values that were held or sent. -/
theorem follower_commit_index (delay : UInt32 → ℕ) {r : TRaft} (held : r.volatileState.commitIndex < 2 ^ 64) :
    (∀ (now : Time) (ex : TMessageEx) (message : TAppendEntriesRequest), ex.term = r.state.currentTerm →
      message.leaderCommit < 2 ^ 64 →
      ((r.onAppendEntries delay now ex message).volatileState.commitIndex =
        (if TRaft.fitsLog message r.state then max r.volatileState.commitIndex message.leaderCommit
          else r.volatileState.commitIndex) ↔ r.CommitFitsInt message)) ∧
    ∀ (requests : List TAppendEntriesRequest) (r' : TRaft), TRaft.Fed delay (fun r m => r.CommitFitsInt m) r requests r' →
      (∀ m ∈ requests, m.leaderCommit < 2 ^ 64) →
      r.volatileState.commitIndex ≤ r'.volatileState.commitIndex ∧
        r'.volatileState.commitIndex ∈ r.volatileState.commitIndex :: requests.map (·.leaderCommit) := by
  refine ⟨fun now ex message present sent => ?_, fun requests r' fed sent => fed.commitIndex held sent⟩
  have small : r.nextCommit message < 2 ^ 64 := by
    obtain ⟨-, old | new⟩ := TRaft.nextCommit_cases message r
    · omega
    · omega
  rw [TRaft.commitIndex_onAppendEntries delay now message present]
  exact throughInt_eq_iff small

/-- A follower with an empty log, in term 1. -/
def emptyFollower : TRaft where
  id := 2
  nodes := [1]
  state := .ofLog 1 0 []

theorem follower_commit_index_seven :
    (emptyFollower.onAppendEntries (fun _ => 5000) 0 { src := 1, dst := 2, term := 1 }
      { leaderCommit := 7, leaderId := 1 }).volatileState.commitIndex = max 0 7 :=
  ((follower_commit_index (fun _ => 5000) (r := emptyFollower) (by decide)).1 0 _ { leaderCommit := 7, leaderId := 1 } rfl
    (by decide)).mpr (.inl (by decide))

/-- `2 ^ 31` is read as a negative `int`. -/
theorem follower_commit_index_jumps :
    let request : TAppendEntriesRequest := { leaderCommit := 2 ^ 31, leaderId := 1 }
    let after := emptyFollower.onAppendEntries (fun _ => 5000) 0 { src := 1, dst := 2, term := 1 } request
    TRaft.fitsLog request emptyFollower.state ∧
      after.volatileState.commitIndex ≠ max emptyFollower.volatileState.commitIndex request.leaderCommit ∧
      after.volatileState.commitIndex = 2 ^ 64 - 2 ^ 31 := by
  decide

end MiniRaft
