import MiniRaft.Acknowledge
import MiniRaft.Matching

/-!
# Terms along a log

Every log is made of pieces of leader logs, and a leader only adds entries of its own term. So terms do not decrease
along a log, and neither do they along the batches that are cut out of one.
-/

namespace MiniRaft

open Lib

/-- `PrevLogTerm` and then the terms of the payload do not decrease, up to the term of the message. Entries have positive
terms, and index 0, where there is none, has term 0. -/
structure TAppendEntriesRequest.Ordered (term : ℕ) (message : TAppendEntriesRequest) : Prop where
  sorted : (message.prevLogTerm :: message.payload.map (·.term)).Pairwise (· ≤ ·)
  present : ∀ t ∈ message.prevLogTerm :: message.payload.map (·.term), t ≤ term
  positive : ∀ e ∈ message.payload, 1 ≤ e.term
  first : message.prevLogTerm = 0 ↔ message.prevLogIndex = 0

variable {lim : ℕ} {ids : Finset ℕ} {h : History} {c : Cluster} {s x d t : ℕ}

/-- Index 0 is the only one without an entry. -/
theorem Batch.prevTerm_eq_zero_iff {body : TAppendEntriesRequest} (logs : h.Logs TLogEntry.term)
    (batch : Batch lim ids h x t body) : body.prevLogTerm = 0 ↔ body.prevLogIndex = 0 := by
  have bound := batch.bound
  rw [batch.prevTerm]
  constructor
  · intro none
    by_contra pos
    obtain ⟨k, same⟩ := Nat.exists_eq_succ_of_ne_zero pos
    have here : (h.llog t)[k]? = some _ := List.getElem?_eq_getElem (by omega : k < (h.llog t).length)
    rw [same, termAt_of_get here] at none
    have := (logs.llogTerm (List.mem_of_getElem? here)).1
    omega
  · intro zero
    rw [zero, termAt_zero]

/-- A batch of the leader of `t` is a piece of its log, with the term right before. -/
theorem Batch.ordered {body : TAppendEntriesRequest} (logs : h.Logs TLogEntry.term) (batch : Batch lim ids h x t body) :
    body.Ordered t := by
  have before : body.prevLogIndex ≤ (h.llog t).length := (Nat.le_add_right ..).trans batch.bound
  have piece : termAt TLogEntry.term (h.llog t) body.prevLogIndex :: _ = _ :=
    termAt_cons_piece body.payload.length before
  rw [← batch.piece, ← batch.prevTerm] at piece
  have part : (body.prevLogTerm :: body.payload.map (·.term)).Sublist (0 :: (h.llog t).map (·.term)) := by
    rw [piece]
    exact (List.take_sublist ..).trans (List.drop_sublist ..)
  have all : (0 :: (h.llog t).map (·.term)).Pairwise (· ≤ ·) :=
    List.pairwise_cons.mpr ⟨fun _ _ => Nat.zero_le _, logs.pairwise (logs.llogCo t)⟩
  refine ⟨all.sublist part, fun u mem => ?_, fun e mem => ?_, batch.prevTerm_eq_zero_iff logs⟩
  · cases part.subset mem with
    | head => exact Nat.zero_le _
    | tail _ mem =>
      obtain ⟨e, inside, rfl⟩ := List.mem_map.mp mem
      exact (logs.llogTerm inside).2
  · rw [batch.piece] at mem
    exact (logs.llogTerm (List.mem_of_mem_drop (List.mem_of_mem_take mem))).1

theorem Agrees.ordered (agrees : Agrees lim ids h c) (mem : s ∈ ids) :
    (c s).state.Ordered ∧ ∀ e ∈ (c s).state.log, 1 ≤ e.term := by
  have logs := agrees.inv.logs
  have sim := agrees.sim s mem
  have bounded : ∀ e ∈ (c s).state.log, 1 ≤ e.term ∧ e.term ≤ (c s).state.currentTerm := by
    rw [← sim.log, ← sim.term]
    exact fun e mem => logs.logTerm mem
  refine ⟨⟨?_, fun e mem => (bounded e mem).2⟩, fun e mem => (bounded e mem).1⟩
  rw [← sim.log]
  exact logs.pairwise (logs.logCo s)

/-- **A leader counts soundly**: in a reachable cluster its match indices are those of configured peers and within its
log, along which the terms are ordered. -/
theorem Cluster.Reachable.counting {delay : UInt32 → ℕ} (reach : Cluster.Reachable delay maxLogSize ids c) (mem : s ∈ ids)
    (name : (c s).stateName = .leader) : (c s).Counting := by
  obtain ⟨h, agrees⟩ := reach.agrees (by decide) le_rfl
  have sim := agrees.sim s mem
  exact {
    leads := name
    nodup := sim.nodup
    keys := fun id key => sim.mem_nodes.mpr ((sim.leader name).keys id key)
    within := fun id => (agrees.matchOf_le mem name id).trans (c s).state.index_eq.ge
    ordered := (agrees.ordered mem).1
    small := (agrees.good mem).log_lt }

/-- **Terms are ordered**, in every log up to the present term, and in every batch in flight up to the term of the
message. `PrevLogTerm` is 0 exactly where there is no entry before the batch. -/
theorem log_terms_ordered (delay : UInt32 → ℕ) (ids : Finset ℕ) {c : Cluster}
    (reach : Cluster.Reachable delay maxLogSize ids c) :
    (∀ s ∈ ids, (c s).state.Ordered ∧ ∀ e ∈ (c s).state.log, 1 ≤ e.term) ∧
    ∀ d ex body, Cluster.Sent ids c d (.appendEntriesRequest ex body) → body.Ordered ex.term := by
  obtain ⟨h, agrees⟩ := reach.agrees (by decide) le_rfl
  constructor
  · intro s mem
    exact agrees.ordered mem
  · intro d ex body sent
    obtain ⟨x, -, -, batch⟩ := agrees.sent sent
    exact batch.ordered agrees.inv.logs

/-- The first request of server 1 in `acknowledged`. -/
def firstBatch : TMessage := .appendEntriesRequest { src := 1, dst := 2, term := 2 }
  { leaderId := 1, nentries := 1, payload := [{ term := 2, flags := eStub }] }

theorem firstBatch_sent : ∃ c, Cluster.Reachable (fun _ => 5000) maxLogSize [1, 2].toFinset c ∧
    (c 2).state.log.map (·.term) = [2] ∧ Cluster.Sent [1, 2].toFinset c 2 firstBatch := by
  obtain ⟨P, reach, stored, sent⟩ := System.reachable_of_rehearse [1, 2] acknowledged (by decide) (by decide)
    (fun P => (P 2).raft.state.log.map (·.term) = [2] ∧ .send 2 firstBatch ∈ (P 1).raft.effects) (by decide +kernel)
  exact ⟨P.rafts, reach.rafts.mono (by decide), stored, 1, by decide, sent⟩

/-- An entry of term 2 behind index 0. -/
theorem log_terms_ordered_first : ∃ c, Cluster.Reachable (fun _ => 5000) maxLogSize [1, 2].toFinset c ∧
    (c 2).state.log.map (·.term) = [2] ∧ (c 2).state.Ordered ∧
    TAppendEntriesRequest.Ordered 2 { leaderId := 1, nentries := 1, payload := [{ term := 2, flags := eStub }] } := by
  obtain ⟨c, reach, stored, sent⟩ := firstBatch_sent
  obtain ⟨logs, batches⟩ := log_terms_ordered _ _ reach
  exact ⟨c, reach, stored, (logs 2 (by decide)).1, batches 2 _ _ sent⟩

/-- `PrevLogTerm` of a batch that begins the log is 0. -/
theorem log_terms_not_positive : ∃ c, Cluster.Reachable (fun _ => 5000) maxLogSize [1, 2].toFinset c ∧
    ∃ ex body, Cluster.Sent [1, 2].toFinset c 2 (.appendEntriesRequest ex body) ∧
      ¬ ∀ t ∈ body.prevLogTerm :: body.payload.map (·.term), 1 ≤ t := by
  obtain ⟨c, reach, -, sent⟩ := firstBatch_sent
  exact ⟨c, reach, _, _, sent, by decide⟩

end MiniRaft
