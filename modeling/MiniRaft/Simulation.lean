import MiniRaft.Cluster
import MiniRaft.Lib.Decided

/-!
# Servers against the abstract history

`Sim` ties one server to a history of terms, votes and leader logs, and `Sound` does the same for a message in
flight. The commit index belongs to the relation only where the logs stay below `2 ^ 31`, because it goes
through an `int`.
-/

namespace MiniRaft

open Lib

/-- The history of a cluster of servers. -/
abbrev History := Hist ℕ TLogEntry

section

variable (lim : ℕ) (ids : Finset ℕ) (h : History)

abbrev Actions (s : ℕ) (h h' : History) : Prop := Evolve (majority ids) TLogEntry.term s h h'

/-- A prefix committed by a term up to `t`. -/
abbrev Decided (t : ℕ) (p : List TLogEntry) : Prop := h.Decided (majority ids) TLogEntry.term t p

/-- An `AppendEntries` request of `x` in term `t` carries a piece of the leader log of `t`. -/
structure Batch (x t : ℕ) (body : TAppendEntriesRequest) : Prop where
  leads : h.lead t = some x
  bound : body.prevLogIndex + body.payload.length ≤ (h.llog t).length
  piece : body.payload = ((h.llog t).drop body.prevLogIndex).take body.payload.length
  prevTerm : body.prevLogTerm = termAt TLogEntry.term (h.llog t) body.prevLogIndex
  commit : lim ≤ 2 ^ 31 → body.leaderCommit ≤ body.prevLogIndex + body.payload.length ∧
    Decided ids h t ((h.llog t).take body.leaderCommit)

/-- What a message from `x` to `d` says is recorded in the history. -/
def Sound (x d : ℕ) : TMessage → Prop
  | .requestVoteRequest ex body => ex.src = x ∧ body.candidateId = x ∧ ∃ l, h.stand x ex.term = some l ∧
      body.lastLogTerm = lastTerm TLogEntry.term l ∧ body.lastLogIndex = l.length
  | .requestVoteResponse ex body => ex.src = x ∧ (body.voteGranted → h.vote x ex.term = some d)
  | .appendEntriesRequest ex body => ex.src = x ∧ Batch lim ids h x ex.term body
  | .appendEntriesResponse ex body => ex.src = x ∧ (body.success → body.matchIndex ≤ h.ack x ex.term)
  | .other => True

structure Candidacy (s : ℕ) (state : TState) (votes : Finset ℕ) : Prop where
  stood : h.stand s state.currentTerm = some state.log
  notYet : h.lead state.currentTerm ≠ some s
  votes : ∀ v ∈ votes, v ∈ ids.erase s ∧ h.vote v state.currentTerm = some s

structure Leadership (s : ℕ) (state : TState) (nextIndex : ℕ → ℕ) (matchIndex : AList fun _ : ℕ => ℕ) : Prop where
  leads : h.lead state.currentTerm = some s
  own : h.ack s state.currentTerm = state.log.length
  keys : ∀ p ∈ matchIndex, p ∈ ids.erase s
  acked : ∀ p, (matchIndex.lookup p).getD 0 ≤ h.ack p state.currentTerm
  next : ∀ p ∈ ids.erase s, 1 ≤ nextIndex p ∧ nextIndex p ≤ state.log.length + 1

/-- Server `s` with the state `r` is what the history says of `s`. -/
structure Sim (s : ℕ) (r : TRaft) : Prop where
  id : r.id = s
  nodup : r.nodes.Nodup
  peers : r.nodes.toFinset = ids.erase s
  term : h.term s = r.state.currentTerm
  log : h.log s = r.state.log
  vote : ∀ c, h.vote s r.state.currentTerm = some c ↔ r.state.votedFor = c ∧ c ≠ 0
  candidate : r.stateName = .candidate → Candidacy ids h s r.state r.volatileState.votes
  leader : r.stateName = .leader →
    Leadership ids h s r.state r.volatileState.nextIndex r.volatileState.matchIndex
  commit : lim ≤ 2 ^ 31 → r.volatileState.commitIndex ≤ r.state.log.length ∧
    Decided ids h r.state.currentTerm (r.state.log.take r.volatileState.commitIndex)
  sent : ∀ {d m}, .send d m ∈ r.effects → d ∈ ids.erase s ∧ Sound lim ids h s d m

end

section

variable {lim : ℕ} {ids : Finset ℕ} {h h' : History} {s x d t : ℕ} {r : TRaft}

theorem Batch.mono {body : TAppendEntriesRequest} (le : h.Le h') (b : Batch lim ids h x t body) :
    Batch lim ids h' x t body := by
  have pre := le.llog t
  have bound := b.bound
  refine {
    leads := le.lead b.leads
    bound := bound.trans pre.length_le
    piece := by rw [piece_of_prefixed pre bound]; exact b.piece
    prevTerm := by rw [b.prevTerm, termAt_of_prefixed pre (by omega)]
    commit := fun small => ?_ }
  obtain ⟨inside, decided⟩ := b.commit small
  refine ⟨inside, ?_⟩
  rw [take_of_prefixed pre (inside.trans bound)]
  exact decided.mono le le_rfl

theorem Sound.mono (le : h.Le h') {m : TMessage} (sound : Sound lim ids h x d m) : Sound lim ids h' x d m := by
  cases m with
  | requestVoteRequest ex body =>
    obtain ⟨src, cand, l, stood, what⟩ := sound
    exact ⟨src, cand, l, le.stand stood, what⟩
  | requestVoteResponse ex body => exact ⟨sound.1, fun granted => le.vote (sound.2 granted)⟩
  | appendEntriesRequest ex body => exact ⟨sound.1, sound.2.mono le⟩
  | appendEntriesResponse ex body => exact ⟨sound.1, fun success => (sound.2 success).trans (le.ack ..)⟩
  | other => trivial

theorem Candidacy.mono {state : TState} {votes : Finset ℕ} (le : h.Le h')
    (lead : ∀ {t}, h'.lead t = some s → h.lead t = some s) (c : Candidacy ids h s state votes) :
    Candidacy ids h' s state votes :=
  ⟨le.stand c.stood, fun leads => c.notYet (lead leads), fun v hv => ⟨(c.votes v hv).1, le.vote (c.votes v hv).2⟩⟩

theorem Leadership.mono {state : TState} {next : ℕ → ℕ} {index : AList fun _ : ℕ => ℕ} (le : h.Le h')
    (own : h'.ack s state.currentTerm = h.ack s state.currentTerm) (l : Leadership ids h s state next index) :
    Leadership ids h' s state next index :=
  { l with leads := le.lead l.leads, own := own.trans l.own, acked := fun p => (l.acked p).trans (le.ack ..) }

/-- What another server does leaves the relation alone. -/
theorem Sim.frame (sim : Sim lim ids h x r) (ev : Evolved (majority ids) TLogEntry.term s h h') (other : x ≠ s) :
    Sim lim ids h' x r where
  id := sim.id
  nodup := sim.nodup
  peers := sim.peers
  term := (ev.frame.term other).trans sim.term
  log := (ev.frame.log other).trans sim.log
  vote c := by rw [ev.frame.vote other]; exact sim.vote c
  candidate name := (sim.candidate name).mono ev.le (ev.frame.lead other)
  leader name := (sim.leader name).mono ev.le (by rw [ev.frame.ack other])
  commit small := ⟨(sim.commit small).1, (sim.commit small).2.mono ev.le le_rfl⟩
  sent m := ⟨(sim.sent m).1, (sim.sent m).2.mono ev.le⟩

end

end MiniRaft
