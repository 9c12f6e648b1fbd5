import MiniRaft.Safety

/-!
# Pings and their acknowledgements

A leader numbers its `AppendEntries` requests with `Seqno`, an answer carries the number of its request, and
`CommitAdvance` keeps the greatest one in `CommitSeqno`. A call is said in two parts: `Turns` is what comes before the
`switch` of `Process` or `ProcessTimeout`, and `Emits` is the rest.
-/

namespace MiniRaft

open Lib

/-- An `AppendEntries` request to `d`. -/
def TEffect.IsPing (d term seqno : ℕ) : TEffect → Prop
  | .send dst (.appendEntriesRequest ex _) => dst = d ∧ ex.term = term ∧ ex.seqno = seqno
  | _ => False

/-- A success response to `d`. -/
def TEffect.IsAck (d term seqno : ℕ) : TEffect → Prop
  | .send dst (.appendEntriesResponse ex body) => (dst = d ∧ body.success) ∧ ex.term = term ∧ ex.seqno = seqno
  | _ => False

/-- The message asks for such an acknowledgement. -/
def TMessage.Echoes (d term seqno : ℕ) : TMessage → Prop
  | .appendEntriesRequest ex _ => ex.src = d ∧ ex.term = term ∧ ex.seqno = seqno
  | _ => False

namespace TRaft

def Pinged (r : TRaft) (d term seqno : ℕ) : Prop := ∃ e ∈ r.effects, e.IsPing d term seqno

def Acked (r : TRaft) (d term seqno : ℕ) : Prop := ∃ e ∈ r.effects, e.IsAck d term seqno

/-- What a new effect of a server in state `r` may be, when `echo` says what may be acknowledged and pings have
numbers below `bound`. -/
def Fair (echo : ℕ → ℕ → ℕ → Prop) (r : TRaft) (bound : ℕ) (e : TEffect) : Prop :=
  ∀ d t k, (e.IsPing d t k → r.stateName = .leader ∧ t = r.state.currentTerm ∧ k < bound) ∧
    (e.IsAck d t k → t = r.state.currentTerm ∧ echo d t k)

/-- Messages are sent within the present term. -/
structure Emits (echo : ℕ → ℕ → ℕ → Prop) (r r' : TRaft) : Prop where
  term : r'.state.currentTerm = r.state.currentTerm
  leader : r'.stateName = .leader → r.stateName = .leader
  seqno : r.seqno ≤ r'.seqno
  effects : ∃ es, r'.effects = r.effects ++ es ∧ ∀ e ∈ es, Fair echo r r'.seqno e

variable {echo echo' : ℕ → ℕ → ℕ → Prop} {r r' r'' : TRaft} {delay : UInt32 → ℕ} {now : Time}

namespace Emits

theorem of_same (term : r'.state.currentTerm = r.state.currentTerm) (name : r'.stateName = .leader → r.stateName = .leader)
    (seqno : r'.seqno = r.seqno) (effects : r'.effects = r.effects) : Emits echo r r' :=
  ⟨term, name, seqno.ge, [], by rw [effects, List.append_nil], nofun⟩

theorem refl (r : TRaft) : Emits echo r r := of_same rfl (fun name => name) rfl rfl

theorem volatile (v : TVolatileState) : Emits echo r { r with volatileState := v } :=
  of_same rfl (fun name => name) rfl rfl

theorem trans (h : Emits echo r r') (k : Emits echo r' r'') : Emits echo r r'' := by
  obtain ⟨es, effects, fair⟩ := h.effects
  obtain ⟨fs, effects', fair'⟩ := k.effects
  refine ⟨k.term.trans h.term, fun name => h.leader (k.leader name), h.seqno.trans k.seqno, es ++ fs, ?_, ?_⟩
  · rw [effects', effects, List.append_assoc]
  · intro e he d t n
    rcases List.mem_append.mp he with old | new
    · obtain ⟨ping, ack⟩ := fair e old d t n
      refine ⟨fun is_ping => ?_, ack⟩
      obtain ⟨name, term, low⟩ := ping is_ping
      exact ⟨name, term, low.trans_le k.seqno⟩
    · obtain ⟨ping, ack⟩ := fair' e new d t n
      constructor
      · intro is_ping
        obtain ⟨name, term, low⟩ := ping is_ping
        exact ⟨h.leader name, term.trans h.term, low⟩
      · intro is_ack
        obtain ⟨term, echoes⟩ := ack is_ack
        exact ⟨term.trans h.term, echoes⟩

theorem emit {e : TEffect} (fair : Fair echo r r.seqno e) : Emits echo r (r.emit e) :=
  ⟨rfl, fun name => name, le_rfl, [e], rfl, fun _ he => List.mem_singleton.mp he ▸ fair⟩

theorem fault (cause : Fault) : Emits echo r (r.emit (.fault cause)) := emit fun _ _ _ => ⟨nofun, nofun⟩

theorem stored : Emits echo r r.commit := emit fun _ _ _ => ⟨nofun, nofun⟩

theorem send {d : ℕ} {m : TMessage} (fair : Fair echo r r.seqno (.send d m)) : Emits echo r (r.send d m) := by
  unfold TRaft.send
  split
  · exact emit fair
  · exact fault _

/-- Votes are neither pings nor acknowledgements. -/
theorem sendVote {d : ℕ} {ex : TMessageEx} {body : TRequestVoteResponse} :
    Emits echo r (r.send d (.requestVoteResponse ex body)) := send fun _ _ _ => ⟨nofun, nofun⟩

theorem onRequestVote {ex : TMessageEx} {body : TRequestVoteRequest} :
    Emits echo r (r.onRequestVote delay now ex body) := by
  have taken := r.voting delay now ex body
  generalize r.onRequestVote delay now ex body = r' at taken ⊢
  cases taken with
  | refused => exact sendVote
  | granted =>
    have voted : Emits echo r { r.makeElection delay now with
        state := r.state.withVote r.state.currentTerm body.candidateId } := of_same rfl (fun name => name) rfl rfl
    exact (voted.trans stored).trans sendVote
  | ignored => exact refl r

theorem onRequestVoteResponse {ex : TMessageEx} {body : TRequestVoteResponse} :
    Emits echo r (r.onRequestVoteResponse ex body) := by
  have taken := r.polling ex body
  generalize r.onRequestVoteResponse ex body = r' at taken ⊢
  cases taken with
  | counted => exact volatile _
  | ignored => exact refl r

/-- Only a request of the present term is acknowledged. -/
theorem onAppendEntries {ex : TMessageEx} {body : TAppendEntriesRequest} :
    Emits (fun d t k => TMessage.Echoes d t k (.appendEntriesRequest ex body)) r (r.onAppendEntries delay now ex body) := by
  have answered {n matchIndex : ℕ} {state : TState} {success : Bool} (present : ex.term = r.state.currentTerm)
      (kept : state.currentTerm = r.state.currentTerm) :
      Emits (fun d t k => TMessage.Echoes d t k (.appendEntriesRequest ex body)) r
        ((r.heard delay now body.leaderId n state).send ex.src (r.reply ex matchIndex success)) := by
    have heard : Emits (fun d t k => TMessage.Echoes d t k (.appendEntriesRequest ex body)) r
        (r.heard delay now body.leaderId n state) := of_same kept nofun rfl rfl
    apply heard.trans
    apply send
    intro d t k
    refine ⟨nofun, ?_⟩
    rintro ⟨⟨dst, -⟩, here, number⟩
    exact ⟨here.symm.trans kept.symm, dst, present.trans here, number⟩
  have taken := r.appending delay now ex body
  generalize r.onAppendEntries delay now ex body = r' at taken ⊢
  cases taken with
  | outdated => exact send fun _ _ _ => ⟨nofun, nofun⟩
  | unexpected => exact fault _
  | merged present => exact answered present (TState.replaceAll_fields body.payload body.prevLogIndex r.state).1
  | rejected present => exact answered present rfl

theorem onAppendEntriesResponse {ex : TMessageEx} {body : TAppendEntriesResponse} :
    Emits echo r (r.onAppendEntriesResponse ex body) := by
  have taken := r.responding ex body
  generalize r.onAppendEntriesResponse ex body = r' at taken ⊢
  cases taken with
  | outdated => exact refl r
  | matched => exact volatile _
  | failed => exact volatile _

theorem dispatch {m : TMessage} : Emits (fun d t k => m.Echoes d t k) r (r.dispatch delay now m) := by
  have taken := r.dispatched delay now m
  generalize r.dispatch delay now m = r' at taken ⊢
  cases taken with
  | ignored => exact refl r
  | unknown => exact fault _
  | requestVote ex body => exact onRequestVote
  | vote name ex body => exact onRequestVoteResponse
  | appendEntries ex body => exact onAppendEntries
  | appended name ex body => exact onAppendEntriesResponse

/-- The requests of a leader are numbered in turn. -/
theorem sendAppendEntries (name : r.stateName = .leader) (id : ℕ) : Emits echo r (r.sendAppendEntries id) := by
  have counted : Emits echo r { r with
      seqno := r.seqno + 1
      volatileState := r.volatileState.touchMatch id } := ⟨rfl, fun name => name, Nat.le_succ _, [], by simp, nofun⟩
  refine counted.trans (send fun d t k => ⟨?_, nofun⟩)
  rintro ⟨-, term, number⟩
  exact ⟨name, term.symm, by rw [← number]; exact Nat.lt_succ_self _⟩

theorem leaderTimeout (name : r.stateName = .leader) : Emits echo r (r.leaderTimeout now) := by
  have pinged : Emits echo r (r.leaderTimeout now) ∧ (r.leaderTimeout now).stateName = .leader := by
    apply TRaft.leaderTimeout_rule (P := fun r' => Emits echo r r' ∧ r'.stateName = .leader) _ _ ⟨refl r, name⟩
    · rintro r' p heartbeat rpc - ⟨emits, leads⟩
      have armed (v : TVolatileState) : Emits echo r' ({ r' with volatileState := v }.sendAppendEntries p) :=
        (volatile v).trans (sendAppendEntries (r := { r' with volatileState := v }) leads p)
      exact ⟨emits.trans (armed _), by simpa using leads⟩
    · rintro r' - ⟨emits, leads⟩
      exact ⟨emits.trans (volatile _), leads⟩
  exact pinged.1

theorem candidateTimeout : Emits echo r (r.candidateTimeout now) := by
  apply TRaft.candidateTimeout_rule (P := Emits echo r) _ (refl r)
  intro r' p due _ emits
  have asked (v : TVolatileState) : Emits echo r' ({ r' with volatileState := v }.send p (r'.createVote p)) :=
    (volatile v).trans (send fun _ _ _ => ⟨nofun, nofun⟩)
  exact emits.trans (asked _)

theorem dispatchTimeout : Emits echo r (r.dispatchTimeout now) := by
  have taken := r.ticking now
  generalize r.dispatchTimeout now = r' at taken ⊢
  cases taken with
  | waits => exact refl r
  | stands => exact of_same rfl nofun rfl rfl
  | asks => exact candidateTimeout
  | pings name => exact leaderTimeout name
  | unknown => exact fault _

theorem approveRead (name : r.stateName = .leader) : Emits echo r r.approveRead.2 := by
  have pinged : Emits echo r r.approveRead.2 ∧ r.approveRead.2.stateName = .leader := by
    apply TRaft.approveRead_rule (P := fun r' => Emits echo r r' ∧ r'.stateName = .leader) _ ⟨refl r, name⟩
    rintro r' p - ⟨emits, leads⟩
    exact ⟨emits.trans (sendAppendEntries leads p), by simpa using leads⟩
  exact pinged.1

end Emits

/-- The server has just begun to lead a term. -/
structure Crowned (r r' : TRaft) : Prop where
  before : r.stateName = .candidate ∧ r'.state.currentTerm = r.state.currentTerm ∨
    r.state.currentTerm < r'.state.currentTerm
  commitSeqno : r'.commitSeqno = 0
  due : ∀ p, r'.volatileState.heartbeatDue p = 0

/-- Terms and roles change, and nothing is sent. -/
structure Turns (r r' : TRaft) : Prop where
  seqno : r'.seqno = r.seqno
  effects : ∃ es, r'.effects = r.effects ++ es ∧ ∀ e ∈ es, ∀ d t k, ¬ e.IsPing d t k ∧ ¬ e.IsAck d t k
  leader : r'.stateName = .leader → r' = r ∨ Crowned r r'
  commitSeqno : r'.commitSeqno = r.commitSeqno ∨ r'.commitSeqno = 0

theorem adoptTerm_of_leader {header : Option TMessageEx} (name : (r.adoptTerm delay now header).stateName = .leader) :
    r.adoptTerm delay now header = r := by
  have taken := r.adopting delay now header
  generalize r.adoptTerm delay now header = r' at taken name ⊢
  cases taken with
  | known => rfl
  | armed => cases name
  | running => cases name

namespace Turns

theorem refl (r : TRaft) : Turns r r := ⟨rfl, ⟨[], by simp, nofun⟩, fun _ => .inl rfl, .inl rfl⟩

theorem adoptTerm (header : Option TMessageEx) : Turns r (r.adoptTerm delay now header) := by
  have demoted (t : ℕ) : ∃ es, (r.demoted t).effects = r.effects ++ es ∧
      ∀ e ∈ es, ∀ d t k, ¬ e.IsPing d t k ∧ ¬ e.IsAck d t k :=
    ⟨_, rfl, by simp [TEffect.IsPing, TEffect.IsAck]⟩
  have taken := r.adopting delay now header
  generalize r.adoptTerm delay now header = r' at taken ⊢
  cases taken with
  | known => exact refl r
  | armed => exact ⟨rfl, demoted _, nofun, .inl rfl⟩
  | running => exact ⟨rfl, demoted _, nofun, .inl rfl⟩

/-- What `ProcessTimeout` does before its `switch`. -/
theorem timeout : Turns r
    (let r := if r.electionIsDue now then r.startElection delay now else r
      if r.wins then r.becomeLeader else r) := by
  have crowned {r₁ : TRaft} (before : r.stateName = .candidate ∧ r₁.state.currentTerm = r.state.currentTerm ∨
      r.state.currentTerm < r₁.state.currentTerm) : Crowned r r₁.becomeLeader := ⟨before, rfl, fun _ => rfl⟩
  have started : (r.startElection delay now).seqno = r.seqno ∧
      (r.startElection delay now).effects =
        r.effects ++ [.commit (r.state.withVote (r.state.currentTerm + 1) r.id).toTStateFields] ∧
      (r.startElection delay now).stateName = .candidate ∧ (r.startElection delay now).commitSeqno = 0 ∧
      r.state.currentTerm < (r.startElection delay now).state.currentTerm := by
    rw [TRaft.startElection_eq]
    exact ⟨rfl, rfl, rfl, rfl, Nat.lt_succ_self _⟩
  obtain ⟨seqno, effects, name, zero, later⟩ := started
  have silent : ∃ es, (r.startElection delay now).effects = r.effects ++ es ∧
      ∀ e ∈ es, ∀ d t k, ¬ e.IsPing d t k ∧ ¬ e.IsAck d t k :=
    ⟨_, effects, by simp [TEffect.IsPing, TEffect.IsAck]⟩
  dsimp only
  by_cases due : r.electionIsDue now
  · rw [if_pos due]
    split
    · exact ⟨seqno, silent, fun _ => .inr (crowned (.inr later)), .inr rfl⟩
    · exact ⟨seqno, silent, fun leads => absurd (name.symm.trans leads) (by decide), .inr zero⟩
  · rw [if_neg due]
    split
    · rename_i wins
      rw [TRaft.wins, decide_eq_true_iff] at wins
      have silent : ∃ es, r.becomeLeader.effects = r.effects ++ es ∧
          ∀ e ∈ es, ∀ d t k, ¬ e.IsPing d t k ∧ ¬ e.IsAck d t k :=
        ⟨[], by simp [TRaft.becomeLeader], List.forall_mem_nil _⟩
      exact ⟨rfl, silent, fun _ => .inr (crowned (.inl ⟨wins.1, rfl⟩)), .inr rfl⟩
    · exact refl r

end Turns

/-- A success response of the present term is counted. -/
structure Confirms (term seqno : ℕ) (r r' : TRaft) : Prop where
  leader : r.stateName = .leader
  leads : r'.stateName = .leader
  term : term = r.state.currentTerm
  commitSeqno : r'.commitSeqno = max r.commitSeqno seqno
  own : r'.state.logTerm (toInt64 r'.volatileState.commitIndex) = r'.state.currentTerm

theorem commitSeqno_onAppendEntries {ex : TMessageEx} {body : TAppendEntriesRequest} :
    (r.onAppendEntries delay now ex body).commitSeqno = r.commitSeqno := by
  unfold TRaft.commitSeqno
  have taken := r.appending delay now ex body
  generalize r.onAppendEntries delay now ex body = r' at taken ⊢
  cases taken with
  | outdated => rw [TRaft.volatileState_send]
  | unexpected => rfl
  | merged => rw [TRaft.volatileState_send]; rfl
  | rejected => rw [TRaft.volatileState_send]; rfl

theorem commitSeqno_onRequestVote {ex : TMessageEx} {body : TRequestVoteRequest} :
    (r.onRequestVote delay now ex body).commitSeqno = r.commitSeqno := by
  unfold TRaft.commitSeqno
  have taken := r.voting delay now ex body
  generalize r.onRequestVote delay now ex body = r' at taken ⊢
  cases taken with
  | refused => rw [TRaft.volatileState_send]
  | granted => rw [TRaft.volatileState_send]; rfl
  | ignored => rfl

theorem onAppendEntriesResponse_confirms (name : r.stateName = .leader) {ex : TMessageEx}
    {body : TAppendEntriesResponse} :
    (r.onAppendEntriesResponse ex body).commitSeqno = r.commitSeqno ∨
      body.success ∧ Confirms ex.term ex.seqno r (r.onAppendEntriesResponse ex body) := by
  have taken := r.responding ex body
  generalize r.onAppendEntriesResponse ex body = r' at taken ⊢
  cases taken with
  | outdated => exact .inl rfl
  | matched present success =>
    rcases TVolatileState.commitAdvance_cases (r.volatileState.matched ex.src body.matchIndex) r.nservers r.state
      ex.seqno with idle | ⟨raised, own⟩
    · exact .inl idle
    · exact .inr ⟨success, name, name, present, raised, own⟩
  | failed => exact .inl rfl

theorem commitSeqno_onRequestVoteResponse {ex : TMessageEx} {body : TRequestVoteResponse} :
    (r.onRequestVoteResponse ex body).commitSeqno = r.commitSeqno := by
  have taken := r.polling ex body
  generalize r.onRequestVoteResponse ex body = r' at taken ⊢
  cases taken with
  | counted => rfl
  | ignored => rfl

/-- **`CommitSeqno` is raised by nothing but a success response of the leader's term.** -/
theorem dispatch_confirms {m : TMessage} : (r.dispatch delay now m).commitSeqno = r.commitSeqno ∨
    ∃ ex body, m = .appendEntriesResponse ex body ∧ body.success ∧ Confirms ex.term ex.seqno r (r.dispatch delay now m) := by
  have taken := r.dispatched delay now m
  generalize r.dispatch delay now m = r' at taken ⊢
  cases taken with
  | ignored => exact .inl rfl
  | unknown => exact .inl rfl
  | requestVote ex body => exact .inl commitSeqno_onRequestVote
  | vote name ex body => exact .inl commitSeqno_onRequestVoteResponse
  | appendEntries ex body => exact .inl commitSeqno_onAppendEntries
  | appended name ex body =>
    rcases onAppendEntriesResponse_confirms name with idle | confirms
    · exact .inl idle
    · exact .inr ⟨ex, body, rfl, confirms⟩

theorem commitSeqno_sendAppendEntries (id : ℕ) : (r.sendAppendEntries id).commitSeqno = r.commitSeqno := by
  simp [TRaft.commitSeqno, TVolatileState.touchMatch]

theorem commitSeqno_approveRead : r.approveRead.2.commitSeqno = r.commitSeqno :=
  TRaft.approveRead_rule (P := fun r' => r'.commitSeqno = r.commitSeqno)
    (fun _ same => (commitSeqno_sendAppendEntries _).trans same) rfl

/-- A lone server counts number zero. -/
theorem commitSeqno_timeouts (k : ℕ) : TimeoutInvariant r.nodes fun r' => r'.commitSeqno = k where
  asks _ _ same := by
    unfold TRaft.commitSeqno
    rw [TRaft.volatileState_send]
    exact same
  pings _ _ _ same := (commitSeqno_sendAppendEntries _).trans same
  advances {r'} _ same := by
    rcases r'.volatileState.commitAdvance_cases r'.nservers r'.state 0 with idle | ⟨raised, -⟩
    · exact idle.trans same
    · exact (raised.trans (Nat.max_zero _)).trans same
  fails same := same

theorem commitSeqno_dispatchTimeout : (r.dispatchTimeout now).commitSeqno = r.commitSeqno :=
  (commitSeqno_timeouts r.commitSeqno).dispatchTimeout (fun _ _ => rfl) rfl

theorem seqno_sendAppendEntries_pos (id : ℕ) : 0 < (r.sendAppendEntries id).seqno := by
  rw [TRaft.seqno_sendAppendEntries]
  exact Nat.succ_pos _

/-- A new leader pings at once. -/
theorem leaderTimeout_pings (due : ∀ p, r.volatileState.heartbeatDue p = 0)
    (peers : r.nodes ≠ []) : 0 < (r.leaderTimeout now).seqno := by
  obtain ⟨p, rest, nodes⟩ := List.exists_cons_of_ne_nil peers
  have first : 0 < (r.leaderTimeoutFor now p).seqno := by
    unfold TRaft.leaderTimeoutFor
    dsimp only
    rw [if_pos (.inl (by rw [due]; exact Nat.zero_le _))]
    exact seqno_sendAppendEntries_pos p
  have pinged : 0 < (r.nodes.foldl (TRaft.leaderTimeoutFor now) r).seqno := by
    rw [nodes, List.foldl_cons]
    exact TRaft.heartbeats_rule (P := fun r' => 0 < r'.seqno) (fun _ _ _ _ => seqno_sendAppendEntries_pos _) first
  unfold TRaft.leaderTimeout
  dsimp only
  split
  · exact pinged
  · exact pinged

end TRaft

/-- The call is an `AppendEntries` request that asks for such an acknowledgement. -/
def Call.Echoes (d term seqno : ℕ) : Call → Prop
  | .process _ m => m.Echoes d term seqno
  | _ => False

/-- The call is such an acknowledgement. -/
def Call.Hears (term seqno : ℕ) : Call → Prop
  | .process _ (.appendEntriesResponse ex body) => body.success ∧ ex.term = term ∧ ex.seqno = seqno
  | _ => False

/-- A call in two parts, the first of which ends in `r₁`. -/
structure Counts (call : Call) (r r₁ r' : TRaft) : Prop where
  turns : r.Turns r₁
  emits : TRaft.Emits (fun d t k => call.Echoes d t k) r₁ r'
  confirms : r'.commitSeqno = r₁.commitSeqno ∨ ∃ t k, call.Hears t k ∧ TRaft.Confirms t k r₁ r'
  pings : r.Crowned r₁ → r₁.stateName = .leader → r.nodes ≠ [] → 0 < r'.seqno

theorem TRaft.Crowned.elim {r : TRaft} (crowned : r.Crowned r) (name : r.stateName = .leader) : False := by
  rcases crowned.before with ⟨candidate, -⟩ | later
  · exact nomatch candidate.symm.trans name
  · exact lt_irrefl _ later

/-- **The numbers of one call.** -/
theorem Counts.perform {r : TRaft} {delay : UInt32 → ℕ} {call : Call} (leads : call = .approveRead → r.stateName = .leader) :
    ∃ r₁, Counts call r r₁ (r.perform delay call) := by
  cases call with
  | process now m =>
    refine ⟨r.adoptTerm delay now m.ex?, .adoptTerm _, .dispatch, ?_, fun crowned name => ?_⟩
    · rcases TRaft.dispatch_confirms (r := r.adoptTerm delay now m.ex?) with idle | ⟨ex, body, same, success, confirms⟩
      · exact .inl idle
      · subst same
        exact .inr ⟨_, _, ⟨success, rfl, rfl⟩, confirms⟩
    · have same : r.adoptTerm delay now m.ex? = r := TRaft.adoptTerm_of_leader name
      rw [same] at crowned name
      exact (crowned.elim name).elim
  | processTimeout now =>
    refine ⟨_, .timeout, .dispatchTimeout, .inl TRaft.commitSeqno_dispatchTimeout, fun crowned name peers => ?_⟩
    generalize after : (let r := if r.electionIsDue now then r.startElection delay now else r
      if r.wins then r.becomeLeader else r) = r₁ at crowned name
    have nodes : r₁.nodes = r.nodes := by
      have started : (r.startElection delay now).nodes = r.nodes := by
        rw [TRaft.startElection_eq]
      rw [← after]
      dsimp only
      split
      · split
        · exact started
        · exact started
      · split
        · rfl
        · rfl
    have same : r.perform delay (.processTimeout now) = r₁.leaderTimeout now := by
      change TRaft.dispatchTimeout now _ = _
      rw [after, TRaft.dispatchTimeout, name]
    rw [same]
    exact TRaft.leaderTimeout_pings crowned.due (nodes ▸ peers)
  | append entry =>
    refine ⟨r, .refl r, .of_same rfl (fun name => name) rfl rfl, .inl rfl, fun crowned name => ?_⟩
    exact (crowned.elim name).elim
  | approveRead =>
    refine ⟨r, .refl r, .approveRead (leads rfl), .inl ?_, fun crowned name => (crowned.elim name).elim⟩
    exact TRaft.commitSeqno_approveRead

/-! ## The numbers in a cluster -/

variable {lim : ℕ} {ids : Finset ℕ} {h : History} {c c' : Cluster} {s d t k : ℕ} {r r₁ r' : TRaft} {call : Call}
  {delay : UInt32 → ℕ}

theorem TEffect.IsPing.elim {e : TEffect} (ping : e.IsPing d t k) :
    ∃ ex body, e = .send d (.appendEntriesRequest ex body) ∧ ex.term = t ∧ ex.seqno = k := by
  cases e with
  | send dst m =>
    cases m with
    | appendEntriesRequest ex body =>
      obtain ⟨rfl, term, number⟩ := ping
      exact ⟨ex, body, rfl, term, number⟩
    | _ => cases ping
  | _ => cases ping

theorem Counts.pinged (counts : Counts call r r₁ r') (pinged : r'.Pinged d t k) :
    r.Pinged d t k ∨ r₁.stateName = .leader ∧ t = r₁.state.currentTerm ∧ k < r'.seqno := by
  obtain ⟨es, effects, silent⟩ := counts.turns.effects
  obtain ⟨fs, effects', fair⟩ := counts.emits.effects
  obtain ⟨e, there, ping⟩ := pinged
  rw [effects', effects, List.append_assoc] at there
  rcases List.mem_append.mp there with old | new
  · exact .inl ⟨e, old, ping⟩
  · rcases List.mem_append.mp new with turned | sent
    · exact absurd ping (silent e turned d t k).1
    · exact .inr ((fair e sent d t k).1 ping)

theorem Counts.acked (counts : Counts call r r₁ r') (acked : r'.Acked d t k) :
    r.Acked d t k ∨ t = r₁.state.currentTerm ∧ call.Echoes d t k := by
  obtain ⟨es, effects, silent⟩ := counts.turns.effects
  obtain ⟨fs, effects', fair⟩ := counts.emits.effects
  obtain ⟨e, there, ack⟩ := acked
  rw [effects', effects, List.append_assoc] at there
  rcases List.mem_append.mp there with old | new
  · exact .inl ⟨e, old, ack⟩
  · rcases List.mem_append.mp new with turned | sent
    · exact absurd ack (silent e turned d t k).2
    · exact .inr ((fair e sent d t k).2 ack)

theorem Counts.grows (counts : Counts call r r₁ r') : r.effects <+: r'.effects := by
  obtain ⟨es, effects, -⟩ := counts.turns.effects
  obtain ⟨fs, effects', -⟩ := counts.emits.effects
  exact ⟨es ++ fs, by rw [effects', effects, List.append_assoc]⟩

theorem TRaft.Pinged.mono (pinged : r.Pinged d t k) (grows : r.effects <+: r'.effects) : r'.Pinged d t k :=
  pinged.imp fun _ ⟨there, ping⟩ => ⟨grows.subset there, ping⟩

theorem TRaft.Acked.mono (acked : r.Acked d t k) (grows : r.effects <+: r'.effects) : r'.Acked d t k :=
  acked.imp fun _ ⟨there, ack⟩ => ⟨grows.subset there, ack⟩

/-- A ping comes from the leader of its term. -/
theorem Agrees.pinged (agrees : Agrees lim ids h c) (mem : s ∈ ids) (pinged : (c s).Pinged d t k) :
    h.lead t = some s ∧ t ≤ (c s).state.currentTerm := by
  obtain ⟨e, there, ping⟩ := pinged
  obtain ⟨ex, body, rfl, rfl, -⟩ := ping.elim
  obtain ⟨-, -, batch⟩ := (agrees.sim s mem).sent there
  refine ⟨batch.leads, ?_⟩
  rw [← (agrees.sim s mem).term]
  exact agrees.inv.votes.leadTerm batch.leads

/-- What a call echoes was sent. -/
theorem Agrees.echoes (agrees : Agrees lim ids h c) (enabled : Cluster.Enabled ids c s call) (echoes : call.Echoes d t k) :
    d ∈ ids.erase s ∧ (c d).Pinged s t k := by
  cases call with
  | process now m =>
    cases m with
    | appendEntriesRequest ex body =>
      obtain ⟨rfl, term, number⟩ := echoes
      obtain ⟨x, mem, there⟩ := enabled
      obtain ⟨peer, src, -⟩ := (agrees.sim x mem).sent there
      obtain rfl : ex.src = x := src
      exact ⟨Finset.mem_erase.mpr ⟨(Finset.ne_of_mem_erase peer).symm, mem⟩, _, there, rfl, term, number⟩
    | _ => cases echoes
  | _ => cases echoes

/-- What a call hears was sent. -/
theorem Agrees.hears (agrees : Agrees lim ids h c) (enabled : Cluster.Enabled ids c s call) (hears : call.Hears t k) :
    ∃ y ∈ ids.erase s, (c y).Acked s t k := by
  cases call with
  | process now m =>
    cases m with
    | appendEntriesResponse ex body =>
      obtain ⟨success, term, number⟩ := hears
      obtain ⟨y, mem, there⟩ := enabled
      obtain ⟨peer, -⟩ := (agrees.sim y mem).sent there
      exact ⟨y, Finset.mem_erase.mpr ⟨(Finset.ne_of_mem_erase peer).symm, mem⟩, _, there, ⟨rfl, success⟩, term, number⟩
    | _ => cases hears
  | _ => cases hears

theorem Cluster.Enabled.counts (enabled : Cluster.Enabled ids c s call) (delay : UInt32 → ℕ) :
    ∃ r₁, Counts call (c s) r₁ ((c s).perform delay call) := by
  apply Counts.perform
  intro same
  subst same
  exact enabled

/-- A server that has just begun to lead has not pinged in its term. -/
theorem Agrees.unpinged (agrees : Agrees lim ids h c) (mem : s ∈ ids) (crowned : (c s).Crowned r) :
    ¬ (c s).Pinged d r.state.currentTerm k := by
  intro pinged
  obtain ⟨leads, low⟩ := agrees.pinged mem pinged
  rcases crowned.before with ⟨candidate, same⟩ | later
  · rw [same] at leads
    exact ((agrees.sim s mem).candidate candidate).notYet leads
  · omega

/-- What holds of the numbers in every reachable cluster: those of a leader's requests are used up, only requests
are acknowledged, and a leader has counted no number that it has not used. -/
structure Pinging (ids : Finset ℕ) (c : Cluster) : Prop where
  numbered : ∀ s ∈ ids, (c s).stateName = .leader → ∀ d k, (c s).Pinged d (c s).state.currentTerm k → k < (c s).seqno
  echoed : ∀ y ∈ ids, ∀ d t k, (c y).Acked d t k → d ∈ ids.erase y ∧ (c d).Pinged y t k
  counted : ∀ s ∈ ids, (c s).stateName = .leader → (ids.erase s).Nonempty → (c s).commitSeqno < (c s).seqno

theorem Pinging.start (start : Cluster.Start ids c) : Pinging ids c := by
  refine ⟨fun s mem name => ?_, fun y mem d t k acked => ?_, fun s mem name => ?_⟩
  · obtain ⟨nodes, -, -, new⟩ := start.2 s mem
    rw [new] at name
    cases name
  · obtain ⟨nodes, -, -, new⟩ := start.2 y mem
    rw [new] at acked
    obtain ⟨e, there, -⟩ := acked
    cases there
  · obtain ⟨nodes, -, -, new⟩ := start.2 s mem
    rw [new] at name
    cases name

/-- The effects of every server only grow. -/
theorem Cluster.Step.grows {lim : ℕ} (st : Cluster.Step delay lim ids c c') (x : ℕ) : (c x).effects <+: (c' x).effects := by
  rcases st.reacts x with idle | ⟨-, call, enabled, called⟩ | ⟨-, restarted⟩
  · rw [idle]
  · obtain ⟨r₁, counts⟩ := enabled.counts delay
    rw [called]
    exact counts.grows
  · rw [restarted]
    exact List.prefix_rfl

/-- What one call leaves of the invariant, for the server that was called. -/
theorem Pinging.perform (pinging : Pinging ids c) (agrees : Agrees lim ids h c) (mem : s ∈ ids)
    (enabled : Cluster.Enabled ids c s call) (leads : ((c s).perform delay call).stateName = .leader) :
    (∀ d k, ((c s).perform delay call).Pinged d ((c s).perform delay call).state.currentTerm k →
        k < ((c s).perform delay call).seqno) ∧
      ((ids.erase s).Nonempty → ((c s).perform delay call).commitSeqno < ((c s).perform delay call).seqno) := by
  obtain ⟨r₁, counts⟩ := enabled.counts delay
  have leads₁ := counts.emits.leader leads
  have later := counts.emits.seqno
  rw [counts.emits.term]
  rcases counts.turns.leader leads₁ with same | crowned
  · subst same
    have numbered := pinging.numbered s mem leads₁
    constructor
    · intro d k pinged
      rcases counts.pinged pinged with old | ⟨-, -, low⟩
      · exact (numbered d k old).trans_le later
      · exact low
    · intro peers
      have counted := pinging.counted s mem leads₁ peers
      rcases counts.confirms with idle | ⟨t, k, hears, confirms⟩
      · omega
      · obtain ⟨y, peer, acked⟩ := agrees.hears enabled hears
        obtain ⟨-, pinged⟩ := pinging.echoed y (Finset.mem_of_mem_erase peer) _ _ _ acked
        have low := numbered y k (confirms.term ▸ pinged)
        rw [confirms.commitSeqno]
        omega
  · constructor
    · intro d k pinged
      rcases counts.pinged pinged with old | ⟨-, -, low⟩
      · exact absurd old (agrees.unpinged mem crowned)
      · exact low
    · intro peers
      have nodes : (c s).nodes ≠ [] := by
        intro none
        have := (agrees.sim s mem).peers
        rw [none] at this
        exact peers.ne_empty this.symm
      have pings := counts.pings crowned leads₁ nodes
      rcases counts.confirms with idle | ⟨t, k, hears, confirms⟩
      · rw [idle, crowned.commitSeqno]
        exact pings
      · -- an acknowledgement does not make a leader
        obtain ⟨y, peer, acked⟩ := agrees.hears enabled hears
        obtain ⟨-, pinged⟩ := pinging.echoed y (Finset.mem_of_mem_erase peer) _ _ _ acked
        exact absurd (confirms.term ▸ pinged) (agrees.unpinged mem crowned)

theorem Pinging.step (pinging : Pinging ids c) (agrees : Agrees lim ids h c) (st : Cluster.Step delay lim ids c c') :
    Pinging ids c' := by
  have grows := st.grows
  refine ⟨fun x member name => ?_, fun y member d t k acked => ?_, fun x member name => ?_⟩
  · rcases st.reacts x with idle | ⟨-, call, enabled, called⟩ | ⟨-, restarted⟩
    · rw [idle] at name ⊢
      exact pinging.numbered x member name
    · rw [called] at name ⊢
      exact (pinging.perform agrees member enabled name).1
    · rw [restarted] at name
      cases name
  · suffices old : d ∈ ids.erase y ∧ (c d).Pinged y t k from ⟨old.1, old.2.mono (grows d)⟩
    rcases st.reacts y with idle | ⟨-, call, enabled, called⟩ | ⟨-, restarted⟩
    · rw [idle] at acked
      exact pinging.echoed y member d t k acked
    · rw [called] at acked
      obtain ⟨r₁, counts⟩ := enabled.counts delay
      rcases counts.acked acked with old | ⟨-, echoes⟩
      · exact pinging.echoed y member d t k old
      · exact agrees.echoes enabled echoes
    · rw [restarted] at acked
      exact pinging.echoed y member d t k acked
  · rcases st.reacts x with idle | ⟨-, call, enabled, called⟩ | ⟨-, restarted⟩
    · rw [idle] at name ⊢
      exact pinging.counted x member name
    · rw [called] at name ⊢
      exact (pinging.perform agrees member enabled name).2
    · rw [restarted] at name
      cases name

end MiniRaft
