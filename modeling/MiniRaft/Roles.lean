import MiniRaft.Peers

/-!
# Roles and the election timer

One server from its construction on, and beside it what it was given since it last started an election. A leader and a
candidate have voted for themselves, so neither grants a vote, and all else that ends a candidacy or a reign sets the
timer.
-/

namespace MiniRaft

/-- The delays that `MakeElection` may draw at `now`: none is zero, and the deadline is below `Max`. -/
def Delays (delay : UInt32 → ℕ) (now : Time) : Prop :=
  ∀ seed, 0 < delay seed ∧ now + milliseconds (delay seed) < Time.max

/-- A message of a peer, which is not about `r` itself as a candidate. -/
def TMessage.FromPeer (r : TRaft) (message : TMessage) : Prop :=
  (∀ ex ∈ message.ex?, ex.src ∈ r.nodes ∧ ex.src ≠ r.id) ∧
    ∀ ex body, message = .requestVoteRequest ex body → body.candidateId ≠ r.id

/-- A server, the time of its last call, and the messages it was given since it last started an election. -/
structure Tenure where
  raft : TRaft
  now : Time := 0
  received : List TMessage := []

namespace Tenure

/-- A call of `Process` or `ProcessTimeout`, which is not earlier than the last one. -/
inductive Step (t : Tenure) : Tenure → Prop where
  | process {delay : UInt32 → ℕ} {now : Time} {message : TMessage} (order : t.now ≤ now) (delays : Delays delay now)
      (peer : message.FromPeer t.raft) :
      Step t { raft := t.raft.process delay now message, now, received := message :: t.received }
  | processTimeout {delay : UInt32 → ℕ} {now : Time} (order : t.now ≤ now) (delays : Delays delay now) :
      Step t { raft := t.raft.processTimeout delay now, now,
               received := if t.raft.electionIsDue now then [] else t.received }

def Run : Tenure → Tenure → Prop := Relation.ReflTransGen Step

end Tenure

/-- A response of `v` that grants a vote for `term`. -/
def Granted (received : List TMessage) (term v : ℕ) : Prop :=
  ∃ ex, .requestVoteResponse ex ⟨true⟩ ∈ received ∧ ex.src = v ∧ ex.term = term

/-- What holds of server `own` in each role. -/
structure Roles (own : ℕ) (received : List TMessage) (r : TRaft) : Prop where
  id : r.id = own
  name : r.stateName ≠ .none
  voted : r.stateName ≠ .follower → r.state.votedFor = own
  leads : r.stateName = .leader → r.volatileState.electionDue = Time.max
  entry : r.stateName = .leader → ∃ e ∈ r.state.log, e.term = r.state.currentTerm
  votes : r.stateName = .candidate → ∀ v ∈ r.volatileState.votes, Granted received r.state.currentTerm v
  armed : r.stateName ≠ .leader → r.volatileState.electionDue < Time.max

namespace Roles

variable {own d : ℕ} {received : List TMessage} {r r' : TRaft} {delay : UInt32 → ℕ} {now : Time} {m : TMessage}

theorem of_follower (id : r.id = own) (name : r.stateName = .follower) (armed : r.volatileState.electionDue < Time.max) :
    Roles own received r where
  id := id
  name none := nomatch name.symm.trans none
  voted other := absurd name other
  leads leads := nomatch name.symm.trans leads
  entry leads := nomatch name.symm.trans leads
  votes stands := nomatch name.symm.trans stands
  armed _ := armed

/-- Only these fields matter. -/
theorem of_same (roles : Roles own received r) (id : r'.id = r.id) (name : r'.stateName = r.stateName)
    (state : r'.state = r.state) (due : r'.volatileState.electionDue = r.volatileState.electionDue)
    (votes : r'.volatileState.votes = r.volatileState.votes) : Roles own received r' where
  id := id.trans roles.id
  name := name ▸ roles.name
  voted := by rw [name, state]; exact roles.voted
  leads := by rw [name, due]; exact roles.leads
  entry := by rw [name, state]; exact roles.entry
  votes := by rw [name, state, votes]; exact roles.votes
  armed := by rw [name, due]; exact roles.armed

theorem send (roles : Roles own received r) : Roles own received (r.send d m) :=
  roles.of_same (TRaft.id_send ..) (TRaft.stateName_send ..) (TRaft.state_send ..) (by rw [TRaft.volatileState_send])
    (by rw [TRaft.volatileState_send])

theorem emit (roles : Roles own received r) (e : TEffect) : Roles own received (r.emit e) :=
  roles.of_same rfl rfl rfl rfl rfl

theorem withVolatile (roles : Roles own received r) {v : TVolatileState}
    (due : v.electionDue = r.volatileState.electionDue) (votes : v.votes = r.volatileState.votes) :
    Roles own received { r with volatileState := v } := roles.of_same rfl rfl rfl due votes

theorem receive (roles : Roles own received r) : Roles own (m :: received) r :=
  { roles with
    votes := fun stands v vote => by
      obtain ⟨ex, there, from_⟩ := roles.votes stands v vote
      exact ⟨ex, List.mem_cons_of_mem _ there, from_⟩ }

/-! ## Messages -/

/-- The timer of a server that steps down runs already, or is set now. -/
theorem adoptTerm (roles : Roles own received r) (delays : Delays delay now) (header : Option TMessageEx) :
    Roles own received (r.adoptTerm delay now header) := by
  have taken := r.adopting delay now header
  generalize r.adoptTerm delay now header = r' at taken ⊢
  cases taken with
  | known => exact roles
  | armed => exact of_follower roles.id rfl (delays _).2
  | running later waits set =>
    refine of_follower roles.id rfl ?_
    by_cases leads : r.stateName = .leader
    · exact absurd (roles.leads leads) set
    · exact roles.armed leads

/-- A vote is granted by followers only. -/
theorem onRequestVote (roles : Roles own received r) (delays : Delays delay now) (ne : own ≠ 0) {ex : TMessageEx}
    {body : TRequestVoteRequest} (other : body.candidateId ≠ own) :
    Roles own received (r.onRequestVote delay now ex body) := by
  have taken := r.voting delay now ex body
  generalize r.onRequestVote delay now ex body = r' at taken ⊢
  cases taken with
  | refused => exact roles.send
  | granted present free fresh =>
    have name : r.stateName = .follower := by
      by_contra name
      have voted := roles.voted name
      rcases free with none | same
      · exact ne (voted.symm.trans none)
      · exact other (same.symm.trans voted)
    have waits : Roles own received { r.makeElection delay now with
        state := r.state.withVote r.state.currentTerm body.candidateId } :=
      of_follower roles.id name (delays _).2
    exact (waits.emit _).send
  | ignored => exact roles

theorem onRequestVoteResponse (roles : Roles own received r) {ex : TMessageEx} {body : TRequestVoteResponse}
    (given : .requestVoteResponse ex body ∈ received) : Roles own received (r.onRequestVoteResponse ex body) := by
  have taken := r.polling ex body
  generalize r.onRequestVoteResponse ex body = r' at taken ⊢
  cases taken with
  | counted granted present =>
    refine { roles with votes := fun stands v vote => ?_ }
    rcases Finset.mem_insert.mp vote with rfl | old
    · obtain ⟨yes⟩ := body
      subst granted
      exact ⟨ex, given, rfl, present⟩
    · exact roles.votes stands v old
  | ignored => exact roles

/-- A request of the present term makes a follower and sets the timer, whatever the role was. -/
theorem onAppendEntries (roles : Roles own received r) (delays : Delays delay now) (ex : TMessageEx)
    (body : TAppendEntriesRequest) : Roles own received (r.onAppendEntries delay now ex body) := by
  have heard (n : ℕ) (state : TState) : Roles own received (r.heard delay now body.leaderId n state) :=
    of_follower roles.id rfl (delays _).2
  have taken := r.appending delay now ex body
  generalize r.onAppendEntries delay now ex body = r' at taken ⊢
  cases taken with
  | outdated => exact roles.send
  | unexpected => exact roles.emit _
  | merged => exact (heard _ _).send
  | rejected => exact (heard _ _).send

theorem advance (roles : Roles own received r) {v : TVolatileState} (due : v.electionDue = r.volatileState.electionDue)
    (votes : v.votes = r.volatileState.votes) (n : ℕ) (state : TState) (seqno : ℕ) :
    Roles own received { r with volatileState := v.commitAdvance n state seqno } := by
  obtain ⟨_, _, same⟩ := v.commitAdvance_eq n state seqno
  rw [same]
  exact roles.withVolatile due votes

theorem onAppendEntriesResponse (roles : Roles own received r) (ex : TMessageEx) (body : TAppendEntriesResponse) :
    Roles own received (r.onAppendEntriesResponse ex body) := by
  have taken := r.responding ex body
  generalize r.onAppendEntriesResponse ex body = r' at taken ⊢
  cases taken with
  | outdated => exact roles
  | matched => exact roles.advance (by rfl) (by rfl) ..
  | failed => exact roles.withVolatile rfl rfl

theorem dispatch (roles : Roles own received r) (delays : Delays delay now) (ne : own ≠ 0)
    (other : ∀ ex body, m = .requestVoteRequest ex body → body.candidateId ≠ own) (given : m ∈ received) :
    Roles own received (r.dispatch delay now m) := by
  have taken := r.dispatched delay now m
  generalize r.dispatch delay now m = r' at taken ⊢
  cases taken with
  | ignored => exact roles
  | unknown => exact roles.emit _
  | requestVote ex body => exact roles.onRequestVote delays ne (other ex body rfl)
  | vote name ex body => exact roles.onRequestVoteResponse given
  | appendEntries ex body => exact roles.onAppendEntries delays ex body
  | appended name ex body => exact roles.onAppendEntriesResponse ex body

theorem process (roles : Roles own received r) (delays : Delays delay now) (ne : own ≠ 0) (peer : m.FromPeer r) :
    Roles own (m :: received) (r.process delay now m) := by
  have other := peer.2
  rw [roles.id] at other
  exact (roles.adoptTerm delays m.ex?).receive.dispatch delays ne other (List.mem_cons_self ..)

/-! ## Timeouts -/

/-- The votes of an earlier election are gone. -/
theorem startElection (roles : Roles own received r) (delays : Delays delay now) :
    Roles own [] (r.startElection delay now) := by
  rw [TRaft.startElection_eq]
  exact {
    id := roles.id
    name := nofun
    voted := fun _ => roles.id
    leads := nofun
    entry := nofun
    votes := fun _ v vote => absurd vote (Finset.notMem_empty v)
    armed := fun _ => (delays _).2 }

/-- The empty entry is one of the present term. -/
theorem becomeLeader (roles : Roles own received r) (wins : r.wins) : Roles own received r.becomeLeader where
  id := roles.id
  name := nofun
  voted _ := by
    have stands := (of_decide_eq_true wins).1
    exact roles.voted (stands ▸ nofun)
  leads _ := rfl
  entry _ := ⟨_, List.mem_append_right _ (List.mem_singleton_self _), rfl⟩
  votes := nofun
  armed other := absurd rfl other

theorem timeouts : TRaft.TimeoutInvariant r.nodes (Roles own received) where
  asks _ _ roles := (roles.withVolatile (by rfl) (by rfl)).send
  pings _ _ _ roles := (roles.of_same (by rfl) (by rfl) (by rfl) (by rfl) (by rfl)).send
  advances _ roles := roles.advance (by rfl) (by rfl) ..
  fails roles := roles.emit _

theorem processTimeout (roles : Roles own received r) (delays : Delays delay now) :
    Roles own (if r.electionIsDue now then [] else received) (r.processTimeout delay now) := by
  apply timeouts.processTimeout
  · intro early
    rw [if_neg early]
    exact roles
  · intro due
    rw [if_pos due]
    exact roles.startElection delays
  · exact fun wins roles => roles.becomeLeader wins

end Roles

namespace Tenure

variable {own : ℕ} {t t' : Tenure}

/-- **One call.** -/
theorem Step.roles (step : Step t t') (ne : own ≠ 0) (roles : Roles own t.received t.raft) :
    Roles own t'.received t'.raft ∧ t'.now < Time.max := by
  cases step with
  | process order delays peer => exact ⟨roles.process delays ne peer, (Nat.le_add_right ..).trans_lt (delays 0).2⟩
  | processTimeout order delays => exact ⟨roles.processTimeout delays, (Nat.le_add_right ..).trans_lt (delays 0).2⟩

theorem Run.roles (run : Run t t') (ne : own ≠ 0) (roles : Roles own t.received t.raft) (early : t.now < Time.max) :
    Roles own t'.received t'.raft ∧ t'.now < Time.max := by
  induction run with
  | refl => exact ⟨roles, early⟩
  | tail _ step ih => exact step.roles ne ih.1

end Tenure

theorem Roles.new (state : TState) (own : ℕ) (nodes : List ℕ) : Roles own [] (.new state own nodes) :=
  of_follower rfl rfl (show 0 < Time.max by decide)

/-- Some time is late enough for the timer of a server that does not lead. -/
theorem Roles.timesOut {own : ℕ} {received : List TMessage} {r : TRaft} {now : Time} (roles : Roles own received r)
    (other : r.stateName ≠ .leader) (early : now < Time.max) :
    ∃ later, now ≤ later ∧ later < Time.max ∧ r.electionIsDue later := by
  refine ⟨max now r.volatileState.electionDue, le_max_left .., max_lt early (roles.armed other), ?_⟩
  refine decide_eq_true ⟨?_, le_max_right ..⟩
  cases name : r.stateName with
  | none => exact absurd name roles.name
  | candidate => exact .inl rfl
  | follower => exact .inr rfl
  | leader => exact absurd name other

/-- **Roles and the election timer.** A leader has voted for itself, has its timer off, and has an entry of its term. A
candidate has voted for itself, and its votes were granted in its term since it started the election. The timer of any
other server than a leader is set, and some time later it runs out. -/
theorem roles_and_timer {state : TState} {own : ℕ} {nodes : List ℕ} {t : Tenure} (ne : own ≠ 0)
    (run : Tenure.Run { raft := .new state own nodes } t) :
    (t.raft.stateName = .leader → t.raft.state.votedFor = own ∧ t.raft.volatileState.electionDue = Time.max ∧
      ∃ e ∈ t.raft.state.log, e.term = t.raft.state.currentTerm) ∧
    (t.raft.stateName = .candidate → t.raft.state.votedFor = own ∧
      ∀ v ∈ t.raft.volatileState.votes, Granted t.received t.raft.state.currentTerm v) ∧
    (t.raft.stateName ≠ .leader → t.raft.volatileState.electionDue ≠ Time.max ∧
      ∃ later, t.now ≤ later ∧ later < Time.max ∧ t.raft.electionIsDue later) := by
  obtain ⟨roles, early⟩ := run.roles ne (.new state own nodes) (show 0 < Time.max by decide)
  refine ⟨fun leads => ⟨?_, roles.leads leads, roles.entry leads⟩, fun stands => ⟨?_, roles.votes stands⟩, fun other => ?_⟩
  · exact roles.voted (leads ▸ nofun)
  · exact roles.voted (stands ▸ nofun)
  · exact ⟨(roles.armed other).ne, roles.timesOut other early⟩

/-- Server 1 of three with the vote of server 2, and after the timeout that follows. -/
theorem roles_and_timer_three : ∃ t t' : Tenure,
    t.raft.stateName = .candidate ∧ t.raft.volatileState.votes = {2} ∧ Granted t.received t.raft.state.currentTerm 2 ∧
    t.raft.volatileState.electionDue ≠ Time.max ∧
    t'.raft.stateName = .leader ∧ t'.raft.state.votedFor = 1 ∧ t'.raft.volatileState.electionDue = Time.max := by
  have delays : Delays (fun _ => 5000) 0 := fun _ => (by decide : 0 < 5000 ∧ 0 + milliseconds 5000 < Time.max)
  have peer : (voteFrom 2).FromPeer campaigner := ⟨fun ex header => by cases header; decide, nofun⟩
  have stands : Tenure.Run { raft := .new {} 1 [2, 3] }
      { raft := campaigner.process (fun _ => 5000) 0 (voteFrom 2), received := [voteFrom 2] } :=
    .tail (.single (.processTimeout le_rfl delays)) (.process le_rfl delays peer)
  have leads := stands.tail (.processTimeout le_rfl delays)
  obtain ⟨-, candidate, other⟩ := roles_and_timer (by decide) stands
  obtain ⟨leader, -, -⟩ := roles_and_timer (by decide) leads
  obtain ⟨voted, off, -⟩ := leader (by decide)
  exact ⟨_, _, by decide, by decide, (candidate (by decide)).2 2 (by decide), (other (by decide)).1, by decide, voted, off⟩

end MiniRaft
