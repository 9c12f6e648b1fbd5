import MiniRaft.System

/-!
# Timers

How far ahead of the clock the timers of a server may be. A leader does not wait for an election, and sets the timer again
when it steps down.
-/

namespace MiniRaft

/-- The call is made at `t` at the latest. -/
def Request.By (t : Time) : Request → Prop
  | .process now _ | .processTimeout now => now ≤ t
  | _ => True

instance (t : Time) (request : Request) : Decidable (request.By t) :=
  match request with
  | .process now _ | .processTimeout now => inferInstanceAs (Decidable (now ≤ t))
  | .append _ | .onCommandRequest .. | .onCommandResponse _ | .checkStateChange | .processCommitted | .processWaiting
  | .cleanUp _ => inferInstanceAs (Decidable True)

/-- What is done to a server is done at `t` at the latest. -/
def System.Label.By (t : Time) : System.Label → Prop
  | .call _ request => request.By t
  | .restart _ => True

instance (t : Time) (label : System.Label) : Decidable (label.By t) :=
  match label with
  | .call _ request => inferInstanceAs (Decidable (request.By t))
  | .restart _ => inferInstanceAs (Decidable True)

namespace TRaft

/-- At time `t` no timer is further ahead than it is ever set, but that of a leader. -/
structure Timed (wait : ℕ) (t : Time) (r : TRaft) : Prop where
  election : r.volatileState.electionDue ≤ t + milliseconds wait ∨
    r.stateName = .leader ∧ r.volatileState.electionDue = Time.max
  heartbeat : ∀ id, r.volatileState.heartbeatDue id ≤ t + milliseconds (TTimeout.election / 2)

variable {wait : ℕ} {t t' now : Time} {r r' : TRaft} {delay : UInt32 → ℕ}

namespace Timed

theorem mono (timed : Timed wait t r) (le : t ≤ t') : Timed wait t' r where
  election := timed.election.imp_left fun due => due.trans (Nat.add_le_add_right le _)
  heartbeat id := (timed.heartbeat id).trans (Nat.add_le_add_right le _)

theorem of_same (timed : Timed wait t r) (name : r'.stateName = r.stateName)
    (due : r'.volatileState.electionDue = r.volatileState.electionDue)
    (beats : r'.volatileState.heartbeatDue = r.volatileState.heartbeatDue) : Timed wait t r' where
  election := by rw [name, due]; exact timed.election
  heartbeat := by rw [beats]; exact timed.heartbeat

theorem send (timed : Timed wait t r) {d : ℕ} {m : TMessage} : Timed wait t (r.send d m) :=
  timed.of_same (stateName_send ..) (by rw [volatileState_send]) (by rw [volatileState_send])

theorem emit (timed : Timed wait t r) (e : TEffect) : Timed wait t (r.emit e) := timed.of_same rfl rfl rfl

theorem new (state : TState) (node : ℕ) (nodes : List ℕ) : Timed wait t (.new state node nodes) :=
  ⟨.inl (Nat.zero_le _), fun _ => Nat.zero_le _⟩

/-- The election timer is set, and the others are as they were. -/
theorem armed (timed : Timed wait t r) (le : now ≤ t) {ms : ℕ} (short : ms ≤ wait)
    (due : r'.volatileState.electionDue = now + milliseconds ms)
    (beats : r'.volatileState.heartbeatDue = r.volatileState.heartbeatDue) : Timed wait t r' where
  election := .inl (due ▸ Nat.add_le_add le (Nat.mul_le_mul_left _ short))
  heartbeat := by rw [beats]; exact timed.heartbeat

section

variable (delays : ∀ seed, delay seed ≤ wait) (le : now ≤ t)

include delays le

theorem adoptTerm (timed : Timed wait t r) (header : Option TMessageEx) : Timed wait t (r.adoptTerm delay now header) := by
  have taken := r.adopting delay now header
  generalize r.adoptTerm delay now header = r' at taken ⊢
  cases taken with
  | known => exact timed
  | armed => exact timed.armed le (delays _) rfl rfl
  | running later waits set => exact ⟨.inl (timed.election.resolve_right fun leads => set leads.2), timed.heartbeat⟩

theorem dispatch (timed : Timed wait t r) (m : TMessage) : Timed wait t (r.dispatch delay now m) := by
  have taken := r.dispatched delay now m
  generalize r.dispatch delay now m = r' at taken ⊢
  cases taken with
  | ignored => exact timed
  | unknown => exact timed.emit _
  | requestVote ex body =>
    have taken := r.voting delay now ex body
    generalize r.onRequestVote delay now ex body = r' at taken ⊢
    cases taken with
    | refused => exact timed.send
    | granted =>
      have voted : Timed wait t { r.makeElection delay now with
          state := r.state.withVote r.state.currentTerm body.candidateId } := timed.armed le (delays _) rfl rfl
      exact (voted.emit _).send
    | ignored => exact timed
  | vote name ex body =>
    have taken := r.polling ex body
    generalize r.onRequestVoteResponse ex body = r' at taken ⊢
    cases taken with
    | counted => exact timed.of_same rfl rfl rfl
    | ignored => exact timed
  | appendEntries ex body =>
    have heard (n : ℕ) (state : TState) : Timed wait t (r.heard delay now body.leaderId n state) :=
      timed.armed le (delays _) rfl rfl
    have taken := r.appending delay now ex body
    generalize r.onAppendEntries delay now ex body = r' at taken ⊢
    cases taken with
    | outdated => exact timed.send
    | unexpected => exact timed.emit _
    | merged => exact (heard _ _).send
    | rejected => exact (heard _ _).send
  | appended name ex body =>
    have taken := r.responding ex body
    generalize r.onAppendEntriesResponse ex body = r' at taken ⊢
    cases taken with
    | outdated => exact timed
    | matched =>
      obtain ⟨_, _, same⟩ := (r.volatileState.matched ex.src body.matchIndex).commitAdvance_eq r.nservers r.state ex.seqno
      rw [same]
      exact timed.of_same rfl rfl rfl
    | failed => exact timed.of_same rfl rfl rfl

theorem process (timed : Timed wait t r) (m : TMessage) : Timed wait t (r.process delay now m) :=
  (timed.adoptTerm delays le m.ex?).dispatch delays le m

omit delays

theorem leaderTimeout (timed : Timed wait t r) : Timed wait t (r.leaderTimeout now) := by
  have pinged : Timed wait t (r.nodes.foldl (leaderTimeoutFor now) r) := by
    apply List.foldlRecOn (motive := Timed wait t) r.nodes _ timed
    intro r' timed id _
    unfold leaderTimeoutFor
    dsimp only
    split
    · refine ⟨?_, fun d => ?_⟩
      · rw [stateName_sendAppendEntries, volatileState_sendAppendEntries]
        exact timed.election
      · rw [volatileState_sendAppendEntries]
        change Function.update r'.volatileState.heartbeatDue id (now + milliseconds (TTimeout.election / 2)) d ≤ _
        by_cases own : d = id
        · rw [own, Function.update_self]
          exact Nat.add_le_add_right le _
        · rw [Function.update_of_ne own]
          exact timed.heartbeat d
    · exact timed
  unfold TRaft.leaderTimeout
  dsimp only
  split
  · obtain ⟨_, _, same⟩ := (r.nodes.foldl (leaderTimeoutFor now) r).volatileState.commitAdvance_eq
      (r.nodes.foldl (leaderTimeoutFor now) r).nservers (r.nodes.foldl (leaderTimeoutFor now) r).state 0
    rw [same]
    exact pinged.of_same rfl rfl rfl
  · exact pinged

theorem dispatchTimeout (timed : Timed wait t r) : Timed wait t (r.dispatchTimeout now) := by
  have taken := r.ticking now
  generalize r.dispatchTimeout now = r' at taken ⊢
  cases taken with
  | waits => exact timed
  | stands name due => exact ⟨.inl (timed.election.resolve_right fun leads => nomatch name.symm.trans leads.1), timed.heartbeat⟩
  | asks =>
    apply candidateTimeout_rule (P := Timed wait t) _ timed
    intro r' id due _ timed
    have waiting : Timed wait t { r' with volatileState := r'.volatileState.setRpcDue id due } := timed.of_same rfl rfl rfl
    exact waiting.send
  | pings => exact timed.leaderTimeout le
  | unknown => exact timed.emit _

include delays

theorem processTimeout (timed : Timed wait t r) : Timed wait t (r.processTimeout delay now) := by
  have started : Timed wait t (if r.electionIsDue now then r.startElection delay now else r) := by
    split
    · rw [startElection_eq]
      exact ⟨.inl (Nat.add_le_add le (Nat.mul_le_mul_left _ (delays _))), fun _ => Nat.zero_le _⟩
    · exact timed
  unfold TRaft.processTimeout
  dsimp only
  generalize (if r.electionIsDue now then r.startElection delay now else r) = r₁ at started ⊢
  have won : Timed wait t (if r₁.wins then r₁.becomeLeader else r₁) := by
    split
    · exact ⟨.inr ⟨rfl, rfl⟩, fun _ => Nat.zero_le _⟩
    · exact started
  exact won.dispatchTimeout le

end

theorem asked (timed : Timed wait t r) (asked : r.Asked r') : Timed wait t r' := by
  obtain ⟨-, ⟨entry, rfl⟩ | rfl⟩ := asked
  · exact timed.of_same rfl rfl rfl
  · apply approveRead_rule (P := Timed wait t) _ timed
    intro r' id _ timed
    exact timed.of_same (stateName_sendAppendEntries ..) (by rw [volatileState_sendAppendEntries]; rfl)
      (by rw [volatileState_sendAppendEntries]; rfl)

end Timed

end TRaft

/-- **The timers of every server are bounded**: in a run up to time `t` none is set further ahead than `wait`. -/
theorem System.Run.timed {ρ : Type*} {delay : UInt32 → ℕ} {lim wait : ℕ} {ids : Finset ℕ} {rsm : IRsm ρ} {t : Time}
    {start P : System ρ} (delays : ∀ seed, delay seed ≤ wait) (fresh : System.Start ids start)
    (run : System.Run delay lim ids rsm (fun _ label _ => label.By t) start P) {s : ℕ} (mem : s ∈ ids) :
    (P s).raft.Timed wait t := by
  induction run with
  | refl =>
    obtain ⟨nodes, -, -, new⟩ := fresh.1.2 s mem
    change (start s).raft = _ at new
    rw [new]
    exact .new ..
  | @tail Q Q' _ step ih =>
    obtain ⟨label, early, st⟩ := step
    rcases st.reacts s with idle | ⟨-, request, rfl, -, done⟩ | ⟨-, rfl, restored, same⟩
    · rwa [idle]
    · rcases (Handled.of_handle done).raft with ⟨call, is_call, same⟩ | path
      · rw [same]
        cases request with
        | process now m => cases is_call; exact ih.process delays early m
        | processTimeout now => cases is_call; exact ih.processTimeout delays early
        | append entry => cases is_call; exact ih.of_same rfl rfl rfl
        | _ => cases is_call
      · generalize (Q' s).raft = r at path ⊢
        induction path with
        | refl => exact ih
        | tail _ asked timed => exact timed.asked asked
    · rw [same]
      exact (TRaft.Timed.new (Q s).raft.state (Q s).raft.id (Q s).raft.nodes).of_same rfl rfl rfl

end MiniRaft
