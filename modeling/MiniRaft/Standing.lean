import MiniRaft.Peers
import MiniRaft.TermOrder

/-!
# What holds of every server of a cluster

Messages in flight are those of peers, so that every server counts peers only and has a role. The last entry of a
leader is one of its own term: it began with an empty entry, and what it appends has the term.
-/

namespace MiniRaft

open Lib

namespace TRaft

variable {delay : UInt32 → ℕ} {now : Time} {r r' : TRaft} {m : TMessage}

/-- The id that `Process` uses is the `Src` of the message. -/
theorem src_of_consults {src : ℕ} (used : src ∈ r.consults m) : ∃ ex ∈ m.ex?, ex.src = src := by
  cases m with
  | requestVoteRequest ex body => exact ⟨ex, rfl, Option.some.inj used⟩
  | appendEntriesRequest ex body => exact ⟨ex, rfl, Option.some.inj used⟩
  | requestVoteResponse ex body =>
    obtain ⟨-, same⟩ := Option.ite_none_right_eq_some.mp used
    exact ⟨ex, rfl, Option.some.inj same⟩
  | appendEntriesResponse ex body =>
    obtain ⟨-, same⟩ := Option.ite_none_right_eq_some.mp used
    exact ⟨ex, rfl, Option.some.inj same⟩
  | other => cases used

theorem PeersOnly.restart {nodes : List ℕ} (peers : r.PeersOnly nodes) : r.restart.PeersOnly nodes :=
  { PeersOnly.new r.state r.id r.nodes with
    same := peers.same
    votes := fun x mem => absurd mem (Finset.notMem_empty x)
    keys := fun x mem => absurd mem (AList.notMem_empty x)
    found := peers.found }

/-- A leader's last entry is of its term. -/
def OwnTerm (r : TRaft) : Prop := r.stateName = .leader → lastTerm TLogEntry.term r.state.log = r.state.currentTerm

namespace OwnTerm

theorem of_other (name : r.stateName ≠ .leader) : r.OwnTerm := fun leads => absurd leads name

theorem of_same (own : r.OwnTerm) (name : r'.stateName = r.stateName) (log : r'.state.log = r.state.log)
    (term : r'.state.currentTerm = r.state.currentTerm) : r'.OwnTerm := by
  intro leads
  rw [log, term]
  exact own (name ▸ leads)

theorem adoptTerm (own : r.OwnTerm) (header : Option TMessageEx) : (r.adoptTerm delay now header).OwnTerm := by
  have taken := r.adopting delay now header
  generalize r.adoptTerm delay now header = r' at taken ⊢
  cases taken with
  | known => exact own
  | armed => exact of_other nofun
  | running => exact of_other nofun

/-- No handler makes a leader, and none but `OnAppendEntries` touches a log: that one makes a follower. -/
theorem dispatch (own : r.OwnTerm) (m : TMessage) : (r.dispatch delay now m).OwnTerm := by
  have taken := r.dispatched delay now m
  generalize r.dispatch delay now m = r' at taken ⊢
  cases taken with
  | ignored => exact own
  | unknown => exact own
  | requestVote ex body =>
    have taken := r.voting delay now ex body
    generalize r.onRequestVote delay now ex body = r' at taken ⊢
    cases taken with
    | refused => exact own.of_same (stateName_send ..) (by rw [state_send]) (by rw [state_send])
    | granted => exact own.of_same (stateName_send ..) (by rw [state_send]; rfl) (by rw [state_send]; rfl)
    | ignored => exact own
  | vote name ex body =>
    have taken := r.polling ex body
    generalize r.onRequestVoteResponse ex body = r' at taken ⊢
    cases taken with
    | counted => exact own
    | ignored => exact own
  | appendEntries ex body =>
    have taken := r.appending delay now ex body
    generalize r.onAppendEntries delay now ex body = r' at taken ⊢
    cases taken with
    | outdated => exact own.of_same (stateName_send ..) (by rw [state_send]) (by rw [state_send])
    | unexpected => exact own
    | merged => exact of_other (by rw [stateName_send]; nofun)
    | rejected => exact of_other (by rw [stateName_send]; nofun)
  | appended name ex body =>
    have taken := r.responding ex body
    generalize r.onAppendEntriesResponse ex body = r' at taken ⊢
    cases taken with
    | outdated => exact own
    | matched => exact own
    | failed => exact own

theorem timeouts : TimeoutInvariant r.nodes OwnTerm where
  asks _ _ own := own.of_same (stateName_send ..) (by rw [state_send]) (by rw [state_send])
  pings _ _ _ own := own.of_same (stateName_sendAppendEntries ..) (by rw [state_sendAppendEntries])
    (by rw [state_sendAppendEntries])
  advances _ own := own
  fails own := own

theorem perform (own : r.OwnTerm) (call : Call) : (r.perform delay call).OwnTerm := by
  cases call with
  | process now m => exact (own.adoptTerm m.ex?).dispatch m
  | processTimeout now =>
    refine timeouts.processTimeout (fun _ => own) (fun _ => of_other ?_) fun _ _ _ => lastTerm_append ..
    rw [startElection_eq]
    nofun
  | append entry => exact fun _ => lastTerm_append ..
  | approveRead =>
    exact approveRead_rule (fun _ own => own.of_same (stateName_sendAppendEntries ..) (by rw [state_sendAppendEntries])
      (by rw [state_sendAppendEntries])) own

end OwnTerm

end TRaft

variable {lim : ℕ} {ids : Finset ℕ} {h : History} {c c' : Cluster} {s p : ℕ} {delay : UInt32 → ℕ}

/-- What a call may rely on includes that its message is one of a peer. -/
theorem Agrees.consults (agrees : Agrees lim ids h c) (mem : s ∈ ids) {call : Call} (enabled : Cluster.Enabled ids c s call) :
    (c s).Consults (c s).nodes call := by
  cases call with
  | process now m =>
    intro src used
    obtain ⟨x, peer, sound⟩ := agrees.sent enabled
    obtain ⟨ex, header, rfl⟩ := TRaft.src_of_consults used
    have same : ex.src = x := by
      cases m with
      | other => cases header
      | _ => cases header; exact sound.1
    rw [same, (agrees.sim s mem).mem_nodes]
    exact peer
  | _ => trivial

/-- What a server is in every reachable state. -/
structure Standing (r : TRaft) : Prop where
  peers : r.PeersOnly r.nodes
  own : r.OwnTerm

theorem Standing.start {state : TState} {id : ℕ} {nodes : List ℕ} : Standing (.new state id nodes) :=
  ⟨.new state id nodes, .of_other nofun⟩

theorem Standing.restart {r : TRaft} (standing : Standing r) : Standing r.restart :=
  ⟨standing.peers.restart, .of_other nofun⟩

theorem Standing.perform {r : TRaft} (standing : Standing r) {call : Call} (known : r.Consults r.nodes call) :
    Standing (r.perform delay call) := by
  have peers : (r.perform delay call).PeersOnly r.nodes := standing.peers.perform known
  exact ⟨by rwa [peers.same], standing.own.perform call⟩

/-- **Every server of a cluster stands well**, in every reachable state. -/
theorem Cluster.Reachable.standing (pos : 0 < lim) (small : lim ≤ 2 ^ 63) (reach : Cluster.Reachable delay lim ids c)
    (mem : s ∈ ids) : Standing (c s) := by
  obtain ⟨start, fresh, later⟩ := reach
  induction later generalizing s with
  | refl =>
    obtain ⟨nodes, -, -, new⟩ := fresh.2 s mem
    rw [new]
    exact .start
  | @tail b c before st ih =>
    obtain ⟨h, agrees⟩ : ∃ h, Agrees lim ids h b := Reachable.agrees pos small ⟨start, fresh, before⟩
    rcases st.reacts s with idle | ⟨-, call, enabled, same⟩ | ⟨-, same⟩
    · rw [idle]
      exact ih mem
    · rw [same]
      exact (ih mem).perform (agrees.consults mem enabled)
    · rw [same]
      exact (ih mem).restart

end MiniRaft
