import MiniRaft.Matching

/-!
# Requests of a leader (`CreateAppendEntries`)

`NextIndex` stays within the leader's log and one past it, so that no subtraction of `CreateAppendEntries` wraps. What it
reads stays the same while a leader goes through its peers, so a request can be compared with the server as the call
leaves it.
-/

namespace MiniRaft

open Lib

/-- The peer and the body of an `AppendEntries` request. -/
def TEffect.request? : TEffect → Option (ℕ × TAppendEntriesRequest)
  | .send d (.appendEntriesRequest _ body) => some (d, body)
  | _ => none

namespace TRaft

/-- The `AppendEntries` requests sent so far. -/
def requests (r : TRaft) : List (ℕ × TAppendEntriesRequest) := r.effects.filterMap TEffect.request?

/-- `CreateAppendEntries(d)` has this body. -/
def Creates (r : TRaft) (d : ℕ) (body : TAppendEntriesRequest) : Prop :=
  ∃ ex, r.createAppendEntries d = .appendEntriesRequest ex body

/-- No batch size is above that of a peer that has acknowledged something. -/
def Batched (r : TRaft) : Prop := ∀ p, r.volatileState.batchSize p ≤ 1024

/-- A request to `d` is a piece of the log of `r` that begins at `NextIndex`. `PrevLogIndex` and `Nentries` are true
differences: neither subtraction wraps, and nothing is cut off in 32 bits. -/
structure WellFormed (r : TRaft) (d : ℕ) (body : TAppendEntriesRequest) : Prop where
  prev : body.prevLogIndex + 1 = r.volatileState.nextIndex d
  last : body.prevLogIndex + body.nentries = r.batchEnd d body.prevLogIndex
  inside : body.prevLogIndex + body.nentries ≤ r.state.lastLogIndex
  prevTerm : body.prevLogTerm = termAt TLogEntry.term r.state.log body.prevLogIndex
  count : body.nentries = body.payload.length
  short : body.nentries ≤ 1024
  piece : ∀ i < body.nentries, body.payload[i]? = some (r.state.get (body.prevLogIndex + 1 + i))
  commit : body.leaderCommit ≤ body.prevLogIndex + body.nentries

variable {r r' r'' : TRaft} {d : ℕ} {delay : UInt32 → ℕ} {now : Time}

/-- Batch sizes are not set at first. -/
theorem Batched.of_zero (none : ∀ p, r.volatileState.batchSize p = 0) : r.Batched := by
  intro p
  rw [none]
  decide

/-! ## What one request is -/

/-- The end of a batch of at most 1024 entries. -/
theorem batchEnd_le_add {k : ℕ} (batched : r.Batched) (high : k ≤ r.state.log.length)
    (small : r.state.log.length < maxLogSize) : r.batchEnd d k ≤ k + 1024 := by
  have size := batched d
  unfold maxLogSize at small
  unfold batchEnd
  dsimp only
  rw [r.state.index_eq, u64_of_lt (n := k + _) (by omega)]
  split <;> omega

theorem wellFormed (low : 1 ≤ r.volatileState.nextIndex d)
    (high : r.volatileState.nextIndex d ≤ r.state.log.length + 1) (batched : r.Batched)
    (small : r.state.log.length < maxLogSize) {body : TAppendEntriesRequest} (creates : r.Creates d body) :
    r.WellFormed d body := by
  obtain ⟨k, next⟩ := Nat.exists_eq_add_of_le' low
  have within : k ≤ r.state.log.length := by omega
  have last := batchEnd_le (d := d) within
  have most := batchEnd_le_add (d := d) batched within small
  obtain ⟨n, ends⟩ := Nat.exists_eq_add_of_le (le_batchEnd (d := d) within small).1
  obtain ⟨ex, built⟩ := creates
  rw [createAppendEntries_eq next within small, ends, Nat.add_sub_cancel_left] at built
  obtain ⟨-, rfl⟩ := TMessage.appendEntriesRequest.inj built
  rw [ends] at last
  have len : ((r.state.log.drop k).take n).length = n := by
    rw [List.length_take, List.length_drop]
    omega
  refine ⟨next.symm, ends.symm, r.state.index_eq ▸ last, rfl, len.symm, by dsimp only; omega, ?_, min_le_right ..⟩
  intro i less
  dsimp only at less ⊢
  rw [List.getElem?_take, if_pos less, List.getElem?_drop, ← r.state.get_eq_getElem (by omega) (by omega)]
  congr 1
  omega

/-! ## Calls that send no request -/

/-- No request is sent, and batch sizes stay bounded. -/
structure Quiet (r r' : TRaft) : Prop where
  requests : r'.requests = r.requests
  batched : r.Batched → r'.Batched

namespace Quiet

theorem of_same (effects : r'.effects = r.effects)
    (sizes : r'.volatileState.batchSize = r.volatileState.batchSize) : Quiet r r' where
  requests := by rw [TRaft.requests, TRaft.requests, effects]
  batched batched := by
    unfold Batched at batched ⊢
    rwa [sizes]

theorem refl (r : TRaft) : Quiet r r := of_same rfl rfl

theorem trans (h : Quiet r r') (k : Quiet r' r'') : Quiet r r'' :=
  ⟨k.requests.trans h.requests, fun batched => k.batched (h.batched batched)⟩

theorem emit {e : TEffect} (other : e.request? = none) : Quiet r (r.emit e) where
  requests := by simp [TRaft.requests, TRaft.emit, other]
  batched batched := batched

theorem send {m : TMessage} (other : (TEffect.send d m).request? = none) : Quiet r (r.send d m) := by
  unfold TRaft.send
  split
  · exact emit other
  · exact emit rfl

theorem stored : Quiet r r.commit := emit rfl

/-- New volatile state. -/
theorem reset (effects : r'.effects.filterMap TEffect.request? = r.requests)
    (none : ∀ p, r'.volatileState.batchSize p = 0) : Quiet r r' where
  requests := effects
  batched _ := .of_zero none

theorem adoptTerm (header : Option TMessageEx) : Quiet r (r.adoptTerm delay now header) := by
  have demoted (t : ℕ) : Quiet r (r.demoted t) := by
    have adopted : Quiet r { r with state := r.state.withVote t 0 } := of_same rfl rfl
    exact (adopted.trans stored).trans (of_same rfl rfl)
  have taken := r.adopting delay now header
  generalize r.adoptTerm delay now header = r' at taken ⊢
  cases taken with
  | known => exact refl r
  | armed => exact (demoted _).trans (of_same rfl rfl)
  | running => exact demoted _

theorem onRequestVote (ex : TMessageEx) (body : TRequestVoteRequest) : Quiet r (r.onRequestVote delay now ex body) := by
  have taken := r.voting delay now ex body
  generalize r.onRequestVote delay now ex body = r' at taken ⊢
  cases taken with
  | refused => exact send rfl
  | granted =>
    have voted : Quiet r { r.makeElection delay now with
        state := r.state.withVote r.state.currentTerm body.candidateId } := of_same rfl rfl
    exact (voted.trans stored).trans (send rfl)
  | ignored => exact refl r

theorem onRequestVoteResponse (ex : TMessageEx) (body : TRequestVoteResponse) :
    Quiet r (r.onRequestVoteResponse ex body) := by
  have taken := r.polling ex body
  generalize r.onRequestVoteResponse ex body = r' at taken ⊢
  cases taken with
  | counted => exact of_same rfl rfl
  | ignored => exact refl r

theorem onAppendEntries (ex : TMessageEx) (body : TAppendEntriesRequest) :
    Quiet r (r.onAppendEntries delay now ex body) := by
  have heard (n : ℕ) (state : TState) : Quiet r (r.heard delay now body.leaderId n state) := of_same rfl rfl
  have taken := r.appending delay now ex body
  generalize r.onAppendEntries delay now ex body = r' at taken ⊢
  cases taken with
  | outdated => exact send rfl
  | unexpected => exact emit rfl
  | merged => exact (heard _ _).trans (send rfl)
  | rejected => exact (heard _ _).trans (send rfl)

/-- A response sets one batch size to 1024 or to 1. -/
theorem onAppendEntriesResponse (ex : TMessageEx) (body : TAppendEntriesResponse) :
    Quiet r (r.onAppendEntriesResponse ex body) := by
  have resized {v : TVolatileState} {size : ℤ} (small : size ≤ 1024)
      (sizes : v.batchSize = Function.update r.volatileState.batchSize ex.src size) :
      Quiet r { r with volatileState := v } := by
    refine ⟨rfl, fun batched p => ?_⟩
    dsimp only
    rw [sizes]
    by_cases here : p = ex.src
    · rw [here, Function.update_self]
      exact small
    · rw [Function.update_of_ne here]
      exact batched p
  have taken := r.responding ex body
  generalize r.onAppendEntriesResponse ex body = r' at taken ⊢
  cases taken with
  | outdated => exact refl r
  | matched =>
    apply resized le_rfl
    obtain ⟨_, _, same⟩ := TVolatileState.commitAdvance_eq _ r.nservers r.state ex.seqno
    rw [same]
    rfl
  | failed => exact resized (by decide : (1 : ℤ) ≤ 1024) rfl

theorem dispatch (m : TMessage) : Quiet r (r.dispatch delay now m) := by
  have taken := r.dispatched delay now m
  generalize r.dispatch delay now m = r' at taken ⊢
  cases taken with
  | ignored => exact refl r
  | unknown => exact emit rfl
  | requestVote ex body => exact onRequestVote ex body
  | vote name ex body => exact onRequestVoteResponse ex body
  | appendEntries ex body => exact onAppendEntries ex body
  | appended name ex body => exact onAppendEntriesResponse ex body

theorem process (m : TMessage) : Quiet r (r.process delay now m) := (adoptTerm m.ex?).trans (dispatch m)

theorem startElection : Quiet r (r.startElection delay now) := by
  rw [startElection_eq]
  apply reset
  · simp [TRaft.requests, TEffect.request?]
  · exact fun _ => rfl

theorem becomeLeader : Quiet r r.becomeLeader := reset rfl fun _ => rfl

theorem candidateTimeout : Quiet r (r.candidateTimeout now) := by
  apply candidateTimeout_rule (P := Quiet r) _ (refl r)
  intro r' p due _ quiet
  have armed : Quiet r' { r' with volatileState := r'.volatileState.setRpcDue p due } := of_same rfl rfl
  exact (quiet.trans armed).trans (send rfl)

end Quiet

/-! ## Calls that send requests -/

/-- What `CreateAppendEntries` reads, `Seqno` apart, is as before. -/
structure SameView (r r' : TRaft) : Prop where
  id : r'.id = r.id
  name : r'.stateName = r.stateName
  nodes : r'.nodes = r.nodes
  state : r'.state = r.state
  commitIndex : r'.volatileState.commitIndex = r.volatileState.commitIndex
  nextIndex : r'.volatileState.nextIndex = r.volatileState.nextIndex
  batchSize : r'.volatileState.batchSize = r.volatileState.batchSize
  matchOf : ∀ p, r'.volatileState.matchOf p = r.volatileState.matchOf p

theorem SameView.creates_iff (view : SameView r r') (body : TAppendEntriesRequest) :
    r'.Creates d body ↔ r.Creates d body := by
  unfold Creates createAppendEntries batchEnd
  simp only [view.id, view.state, view.commitIndex, view.nextIndex, view.batchSize, view.matchOf,
    TMessage.appendEntriesRequest.injEq, exists_and_right, exists_eq', true_and]

/-- A loop over peers that began with `r`: each request so far is what `r` creates. -/
structure Asking (r r' : TRaft) : Prop where
  view : SameView r r'
  made : ∃ made, r'.requests = r.requests ++ made ∧ ∀ q ∈ made, q.1 ∈ r.nodes ∧ r.Creates q.1 q.2

namespace Asking

theorem refl (r : TRaft) : Asking r r :=
  ⟨⟨rfl, rfl, rfl, rfl, rfl, rfl, rfl, fun _ => rfl⟩, [], (List.append_nil _).symm, nofun⟩

/-- `HeartbeatDue` and `RpcDue` are not read. -/
theorem rearmed (asking : Asking r r') (heartbeat rpc : Time) : Asking r { r' with
    volatileState := (r'.volatileState.setHearbeatDue d heartbeat).setRpcDue d rpc } :=
  ⟨{ asking.view with }, asking.made⟩

theorem sendAppendEntries (asking : Asking r r') (peer : d ∈ r.nodes) : Asking r (r'.sendAppendEntries d) := by
  obtain ⟨view, made, requests, created⟩ := asking
  have there : d ∈ r'.nodes := view.nodes ▸ peer
  have sent : r'.sendAppendEntries d = TRaft.emit (.send d (r'.createAppendEntries d))
      { r' with seqno := r'.seqno + 1, volatileState := r'.volatileState.touchMatch d } := by
    unfold TRaft.sendAppendEntries TRaft.send
    exact if_pos there
  rw [sent]
  refine ⟨⟨view.id, view.name, view.nodes, view.state, view.commitIndex, view.nextIndex, view.batchSize, fun p => ?_⟩, ?_⟩
  · exact (r'.volatileState.matchOf_touchMatch d p).trans (view.matchOf p)
  · obtain ⟨ex, body, built⟩ : ∃ ex body, r'.createAppendEntries d = .appendEntriesRequest ex body := ⟨_, _, rfl⟩
    refine ⟨made ++ [(d, body)], ?_, fun q mem => ?_⟩
    · rw [← List.append_assoc, ← requests, built]
      simp [TRaft.requests, TRaft.emit, TEffect.request?]
    · cases List.mem_append.mp mem with
      | inl old => exact created q old
      | inr new =>
        rw [List.mem_singleton.mp new]
        exact ⟨peer, (view.creates_iff body).mp ⟨ex, built⟩⟩

end Asking

/-- The requests that a call sends are what the server creates as it is then, and it leads. -/
structure Asks (r r' : TRaft) : Prop where
  made : ∃ made, r'.requests = r.requests ++ made ∧
    ∀ q ∈ made, r'.stateName = .leader ∧ q.1 ∈ r'.nodes ∧ r'.Creates q.1 q.2
  batched : r.Batched → r'.Batched

theorem Quiet.asks (quiet : Quiet r r') : Asks r r' :=
  ⟨⟨[], by rw [quiet.requests, List.append_nil], nofun⟩, quiet.batched⟩

theorem Quiet.then (quiet : Quiet r r') (asks : Asks r' r'') : Asks r r'' := by
  obtain ⟨made, requests, created⟩ := asks.made
  exact ⟨⟨made, by rw [requests, quiet.requests], created⟩, fun batched => asks.batched (quiet.batched batched)⟩

theorem Asking.asks (asking : Asking r r') (name : r.stateName = .leader) : Asks r r' := by
  obtain ⟨view, made, requests, created⟩ := asking
  refine ⟨⟨made, requests, fun q mem => ?_⟩, fun batched p => ?_⟩
  · obtain ⟨peer, creates⟩ := created q mem
    exact ⟨view.name.trans name, view.nodes ▸ peer, (view.creates_iff q.2).mpr creates⟩
  · rw [view.batchSize]
    exact batched p

/-- `CommitAdvance` comes after the loop only where there is no peer. -/
theorem Asks.leaderTimeout (name : r.stateName = .leader) : Asks r (r.leaderTimeout now) := by
  have asking : Asking r (r.nodes.foldl (TRaft.leaderTimeoutFor now) r) :=
    heartbeats_rule (fun _ _ peer asking => (asking.rearmed ..).sendAppendEntries peer) (Asking.refl r)
  unfold TRaft.leaderTimeout
  dsimp only
  split
  · rename_i alone
    have none : r.nodes = [] := by
      rw [nservers, asking.view.nodes] at alone
      exact List.length_eq_zero_iff.mp (Nat.succ.inj alone)
    rw [none, List.foldl_nil]
    obtain ⟨_, _, same⟩ := r.volatileState.commitAdvance_eq r.nservers r.state 0
    rw [same]
    exact Quiet.asks (.of_same rfl rfl)
  · exact asking.asks name

theorem Asks.dispatchTimeout : Asks r (r.dispatchTimeout now) := by
  have taken := r.ticking now
  generalize r.dispatchTimeout now = r' at taken ⊢
  cases taken with
  | waits => exact (Quiet.refl r).asks
  | stands => exact Quiet.asks (.of_same rfl rfl)
  | asks => exact Quiet.candidateTimeout.asks
  | pings name => exact Asks.leaderTimeout name
  | unknown => exact Quiet.asks (.emit rfl)

theorem Asks.processTimeout : Asks r (r.processTimeout delay now) := by
  have started : Quiet r (if r.electionIsDue now then r.startElection delay now else r) := by
    split
    · exact .startElection
    · exact .refl r
  have won {r : TRaft} : Quiet r (if r.wins then r.becomeLeader else r) := by
    split
    · exact .becomeLeader
    · exact .refl r
  exact (started.trans won).then .dispatchTimeout

/-- **What a call asks of peers.** -/
theorem Asks.perform {call : Call} (leads : call = .approveRead → r.stateName = .leader) :
    Asks r (r.perform delay call) := by
  cases call with
  | process now m => exact (Quiet.process m).asks
  | processTimeout now => exact .processTimeout
  | append entry => exact Quiet.asks (.of_same rfl rfl)
  | approveRead =>
    have asking : Asking r r.approveRead.2 :=
      approveRead_rule (fun peer asking => asking.sendAppendEntries peer) (Asking.refl r)
    exact asking.asks (leads rfl)

end TRaft

/-! ## Runs -/

variable {lim : ℕ} {ids : Finset ℕ} {h : History} {c c' : Cluster} {s p : ℕ} {delay : UInt32 → ℕ}

theorem Cluster.Enabled.asks {call : Call} (enabled : Cluster.Enabled ids c s call) :
    (c s).Asks ((c s).perform delay call) := by
  apply TRaft.Asks.perform
  rintro rfl
  exact enabled

theorem Cluster.Start.batched (start : Cluster.Start ids c) (mem : s ∈ ids) : (c s).Batched := by
  obtain ⟨nodes, -, -, new⟩ := start.2 s mem
  rw [new]
  exact .of_zero fun _ => rfl

theorem Cluster.Step.batched (st : Cluster.Step delay lim ids c c') (batched : ∀ s ∈ ids, (c s).Batched) :
    ∀ s ∈ ids, (c' s).Batched := by
  intro s mem
  rcases st.reacts s with idle | ⟨-, call, enabled, same⟩ | ⟨-, same⟩
  · rw [idle]
    exact batched s mem
  · rw [same]
    exact enabled.asks.batched (batched s mem)
  · rw [same]
    exact .of_zero fun _ => rfl

theorem Cluster.Later.batched (later : Cluster.Later delay lim ids c c') (batched : ∀ s ∈ ids, (c s).Batched) :
    ∀ s ∈ ids, (c' s).Batched := by
  induction later with
  | refl => exact batched
  | tail _ st ih => exact st.batched ih

theorem Cluster.Reachable.batched (reach : Cluster.Reachable delay lim ids c) (mem : s ∈ ids) : (c s).Batched := by
  obtain ⟨start, fresh, later⟩ := reach
  exact later.batched (fun s mem => fresh.batched mem) s mem

/-- Whatever a leader creates for a peer is well formed. -/
theorem Agrees.wellFormed (agrees : Agrees maxLogSize ids h c) (mem : s ∈ ids) (name : (c s).stateName = .leader)
    (batched : (c s).Batched) (peer : p ∈ ids.erase s) {body : TAppendEntriesRequest} (creates : (c s).Creates p body) :
    (c s).WellFormed p body := by
  obtain ⟨low, high⟩ := ((agrees.sim s mem).leader name).next p peer
  exact TRaft.wellFormed low high batched (agrees.good mem).log_lt creates

/-- **`AppendEntries` requests are well formed.** For a leader and a peer `NextIndex` is from 1 to one past the log and
`MatchIndex` is within the log, and so what `CreateAppendEntries` builds there is well formed. In particular each request
that a call sends is: the leader's log and its `NextIndex` are then as they were when it was built. -/
theorem append_entries_well_formed (delay : UInt32 → ℕ) (ids : Finset ℕ) {c : Cluster} {s : ℕ}
    (reach : Cluster.Reachable delay maxLogSize ids c) (mem : s ∈ ids) :
    ((c s).stateName = .leader → ∀ p ∈ ids.erase s,
      (1 ≤ (c s).volatileState.nextIndex p ∧ (c s).volatileState.nextIndex p ≤ (c s).state.lastLogIndex + 1 ∧
        (c s).volatileState.matchOf p ≤ (c s).state.lastLogIndex) ∧
      ∃ ex body, (c s).createAppendEntries p = .appendEntriesRequest ex body ∧ (c s).WellFormed p body) ∧
    ∀ call r, Cluster.Enabled ids c s call → (c s).perform delay call = r → r.state.log.length < maxLogSize →
      ∃ made, r.requests = (c s).requests ++ made ∧
        ∀ q ∈ made, r.stateName = .leader ∧ q.1 ∈ ids.erase s ∧ r.WellFormed q.1 q.2 := by
  constructor
  · intro name p peer
    obtain ⟨h, agrees⟩ := reach.agrees (by decide) le_rfl
    obtain ⟨low, high⟩ := ((agrees.sim s mem).leader name).next p peer
    rw [(c s).state.index_eq]
    refine ⟨⟨low, high, agrees.matchOf_le mem name p⟩, _, _, rfl, ?_⟩
    exact agrees.wellFormed mem name (reach.batched mem) peer ⟨_, rfl⟩
  · intro call r enabled done room
    have asks : (c s).Asks ((c s).perform delay call) := enabled.asks
    have st : Cluster.Step delay maxLogSize ids c (Function.update c s r) := done ▸ .call mem call enabled (done ▸ room)
    rw [done] at asks
    obtain ⟨made, requests, created⟩ := asks.made
    refine ⟨made, requests, fun q new => ?_⟩
    obtain ⟨name, there, creates⟩ := created q new
    have reach' := reach.tail st
    obtain ⟨h', agrees'⟩ := reach'.agrees (by decide) le_rfl
    have here : Function.update c s r s = r := Function.update_self ..
    rw [← here] at name there creates ⊢
    have peer := (agrees'.sim s mem).mem_nodes.mp there
    exact ⟨name, peer, agrees'.wellFormed mem name (reach'.batched mem) peer creates⟩

/-- Server 1 leads, and server 2 has its empty entry. A ping comes after that entry, and there is nothing to carry. -/
theorem append_entries_well_formed_acknowledged : ∃ c,
    Cluster.Reachable (fun _ => 5000) maxLogSize [1, 2].toFinset c ∧ (c 1).volatileState.nextIndex 2 = 2 ∧
    (c 1).volatileState.nextIndex 2 ≤ (c 1).state.lastLogIndex + 1 ∧
    ∃ q, (c 1).approveRead.2.requests = (c 1).requests ++ [q] ∧ (c 1).approveRead.2.WellFormed q.1 q.2 := by
  obtain ⟨P, reach, leads, next, one, short⟩ := System.reachable_of_rehearse [1, 2] acknowledged (by decide) (by decide)
    (fun P => (P 1).raft.stateName = .leader ∧ (P 1).raft.volatileState.nextIndex 2 = 2 ∧
      (P 1).raft.approveRead.2.requests.length = (P 1).raft.requests.length + 1 ∧
      (P 1).raft.approveRead.2.state.log.length < maxLogSize) (by decide +kernel)
  have reach : Cluster.Reachable (fun _ => 5000) maxLogSize [1, 2].toFinset P.rafts := reach.rafts.mono (by decide)
  obtain ⟨leader, call⟩ := append_entries_well_formed _ _ reach (by decide : 1 ∈ [1, 2].toFinset)
  obtain ⟨⟨-, high, -⟩, -⟩ := leader leads 2 (by decide)
  obtain ⟨made, requests, formed⟩ := call .approveRead _ leads rfl short
  have single : made.length = 1 := by
    have := congrArg List.length requests
    rw [List.length_append] at this
    exact Nat.add_left_cancel (this.symm.trans one)
  obtain ⟨q, rfl⟩ := List.length_eq_one_iff.mp single
  exact ⟨P.rafts, reach, next, high, q, requests, (formed q (List.mem_singleton_self q)).2.2⟩

end MiniRaft
