import MiniRaft.Acknowledge
import MiniRaft.Stale

/-!
# Who is counted

The handlers take `Src` as the key of a table and as the address of the reply, whoever sent the message. A message of
a peer does no harm; one of a stranger does wherever its `Src` is used.
-/

namespace MiniRaft

namespace TRaft

/-- The server counts peers only, and has found a node for every message. -/
structure PeersOnly (nodes : List ℕ) (r : TRaft) : Prop where
  same : r.nodes = nodes
  name : r.stateName ≠ .none
  votes : ∀ id ∈ r.volatileState.votes, id ∈ nodes
  keys : ∀ id ∈ r.volatileState.matchIndex, id ∈ nodes
  found : .fault .nullNode ∉ r.effects

/-- The id that `Process` uses: `Src` of a request, of a vote that counts, and of a success that counts. -/
def consults (r : TRaft) : TMessage → Option ℕ
  | .requestVoteRequest ex _ | .appendEntriesRequest ex _ => some ex.src
  | .requestVoteResponse ex body =>
    if r.stateName = .candidate ∧ body.voteGranted ∧ ex.term = r.state.currentTerm then some ex.src else none
  | .appendEntriesResponse ex body =>
    if r.stateName = .leader ∧ body.success ∧ ex.term = r.state.currentTerm then some ex.src else none
  | .other => none

variable {delay : UInt32 → ℕ} {now : Time} {nodes : List ℕ} {r : TRaft} {d : ℕ} {m : TMessage}

theorem le_adoptTerm (ex : TMessageEx) (r : TRaft) :
    ex.term ≤ (r.adoptTerm delay now (some ex)).state.currentTerm := by
  have taken := r.adopting delay now (some ex)
  generalize r.adoptTerm delay now (some ex) = r' at taken ⊢
  cases taken with
  | known le => exact le ex rfl
  | armed => exact le_rfl
  | running => exact le_rfl

/-- A response of a later term makes a follower, which does not count it. -/
theorem consults_adoptTerm (m : TMessage) (r : TRaft) : (r.adoptTerm delay now m.ex?).consults m = r.consults m := by
  have dropped {name : EState} {counts : Bool} {ex : TMessageEx} (leads : name ≠ .follower) :
      ((r.adoptTerm delay now (some ex)).stateName = name ∧ counts ∧
        ex.term = (r.adoptTerm delay now (some ex)).state.currentTerm) ↔
        r.stateName = name ∧ counts ∧ ex.term = r.state.currentTerm := by
    have follows (later : r.state.currentTerm < ex.term) :
        (EState.follower = name ∧ counts ∧ ex.term = (r.state.withVote ex.term 0).currentTerm) ↔
          r.stateName = name ∧ counts ∧ ex.term = r.state.currentTerm := by
      apply iff_of_false
      · rintro ⟨role, -⟩
        exact leads role.symm
      · rintro ⟨-, -, present⟩
        omega
    have taken := r.adopting delay now (some ex)
    generalize r.adoptTerm delay now (some ex) = r' at taken ⊢
    cases taken with
    | known => rfl
    | armed later => exact follows later
    | running later => exact follows later
  cases m with
  | requestVoteResponse ex body => exact if_congr (dropped nofun) rfl rfl
  | appendEntriesResponse ex body => exact if_congr (dropped nofun) rfl rfl
  | _ => rfl

namespace PeersOnly

theorem new (state : TState) (id : ℕ) (nodes : List ℕ) : (TRaft.new state id nodes).PeersOnly nodes where
  same := rfl
  name := nofun
  votes := fun x mem => absurd mem (Finset.notMem_empty x)
  keys := fun x mem => absurd mem (AList.notMem_empty x)
  found := List.not_mem_nil

/-- A change of the volatile state that adds no id. -/
theorem withVolatile (peers : r.PeersOnly nodes) {v : TVolatileState} (votes : ∀ id ∈ v.votes, id ∈ nodes)
    (keys : ∀ id ∈ v.matchIndex, id ∈ nodes) : PeersOnly nodes { r with volatileState := v } :=
  { peers with votes, keys }

theorem emit (peers : r.PeersOnly nodes) {e : TEffect} (fine : e ≠ .fault .nullNode) : (r.emit e).PeersOnly nodes :=
  { peers with
    found := fun mem => by
      cases List.mem_append.mp mem with
      | inl old => exact peers.found old
      | inr new => exact fine (List.mem_singleton.mp new).symm }

/-- **A message goes through a node exactly where it is for a peer.** -/
theorem send_iff (peers : r.PeersOnly nodes) : (r.send d m).PeersOnly nodes ↔ d ∈ nodes := by
  unfold TRaft.send
  constructor
  · intro after
    by_contra unknown
    rw [if_neg (peers.same ▸ unknown)] at after
    exact after.found (List.mem_append_right _ (List.mem_singleton_self _))
  · intro known
    rw [if_pos (peers.same ▸ known)]
    exact peers.emit nofun

theorem commit (peers : r.PeersOnly nodes) : r.commit.PeersOnly nodes := peers.emit nofun

/-! ## One message -/

theorem onRequestVote_iff (peers : r.PeersOnly nodes) (ex : TMessageEx) (body : TRequestVoteRequest)
    (adopted : ex.term ≤ r.state.currentTerm) : (r.onRequestVote delay now ex body).PeersOnly nodes ↔ ex.src ∈ nodes := by
  have taken := r.voting delay now ex body
  generalize r.onRequestVote delay now ex body = r' at taken ⊢
  cases taken with
  | refused => exact peers.send_iff
  | granted =>
    have voted : PeersOnly nodes { r.makeElection delay now with
        state := r.state.withVote r.state.currentTerm body.candidateId } := { peers with }
    exact voted.commit.send_iff
  | ignored late => exact absurd late adopted.not_gt

theorem onAppendEntries_iff (peers : r.PeersOnly nodes) (ex : TMessageEx) (body : TAppendEntriesRequest)
    (adopted : ex.term ≤ r.state.currentTerm) :
    (r.onAppendEntries delay now ex body).PeersOnly nodes ↔ ex.src ∈ nodes := by
  have heard (n : ℕ) (state : TState) : (r.heard delay now body.leaderId n state).PeersOnly nodes :=
    { peers with name := nofun }
  have taken := r.appending delay now ex body
  generalize r.onAppendEntries delay now ex body = r' at taken ⊢
  cases taken with
  | outdated => exact peers.send_iff
  | unexpected late => exact absurd late adopted.not_gt
  | merged => exact (heard _ _).send_iff
  | rejected => exact (heard _ _).send_iff

theorem onRequestVoteResponse_iff (peers : r.PeersOnly nodes) (ex : TMessageEx) (body : TRequestVoteResponse) :
    (r.onRequestVoteResponse ex body).PeersOnly nodes ↔
      (body.voteGranted ∧ ex.term = r.state.currentTerm → ex.src ∈ nodes) := by
  have taken := r.polling ex body
  generalize r.onRequestVoteResponse ex body = r' at taken ⊢
  cases taken with
  | counted granted present =>
    constructor
    · intro after _
      exact after.votes ex.src (Finset.mem_insert_self ..)
    · intro peer
      refine peers.withVolatile (fun id mem => ?_) fun id mem => peers.keys id mem
      cases Finset.mem_insert.mp mem with
      | inl voter => exact voter ▸ peer ⟨granted, present⟩
      | inr old => exact peers.votes id old
  | ignored drops => exact iff_of_true peers fun counts => absurd counts drops

theorem onAppendEntriesResponse_iff (peers : r.PeersOnly nodes) (ex : TMessageEx) (body : TAppendEntriesResponse) :
    (r.onAppendEntriesResponse ex body).PeersOnly nodes ↔
      (body.success ∧ ex.term = r.state.currentTerm → ex.src ∈ nodes) := by
  have taken := r.responding ex body
  generalize r.onAppendEntriesResponse ex body = r' at taken ⊢
  cases taken with
  | outdated other => exact iff_of_true peers fun counts => absurd counts.2 other
  | matched present success =>
    constructor
    · intro after _
      apply after.keys ex.src
      show ex.src ∈ (TVolatileState.commitAdvance _ _ _ _).matchIndex
      rw [TVolatileState.matchIndex_commitAdvance]
      exact AList.mem_insert _ |>.mpr (.inl rfl)
    · intro peer
      apply peers.withVolatile
      · rw [TVolatileState.votes_commitAdvance]
        exact peers.votes
      · rw [TVolatileState.matchIndex_commitAdvance]
        intro id mem
        cases TVolatileState.mem_setMatchIndex (v := r.volatileState) mem with
        | inl sender => exact sender ▸ peer ⟨success, present⟩
        | inr old => exact peers.keys id old
  | failed present failure =>
    have refused : ¬ body.success := failure ▸ Bool.false_ne_true
    exact iff_of_true (peers.withVolatile peers.votes peers.keys) fun counts => absurd counts.1 refused

theorem makeElection (peers : r.PeersOnly nodes) : (r.makeElection delay now).PeersOnly nodes := { peers with }

theorem adoptTerm (peers : r.PeersOnly nodes) (header : Option TMessageEx) :
    (r.adoptTerm delay now header).PeersOnly nodes := by
  have demoted (term : ℕ) : (r.demoted term).PeersOnly nodes :=
    { peers.emit (e := .commit (r.state.withVote term 0).toTStateFields) nofun with name := nofun }
  have taken := r.adopting delay now header
  generalize r.adoptTerm delay now header = r' at taken ⊢
  cases taken with
  | known => exact peers
  | armed => exact (demoted _).makeElection
  | running => exact demoted _

theorem dispatch_iff (peers : r.PeersOnly nodes) (adopted : ∀ ex ∈ m.ex?, ex.term ≤ r.state.currentTerm) :
    (r.dispatch delay now m).PeersOnly nodes ↔ ∀ src ∈ r.consults m, src ∈ nodes := by
  have own (src : ℕ) : (∀ x ∈ some src, x ∈ nodes) ↔ src ∈ nodes := by simp
  have guarded {c : Prop} [Decidable c] (src : ℕ) :
      (∀ x ∈ (if c then some src else none), x ∈ nodes) ↔ (c → src ∈ nodes) := by
    by_cases holds : c <;> simp [holds]
  unfold TRaft.dispatch consults
  cases m with
  | requestVoteRequest ex body =>
    have answered : (r.onRequestVote delay now ex body).PeersOnly nodes ↔ ex.src ∈ nodes :=
      peers.onRequestVote_iff ex body (adopted ex rfl)
    rw [own]
    cases name : r.stateName with
    | none => exact absurd name peers.name
    | _ => exact answered
  | appendEntriesRequest ex body =>
    have answered : (r.onAppendEntries delay now ex body).PeersOnly nodes ↔ ex.src ∈ nodes :=
      peers.onAppendEntries_iff ex body (adopted ex rfl)
    rw [own]
    cases name : r.stateName with
    | none => exact absurd name peers.name
    | _ => exact answered
  | requestVoteResponse ex body =>
    rw [guarded]
    cases name : r.stateName with
    | none => exact absurd name peers.name
    | candidate => exact (peers.onRequestVoteResponse_iff ex body).trans (by simp)
    | _ => exact iff_of_true peers fun counts => nomatch counts.1
  | appendEntriesResponse ex body =>
    rw [guarded]
    cases name : r.stateName with
    | none => exact absurd name peers.name
    | leader => exact (peers.onAppendEntriesResponse_iff ex body).trans (by simp)
    | _ => exact iff_of_true peers fun counts => nomatch counts.1
  | other =>
    apply iff_of_true _ nofun
    cases name : r.stateName with
    | none => exact absurd name peers.name
    | _ => exact peers

/-- **Exactly the `Src` that is used has to be a peer.** -/
theorem process_iff (peers : r.PeersOnly nodes) :
    (r.process delay now m).PeersOnly nodes ↔ ∀ src ∈ r.consults m, src ∈ nodes := by
  unfold TRaft.process
  rw [(peers.adoptTerm m.ex?).dispatch_iff, consults_adoptTerm]
  intro ex header
  rw [Option.mem_def.mp header]
  exact le_adoptTerm ex r

/-! ## The other calls -/

theorem sendAppendEntries (peers : r.PeersOnly nodes) (peer : d ∈ nodes) :
    (r.sendAppendEntries d).PeersOnly nodes := by
  have counted : PeersOnly nodes { r with
      seqno := r.seqno + 1
      volatileState := r.volatileState.touchMatch d } :=
    { peers with
      keys := fun id mem => by
        cases TVolatileState.mem_touchMatch mem with
        | inl touched => exact touched ▸ peer
        | inr old => exact peers.keys id old }
  exact counted.send_iff.mpr peer

theorem advance (peers : r.PeersOnly nodes) (n : ℕ) (state : TState) (seqno : ℕ) :
    PeersOnly nodes { r with volatileState := r.volatileState.commitAdvance n state seqno } := by
  apply peers.withVolatile
  · rw [TVolatileState.votes_commitAdvance]
    exact peers.votes
  · rw [TVolatileState.matchIndex_commitAdvance]
    exact peers.keys

theorem startElection (peers : r.PeersOnly nodes) : (r.startElection delay now).PeersOnly nodes := by
  rw [startElection_eq]
  exact
    { same := peers.same
      name := nofun
      votes := fun x mem => absurd mem (Finset.notMem_empty x)
      keys := fun x mem => absurd mem (AList.notMem_empty x)
      found := (peers.emit (e := .commit _) nofun).found }

theorem becomeLeader (peers : r.PeersOnly nodes) : r.becomeLeader.PeersOnly nodes where
  same := peers.same
  name := nofun
  votes := fun x mem => absurd mem (Finset.notMem_empty x)
  keys := fun x mem => absurd mem (AList.notMem_empty x)
  found := peers.found

theorem timeouts (same : r.nodes = nodes) : TimeoutInvariant r.nodes (PeersOnly nodes) where
  asks _ peer peers := (peers.withVolatile (by exact peers.votes) (by exact peers.keys)).send_iff.mpr (same ▸ peer)
  pings _ _ peer peers :=
    sendAppendEntries (peers.withVolatile (by exact peers.votes) (by exact peers.keys)) (same ▸ peer)
  advances _ peers := peers.advance ..
  fails peers := peers.emit nofun

theorem processTimeout (peers : r.PeersOnly nodes) : (r.processTimeout delay now).PeersOnly nodes :=
  (timeouts peers.same).processTimeout (fun _ => peers) (fun _ => peers.startElection) fun _ peers => peers.becomeLeader

end PeersOnly

/-- Where the call is one of `Process`, the id that it uses is that of a peer. -/
def Consults (nodes : List ℕ) (r : TRaft) : Call → Prop
  | .process _ m => ∀ src ∈ r.consults m, src ∈ nodes
  | _ => True

theorem PeersOnly.perform (peers : r.PeersOnly nodes) {call : Call} (known : r.Consults nodes call) :
    (r.perform delay call).PeersOnly nodes := by
  cases call with
  | process now m => exact peers.process_iff.mpr known
  | processTimeout now => exact peers.processTimeout
  | append entry => exact { peers with }
  | approveRead => exact approveRead_rule (fun member peers' => peers'.sendAppendEntries (peers.same ▸ member)) peers

/-- A run of one server with any calls that satisfy `ok`. -/
def Run (delay : UInt32 → ℕ) (ok : TRaft → Call → Prop) : TRaft → TRaft → Prop :=
  Relation.ReflTransGen fun r r' => ∃ call, ok r call ∧ r' = r.perform delay call

theorem PeersOnly.run {r' : TRaft} (peers : r.PeersOnly nodes) (run : Run delay (Consults nodes) r r') :
    r'.PeersOnly nodes := by
  induction run with
  | refl => exact peers
  | tail _ step ih =>
    obtain ⟨call, known, rfl⟩ := step
    exact ih.perform known

/-! ## The two thresholds -/

/-- An election is won, and a commit position is reached, by peers and the server itself. -/
structure PeersDecide (nodes : List ℕ) (r : TRaft) : Prop where
  elect : r.wins → r.minVotes ≤ (nodes.toFinset.filter (· ∈ r.volatileState.votes)).card + 1
  commit : ∀ k, 0 < k → k ≤ r.position → r.nservers - r.nservers / 2 ≤
    (nodes.toFinset.filter (k ≤ r.volatileState.matchOf ·)).card + if k ≤ r.state.lastLogIndex then 1 else 0

theorem PeersOnly.decide (peers : r.PeersOnly nodes) : r.PeersDecide nodes where
  elect := by
    intro wins
    have enough := (of_decide_eq_true wins).2
    apply enough.trans
    apply Nat.succ_le_succ
    apply Finset.card_le_card
    intro id voter
    exact Finset.mem_filter.mpr ⟨List.mem_toFinset.mpr (peers.votes id voter), voter⟩
  commit := by
    intro k pos le
    have long := r.volatileState.le_length_indices r.nservers r.state.lastLogIndex
    have inside : r.nservers / 2 < (r.volatileState.indices r.nservers r.state.lastLogIndex).length := by
      have : 0 < r.nservers := Nat.succ_pos _
      omega
    have many := (Lib.le_insertionSort_iff inside).mp le
    rw [TVolatileState.count_indices _ pos, TVolatileState.holders] at many
    have known : (r.volatileState.matchIndex.keys.toFinset.filter (k ≤ r.volatileState.matchOf ·)).card ≤
        (nodes.toFinset.filter (k ≤ r.volatileState.matchOf ·)).card := by
      apply Finset.card_le_card
      apply Finset.filter_subset_filter
      intro id key
      exact List.mem_toFinset.mpr (peers.keys id (AList.mem_keys.mpr (List.mem_toFinset.mp key)))
    omega

end TRaft

section

open TRaft

/-- **Only peers count.** A server that counts peers only, and has found a node for every message, still does after a
message exactly where the `Src` that `Process` uses is that of a peer. So it does in every run in which this is
the case at each message: `Nodes` stays as it is, and elections and commits are decided by peers. -/
theorem only_peers_count (delay : UInt32 → ℕ) (nodes : List ℕ) :
    (∀ (now : Time) (r : TRaft) (m : TMessage), r.PeersOnly nodes →
      ((r.process delay now m).PeersOnly nodes ↔ ∀ src ∈ r.consults m, src ∈ nodes)) ∧
    ∀ (state : TState) (id : ℕ) (r : TRaft), TRaft.Run delay (Consults nodes) (.new state id nodes) r →
      r.PeersOnly nodes ∧ r.PeersDecide nodes := by
  constructor
  · intro now r m peers
    exact peers.process_iff
  · intro state id r run
    have peers := (PeersOnly.new state id nodes).run run
    exact ⟨peers, peers.decide⟩

/-- Server 1 of three, in its first election. -/
def campaigner : TRaft := (TRaft.new (.ofLog 1 0 []) 1 [2, 3]).processTimeout (fun _ => 5000) 0

/-- A vote in term 2. -/
def voteFrom (src : ℕ) : TMessage := .requestVoteResponse { src := src, dst := 1, term := 2 } ⟨true⟩

theorem only_peers_count_vote : (campaigner.process (fun _ => 5000) 0 (voteFrom 2)).PeersOnly [2, 3] ∧
    (campaigner.process (fun _ => 5000) 0 (voteFrom 2)).volatileState.votes = {2} := by
  have start : TRaft.Run (fun _ => 5000) (Consults [2, 3]) (.new {} 1 [2, 3]) campaigner :=
    .single ⟨.processTimeout 0, trivial, rfl⟩
  have claim := only_peers_count (fun _ => 5000) [2, 3]
  refine ⟨(claim.1 0 campaigner (voteFrom 2) (claim.2 {} 1 _ start).1).mpr ?_, by decide⟩
  decide

/-- The vote of a server outside `Nodes` is counted, and its request is answered through a null node. -/
theorem only_peers_count_stranger :
    ¬ (∀ id ∈ (campaigner.process (fun _ => 5000) 0 (voteFrom 99)).volatileState.votes, id ∈ [2, 3]) ∧
      ((campaigner.process (fun _ => 5000) 0 (voteFrom 99)).processTimeout (fun _ => 5000) 0).stateName = .leader ∧
      .fault .nullNode ∈ (campaigner.process (fun _ => 5000) 0 (oldRequest 99)).effects := by
  decide

end

end MiniRaft
