import MiniRaft.Cluster
import MiniRaft.Lib.Interspersed

/-!
# Messages of old terms

A message whose term is over is answered where it is a request, and otherwise leaves no trace. What is answered goes
through `Nodes`, so that a request has to come from a peer.
-/

namespace MiniRaft

open Lib

namespace TRaft

variable {delay : UInt32 → ℕ} {now : Time} {r : TRaft}

/-! ## The history is never read -/

/-- The server with a longer history. -/
def after (es : List TEffect) (r : TRaft) : TRaft := { r with effects := es ++ r.effects }

/-- The server without its history. -/
def forget (r : TRaft) : TRaft := { r with effects := [] }

theorem forget_after (r : TRaft) : r.forget.after r.effects = r := by
  rw [after, forget, List.append_nil]

variable (es : List TEffect)

@[simp] theorem emit_after (e : TEffect) (r : TRaft) : (r.after es).emit e = (r.emit e).after es := by
  simp [emit, after]

@[simp] theorem send_after (d : ℕ) (m : TMessage) (r : TRaft) : (r.after es).send d m = (r.send d m).after es := by
  unfold send
  by_cases known : d ∈ r.nodes
  · rw [if_pos known, if_pos (show d ∈ (r.after es).nodes from known), emit_after]
  · rw [if_neg known, if_neg (show d ∉ (r.after es).nodes from known), emit_after]

theorem sendAppendEntries_after (d : ℕ) (r : TRaft) :
    (r.after es).sendAppendEntries d = (r.sendAppendEntries d).after es :=
  send_after es d (r.createAppendEntries d)
    { r with
      seqno := r.seqno + 1
      volatileState := r.volatileState.touchMatch d }

theorem foldl_after {f : TRaft → ℕ → TRaft} (each : ∀ r d, f (r.after es) d = (f r d).after es) (peers : List ℕ)
    (r : TRaft) : peers.foldl f (r.after es) = (peers.foldl f r).after es := by
  induction peers generalizing r with
  | nil => rfl
  | cons d peers ih => rw [List.foldl_cons, each, ih, List.foldl_cons]

/-- A branch is taken with or without the history. -/
theorem ite_after {c : Prop} [Decidable c] {a b a' b' : TRaft} (yes : c → a' = a.after es) (no : ¬ c → b' = b.after es) :
    (if c then a' else b') = (if c then a else b).after es := by
  split
  · rename_i true_
    exact yes true_
  · rename_i false_
    exact no false_

theorem onRequestVote_after (ex : TMessageEx) (message : TRequestVoteRequest) (r : TRaft) :
    (r.after es).onRequestVote delay now ex message = (r.onRequestVote delay now ex message).after es := by
  unfold onRequestVote
  apply ite_after es (fun _ => send_after ..)
  intro _
  apply ite_after es _ (fun _ => rfl)
  intro _
  apply ite_after es _ (fun _ => send_after ..)
  intro _
  let voted : TRaft := { r.makeElection delay now with
    state := r.state.withVote r.state.currentTerm message.candidateId }
  have stored : (voted.after es).commit = voted.commit.after es := emit_after es (.commit voted.state.toTStateFields) voted
  exact (congrArg (send ex.src _) stored).trans (send_after es ex.src _ voted.commit)

theorem onRequestVoteResponse_after (ex : TMessageEx) (message : TRequestVoteResponse) (r : TRaft) :
    (r.after es).onRequestVoteResponse ex message = (r.onRequestVoteResponse ex message).after es :=
  ite_after es (fun _ => rfl) (fun _ => rfl)

theorem onAppendEntries_after (ex : TMessageEx) (message : TAppendEntriesRequest) (r : TRaft) :
    (r.after es).onAppendEntries delay now ex message = (r.onAppendEntries delay now ex message).after es := by
  unfold onAppendEntries
  dsimp only
  apply ite_after es (fun _ => send_after ..)
  intro _
  apply ite_after es (fun _ => emit_after ..)
  intro _
  rw [become_eq, become_eq]
  exact send_after es ex.src _ (r.heard delay now message.leaderId
    (if fitsLog message r.state then max r.volatileState.commitIndex message.leaderCommit else r.volatileState.commitIndex)
    (if fitsLog message r.state then r.state.replaceAll message.prevLogIndex message.payload else r.state))

theorem onAppendEntriesResponse_after (ex : TMessageEx) (message : TAppendEntriesResponse) (r : TRaft) :
    (r.after es).onAppendEntriesResponse ex message = (r.onAppendEntriesResponse ex message).after es :=
  ite_after es (fun _ => rfl) fun _ => ite_after es (fun _ => rfl) (fun _ => rfl)

theorem stepDown_after (term : ℕ) (r : TRaft) :
    (r.after es).stepDown delay now term = (r.stepDown delay now term).after es := by
  let finish (r : TRaft) : TRaft :=
    if r.volatileState.electionDue ≤ now ∨ r.volatileState.electionDue = Time.max then
      { r with stateName := .follower }.makeElection delay now
    else { r with stateName := .follower }
  have stored : { r.after es with state := r.state.withVote term 0 }.commit =
      ({ r with state := r.state.withVote term 0 }.commit).after es :=
    emit_after es (.commit (r.state.withVote term 0).toTStateFields) { r with state := r.state.withVote term 0 }
  show finish { r.after es with state := r.state.withVote term 0 }.commit = _
  rw [stored]
  exact ite_after es (fun _ => rfl) (fun _ => rfl)

theorem adoptTerm_after (header : Option TMessageEx) (r : TRaft) :
    (r.after es).adoptTerm delay now header = (r.adoptTerm delay now header).after es := by
  cases header with
  | none => rfl
  | some ex => exact ite_after es (fun _ => stepDown_after es ..) (fun _ => rfl)

theorem dispatch_after (m : TMessage) (r : TRaft) :
    (r.after es).dispatch delay now m = (r.dispatch delay now m).after es := by
  unfold dispatch
  cases name : r.stateName with
  | none => rw [show (r.after es).stateName = .none from name]; exact emit_after ..
  | follower =>
    rw [show (r.after es).stateName = .follower from name]
    cases m with
    | requestVoteRequest ex body => exact onRequestVote_after ..
    | appendEntriesRequest ex body => exact onAppendEntries_after ..
    | _ => rfl
  | candidate =>
    rw [show (r.after es).stateName = .candidate from name]
    cases m with
    | requestVoteRequest ex body => exact onRequestVote_after ..
    | requestVoteResponse ex body => exact onRequestVoteResponse_after ..
    | appendEntriesRequest ex body => exact onAppendEntries_after ..
    | _ => rfl
  | leader =>
    rw [show (r.after es).stateName = .leader from name]
    cases m with
    | requestVoteRequest ex body => exact onRequestVote_after ..
    | appendEntriesRequest ex body => exact onAppendEntries_after ..
    | appendEntriesResponse ex body => exact onAppendEntriesResponse_after ..
    | _ => rfl

theorem candidateTimeoutFor_after (r : TRaft) (d : ℕ) :
    (r.after es).candidateTimeoutFor now d = (r.candidateTimeoutFor now d).after es := by
  apply ite_after es _ (fun _ => rfl)
  intro _
  exact send_after es d _ { r with volatileState := r.volatileState.setRpcDue d (now + milliseconds TTimeout.rpc) }

theorem leaderTimeoutFor_after (r : TRaft) (d : ℕ) :
    (r.after es).leaderTimeoutFor now d = (r.leaderTimeoutFor now d).after es := by
  let beat (r : TRaft) : TRaft := { r with
    volatileState := (r.volatileState.setHearbeatDue d (now + milliseconds (TTimeout.election / 2))).setRpcDue d
      (now + milliseconds TTimeout.rpc) }
  apply ite_after es _ (fun _ => rfl)
  intro _
  exact sendAppendEntries_after es d (beat r)

theorem leaderTimeout_after (r : TRaft) : (r.after es).leaderTimeout now = (r.leaderTimeout now).after es := by
  unfold leaderTimeout
  dsimp only
  rw [show (r.after es).nodes = r.nodes from rfl, foldl_after es (leaderTimeoutFor_after es)]
  exact ite_after es (fun _ => rfl) (fun _ => rfl)

theorem dispatchTimeout_after (r : TRaft) : (r.after es).dispatchTimeout now = (r.dispatchTimeout now).after es := by
  unfold dispatchTimeout
  cases name : r.stateName with
  | none => rw [show (r.after es).stateName = .none from name]; exact emit_after ..
  | follower =>
    rw [show (r.after es).stateName = .follower from name]
    apply ite_after es _ (fun _ => rfl)
    intro _
    rw [become_eq, become_eq]
    rfl
  | candidate =>
    rw [show (r.after es).stateName = .candidate from name]
    exact foldl_after es (candidateTimeoutFor_after es) ..
  | leader =>
    rw [show (r.after es).stateName = .leader from name]
    exact leaderTimeout_after es r

theorem startElection_after (r : TRaft) : (r.after es).startElection delay now = (r.startElection delay now).after es := by
  rw [startElection_eq, startElection_eq]
  simp only [after, List.append_assoc]
  rfl

/-- **No call looks at the history**: it adds to it what it does. -/
theorem perform_after (call : Call) (r : TRaft) : (r.after es).perform delay call = (r.perform delay call).after es := by
  cases call with
  | process now m =>
    show (TRaft.dispatch delay now m (adoptTerm delay now m.ex? (r.after es))) = _
    rw [adoptTerm_after, dispatch_after]
    rfl
  | processTimeout now =>
    have due : (if (r.after es).electionIsDue now then (r.after es).startElection delay now else r.after es) =
        (if r.electionIsDue now then r.startElection delay now else r).after es :=
      ite_after es (fun _ => startElection_after ..) (fun _ => rfl)
    show processTimeout delay now (r.after es) = (processTimeout delay now r).after es
    unfold processTimeout
    dsimp only
    rw [due, ← dispatchTimeout_after es]
    generalize (if r.electionIsDue now then r.startElection delay now else r) = r₁
    exact congrArg _ (ite_after es (fun _ => rfl) (fun _ => rfl))
  | append entry => rfl
  | approveRead => exact foldl_after es (fun r d => sendAppendEntries_after es d r) ..

/-- The calls of a run do to the rest of the state what they do to a server without history. -/
theorem forget_perform {r r' : TRaft} (same : r.forget = r'.forget) (call : Call) :
    (r.perform delay call).forget = (r'.perform delay call).forget := by
  rw [← r.forget_after, ← r'.forget_after, same, perform_after, perform_after]
  rfl

/-! ## One message -/

/-- What a request of an old term is answered with: no, to `Src`, in `CurrentTerm`. A response is not answered. -/
def refusal (r : TRaft) : TMessage → List TEffect
  | .requestVoteRequest ex _ =>
    [.send ex.src (.requestVoteResponse { src := r.id, dst := ex.src, term := r.state.currentTerm } ⟨false⟩)]
  | .appendEntriesRequest ex _ => [.send ex.src (r.reply ex 0 false)]
  | _ => []

/-- The message is a response, or comes from a peer. -/
def Answerable (r : TRaft) (m : TMessage) : Prop :=
  match m with
  | .requestVoteRequest ex _ | .appendEntriesRequest ex _ => ex.src ∈ r.nodes
  | _ => True

/-- A message of an old term that the server can answer where it has to. -/
structure Stale (r : TRaft) (m : TMessage) : Prop where
  name : r.stateName ≠ .none
  term : ∃ ex, m.ex? = some ex ∧ ex.term < r.state.currentTerm
  answerable : r.Answerable m

/-- The server after it has done `es` and nothing else. -/
def did (es : List TEffect) (r : TRaft) : TRaft := { r with effects := r.effects ++ es }

theorem did_nil (r : TRaft) : r.did [] = r := by rw [did, List.append_nil]

/-- A reply is what it should be exactly where there is a node to send it through. -/
theorem send_eq_did_iff (d : ℕ) (m : TMessage) (r : TRaft) : r.send d m = r.did [.send d m] ↔ d ∈ r.nodes := by
  unfold send
  constructor
  · intro same
    by_contra unknown
    rw [if_neg unknown] at same
    have : r.effects ++ [.fault .nullNode] = r.effects ++ [.send d m] := congrArg effects same
    cases List.append_cancel_left this
  · intro known
    rw [if_pos known]
    rfl

theorem adoptTerm_stale {ex : TMessageEx} (early : ex.term < r.state.currentTerm) :
    r.adoptTerm delay now (some ex) = r :=
  if_neg early.not_gt

theorem onRequestVote_stale {ex : TMessageEx} (early : ex.term < r.state.currentTerm) (body : TRequestVoteRequest) :
    r.onRequestVote delay now ex body =
      r.send ex.src (.requestVoteResponse { src := r.id, dst := ex.src, term := r.state.currentTerm } ⟨false⟩) :=
  if_pos early

theorem onAppendEntries_stale {ex : TMessageEx} (early : ex.term < r.state.currentTerm) (body : TAppendEntriesRequest) :
    r.onAppendEntries delay now ex body = r.send ex.src (r.reply ex 0 false) :=
  if_pos early

theorem onRequestVoteResponse_stale {ex : TMessageEx} (early : ex.term < r.state.currentTerm)
    (body : TRequestVoteResponse) : r.onRequestVoteResponse ex body = r :=
  if_neg fun counted => early.ne counted.2

theorem onAppendEntriesResponse_stale {ex : TMessageEx} (early : ex.term < r.state.currentTerm)
    (body : TAppendEntriesResponse) : r.onAppendEntriesResponse ex body = r :=
  if_pos early.ne

/-- **In every role** a request of an old term is answered through `Nodes`, and a response is dropped. -/
theorem process_stale (name : r.stateName ≠ .none) {m : TMessage} {ex : TMessageEx} (header : m.ex? = some ex)
    (early : ex.term < r.state.currentTerm) : r.process delay now m = r.did (r.refusal m) ↔ r.Answerable m := by
  have same : r.process delay now m = r.dispatch delay now m := by
    rw [process, header, adoptTerm_stale early]
  rw [same]
  unfold dispatch
  cases m with
  | requestVoteRequest ex body =>
    cases header
    have answered : r.onRequestVote delay now ex body = r.did (r.refusal (.requestVoteRequest ex body)) ↔
        ex.src ∈ r.nodes := by
      rw [onRequestVote_stale early]
      apply send_eq_did_iff
    cases role : r.stateName with
    | none => exact absurd role name
    | _ => exact answered
  | appendEntriesRequest ex body =>
    cases header
    have answered : r.onAppendEntries delay now ex body = r.did (r.refusal (.appendEntriesRequest ex body)) ↔
        ex.src ∈ r.nodes := by
      rw [onAppendEntries_stale early]
      apply send_eq_did_iff
    cases role : r.stateName with
    | none => exact absurd role name
    | _ => exact answered
  | requestVoteResponse ex body =>
    cases header
    refine iff_of_true ?_ trivial
    refine Eq.trans ?_ r.did_nil.symm
    cases role : r.stateName with
    | none => exact absurd role name
    | candidate => exact onRequestVoteResponse_stale early body
    | _ => rfl
  | appendEntriesResponse ex body =>
    cases header
    refine iff_of_true ?_ trivial
    refine Eq.trans ?_ r.did_nil.symm
    cases role : r.stateName with
    | none => exact absurd role name
    | leader => exact onAppendEntriesResponse_stale early body
    | _ => rfl
  | other => cases header

/-! ## Runs -/

/-- A call of `Process` with such a message. -/
def Ignores (r : TRaft) (call : Call) : Prop := ∃ now m, call = .process now m ∧ r.Stale m

/-- The elections that start at a call, by their time. -/
def elections (r : TRaft) : Call → List Time
  | .processTimeout now => if r.electionIsDue now then [now] else []
  | _ => []

theorem forget_ignores {call : Call} (stale : r.Ignores call) : (r.perform delay call).forget = r.forget := by
  obtain ⟨now, m, rfl, name, ⟨ex, header, early⟩, answerable⟩ := stale
  show (r.process delay now m).forget = r.forget
  rw [(process_stale name header early).mpr answerable]
  rfl

theorem elections_forget {r r' : TRaft} (same : r.forget = r'.forget) (call : Call) :
    r.elections call = r'.elections call := by
  rw [← r.forget_after, ← r'.forget_after, same]
  cases call <;> rfl

end TRaft

section

open TRaft

/-- **Messages of old terms change nothing.** In every role a message of an old term does nothing but to add the
negative reply to a request to what was sent, exactly where it is a response or comes from a peer. With any number of
such messages put in, a run goes through the same states, and its elections start at the same times. -/
theorem stale_messages_ignored (delay : UInt32 → ℕ) :
    (∀ (now : Time) (r : TRaft) (m : TMessage) (ex : TMessageEx), r.stateName ≠ .none → m.ex? = some ex →
      ex.term < r.state.currentTerm → (r.process delay now m = r.did (r.refusal m) ↔ r.Answerable m)) ∧
    ∀ (r : TRaft) (calls more : List Call),
      Interspersed (fun r call => TRaft.perform delay call r) Ignores r calls more →
        (∀ q, q ∈ (visits (fun r call => TRaft.perform delay call r) r more).map forget ↔
          q ∈ (visits (fun r call => TRaft.perform delay call r) r calls).map forget) ∧
        observes (fun r call => TRaft.perform delay call r) elections r more =
          observes (fun r call => TRaft.perform delay call r) elections r calls := by
  refine ⟨fun now r m ex name header early => process_stale name header early, fun r calls more put => ⟨?_, ?_⟩⟩
  · exact put.visits rfl (fun _ _ call same => forget_perform same call) (fun _ _ => forget_ignores)
  · refine put.observes (show r.forget = r.forget from rfl) (fun _ _ call same => forget_perform same call)
      (fun _ _ => forget_ignores) (fun _ _ call same => elections_forget same call) ?_
    rintro _ _ ⟨now, m, rfl, -⟩
    rfl

/-- A request of term 0 that server 2 sends to server 1. -/
def oldRequest (src : ℕ) : TMessage :=
  .appendEntriesRequest { src := src, dst := 1 } { leaderId := src }

theorem stale_messages_ignored_peer :
    (TRaft.new {} 1 [2, 3]).process (fun _ => 5000) 0 (oldRequest 2) =
        (TRaft.new {} 1 [2, 3]).did ((TRaft.new {} 1 [2, 3]).refusal (oldRequest 2)) ∧
      observes (fun r call => TRaft.perform (fun _ => 5000) call r) elections (TRaft.new {} 1 [2, 3])
          [.process 0 (oldRequest 2), .processTimeout 7] = [7] := by
  have claim := stale_messages_ignored fun _ => 5000
  have early : ({ src := 2, dst := 1 } : TMessageEx).term < (TRaft.new {} 1 [2, 3]).state.currentTerm := by decide
  have peer : (TRaft.new {} 1 [2, 3]).Answerable (oldRequest 2) := by
    show 2 ∈ [2, 3]
    decide
  have stale : (TRaft.new {} 1 [2, 3]).Stale (oldRequest 2) := ⟨by decide, ⟨_, rfl, early⟩, peer⟩
  constructor
  · exact (claim.1 0 _ (oldRequest 2) _ (by decide) rfl early).mpr peer
  · apply (claim.2 _ [.processTimeout 7] _ (.insert _ ⟨0, _, rfl, stale⟩ (.keep _ (.nil _)))).2.trans
    decide

/-- A request of an old term from a server outside `Nodes` is not answered: the null node is called. -/
theorem stale_messages_ignored_stranger :
    ((TRaft.new {} 1 [2, 3]).process (fun _ => 5000) 0 (oldRequest 99)).effects = [.fault .nullNode] ∧
      (TRaft.new {} 1 [2, 3]).process (fun _ => 5000) 0 (oldRequest 99) ≠
        (TRaft.new {} 1 [2, 3]).did ((TRaft.new {} 1 [2, 3]).refusal (oldRequest 99)) := by
  have crash : ((TRaft.new {} 1 [2, 3]).process (fun _ => 5000) 0 (oldRequest 99)).effects = [.fault .nullNode] := by
    decide
  refine ⟨crash, fun same => ?_⟩
  rw [same] at crash
  exact absurd crash (by decide)

end

end MiniRaft
