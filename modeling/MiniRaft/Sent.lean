import MiniRaft.Requests

/-!
# What a call sends

Each message of a call carries the sender and the term that it has when the call is over. A request is what the leader
creates as it is then, and a response answers the request that the call processed. So no message on its way has a later term
than its sender.
-/

namespace MiniRaft

/-- The response with this body to a request of a call that leaves the server as `r`. -/
inductive TRaft.Answers (r : TRaft) (request : TMessageEx) (body : TAppendEntriesRequest) : TAppendEntriesResponse → Prop where
  | outdated (early : request.term < r.state.currentTerm) : Answers r request body { matchIndex := 0, success := false }
  | stored (present : request.term = r.state.currentTerm) :
      Answers r request body { matchIndex := body.prevLogIndex + body.payload.length, success := true }
  | refused (present : request.term = r.state.currentTerm) (fails : ¬ fitsLog body r.state) :
      Answers r request body { matchIndex := 0, success := false }

/-- A call that leaves the server as `r` may have sent this to `d`. -/
def Call.Sends (call : Call) (r : TRaft) (d : ℕ) (m : TMessage) : Prop :=
  (∀ ex ∈ m.ex?, ex.src = r.id ∧ ex.term = r.state.currentTerm) ∧
  match m with
  | .appendEntriesRequest _ body => r.stateName = .leader ∧ r.Creates d body
  | .appendEntriesResponse _ answer => ∃ now request body, call = .process now (.appendEntriesRequest request body) ∧
      d = request.src ∧ r.Answers request body answer
  | .requestVoteRequest .. | .requestVoteResponse .. => True
  | .other => False

namespace Call.Sends

variable {call : Call} {r : TRaft} {now : Time} {request ex : TMessageEx} {body : TAppendEntriesRequest} {m : TMessage} {d : ℕ}

theorem vote {granted : TRequestVoteResponse} (source : ex.src = r.id) (term : ex.term = r.state.currentTerm) :
    call.Sends (r.send d m) d (.requestVoteResponse ex granted) := by
  refine ⟨fun _ same => Option.some.inj same ▸ ⟨?_, ?_⟩, trivial⟩
  · rwa [TRaft.id_send]
  · rwa [TRaft.state_send]

theorem answer {response : TAppendEntriesResponse} (source : ex.src = r.id) (term : ex.term = r.state.currentTerm)
    (answers : (r.send request.src m).Answers request body response) :
    (Call.process now (.appendEntriesRequest request body)).Sends (r.send request.src m) request.src
      (.appendEntriesResponse ex response) := by
  refine ⟨fun _ same => Option.some.inj same ▸ ⟨?_, ?_⟩, now, request, body, rfl, rfl, answers⟩
  · rwa [TRaft.id_send]
  · rwa [TRaft.state_send]

end Call.Sends

namespace TRaft

variable {delay : UInt32 → ℕ} {now : Time} {call : Call} {r r' r'' : TRaft} {d t : ℕ} {m : TMessage}
  {P : ℕ → TMessage → Prop}

/-- All that was sent since `r` is as `P` says. -/
def Since (P : ℕ → TMessage → Prop) (r r' : TRaft) : Prop :=
  ∃ es, r'.effects = r.effects ++ es ∧ ∀ d m, .send d m ∈ es → P d m

namespace Since

theorem of_same (same : r'.effects = r.effects) : Since P r r' := ⟨[], by rw [same, List.append_nil], nofun⟩

theorem refl (r : TRaft) : Since P r r := of_same rfl

theorem trans (since : Since P r r') (since' : Since P r' r'') : Since P r r'' := by
  obtain ⟨es, effects, sent⟩ := since
  obtain ⟨es', effects', sent'⟩ := since'
  refine ⟨es ++ es', by rw [effects', effects, List.append_assoc], fun d m there => ?_⟩
  exact (List.mem_append.mp there).elim (sent d m) (sent' d m)

theorem emit {e : TEffect} (other : ∀ d m, e ≠ .send d m) : Since P r (r.emit e) :=
  ⟨[e], rfl, fun d m there => absurd (List.mem_singleton.mp there).symm (other d m)⟩

theorem send (holds : P d m) : Since P r (r.send d m) := by
  refine ⟨_, effects_send d m r, fun d' m' there => ?_⟩
  have same := List.mem_singleton.mp there
  split at same
  · obtain ⟨rfl, rfl⟩ := TEffect.send.inj same
    exact holds
  · cases same

theorem mono {P' : ℕ → TMessage → Prop} (since : Since P r r') (weaker : ∀ d m, P d m → P' d m) : Since P' r r' := by
  obtain ⟨es, effects, sent⟩ := since
  exact ⟨es, effects, fun d m there => weaker d m (sent d m there)⟩

theorem grows (since : Since P r r') : r.effects <+: r'.effects := by
  obtain ⟨es, effects, -⟩ := since
  exact ⟨es, effects.symm⟩

/-- The messages that are in `r'` and not in `r`. -/
theorem of_drop (since : Since P r r') (there : .send d m ∈ r'.effects.drop r.effects.length) : P d m := by
  obtain ⟨es, effects, sent⟩ := since
  rw [effects, List.drop_left] at there
  exact sent d m there

theorem of_new (since : Since P r r') (there : .send d m ∈ r'.effects) (new : .send d m ∉ r.effects) : P d m := by
  obtain ⟨es, effects, sent⟩ := since
  rw [effects] at there
  exact sent d m ((List.mem_append.mp there).resolve_left new)

/-! ## Messages -/

theorem adoptTerm (header : Option TMessageEx) : Since P r (r.adoptTerm delay now header) := by
  have demoted (t : ℕ) : Since P r (r.demoted t) := by
    have stored : Since P r (r.emit (.commit (r.state.withVote t 0).toTStateFields)) := .emit nofun
    exact stored.trans (.of_same rfl)
  have taken := r.adopting delay now header
  generalize r.adoptTerm delay now header = r' at taken ⊢
  cases taken with
  | known => exact refl r
  | armed => exact (demoted _).trans (.of_same rfl)
  | running => exact demoted _

theorem dispatch (m : TMessage) : Since (Call.Sends (.process now m) (r.dispatch delay now m)) r (r.dispatch delay now m) := by
  have taken := r.dispatched delay now m
  generalize r.dispatch delay now m = r' at taken ⊢
  cases taken with
  | ignored => exact refl r
  | unknown => exact emit nofun
  | requestVote ex body =>
    have taken := r.voting delay now ex body
    generalize r.onRequestVote delay now ex body = r' at taken ⊢
    cases taken with
    | refused => exact send (.vote rfl rfl)
    | granted =>
      have voted (P : ℕ → TMessage → Prop) : Since P r { r.makeElection delay now with
          state := r.state.withVote r.state.currentTerm body.candidateId }.commit := emit nofun
      exact (voted _).trans (send (.vote rfl rfl))
    | ignored => exact refl r
  | vote name ex body =>
    have taken := r.polling ex body
    generalize r.onRequestVoteResponse ex body = r' at taken ⊢
    cases taken with
    | counted => exact of_same rfl
    | ignored => exact refl r
  | appendEntries ex body =>
    have heard (P : ℕ → TMessage → Prop) (n : ℕ) (state : TState) : Since P r (r.heard delay now body.leaderId n state) :=
      of_same rfl
    have taken := r.appending delay now ex body
    generalize r.onAppendEntries delay now ex body = r' at taken ⊢
    cases taken with
    | outdated early =>
      refine send (.answer rfl rfl (.outdated ?_))
      rwa [state_send]
    | unexpected => exact emit nofun
    | merged present fits =>
      have term := (TState.replaceAll_fields body.payload body.prevLogIndex r.state).1
      refine (heard _ _ _).trans (send (.answer rfl term.symm (.stored ?_)))
      rw [state_send]
      exact present.trans term.symm
    | rejected present fails =>
      refine (heard _ _ _).trans (send (.answer rfl rfl (.refused ?_ ?_)))
      · rwa [state_send]
      · rwa [state_send]
  | appended name ex body =>
    have taken := r.responding ex body
    generalize r.onAppendEntriesResponse ex body = r' at taken ⊢
    cases taken with
    | outdated => exact refl r
    | matched => exact of_same rfl
    | failed => exact of_same rfl

/-! ## Timeouts -/

theorem startElection : Since P r (r.startElection delay now) := by
  rw [startElection_eq]
  have stored : Since P r (r.emit (.commit (r.state.withVote (r.state.currentTerm + 1) r.id).toTStateFields)) := emit nofun
  exact stored.trans (of_same rfl)

/-- A candidate asks for votes. -/
theorem candidateTimeout : Since (call.Sends (r.candidateTimeout now)) r (r.candidateTimeout now) := by
  have whole : (r.candidateTimeout now).id = r.id ∧ (r.candidateTimeout now).state = r.state ∧
      Since (fun _ m => ∃ ex body, m = .requestVoteRequest ex body ∧ ex.src = r.id ∧ ex.term = r.state.currentTerm)
        r (r.candidateTimeout now) := by
    refine candidateTimeout_rule (P := fun r' => r'.id = r.id ∧ r'.state = r.state ∧ Since _ r r') ?_ ⟨rfl, rfl, refl r⟩
    rintro r' p due _ ⟨id, state, since⟩
    have armed (P : ℕ → TMessage → Prop) : Since P r' { r' with volatileState := r'.volatileState.setRpcDue p due } :=
      of_same rfl
    refine ⟨(id_send ..).trans id, (state_send ..).trans state, (since.trans (armed _)).trans (.send ?_)⟩
    exact ⟨_, _, rfl, id, congrArg (·.currentTerm) state⟩
  obtain ⟨id, state, since⟩ := whole
  refine since.mono fun d m ⟨ex, body, same, source, term⟩ => ?_
  subst same
  refine ⟨fun ex' same => Option.some.inj same ▸ ⟨by rw [id, source], by rw [state, term]⟩, trivial⟩

/-- The requests of a loop over the peers of `r`. -/
def Request (r : TRaft) (d : ℕ) (m : TMessage) : Prop :=
  ∃ ex body, m = .appendEntriesRequest ex body ∧ ex.src = r.id ∧ ex.term = r.state.currentTerm ∧ r.Creates d body

theorem sendAppendEntries (asking : Asking r r') (since : Since (Request r) r r') :
    Since (Request r) r (r'.sendAppendEntries d) := by
  have counted : Since (Request r) r'
      { r' with seqno := r'.seqno + 1, volatileState := r'.volatileState.touchMatch d } := of_same rfl
  refine (since.trans counted).trans (send ?_)
  obtain ⟨ex, body, built⟩ : ∃ ex body, r'.createAppendEntries d = .appendEntriesRequest ex body := ⟨_, _, rfl⟩
  have header := (TMessage.appendEntriesRequest.inj built).1
  refine ⟨ex, body, built, ?_, ?_, (asking.view.creates_iff body).mp ⟨ex, built⟩⟩
  · rw [← header]
    exact asking.view.id
  · rw [← header]
    exact congrArg (·.currentTerm) asking.view.state

theorem request_sends (leads : r.stateName = .leader) (view : SameView r r') (request : Request r d m) :
    call.Sends r' d m := by
  obtain ⟨ex, body, rfl, source, term, creates⟩ := request
  refine ⟨fun ex' same => Option.some.inj same ▸ ⟨by rw [view.id, source], by rw [view.state, term]⟩, ?_, ?_⟩
  · exact view.name.trans leads
  · exact (view.creates_iff body).mpr creates

theorem leaderTimeout (leads : r.stateName = .leader) :
    Since (call.Sends (r.leaderTimeout now)) r (r.leaderTimeout now) := by
  have whole : Asking r (r.nodes.foldl (leaderTimeoutFor now) r) ∧
      Since (Request r) r (r.nodes.foldl (leaderTimeoutFor now) r) := by
    refine heartbeats_rule (P := fun r' => Asking r r' ∧ Since (Request r) r r') ?_ ⟨.refl r, refl r⟩
    rintro r' p heartbeat rpc peer ⟨asking, since⟩
    have asking := asking.rearmed (d := p) heartbeat rpc
    exact ⟨asking.sendAppendEntries peer, sendAppendEntries asking (since.trans (of_same rfl))⟩
  obtain ⟨asking, since⟩ := whole
  unfold TRaft.leaderTimeout
  dsimp only
  split
  · -- without peers nothing is sent
    rename_i alone
    have none : r.nodes = [] := by
      rw [nservers, asking.view.nodes] at alone
      exact List.length_eq_zero_iff.mp (Nat.succ.inj alone)
    rw [none]
    exact of_same rfl
  · exact since.mono fun d m request => request_sends leads asking.view request

theorem approveRead (leads : r.stateName = .leader) : Since (call.Sends r.approveRead.2) r r.approveRead.2 := by
  have whole : Asking r r.approveRead.2 ∧ Since (Request r) r r.approveRead.2 := by
    refine approveRead_rule (P := fun r' => Asking r r' ∧ Since (Request r) r r') ?_ ⟨.refl r, refl r⟩
    rintro r' p peer ⟨asking, since⟩
    exact ⟨asking.sendAppendEntries peer, sendAppendEntries asking since⟩
  exact whole.2.mono fun d m request => request_sends leads whole.1.view request

theorem dispatchTimeout : Since (call.Sends (r.dispatchTimeout now)) r (r.dispatchTimeout now) := by
  have taken := r.ticking now
  generalize r.dispatchTimeout now = r' at taken ⊢
  cases taken with
  | waits => exact refl r
  | stands => exact of_same rfl
  | asks => exact candidateTimeout
  | pings name => exact leaderTimeout name
  | unknown => exact emit nofun

theorem processTimeout : Since (call.Sends (r.processTimeout delay now)) r (r.processTimeout delay now) := by
  have started (P : ℕ → TMessage → Prop) : Since P r (if r.electionIsDue now then r.startElection delay now else r) := by
    split
    · exact startElection
    · exact refl r
  have won (P : ℕ → TMessage → Prop) (r : TRaft) : Since P r (if r.wins then r.becomeLeader else r) := by
    split
    · exact of_same rfl
    · exact refl r
  exact ((started _).trans (won _ _)).trans dispatchTimeout

/-! ## Calls -/

/-- **What a call sends.** -/
theorem perform (leads : call = .approveRead → r.stateName = .leader) :
    Since (call.Sends (r.perform delay call)) r (r.perform delay call) := by
  cases call with
  | process now m => exact (adoptTerm m.ex?).trans (dispatch m)
  | processTimeout now => exact processTimeout
  | append entry => exact of_same rfl
  | approveRead => exact approveRead (leads rfl)

end Since

/-! ## Terms -/

theorem term_dispatch (m : TMessage) : (r.dispatch delay now m).state.currentTerm = r.state.currentTerm := by
  have taken := r.dispatched delay now m
  generalize r.dispatch delay now m = r' at taken ⊢
  cases taken with
  | ignored => rfl
  | unknown => rfl
  | requestVote ex body =>
    have taken := r.voting delay now ex body
    generalize r.onRequestVote delay now ex body = r' at taken ⊢
    cases taken with
    | refused => rw [state_send]
    | granted => rw [state_send]; rfl
    | ignored => rfl
  | vote name ex body =>
    have taken := r.polling ex body
    generalize r.onRequestVoteResponse ex body = r' at taken ⊢
    cases taken with
    | counted => rfl
    | ignored => rfl
  | appendEntries ex body =>
    have taken := r.appending delay now ex body
    generalize r.onAppendEntries delay now ex body = r' at taken ⊢
    cases taken with
    | outdated => rw [state_send]
    | unexpected => rfl
    | merged =>
      rw [state_send]
      exact (TState.replaceAll_fields body.payload body.prevLogIndex r.state).1
    | rejected => rw [state_send]; rfl
  | appended name ex body =>
    have taken := r.responding ex body
    generalize r.onAppendEntriesResponse ex body = r' at taken ⊢
    cases taken with
    | outdated => rfl
    | matched => rfl
    | failed => rfl

/-- **No call goes back to an earlier term.** -/
theorem term_le_perform (r : TRaft) (call : Call) : r.state.currentTerm ≤ (r.perform delay call).state.currentTerm := by
  cases call with
  | process now m =>
    refine le_of_le_of_eq ?_ (term_dispatch m).symm
    generalize m.ex? = header
    have taken := r.adopting delay now header
    generalize r.adoptTerm delay now header = r' at taken ⊢
    cases taken with
    | known => exact le_rfl
    | armed later => exact later.le
    | running later => exact later.le
  | processTimeout now =>
    refine (TimeoutInvariant.ofState r.nodes (r.state.currentTerm ≤ ·.currentTerm)).processTimeout (fun _ => le_rfl) ?_
      fun _ le => le
    intro due
    rw [startElection_eq]
    exact Nat.le_succ _
  | append entry => exact le_rfl
  | approveRead => exact (congrArg (·.currentTerm) (state_approveRead r)).ge

/-- Nothing that was sent is of a later term. -/
def Dated (r : TRaft) : Prop := ∀ d m, .send d m ∈ r.effects → ∀ ex ∈ m.ex?, ex.term ≤ r.state.currentTerm

theorem Dated.perform (dated : r.Dated) (leads : call = .approveRead → r.stateName = .leader) :
    (r.perform delay call).Dated := by
  intro d m sent ex header
  by_cases old : .send d m ∈ r.effects
  · exact (dated d m old ex header).trans (term_le_perform r call)
  · exact (((Since.perform leads).of_new sent old).1 ex header).2.le

end TRaft

variable {delay : UInt32 → ℕ} {lim : ℕ} {ids : Finset ℕ} {c c' : Cluster} {s : ℕ}

theorem Cluster.Enabled.since {call : Call} (enabled : Cluster.Enabled ids c s call) :
    TRaft.Since (call.Sends ((c s).perform delay call)) (c s) ((c s).perform delay call) := by
  apply TRaft.Since.perform
  rintro rfl
  exact enabled

/-- **No message is of a later term than its sender**, in a reachable cluster. -/
theorem Cluster.Reachable.dated (reach : Cluster.Reachable delay lim ids c) (mem : s ∈ ids) : (c s).Dated := by
  obtain ⟨start, fresh, later⟩ := reach
  induction later with
  | refl =>
    obtain ⟨nodes, -, -, new⟩ := fresh.2 s mem
    rw [new]
    exact fun d m sent => absurd sent List.not_mem_nil
  | @tail c c' before st dated =>
    rcases st.reacts s with idle | ⟨-, call, enabled, called⟩ | ⟨-, restarted⟩
    · rwa [idle]
    · rw [called]
      apply dated.perform
      rintro rfl
      exact enabled
    · rw [restarted]
      exact dated

end MiniRaft
