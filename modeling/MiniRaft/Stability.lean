import MiniRaft.Timely

/-!
# Leaders that stay

As long as messages and the clock do not take longer than half an election timeout together, no server that follows a leader
stands for election, and so the leader goes on in its term.
-/

namespace MiniRaft

open Lib

namespace TRaft

variable {delay : UInt32 → ℕ} {now : Time} {r r' : TRaft} {m : TMessage} {T d : ℕ}

/-! ## Followers -/

/-- A follower in a term up to `T` goes on as such, and its timer is as it was or set at `now`. -/
structure Follows (delay : UInt32 → ℕ) (now : Time) (T : ℕ) (r r' : TRaft) : Prop where
  name : r'.stateName = .follower
  low : r.state.currentTerm ≤ r'.state.currentTerm
  term : r'.state.currentTerm ≤ T
  due : r'.volatileState.electionDue = r.volatileState.electionDue ∨
    ∃ seed, r'.volatileState.electionDue = now + milliseconds (delay seed)

theorem Follows.trans {r'' : TRaft} (first : Follows delay now T r r') (second : Follows delay now T r' r'') :
    Follows delay now T r r'' where
  name := second.name
  low := first.low.trans second.low
  term := second.term
  due := by
    rcases second.due with same | set
    · rw [same]
      exact first.due
    · exact .inr set

theorem Follows.refl (name : r.stateName = .follower) (term : r.state.currentTerm ≤ T) : Follows delay now T r r :=
  ⟨name, le_rfl, term, .inl rfl⟩

theorem Follows.send (follows : Follows delay now T r r') : Follows delay now T r (r'.send d m) where
  name := (stateName_send ..).trans follows.name
  low := by rw [state_send]; exact follows.low
  term := by rw [state_send]; exact follows.term
  due := by rw [volatileState_send]; exact follows.due

theorem dispatch_follower (name : r.stateName = .follower) (term : r.state.currentTerm ≤ T) :
    Follows delay now T r (r.dispatch delay now m) := by
  have here : Follows delay now T r r := .refl name term
  have taken := r.dispatched delay now m
  generalize r.dispatch delay now m = r' at taken ⊢
  cases taken with
  | ignored => exact here
  | unknown => exact { here with }
  | requestVote ex body =>
    have taken := r.voting delay now ex body
    generalize r.onRequestVote delay now ex body = r' at taken ⊢
    cases taken with
    | refused => exact here.send
    | granted =>
      have voted : Follows delay now T r { r.makeElection delay now with
          state := r.state.withVote r.state.currentTerm body.candidateId }.commit := ⟨name, le_rfl, term, .inr ⟨_, rfl⟩⟩
      exact voted.send
    | ignored => exact here
  | vote candidate => exact absurd (candidate.symm.trans name) (by decide)
  | appendEntries ex body =>
    have heard (n : ℕ) {state : TState} (same : state.currentTerm = r.state.currentTerm) :
        Follows delay now T r (r.heard delay now body.leaderId n state) :=
      ⟨rfl, same.ge, same.le.trans term, .inr ⟨_, rfl⟩⟩
    have taken := r.appending delay now ex body
    generalize r.onAppendEntries delay now ex body = r' at taken ⊢
    cases taken with
    | outdated => exact here.send
    | unexpected => exact { here with }
    | merged => exact (heard _ (TState.replaceAll_fields body.payload body.prevLogIndex r.state).1).send
    | rejected => exact (heard _ rfl).send
  | appended leader => exact absurd (leader.symm.trans name) (by decide)

theorem adoptTerm_follower (name : r.stateName = .follower) (term : r.state.currentTerm ≤ T) {header : Option TMessageEx}
    (early : ∀ ex ∈ header, ex.term ≤ T) : Follows delay now T r (r.adoptTerm delay now header) := by
  have taken := r.adopting delay now header
  generalize r.adoptTerm delay now header = r' at taken ⊢
  cases taken with
  | known => exact .refl name term
  | armed later => exact ⟨rfl, later.le, early _ rfl, .inr ⟨_, rfl⟩⟩
  | running later => exact ⟨rfl, later.le, early _ rfl, .inl rfl⟩

/-- A message of a term up to `T` leaves a follower what it is. -/
theorem process_follower (name : r.stateName = .follower) (term : r.state.currentTerm ≤ T)
    (early : ∀ ex ∈ m.ex?, ex.term ≤ T) : Follows delay now T r (r.process delay now m) := by
  have adopted : Follows delay now T r (r.adoptTerm delay now m.ex?) := adoptTerm_follower name term early
  exact adopted.trans (dispatch_follower adopted.name adopted.term)

/-- A request of the present term sets the timer. -/
theorem due_onAppendEntries {ex : TMessageEx} {body : TAppendEntriesRequest} (present : ex.term = r.state.currentTerm) :
    ∃ seed, (r.onAppendEntries delay now ex body).volatileState.electionDue = now + milliseconds (delay seed) := by
  have taken := r.appending delay now ex body
  generalize r.onAppendEntries delay now ex body = r' at taken ⊢
  cases taken with
  | outdated early => omega
  | unexpected late => omega
  | merged => rw [volatileState_send]; exact ⟨_, rfl⟩
  | rejected => rw [volatileState_send]; exact ⟨_, rfl⟩

theorem term_adoptTerm {ex : TMessageEx} (le : r.state.currentTerm ≤ ex.term) :
    (r.adoptTerm delay now (some ex)).state.currentTerm = ex.term := by
  have taken := r.adopting delay now (some ex)
  generalize r.adoptTerm delay now (some ex) = r' at taken ⊢
  cases taken with
  | known le' => exact Nat.le_antisymm le (le' ex rfl)
  | armed => rfl
  | running => rfl

/-- **A follower hears of its leader**, is in its term, and sets its timer. -/
theorem process_request (delay : UInt32 → ℕ) (now : Time) (name : r.stateName = .follower) {ex : TMessageEx}
    (body : TAppendEntriesRequest) (le : r.state.currentTerm ≤ ex.term) :
    (r.process delay now (.appendEntriesRequest ex body)).state.currentTerm = ex.term ∧
      ∃ seed, (r.process delay now (.appendEntriesRequest ex body)).volatileState.electionDue =
        now + milliseconds (delay seed) := by
  have adopted : Follows delay now ex.term r (r.adoptTerm delay now (some ex)) :=
    adoptTerm_follower name le fun _ same => (congrArg _ (Option.some.inj same)).ge
  have term : (r.adoptTerm delay now (some ex)).state.currentTerm = ex.term := term_adoptTerm le
  have handled : r.process delay now (.appendEntriesRequest ex body) =
      (r.adoptTerm delay now (some ex)).onAppendEntries delay now ex body := by
    change (r.adoptTerm delay now (some ex)).dispatch delay now _ = _
    rw [dispatch, adopted.name]
    rfl
  refine ⟨(term_dispatch _).trans term, ?_⟩
  rw [handled]
  exact due_onAppendEntries term.symm

/-- The timer of a follower that is not due is not touched. -/
theorem processTimeout_follower (name : r.stateName = .follower) (early : now < r.volatileState.electionDue) :
    r.processTimeout delay now = r := by
  have calm : r.electionIsDue now = false := by
    rw [electionIsDue, decide_eq_false_iff_not]
    exact fun due => early.not_ge due.2
  have settled : r.wins = false := by simp [wins, name]
  unfold processTimeout
  simp only [calm, settled, Bool.false_eq_true, if_false]
  rw [dispatchTimeout, name]
  exact if_neg early.not_ge

/-! ## Leaders -/

/-- A leader goes on in its term. -/
structure Goes (r r' : TRaft) : Prop where
  name : r'.stateName = .leader
  term : r'.state.currentTerm = r.state.currentTerm
  log : r.state.log <+: r'.state.log
  commitIndex : r.volatileState.commitIndex ≤ r'.volatileState.commitIndex

/-- And what it knows of its peers is as it was. -/
structure Steady (r r' : TRaft) : Prop extends Goes r r' where
  nextIndex : r'.volatileState.nextIndex = r.volatileState.nextIndex
  matchOf : ∀ p, r'.volatileState.matchOf p = r.volatileState.matchOf p

theorem Steady.refl (leads : r.stateName = .leader) : Steady r r :=
  ⟨⟨leads, rfl, List.prefix_rfl, le_rfl⟩, rfl, fun _ => rfl⟩

theorem Steady.send (steady : Steady r r') : Steady r (r'.send d m) where
  name := (stateName_send ..).trans steady.name
  term := by rw [state_send]; exact steady.term
  log := by rw [state_send]; exact steady.log
  commitIndex := by rw [volatileState_send]; exact steady.commitIndex
  nextIndex := by rw [volatileState_send]; exact steady.nextIndex
  matchOf p := by rw [volatileState_send]; exact steady.matchOf p

/-- A loop over the peers. -/
theorem Asking.steady (asking : Asking r r') (leads : r.stateName = .leader) : Steady r r' :=
  ⟨⟨asking.view.name.trans leads, congrArg (·.currentTerm) asking.view.state,
    (congrArg (·.log) asking.view.state).symm ▸ List.prefix_rfl, asking.view.commitIndex.ge⟩,
    asking.view.nextIndex, asking.view.matchOf⟩

theorem le_commitAdvance (v : TVolatileState) (n : ℕ) (state : TState) (seqno : ℕ) :
    v.commitIndex ≤ (v.commitAdvance n state seqno).commitIndex := by
  unfold TVolatileState.commitAdvance
  dsimp only
  split
  · exact le_max_left ..
  · exact le_rfl

theorem goes_onAppendEntriesResponse (leads : r.stateName = .leader) (ex : TMessageEx) (body : TAppendEntriesResponse) :
    Goes r (r.onAppendEntriesResponse ex body) ∧
      (r.onAppendEntriesResponse ex body).volatileState.heartbeatDue = r.volatileState.heartbeatDue := by
  have taken := r.responding ex body
  generalize r.onAppendEntriesResponse ex body = r' at taken ⊢
  cases taken with
  | outdated => exact ⟨⟨leads, rfl, List.prefix_rfl, le_rfl⟩, rfl⟩
  | matched =>
    have later := le_commitAdvance (r.volatileState.matched ex.src body.matchIndex) r.nservers r.state ex.seqno
    refine ⟨⟨leads, rfl, List.prefix_rfl, later⟩, ?_⟩
    obtain ⟨_, _, same⟩ := (r.volatileState.matched ex.src body.matchIndex).commitAdvance_eq r.nservers r.state ex.seqno
    rw [same]
    rfl
  | failed => exact ⟨⟨leads, rfl, List.prefix_rfl, le_rfl⟩, rfl⟩

/-- **What messages do to a leader**, none of which is of a later term or from another leader of its term. -/
theorem process_leader (delay : UInt32 → ℕ) (now : Time) (leads : r.stateName = .leader)
    (early : ∀ ex ∈ m.ex?, ex.term ≤ r.state.currentTerm)
    (only : ∀ ex body, m = .appendEntriesRequest ex body → ex.term ≠ r.state.currentTerm) :
    (Steady r (r.process delay now m) ∧ (r.process delay now m).volatileState.heartbeatDue = r.volatileState.heartbeatDue) ∨
    ∃ ex body, m = .appendEntriesResponse ex body ∧ ex.term = r.state.currentTerm ∧
      r.process delay now m = r.onAppendEntriesResponse ex body := by
  have adopted : r.adoptTerm delay now m.ex? = r := by
    generalize m.ex? = header at early
    have taken := r.adopting delay now header
    generalize r.adoptTerm delay now header = r' at taken ⊢
    cases taken with
    | known => rfl
    | armed later => exact absurd (early _ rfl) later.not_ge
    | running later => exact absurd (early _ rfl) later.not_ge
  unfold process
  rw [adopted]
  have here : Steady r r := .refl leads
  have taken := r.dispatched delay now m
  generalize r.dispatch delay now m = r' at taken ⊢
  cases taken with
  | ignored => exact .inl ⟨here, rfl⟩
  | unknown => exact .inl ⟨{ here with }, rfl⟩
  | requestVote ex body =>
    have taken := r.voting delay now ex body
    generalize r.onRequestVote delay now ex body = r' at taken ⊢
    left
    cases taken with
    | refused => exact ⟨here.send, by rw [volatileState_send]⟩
    | granted =>
      have voted : Steady r { r.makeElection delay now with
          state := r.state.withVote r.state.currentTerm body.candidateId }.commit :=
        ⟨⟨leads, rfl, List.prefix_rfl, le_rfl⟩, rfl, fun _ => rfl⟩
      exact ⟨voted.send, by rw [volatileState_send]; rfl⟩
    | ignored => exact ⟨here, rfl⟩
  | vote candidate => exact absurd (candidate.symm.trans leads) (by decide)
  | appendEntries ex body =>
    have taken := r.appending delay now ex body
    generalize r.onAppendEntries delay now ex body = r' at taken ⊢
    left
    cases taken with
    | outdated => exact ⟨here.send, by rw [volatileState_send]⟩
    | unexpected => exact ⟨{ here with }, rfl⟩
    | merged present => exact absurd present (only ex body rfl)
    | rejected present => exact absurd present (only ex body rfl)
  | appended leader ex body =>
    by_cases present : ex.term = r.state.currentTerm
    · exact .inr ⟨ex, body, rfl, present, rfl⟩
    · have same : r.onAppendEntriesResponse ex body = r := if_pos present
      exact .inl ⟨same.symm ▸ here, by rw [same]⟩

theorem steady_append (leads : r.stateName = .leader) (entry : TLogEntry) : Steady r (r.append entry).2 :=
  ⟨⟨leads, rfl, List.prefix_append .., le_rfl⟩, rfl, fun _ => rfl⟩

theorem steady_approveRead (leads : r.stateName = .leader) : Steady r r.approveRead.2 ∧
    r.approveRead.2.volatileState.heartbeatDue = r.volatileState.heartbeatDue := by
  have whole : Asking r r.approveRead.2 ∧ r.approveRead.2.volatileState.heartbeatDue = r.volatileState.heartbeatDue := by
    refine approveRead_rule (P := fun r' => Asking r r' ∧
      r'.volatileState.heartbeatDue = r.volatileState.heartbeatDue) ?_ ⟨.refl r, rfl⟩
    rintro r' p peer ⟨asking, beats⟩
    exact ⟨asking.sendAppendEntries peer, by rw [volatileState_sendAppendEntries]; exact beats⟩
  exact ⟨whole.1.steady leads, whole.2⟩

theorem steady_processTimeout (leads : r.stateName = .leader) : Steady r (r.processTimeout delay now) := by
  have asking : Asking r (r.nodes.foldl (leaderTimeoutFor now) r) :=
    heartbeats_rule (fun _ _ peer asking => (asking.rearmed ..).sendAppendEntries peer) (Asking.refl r)
  rw [processTimeout_leader leads, leaderTimeout]
  generalize r.nodes.foldl (leaderTimeoutFor now) r = r' at asking
  have steady := asking.steady leads
  split
  · obtain ⟨_, _, same⟩ := r'.volatileState.commitAdvance_eq r'.nservers r'.state 0
    have later := le_commitAdvance r'.volatileState r'.nservers r'.state 0
    rw [same] at later ⊢
    exact ⟨⟨steady.name, steady.term, steady.log, steady.commitIndex.trans later⟩, steady.nextIndex, steady.matchOf⟩
  · exact steady

/-- The loop leaves the timers of other peers alone. -/
theorem beat_foldl (r : TRaft) (now : Time) {peers : List ℕ} (apart : d ∉ peers) :
    (peers.foldl (leaderTimeoutFor now) r).volatileState.heartbeatDue d = r.volatileState.heartbeatDue d := by
  refine heartbeats_rule (P := fun r' => r'.volatileState.heartbeatDue d = r.volatileState.heartbeatDue d)
    (fun heartbeat rpc mem kept => ?_) rfl
  rw [volatileState_sendAppendEntries]
  exact (Function.update_of_ne (ne_of_mem_of_not_mem mem apart).symm ..).trans kept

theorem grows_foldl {peers : List ℕ} : r.effects <+: (peers.foldl (leaderTimeoutFor now) r).effects := by
  refine heartbeats_rule (P := fun r' => r.effects <+: r'.effects) (fun heartbeat rpc _ kept => ?_) List.prefix_rfl
  rw [sendAppendEntries, effects_send]
  exact kept.trans (List.prefix_append ..)

theorem nodes_foldl {peers : List ℕ} : (peers.foldl (leaderTimeoutFor now) r).nodes = r.nodes :=
  heartbeats_rule (P := fun r' => r'.nodes = r.nodes) (fun _ _ _ kept => (nodes_sendAppendEntries ..).trans kept) rfl

/-- **A peer of a leader that is told the time** is sent a request, or its heartbeat is not due yet. -/
theorem pings_peer (delay : UInt32 → ℕ) (now : Time) (leads : r.stateName = .leader) (nodup : r.nodes.Nodup)
    (peer : d ∈ r.nodes) :
    (∃ ex body, .send d (.appendEntriesRequest ex body) ∈ (r.processTimeout delay now).effects.drop r.effects.length) ∨
    (r.processTimeout delay now).volatileState.heartbeatDue d = r.volatileState.heartbeatDue d ∧
      now < r.volatileState.heartbeatDue d := by
  have several : (r.nodes.foldl (leaderTimeoutFor now) r).nservers ≠ 1 := by
    have := List.length_pos_of_mem peer
    rw [nservers, nodes_foldl]
    omega
  rw [processTimeout_leader leads, leaderTimeout, if_neg several]
  obtain ⟨before, after, split⟩ := List.append_of_mem peer
  rw [split, List.nodup_middle] at nodup
  obtain ⟨apart, -⟩ := List.nodup_cons.mp nodup
  rw [List.mem_append, not_or] at apart
  have timer := beat_foldl r now apart.1
  have nodes : (before.foldl (leaderTimeoutFor now) r).nodes = r.nodes := nodes_foldl
  have first : r.effects <+: (before.foldl (leaderTimeoutFor now) r).effects := grows_foldl
  rw [split, List.foldl_append, List.foldl_cons]
  generalize before.foldl (leaderTimeoutFor now) r = r₁ at timer nodes first
  have last : (leaderTimeoutFor now r₁ d).effects <+: (after.foldl (leaderTimeoutFor now) (leaderTimeoutFor now r₁ d)).effects :=
    grows_foldl
  have kept := beat_foldl (leaderTimeoutFor now r₁ d) now apart.2
  by_cases due : r₁.volatileState.heartbeatDue d ≤ now ∨
      r₁.volatileState.nextIndex d ≤ r₁.state.lastLogIndex ∧ r₁.volatileState.rpcDue d ≤ now
  · left
    obtain ⟨es, effects⟩ := first
    obtain ⟨fs, effects'⟩ := last
    obtain ⟨ex, body, built⟩ : ∃ ex body, r₁.createAppendEntries d = .appendEntriesRequest ex body := ⟨_, _, rfl⟩
    have sent : (leaderTimeoutFor now r₁ d).effects = r₁.effects ++ [.send d (.appendEntriesRequest ex body)] := by
      unfold leaderTimeoutFor
      dsimp only
      rw [if_pos due, sendAppendEntries, effects_send, if_pos (nodes.symm ▸ peer), ← built]
      rfl
    refine ⟨ex, body, ?_⟩
    rw [← effects', sent, ← effects, List.append_assoc, List.append_assoc, List.drop_left]
    exact List.mem_append_right _ (List.mem_append_left _ List.mem_cons_self)
  · right
    have same : leaderTimeoutFor now r₁ d = r₁ := if_neg due
    rw [same] at kept ⊢
    rw [kept, timer]
    rw [not_or, not_le, timer] at due
    exact ⟨rfl, due.1⟩

end TRaft

namespace Timeline

open Cluster (beat)

variable {delay : UInt32 → ℕ} {lim wait : ℕ} {pace : Pace} {ids Q : Finset ℕ} {l l' : Timeline} {s x T : ℕ} {t : Time}
  {mail : Mail}

/-! ## Timers -/

def electionDue (l : Timeline) (x : ℕ) : Time := (l.cluster x).volatileState.electionDue

def heartbeatDue (l : Timeline) (s x : ℕ) : Time := (l.cluster s).volatileState.heartbeatDue x

/-- Server `x` will hear of the leader `s` of term `T` before its timer runs out: a request to it will arrive, or will be sent
and arrive. -/
inductive Soothed (pace : Pace) (s x T : ℕ) (l : Timeline) : Prop where
  | asked {mail : Mail} (there : mail ∈ l.pending) (dst : mail.dst = x) {ex : TMessageEx} {body : TAppendEntriesRequest}
      (request : mail.message = .appendEntriesRequest ex body) (term : ex.term = T)
      (soon : mail.sentAt + pace.lag < l.electionDue x) : Soothed pace s x T l
  | waits (beat : l.heartbeatDue s x + pace.period + pace.lag < l.electionDue x)
      (told : l.ticked s + pace.period + pace.lag < l.electionDue x) : Soothed pace s x T l

/-- Server `s` leads the servers `Q` in term `T`, and none of them is about to stand for election. -/
structure Calm (delay : UInt32 → ℕ) (lim wait : ℕ) (pace : Pace) (ids Q : Finset ℕ) (s T : ℕ) (l : Timeline) : Prop extends
    Course delay lim wait pace ids Q l where
  mem : s ∈ Q
  leads : (l.cluster s).stateName = .leader
  term : (l.cluster s).state.currentTerm = T
  follower : ∀ x ∈ Q.erase s, (l.cluster x).stateName = .follower
  below : ∀ x ∈ Q.erase s, (l.cluster x).state.currentTerm ≤ T
  soothed : ∀ x ∈ Q.erase s, Soothed pace s x T l

section

variable (sub : Q ⊆ ids)

include sub

/-- No message that may arrive is of a later term. -/
theorem Calm.early (calm : Calm delay lim wait pace ids Q s T l) (there : mail ∈ l.mails) :
    ∀ ex ∈ mail.message.ex?, ex.term ≤ T := by
  intro ex header
  obtain ⟨source, -, -⟩ := calm.sent mail there
  refine (calm.dated sub there header).trans ?_
  by_cases own : mail.src = s
  · rw [own, calm.term]
  · exact calm.below _ (Finset.mem_erase.mpr ⟨own, source⟩)

/-- Requests of the term are the leader's. -/
theorem Calm.source (calm : Calm delay lim wait pace ids Q s T l) (pos : 0 < lim) (small : lim ≤ 2 ^ 63) (there : mail ∈ l.mails)
    {ex : TMessageEx} {body : TAppendEntriesRequest} (request : mail.message = .appendEntriesRequest ex body)
    (term : ex.term = T) : mail.src = s ∧ mail.dst ≠ s := by
  obtain ⟨source, -, sent⟩ := calm.sent mail there
  obtain ⟨h, agrees⟩ := calm.group.reach.agrees pos small
  obtain ⟨peer, -, batch⟩ := request ▸ (agrees.sim _ (sub source)).sent sent
  have own := (agrees.whole (sub calm.mem) calm.leads).1
  rw [show (l.cluster s).state.currentTerm = T from calm.term, ← term, batch.leads] at own
  have own := Option.some.inj own
  exact ⟨own, own ▸ (Finset.mem_erase.mp peer).1⟩

end

section

variable (sub : Q ⊆ ids) (pos : 0 < lim) (small : lim ≤ 2 ^ 63)
  (delays : ∀ seed, TTimeout.election ≤ delay seed ∧ delay seed ≤ wait) (fast : pace.period + pace.lag < beat)

include delays fast in
/-- A timer that is set is not due before the leader's next request arrives. -/
theorem Soothed.of_set (beats : l.heartbeatDue s x ≤ t + beat) (told : l.ticked s ≤ t)
    (due : ∃ seed, l.electionDue x = t + milliseconds (delay seed)) : Soothed pace s x T l := by
  obtain ⟨seed, due⟩ := due
  have long : milliseconds TTimeout.election ≤ milliseconds (delay seed) := Nat.mul_le_mul_left _ (delays seed).1
  have twice : milliseconds TTimeout.election = 2 * beat := by decide
  apply Soothed.waits
  · grind
  · grind

/-- The timer is not due as long as nothing is overdue. -/
theorem Soothed.not_due (soothed : Soothed pace s x T l) (mem : s ∈ Q) (onTime : OnTime pace Q t l) : t < l.electionDue x := by
  cases soothed with
  | asked there dst request term soon => exact (onTime.arrived _ there).trans_lt soon
  | waits beat told =>
    have := onTime.told s mem
    grind

/-- The timers are as they were, and what was on its way to `x` still is. -/
theorem Soothed.keep (soothed : Soothed pace s x T l) (due : l'.electionDue x = l.electionDue x)
    (beats : l'.heartbeatDue s x = l.heartbeatDue s x) (told : l'.ticked s = l.ticked s)
    (pending : ∀ mail ∈ l.pending, mail.dst = x → (∃ ex body, mail.message = .appendEntriesRequest ex body ∧ ex.term = T) →
      mail ∈ l'.pending) : Soothed pace s x T l' := by
  cases soothed with
  | asked there dst request term soon =>
    exact .asked (pending _ there dst ⟨_, _, request, term⟩) dst request term (due ▸ soon)
  | waits beat told' => exact .waits (by rwa [due, beats]) (by rwa [due, told])

include sub pos small

/-- **What happens to the leader.** -/
theorem Calm.goes (calm : Calm delay lim wait pace ids Q s T l) {e : Happening} (own : e.server = s)
    (allowed : Allows pace t l e) : TRaft.Goes (l.cluster s) ((l.next delay Q t e).cluster s) ∧
      (e ≠ .timeout s → (l.next delay Q t e).heartbeatDue s x = l.heartbeatDue s x) := by
  unfold heartbeatDue
  have leads := calm.leads
  have done : (l.next delay Q t e).cluster s = (l.cluster s).perform delay (e.call t) := own ▸ next_own
  rw [done]
  cases e with
  | timeout y =>
    obtain rfl : y = s := own
    exact ⟨(TRaft.steady_processTimeout leads).toGoes, fun other => absurd rfl other⟩
  | receive mail =>
    have header := calm.early sub allowed.1
    rw [← calm.term] at header
    have only : ∀ ex body, mail.message = .appendEntriesRequest ex body → ex.term ≠ (l.cluster s).state.currentTerm :=
      fun ex body request term => (calm.source sub pos small allowed.1 request (term.trans calm.term)).2 own
    rcases TRaft.process_leader delay t leads header only with ⟨steady, beats⟩ | ⟨ex, body, -, -, same⟩
    · exact ⟨steady.toGoes, fun _ => congrFun beats x⟩
    · obtain ⟨goes, beats⟩ := TRaft.goes_onAppendEntriesResponse leads ex body
      change TRaft.Goes _ ((l.cluster s).process delay t mail.message) ∧
        (_ → ((l.cluster s).process delay t mail.message).volatileState.heartbeatDue x = _)
      rw [same]
      exact ⟨goes, fun _ => congrFun beats x⟩
  | append y entry => exact ⟨(TRaft.steady_append leads entry).toGoes, fun _ => rfl⟩
  | approveRead y =>
    obtain ⟨steady, beats⟩ := TRaft.steady_approveRead leads
    exact ⟨steady.toGoes, fun _ => congrFun beats x⟩

omit pos small

/-- **What happens to those that follow it.** -/
theorem Calm.follows (calm : Calm delay lim wait pace ids Q s T l) {e : Happening} (peer : e.server ∈ Q.erase s)
    (onTime : OnTime pace Q t l) (allowed : Allows pace t l e) :
    TRaft.Follows delay t T (l.cluster e.server) ((l.next delay Q t e).cluster e.server) := by
  have name := calm.follower _ peer
  have below := calm.below _ peer
  rw [next_own]
  cases e with
  | timeout y =>
    have same : (l.cluster y).processTimeout delay t = l.cluster y :=
      TRaft.processTimeout_follower name ((calm.soothed y peer).not_due calm.mem onTime)
    change TRaft.Follows delay t T _ ((l.cluster y).processTimeout delay t)
    rw [same]
    exact .refl name below
  | receive mail => exact TRaft.process_follower name below (calm.early sub allowed.1)
  | append y entry => exact absurd (name.symm.trans allowed) (by decide)
  | approveRead y => exact absurd (name.symm.trans allowed) (by decide)

include delays fast

/-- A follower whose timer is set, or not, stays soothed. -/
theorem Calm.soothed_own (calm : Calm delay lim wait pace ids Q s T l) {e : Happening} (peer : e.server ∈ Q.erase s)
    (onTime : OnTime pace Q t l) (allowed : Allows pace t l e) : Soothed pace s e.server T (l.next delay Q t e) := by
  have other := (Finset.mem_erase.mp peer).1
  have same : (l.next delay Q t e).cluster s = l.cluster s := next_other other.symm
  have beats : (l.next delay Q t e).heartbeatDue s e.server = l.heartbeatDue s e.server := by
    rw [heartbeatDue, heartbeatDue, same]
  have told : (l.next delay Q t e).ticked s = l.ticked s := ticked_next_of_ne fun same => other (congrArg Happening.server same)
  have bound : (l.next delay Q t e).heartbeatDue s e.server ≤ t + beat :=
    beats.trans_le (((calm.group.timed s calm.mem).heartbeat _).trans (Nat.add_le_add_right onTime.later _))
  have past : (l.next delay Q t e).ticked s ≤ t := told.trans_le ((calm.past s calm.mem).trans onTime.later)
  rcases (calm.follows sub peer onTime allowed).due with same | set
  · by_cases hears : ∃ mail, e = .receive mail ∧ ∃ ex body, mail.message = .appendEntriesRequest ex body ∧ ex.term = T
    · -- a request that arrives sets the timer
      obtain ⟨mail, rfl, ex, body, request, term⟩ := hears
      obtain ⟨-, seed, set⟩ := TRaft.process_request delay t (calm.follower _ peer) body ((calm.below _ peer).trans term.ge)
      refine .of_set delays fast bound past ⟨seed, ?_⟩
      rw [electionDue, next_own, ← set, ← request]
      rfl
    · refine (calm.soothed _ peer).keep same beats told fun mail there _ request => pending_next_of_ne there ?_
      rintro rfl
      exact hears ⟨mail, rfl, request⟩
  · exact .of_set delays fast bound past set

omit delays fast

include pos small

/-- The leader is told the time: it sends a request, or need not yet. -/
theorem Calm.soothed_timeout (calm : Calm delay lim wait pace ids Q s T l) (peer : x ∈ Q.erase s)
    (onTime : OnTime pace Q t l) : Soothed pace s x T (l.next delay Q t (.timeout s)) := by
  obtain ⟨other, mem⟩ := Finset.mem_erase.mp peer
  have due : (l.next delay Q t (.timeout s)).electionDue x = l.electionDue x := by
    rw [electionDue, electionDue, next_other other]
  have told := onTime.told s calm.mem
  obtain ⟨h, agrees⟩ := calm.group.reach.agrees pos small
  have sim := agrees.sim s (sub calm.mem)
  have known : x ∈ (l.cluster s).nodes := sim.mem_nodes.mpr (Finset.mem_erase.mpr ⟨other, sub mem⟩)
  cases calm.soothed x peer with
  | asked there dst request term soon => exact .asked (pending_next_of_ne there nofun) dst request term (due ▸ soon)
  | waits beat told' =>
    rcases TRaft.pings_peer delay t calm.leads sim.nodup known with ⟨ex, body, sent⟩ | ⟨same, early⟩
    · have new : (⟨s, x, .appendEntriesRequest ex body, t⟩ : Mail) ∈ l.sent delay Q t (.timeout s) :=
        mem_mailsOf.mpr ⟨rfl, mem, rfl, sent⟩
      have allowed : Allows pace t l (.timeout s) := trivial
      obtain ⟨-, -, -, header, -⟩ := calm.of_sent sub allowed new
      have term := (header ex rfl).2.trans ((calm.goes sub pos small (x := x) rfl allowed).1.term.trans calm.term)
      refine .asked (pending_next_of_new new) rfl rfl term ?_
      rw [due]
      grind
    · have beats : (l.next delay Q t (.timeout s)).heartbeatDue s x = l.heartbeatDue s x := by
        have done : (l.next delay Q t (.timeout s)).cluster s = (l.cluster s).processTimeout delay t :=
          next_own (e := .timeout s)
        rw [heartbeatDue, done]
        exact same
      have now : (l.next delay Q t (.timeout s)).ticked s = t := Function.update_self ..
      refine .waits (by rwa [due, beats]) ?_
      rw [due, now]
      have early : t < l.heartbeatDue s x := early
      grind

include delays fast

/-- **One step** in which nothing is overdue. -/
theorem Calm.step (calm : Calm delay lim wait pace ids Q s T l) (st : Step delay lim pace ids Q l l') :
    Calm delay lim wait pace ids Q s T l' ∧ TRaft.Goes (l.cluster s) (l'.cluster s) := by
  have course := calm.toCourse.step sub (fun seed => (delays seed).2) st
  cases st with
  | @here t onTime e mem allowed room =>
    by_cases own : e.server = s
    · obtain ⟨goes, -⟩ := calm.goes sub pos small (x := s) own allowed
      refine ⟨{ course with
        mem := calm.mem
        leads := goes.name
        term := goes.term.trans calm.term
        follower := fun x peer => ?_
        below := fun x peer => ?_
        soothed := fun x peer => ?_ }, goes⟩
      · rw [next_other (own ▸ (Finset.mem_erase.mp peer).1)]
        exact calm.follower x peer
      · rw [next_other (own ▸ (Finset.mem_erase.mp peer).1)]
        exact calm.below x peer
      · have other := (Finset.mem_erase.mp peer).1
        by_cases told : e = .timeout s
        · rw [told]
          exact calm.soothed_timeout sub pos small peer onTime
        · refine (calm.soothed x peer).keep ?_ ((calm.goes sub pos small own allowed).2 told) (ticked_next_of_ne told) ?_
          · rw [electionDue, electionDue, next_other (own ▸ other)]
          · rintro mail there dst -
            refine pending_next_of_ne there ?_
            rintro rfl
            exact other (dst.symm.trans own)
    · have peer := Finset.mem_erase.mpr ⟨own, mem⟩
      have follows := calm.follows sub peer onTime allowed
      have same : (l.next delay Q t e).cluster s = l.cluster s := next_other (Ne.symm own)
      have leads := calm.leads
      refine ⟨{ course with
        mem := calm.mem
        leads := same ▸ leads
        term := same ▸ calm.term
        follower := fun x peer' => ?_
        below := fun x peer' => ?_
        soothed := fun x peer' => ?_ }, same.symm ▸ ⟨leads, rfl, List.prefix_rfl, le_rfl⟩⟩
      · by_cases here : x = e.server
        · rw [here]
          exact follows.name
        · rw [next_other here]
          exact calm.follower x peer'
      · by_cases here : x = e.server
        · rw [here]
          exact follows.term
        · rw [next_other here]
          exact calm.below x peer'
      · by_cases here : x = e.server
        · rw [here]
          exact calm.soothed_own sub delays fast peer onTime allowed
        · refine (calm.soothed x peer').keep ?_ ?_ (ticked_next_of_ne fun told => own (congrArg Happening.server told)) ?_
          · rw [electionDue, electionDue, next_other here]
          · rw [heartbeatDue, heartbeatDue, same]
          · rintro mail there dst -
            refine pending_next_of_ne there ?_
            rintro rfl
            exact here dst.symm
  | @elsewhere t onTime c st same =>
    have leads := calm.leads
    refine ⟨{ course with
      mem := calm.mem
      leads := (congrArg _ (same s calm.mem)).trans leads
      term := (congrArg (·.state.currentTerm) (same s calm.mem)).trans calm.term
      follower := fun x peer => (congrArg _ (same x (Finset.mem_of_mem_erase peer))).trans (calm.follower x peer)
      below := fun x peer => ?_
      soothed := fun x peer => ?_ }, ?_⟩
    · change (c x).state.currentTerm ≤ T
      rw [same x (Finset.mem_of_mem_erase peer)]
      exact calm.below x peer
    · refine (calm.soothed x peer).keep ?_ ?_ rfl fun _ there _ _ => there
      · exact congrArg (·.volatileState.electionDue) (same x (Finset.mem_of_mem_erase peer))
      · exact congrArg (·.volatileState.heartbeatDue x) (same s calm.mem)
    · change TRaft.Goes _ (c s)
      rw [same s calm.mem]
      exact ⟨leads, rfl, List.prefix_rfl, le_rfl⟩

/-- **The leader leads on** in every run that keeps time. -/
theorem Calm.run (calm : Calm delay lim wait pace ids Q s T l) (run : Later delay lim pace ids Q l l') :
    Calm delay lim wait pace ids Q s T l' ∧ TRaft.Goes (l.cluster s) (l'.cluster s) := by
  induction run with
  | refl => exact ⟨calm, calm.leads, rfl, List.prefix_rfl, le_rfl⟩
  | tail _ st ih =>
    obtain ⟨calm', goes⟩ := ih
    obtain ⟨calm'', goes'⟩ := calm'.step sub pos small delays fast st
    exact ⟨calm'', goes'.name, goes'.term.trans goes.term, goes.log.trans goes'.log, goes.commitIndex.trans goes'.commitIndex⟩

end

end Timeline

/-! ## Main result -/

open Timeline Cluster

variable {delay : UInt32 → ℕ} {wait : ℕ} {pace : Pace} {ids Q : Finset ℕ} {l l' : Timeline} {s : ℕ}

/-- **A leader that is heard stays.** Some of the servers are told the time in each period, and what they send one another
arrives within the lag, which together are less than half an election timeout; of what the other servers send them nothing
arrives. One of them leads, and the others follow in terms up to its own, with a request on its way to each, or the next one
in time. Then in every run, in whatever order and however often the messages among them arrive, and whatever clients ask for,
it leads on in its term and takes nothing back, and no other of them stands for election. -/
theorem leader_stays (delays : ∀ seed, TTimeout.election ≤ delay seed ∧ delay seed ≤ wait)
    (fast : pace.period + pace.lag < beat) (sub : Q ⊆ ids) (course : Course delay maxLogSize wait pace ids Q l) (mem : s ∈ Q)
    (leads : (l.cluster s).stateName = .leader)
    (follow : ∀ x ∈ Q.erase s, (l.cluster x).stateName = .follower ∧
      (l.cluster x).state.currentTerm ≤ (l.cluster s).state.currentTerm ∧ Soothed pace s x (l.cluster s).state.currentTerm l)
    (run : Later delay maxLogSize pace ids Q l l') :
    (l'.cluster s).stateName = .leader ∧ (l'.cluster s).state.currentTerm = (l.cluster s).state.currentTerm ∧
      (l.cluster s).state.log <+: (l'.cluster s).state.log ∧
      ∀ x ∈ Q.erase s, (l'.cluster x).stateName = .follower ∧
        (l'.cluster x).state.currentTerm ≤ (l.cluster s).state.currentTerm ∧
        l'.now < (l'.cluster x).volatileState.electionDue := by
  have calm : Calm delay maxLogSize wait pace ids Q s (l.cluster s).state.currentTerm l := { course with
    mem := mem
    leads := leads
    term := rfl
    follower := fun x peer => (follow x peer).1
    below := fun x peer => (follow x peer).2.1
    soothed := fun x peer => (follow x peer).2.2 }
  obtain ⟨calm', goes⟩ := calm.run sub (by decide) le_rfl delays fast run
  exact ⟨goes.name, goes.term, goes.log, fun x peer =>
    ⟨calm'.follower x peer, calm'.below x peer, (calm'.soothed x peer).not_due mem calm'.toOnTime⟩⟩

/-- Three servers before their first call, and nothing on its way. -/
def Timeline.fresh : Timeline := ⟨0, Cluster.fresh [1, 2, 3], fun _ => 0, [], []⟩

/-- A server is told the time once in a second, and messages arrive in half a second. -/
def unhurried : Pace := { period := milliseconds 1000, lag := milliseconds 500 }

/-- Server 2 votes for server 1, which sends it a request. -/
def electsFirst : List (Time × Option Happening) :=
  [(0, some (.timeout 1)), (0, none), (0, none), (0, some (.timeout 1)), (0, none)]

/-- The next three seconds, with a heartbeat after the third. -/
def beatsOnce : List (Time × Option Happening) :=
  [(0, none), (milliseconds 1000, some (.timeout 1)), (milliseconds 1000, some (.timeout 2)),
    (milliseconds 2000, some (.timeout 2)), (milliseconds 2000, some (.timeout 1)), (milliseconds 3000, some (.timeout 1)),
    (milliseconds 3000, some (.timeout 2)), (milliseconds 3500, none)]

theorem Timeline.fresh_course : Course (fun _ => 5000) maxLogSize 5000 unhurried [1, 2, 3].toFinset [1, 2].toFinset .fresh := by
  have group : Group (fun _ => 5000) maxLogSize 5000 [1, 2, 3].toFinset [1, 2].toFinset (0, Cluster.fresh [1, 2, 3]) :=
    ⟨⟨_, fresh_start (by decide) (by decide), .refl⟩, fun x _ => .new ..⟩
  exact .of_group group

/-- Server 3 has failed, and server 1 leads server 2. -/
theorem leader_stays_two : ∃ l', Later (fun _ => 5000) maxLogSize unhurried [1, 2, 3].toFinset [1, 2].toFinset .fresh l' ∧
    l'.now = milliseconds 3500 ∧ (l'.cluster 1).stateName = .leader ∧
    l'.now < (l'.cluster 2).volatileState.electionDue := by
  have course := Timeline.fresh_course
  obtain ⟨l, run, leads, name, below, beat, told, played⟩ := exists_of_play [1, 2, 3].toFinset electsFirst
    (fun l => (l.cluster 1).stateName = .leader ∧ (l.cluster 2).stateName = .follower ∧
      (l.cluster 2).state.currentTerm ≤ (l.cluster 1).state.currentTerm ∧
      l.heartbeatDue 1 2 + unhurried.period + unhurried.lag < l.electionDue 2 ∧
      l.ticked 1 + unhurried.period + unhurried.lag < l.electionDue 2 ∧
      (play (fun _ => 5000) maxLogSize unhurried [1, 2].toFinset beatsOnce l).any (·.now = milliseconds 3500))
    (by decide +kernel : (play (fun _ => 5000) maxLogSize unhurried [1, 2].toFinset electsFirst .fresh).any _)
  obtain ⟨l', run', now⟩ := exists_of_play [1, 2, 3].toFinset beatsOnce (·.now = milliseconds 3500) played
  have delays : ∀ seed : UInt32, TTimeout.election ≤ (fun _ => 5000) seed ∧ (fun _ => 5000) seed ≤ 5000 := fun _ =>
    ⟨le_rfl, le_rfl⟩
  have only : ∀ x ∈ [1, 2].toFinset.erase 1, x = 2 := by decide
  have course' := course.run (by decide) (fun seed => (delays seed).2) run
  obtain ⟨leads', -, -, others⟩ := leader_stays delays (by decide) (by decide) course' (by decide) leads
    (fun x peer => only x peer ▸ ⟨name, below, .waits beat told⟩) run'
  exact ⟨l', run.trans run', now, leads', (others 2 (by decide)).2.2⟩

end MiniRaft
