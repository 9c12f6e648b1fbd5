import MiniRaft.StateMachines

/-!
# What calls keep

A process never takes back its commit index nor what is below it. A log loses entries only to a batch that
conflicts with them.
-/

namespace MiniRaft

open Lib

/-! ## Conflicts -/

/-- The batch agrees with the log up to index `i`. -/
def TState.Spares (i : ℕ) (message : TAppendEntriesRequest) (s : TState) : Prop :=
  ∀ (j : ℕ) (entry : TLogEntry), message.payload[j]? = some entry → message.prevLogIndex + j + 1 ≤ i →
    s.logTerm (toInt64 (message.prevLogIndex + j + 1)) = entry.term

namespace TState

instance (i : ℕ) (message : TAppendEntriesRequest) (s : TState) : Decidable (s.Spares i message) :=
  decidable_of_iff (∀ x ∈ message.payload.zipIdx, message.prevLogIndex + x.2 + 1 ≤ i →
    s.logTerm (toInt64 (message.prevLogIndex + x.2 + 1)) = x.1.term)
    ⟨fun all j entry get => all (entry, j) (List.mem_zipIdx_iff_getElem?.mpr get),
      fun spares x mem => spares x.2 x.1 (List.mem_zipIdx_iff_getElem?.mp mem)⟩

/-- What agrees with a batch stays. -/
theorem spared {i : ℕ} (payload : List TLogEntry) :
    ∀ {k : ℕ} {s : TState}, (∀ j entry, payload[j]? = some entry → k + j + 1 ≤ i →
      s.logTerm (toInt64 (k + j + 1)) = entry.term) → s.log.take i <+: (replaceAll k payload s).log := by
  induction payload with
  | nil => intro k s _; exact List.take_prefix ..
  | cons entry payload ih =>
    intro k s agrees
    rcases Nat.lt_or_ge k i with inside | past
    · have stay : s.replace (k + 1) entry = s := by
        unfold replace
        rw [if_neg (not_not_intro (agrees 0 entry rfl inside))]
      rw [replaceAll, stay]
      apply ih
      intro j e get low
      have := agrees (j + 1) e get (by omega)
      rwa [show k + (j + 1) + 1 = k + 1 + j + 1 by omega] at this
    · exact take_replaceAll (entry :: payload) past

end TState

/-! ## Calls of the protocol -/

/-- The batch that a call merges into the log. -/
def TRaft.Merges (delay : UInt32 → ℕ) (call : Call) (r : TRaft) (message : TAppendEntriesRequest) : Prop :=
  ∃ now ex, call = .process now (.appendEntriesRequest ex message) ∧
    ex.term = (r.adoptTerm delay now (some ex)).state.currentTerm ∧ TRaft.fitsLog message r.state

variable {delay : UInt32 → ℕ} {r : TRaft}

@[simp] theorem TRaft.log_adoptTerm (delay : UInt32 → ℕ) (now : Time) (header : Option TMessageEx) (r : TRaft) :
    (r.adoptTerm delay now header).state.log = r.state.log := by
  have taken := r.adopting delay now header
  generalize r.adoptTerm delay now header = r' at taken ⊢
  cases taken with
  | known => rfl
  | armed => rfl
  | running => rfl

theorem TState.logTerm_congr {s s' : TState} (same : s.log = s'.log) (i : ℤ) : s.logTerm i = s'.logTerm i := by
  simp only [logTerm, s.index_eq, s'.index_eq, get, same]

theorem TRaft.fitsLog_congr {s s' : TState} (same : s.log = s'.log) (message : TAppendEntriesRequest) :
    TRaft.fitsLog message s = TRaft.fitsLog message s' := by
  simp only [fitsLog, s.index_eq, s'.index_eq, TState.logTerm_congr same, same]

theorem TRaft.log_onRequestVote (now : Time) (ex : TMessageEx) (body : TRequestVoteRequest) (r : TRaft) :
    (r.onRequestVote delay now ex body).state.log = r.state.log := by
  have taken := r.voting delay now ex body
  generalize r.onRequestVote delay now ex body = r' at taken ⊢
  cases taken with
  | refused => rw [TRaft.state_send]
  | granted => rw [TRaft.state_send]; rfl
  | ignored => rfl

theorem TRaft.state_onAppendEntriesResponse (ex : TMessageEx) (body : TAppendEntriesResponse) (r : TRaft) :
    (r.onAppendEntriesResponse ex body).state = r.state := by
  have taken := r.responding ex body
  generalize r.onAppendEntriesResponse ex body = r' at taken ⊢
  cases taken with
  | outdated => rfl
  | matched => rfl
  | failed => rfl

theorem TRaft.state_onRequestVoteResponse (ex : TMessageEx) (body : TRequestVoteResponse) (r : TRaft) :
    (r.onRequestVoteResponse ex body).state = r.state := by
  have taken := r.polling ex body
  generalize r.onRequestVoteResponse ex body = r' at taken ⊢
  cases taken with
  | counted => rfl
  | ignored => rfl

theorem TRaft.log_onAppendEntries (delay : UInt32 → ℕ) (now : Time) (ex : TMessageEx) (body : TAppendEntriesRequest)
    (r : TRaft) :
    (r.onAppendEntries delay now ex body).state.log = r.state.log ∨
      ex.term = r.state.currentTerm ∧ TRaft.fitsLog body r.state ∧
        (r.onAppendEntries delay now ex body).stateName = .follower ∧
        ∀ i, r.state.Spares i body → r.state.log.take i <+: (r.onAppendEntries delay now ex body).state.log := by
  have taken := r.appending delay now ex body
  generalize r.onAppendEntries delay now ex body = r' at taken ⊢
  cases taken with
  | outdated => exact .inl (by rw [TRaft.state_send])
  | unexpected => exact .inl rfl
  | merged present fits =>
    right
    rw [TRaft.state_send, TRaft.stateName_send]
    exact ⟨present, fits, rfl, fun i spares => TState.spared _ spares⟩
  | rejected => exact .inl (by rw [TRaft.state_send]; rfl)

/-- In every role a request to append is taken up. -/
theorem TRaft.dispatch_appendEntries (delay : UInt32 → ℕ) (now : Time) (ex : TMessageEx) (body : TAppendEntriesRequest)
    (known : r.stateName ≠ .none) :
    r.dispatch delay now (.appendEntriesRequest ex body) = r.onAppendEntries delay now ex body := by
  unfold TRaft.dispatch
  split
  · rfl
  · rfl
  · rfl
  · rename_i unknown
    exact absurd unknown known

theorem TRaft.log_dispatch (delay : UInt32 → ℕ) (now : Time) (m : TMessage) (r : TRaft) :
    (r.dispatch delay now m).state.log = r.state.log ∨ ∃ ex body, m = .appendEntriesRequest ex body ∧
      ex.term = r.state.currentTerm ∧ TRaft.fitsLog body r.state ∧ (r.dispatch delay now m).stateName = .follower ∧
        ∀ i, r.state.Spares i body → r.state.log.take i <+: (r.dispatch delay now m).state.log := by
  have taken := r.dispatched delay now m
  generalize r.dispatch delay now m = r' at taken ⊢
  cases taken with
  | ignored => exact .inl rfl
  | unknown => exact .inl rfl
  | requestVote ex body => exact .inl (TRaft.log_onRequestVote ..)
  | vote name ex body => exact .inl (congrArg _ (TRaft.state_onRequestVoteResponse ex body r))
  | appendEntries ex body =>
    rcases r.log_onAppendEntries delay now ex body with same | ⟨term, fits, name, kept⟩
    · exact .inl same
    · exact .inr ⟨ex, body, rfl, term, fits, name, kept⟩
  | appended name ex body => exact .inl (congrArg _ (TRaft.state_onAppendEntriesResponse ex body r))

theorem TRaft.log_processTimeout (now : Time) (r : TRaft) :
    r.state.log <+: (r.processTimeout delay now).state.log := by
  have kept := TRaft.TimeoutInvariant.ofState r.nodes (r.state.log <+: ·.log)
  apply kept.processTimeout (fun _ => List.prefix_rfl)
  · intro _
    rw [TRaft.startElection_eq]
    exact List.prefix_rfl
  · exact fun _ kept => kept.trans (List.prefix_append ..)

/-- **A call extends the log, or merges a batch into it** as a follower and keeps what the batch agrees with. -/
theorem TRaft.log_perform (delay : UInt32 → ℕ) (call : Call) (r : TRaft) :
    r.state.log <+: (r.perform delay call).state.log ∨ ∃ message, r.Merges delay call message ∧
      (r.perform delay call).stateName = .follower ∧
      ∀ i, r.state.Spares i message → r.state.log.take i <+: (r.perform delay call).state.log := by
  cases call with
  | append entry => exact .inl (List.prefix_append ..)
  | approveRead =>
    left
    change _ <+: r.approveRead.2.state.log
    rw [TRaft.state_approveRead]
  | processTimeout now => exact .inl (r.log_processTimeout now)
  | process now m =>
    have first := r.log_adoptTerm delay now m.ex?
    rcases (r.adoptTerm delay now m.ex?).log_dispatch delay now m with
      same | ⟨ex, body, rfl, term, fits, name, kept⟩
    · exact .inl (first ▸ same ▸ List.prefix_rfl)
    · refine .inr ⟨body, ⟨now, ex, rfl, term, TRaft.fitsLog_congr first body ▸ fits⟩, name, fun i spares => ?_⟩
      have spares' : (r.adoptTerm delay now (some ex)).state.Spares i body := fun j entry get low =>
        (TState.logTerm_congr first _).trans (spares j entry get low)
      exact first ▸ kept i spares'

/-! ## Calls of the system -/

/-- The commit index is not taken back, and neither is the log below it. -/
structure TRaft.Keeps (r r' : TRaft) : Prop where
  commit : r.volatileState.commitIndex ≤ r'.volatileState.commitIndex
  log : r.state.log.take r.volatileState.commitIndex <+: r'.state.log

theorem TRaft.Keeps.of_prefixed {r r' : TRaft} (commit : r'.volatileState.commitIndex = r.volatileState.commitIndex)
    (log : r.state.log <+: r'.state.log) : r.Keeps r' := ⟨commit.ge, (List.take_prefix ..).trans log⟩

theorem TRaft.Keeps.trans {r r' r'' : TRaft} (h : r.Keeps r') (k : r'.Keeps r'') : r.Keeps r'' where
  commit := h.commit.trans k.commit
  log := (List.prefix_take_iff.mpr ⟨h.log, (List.length_take_le ..).trans h.commit⟩).trans k.log

theorem TRaft.Asked.commitIndex {r r' : TRaft} (h : r.Asked r') :
    r'.volatileState.commitIndex = r.volatileState.commitIndex := by
  obtain ⟨-, ⟨entry, rfl⟩ | rfl⟩ := h
  · rfl
  · apply TRaft.approveRead_rule (P := fun r' => r'.volatileState.commitIndex = r.volatileState.commitIndex) _ rfl
    intro r' p _ same
    rw [TRaft.volatileState_sendAppendEntries]
    exact same

theorem TRaft.Asked.log {r r' : TRaft} (h : r.Asked r') : r.state.log <+: r'.state.log := by
  obtain ⟨-, ⟨entry, rfl⟩ | rfl⟩ := h
  · exact List.prefix_append ..
  · exact r.state_approveRead ▸ List.prefix_rfl

theorem TRaft.Asked.keeps {r r' : TRaft} (h : r.Asked r') : r.Keeps r' := .of_prefixed h.commitIndex h.log

theorem TRaft.Keeps.of_asked {r r' : TRaft} (path : Relation.ReflTransGen TRaft.Asked r r') : r.Keeps r' := by
  induction path with
  | refl => exact .of_prefixed rfl List.prefix_rfl
  | tail _ asked ih => exact ih.trans asked.keeps

variable {ρ : Type*} {rsm : IRsm ρ} {P P' : System ρ} {lim : ℕ} {ids : Finset ℕ} {h : History} {s : ℕ}

/-- What a server does keeps what is decided and in its log. -/
theorem Good.keeps (good : Good lim ids s r.volatileState.commitIndex h r) (small : lim ≤ 2 ^ 31) {r' : TRaft}
    (moves : Moves lim ids s r.volatileState.commitIndex h r') : r.Keeps r' := by
  obtain ⟨h', ev, good'⟩ := moves
  refine ⟨good'.grown small, ?_⟩
  have decided := (good.sim.commit small).2
  rw [← good.sim.term] at decided
  have kept := (Evolve.evolved good.inv ev).kept decided (good.sim.log ▸ List.take_prefix ..)
  exact good'.sim.log ▸ kept

/-- **A call keeps the commit index and what is below it.** -/
theorem System.Step.keeps (con : Consistent lim ids h P) (small : lim ≤ 2 ^ 31) {request : Request}
    (st : System.Step delay lim ids rsm P (.call s request) P') : (P s).raft.Keeps (P' s).raft := by
  cases st with
  | call mem request enabled done room =>
    rw [Function.update_self]
    rcases (Handled.of_handle done).raft with ⟨call, is_call, rfl⟩ | path
    · have good := con.agrees.good mem
      exact good.keeps small
        (good.perform (by omega) con.agrees.zero mem (con.agrees.licensed (enabled.call is_call)) room)
    · exact .of_asked path

end MiniRaft
