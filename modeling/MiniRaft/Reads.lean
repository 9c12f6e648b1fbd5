import MiniRaft.Pings
import MiniRaft.StateMachines

/-!
# Consistent reads

A leader answers a consistent read once `CommitSeqno` has reached its ticket, for which one acknowledgement is enough
in a cluster of any size. A newer leader may have been elected meanwhile: its voters do not acknowledge to the old
one any more, and if enough servers have acknowledged, one of them is a voter.
-/

namespace MiniRaft

open Lib

/-- A success response to `s` for a request of `term` or later numbered `seqno` or higher. -/
def TEffect.approves (s term seqno : ℕ) : TEffect → Bool
  | .send dst (.appendEntriesResponse ex body) => (dst = s ∧ body.success) ∧ term ≤ ex.term ∧ seqno ≤ ex.seqno
  | _ => false

def TRaft.approves (s term seqno : ℕ) (r : TRaft) : Bool := r.effects.any (TEffect.approves s term seqno)

/-- The peers of `s` that have sent it such a response. -/
def approvals (ids : Finset ℕ) (c : Cluster) (s term seqno : ℕ) : Finset ℕ :=
  (ids.erase s).filter fun y => (c y).approves s term seqno

variable {lim : ℕ} {ids : Finset ℕ} {h : History} {c c' : Cluster} {s L T k U i t j : ℕ} {V : Finset ℕ}
  {p : List TLogEntry} {r r' : TRaft} {delay : UInt32 → ℕ}

theorem TEffect.approves_iff {e : TEffect} :
    e.approves s T k ↔ ∃ t j, T ≤ t ∧ k ≤ j ∧ e.IsAck s t j := by
  constructor
  · intro approves
    cases e with
    | send dst m =>
      cases m with
      | appendEntriesResponse ex body =>
        obtain ⟨own, term, number⟩ := of_decide_eq_true approves
        exact ⟨_, _, term, number, own, rfl, rfl⟩
      | _ => cases approves
    | _ => cases approves
  · rintro ⟨t, j, term, number, ack⟩
    cases e with
    | send dst m =>
      cases m with
      | appendEntriesResponse ex body =>
        obtain ⟨own, rfl, rfl⟩ := ack
        exact decide_eq_true ⟨own, term, number⟩
      | _ => cases ack
    | _ => cases ack

theorem TRaft.approves_iff : r.approves s T k ↔ ∃ t j, T ≤ t ∧ k ≤ j ∧ r.Acked s t j := by
  rw [TRaft.approves, List.any_eq_true]
  constructor
  · rintro ⟨e, there, approves⟩
    obtain ⟨t, j, term, number, ack⟩ := TEffect.approves_iff.mp approves
    exact ⟨t, j, term, number, e, there, ack⟩
  · rintro ⟨t, j, term, number, e, there, ack⟩
    exact ⟨e, there, TEffect.approves_iff.mpr ⟨t, j, term, number, ack⟩⟩

theorem TRaft.approves_mono (grows : r.effects <+: r'.effects) (approves : r.approves s T k) : r'.approves s T k := by
  obtain ⟨t, j, term, number, acked⟩ := TRaft.approves_iff.mp approves
  exact TRaft.approves_iff.mpr ⟨t, j, term, number, acked.mono grows⟩

/-- Server `s` took a ticket `k` in term `T`, while the voters `V` had already elected another leader of term `U`
that had committed index `i`. Their acknowledgements are of later terms, and where the ticket was reached, by a
server that has led a later term, the index is committed. -/
structure Lagging (ids : Finset ℕ) (s T k U i : ℕ) (V : Finset ℕ) (c : Cluster) : Prop where
  term : T ≤ (c s).state.currentTerm
  voters : ∀ y ∈ V, U ≤ (c y).state.currentTerm
  late : ∀ y ∈ V, ∀ t j, (c y).Acked s t j → T ≤ t → k ≤ j → U ≤ t
  approved : k ≤ (c s).commitSeqno → ∃ y ∈ ids.erase s, (c y).approves s T k
  behind : (c s).commitSeqno < k ∨ i ≤ (c s).volatileState.commitIndex ∨
    (∀ d t j, (c s).Pinged d t j → t ≤ U) ∧ ((c s).stateName = .leader → (c s).state.currentTerm < U)

/-- At the time of the ticket nothing numbered as high has been acknowledged. -/
theorem Lagging.start (agrees : Agrees lim ids h c) (pinging : Pinging ids c) (mem : s ∈ ids)
    (name : (c s).stateName = .leader) (peers : (ids.erase s).Nonempty) (inside : V ⊆ ids)
    (voters : ∀ y ∈ V, U ≤ (c y).state.currentTerm) (ticket : (c s).seqno ≤ k) :
    Lagging ids s (c s).state.currentTerm k U i V c ∧ 0 < k := by
  have counted := pinging.counted s mem name peers
  refine ⟨⟨le_rfl, voters, fun y member t j acked term number => ?_, fun reached => ?_, .inl ?_⟩, ?_⟩
  · obtain ⟨-, pinged⟩ := pinging.echoed y (inside member) s t j acked
    obtain ⟨-, low⟩ := agrees.pinged mem pinged
    obtain rfl : t = (c s).state.currentTerm := le_antisymm low term
    have := pinging.numbered s mem name y j pinged
    omega
  · omega
  · omega
  · omega

theorem Agrees.term_le {h' : History} (agrees : Agrees lim ids h c) (agrees' : Agrees lim ids h' c') (le : h.Le h')
    (mem : s ∈ ids) : (c s).state.currentTerm ≤ (c' s).state.currentTerm := by
  rw [← (agrees.sim s mem).term, ← (agrees'.sim s mem).term]
  exact le.term s

/-- A leader of a later term whose commit index is at an entry of that term has what was decided before. -/
theorem Good.reached {base : ℕ} (good : Good lim ids s base h r) (small : lim ≤ 2 ^ 31) (name : r.stateName = .leader)
    (decided : Decided ids h U p) (later : U < r.state.currentTerm)
    (own : r.state.logTerm (toInt64 r.volatileState.commitIndex) = r.state.currentTerm) :
    p.length ≤ r.volatileState.commitIndex := by
  have held : p <+: r.state.log := by
    rw [good.whole name]
    exact decided.leader good.inv later.le (good.sim.leader name).leads
  have bound := good.commit_lt small
  rw [r.state.logTerm_eq (by omega)] at own
  by_contra short
  have early := decided.termAt_le good.inv r.volatileState.commitIndex
  rw [← termAt_of_prefixed held (by omega), own] at early
  omega

/-- What a call leaves of `behind`, for the server that was called. -/
theorem Lagging.ahead {h' : History} (lagging : Lagging ids s T k U i V c) (small : lim ≤ 2 ^ 31) {call : Call}
    {r₁ : TRaft} (counts : Counts call (c s) r₁ r) (good : Good lim ids s (c s).volatileState.commitIndex h' r)
    (le : h.Le h') (leads : h.lead U = some L) (other : L ≠ s) (decided : Decided ids h U p) (high : i ≤ p.length) (pos : 0 < k) :
    r.commitSeqno < k ∨ i ≤ r.volatileState.commitIndex ∨
      (∀ d t j, r.Pinged d t j → t ≤ U) ∧ (r.stateName = .leader → r.state.currentTerm < U) := by
  rcases counts.confirms with idle | ⟨t, j, -, confirms⟩
  · rcases counts.turns.commitSeqno with same | zero
    · rcases lagging.behind with low | reached | ⟨pings, name⟩
      · exact .inl (by omega)
      · exact .inr (.inl (reached.trans (good.grown small)))
      · -- a server that begins to lead forgets the number
        by_cases leader : r₁.stateName = .leader
        · rcases counts.turns.leader leader with rfl | crowned
          · have early := name leader
            refine .inr (.inr ⟨fun d t j pinged => ?_, fun _ => counts.emits.term ▸ early⟩)
            rcases counts.pinged pinged with old | ⟨-, rfl, -⟩
            · exact pings d t j old
            · exact early.le
          · have := crowned.commitSeqno
            exact .inl (by omega)
        · refine .inr (.inr ⟨fun d t j pinged => ?_, fun now => absurd (counts.emits.leader now) leader⟩)
          rcases counts.pinged pinged with old | ⟨now, -, -⟩
          · exact pings d t j old
          · exact absurd now leader
    · exact .inl (by omega)
  · have own := good.sim.leader confirms.leads
    rcases lt_trichotomy r.state.currentTerm U with early | same | later
    · refine .inr (.inr ⟨fun d t j pinged => ?_, fun _ => early⟩)
      obtain ⟨e, there, ping⟩ := pinged
      obtain ⟨ex, body, rfl, rfl, -⟩ := ping.elim
      obtain ⟨-, -, batch⟩ := good.sim.sent there
      have low := good.inv.votes.leadTerm batch.leads
      rw [good.sim.term] at low
      omega
    · have twice := le.lead leads
      rw [← same, own.leads] at twice
      exact absurd (Option.some.inj twice).symm other
    · exact .inr (.inl (high.trans (good.reached small confirms.leads (decided.mono le le_rfl) later confirms.own)))

/-- What a call leaves of `approved`, for the server that was called. -/
theorem Lagging.heard (lagging : Lagging ids s T k U i V c) (agrees : Agrees lim ids h c) {call : Call}
    (enabled : Cluster.Enabled ids c s call) {r₁ : TRaft} (counts : Counts call (c s) r₁ r)
    (grown : (c s).state.currentTerm ≤ r.state.currentTerm) (pos : 0 < k) (reached : k ≤ r.commitSeqno) :
    ∃ y ∈ ids.erase s, (c y).approves s T k := by
  have kept (high : k ≤ r₁.commitSeqno) : k ≤ (c s).commitSeqno := by
    rcases counts.turns.commitSeqno with same | zero
    · exact same ▸ high
    · exact absurd (zero ▸ high) (Nat.not_le.mpr pos)
  rcases counts.confirms with idle | ⟨t, j, hears, confirms⟩
  · exact lagging.approved (kept (idle ▸ reached))
  · rw [confirms.commitSeqno] at reached
    rcases le_max_iff.mp reached with old | new
    · exact lagging.approved (kept old)
    · obtain ⟨y, peer, acked⟩ := agrees.hears enabled hears
      rw [counts.emits.term, ← confirms.term] at grown
      exact ⟨y, peer, TRaft.approves_iff.mpr ⟨t, j, lagging.term.trans grown, new, acked⟩⟩

/-- **The step of a run** while a server lags. -/
theorem Lagging.step (lagging : Lagging ids s T k U i V c) (agrees : Agrees lim ids h c) (small : lim ≤ 2 ^ 31)
    (mem : s ∈ ids) (inside : V ⊆ ids) (leads : h.lead U = some L) (other : L ≠ s)
    (decided : Decided ids h U p) (high : i ≤ p.length) (pos : 0 < k) (st : Cluster.Step delay lim ids c c') :
    ∃ h', h.Le h' ∧ Agrees lim ids h' c' ∧ Lagging ids s T k U i V c' := by
  obtain ⟨h', le, agrees', reacts⟩ := agrees.reacts (by omega) st
  have terms {y : ℕ} (member : y ∈ ids) := agrees.term_le agrees' le member
  have voters : ∀ y ∈ V, U ≤ (c' y).state.currentTerm := fun y hy => (lagging.voters y hy).trans (terms (inside hy))
  refine ⟨h', le, agrees', lagging.term.trans (terms mem), voters, fun y hy t j acked term number => ?_,
    fun reached => ?_, ?_⟩
  · rcases reacts y with idle | ⟨-, call, enabled, called, -⟩ | ⟨-, restarted⟩
    · rw [idle] at acked
      exact lagging.late y hy t j acked term number
    · obtain ⟨r₁, counts⟩ := enabled.counts delay
      rw [← called] at counts
      rcases counts.acked acked with old | ⟨rfl, -⟩
      · exact lagging.late y hy t j old term number
      · exact counts.emits.term ▸ voters y hy
    · rw [restarted] at acked
      exact lagging.late y hy t j acked term number
  · suffices before : ∃ y ∈ ids.erase s, (c y).approves s T k by
      obtain ⟨y, peer, approves⟩ := before
      exact ⟨y, peer, TRaft.approves_mono (st.grows y) approves⟩
    rcases reacts s with idle | ⟨-, call, enabled, called, -⟩ | ⟨-, restarted⟩
    · rw [idle] at reached
      exact lagging.approved reached
    · obtain ⟨r₁, counts⟩ := enabled.counts delay
      rw [← called] at counts
      exact lagging.heard agrees enabled counts (terms mem) pos reached
    · rw [restarted] at reached
      exact absurd reached (Nat.not_le.mpr pos)
  · rcases reacts s with idle | ⟨-, call, enabled, called, good⟩ | ⟨-, restarted⟩
    · rw [idle]
      exact lagging.behind
    · obtain ⟨r₁, counts⟩ := enabled.counts delay
      rw [← called] at counts
      exact lagging.ahead small counts good le leads other decided high pos
    · rw [restarted]
      exact .inl pos

/-- **Enough acknowledgements include one of a voter**, and then the index is committed. -/
theorem Lagging.reached (lagging : Lagging ids s T k U i V c) (agrees : Agrees lim ids h c) (pinging : Pinging ids c)
    (mem : s ∈ ids) (quorum : (majority ids).vote V) (apart : s ∉ V) (leads : h.lead U = some L) (other : L ≠ s)
    (reached : k ≤ (c s).commitSeqno)
    (enough : ids.card ≤ 4 ∨ ids.card - ids.card / 2 ≤ (approvals ids c s T k).card + 1) :
    i ≤ (c s).volatileState.commitIndex := by
  have some_ : 0 < (approvals ids c s T k).card := by
    obtain ⟨y, peer, approves⟩ := lagging.approved reached
    exact Finset.card_pos.mpr ⟨y, Finset.mem_filter.mpr ⟨peer, approves⟩⟩
  have voters : V ⊆ ids.erase s := fun y hy => Finset.mem_erase.mpr ⟨fun same => apart (same ▸ hy), quorum.1 hy⟩
  have many := quorum.2
  have all := Finset.card_erase_of_mem mem
  obtain ⟨y, member, voter⟩ : ∃ y, y ∈ approvals ids c s T k ∧ y ∈ V :=
    meet_of_card (Finset.filter_subset ..) voters (by omega)
  obtain ⟨t, j, term, number, acked⟩ := TRaft.approves_iff.mp (Finset.mem_filter.mp member).2
  have late := lagging.late y voter t j acked term number
  obtain ⟨-, pinged⟩ := pinging.echoed y (quorum.1 voter) s t j acked
  obtain ⟨own, -⟩ := agrees.pinged mem pinged
  rcases lagging.behind with low | high | ⟨pings, -⟩
  · omega
  · exact high
  · obtain rfl : t = U := le_antisymm (pings y t j pinged) late
    exact absurd (Option.some.inj (leads.symm.trans own)) other

/-! ## Runs -/

theorem Pinging.later (pinging : Pinging ids c) (agrees : Agrees lim ids h c) (small : lim ≤ 2 ^ 63)
    (later : Cluster.Later delay lim ids c c') : Pinging ids c' := by
  have both : (∃ h', Agrees lim ids h' c') ∧ Pinging ids c' := by
    induction later with
    | refl => exact ⟨⟨h, agrees⟩, pinging⟩
    | tail _ st ih =>
      obtain ⟨⟨h₁, agrees₁⟩, pinging₁⟩ := ih
      obtain ⟨h₂, -, agrees₂, -⟩ := agrees₁.step small st
      exact ⟨⟨h₂, agrees₂⟩, pinging₁.step agrees₁ st⟩
  exact both.2

theorem Lagging.later (lagging : Lagging ids s T k U i V c) (agrees : Agrees lim ids h c) (small : lim ≤ 2 ^ 31)
    (mem : s ∈ ids) (inside : V ⊆ ids) (leads : h.lead U = some L) (other : L ≠ s) (decided : Decided ids h U p)
    (high : i ≤ p.length) (pos : 0 < k) (later : Cluster.Later delay lim ids c c') :
    ∃ h', h.Le h' ∧ Agrees lim ids h' c' ∧ Lagging ids s T k U i V c' := by
  induction later with
  | refl => exact ⟨h, .refl h, agrees, lagging⟩
  | tail _ st ih =>
    obtain ⟨h₁, le₁, agrees₁, lagging₁⟩ := ih
    obtain ⟨h₂, le₂, agrees₂, lagging₂⟩ := lagging₁.step agrees₁ small mem inside (le₁.lead leads) other
      (decided.mono le₁ le_rfl) high pos st
    exact ⟨h₂, le₁.trans le₂, agrees₂, lagging₂⟩

/-- **A reached ticket means that what was decided when it was taken is committed.** -/
theorem Agrees.ticket (agrees : Agrees lim ids h c) (pinging : Pinging ids c) (small : lim ≤ 2 ^ 31) (mem : s ∈ ids)
    (name : (c s).stateName = .leader) (ticket : (c s).seqno ≤ k) (decided : Decided ids h U p) (low : 1 ≤ p.length)
    (later : Cluster.Later delay lim ids c c') (reached : k ≤ (c' s).commitSeqno)
    (enough : ids.card ≤ 4 ∨
      ids.card - ids.card / 2 ≤ (approvals ids c' s (c s).state.currentTerm k).card + 1) :
    p.length ≤ (c s).state.log.length ∨ p.length ≤ (c' s).volatileState.commitIndex := by
  rcases decided with rfl | ⟨u, -, n, committed, len, part⟩
  · cases low
  have decided : Decided ids h u p := .inr ⟨u, le_rfl, n, committed, len, part⟩
  obtain ⟨own, whole⟩ := agrees.whole mem name
  rcases Nat.lt_or_ge (c s).state.currentTerm u with late | early
  · right
    obtain ⟨L, leads⟩ := Hist.Logs.Own.leads committed.1 agrees.inv.logs
    obtain ⟨V, quorum, votes⟩ := agrees.inv.votes.leadVotes leads
    have voted : ∀ y ∈ V, u ≤ (c y).state.currentTerm := by
      intro y hy
      rw [← (agrees.sim y (quorum.1 hy)).term]
      exact agrees.inv.votes.voteTerm (votes y hy)
    have apart : s ∉ V := fun hs => absurd (voted s hs) (Nat.not_le.mpr late)
    have other : L ≠ s := by
      rintro rfl
      have := agrees.inv.votes.leadTerm leads
      rw [(agrees.sim L mem).term] at this
      omega
    have peers : (ids.erase s).Nonempty := by
      have many := quorum.2
      obtain ⟨y, hy⟩ := Finset.card_pos.mp (by omega : 0 < V.card)
      exact ⟨y, Finset.mem_erase.mpr ⟨fun same => apart (same ▸ hy), quorum.1 hy⟩⟩
    obtain ⟨lagging, pos⟩ := Lagging.start (i := p.length) agrees pinging mem name peers quorum.1 voted ticket
    obtain ⟨h', le, agrees', lagging'⟩ := lagging.later agrees small mem quorum.1 leads other decided le_rfl pos later
    exact lagging'.reached agrees' (pinging.later agrees (by omega) later) mem quorum apart (le.lead leads) other
      reached enough
  · left
    rw [whole]
    exact (decided.leader agrees.inv early own).length_le

/-! ## Requests -/

/-- The event is new. -/
def TRequestProcessor.Adds {ρ : Type*} (e : TEvent) (p p' : TRequestProcessor ρ) : Prop :=
  ∃ es, p'.events = p.events ++ es ∧ e ∈ es

variable {ρ : Type*} {rsm : IRsm ρ} {q q' : TRequestProcessor ρ} {P P' : System ρ} {w : TWaiting} {label : System.Label}

theorem TRaft.Asked.frame (h : r.Asked r') : r'.stateName = r.stateName ∧ r.seqno ≤ r'.seqno := by
  obtain ⟨name, ⟨entry, rfl⟩ | rfl⟩ := h
  · exact ⟨rfl, le_rfl⟩
  · have sends : TRaft.Emits (fun _ _ _ => True) r r.approveRead.2 := .approveRead name
    refine ⟨?_, sends.seqno⟩
    exact TRaft.approveRead_rule (P := fun a => a.stateName = r.stateName) (fun _ same => by simpa using same) rfl

/-- What commands leave of a server. -/
theorem Served.frame (h : Served rsm q q') : q'.raft.stateName = q.raft.stateName ∧ q.raft.seqno ≤ q'.raft.seqno ∧
    q.raft.state.log.length ≤ q'.raft.state.log.length := by
  have path := h.raft
  generalize q'.raft = r at path
  induction path with
  | refl => exact ⟨rfl, le_rfl, le_rfl⟩
  | tail _ asked ih =>
    obtain ⟨name, seqno, len⟩ := ih
    obtain ⟨name', seqno'⟩ := asked.frame
    exact ⟨name'.trans name, seqno.trans seqno', len.trans asked.length_le⟩

theorem Commanded.strong_queued {command : TCommandRequest} {replyTo : Option ℕ} (h : Commanded rsm command replyTo q q')
    {es : List TEvent} (events : q'.events = q.events ++ es) (queued : .queue true w ∈ es) :
    q.raft.stateName = .leader ∧ w.index = q.raft.state.log.length ∧ w.seqno = throughInt q.raft.seqno := by
  cases h with
  | aside aside =>
    obtain ⟨fs, events', asides⟩ := aside.events
    obtain rfl := List.append_cancel_left (events.symm.trans events')
    exact (asides _ queued).elim
  | read kind fits =>
    obtain rfl : es = _ := List.append_cancel_left (events.symm.trans rfl)
    cases List.mem_singleton.mp queued
  | strong kind consistent leads fits =>
    obtain rfl : es = _ := List.append_cancel_left (events.symm.trans rfl)
    cases List.mem_singleton.mp queued
    refine ⟨leads, ?_, rfl⟩
    change q.raft.approveRead.2.state.lastLogIndex = _
    rw [TRaft.state_approveRead]
    exact q.raft.state.index_eq
  | silent kind leads deaf =>
    obtain rfl : es = [] := List.append_cancel_left (events.symm.trans (List.append_nil _).symm)
    cases queued
  | write kind leads heard =>
    obtain rfl : es = _ := List.append_cancel_left (events.symm.trans rfl)
    cases List.mem_singleton.mp queued

/-- A consistent read is accepted by a leader, with an index that covers its log and a ticket that no number handed
out before reaches. -/
theorem Served.strong_queued (h : Served rsm q q') (queued : TRequestProcessor.Adds (.queue true w) q q')
    (count : q'.raft.seqno < 2 ^ 32) :
    q.raft.stateName = .leader ∧ q.raft.state.log.length ≤ w.index ∧ q.raft.seqno ≤ w.seqno := by
  induction h with
  | refl =>
    obtain ⟨es, events, member⟩ := queued
    obtain rfl : es = [] := List.append_cancel_left (events.symm.trans (List.append_nil _).symm)
    cases member
  | @tail q₁ q₂ first step ih =>
    obtain ⟨name, seqno, len⟩ := Served.frame first
    obtain ⟨es, events, -⟩ := (Quiet.of_served first).events
    obtain ⟨_, _, commanded⟩ := step
    obtain ⟨fs, events', -⟩ := (Quiet.of_commanded commanded).events
    obtain ⟨-, seqno', -⟩ := Served.frame (.single ⟨_, _, commanded⟩)
    obtain ⟨gs, events'', member⟩ := queued
    obtain rfl : gs = es ++ fs := by
      refine List.append_cancel_left (events''.symm.trans ?_)
      rw [events', events, List.append_assoc]
    rcases List.mem_append.mp member with old | new
    · exact ih ⟨es, events, old⟩ (by omega)
    · obtain ⟨leads, index, ticket⟩ := commanded.strong_queued events' new
      have := le_throughInt (by omega : q₁.raft.seqno < 2 ^ 32)
      exact ⟨name ▸ leads, by omega, by omega⟩

theorem Handled.strong_queued {request : Request} (h : Handled delay rsm q request q')
    (queued : TRequestProcessor.Adds (.queue true w) q q') (count : q'.raft.seqno < 2 ^ 32) :
    q.raft.stateName = .leader ∧ q.raft.state.log.length ≤ w.index ∧ q.raft.seqno ≤ w.seqno := by
  cases h with
  | process | processTimeout | append =>
    obtain ⟨es, events, member⟩ := queued
    obtain rfl : es = [] := List.append_cancel_left (events.symm.trans (List.append_nil _).symm)
    cases member
  | served h => exact Served.strong_queued h queued count
  | processCommitted =>
    obtain ⟨es, events, member⟩ := queued
    obtain ⟨fs, events', -, fits, -⟩ := (processCommitted_applies rsm q).1.events
    obtain rfl := List.append_cancel_left (events.symm.trans events')
    exact (fits _ member).elim
  | processWaiting h =>
    obtain ⟨p₁, p₂, rest, strongRest, answers, answers', -, -, rfl⟩ := Answers.of_processWaiting h
    obtain ⟨es, events, all⟩ := answers.replies
    obtain ⟨fs, events', all'⟩ := answers'.replies
    obtain ⟨gs, events'', member⟩ := queued
    obtain rfl : gs = es ++ fs := by
      refine List.append_cancel_left (events''.symm.trans ?_)
      rw [← List.append_assoc, ← events]
      exact events'
    rcases List.mem_append.mp member with old | new
    · obtain ⟨_, _, -, -, -, same⟩ := all _ old
      cases same
    · obtain ⟨_, _, -, -, -, same⟩ := all' _ new
      cases same

/-- Where a step adds an event of server `s`, it is a call of that server. -/
theorem System.Step.handled {lim : ℕ} {e : TEvent} (st : System.Step delay lim ids rsm P label P')
    (adds : TRequestProcessor.Adds e (P s) (P' s)) :
    s ∈ ids ∧ ∃ request, Handled delay rsm (P s) request (P' s) := by
  obtain ⟨es, events, member⟩ := adds
  have idle : (P' s).events ≠ (P s).events := by
    intro same
    obtain rfl : es = [] := List.append_cancel_left (events.symm.trans (same.trans (List.append_nil _).symm))
    cases member
  rcases st.reacts s with same | ⟨mem, request, -, -, done⟩ | ⟨-, -, restored, restarted⟩
  · exact absurd (by rw [same]) idle
  · exact ⟨mem, request, .of_handle done⟩
  · exact absurd (by rw [restarted]; rfl) idle

/-- **Consistent reads are not stale**, where enough servers have acknowledged and `ProcessCommitted` came first: an
entry that any server knew to be committed when a leader accepted the read is applied when the read is answered. -/
theorem consistent_read (delay : UInt32 → ℕ) (rsm : IRsm ρ) (ids : Finset ℕ) {P₀ P P₁ Q Q' : System ρ}
    {accept answer : System.Label} {s x i applied seqno : ℕ} {e : TLogEntry} {w : TWaiting} {reply : TCommandResponse}
    (reach : System.Reachable delay (2 ^ 31) ids rsm P₀) (member : x ∈ ids) (low : 1 ≤ i)
    (committed : i ≤ (P₀ x).raft.volatileState.commitIndex) (entry : (P₀ x).raft.state.log[i - 1]? = some e)
    (before : System.Later delay (2 ^ 31) ids rsm P₀ P) (accepts : System.Step delay (2 ^ 31) ids rsm P accept P₁)
    (queued : (P s).Adds (.queue true w) (P₁ s)) (count : (P₁ s).raft.seqno < 2 ^ 32)
    (between : System.Later delay (2 ^ 31) ids rsm P₁ Q) (answers : System.Step delay (2 ^ 31) ids rsm Q answer Q')
    (answered : (Q s).Adds (.answer true w applied seqno reply) (Q' s))
    (caught : (Q s).rsm.lastAppliedIndex = (Q s).raft.volatileState.commitIndex)
    (enough : ids.card ≤ 4 ∨
      ids.card - ids.card / 2 ≤ (approvals ids Q.rafts s (P s).raft.state.currentTerm w.seqno).card + 1) :
    i ≤ applied ∧ (Q s).raft.state.log[i - 1]? = some e := by
  have small : (2 : ℕ) ^ 31 ≤ 2 ^ 63 := by decide
  obtain ⟨h₀, agrees₀⟩ : ∃ h, Agrees (2 ^ 31) ids h P₀.rafts := by
    obtain ⟨h, con⟩ := reach.consistent (by decide) le_rfl
    exact ⟨h, con.agrees⟩
  obtain ⟨h₁, le₁, agrees₁⟩ := agrees₀.later small before.rafts
  obtain ⟨mem, request, accepting⟩ := accepts.handled queued
  obtain ⟨leads, index, ticket⟩ := accepting.strong_queued queued count
  obtain ⟨-, request', answering⟩ := answers.handled answered
  have later : Cluster.Later delay (2 ^ 31) ids P.rafts Q.rafts := accepts.rafts.trans between.rafts
  obtain ⟨h₂, le₂, agrees₂⟩ := agrees₁.later small later
  -- what was committed is a decided prefix
  obtain ⟨inside, decided⟩ := (agrees₀.sim x member).commit le_rfl
  let p := ((P₀.rafts x).state.log.take i)
  have len : p.length = i := by
    rw [List.length_take]
    have : i ≤ (P₀.rafts x).state.log.length := committed.trans inside
    omega
  have decided : Decided ids h₁ (P₀.rafts x).state.currentTerm p :=
    (decided.mono le₁ le_rfl).of_prefixed (take_prefix_of_le committed)
  have here : p[i - 1]? = some e := by
    rw [get_take_of_lt (by omega)]
    exact entry
  -- the request was due
  obtain ⟨es, events, replies⟩ := answering.replies
  obtain ⟨fs, events', new⟩ := answered
  obtain rfl : fs = es := List.append_cancel_left (events'.symm.trans events)
  obtain ⟨due, -, same, -⟩ := replies _ _ _ _ _ new
  have pinging : Pinging ids P.rafts := by
    obtain ⟨start, fresh, run⟩ := reach
    exact (Pinging.start fresh.1).later (.start (by decide) fresh.1) small (run.rafts.trans before.rafts)
  have reached := agrees₁.ticket pinging le_rfl mem leads ticket decided (by omega) later (due.seqno rfl) enough
  have high : i ≤ (Q s).raft.volatileState.commitIndex := by
    rw [← len]
    rcases reached with short | high
    · have : w.index ≤ (Q s).rsm.lastAppliedIndex := due.index
      have : p.length ≤ w.index := short.trans index
      omega
    · exact high
  refine ⟨by omega, ?_⟩
  have there := (Q s).raft.state.get_eq_getElem low (high.trans ((agrees₂.sim s mem).commit le_rfl).1)
  have own : Settled ids h₂ i ((Q s).raft.state.get i) := (agrees₂.sim s mem).settled le_rfl low high
  have old : Settled ids h₂ i e := ⟨_, p, decided.mono le₂ le_rfl, here⟩
  rw [there, own.agree agrees₂.inv old]

/-- Servers 1 and 2 of three elect server 1, which commits its empty entry. -/
def elected : List Cue :=
  [.request 1 (.processTimeout 1000000000), .deliver 1000000000 1 1, .deliver 1000000000 2 2,
    .request 1 (.processTimeout 1000000000), .deliver 1000000000 1 3, .deliver 1000000000 2 3]

/-- Server 1 takes a consistent read. -/
def taken : Cue := .request 1 (.onCommandRequest { flags := 4, cookie := 5 } (some 7))

/-- Server 2 acknowledges. -/
def confirmed : List Cue := [.deliver 1000000000 1 5, .deliver 1000000000 2 4, .request 1 .processCommitted]

/-- What the read becomes. -/
def reading (index seqno : ℕ) : TWaiting where
  index := index
  seqno := seqno
  command := { flags := 4, cookie := 5 }
  replyTo := some 7

theorem consistent_read_elected : ∃ (P Q Q' : System (List TLogEntry)) (applied : ℕ),
    System.Reachable (fun _ => 5000) (2 ^ 31) [1, 2, 3].toFinset (TDummyRsm.rsm []) P ∧
    System.Later (fun _ => 5000) (2 ^ 31) [1, 2, 3].toFinset (TDummyRsm.rsm []) P Q ∧
    (P 1).raft.volatileState.commitIndex = 1 ∧
    (Q 1).Adds (.answer true (reading 1 2) applied 2 { index := 1, cookie := 5 }) (Q' 1) ∧ 1 ≤ applied ∧
    (Q 1).raft.state.log[0]? = some { term := 2, flags := eStub } := by
  let w := reading 1 2
  let any (_ : System (List TLogEntry)) (_ : System.Label) (_ : System (List TLogEntry)) : Prop := True
  let answered (Q Q' : System (List TLogEntry)) : Prop :=
    (Q' 1).events = (Q 1).events ++ [.answer true w 1 2 { index := 1, cookie := 5 }]
  let ready (Q : System (List TLogEntry)) : Prop :=
    (Q 1).rsm.lastAppliedIndex = (Q 1).raft.volatileState.commitIndex ∧
      (System.resume any [1, 2, 3] [.request 1 .processWaiting] Q).any fun Q' => answered Q Q'
  let queued (P P₁ : System (List TLogEntry)) : Prop :=
    (P₁ 1).events = (P 1).events ++ [.queue true w] ∧ (P₁ 1).raft.seqno < 2 ^ 32 ∧
      (System.resume any [1, 2, 3] confirmed P₁).any fun Q => ready Q
  obtain ⟨P, reach, committed, entry, next⟩ := System.reachable_of_rehearse [1, 2, 3] elected (by decide) (by decide)
    (fun P => (P 1).raft.volatileState.commitIndex = 1 ∧
      (P 1).raft.state.log[0]? = some { term := 2, flags := eStub } ∧
      (System.resume any [1, 2, 3] [taken] P).any fun P₁ => queued P P₁) (by decide +kernel)
  obtain ⟨_, P₁, accepts, events, count, next⟩ := System.exists_of_cue _ _ _ _ (queued P) next
  obtain ⟨Q, run, caught, next⟩ := System.exists_of_resume _ _ _ _ ready next
  obtain ⟨_, Q', answers, events'⟩ := System.exists_of_cue _ _ _ _ (answered Q) next
  have answered : (Q 1).Adds (.answer true w 1 2 _) (Q' 1) := ⟨_, events', List.mem_singleton_self _⟩
  obtain ⟨applied, held⟩ := consistent_read _ _ [1, 2, 3].toFinset reach (by decide : 1 ∈ _) le_rfl committed.ge entry
    .refl accepts ⟨_, events, List.mem_singleton_self _⟩ count run.later answers answered caught (.inl (by decide))
  exact ⟨P, Q, Q', 1, reach, .head ⟨_, trivial, accepts⟩ run.later, committed, answered, applied, held⟩

/-- Server 1 leads five servers in term 2, and its empty entry is committed. Then servers 4 and 5 elect server 3,
which commits the empty entry of term 3 with them. -/
def parted : List Cue :=
  [.request 1 (.processTimeout 1000000000), .deliver 1000000000 1 1, .deliver 1000000000 1 2,
    .deliver 1000000000 2 2, .deliver 1000000000 3 2, .request 1 (.processTimeout 1000000000),
    .deliver 1000000000 1 5, .deliver 1000000000 1 6, .deliver 1000000000 1 7, .deliver 1000000000 1 8,
    .deliver 1000000000 2 3, .deliver 1000000000 3 3,
    .request 3 (.processTimeout 7000000000), .deliver 7000000000 3 7, .deliver 7000000000 3 8,
    .deliver 7000000000 4 4, .deliver 7000000000 5 4, .request 3 (.processTimeout 7000000000),
    .deliver 7000000000 3 11, .deliver 7000000000 3 12, .deliver 7000000000 4 5, .deliver 7000000000 5 5,
    .request 3 (.processTimeout 7000000000), .deliver 7000000000 3 13, .deliver 7000000000 3 14,
    .deliver 7000000000 4 6, .deliver 7000000000 5 6]

/-- Server 2 acknowledges to the old leader. -/
def misled : List Cue := [.deliver 7000000000 1 9, .deliver 7000000000 2 4, .request 1 .processCommitted]

/-- Of five servers one has acknowledged, and the read misses a committed entry. -/
theorem consistent_read_parted : ∃ (P P₁ Q Q' : System (List TLogEntry)) (accept answer : System.Label) (w : TWaiting)
    (applied seqno : ℕ) (reply : TCommandResponse),
    System.Reachable (fun _ => 5000) (2 ^ 31) [1, 2, 3, 4, 5].toFinset (TDummyRsm.rsm []) P ∧
    (P 3).raft.stateName = .leader ∧ 2 ≤ (P 3).raft.volatileState.commitIndex ∧
    System.Step (fun _ => 5000) (2 ^ 31) [1, 2, 3, 4, 5].toFinset (TDummyRsm.rsm []) P accept P₁ ∧
    (P 1).Adds (.queue true w) (P₁ 1) ∧ (P₁ 1).raft.seqno < 2 ^ 32 ∧
    System.Later (fun _ => 5000) (2 ^ 31) [1, 2, 3, 4, 5].toFinset (TDummyRsm.rsm []) P₁ Q ∧
    System.Step (fun _ => 5000) (2 ^ 31) [1, 2, 3, 4, 5].toFinset (TDummyRsm.rsm []) Q answer Q' ∧
    (Q 1).Adds (.answer true w applied seqno reply) (Q' 1) ∧
    (Q 1).rsm.lastAppliedIndex = (Q 1).raft.volatileState.commitIndex ∧ applied < 2 := by
  let w := reading 1 4
  let any (_ : System (List TLogEntry)) (_ : System.Label) (_ : System (List TLogEntry)) : Prop := True
  let answered (Q Q' : System (List TLogEntry)) : Prop :=
    (Q' 1).events = (Q 1).events ++ [.answer true w 1 4 { index := 1, cookie := 5 }]
  let ready (Q : System (List TLogEntry)) : Prop :=
    (Q 1).rsm.lastAppliedIndex = (Q 1).raft.volatileState.commitIndex ∧
      (System.resume any [1, 2, 3, 4, 5] [.request 1 .processWaiting] Q).any fun Q' => answered Q Q'
  let queued (P P₁ : System (List TLogEntry)) : Prop :=
    (P₁ 1).events = (P 1).events ++ [.queue true w] ∧ (P₁ 1).raft.seqno < 2 ^ 32 ∧
      (System.resume any [1, 2, 3, 4, 5] misled P₁).any fun Q => ready Q
  obtain ⟨P, reach, leads, committed, next⟩ := System.reachable_of_rehearse [1, 2, 3, 4, 5] parted (by decide)
    (by decide) (fun P => (P 3).raft.stateName = .leader ∧ 2 ≤ (P 3).raft.volatileState.commitIndex ∧
      (System.resume any [1, 2, 3, 4, 5] [taken] P).any fun P₁ => queued P P₁) (by decide +kernel)
  obtain ⟨_, P₁, accepts, events, count, next⟩ := System.exists_of_cue _ _ _ _ (queued P) next
  obtain ⟨Q, run, caught, next⟩ := System.exists_of_resume _ _ _ _ ready next
  obtain ⟨_, Q', answers, events'⟩ := System.exists_of_cue _ _ _ _ (answered Q) next
  exact ⟨P, P₁, Q, Q', _, _, w, _, _, _, reach, leads, committed, accepts,
    ⟨_, events, List.mem_singleton_self _⟩, count, run.later, answers, ⟨_, events', List.mem_singleton_self _⟩, caught,
    by decide⟩

end MiniRaft
