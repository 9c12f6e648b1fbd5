import MiniRaft.CatchUp
import MiniRaft.Requests
import MiniRaft.Schedules

/-!
# Rounds of a leader and a peer

The leader is told the time, the peer receives its request, and the leader the answer. What the leader lacks of the peer
becomes less by each round.
-/

namespace MiniRaft

open Lib

theorem TState.length_replaceAll_le (payload : List TLogEntry) : ∀ {k : ℕ} {s : TState},
    (replaceAll k payload s).log.length ≤ max s.log.length (k + payload.length) := by
  induction payload with
  | nil => exact fun {k s} => le_max_left ..
  | cons entry payload ih =>
    intro k s
    have rest := @ih (k + 1) (s.replace (k + 1) entry)
    have here : (s.replace (k + 1) entry).log.length ≤ max s.log.length (k + 1) := by
      unfold replace
      split
      · have cut := (s.truncate_spec (k + 1 - 1)).1
        rw [log_append, cut, List.length_append, List.length_take, List.length_singleton]
        omega
      · exact le_max_left ..
    rw [List.length_cons]
    unfold replaceAll
    omega

namespace TRaft

variable {delay : UInt32 → ℕ} {now : Time} {r r' : TRaft} {d y : ℕ} {ex : TMessageEx}

/-! ## The request -/

theorem processTimeout_leader (leads : r.stateName = .leader) : r.processTimeout delay now = r.leaderTimeout now := by
  have calm : r.electionIsDue now = false := by simp [electionIsDue, leads]
  have settled : r.wins = false := by simp [wins, leads]
  unfold processTimeout
  simp only [calm, settled, Bool.false_eq_true, if_false]
  rw [dispatchTimeout, leads]

/-- **A leader pings a peer whose heartbeat is due.** -/
theorem pings_due (leads : r.stateName = .leader) (nodup : r.nodes.Nodup) (peer : d ∈ r.nodes)
    (due : r.volatileState.heartbeatDue d ≤ now) :
    SameView r (r.processTimeout delay now) ∧ ∃ ex body, ex.src = r.id ∧ ex.term = r.state.currentTerm ∧
      r.Creates d body ∧ .send d (.appendEntriesRequest ex body) ∈ (r.processTimeout delay now).effects := by
  have several : r.nservers ≠ 1 := by
    have := List.length_pos_of_mem peer
    unfold nservers
    omega
  have whole : Asking r (r.nodes.foldl (leaderTimeoutFor now) r) :=
    heartbeats_rule (fun _ _ peer asking => (asking.rearmed ..).sendAppendEntries peer) (Asking.refl r)
  have same : r.processTimeout delay now = r.nodes.foldl (leaderTimeoutFor now) r := by
    have count : (r.nodes.foldl (leaderTimeoutFor now) r).nservers = r.nservers := by rw [nservers, whole.view.nodes, nservers]
    rw [processTimeout_leader leads, leaderTimeout]
    rw [if_neg (by rwa [count])]
  rw [same]
  refine ⟨whole.view, ?_⟩
  obtain ⟨before, after, split⟩ := List.append_of_mem peer
  have apart : d ∉ before := by
    rw [split, List.nodup_append] at nodup
    exact fun mem => nodup.2.2 d mem d List.mem_cons_self rfl
  -- the peers before `d` leave its timer alone
  have first : Asking r (before.foldl (leaderTimeoutFor now) r) ∧
      (before.foldl (leaderTimeoutFor now) r).volatileState.heartbeatDue d = r.volatileState.heartbeatDue d := by
    refine heartbeats_rule (P := fun r' => Asking r r' ∧ r'.volatileState.heartbeatDue d = r.volatileState.heartbeatDue d)
      (fun {r' id} heartbeat rpc mem kept => ⟨?_, ?_⟩) ⟨Asking.refl r, rfl⟩
    · exact (kept.1.rearmed ..).sendAppendEntries (split ▸ List.mem_append_left _ mem)
    · rw [volatileState_sendAppendEntries]
      exact (Function.update_of_ne (fun own : d = id => apart (own ▸ mem)) ..).trans kept.2
  rw [split, List.foldl_append, List.foldl_cons]
  generalize before.foldl (leaderTimeoutFor now) r = r₁ at first
  obtain ⟨asking, timer⟩ := first
  obtain ⟨ex, body, built⟩ : ∃ ex body, r₁.createAppendEntries d = .appendEntriesRequest ex body := ⟨_, _, rfl⟩
  have header : ex.src = r.id ∧ ex.term = r.state.currentTerm := by
    obtain ⟨rfl, -⟩ := TMessage.appendEntriesRequest.inj built
    exact ⟨asking.view.id, congrArg (·.currentTerm) asking.view.state⟩
  refine ⟨ex, body, header.1, header.2, (asking.view.creates_iff body).mp ⟨ex, built⟩, ?_⟩
  have sent : .send d (.appendEntriesRequest ex body) ∈ (leaderTimeoutFor now r₁ d).effects := by
    unfold leaderTimeoutFor
    dsimp only
    rw [if_pos (.inl (timer ▸ due)), sendAppendEntries, effects_send, if_pos (asking.view.nodes.symm ▸ peer), ← built]
    exact List.mem_append_right _ List.mem_cons_self
  refine heartbeats_rule (P := fun r' => _ ∈ r'.effects) (fun _ _ _ old => ?_) sent
  rw [sendAppendEntries, effects_send]
  exact List.mem_append_left _ old

/-- While the peer's log is probed a request is empty, and otherwise it has an entry if there is one. -/
theorem WellFormed.amount {body : TAppendEntriesRequest} (formed : r.WellFormed d body) (batched : r.Batched)
    (small : r.state.log.length < maxLogSize) (matched : r.volatileState.matchOf d ≤ r.state.log.length) :
    (r.volatileState.matchOf d + 1 < r.volatileState.nextIndex d → body.nentries = 0) ∧
    (¬ r.volatileState.matchOf d + 1 < r.volatileState.nextIndex d → body.prevLogIndex < r.state.log.length →
      1 ≤ body.nentries) := by
  have last := formed.last
  have inside := formed.inside
  have size := batched d
  rw [r.state.index_eq] at inside
  unfold maxLogSize at small
  unfold batchEnd at last
  dsimp only at last
  rw [u64_of_lt (n := _ + 1) (by omega), u64_of_lt (by omega), r.state.index_eq] at last
  constructor
  · intro probes
    rw [if_pos probes] at last
    omega
  · intro known more
    rw [if_neg known] at last
    omega

/-! ## The peer -/

/-- **What a server does with a request** of its term or a later one. -/
inductive Took (ex : TMessageEx) (body : TAppendEntriesRequest) (r r' : TRaft) : Prop where
  | stored (term : r'.state.currentTerm = ex.term)
      (short : r'.state.log.length ≤ max r.state.log.length (body.prevLogIndex + body.payload.length))
      (commit : r'.volatileState.commitIndex = throughInt (max r.volatileState.commitIndex body.leaderCommit))
      (answer : .send ex.src (.appendEntriesResponse { src := r.id, dst := ex.src, term := ex.term, seqno := ex.seqno }
        { matchIndex := body.prevLogIndex + body.payload.length, success := true }) ∈ r'.effects)
  | refused (term : r'.state.currentTerm = ex.term) (log : r'.state.log = r.state.log) (fails : ¬ r'.state.Continues body)
      (answer : .send ex.src (.appendEntriesResponse { src := r.id, dst := ex.src, term := ex.term, seqno := ex.seqno }
        { matchIndex := 0, success := false }) ∈ r'.effects)

theorem took {body : TAppendEntriesRequest} (le : r.state.currentTerm ≤ ex.term) (known : r.stateName ≠ .none)
    (peer : ex.src ∈ r.nodes) (small : r.state.log.length < maxLogSize) :
    Took ex body r (r.process delay now (.appendEntriesRequest ex body)) := by
  have adopted : ∃ r₁ : TRaft, r.adoptTerm delay now (some ex) = r₁ ∧ r₁.stateName ≠ .none ∧ r₁.state.currentTerm = ex.term ∧
      r₁.state.log = r.state.log ∧ r₁.volatileState.commitIndex = r.volatileState.commitIndex ∧ r₁.id = r.id ∧
      r₁.nodes = r.nodes := by
    have taken := r.adopting delay now (some ex)
    generalize r.adoptTerm delay now (some ex) = r₁ at taken ⊢
    refine ⟨r₁, rfl, ?_⟩
    cases taken with
    | known le' => exact ⟨known, Nat.le_antisymm le (le' ex rfl), rfl, rfl, rfl, rfl⟩
    | armed => exact ⟨nofun, rfl, rfl, rfl, rfl, rfl⟩
    | running => exact ⟨nofun, rfl, rfl, rfl, rfl, rfl⟩
  obtain ⟨r₁, same, known, term, log, commit, id, nodes⟩ := adopted
  have handled : r.process delay now (.appendEntriesRequest ex body) = r₁.onAppendEntries delay now ex body := by
    change (r.adoptTerm delay now (some ex)).dispatch delay now _ = _
    rw [same, dispatch]
    cases name : r₁.stateName with
    | none => exact absurd name known
    | follower | candidate | leader => rfl
  rw [handled]
  by_cases fits : fitsLog body r₁.state
  · rw [onAppendEntries_fits term.symm fits]
    refine .stored ?_ ?_ ?_ ?_
    · rw [state_send]
      exact (TState.replaceAll_fields ..).1.trans term
    · rw [state_send, ← log]
      exact TState.length_replaceAll_le ..
    · rw [volatileState_send, ← commit]
      rfl
    · rw [effects_send, reply, if_pos (nodes.symm ▸ peer), id, term]
      exact List.mem_append_right _ List.mem_cons_self
  · rw [onAppendEntries_rejects term.symm fits]
    refine .refused ?_ ?_ ?_ ?_
    · rw [state_send]
      exact term
    · rw [state_send]
      exact log
    · rw [state_send]
      rw [fitsLog_iff fun inside => (inside.trans_eq (congrArg _ log)).trans_lt small] at fits
      exact fits
    · rw [effects_send, reply, if_pos (nodes.symm ▸ peer), id, term]
      exact List.mem_append_right _ List.mem_cons_self

/-! ## The answer -/

theorem process_response {body : TAppendEntriesResponse} (leads : r.stateName = .leader)
    (present : ex.term = r.state.currentTerm) :
    r.process delay now (.appendEntriesResponse ex body) = r.onAppendEntriesResponse ex body := by
  unfold process adoptTerm
  simp only [TMessage.ex?]
  rw [if_neg (by rw [present]; omega), dispatch, leads]
  rfl

/-- What is noted of other peers stays. -/
theorem nextIndex_onAppendEntriesResponse (body : TAppendEntriesResponse) (other : y ≠ ex.src) :
    (r.onAppendEntriesResponse ex body).volatileState.nextIndex y = r.volatileState.nextIndex y := by
  have taken := r.responding ex body
  generalize r.onAppendEntriesResponse ex body = r' at taken ⊢
  cases taken with
  | outdated => rfl
  | matched =>
    obtain ⟨_, _, same⟩ := (r.volatileState.matched ex.src body.matchIndex).commitAdvance_eq r.nservers r.state ex.seqno
    rw [same]
    exact Function.update_of_ne other ..
  | failed => exact Function.update_of_ne other ..

end TRaft

/-! ## What is lacking -/

/-- How far a leader with `last` entries is from knowing that `d` has them all. -/
def TVolatileState.gap (v : TVolatileState) (last d : ℕ) : ℕ :=
  if v.matchOf d + 1 < v.nextIndex d then last + 1 + v.nextIndex d else last + 1 - v.nextIndex d

namespace TVolatileState

variable {v v' : TVolatileState} {last d k : ℕ}

theorem gap_congr (matchOf : v'.matchOf d = v.matchOf d) (next : v'.nextIndex d = v.nextIndex d) :
    v'.gap last d = v.gap last d := by
  unfold gap
  rw [matchOf, next]

theorem gap_le (high : v.nextIndex d ≤ last + 1) : v.gap last d ≤ 2 * last + 2 := by
  unfold gap
  split <;> omega

theorem matched_of_gap (none : v.gap last d = 0) : ¬ v.matchOf d + 1 < v.nextIndex d ∧ last < v.nextIndex d := by
  unfold gap at none
  split at none <;> omega

/-- The peer has accepted a request behind `NextIndex`. -/
theorem gap_of_success {len : ℕ} (low : 1 ≤ v.nextIndex d) (matchOf : v'.matchOf d = max (v.matchOf d) k)
    (next : v'.nextIndex d = k + 1) (ends : k + 1 = v.nextIndex d + len)
    (more : ¬ v.matchOf d + 1 < v.nextIndex d → v.nextIndex d ≤ last → 1 ≤ len) :
    v'.gap last d < v.gap last d ∨ v'.gap last d = 0 := by
  unfold gap
  rw [matchOf, next]
  by_cases probes : v.matchOf d + 1 < v.nextIndex d
  · rw [if_pos probes]
    split <;> omega
  · rw [if_neg probes]
    have := more probes
    split <;> omega

/-- The peer has rejected one. -/
theorem gap_of_failure {n : ℕ} (probes : v.matchOf d + 1 < v.nextIndex d) (matchOf : v'.matchOf d = v.matchOf d)
    (next : v'.nextIndex d = n) (low : 1 ≤ n) (less : n < v.nextIndex d) : v'.gap last d < v.gap last d := by
  unfold gap
  rw [matchOf, next, if_pos probes]
  split <;> omega

end TVolatileState

namespace Cluster

variable {delay : UInt32 → ℕ} {lim wait : ℕ} {ids Q : Finset ℕ} {s x y : ℕ} {now : Time} {a b : Time × Cluster} {σ : TState}

/-- What the leader `s` lacks of the peer `x`. -/
def gap (a : Time × Cluster) (s x : ℕ) : ℕ := (a.2 s).volatileState.gap (a.2 s).state.log.length x

/-- Server `s` leads the servers `Q`, and has the stored state `σ`. -/
structure Reign (delay : UInt32 → ℕ) (lim wait : ℕ) (ids Q : Finset ℕ) (s : ℕ) (σ : TState) (a : Time × Cluster) : Prop extends
    Group delay lim wait ids Q a where
  leads : (a.2 s).stateName = .leader
  state : (a.2 s).state = σ
  below : ∀ x ∈ Q, (a.2 x).state.currentTerm ≤ σ.currentTerm

/-- What a round with `x` does. -/
structure Exchanged (Q : Finset ℕ) (s x : ℕ) (a b : Time × Cluster) : Prop where
  frame : ∀ y, y ≠ s → y ≠ x → b.2 y = a.2 y
  others : ∀ y, y ≠ x → gap b s y = gap a s y
  less : gap b s x < gap a s x ∨ gap b s x = 0
  term : (b.2 x).state.currentTerm = (a.2 s).state.currentTerm
  counted : gap a s x = 0 → (∀ y ∈ Q.erase s, gap a s y = 0) →
    (b.2 s).volatileState.commitIndex = (a.2 s).state.log.length
  told : gap a s x = 0 → (a.2 s).volatileState.commitIndex ≤ (b.2 x).volatileState.commitIndex

section

variable (setting : Setting delay lim wait ids Q)

include setting

theorem Group.next_le (group : Group delay lim wait ids Q a) (mem : s ∈ ids) (leads : (a.2 s).stateName = .leader)
    (peer : x ∈ ids.erase s) : 1 ≤ (a.2 s).volatileState.nextIndex x ∧
      (a.2 s).volatileState.nextIndex x ≤ (a.2 s).state.log.length + 1 := by
  obtain ⟨h, agrees⟩ := group.agrees setting
  exact ((agrees.sim s mem).leader leads).next x peer

theorem Group.commitIndex_le (group : Group delay lim wait ids Q a) (mem : x ∈ ids) :
    (a.2 x).volatileState.commitIndex ≤ (a.2 x).state.log.length := by
  obtain ⟨h, agrees⟩ := group.agrees setting
  exact ((agrees.sim x mem).commit setting.small).1

/-- **The leader commits what more than half of the servers have.** -/
theorem Group.position_of_matched (group : Group delay lim wait ids Q a) (mem : s ∈ Q) (leads : (a.2 s).stateName = .leader)
    (matched : ∀ y ∈ Q.erase s, (a.2 s).state.log.length ≤ (a.2 s).volatileState.matchOf y) :
    (a.2 s).position = (a.2 s).state.log.length := by
  have reach : Reachable delay maxLogSize ids a.2 := group.reach.mono (setting.small.trans (by decide))
  have counting := reach.counting (setting.sub mem) leads
  apply Nat.le_antisymm counting.position_le
  rcases Nat.eq_zero_or_pos (a.2 s).state.log.length with zero | pos
  · rw [zero]
    exact Nat.zero_le _
  obtain ⟨h, agrees⟩ := group.agrees setting
  have sim := agrees.sim s (setting.sub mem)
  have servers : (a.2 s).nservers = ids.card := by
    have count := congrArg Finset.card sim.peers
    rw [List.toFinset_card_of_nodup sim.nodup, Finset.card_erase_of_mem (setting.sub mem)] at count
    have some_ := Finset.card_pos.mpr ⟨s, setting.sub mem⟩
    unfold TRaft.nservers
    omega
  have holding : (Q.erase s).card ≤ ((a.2 s).volatileState.matchIndex.keys.toFinset.filter
      ((a.2 s).state.log.length ≤ (a.2 s).volatileState.matchOf ·)).card := by
    apply Finset.card_le_card
    intro y peer
    have reached := matched y peer
    refine Finset.mem_filter.mpr ⟨List.mem_toFinset.mpr ?_, by simpa using reached⟩
    exact AList.mem_keys.mp (TVolatileState.mem_of_matchOf (by omega))
  rw [Finset.card_erase_of_mem mem] at holding
  have many := setting.many
  unfold TRaft.position
  rw [counting.sized.le_position_iff pos, servers, TVolatileState.holders, (a.2 s).state.index_eq, if_pos le_rfl]
  omega

/-- The leader `s` gets an answer of the peer `x`. -/
theorem Group.answer (group : Group delay lim wait ids Q a) (mem : s ∈ Q) (leads : (a.2 s).stateName = .leader)
    (peer : x ∈ Q.erase s) {ex : TMessageEx} {body : TAppendEntriesResponse} (source : ex.src = x)
    (present : ex.term = (a.2 s).state.currentTerm) (within : body.matchIndex ≤ (a.2 s).state.log.length)
    (sent : .send s (.appendEntriesResponse ex body) ∈ (a.2 x).effects) :
    ∃ b, Schedule delay lim Q a b ∧ b.1 = a.1 ∧ Group delay lim wait ids Q b ∧
      b.2 s = (a.2 s).onAppendEntriesResponse ex body ∧ TRaft.Counted ⟨a.1, ex, body⟩ (a.2 s) (b.2 s) ∧
      ∀ y, y ≠ s → b.2 y = a.2 y := by
  have reach : Reachable delay maxLogSize ids a.2 := group.reach.mono (setting.small.trans (by decide))
  have counting := reach.counting (setting.sub mem) leads
  have known : x ∈ (a.2 s).nodes := (group.mem_nodes setting (setting.sub mem)).mpr
    (Finset.erase_subset_erase s setting.sub peer)
  have expects : (a.2 s).Expects ⟨a.1, ex, body⟩ :=
    ⟨present, source ▸ known, within.trans (a.2 s).state.index_eq.ge⟩
  have counted := counting.process expects delay
  have same : (a.2 s).process delay a.1 (.appendEntriesResponse ex body) = (a.2 s).onAppendEntriesResponse ex body :=
    TRaft.process_response leads present
  have room : ((a.2 s).process delay a.1 (.appendEntriesResponse ex body)).state.log.length < lim := by
    rw [counted.state]
    exact group.log_lt setting (setting.sub mem)
  obtain ⟨b, st, clock, group', own, rest⟩ :=
    group.deliver setting mem le_rfl (Finset.mem_of_mem_erase peer) sent room
  exact ⟨b, st, clock, group', own.trans same, own ▸ counted, rest⟩

/-- The peer `x` has taken a request of the leader. -/
structure Asked (delay : UInt32 → ℕ) (lim wait : ℕ) (ids Q : Finset ℕ) (s x : ℕ) (ex : TMessageEx)
    (body : TAppendEntriesRequest) (a b : Time × Cluster) : Prop extends Group delay lim wait ids Q b where
  view : (a.2 s).SameView (b.2 s)
  source : ex.src = s
  present : ex.term = (a.2 s).state.currentTerm
  creates : (a.2 s).Creates x body
  formed : (a.2 s).WellFormed x body
  took : TRaft.Took ex body (a.2 x) (b.2 x)
  frame : ∀ y, y ≠ s → y ≠ x → b.2 y = a.2 y

/-- A request takes as long as the leader's heartbeat is not due. -/
theorem Reign.ask (reign : Reign delay lim wait ids Q s σ a) (mem : s ∈ Q) (peer : x ∈ Q.erase s) :
    Attains (Schedule delay lim Q) Prod.fst (milliseconds (TTimeout.election / 2))
      (fun b => ∃ ex body, Asked delay lim wait ids Q s x ex body a b) a := by
  have group := reign.toGroup
  have leads := reign.leads
  obtain ⟨other, peer'⟩ := Finset.mem_erase.mp peer
  have far : x ∈ ids.erase s := Finset.erase_subset_erase s setting.sub peer
  obtain ⟨h, agrees⟩ := group.agrees setting
  have known := (group.mem_nodes setting (setting.sub mem)).mpr far
  have short := (group.log_lt setting (setting.sub mem)).trans_le (setting.small.trans (by decide : _ ≤ maxLogSize))
  obtain ⟨low, high⟩ := group.next_le setting (setting.sub mem) leads far
  -- the leader sends a request
  obtain ⟨view, ex, body, source, present, creates, sent⟩ := TRaft.pings_due leads (agrees.sim s (setting.sub mem)).nodup known
    (le_max_right a.1 ((a.2 s).volatileState.heartbeatDue x))
  have formed := TRaft.wellFormed low high (group.reach.batched (setting.sub mem)) short creates
  have room : ((a.2 s).processTimeout delay (max a.1 ((a.2 s).volatileState.heartbeatDue x))).state.log.length < lim := by
    rw [view.state]
    exact group.log_lt setting (setting.sub mem)
  obtain ⟨b₁, st₁, clock₁, group₁, own₁, rest₁⟩ := group.timeout setting mem (le_max_left ..) room
  -- and the peer receives it
  have same : b₁.2 x = a.2 x := rest₁ x other
  have source := source.trans (agrees.sim s (setting.sub mem)).id
  rw [← own₁] at sent
  have taken : TRaft.Took ex body (a.2 x) ((a.2 x).process delay b₁.1 (.appendEntriesRequest ex body)) := TRaft.took
    (by rw [present, reign.state]; exact reign.below x peer') (group.standing setting (setting.sub peer')).peers.name
    (by rw [source, group.mem_nodes setting (setting.sub peer')]; exact Finset.mem_erase.mpr ⟨other.symm, setting.sub mem⟩)
    ((group.log_lt setting (setting.sub peer')).trans_le (setting.small.trans (by decide : _ ≤ maxLogSize)))
  have inside := formed.inside
  rw [(a.2 s).state.index_eq, formed.count] at inside
  have room' : ((b₁.2 x).process delay b₁.1 (.appendEntriesRequest ex body)).state.log.length < lim := by
    rw [same]
    have theirs := group.log_lt setting (setting.sub peer')
    have ours := group.log_lt setting (setting.sub mem)
    cases taken with
    | stored _ fits => exact fits.trans_lt (max_lt theirs (inside.trans_lt ours))
    | refused _ log => rwa [log]
  obtain ⟨b₂, st₂, clock₂, group₂, own₂, rest₂⟩ := group₁.deliver setting peer' le_rfl mem sent room'
  have beat := (reign.timed s mem).heartbeat x
  refine ⟨b₂, .tail (.single st₁) st₂, by rw [clock₂, clock₁]; exact max_le (Nat.le_add_right ..) beat, ex, body, ?_⟩
  exact {
    toGroup := group₂
    view := by rw [rest₂ s other.symm, own₁]; exact view
    source := source
    present := present
    creates := creates
    formed := formed
    took := by rw [own₂, same]; exact taken
    frame := fun y ne ne' => (rest₂ y ne').trans (rest₁ y ne) }

/-- The leader has got the answer of `x`. -/
structure Answered (delay : UInt32 → ℕ) (lim wait : ℕ) (ids Q : Finset ℕ) (s x : ℕ) (σ : TState) (k : ℕ) (success : Bool)
    (a b b' : Time × Cluster) : Prop extends Reign delay lim wait ids Q s σ b' where
  note : ∃ ex : TMessageEx, ex.src = x ∧ ex.term = (b.2 s).state.currentTerm ∧
    b'.2 s = (b.2 s).onAppendEntriesResponse ex { matchIndex := k, success } ∧
    TRaft.Counted ⟨b.1, ex, { matchIndex := k, success }⟩ (b.2 s) (b'.2 s)
  peer : b'.2 x = b.2 x
  frame : ∀ y, y ≠ s → y ≠ x → b'.2 y = a.2 y
  others : ∀ y, y ≠ x → gap b' s y = gap a s y

theorem Asked.answer {ex : TMessageEx} {body : TAppendEntriesRequest} (reign : Reign delay lim wait ids Q s σ a)
    (asked : Asked delay lim wait ids Q s x ex body a b) (mem : s ∈ Q) (peer : x ∈ Q.erase s)
    (term : (b.2 x).state.currentTerm = ex.term) {k : ℕ} {success : Bool}
    (sent : .send ex.src (.appendEntriesResponse { src := (a.2 x).id, dst := ex.src, term := ex.term, seqno := ex.seqno }
      { matchIndex := k, success }) ∈ (b.2 x).effects) (within : k ≤ (a.2 s).state.log.length) :
    ∃ b', Schedule delay lim Q b b' ∧ b'.1 = b.1 ∧ Answered delay lim wait ids Q s x σ k success a b b' := by
  have view := asked.view
  obtain ⟨other, peer'⟩ := Finset.mem_erase.mp peer
  have id : (a.2 x).id = x := by
    obtain ⟨h, agrees⟩ := reign.agrees setting
    exact (agrees.sim x (setting.sub peer')).id
  have present : ex.term = (b.2 s).state.currentTerm := by
    rw [view.state]
    exact asked.present
  rw [asked.source, id] at sent
  obtain ⟨ex', same, source', term'⟩ : ∃ ex' : TMessageEx, ex' = { src := x, dst := s, term := ex.term, seqno := ex.seqno } ∧
    ex'.src = x ∧ ex'.term = ex.term := ⟨_, rfl, rfl, rfl⟩
  rw [← same] at sent
  obtain ⟨b', st, clock, group, own, counted, rest⟩ := asked.toGroup.answer setting mem (view.name.trans reign.leads) peer
    source' (term'.trans present) (within.trans_eq (by rw [view.state])) sent
  have state : (b'.2 s).state = (a.2 s).state := counted.state.trans view.state
  refine ⟨b', st, clock, { group with
    leads := counted.name.trans (view.name.trans reign.leads)
    state := state.trans reign.state
    below := fun y mem' => ?_
    note := ⟨ex', source', term'.trans present, own, counted⟩
    peer := rest x other
    frame := fun y ne ne' => (rest y ne).trans (asked.frame y ne ne')
    others := fun y ne => ?_ }⟩
  · by_cases own : y = s
    · rw [own, state, reign.state]
    · rw [rest y own]
      by_cases here : y = x
      · rw [here, term, asked.present, reign.state]
      · rw [asked.frame y own here]
        exact reign.below y mem'
  · unfold gap
    rw [state]
    apply TVolatileState.gap_congr
    · rw [counted.matchOf, if_neg fun here => ne (here.2.trans source')]
      exact view.matchOf y
    · rw [own, TRaft.nextIndex_onAppendEntriesResponse _ (source'.symm ▸ ne), view.nextIndex]

/-- What a leader that lacks nothing of `x` tells it is all that it has committed. -/
theorem Asked.leaderCommit {ex : TMessageEx} {body : TAppendEntriesRequest} (reign : Reign delay lim wait ids Q s σ a)
    (asked : Asked delay lim wait ids Q s x ex body a b) (mem : s ∈ Q) (none : gap a s x = 0) :
    body.leaderCommit = (a.2 s).volatileState.commitIndex := by
  have formed := asked.formed
  obtain ⟨-, beyond⟩ := TVolatileState.matched_of_gap none
  have committed := reign.commitIndex_le setting (setting.sub mem)
  have prev := formed.prev
  have last := formed.last
  obtain ⟨ex', built⟩ := asked.creates
  obtain ⟨-, same⟩ := TMessage.appendEntriesRequest.inj built
  have cut : body.leaderCommit = min (a.2 s).volatileState.commitIndex ((a.2 s).batchEnd x body.prevLogIndex) := by
    rw [← same]
  rw [cut]
  omega

/-- A leader that lacks nothing of any of the servers commits its log with the next answer. -/
theorem Answered.commits {k : ℕ} {b' : Time × Cluster} (answered : Answered delay lim wait ids Q s x σ k true a b b')
    (mem : s ∈ Q) (none : ∀ y ∈ Q.erase s, gap b' s y = 0) :
    (b'.2 s).volatileState.commitIndex = (b'.2 s).state.log.length := by
  have group := answered.toGroup
  have leads := answered.leads
  have position := group.position_of_matched setting mem leads fun y peer => by
    obtain ⟨known, beyond⟩ := TVolatileState.matched_of_gap (none y peer)
    omega
  obtain ⟨ex, -, -, -, counted⟩ := answered.note
  have commit := counted.commitIndex
  rw [if_pos rfl, position, ← counted.state, TState.advance] at commit
  have within := group.commitIndex_le setting (setting.sub mem)
  split at commit
  · exact commit
  · rename_i stays
    by_contra less
    have own : lastTerm TLogEntry.term (b'.2 s).state.log = _ := (group.standing setting (setting.sub mem)).own leads
    exact stays ⟨by omega, own⟩

/-- **The peer has accepted the request.** -/
theorem Asked.accepted {ex : TMessageEx} {body : TAppendEntriesRequest} {b' : Time × Cluster}
    (reign : Reign delay lim wait ids Q s σ a) (asked : Asked delay lim wait ids Q s x ex body a b) (mem : s ∈ Q)
    (peer : x ∈ Q.erase s) (term : (b.2 x).state.currentTerm = ex.term)
    (commit : (b.2 x).volatileState.commitIndex = throughInt (max (a.2 x).volatileState.commitIndex body.leaderCommit))
    (answered : Answered delay lim wait ids Q s x σ (body.prevLogIndex + body.payload.length) true a b b') :
    Exchanged Q s x a b' := by
  have view := asked.view
  have formed := asked.formed
  have short := (reign.log_lt setting (setting.sub mem)).trans_le (setting.small.trans (by decide : _ ≤ maxLogSize))
  have state : (b'.2 s).state = (a.2 s).state := answered.state.trans reign.state.symm
  obtain ⟨low, high⟩ := reign.next_le setting (setting.sub mem) reign.leads (Finset.erase_subset_erase s setting.sub peer)
  have less : gap b' s x < gap a s x ∨ gap b' s x = 0 := by
    obtain ⟨ex', source, present, own, counted⟩ := answered.note
    have inside := formed.inside
    rw [(a.2 s).state.index_eq, formed.count] at inside
    unfold maxLogSize at short
    have notes := Replication.notes_success present (k := body.prevLogIndex + body.payload.length) (by omega)
    rw [← own, source, view.matchOf] at notes
    obtain ⟨-, more⟩ := formed.amount (reign.reach.batched (setting.sub mem)) short
      (reign.matchOf_le setting (setting.sub mem) reign.leads)
    have prev := formed.prev
    unfold gap
    rw [state]
    have ends : body.prevLogIndex + body.payload.length + 1 = (a.2 s).volatileState.nextIndex x + body.payload.length := by omega
    exact TVolatileState.gap_of_success low notes.matchIndex notes.nextIndex ends
      fun known inside => formed.count ▸ more known (by omega)
  refine ⟨answered.frame, answered.others, less, ?_, fun none all => ?_, fun none => ?_⟩
  · rw [answered.peer, term, asked.present]
  · have lacking : ∀ y ∈ Q.erase s, gap b' s y = 0 := by
      intro y mem'
      by_cases here : y = x
      · rw [here]
        omega
      · rw [answered.others y here]
        exact all y mem'
    rw [answered.commits setting mem lacking, state]
  · obtain ⟨-, peer'⟩ := Finset.mem_erase.mp peer
    have theirs := (reign.commitIndex_le setting (setting.sub peer')).trans_lt (reign.log_lt setting (setting.sub peer'))
    have ours := (reign.commitIndex_le setting (setting.sub mem)).trans_lt (reign.log_lt setting (setting.sub mem))
    have small := setting.small
    rw [answered.peer, commit, asked.leaderCommit setting reign mem none, throughInt_of_lt (by omega)]
    exact le_max_right ..

/-- **The peer has rejected the request**, whose log is still being probed. -/
theorem Asked.rejected {ex : TMessageEx} {body : TAppendEntriesRequest} {b' : Time × Cluster}
    (reign : Reign delay lim wait ids Q s σ a) (asked : Asked delay lim wait ids Q s x ex body a b) (mem : s ∈ Q)
    (peer : x ∈ Q.erase s) (term : (b.2 x).state.currentTerm = ex.term) (fails : ¬ (b.2 x).state.Continues body)
    (answered : Answered delay lim wait ids Q s x σ 0 false a b b') : Exchanged Q s x a b' := by
  have view := asked.view
  have formed := asked.formed
  have prev := formed.prev
  have state : (b'.2 s).state = (a.2 s).state := answered.state.trans reign.state.symm
  obtain ⟨-, peer'⟩ := Finset.mem_erase.mp peer
  have probes : (a.2 s).volatileState.matchOf x + 1 < (a.2 s).volatileState.nextIndex x := by
    by_contra known
    apply fails
    -- what is counted as stored reaches as far as the entry before the request
    have held := asked.toGroup.held setting (setting.sub mem) (view.name.trans reign.leads) (setting.sub peer')
      (by rw [term, asked.present, view.state])
    have within := reign.matchOf_le setting (setting.sub mem) reign.leads (x := x)
    rw [view.state, view.matchOf] at held
    have part : (a.2 s).state.log.take body.prevLogIndex <+: (b.2 x).state.log := (take_prefix_of_le (by omega)).trans held
    have len : ((a.2 s).state.log.take body.prevLogIndex).length = body.prevLogIndex := by
      rw [List.length_take]
      omega
    refine .inr ⟨len.symm.le.trans part.length_le, ?_⟩
    rw [termAt_of_prefixed part len.ge, formed.prevTerm]
    exact (termAt_of_prefixed (List.take_prefix ..) len.ge).symm
  have less : gap b' s x < gap a s x := by
    obtain ⟨ex', source, present, own, -⟩ := answered.note
    obtain ⟨n, notes, low, less⟩ := Replication.notes_failure present 0
    rw [← own, source, view.matchOf] at notes
    rw [source, view.nextIndex] at less
    unfold gap
    rw [state]
    exact TVolatileState.gap_of_failure probes notes.matchIndex notes.nextIndex low (less (by omega))
  have lacks : gap a s x ≠ 0 := fun none => (TVolatileState.matched_of_gap none).1 probes
  refine ⟨answered.frame, answered.others, .inl less, ?_, fun none => absurd none lacks, fun none => absurd none lacks⟩
  rw [answered.peer, term, asked.present]

/-- **A round.** It takes as long as the leader's heartbeat is not due. -/
theorem Reign.round (reign : Reign delay lim wait ids Q s σ a) (mem : s ∈ Q) (peer : x ∈ Q.erase s) :
    Attains (Schedule delay lim Q) Prod.fst (milliseconds (TTimeout.election / 2))
      (fun b => Reign delay lim wait ids Q s σ b ∧ Exchanged Q s x a b) a := by
  obtain ⟨b, run, soon, ex, body, asked⟩ := reign.ask setting mem peer
  have inside := asked.formed.inside
  rw [(a.2 s).state.index_eq, asked.formed.count] at inside
  cases asked.took with
  | stored term _ commit answer =>
    obtain ⟨b', st, clock, answered⟩ := asked.answer setting reign mem peer term answer inside
    exact ⟨b', .tail run st, by rwa [clock], answered.toReign, asked.accepted setting reign mem peer term commit answered⟩
  | refused term _ fails answer =>
    obtain ⟨b', st, clock, answered⟩ := asked.answer setting reign mem peer term answer (Nat.zero_le _)
    exact ⟨b', .tail run st, by rwa [clock], answered.toReign, asked.rejected setting reign mem peer term fails answered⟩

end

end Cluster

end MiniRaft
