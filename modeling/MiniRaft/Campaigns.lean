import Mathlib.Data.Finset.Max
import Mathlib.Data.Prod.Lex
import MiniRaft.Rounds

/-!
# Campaigns

One of the servers has a log that is as up to date as those of the others. Once its term is the latest it can stand for
election, and all of the others vote for it.
-/

namespace MiniRaft

open Lib

/-- Server `s` asks for a vote in term `t`, with the log `l`. -/
def TMessage.Asks (s t : ℕ) (l : List TLogEntry) : TMessage → Prop
  | .requestVoteRequest ex body => ex.src = s ∧ ex.term = t ∧ body.candidateId = s ∧ body.lastLogIndex = l.length ∧
      body.lastLogTerm = lastTerm TLogEntry.term l
  | _ => False

namespace TRaft

variable {delay : UInt32 → ℕ} {now : Time} {r r₁ : TRaft} {d s t : ℕ} {l : List TLogEntry} {m : TMessage} {ex : TMessageEx}

/-! ## The candidate -/

theorem asks_createVote (d : ℕ) (r : TRaft) : (r.createVote d).Asks r.id r.state.currentTerm r.state.log :=
  ⟨rfl, rfl, rfl, r.state.index_eq, r.state.term_eq⟩

theorem createVote_congr (id : r₁.id = r.id) (state : r₁.state = r.state) (d : ℕ) : r₁.createVote d = r.createVote d := by
  unfold createVote
  rw [id, state]

/-- A candidate asks every peer whose turn it is. -/
theorem asks_due (nodup : r.nodes.Nodup) (peer : d ∈ r.nodes) (due : r.volatileState.rpcDue d ≤ now) :
    .send d (r.createVote d) ∈ (r.candidateTimeout now).effects := by
  obtain ⟨before, after, split⟩ := List.append_of_mem peer
  have apart : d ∉ before := by
    rw [split, List.nodup_append] at nodup
    exact fun mem => nodup.2.2 d mem d List.mem_cons_self rfl
  have first : (before.foldl (candidateTimeoutFor now) r).createVote d = r.createVote d ∧
      (before.foldl (candidateTimeoutFor now) r).nodes = r.nodes ∧
      (before.foldl (candidateTimeoutFor now) r).volatileState.rpcDue d = r.volatileState.rpcDue d := by
    apply List.foldlRecOn (motive := fun r' : TRaft => r'.createVote d = r.createVote d ∧ r'.nodes = r.nodes ∧
      r'.volatileState.rpcDue d = r.volatileState.rpcDue d) before _ ⟨rfl, rfl, rfl⟩
    intro r' ⟨vote, nodes, turn⟩ id mem
    unfold candidateTimeoutFor
    dsimp only
    split
    · refine ⟨?_, by rw [nodes_send]; exact nodes, ?_⟩
      · rw [← vote]
        exact createVote_congr (id_send ..) (state_send ..) d
      · rw [volatileState_send]
        exact (Function.update_of_ne (fun own : d = id => apart (own ▸ mem)) ..).trans turn
    · exact ⟨vote, nodes, turn⟩
  unfold candidateTimeout
  rw [split, List.foldl_append, List.foldl_cons]
  generalize before.foldl (candidateTimeoutFor now) r = r₁ at first
  obtain ⟨vote, nodes, turn⟩ := first
  have sent : .send d (r.createVote d) ∈ (candidateTimeoutFor now r₁ d).effects := by
    unfold candidateTimeoutFor
    dsimp only
    rw [if_pos (turn ▸ due), effects_send, if_pos (nodes.symm ▸ peer), ← vote]
    exact List.mem_append_right _ List.mem_cons_self
  apply List.foldlRecOn (motive := fun r' : TRaft => .send d (r.createVote d) ∈ r'.effects) after _ sent
  intro r' old id _
  unfold candidateTimeoutFor
  dsimp only
  split
  · rw [effects_send]
    exact List.mem_append_left _ old
  · exact old

/-- A server has begun an election that it has not won yet. -/
structure Stands (now : Time) (r r₁ : TRaft) : Prop where
  name : r₁.stateName = .candidate
  term : r₁.state.currentTerm = r.state.currentTerm + 1
  log : r₁.state.log = r.state.log
  due : now < r₁.volatileState.electionDue
  asks : ∀ d ∈ r.nodes, ∃ m : TMessage, m.Asks r.id (r.state.currentTerm + 1) r.state.log ∧ .send d m ∈ r₁.effects

theorem electionIsDue_of_other (other : r.stateName = .candidate ∨ r.stateName = .follower)
    (due : r.volatileState.electionDue ≤ now) : r.electionIsDue now = true := by simp [electionIsDue, other, due]

/-- **A server with peers stands** when its time is up. -/
theorem stands (delays : 0 < delay (rand_ r.seed)) (other : r.stateName = .candidate ∨ r.stateName = .follower)
    (due : r.volatileState.electionDue ≤ now) (nodup : r.nodes.Nodup) (several : r.nodes ≠ []) :
    Stands now r (r.processTimeout delay now) := by
  have count := List.length_pos_of_ne_nil several
  have started : r.startElection delay now = _ := startElection_eq now r
  have undecided : (r.startElection delay now).wins = false := by
    simp [started, wins, minVotes]
    omega
  have same : r.processTimeout delay now = (r.startElection delay now).candidateTimeout now := by
    unfold processTimeout
    simp only [electionIsDue_of_other other due, if_true, undecided, Bool.false_eq_true, if_false]
    rw [dispatchTimeout, started]
  rw [same]
  have kept : ((r.startElection delay now).candidateTimeout now).stateName = .candidate ∧
      ((r.startElection delay now).candidateTimeout now).state = r.state.withVote (r.state.currentTerm + 1) r.id ∧
      ((r.startElection delay now).candidateTimeout now).volatileState.electionDue =
        now + milliseconds (delay (rand_ r.seed)) := by
    refine candidateTimeout_rule (P := fun r' => r'.stateName = .candidate ∧
      r'.state = r.state.withVote (r.state.currentTerm + 1) r.id ∧
      r'.volatileState.electionDue = now + milliseconds (delay (rand_ r.seed))) (fun _ _ kept => ?_) ?_
    · rw [stateName_send, state_send, volatileState_send]
      exact kept
    · rw [started]
      exact ⟨rfl, rfl, rfl⟩
  obtain ⟨name, state, armed⟩ := kept
  refine ⟨name, by rw [state]; rfl, by rw [state]; rfl, ?_, fun d peer => ?_⟩
  · rw [armed]
    exact Nat.lt_add_of_pos_right (Nat.mul_pos (by decide) delays)
  · refine ⟨(r.startElection delay now).createVote d, ?_, asks_due ?_ ?_ ?_⟩
    · rw [started]
      exact asks_createVote ..
    · rwa [started]
    · rwa [started]
    · rw [started]
      exact Nat.zero_le _

/-- **A candidate that has enough votes leads**, with an entry of its own at the end of its log. -/
theorem leads_of_wins (first : (if r.electionIsDue now then r.startElection delay now else r) = r₁) (won : r₁.wins) :
    (r.processTimeout delay now).stateName = .leader ∧
      (r.processTimeout delay now).state = r₁.state.append { term := r₁.state.currentTerm, flags := eStub } := by
  have same : r.processTimeout delay now = r₁.becomeLeader.dispatchTimeout now := by
    unfold processTimeout
    dsimp only
    rw [first, if_pos won]
  rw [same]
  refine ⟨?_, state_dispatchTimeout ..⟩
  exact leaderTimeout_rule (P := fun r' => r'.stateName = .leader)
    (fun _ _ _ name => (stateName_sendAppendEntries ..).trans name) (fun _ name => name) rfl

/-! ## The voters -/

/-- **A server hears of a candidate of a later term**, and votes for it if the log is up to date. -/
structure Heeds (s t : ℕ) (l : List TLogEntry) (r r₁ : TRaft) : Prop where
  name : r₁.stateName = .follower
  term : r₁.state.currentTerm = t
  log : r₁.state.log = r.state.log
  grants : UpToDate TLogEntry.term l r.state.log → s ∈ r.nodes →
    ∃ ex : TMessageEx, ex.src = r.id ∧ ex.term = t ∧ .send s (.requestVoteResponse ex ⟨true⟩) ∈ r₁.effects

theorem heeds (later : r.state.currentTerm < t) (asks : m.Asks s t l) : Heeds s t l r (r.process delay now m) := by
  cases m with
  | requestVoteRequest ex body =>
    obtain ⟨rfl, rfl, candidate, index, term⟩ := asks
    have adopted : ∃ r₁ : TRaft, r.adoptTerm delay now (some ex) = r₁ ∧ r₁.stateName = .follower ∧
        r₁.state = r.state.withVote ex.term 0 ∧ r₁.id = r.id ∧ r₁.nodes = r.nodes := by
      have taken := r.adopting delay now (some ex)
      generalize r.adoptTerm delay now (some ex) = r₁ at taken ⊢
      refine ⟨r₁, rfl, ?_⟩
      cases taken with
      | known le => exact absurd later (le ex rfl).not_gt
      | armed => exact ⟨rfl, rfl, rfl, rfl⟩
      | running => exact ⟨rfl, rfl, rfl, rfl⟩
    obtain ⟨r₁, same, name, state, id, nodes⟩ := adopted
    have handled : r.process delay now (.requestVoteRequest ex body) = r₁.onRequestVote delay now ex body := by
      change (r.adoptTerm delay now (some ex)).dispatch delay now _ = _
      rw [same, dispatch, name]
      rfl
    rw [handled]
    have kept : (r₁.onRequestVote delay now ex body).stateName = .follower ∧
        (r₁.onRequestVote delay now ex body).state.currentTerm = ex.term ∧
        (r₁.onRequestVote delay now ex body).state.log = r.state.log := by
      have taken := r₁.voting delay now ex body
      generalize r₁.onRequestVote delay now ex body = r₂ at taken ⊢
      cases taken with
      | refused =>
        rw [stateName_send, state_send, state]
        exact ⟨name, rfl, rfl⟩
      | granted =>
        rw [stateName_send, state_send]
        exact ⟨name, by rw [state]; rfl, by rw [state]; rfl⟩
      | ignored =>
        rw [state]
        exact ⟨name, rfl, rfl⟩
    refine ⟨kept.1, kept.2.1, kept.2.2, fun fresh peer => ⟨{ src := r.id, dst := ex.src, term := ex.term }, rfl, rfl, ?_⟩⟩
    have current : r₁.state.currentTerm = ex.term := by rw [state]; rfl
    have accept : (r₁.state.votedFor = 0 ∨ r₁.state.votedFor = body.candidateId) ∧
        (r₁.state.logTerm (-1) < body.lastLogTerm ∨
          body.lastLogTerm = r₁.state.logTerm (-1) ∧ r₁.state.lastLogIndex ≤ body.lastLogIndex) := by
      rw [r₁.state.logTerm_last, r₁.state.index_eq, term, index, state]
      exact ⟨.inl rfl, fresh⟩
    unfold onRequestVote
    rw [if_neg (by omega), if_pos current.symm]
    dsimp only
    rw [if_pos (decide_eq_true accept), effects_send, if_pos (nodes.symm ▸ peer), id, current, decide_eq_true accept]
    exact List.mem_append_right _ List.mem_cons_self
  | _ => cases asks

/-- A candidate counts a vote. -/
theorem process_vote (name : r.stateName = .candidate) (present : ex.term = r.state.currentTerm) :
    r.process delay now (.requestVoteResponse ex ⟨true⟩) =
      { r with volatileState := (r.volatileState.vote ex.src).setRpcDue ex.src Time.max } := by
  unfold process adoptTerm
  simp only [TMessage.ex?]
  rw [if_neg (by omega), dispatch, name]
  change r.onRequestVoteResponse ex ⟨true⟩ = _
  rw [onRequestVoteResponse, if_pos ⟨rfl, present⟩, ← name]

end TRaft

namespace Cluster

variable {delay : UInt32 → ℕ} {lim wait : ℕ} {ids Q : Finset ℕ} {s x t : ℕ} {l : List TLogEntry} {a b : Time × Cluster}

/-- Server `s` may stand: its term and its log are the latest of the servers `Q`. -/
structure Ready (delay : UInt32 → ℕ) (lim wait : ℕ) (ids Q : Finset ℕ) (s : ℕ) (a : Time × Cluster) : Prop extends
    Group delay lim wait ids Q a where
  waits : (a.2 s).stateName ≠ .leader
  latest : ∀ x ∈ Q, (a.2 x).state.currentTerm ≤ (a.2 s).state.currentTerm
  fresh : ∀ x ∈ Q, UpToDate TLogEntry.term (a.2 s).state.log (a.2 x).state.log
  room : (a.2 s).state.log.length + 1 < lim

/-- Server `s` stands in term `t` with the log `l`. Whoever has not voted for it is in an earlier term. -/
structure Polls (delay : UInt32 → ℕ) (lim wait : ℕ) (ids Q : Finset ℕ) (s t : ℕ) (l : List TLogEntry) (a : Time × Cluster) : Prop
    extends Group delay lim wait ids Q a where
  name : (a.2 s).stateName = .candidate
  term : (a.2 s).state.currentTerm = t
  log : (a.2 s).state.log = l
  due : a.1 < (a.2 s).volatileState.electionDue
  asks : ∀ x ∈ Q.erase s, ∃ m : TMessage, m.Asks s t l ∧ .send x m ∈ (a.2 s).effects
  fresh : ∀ x ∈ Q.erase s, UpToDate TLogEntry.term l (a.2 x).state.log
  open_ : ∀ x ∈ Q.erase s, (a.2 x).state.currentTerm < t ∨ x ∈ (a.2 s).volatileState.votes
  below : ∀ x ∈ Q, (a.2 x).state.currentTerm ≤ t

section

variable (setting : Setting delay lim wait ids Q)

include setting

/-- A server that does not lead waits no longer than `wait`. -/
theorem Group.election (group : Group delay lim wait ids Q a) (mem : s ∈ Q) (waits : (a.2 s).stateName ≠ .leader) :
    (a.2 s).volatileState.electionDue ≤ a.1 + milliseconds wait ∧
      ((a.2 s).stateName = .candidate ∨ (a.2 s).stateName = .follower) := by
  refine ⟨(group.timed s mem).election.resolve_right fun leads => waits leads.1, ?_⟩
  have known := (group.standing setting (setting.sub mem)).peers.name
  cases name : (a.2 s).stateName with
  | none => exact absurd name known
  | candidate => exact .inl rfl
  | follower => exact .inr rfl
  | leader => exact absurd name waits

/-- **A server begins an election** that it has not won yet. -/
theorem Group.stand (group : Group delay lim wait ids Q a) (mem : s ∈ Q) (waits : (a.2 s).stateName ≠ .leader)
    (several : (a.2 s).nodes ≠ []) : ∃ b, Schedule delay lim Q a b ∧ b.1 ≤ a.1 + milliseconds wait ∧
      Group delay lim wait ids Q b ∧ (a.2 s).Stands b.1 (b.2 s) ∧ ∀ y, y ≠ s → b.2 y = a.2 y := by
  obtain ⟨h, agrees⟩ := group.agrees setting
  obtain ⟨soon, other⟩ := group.election setting mem waits
  have stands := TRaft.stands (setting.delays _).1 other (le_max_right a.1 _) (agrees.sim s (setting.sub mem)).nodup several
  obtain ⟨b, st, clock, group', own, rest⟩ := group.timeout setting mem (le_max_left ..)
    (by rw [stands.log]; exact group.log_lt setting (setting.sub mem))
  refine ⟨b, st, ?_, group', ?_, rest⟩
  · rw [clock]
    exact max_le (Nat.le_add_right ..) soon
  · rw [own, clock]
    exact stands

theorem Ready.stand (ready : Ready delay lim wait ids Q s a) (mem : s ∈ Q) (several : (a.2 s).nodes ≠ []) :
    Attains (Schedule delay lim Q) Prod.fst (milliseconds wait)
      (Polls delay lim wait ids Q s ((a.2 s).state.currentTerm + 1) (a.2 s).state.log) a := by
  obtain ⟨b, st, soon, group, stands, rest⟩ := ready.toGroup.stand setting mem ready.waits several
  have id : (a.2 s).id = s := by
    obtain ⟨h, agrees⟩ := ready.agrees setting
    exact (agrees.sim s (setting.sub mem)).id
  have before : ∀ x ∈ Q.erase s, b.2 x = a.2 x ∧ (a.2 x).state.currentTerm ≤ (a.2 s).state.currentTerm := fun x peer =>
    ⟨rest x (Finset.ne_of_mem_erase peer), ready.latest x (Finset.mem_of_mem_erase peer)⟩
  refine .single st soon { group with
    name := stands.name
    term := stands.term
    log := stands.log
    due := stands.due
    asks := fun x peer => ?_
    fresh := fun x peer => ?_
    open_ := fun x peer => ?_
    below := fun x mem' => ?_ }
  · have known := (ready.mem_nodes setting (setting.sub mem)).mpr (Finset.erase_subset_erase s setting.sub peer)
    obtain ⟨m, asks, sent⟩ := stands.asks x known
    rw [id] at asks
    exact ⟨m, asks, sent⟩
  · rw [(before x peer).1]
    exact ready.fresh x (Finset.mem_of_mem_erase peer)
  · rw [(before x peer).1]
    exact .inl (Nat.lt_succ_of_le (before x peer).2)
  · by_cases own : x = s
    · rw [own, stands.term]
    · have peer := Finset.mem_erase.mpr ⟨own, mem'⟩
      rw [(before x peer).1]
      exact (before x peer).2.trans (Nat.le_succ _)

/-- **A peer votes**, and its vote is counted, in no time. -/
theorem Polls.vote (polls : Polls delay lim wait ids Q s t l a) (mem : s ∈ Q) (peer : x ∈ Q.erase s) :
    Attains (Schedule delay lim Q) Prod.fst 0 (fun b => Polls delay lim wait ids Q s t l b ∧
      x ∈ (b.2 s).volatileState.votes ∧ ∀ y, y ∈ (a.2 s).volatileState.votes → y ∈ (b.2 s).volatileState.votes) a := by
  rcases polls.open_ x peer with early | voted
  · obtain ⟨other, peer'⟩ := Finset.mem_erase.mp peer
    have id : (a.2 x).id = x := by
      obtain ⟨h, agrees⟩ := polls.agrees setting
      exact (agrees.sim x (setting.sub peer')).id
    obtain ⟨m, asks, sent⟩ := polls.asks x peer
    have heeds : TRaft.Heeds s t l (a.2 x) ((a.2 x).process delay a.1 m) := TRaft.heeds early asks
    have known := (polls.mem_nodes setting (setting.sub peer')).mpr (Finset.mem_erase.mpr ⟨other.symm, setting.sub mem⟩)
    obtain ⟨ex, source, present, granted⟩ := heeds.grants (polls.fresh x peer) known
    obtain ⟨b₁, st₁, clock₁, group₁, own₁, rest₁⟩ := polls.deliver setting peer' le_rfl mem sent
      (by rw [heeds.log]; exact polls.log_lt setting (setting.sub peer'))
    rw [← own₁] at heeds granted
    have same : b₁.2 s = a.2 s := rest₁ s other.symm
    have counted : (b₁.2 s).process delay b₁.1 (.requestVoteResponse ex ⟨true⟩) = { a.2 s with
        volatileState := ((a.2 s).volatileState.vote ex.src).setRpcDue ex.src Time.max } := by
      rw [same]
      exact TRaft.process_vote polls.name (present.trans polls.term.symm)
    obtain ⟨b₂, st₂, clock₂, group₂, own₂, rest₂⟩ := group₁.deliver setting mem le_rfl peer' granted
      (by rw [counted]; exact polls.log_lt setting (setting.sub mem))
    rw [counted] at own₂
    have here : b₂.2 x = b₁.2 x := rest₂ x other
    have votes : (b₂.2 s).volatileState.votes = insert x (a.2 s).volatileState.votes := by
      rw [own₂, ← id, ← source]
      rfl
    have elsewhere : ∀ y, y ≠ s → y ≠ x → b₂.2 y = a.2 y := fun y ne ne' => (rest₂ y ne).trans (rest₁ y ne')
    refine ⟨b₂, .tail (.single st₁) st₂, by rw [clock₂, clock₁]; exact le_rfl, ?_, ?_, fun y old => ?_⟩
    · exact { group₂ with
        name := by rw [own₂]; exact polls.name
        term := by rw [own₂]; exact polls.term
        log := by rw [own₂]; exact polls.log
        due := by rw [own₂, clock₂, clock₁]; exact polls.due
        asks := by rw [own₂]; exact polls.asks
        fresh := fun y peer => by
          by_cases own : y = x
          · rw [own, here, heeds.log]
            exact polls.fresh x (own ▸ peer)
          · rw [elsewhere y (Finset.ne_of_mem_erase peer) own]
            exact polls.fresh y peer
        open_ := fun y peer => by
          rw [votes]
          by_cases own : y = x
          · exact .inr (own ▸ Finset.mem_insert_self ..)
          · rw [elsewhere y (Finset.ne_of_mem_erase peer) own]
            exact (polls.open_ y peer).imp_right Finset.mem_insert_of_mem
        below := fun y mem' => by
          by_cases leader : y = s
          · rw [leader, own₂]
            exact polls.term.le
          · by_cases own : y = x
            · rw [own, here, heeds.term]
            · rw [elsewhere y leader own]
              exact polls.below y mem' }
    · rw [votes]
      exact Finset.mem_insert_self ..
    · rw [votes]
      exact Finset.mem_insert_of_mem old
  · exact .here ⟨polls, voted, fun _ old => old⟩

/-- **A server for which all vote leads.** -/
theorem Polls.elect (polls : Polls delay lim wait ids Q s t l a) (mem : s ∈ Q)
    (all : ∀ x ∈ Q.erase s, x ∈ (a.2 s).volatileState.votes) (room : l.length + 1 < lim) :
    Attains (Schedule delay lim Q) Prod.fst 0 (fun b => ∃ σ, Reign delay lim wait ids Q s σ b ∧ l <+: σ.log ∧
      σ.log.length = l.length + 1) a := by
  obtain ⟨h, agrees⟩ := polls.agrees setting
  have sim := agrees.sim s (setting.sub mem)
  have calm : (a.2 s).electionIsDue a.1 = false := by simp [TRaft.electionIsDue, polls.due.not_ge]
  have won : (a.2 s).wins := by
    have count := congrArg Finset.card sim.peers
    have votes := Finset.card_le_card fun x peer => all x peer
    have some_ := Finset.card_pos.mpr ⟨s, setting.sub mem⟩
    have many := setting.many
    rw [List.toFinset_card_of_nodup sim.nodup, Finset.card_erase_of_mem (setting.sub mem)] at count
    rw [Finset.card_erase_of_mem mem] at votes
    rw [TRaft.wins, TRaft.minVotes, decide_eq_true_iff]
    exact ⟨polls.name, by omega⟩
  obtain ⟨leads, state⟩ : ((a.2 s).processTimeout delay a.1).stateName = .leader ∧ _ :=
    TRaft.leads_of_wins (if_neg (by rw [calm]; decide)) won
  have log : ((a.2 s).processTimeout delay a.1).state.log = l ++ [{ term := (a.2 s).state.currentTerm, flags := eStub }] := by
    rw [state, TState.log_append, polls.log]
  have len : ((a.2 s).processTimeout delay a.1).state.log.length = l.length + 1 := by rw [log, List.length_append]; rfl
  obtain ⟨b, st, clock, group, own, rest⟩ := polls.timeout setting mem le_rfl (len ▸ room)
  refine .single st clock.le ⟨(b.2 s).state, { group with leads := own ▸ leads, state := rfl, below := fun x mem' => ?_ }, ?_, ?_⟩
  · have term : (b.2 s).state.currentTerm = t := by rw [own, state, TState.currentTerm_append, polls.term]
    by_cases leader : x = s
    · rw [leader]
    · rw [rest x leader, term]
      exact polls.below x mem'
  · rw [own, log]
    exact List.prefix_append ..
  · rw [own, len]

/-- A server without peers elects itself. -/
theorem Ready.alone (ready : Ready delay lim wait ids Q s a) (mem : s ∈ Q) (single : (a.2 s).nodes = []) :
    Attains (Schedule delay lim Q) Prod.fst (milliseconds wait) (fun b => ∃ σ, Reign delay lim wait ids Q s σ b ∧
      (a.2 s).state.log <+: σ.log ∧ σ.log.length = (a.2 s).state.log.length + 1) a := by
  obtain ⟨soon, other⟩ := ready.election setting mem ready.waits
  have due := TRaft.electionIsDue_of_other other (le_max_right a.1 (a.2 s).volatileState.electionDue)
  have won : ((a.2 s).startElection delay (max a.1 (a.2 s).volatileState.electionDue)).wins := by
    simp [TRaft.startElection_eq, TRaft.wins, TRaft.minVotes, single]
  obtain ⟨leads, state⟩ := TRaft.leads_of_wins (if_pos due) won
  rw [TRaft.startElection_eq] at state
  have log := congrArg (fun state : TState => state.log) state
  have len := congrArg List.length log
  rw [TState.log_append, List.length_append] at len
  obtain ⟨b, st, clock, group, own, rest⟩ := ready.timeout setting mem (le_max_left ..) (len ▸ ready.room)
  refine .single st ?_ ⟨(b.2 s).state, { group with leads := own ▸ leads, state := rfl, below := fun x mem' => ?_ }, ?_, ?_⟩
  · rw [clock]
    exact max_le (Nat.le_add_right ..) soon
  · have term : (b.2 s).state.currentTerm = (a.2 s).state.currentTerm + 1 := by rw [own, state]; rfl
    by_cases leader : x = s
    · rw [leader]
    · rw [rest x leader, term]
      exact (ready.latest x mem').trans (Nat.le_succ _)
  · rw [own, log]
    exact List.prefix_append ..
  · rw [own, len]
    rfl

/-- **A server that may stand is elected.** -/
theorem Ready.elect (ready : Ready delay lim wait ids Q s a) (mem : s ∈ Q) :
    Attains (Schedule delay lim Q) Prod.fst (milliseconds wait) (fun b => ∃ σ, Reign delay lim wait ids Q s σ b ∧
      (a.2 s).state.log <+: σ.log ∧ σ.log.length = (a.2 s).state.log.length + 1) a := by
  by_cases single : (a.2 s).nodes = []
  · exact ready.alone setting mem single
  · have work : ∀ x ∈ (Q.erase s).toList, ∀ b,
        Polls delay lim wait ids Q s ((a.2 s).state.currentTerm + 1) (a.2 s).state.log b →
        Attains (Schedule delay lim Q) Prod.fst 0 (fun b' =>
          Polls delay lim wait ids Q s ((a.2 s).state.currentTerm + 1) (a.2 s).state.log b' ∧
            x ∈ (b'.2 s).volatileState.votes ∧ ∀ y, y ∈ (b.2 s).volatileState.votes → y ∈ (b'.2 s).volatileState.votes) b :=
      fun x peer b polls => polls.vote setting mem (Finset.mem_toList.mp peer)
    refine (ready.stand setting mem single).and_at_once fun b polls => ?_
    have all := Attains.each (Q.erase s).toList (fun x b => x ∈ (b.2 s).volatileState.votes) work polls
    rw [Nat.zero_mul] at all
    exact all.at_once fun b' ⟨polls', voted⟩ =>
      polls'.elect setting mem (fun x peer => voted x (Finset.mem_toList.mpr peer)) ready.room

/-- **One of the servers leads or may stand**, once a server of the latest term has stood if need be. -/
theorem Group.ready (group : Group delay lim wait ids Q a) (room : ∀ x ∈ Q, (a.2 x).state.log.length + 1 < lim) :
    ∃ s ∈ Q, Attains (Schedule delay lim Q) Prod.fst (milliseconds wait) (fun b =>
      ((∃ σ, Reign delay lim wait ids Q s σ b) ∨ Ready delay lim wait ids Q s b) ∧
        (b.2 s).state.log = (a.2 s).state.log) a := by
  have some_ : Q.Nonempty := Finset.card_pos.mp (by have := setting.many; omega)
  obtain ⟨d, mem_d, latest⟩ := Finset.exists_max_image Q (fun x => (a.2 x).state.currentTerm) some_
  by_cases led : ∃ y ∈ Q, (a.2 y).stateName = .leader ∧ (a.2 y).state.currentTerm = (a.2 d).state.currentTerm
  · obtain ⟨y, mem, leads, term⟩ := led
    exact ⟨y, mem, .here ⟨.inl ⟨_, { group with leads, state := rfl, below := fun x mem' => term ▸ latest x mem' }⟩, rfl⟩⟩
  obtain ⟨s, mem, best⟩ := Finset.exists_max_image Q
    (fun x => toLex (lastTerm TLogEntry.term (a.2 x).state.log, (a.2 x).state.log.length)) some_
  have fresh : ∀ x ∈ Q, UpToDate TLogEntry.term (a.2 s).state.log (a.2 x).state.log := by
    intro x mem'
    have le := best x mem'
    rw [Prod.Lex.le_iff] at le
    exact le.imp_right fun same => ⟨same.1.symm, same.2⟩
  have waits : (a.2 d).stateName ≠ .leader := fun leads => led ⟨d, mem_d, leads, rfl⟩
  by_cases same : s = d
  · subst same
    exact ⟨s, mem, .here ⟨.inr { group with waits, latest, fresh, room := room s mem }, rfl⟩⟩
  -- the server with the best log hears of another's election
  have known : s ∈ (a.2 d).nodes :=
    (group.mem_nodes setting (setting.sub mem_d)).mpr (Finset.mem_erase.mpr ⟨same, setting.sub mem⟩)
  obtain ⟨b₁, st₁, soon, group₁, stands, rest₁⟩ := group.stand setting mem_d waits (List.ne_nil_of_mem known)
  obtain ⟨m, asks, sent⟩ := stands.asks s known
  have here : b₁.2 s = a.2 s := rest₁ s same
  have heeds : TRaft.Heeds _ _ _ (a.2 s) ((a.2 s).process delay b₁.1 m) :=
    TRaft.heeds (Nat.lt_succ_of_le (latest s mem)) asks
  obtain ⟨b₂, st₂, clock₂, group₂, own₂, rest₂⟩ := group₁.deliver setting mem le_rfl mem_d sent
    (by rw [here, heeds.log]; exact group.log_lt setting (setting.sub mem))
  rw [here] at own₂
  have log : ∀ x, (b₂.2 x).state.log = (a.2 x).state.log := by
    intro x
    by_cases own : x = s
    · rw [own, own₂, heeds.log]
    · rw [rest₂ x own]
      by_cases other : x = d
      · rw [other, stands.log]
      · rw [rest₁ x other]
  have term : (b₂.2 s).state.currentTerm = (a.2 d).state.currentTerm + 1 := by rw [own₂, heeds.term]
  refine ⟨s, mem, b₂, .tail (.single st₁) st₂, by rwa [clock₂], .inr { group₂ with
    waits := by rw [own₂, heeds.name]; nofun
    latest := fun x mem' => ?_
    fresh := fun x mem' => by rw [log, log]; exact fresh x mem'
    room := by rw [log]; exact room s mem }, log s⟩
  rw [term]
  by_cases own : x = s
  · rw [own, term]
  · rw [rest₂ x own]
    by_cases other : x = d
    · rw [other, stands.term]
    · rw [rest₁ x other]
      exact (latest x mem').trans (Nat.le_succ _)

end

end Cluster

end MiniRaft
