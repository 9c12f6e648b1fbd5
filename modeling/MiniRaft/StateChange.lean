import MiniRaft.Forwarding
import MiniRaft.System

/-!
# Commands that wait for a leader (`CheckStateChange`)

`Forward` puts a command into `WaitingStateChange` while no leader is known. `CheckStateChange` looks at `LeaderId` as
`Forward` does, and a leader has none: `ProcessTimeout` starts each term with new volatile state.
-/

namespace MiniRaft

/-! ## Who is known as the leader -/

/-- The leader that a message tells of is one of `peers`. -/
def TMessage.Guides (peers : List ℕ) : TMessage → Prop
  | .appendEntriesRequest _ body => body.leaderId ∈ peers
  | _ => True

/-- An effect other than an `AppendEntries` request of another server than `s`. -/
def TEffect.IsOwn (s : ℕ) (peers : List ℕ) : TEffect → Prop
  | .send d (.appendEntriesRequest _ body) => d ∈ peers ∧ body.leaderId = s
  | _ => True

/-- A leader knows no leader, and any other server knows none but a peer. -/
structure Guided (s : ℕ) (peers : List ℕ) (r : TRaft) : Prop where
  id : r.id = s
  nodes : r.nodes = peers
  leads : r.stateName = .leader → r.getLeaderId = 0
  known : r.getLeaderId ≠ 0 → r.getLeaderId ∈ peers
  sent : ∀ e ∈ r.effects, e.IsOwn s peers

namespace Guided

variable {s d : ℕ} {peers : List ℕ} {r r' : TRaft} {delay : UInt32 → ℕ} {now : Time} {m : TMessage}

theorem of_same (guided : Guided s peers r) (id : r'.id = r.id) (nodes : r'.nodes = r.nodes)
    (name : r'.stateName = .leader → r.stateName = .leader) (leader : r'.getLeaderId = r.getLeaderId)
    (effects : r'.effects = r.effects) : Guided s peers r' where
  id := id.trans guided.id
  nodes := nodes.trans guided.nodes
  leads leads := leader.trans (guided.leads (name leads))
  known some_ := by
    rw [leader] at some_ ⊢
    exact guided.known some_
  sent e member := guided.sent e (effects ▸ member)

theorem withState (guided : Guided s peers r) (state : TState) : Guided s peers { r with state := state } :=
  guided.of_same rfl rfl (fun leads => leads) rfl rfl

theorem withVolatile (guided : Guided s peers r) (v : TVolatileState) (same : v.leaderId = r.volatileState.leaderId) :
    Guided s peers { r with volatileState := v } := guided.of_same rfl rfl (fun leads => leads) same rfl

theorem makeElection (guided : Guided s peers r) (delay : UInt32 → ℕ) (now : Time) :
    Guided s peers (r.makeElection delay now) := guided.of_same rfl rfl (fun leads => leads) rfl rfl

/-- New volatile state. -/
theorem reset (guided : Guided s peers r) (v : TVolatileState) (unknown : v.leaderId = 0) :
    Guided s peers { r with volatileState := v } where
  id := guided.id
  nodes := guided.nodes
  leads _ := unknown
  known some_ := absurd unknown some_
  sent := guided.sent

theorem emit {e : TEffect} (guided : Guided s peers r) (own : e.IsOwn s peers) : Guided s peers (r.emit e) where
  id := guided.id
  nodes := guided.nodes
  leads := guided.leads
  known := guided.known
  sent e' member := by
    rcases List.mem_append.mp member with old | new
    · exact guided.sent e' old
    · rw [List.mem_singleton.mp new]
      exact own

theorem fault (guided : Guided s peers r) (cause : Fault) : Guided s peers (r.emit (.fault cause)) := guided.emit trivial

theorem stored (guided : Guided s peers r) : Guided s peers r.commit := guided.emit trivial

theorem send (guided : Guided s peers r) (own : d ∈ peers → (TEffect.send d m).IsOwn s peers) :
    Guided s peers (r.send d m) := by
  unfold TRaft.send
  split
  · rename_i peer
    exact guided.emit (own (guided.nodes ▸ peer))
  · exact guided.fault _

theorem adoptTerm (guided : Guided s peers r) (header : Option TMessageEx) :
    Guided s peers (r.adoptTerm delay now header) := by
  have stored (t : ℕ) : Guided s peers (r.demoted t) :=
    (guided.withState (r.state.withVote t 0)).stored.of_same rfl rfl nofun rfl rfl
  have taken := r.adopting delay now header
  generalize r.adoptTerm delay now header = r' at taken ⊢
  cases taken with
  | known => exact guided
  | armed => exact (stored _).makeElection delay now
  | running => exact stored _

theorem onRequestVote {ex : TMessageEx} {body : TRequestVoteRequest} (guided : Guided s peers r) :
    Guided s peers (r.onRequestVote delay now ex body) := by
  have taken := r.voting delay now ex body
  generalize r.onRequestVote delay now ex body = r' at taken ⊢
  cases taken with
  | refused => exact guided.send fun _ => trivial
  | granted =>
    have voted := (guided.makeElection delay now).withState (r.state.withVote r.state.currentTerm body.candidateId)
    exact voted.stored.send fun _ => trivial
  | ignored => exact guided

theorem onRequestVoteResponse {ex : TMessageEx} {body : TRequestVoteResponse} (guided : Guided s peers r) :
    Guided s peers (r.onRequestVoteResponse ex body) := by
  have taken := r.polling ex body
  generalize r.onRequestVoteResponse ex body = r' at taken ⊢
  cases taken with
  | counted => exact guided.withVolatile _ rfl
  | ignored => exact guided

/-- A request of the present term makes a follower, and tells it the leader. -/
theorem onAppendEntries {ex : TMessageEx} {body : TAppendEntriesRequest} (guided : Guided s peers r)
    (guides : body.leaderId ∈ peers) : Guided s peers (r.onAppendEntries delay now ex body) := by
  have heard (n : ℕ) (state : TState) : Guided s peers (r.heard delay now body.leaderId n state) :=
    ⟨guided.id, guided.nodes, nofun, fun _ => guides, guided.sent⟩
  have taken := r.appending delay now ex body
  generalize r.onAppendEntries delay now ex body = r' at taken ⊢
  cases taken with
  | outdated => exact guided.send fun _ => trivial
  | unexpected => exact guided.fault _
  | merged => exact (heard _ _).send fun _ => trivial
  | rejected => exact (heard _ _).send fun _ => trivial

theorem leaderId_commitAdvance (v : TVolatileState) (n : ℕ) (state : TState) (seqno : ℕ) :
    (v.commitAdvance n state seqno).leaderId = v.leaderId := by
  obtain ⟨_, _, same⟩ := v.commitAdvance_eq n state seqno
  rw [same]

theorem onAppendEntriesResponse {ex : TMessageEx} {body : TAppendEntriesResponse} (guided : Guided s peers r) :
    Guided s peers (r.onAppendEntriesResponse ex body) := by
  have taken := r.responding ex body
  generalize r.onAppendEntriesResponse ex body = r' at taken ⊢
  cases taken with
  | outdated => exact guided
  | matched => exact guided.withVolatile _ (leaderId_commitAdvance ..)
  | failed => exact guided.withVolatile _ rfl

theorem dispatch (guided : Guided s peers r) (guides : m.Guides peers) : Guided s peers (r.dispatch delay now m) := by
  have taken := r.dispatched delay now m
  generalize r.dispatch delay now m = r' at taken ⊢
  cases taken with
  | ignored => exact guided
  | unknown => exact guided.fault _
  | requestVote ex body => exact guided.onRequestVote
  | vote name ex body => exact guided.onRequestVoteResponse
  | appendEntries ex body => exact guided.onAppendEntries guides
  | appended name ex body => exact guided.onAppendEntriesResponse

theorem sendAppendEntries (guided : Guided s peers r) (id : ℕ) : Guided s peers (r.sendAppendEntries id) := by
  have counted : Guided s peers { r with
      seqno := r.seqno + 1
      volatileState := r.volatileState.touchMatch id } := guided.of_same rfl rfl (fun leads => leads) rfl rfl
  exact counted.send fun peer => ⟨peer, guided.id⟩

theorem startElection (guided : Guided s peers r) : Guided s peers (r.startElection delay now) := by
  rw [TRaft.startElection_eq]
  have forgotten := guided.reset
    { nextIndex := fun id => if id ∈ r.nodes then 1 else 0
      commitIndex := r.volatileState.commitIndex
      electionDue := now + milliseconds (delay (rand_ r.seed)) } rfl
  have voted := (forgotten.withState (r.state.withVote (r.state.currentTerm + 1) r.id)).stored
  exact voted.of_same rfl rfl nofun rfl rfl

theorem becomeLeader (guided : Guided s peers r) : Guided s peers r.becomeLeader :=
  ⟨guided.id, guided.nodes, fun _ => rfl, fun some_ => absurd rfl some_, guided.sent⟩

theorem timeouts : TRaft.TimeoutInvariant r.nodes (Guided s peers) where
  asks _ _ guided := (guided.withVolatile _ (by rfl)).send fun _ => trivial
  pings _ _ _ guided := (guided.withVolatile _ (by rfl)).sendAppendEntries _
  advances _ guided := guided.withVolatile _ (leaderId_commitAdvance ..)
  fails guided := guided.fault _

/-- A candidacy and a victory forget the leader. -/
theorem processTimeout (guided : Guided s peers r) : Guided s peers (r.processTimeout delay now) :=
  timeouts.processTimeout (fun _ => guided) (fun _ => guided.startElection) fun _ guided => guided.becomeLeader

theorem perform {call : Call} (guided : Guided s peers r) (guides : ∀ now m, call = .process now m → m.Guides peers) :
    Guided s peers (r.perform delay call) := by
  cases call with
  | process now m => exact (guided.adoptTerm _).dispatch (guides now m rfl)
  | processTimeout now => exact guided.processTimeout
  | append entry => exact guided.of_same rfl rfl (fun leads => leads) rfl rfl
  | approveRead => exact TRaft.approveRead_rule (fun _ guided => guided.sendAppendEntries _) guided

end Guided

variable {lim : ℕ} {ids : Finset ℕ} {c c' : Cluster} {s : ℕ} {delay : UInt32 → ℕ}

/-- In a reachable cluster every server is guided. -/
def Cluster.Guided (ids : Finset ℕ) (c : Cluster) : Prop :=
  ∀ s ∈ ids, ∃ peers : List ℕ, peers.toFinset = ids.erase s ∧ MiniRaft.Guided s peers (c s)

theorem Cluster.Guided.start (start : Cluster.Start ids c) : Cluster.Guided ids c := by
  intro s mem
  obtain ⟨nodes, -, peers, new⟩ := start.2 s mem
  refine ⟨nodes, peers, ?_⟩
  rw [new]
  exact ⟨rfl, rfl, nofun, fun some_ => absurd rfl some_, nofun⟩

/-- A message tells of the server that sent it. -/
theorem Cluster.Guided.guides (guided : Cluster.Guided ids c) {peers : List ℕ} (all : peers.toFinset = ids.erase s)
    {m : TMessage} (sent : Cluster.Sent ids c s m) : m.Guides peers := by
  cases m with
  | appendEntriesRequest ex body =>
    obtain ⟨x, mem, there⟩ := sent
    obtain ⟨nodes, others, of_x⟩ := guided x mem
    obtain ⟨peer, leader⟩ := of_x.sent _ there
    have peer : s ∈ ids.erase x := others ▸ List.mem_toFinset.mpr peer
    change body.leaderId ∈ peers
    rw [leader, ← List.mem_toFinset, all]
    exact Finset.mem_erase.mpr ⟨(Finset.ne_of_mem_erase peer).symm, mem⟩
  | _ => trivial

theorem Cluster.Guided.step (guided : Cluster.Guided ids c) (step : Cluster.Step delay lim ids c c') :
    Cluster.Guided ids c' := by
  intro x mem
  obtain ⟨peers, all, here⟩ := guided x mem
  refine ⟨peers, all, ?_⟩
  rcases step.reacts x with idle | ⟨-, call, enabled, called⟩ | ⟨-, restarted⟩
  · rwa [idle]
  · rw [called]
    apply here.perform
    intro now m same
    subst same
    exact guided.guides all enabled
  · rw [restarted]
    exact ⟨here.id, here.nodes, nofun, fun some_ => absurd rfl some_, here.sent⟩

theorem Cluster.Reachable.guided (reach : Cluster.Reachable delay lim ids c) : Cluster.Guided ids c := by
  obtain ⟨c₀, start, later⟩ := reach
  induction later with
  | refl => exact .start start
  | tail _ last ih => exact ih.step last

/-! ## What waits -/

/-- What `Forward` puts into `WaitingStateChange`: a command of a client, for which a leader is needed. -/
structure TWaiting.Postponed (w : TWaiting) : Prop where
  own : w.command.cookie = 0
  heard : w.replyTo.isSome
  kind : w.command.isWrite ∨ w.command.isStale = false

section

variable {ρ : Type*} {rsm : IRsm ρ} {p p' p'' : TRequestProcessor ρ} {command : TCommandRequest} {replyTo : Option ℕ}

/-- What a call adds to `WaitingStateChange` is postponed. -/
structure Postpones (p p' : TRequestProcessor ρ) : Prop where
  nodes : p'.nodes = p.nodes
  waits : ∀ w ∈ p'.waitingStateChange, w ∈ p.waitingStateChange ∨ w.Postponed

namespace Postpones

theorem of_same (nodes : p'.nodes = p.nodes) (waits : p'.waitingStateChange = p.waitingStateChange) : Postpones p p' :=
  ⟨nodes, fun _ member => .inl (waits ▸ member)⟩

theorem refl (p : TRequestProcessor ρ) : Postpones p p := of_same rfl rfl

theorem trans (first : Postpones p p') (second : Postpones p' p'') : Postpones p p'' where
  nodes := second.nodes.trans first.nodes
  waits w member := by
    rcases second.waits w member with old | new
    · exact first.waits w old
    · exact .inr new

theorem of_forward (kind : command.isWrite ∨ command.isStale = false) (done : p.forward command replyTo = .ok p') :
    Postpones p p' := by
  unfold TRequestProcessor.forward at done
  cases replyTo with
  | none => cases done; exact refl p
  | some client =>
    dsimp only at done
    split at done
    · cases done; exact of_same rfl rfl
    · rename_i own
      split at done
      · cases done
        refine ⟨rfl, fun w member => ?_⟩
        rcases List.mem_append.mp member with old | new
        · exact .inl old
        · rw [List.mem_singleton.mp new]
          exact .inr ⟨not_not.mp own, rfl, kind⟩
      · split at done
        · split at done
          · cases done
          · split at done
            · cases done
            · cases done; exact of_same rfl rfl
        · cases done

theorem of_onCommandRequest (done : p.onCommandRequest rsm command replyTo = .ok p') : Postpones p p' := by
  unfold TRequestProcessor.onCommandRequest at done
  split at done
  · unfold TRequestProcessor.onReadRequest at done
    split at done
    · cases done
    split at done
    · split at done
      · cases done; exact of_same rfl rfl
      · cases done
    · rename_i needed
      split at done
      · exact of_forward (.inr (by simpa using fun stale => needed (.inl stale))) done
      · dsimp only at done
        split at done
        · cases done; exact of_same rfl rfl
        · cases done
  · rename_i write
    unfold TRequestProcessor.onWriteRequest at done
    split at done
    · cases done
    split at done
    · dsimp only at done
      split at done
      · split at done
        · cases done; exact of_same rfl rfl
        · cases done
      · cases done; exact of_same rfl rfl
    · exact of_forward (.inl (by simpa using write)) done

theorem of_foldlM (l : List TWaiting) : ∀ {p p' : TRequestProcessor ρ},
    l.foldlM (fun p w => p.onCommandRequest rsm w.command w.replyTo) p = Except.ok p' → Postpones p p' := by
  induction l with
  | nil => intro p p' done; cases done; exact refl p
  | cons w l ih =>
    intro p p' done
    rw [List.foldlM_cons] at done
    obtain ⟨p₁, first, rest⟩ := Except.bind_ok done
    exact (of_onCommandRequest first).trans (ih rest)

theorem of_checkStateChange (done : p.checkStateChange rsm = .ok p') : Postpones p p' := by
  unfold TRequestProcessor.checkStateChange at done
  split at done
  · cases done; exact refl p
  · split at done
    · cases done; exact refl p
    · have cleared : Postpones p { p with waitingStateChange := [] } := ⟨rfl, nofun⟩
      exact cleared.trans (of_foldlM _ done)

theorem of_onCommandResponse {response : TCommandResponse} (done : p.onCommandResponse response = .ok p') :
    Postpones p p' := by
  unfold TRequestProcessor.onCommandResponse at done
  split at done
  · cases done; exact refl p
  · dsimp only at done
    split at done
    · cases done
    · cases done; exact of_same rfl rfl

theorem of_cleanUp (client : ℕ) (p : TRequestProcessor ρ) : Postpones p (p.cleanUp client) := by
  unfold TRequestProcessor.cleanUp
  split
  · exact refl p
  · exact of_same rfl rfl

theorem of_foldl (indices : List ℕ) (p : TRequestProcessor ρ) :
    Postpones p (indices.foldl (TRequestProcessor.applyEntry rsm) p) := by
  refine List.foldlRecOn (motive := Postpones p) indices _ (refl p) fun q postpones i _ => postpones.trans ?_
  unfold TRequestProcessor.applyEntry
  dsimp only
  split
  · exact of_same rfl rfl
  · exact of_same rfl rfl

theorem of_processCommitted (rsm : IRsm ρ) (p : TRequestProcessor ρ) : Postpones p (p.processCommitted rsm) :=
  (of_foldl _ p).trans (of_same rfl rfl)

theorem of_answers {strong : Bool} {applied : ℕ} {ok : TWaiting → Prop} (answers : Answers rsm strong applied ok p p') :
    Postpones p p' := by
  induction answers with
  | refl => exact refl p
  | tail _ last ih =>
    obtain ⟨_, -, answered⟩ := last
    apply ih.trans
    cases answered with
    | write => exact of_same rfl rfl
    | read => exact of_same rfl rfl

/-- **One call.** -/
theorem of_handle {delay : UInt32 → ℕ} {request : Request} (done : p.handle delay rsm request = .ok p') :
    Postpones p p' := by
  cases request with
  | process => cases done; exact of_same rfl rfl
  | processTimeout => cases done; exact of_same rfl rfl
  | append => cases done; exact of_same rfl rfl
  | onCommandRequest => exact of_onCommandRequest done
  | onCommandResponse => exact of_onCommandResponse done
  | checkStateChange => exact of_checkStateChange done
  | processCommitted => cases done; exact of_processCommitted rsm p
  | processWaiting =>
    obtain ⟨p₁, p₂, rest, strongRest, answers, answers', -, -, rfl⟩ := Answers.of_processWaiting done
    have shorter : Postpones p₁ { p₁ with waiting := rest } := of_same rfl rfl
    exact (((of_answers answers).trans shorter).trans (of_answers answers')).trans (of_same rfl rfl)
  | cleanUp => cases done; exact of_cleanUp _ p

end Postpones

end

/-! ## The reachable states -/

variable {ρ : Type*} {rsm : IRsm ρ} {P P' : System ρ} {label : System.Label}

/-- A processor has the peers of its server, and what waits for a leader is postponed. -/
structure System.Postponing (ids : Finset ℕ) (P : System ρ) (s : ℕ) : Prop where
  peers : (P s).nodes.toFinset = ids.erase s
  postponed : ∀ w ∈ (P s).waitingStateChange, w.Postponed

theorem System.Postponing.step (postponing : P.Postponing ids s) (mem : s ∈ ids) (guided : Cluster.Guided ids P.rafts)
    (step : System.Step delay lim ids rsm P label P') : P'.Postponing ids s := by
  rcases step.reacts s with idle | ⟨-, request, -, -, done⟩ | ⟨-, -, restored, restarted⟩
  · constructor
    · rw [idle]
      exact postponing.peers
    · rw [idle]
      exact postponing.postponed
  · obtain ⟨nodes, waits⟩ := Postpones.of_handle done
    constructor
    · rw [nodes]
      exact postponing.peers
    · exact fun w member => (waits w member).elim (postponing.postponed w) fun new => new
  · obtain ⟨peers, all, here⟩ := guided s mem
    constructor
    · rw [restarted, ← all, ← here.nodes]
      rfl
    · rw [restarted]
      exact nofun

theorem System.Reachable.postponing (reach : System.Reachable delay lim ids rsm P) (mem : s ∈ ids) :
    P.Postponing ids s := by
  obtain ⟨P₀, start, later⟩ := reach
  induction later with
  | refl =>
    obtain ⟨rafts, new⟩ := start
    obtain ⟨nodes, -, peers, same⟩ := rafts.2 s mem
    have nodes' : (P₀ s).raft.nodes = nodes := congrArg TRaft.nodes same
    rw [← nodes'] at peers
    constructor
    · rw [new s mem]
      exact peers
    · rw [new s mem]
      exact nofun
  | @tail P P' before last ih =>
    obtain ⟨label, -, step⟩ := last
    exact ih.step mem (System.Reachable.rafts ⟨P₀, start, before⟩).guided step

/-! ## Release -/

/-- What becomes of a command that was waiting: a leader puts it into a queue of its own, a follower sends it to the
leader it knows. -/
def TRaft.Releases (r : TRaft) (w : TWaiting) : TEvent → Prop
  | .queue _ v => r.stateName = .leader ∧ v.command = w.command ∧ v.replyTo = w.replyTo
  | .forward leader command => r.stateName = .follower ∧ leader = r.getLeaderId ∧
      command = { w.command with cookie := command.cookie }
  | _ => False

namespace TRequestProcessor

variable {p p' : TRequestProcessor ρ} {q : List TWaiting}

/-- The same server with the queue `q` in `WaitingStateChange`. -/
def holding (q : List TWaiting) (p : TRequestProcessor ρ) : TRequestProcessor ρ := { p with waitingStateChange := q }

/-- The server leads, or it follows a leader that it knows. -/
def KnowsLeader (p : TRequestProcessor ρ) : Prop :=
  p.raft.stateName = .leader ∨ p.raft.stateName = .follower ∧ p.raft.getLeaderId ≠ 0

/-- Every command in the queue was released, once and in order, and nothing else was done. -/
structure Released (p p' : TRequestProcessor ρ) : Prop where
  empty : p'.waitingStateChange = []
  each : ∃ es, p'.events = p.events ++ es ∧ List.Forall₂ p.raft.Releases p.waitingStateChange es

/-- A follower forwards a command that was postponed. -/
theorem forward_postponed (rsm : IRsm ρ) {w : TWaiting} (postponed : w.Postponed) (follows : p.raft.stateName = .follower)
    (known : p.raft.getLeaderId ≠ 0) (other : p.raft.getLeaderId ≠ p.raft.id) (peer : p.raft.getLeaderId ∈ p.nodes) :
    ∃ p' e, p.onCommandRequest rsm w.command w.replyTo = .ok p' ∧ p'.raft = p.raft ∧ p'.nodes = p.nodes ∧
      p'.waitingStateChange = p.waitingStateChange ∧ p'.events = p.events ++ [e] ∧ p.raft.Releases w e := by
  have forwards : p.onCommandRequest rsm w.command w.replyTo = p.forward w.command w.replyTo := by
    unfold onCommandRequest
    split
    · rename_i read
      have fresh : w.command.isStale = false := postponed.kind.resolve_left read
      unfold onReadRequest
      rw [if_neg read, if_neg (by simp [fresh, follows]), if_pos (by simp [follows])]
    · rename_i write
      unfold onWriteRequest
      rw [if_neg write, if_neg (by simp [follows])]
  obtain ⟨client, heard⟩ := Option.isSome_iff_exists.mp postponed.heard
  rw [forwards, heard]
  unfold forward
  dsimp only
  rw [if_neg (by simp [postponed.own]), if_neg (by simp [follows, known]), if_pos follows, if_neg other,
    if_neg (not_not.mpr peer)]
  exact ⟨_, _, rfl, rfl, rfl, rfl, rfl, follows, rfl, rfl⟩

/-- A follower forwards all of them. -/
theorem forward_all (rsm : IRsm ρ) (q : List TWaiting) : ∀ p : TRequestProcessor ρ, (∀ w ∈ q, w.Postponed) →
    p.raft.stateName = .follower → p.raft.getLeaderId ≠ 0 → p.raft.getLeaderId ≠ p.raft.id →
    p.raft.getLeaderId ∈ p.nodes →
    ∃ p' es, q.foldlM (fun p w => p.onCommandRequest rsm w.command w.replyTo) p = Except.ok p' ∧
      p'.waitingStateChange = p.waitingStateChange ∧ p'.events = p.events ++ es ∧
      List.Forall₂ p.raft.Releases q es := by
  induction q with
  | nil => exact fun p _ _ _ _ _ => ⟨p, [], rfl, rfl, (List.append_nil _).symm, .nil⟩
  | cons w q ih =>
    intro p postponed follows known other peer
    obtain ⟨p₁, e, first, raft, nodes, waits, events, releases⟩ :=
      forward_postponed rsm (postponed w (List.mem_cons_self ..)) follows known other peer
    rw [← raft, ← nodes] at peer
    rw [← raft] at follows known other releases ⊢
    obtain ⟨p', es, rest, waits', events', all⟩ :=
      ih p₁ (fun v member => postponed v (List.mem_cons_of_mem _ member)) follows known other peer
    refine ⟨p', e :: es, ?_, waits'.trans waits, ?_, .cons releases all⟩
    · rw [List.foldlM_cons, first]
      exact rest
    · rw [events', events, List.append_assoc]
      rfl

/-- A leader keeps what waits. -/
theorem checkStateChange_of_unknown (unknown : p.raft.getLeaderId = 0) : p.checkStateChange rsm = .ok p := by
  unfold checkStateChange
  split
  · rfl
  · exact if_pos (.inr unknown)

end TRequestProcessor

/-- **Queued commands are released when a leader is known**, if it is another server. A leader releases none. -/
theorem queued_commands_released (reach : System.Reachable delay lim ids rsm P) (mem : s ∈ ids) :
    (∀ w ∈ (P s).waitingStateChange, w.Postponed) ∧
    ∀ q : List TWaiting, (∀ w ∈ q, w.Postponed) → (P s).KnowsLeader →
      ((∃ p', ((P s).holding q).checkStateChange rsm = .ok p' ∧ ((P s).holding q).Released p') ↔
        (P s).raft.stateName = .follower ∨ q = []) := by
  obtain ⟨peers, postponed⟩ := reach.postponing mem
  obtain ⟨nodes, all, guided⟩ := reach.rafts.guided s mem
  refine ⟨postponed, fun q waits knows => ⟨?_, ?_⟩⟩
  · rintro ⟨p', done, released⟩
    rcases knows with leads | follows
    · have kept : ((P s).holding q).checkStateChange rsm = .ok ((P s).holding q) :=
        TRequestProcessor.checkStateChange_of_unknown (guided.leads leads)
      obtain rfl : (P s).holding q = p' := Except.ok.inj (kept.symm.trans done)
      exact .inr released.empty
    · exact .inl follows.1
  · intro condition
    rcases List.eq_nil_or_concat q with rfl | ⟨_, _, more⟩
    · exact ⟨_, if_pos rfl, rfl, [], (List.append_nil _).symm, .nil⟩
    have some_ : q ≠ [] := by simp [more]
    have follows := condition.resolve_right some_
    have known : (P s).raft.getLeaderId ≠ 0 := by
      rcases knows with leads | ⟨-, known⟩
      · exact nomatch follows.symm.trans leads
      · exact known
    have peer : (P s).raft.getLeaderId ∈ ids.erase s := by
      rw [← all, List.mem_toFinset]
      exact guided.known known
    have other : (P s).raft.getLeaderId ≠ (P s).raft.id := by
      have own : (P s).raft.id = s := guided.id
      rw [own]
      exact Finset.ne_of_mem_erase peer
    rw [← peers, List.mem_toFinset] at peer
    obtain ⟨p', es, done, empty, events, each⟩ :=
      TRequestProcessor.forward_all rsm q ((P s).holding []) waits follows known other peer
    refine ⟨p', ?_, empty, es, events, each⟩
    unfold TRequestProcessor.checkStateChange
    rw [if_neg (by exact some_), if_neg (by rw [not_or]; exact ⟨by simp [TRequestProcessor.holding, follows], known⟩)]
    exact done

/-- Client 7 sends a write to servers 1 and 2 of three. Server 1 is elected, and server 2 hears of it. -/
def postponing : List Cue :=
  [.request 1 (.onCommandRequest { flags := 1 } (some 7)), .request 2 (.onCommandRequest { flags := 1 } (some 7)),
    .request 1 (.processTimeout 1000000000), .deliver 1000000000 1 1, .deliver 1000000000 2 2,
    .request 1 (.processTimeout 1000000000), .deliver 1000000000 1 3]

/-- Server 2 forwards the command. -/
theorem queued_commands_released_follower : ∃ (P : System (List TLogEntry)) (p' : TRequestProcessor (List TLogEntry)),
    (P 2).waitingStateChange.length = 1 ∧ (P 2).checkStateChange (TDummyRsm.rsm []) = .ok p' ∧ (P 2).Released p' := by
  obtain ⟨P, reach, one, follows, known⟩ := System.reachable_of_rehearse [1, 2, 3] postponing (by decide) (by decide)
    (fun P => (P 2).waitingStateChange.length = 1 ∧ (P 2).raft.stateName = .follower ∧ (P 2).raft.getLeaderId ≠ 0)
    (by decide +kernel)
  obtain ⟨postponed, released⟩ := queued_commands_released reach (by decide : 2 ∈ _)
  obtain ⟨p', done⟩ := (released _ postponed (.inr ⟨follows, known⟩)).mpr (.inl follows)
  exact ⟨P, p', one, done⟩

/-- Server 1 leads, and its command stays where it is. -/
theorem queued_commands_released_leader : ∃ P : System (List TLogEntry),
    System.Reachable (fun _ => 5000) (2 ^ 31) [1, 2, 3].toFinset (TDummyRsm.rsm []) P ∧
    (P 1).raft.stateName = .leader ∧ (P 1).waitingStateChange.length = 1 ∧
    (P 1).checkStateChange (TDummyRsm.rsm []) = .ok (P 1) := by
  obtain ⟨P, reach, leads, one, unknown⟩ := System.reachable_of_rehearse [1, 2, 3] postponing (by decide) (by decide)
    (fun P => (P 1).raft.stateName = .leader ∧ (P 1).waitingStateChange.length = 1 ∧ (P 1).raft.getLeaderId = 0)
    (by decide +kernel)
  exact ⟨P, reach, leads, one, TRequestProcessor.checkStateChange_of_unknown unknown⟩

end MiniRaft
