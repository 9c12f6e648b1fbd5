import MiniRaft.Calls

/-!
# Elections with crashes

A server may crash in the middle of a call: some of the call's effects have happened, and the server comes back
with the term and vote of its last `Commit()`. The log it comes back with does not matter to elections and is
left open. `Ledger` is what the order of `Commit()` and `Send` guarantees for every such prefix.
-/

namespace MiniRaft

open Lib

/-- What the last `Commit()` of a history stored. -/
def lastCommit (effects : List TEffect) : TStateFields :=
  effects.foldl (fun stored e => match e with
    | .commit fields => fields
    | _ => stored) {}

/-- A crash after the effects `done`, and the restart that follows. -/
def TRaft.recover (r : TRaft) (done : List TEffect) (log : List TLogEntry) : TRaft :=
  { TRaft.new (.ofLog (lastCommit done).currentTerm (lastCommit done).votedFor log) r.id r.nodes with effects := done }

namespace Cluster

/-- A call, or a crash at any point of one. -/
inductive CrashStep (delay : UInt32 → ℕ) (ids : Finset ℕ) (c : Cluster) : Cluster → Prop where
  | call {s : ℕ} (mem : s ∈ ids) (call : Call) (enabled : Enabled ids c s call) :
      CrashStep delay ids c (Function.update c s ((c s).perform delay call))
  | crash {s : ℕ} (mem : s ∈ ids) (call : Call) (enabled : Enabled ids c s call) {done : List TEffect}
      (begun : (c s).effects <+: done) (part : done <+: ((c s).perform delay call).effects) (log : List TLogEntry) :
      CrashStep delay ids c (Function.update c s ((c s).recover done log))

def CrashLater (delay : UInt32 → ℕ) (ids : Finset ℕ) : Cluster → Cluster → Prop :=
  Relation.ReflTransGen (CrashStep delay ids)

end Cluster

/-- The server has granted its vote for `term` to `candidate`: in a reply, or to itself by starting an election. -/
def TRaft.Grants (r : TRaft) (term candidate : ℕ) : Prop :=
  (∃ ex, .send candidate (.requestVoteResponse ex ⟨true⟩) ∈ r.effects ∧ ex.term = term) ∨
    candidate = r.id ∧ ∃ fields, .commit fields ∈ r.effects ∧ fields.currentTerm = term ∧ fields.votedFor = r.id

/-! ## The order of storing and sending -/

/-- A vote once stored is not changed within its term. -/
def Succeeds (term vote term' vote' : ℕ) : Prop := term < term' ∨ term = term' ∧ (vote = 0 ∨ vote = vote')

theorem Succeeds.refl (t v : ℕ) : Succeeds t v t v := .inr ⟨rfl, .inr rfl⟩

theorem Succeeds.trans {t v t' v' t'' v'' : ℕ} (h : Succeeds t v t' v') (k : Succeeds t' v' t'' v'') :
    Succeeds t v t'' v'' := by
  unfold Succeeds at *; omega

/-- What server `id` may send while `term` and `vote` are stored: it names itself, asks for votes for itself, and
grants only the stored vote. -/
def Honest (id term vote dst : ℕ) : TMessage → Prop
  | .requestVoteRequest ex body => ex.src = id ∧ body.candidateId = id
  | .requestVoteResponse ex body => ex.src = id ∧ (body.voteGranted → ex.term = term ∧ vote = dst ∧ dst ≠ 0)
  | .appendEntriesRequest ex _ | .appendEntriesResponse ex _ => ex.src = id
  | .other => True

/-- A history of effects of server `id` that ends with `term` and `vote` stored. -/
inductive Ledger (ids : Finset ℕ) (id : ℕ) : List TEffect → ℕ → ℕ → Prop where
  | empty : Ledger ids id [] 1 0
  | commit {es : List TEffect} {t v : ℕ} {fields : TStateFields} (l : Ledger ids id es t v)
      (next : Succeeds t v fields.currentTerm fields.votedFor) :
      Ledger ids id (es ++ [.commit fields]) fields.currentTerm fields.votedFor
  | send {es : List TEffect} {t v dst : ℕ} {m : TMessage} (l : Ledger ids id es t v) (peer : dst ∈ ids.erase id)
      (honest : Honest id t v dst m) : Ledger ids id (es ++ [.send dst m]) t v
  | fault {es : List TEffect} {t v : ℕ} {cause : Fault} (l : Ledger ids id es t v) :
      Ledger ids id (es ++ [.fault cause]) t v

/-- The vote for `candidate` in `term` is on record. -/
def Voted (es : List TEffect) (term candidate : ℕ) : Prop :=
  ∃ fields, .commit fields ∈ es ∧ fields.currentTerm = term ∧ fields.votedFor = candidate ∧ candidate ≠ 0

namespace Ledger

variable {ids : Finset ℕ} {id t v : ℕ} {es : List TEffect}

theorem stored (l : Ledger ids id es t v) : (lastCommit es).currentTerm = t ∧ (lastCommit es).votedFor = v := by
  induction l with
  | empty => exact ⟨rfl, rfl⟩
  | commit l next ih => simp [lastCommit]
  | send l peer honest ih => simpa [lastCommit] using ih
  | fault l ih => simpa [lastCommit] using ih

/-- A ledger cut off anywhere is a ledger. -/
theorem of_prefixed (l : Ledger ids id es t v) {done : List TEffect} (part : done <+: es) :
    ∃ t' v', Ledger ids id done t' v' := by
  induction l with
  | empty =>
    obtain rfl := List.prefix_nil.mp part
    exact ⟨_, _, .empty⟩
  | commit l next ih =>
    rcases List.prefix_concat_iff.mp part with rfl | part
    · exact ⟨_, _, l.commit next⟩
    · exact ih part
  | send l peer honest ih =>
    rcases List.prefix_concat_iff.mp part with rfl | part
    · exact ⟨_, _, l.send peer honest⟩
    · exact ih part
  | fault l ih =>
    rcases List.prefix_concat_iff.mp part with rfl | part
    · exact ⟨_, _, l.fault⟩
    · exact ih part

/-- What is stored succeeds every earlier `Commit()`. -/
theorem succeeds (l : Ledger ids id es t v) {g : TStateFields} (mem : .commit g ∈ es) :
    Succeeds g.currentTerm g.votedFor t v := by
  induction l with
  | empty => cases mem
  | commit l next ih =>
    rcases List.mem_append.mp mem with old | new
    · exact (ih old).trans next
    · obtain rfl : g = _ := by simpa using new
      exact .refl ..
  | send l peer honest ih => exact ih (by simpa using mem)
  | fault l ih => exact ih (by simpa using mem)

/-- A stored vote is on record. -/
theorem voted (l : Ledger ids id es t v) (ne : v ≠ 0) : Voted es t v := by
  induction l with
  | empty => exact absurd rfl ne
  | commit l next ih => exact ⟨_, by simp, rfl, rfl, ne⟩
  | send l peer honest ih =>
    obtain ⟨g, mem, rest⟩ := ih ne
    exact ⟨g, List.mem_append_left _ mem, rest⟩
  | fault l ih =>
    obtain ⟨g, mem, rest⟩ := ih ne
    exact ⟨g, List.mem_append_left _ mem, rest⟩

theorem ordered (l : Ledger ids id es t v) {f g : TStateFields} (hf : .commit f ∈ es) (hg : .commit g ∈ es) :
    Succeeds f.currentTerm f.votedFor g.currentTerm g.votedFor ∨
      Succeeds g.currentTerm g.votedFor f.currentTerm f.votedFor := by
  induction l with
  | empty => cases hf
  | commit l next ih =>
    rcases List.mem_append.mp hf with oldF | newF <;> rcases List.mem_append.mp hg with oldG | newG
    · exact ih oldF oldG
    · obtain rfl : g = _ := by simpa using newG
      exact .inl ((l.succeeds oldF).trans next)
    · obtain rfl : f = _ := by simpa using newF
      exact .inr ((l.succeeds oldG).trans next)
    · obtain rfl : g = _ := by simpa using newG
      obtain rfl : f = _ := by simpa using newF
      exact .inl (.refl ..)
  | send l peer honest ih => exact ih (by simpa using hf) (by simpa using hg)
  | fault l ih => exact ih (by simpa using hf) (by simpa using hg)

/-- **One vote for each term.** -/
theorem unique (l : Ledger ids id es t v) {u a b : ℕ} (ha : Voted es u a) (hb : Voted es u b) : a = b := by
  obtain ⟨f, memF, rfl, rfl, neA⟩ := ha
  obtain ⟨g, memG, same, rfl, neB⟩ := hb
  have := l.ordered memF memG
  unfold Succeeds at this
  omega

/-- Every message in the history was honest when it was sent, and the votes it grants are on record. -/
theorem sent (l : Ledger ids id es t v) {dst : ℕ} {m : TMessage} (mem : .send dst m ∈ es) :
    dst ∈ ids.erase id ∧ ∃ t' v', Honest id t' v' dst m ∧ (v' ≠ 0 → Voted es t' v') := by
  have keep : ∀ {es : List TEffect} {e : TEffect} {t' v'}, Voted es t' v' → Voted (es ++ [e]) t' v' :=
    fun ⟨g, mem, rest⟩ => ⟨g, List.mem_append_left _ mem, rest⟩
  induction l with
  | empty => cases mem
  | commit l next ih =>
    obtain ⟨peer, t', v', honest, voted⟩ := ih (by simpa using mem)
    exact ⟨peer, t', v', honest, fun ne => keep (voted ne)⟩
  | send l peer honest ih =>
    rcases List.mem_append.mp mem with old | new
    · obtain ⟨peer, t', v', honest, voted⟩ := ih old
      exact ⟨peer, t', v', honest, fun ne => keep (voted ne)⟩
    · obtain ⟨rfl, rfl⟩ : dst = _ ∧ m = _ := by simpa using new
      exact ⟨peer, _, _, honest, fun ne => keep (l.voted ne)⟩
  | fault l ih =>
    obtain ⟨peer, t', v', honest, voted⟩ := ih (by simpa using mem)
    exact ⟨peer, t', v', honest, fun ne => keep (voted ne)⟩

end Ledger

theorem Voted.mono {es es' : List TEffect} {t v : ℕ} (h : Voted es t v) (le : es <+: es') : Voted es' t v :=
  ⟨h.choose, le.subset h.choose_spec.1, h.choose_spec.2⟩

/-! ## One server in an election -/

/-- What is known of server `s` whose effects once were `since`, when `cast v t` says that `v` has its vote for `s`
in term `t` on record. -/
structure Campaign (ids : Finset ℕ) (cast : ℕ → ℕ → Prop) (since : List TEffect) (s : ℕ) (r : TRaft) : Prop where
  id : r.id = s
  nodup : r.nodes.Nodup
  peers : r.nodes.toFinset = ids.erase s
  grows : since <+: r.effects
  ledger : Ledger ids s r.effects r.state.currentTerm r.state.votedFor
  candidate : r.stateName = .candidate → r.state.votedFor = s ∧
    ∀ v ∈ r.volatileState.votes, v ∈ ids.erase s ∧ cast v r.state.currentTerm
  leader : r.stateName = .leader → r.state.votedFor = s ∧
    ∃ V, (majority ids).vote V ∧ ∀ v ∈ V, v = s ∨ cast v r.state.currentTerm

/-- What a message from `x` may be relied on for. -/
def Fair (cast : ℕ → ℕ → Prop) (x : ℕ) : TMessage → Prop
  | .requestVoteRequest ex body => ex.src = x ∧ body.candidateId = x
  | .requestVoteResponse ex body => ex.src = x ∧ (body.voteGranted → cast x ex.term)
  | .appendEntriesRequest ex _ | .appendEntriesResponse ex _ => ex.src = x
  | .other => True

namespace Campaign

variable {ids : Finset ℕ} {cast cast' : ℕ → ℕ → Prop} {since since' : List TEffect} {s x d : ℕ} {r : TRaft}
  {delay : UInt32 → ℕ} {now : Time}

theorem mono (camp : Campaign ids cast since s r) (le : ∀ {v t}, cast v t → cast' v t) : Campaign ids cast' since s r :=
  { camp with
    candidate := fun name => ⟨(camp.candidate name).1, fun v hv =>
      ⟨((camp.candidate name).2 v hv).1, le ((camp.candidate name).2 v hv).2⟩⟩
    leader := fun name => by
      obtain ⟨own, V, quorum, votes⟩ := camp.leader name
      exact ⟨own, V, quorum, fun v hv => (votes v hv).imp_right le⟩ }

theorem mem_nodes (camp : Campaign ids cast since s r) {p : ℕ} : p ∈ r.nodes ↔ p ∈ ids.erase s := by
  rw [← camp.peers, List.mem_toFinset]

theorem makeElection (camp : Campaign ids cast since s r) : Campaign ids cast since s (r.makeElection delay now) := { camp with }

theorem fault (camp : Campaign ids cast since s r) (cause : Fault) : Campaign ids cast since s (r.emit (.fault cause)) :=
  { camp with grows := camp.grows.trans (List.prefix_append ..), ledger := camp.ledger.fault }

theorem send (camp : Campaign ids cast since s r) {m : TMessage} (peer : d ∈ ids.erase s)
    (honest : Honest s r.state.currentTerm r.state.votedFor d m) : Campaign ids cast since s (r.send d m) := by
  rw [TRaft.send, if_pos (camp.mem_nodes.mpr peer)]
  exact { camp with grows := camp.grows.trans (List.prefix_append ..), ledger := camp.ledger.send peer honest }

theorem adoptTerm (camp : Campaign ids cast since s r) (header : Option TMessageEx) :
    Campaign ids cast since s (r.adoptTerm delay now header) := by
  have demoted {t : ℕ} (later : r.state.currentTerm < t) : Campaign ids cast since s (r.demoted t) :=
    { camp with
      grows := camp.grows.trans (List.prefix_append ..)
      ledger := camp.ledger.commit (.inl later)
      candidate := nofun
      leader := nofun }
  have taken := r.adopting delay now header
  generalize r.adoptTerm delay now header = r' at taken ⊢
  cases taken with
  | known => exact camp
  | armed later => exact (demoted later).makeElection
  | running later => exact demoted later

/-- The vote is stored before the reply is sent. -/
theorem onRequestVote (camp : Campaign ids cast since s r) (zero : 0 ∉ ids) (mem : s ∈ ids) (peer : x ∈ ids.erase s)
    {ex : TMessageEx} {body : TRequestVoteRequest} (fair : Fair cast x (.requestVoteRequest ex body)) :
    Campaign ids cast since s (r.onRequestVote delay now ex body) := by
  obtain ⟨rfl, cand⟩ := fair
  have taken := r.voting delay now ex body
  generalize r.onRequestVote delay now ex body = r' at taken ⊢
  cases taken with
  | refused => exact camp.send peer ⟨camp.id, nofun⟩
  | granted present free =>
    have nonzero : ex.src ≠ 0 := fun e => zero (e ▸ Finset.mem_of_mem_erase peer)
    have notSelf := Finset.ne_of_mem_erase peer
    -- a candidate or leader has voted for itself
    have bystander : r.state.votedFor = s → False := fun own => by
      rcases cand ▸ free with none | same
      · exact zero (none.symm.trans own ▸ mem)
      · exact notSelf (same.symm.trans own)
    refine send (d := ex.src) ?_ peer ⟨camp.id, fun _ => ⟨rfl, cand, nonzero⟩⟩
    exact { camp with
      grows := camp.grows.trans (List.prefix_append ..)
      ledger := camp.ledger.commit (.inr ⟨rfl, free⟩)
      candidate := fun name => (bystander (camp.candidate name).1).elim
      leader := fun name => (bystander (camp.leader name).1).elim }
  | ignored => exact camp

theorem onRequestVoteResponse (camp : Campaign ids cast since s r) (name : r.stateName = .candidate)
    (peer : x ∈ ids.erase s) {ex : TMessageEx} {body : TRequestVoteResponse}
    (fair : Fair cast x (.requestVoteResponse ex body)) : Campaign ids cast since s (r.onRequestVoteResponse ex body) := by
  obtain ⟨rfl, vote⟩ := fair
  have taken := r.polling ex body
  generalize r.onRequestVoteResponse ex body = r' at taken ⊢
  cases taken with
  | counted granted present =>
    obtain ⟨own, votes⟩ := camp.candidate name
    refine { camp with candidate := fun _ => ⟨own, fun v hv => ?_⟩, leader := fun lead => nomatch name.symm.trans lead }
    rcases Finset.mem_insert.mp hv with rfl | old
    · exact ⟨peer, present ▸ vote granted⟩
    · exact votes v old
  | ignored => exact camp

theorem onAppendEntries (camp : Campaign ids cast since s r) (peer : x ∈ ids.erase s) {ex : TMessageEx}
    {body : TAppendEntriesRequest} (fair : Fair cast x (.appendEntriesRequest ex body)) :
    Campaign ids cast since s (r.onAppendEntries delay now ex body) := by
  obtain rfl : ex.src = x := fair
  have heard (n : ℕ) {state : TState}
      (same : state.currentTerm = r.state.currentTerm ∧ state.votedFor = r.state.votedFor) :
      Campaign ids cast since s (r.heard delay now body.leaderId n state) := by
    refine { camp with ledger := ?_, candidate := nofun, leader := nofun }
    show Ledger ids s r.effects state.currentTerm state.votedFor
    rw [same.1, same.2]
    exact camp.ledger
  have taken := r.appending delay now ex body
  generalize r.onAppendEntries delay now ex body = r' at taken ⊢
  cases taken with
  | outdated => exact camp.send peer camp.id
  | unexpected => exact camp.fault .assertion
  | merged => exact (heard _ (TState.replaceAll_fields ..)).send peer camp.id
  | rejected => exact (heard _ ⟨rfl, rfl⟩).send peer camp.id

/-- Only the volatile state of a leader has changed, or of a candidate beside its votes. -/
theorem withVolatile (camp : Campaign ids cast since s r) {v : TVolatileState} (votes : v.votes = r.volatileState.votes) :
    Campaign ids cast since s { r with volatileState := v } :=
  { camp with candidate := fun name => by rw [votes]; exact camp.candidate name }

theorem onAppendEntriesResponse (camp : Campaign ids cast since s r) (ex : TMessageEx) (body : TAppendEntriesResponse) :
    Campaign ids cast since s (r.onAppendEntriesResponse ex body) := by
  have taken := r.responding ex body
  generalize r.onAppendEntriesResponse ex body = r' at taken ⊢
  cases taken with
  | outdated => exact camp
  | matched => exact camp.withVolatile (TVolatileState.votes_commitAdvance ..)
  | failed => exact camp.withVolatile rfl

theorem dispatch (camp : Campaign ids cast since s r) (zero : 0 ∉ ids) (mem : s ∈ ids) (peer : x ∈ ids.erase s) {m : TMessage}
    (fair : Fair cast x m) : Campaign ids cast since s (r.dispatch delay now m) := by
  have taken := r.dispatched delay now m
  generalize r.dispatch delay now m = r' at taken ⊢
  cases taken with
  | ignored => exact camp
  | unknown => exact camp.fault .unknownState
  | requestVote ex body => exact camp.onRequestVote zero mem peer fair
  | vote name ex body => exact camp.onRequestVoteResponse name peer fair
  | appendEntries ex body => exact camp.onAppendEntries peer fair
  | appended _ ex body => exact camp.onAppendEntriesResponse ex body

theorem sendAppendEntries (camp : Campaign ids cast since s r) (peer : d ∈ ids.erase s) :
    Campaign ids cast since s (r.sendAppendEntries d) :=
  send (r := { r with seqno := r.seqno + 1, volatileState := r.volatileState.touchMatch d }) { camp with } peer camp.id

theorem timeouts (peers : r.nodes.toFinset = ids.erase s) : TRaft.TimeoutInvariant r.nodes (Campaign ids cast since s) where
  asks due member camp := by
    have peer := peers ▸ List.mem_toFinset.mpr member
    exact (camp.withVolatile (by rfl)).send peer ⟨camp.id, camp.id⟩
  pings heartbeat rpc member camp := by
    have peer := peers ▸ List.mem_toFinset.mpr member
    exact (camp.withVolatile (by rfl)).sendAppendEntries peer
  advances _ camp := camp.withVolatile (TVolatileState.votes_commitAdvance ..)
  fails camp := camp.fault .unknownState

theorem startElection (camp : Campaign ids cast since s r) : Campaign ids cast since s (r.startElection delay now) := by
  rw [TRaft.startElection_eq]
  exact { camp with
    grows := camp.grows.trans (List.prefix_append ..)
    ledger := camp.ledger.commit (.inl (Nat.lt_succ_self _))
    candidate := fun _ => ⟨camp.id, fun v hv => absurd (show v ∈ (∅ : Finset ℕ) from hv) (Finset.notMem_empty v)⟩
    leader := nofun }

/-- The votes of the winner and its own make a quorum: `MinVotes` is more than half of the servers. -/
theorem becomeLeader (camp : Campaign ids cast since s r) (mem : s ∈ ids) (wins : r.wins) :
    Campaign ids cast since s r.becomeLeader := by
  rw [TRaft.wins, decide_eq_true_iff] at wins
  obtain ⟨name, many⟩ := wins
  obtain ⟨own, votes⟩ := camp.candidate name
  have notSelf : s ∉ r.volatileState.votes := fun hs => Finset.ne_of_mem_erase (votes s hs).1 rfl
  have servers : r.nodes.length + 1 = ids.card := by
    rw [← List.toFinset_card_of_nodup camp.nodup, camp.peers, Finset.card_erase_add_one mem]
  refine { camp with
    candidate := fun stands => EState.noConfusion stands
    leader := fun _ => ⟨own, insert s r.volatileState.votes, ⟨fun v hv => ?_, ?_⟩, fun v hv => ?_⟩ }
  · rcases Finset.mem_insert.mp hv with rfl | hv
    · exact mem
    · exact Finset.mem_of_mem_erase (votes v hv).1
  · rw [Finset.card_insert_of_notMem notSelf]
    unfold TRaft.minVotes at many
    omega
  · exact (Finset.mem_insert.mp hv).imp_right fun hv => (votes v hv).2

theorem processTimeout (camp : Campaign ids cast since s r) (mem : s ∈ ids) :
    Campaign ids cast since s (r.processTimeout delay now) :=
  (timeouts camp.peers).processTimeout (fun _ => camp) (fun _ => camp.startElection) fun wins camp =>
    camp.becomeLeader mem wins

theorem perform (camp : Campaign ids cast since s r) (zero : 0 ∉ ids) (mem : s ∈ ids) {call : Call}
    (fair : ∀ now m, call = .process now m → ∃ x ∈ ids.erase s, Fair cast x m) :
    Campaign ids cast since s (r.perform delay call) := by
  cases call with
  | process now m =>
    obtain ⟨x, peer, fair⟩ := fair now m rfl
    exact (camp.adoptTerm m.ex?).dispatch zero mem peer fair
  | processTimeout now => exact camp.processTimeout mem
  | append entry => exact { camp with }
  | approveRead =>
    apply TRaft.approveRead_rule _ camp
    exact fun member camp' => camp'.sendAppendEntries (camp.mem_nodes.mp member)

/-- After a crash the server is a follower with the stored term and vote. -/
theorem recover (camp : Campaign ids cast since' s r) {done : List TEffect} {t v : ℕ} (grows : since <+: done)
    (ledger : Ledger ids s done t v) (log : List TLogEntry) : Campaign ids cast since s (r.recover done log) where
  id := camp.id
  nodup := camp.nodup
  peers := camp.peers
  grows := grows
  ledger := by
    obtain ⟨term, vote⟩ := ledger.stored
    change Ledger ids s done (lastCommit done).currentTerm (lastCommit done).votedFor
    rwa [term, vote]
  candidate := nofun
  leader := nofun

end Campaign

/-! ## All servers -/

variable {ids : Finset ℕ} {c c' : Cluster} {s x : ℕ} {delay : UInt32 → ℕ}

/-- Every server knows what the histories of the others have on record. -/
structure Elections (ids : Finset ℕ) (c : Cluster) : Prop where
  zero : 0 ∉ ids
  camp : ∀ s ∈ ids, Campaign ids (fun v t => Voted (c v).effects t s) [] s (c s)

theorem Elections.start (start : Cluster.Start ids c) : Elections ids c where
  zero := start.1
  camp s mem := by
    obtain ⟨nodes, nodup, peers, new⟩ := start.2 s mem
    rw [new]
    exact ⟨rfl, nodup, peers, List.nil_prefix, .empty, nofun, nofun⟩

/-- A message in flight may be relied on. -/
theorem Elections.sent (elections : Elections ids c) {m : TMessage} (sent : Cluster.Sent ids c s m) :
    ∃ x ∈ ids.erase s, Fair (fun v t => Voted (c v).effects t s) x m := by
  obtain ⟨x, mem, effect⟩ := sent
  obtain ⟨peer, t, v, honest, voted⟩ := (elections.camp x mem).ledger.sent effect
  refine ⟨x, Finset.mem_erase.mpr ⟨(Finset.ne_of_mem_erase peer).symm, mem⟩, ?_⟩
  cases m with
  | requestVoteRequest ex body => exact honest
  | requestVoteResponse ex body =>
    refine ⟨honest.1, fun granted => ?_⟩
    obtain ⟨rfl, rfl, ne⟩ := honest.2 granted
    exact voted ne
  | appendEntriesRequest ex body => exact honest
  | appendEntriesResponse ex body => exact honest
  | other => trivial

/-- A server moves on, and its history grows. -/
theorem Elections.moved (elections : Elections ids c) {r : TRaft}
    (camp : Campaign ids (fun v t => Voted (c v).effects t s) (c s).effects s r) :
    Elections ids (Function.update c s r) ∧ ∀ v, (c v).effects <+: (Function.update c s r v).effects := by
  have grows : ∀ v, (c v).effects <+: (Function.update c s r v).effects := by
    intro v
    by_cases hv : v = s
    · subst hv; rw [Function.update_self]; exact camp.grows
    · rw [Function.update_of_ne hv]
  refine ⟨⟨elections.zero, fun x mem => ?_⟩, grows⟩
  by_cases hx : x = s
  · subst hx
    rw [Function.update_self]
    exact { camp.mono fun voted => voted.mono (grows _) with grows := List.nil_prefix }
  · rw [Function.update_of_ne hx]
    exact (elections.camp x mem).mono fun voted => voted.mono (grows _)

/-- The call, seen from the server's own effects on. -/
theorem Elections.performed (elections : Elections ids c) (mem : s ∈ ids) {call : Call}
    (enabled : Cluster.Enabled ids c s call) :
    Campaign ids (fun v t => Voted (c v).effects t s) (c s).effects s ((c s).perform delay call) := by
  have camp : Campaign ids (fun v t => Voted (c v).effects t s) (c s).effects s (c s) :=
    { elections.camp s mem with grows := List.prefix_rfl }
  apply camp.perform elections.zero mem
  intro now m process
  subst process
  exact elections.sent enabled

/-- **The step of a run with crashes.** -/
theorem Elections.step (elections : Elections ids c) (st : Cluster.CrashStep delay ids c c') :
    Elections ids c' ∧ ∀ v, (c v).effects <+: (c' v).effects := by
  cases st with
  | call mem call enabled => exact elections.moved (elections.performed mem enabled)
  | @crash s mem call enabled done begun part log =>
    have camp : Campaign ids _ _ s ((c s).perform delay call) := elections.performed mem enabled
    obtain ⟨t, v, ledger⟩ := camp.ledger.of_prefixed part
    exact elections.moved ((elections.camp s mem).recover begun ledger log)

theorem Elections.later (elections : Elections ids c) (later : Cluster.CrashLater delay ids c c') :
    Elections ids c' ∧ ∀ v, (c v).effects <+: (c' v).effects := by
  induction later with
  | refl => exact ⟨elections, fun _ => List.prefix_rfl⟩
  | tail _ st ih =>
    obtain ⟨elections', grows⟩ := ih
    obtain ⟨elections'', grows'⟩ := elections'.step st
    exact ⟨elections'', fun v => (grows v).trans (grows' v)⟩

/-- A leader has a quorum of votes on record, for good. -/
theorem Elections.elected (elections : Elections ids c) (mem : s ∈ ids) (leads : (c s).stateName = .leader) :
    ∃ V, (majority ids).vote V ∧ ∀ v ∈ V, Voted (c v).effects (c s).state.currentTerm s := by
  have camp := elections.camp s mem
  obtain ⟨own, V, quorum, votes⟩ := camp.leader leads
  refine ⟨V, quorum, fun v hv => ?_⟩
  rcases votes v hv with rfl | voted
  · have := camp.ledger.voted (fun none => elections.zero (none.symm.trans own ▸ mem))
    rwa [own] at this
  · exact voted

theorem Elections.granted (elections : Elections ids c) (mem : s ∈ ids) {t a : ℕ} (grants : (c s).Grants t a) :
    Voted (c s).effects t a := by
  have camp := elections.camp s mem
  rcases grants with ⟨ex, sent, rfl⟩ | ⟨rfl, fields, commit, rfl, own⟩
  · obtain ⟨-, t, v, honest, voted⟩ := camp.ledger.sent sent
    obtain ⟨rfl, rfl, ne⟩ := honest.2 rfl
    exact voted ne
  · exact ⟨fields, commit, rfl, own, by rw [camp.id]; exact fun none => elections.zero (none ▸ mem)⟩

/-- **Election safety**, in every run with crashes: a term has one leader, now and ever after, and a server grants
its vote in a term to one candidate. -/
theorem election_safety (delay : UInt32 → ℕ) (ids : Finset ℕ) {start c : Cluster} (fresh : Cluster.Start ids start)
    (run : Cluster.CrashLater delay ids start c) :
    (∀ c', Cluster.CrashLater delay ids c c' → ∀ s ∈ ids, ∀ x ∈ ids, (c s).stateName = .leader →
      (c' x).stateName = .leader → (c s).state.currentTerm = (c' x).state.currentTerm → s = x) ∧
    ∀ s ∈ ids, ∀ t a b, (c s).Grants t a → (c s).Grants t b → a = b := by
  obtain ⟨elections, -⟩ := (Elections.start fresh).later run
  constructor
  · intro c' later s mem x mem' leads leads' same
    obtain ⟨elections', grows⟩ := elections.later later
    obtain ⟨V, quorum, votes⟩ := elections.elected mem leads
    obtain ⟨W, quorum', votes'⟩ := elections'.elected mem' leads'
    obtain ⟨v, hV, hW⟩ := (majority ids).vote_vote quorum quorum'
    have member := quorum.1 hV
    exact (elections'.camp v member).ledger.unique ((votes v hV).mono (grows v)) (same ▸ votes' v hW)
  · intro s mem t a b grantsA grantsB
    exact (elections.camp s mem).ledger.unique (elections.granted mem grantsA) (elections.granted mem grantsB)

/-- What is played is a run without crashes. -/
theorem Cluster.CrashLater.of_play {lim : ℕ} {turns : List Cluster.Turn} (played : c.play delay lim ids turns = some c') :
    Cluster.CrashLater delay ids c c' := by
  induction turns generalizing c with
  | nil => exact Option.some.inj played ▸ .refl
  | cons turn turns ih =>
    obtain ⟨s, mem, call, enabled, -, rest⟩ := Cluster.call_of_play played
    exact .head (.call mem call enabled) (ih rest)

theorem Cluster.exists_of_crash_play (delay : UInt32 → ℕ) (ids : Finset ℕ) (c : Cluster) (turns : List Cluster.Turn)
    (φ : Cluster → Prop) [DecidablePred φ] (played : (c.play delay 100 ids turns).any (φ ·)) :
    ∃ c', Cluster.CrashLater delay ids c c' ∧ φ c' := by
  obtain ⟨c', played, holds⟩ := (Option.any_eq_true _ _).mp played
  exact ⟨c', .of_play played, by simpa using holds⟩

/-- Servers 1 and 3 of three stand in term 2. -/
def rivals : List Cluster.Turn := [.timeout 1 1000000000, .timeout 3 1000000000]

/-- What server 1 asks server 2 for. -/
def askedOfTwo : TMessage :=
  .requestVoteRequest { src := 1, dst := 2, term := 2 } { lastLogIndex := 0, lastLogTerm := 0, candidateId := 1 }

/-- Server 2 has stored the vote for server 1 when it dies, and has not answered. -/
def storedVote : List TEffect := [.commit { currentTerm := 2 }, .commit { currentTerm := 2, votedFor := 1 }]

/-- It is asked by server 3, and by server 1 once more, and server 1 counts its vote. -/
def askedAgain : List Cluster.Turn :=
  [.deliver 2000000000 3 2, .deliver 2000000000 1 1, .deliver 2000000000 2 4, .timeout 1 2000000000]

/-- Server 2 refuses the one and grants its vote to the other, which leads; no other server ever leads the term. -/
theorem election_safety_crashed : ∃ c,
    Cluster.CrashLater (fun _ => 5000) [1, 2, 3].toFinset (.fresh [1, 2, 3]) c ∧
    (c 1).stateName = .leader ∧ (c 3).stateName = .candidate ∧ (c 3).state.currentTerm = 2 ∧
    (∀ c', Cluster.CrashLater (fun _ => 5000) [1, 2, 3].toFinset c c' → ∀ x ∈ [1, 2, 3].toFinset,
      (c' x).stateName = .leader → (c' x).state.currentTerm = 2 → x = 1) ∧
    ∀ a, (c 2).Grants 2 a → a = 1 := by
  let after (c : Cluster) : Cluster := Function.update c 2 ((c 2).recover storedVote [])
  let ends (c : Cluster) : Prop := ((c 1).stateName = .leader ∧ (c 1).state.currentTerm = 2) ∧
    ((c 3).stateName = .candidate ∧ (c 3).state.currentTerm = 2) ∧
    .send 1 (.requestVoteResponse { src := 2, dst := 1, term := 2 } ⟨true⟩) ∈ (c 2).effects
  obtain ⟨c, run, sent, begun, part, rest⟩ := Cluster.exists_of_crash_play (fun _ => 5000) [1, 2, 3].toFinset
    (.fresh [1, 2, 3]) rivals (fun c => .send 2 askedOfTwo ∈ (c 1).effects ∧ (c 2).effects <+: storedVote ∧
      storedVote <+: ((c 2).process (fun _ => 5000) 1000000000 askedOfTwo).effects ∧
      ((after c).play (fun _ => 5000) 100 [1, 2, 3].toFinset askedAgain).any fun c' => ends c') (by decide +kernel)
  have crash : Cluster.CrashStep (fun _ => 5000) [1, 2, 3].toFinset c (after c) :=
    .crash (by decide) (.process 1000000000 askedOfTwo) ⟨1, by decide, sent⟩ begun part []
  obtain ⟨c', run', ⟨leads, term⟩, ⟨name, term'⟩, granted⟩ := Cluster.exists_of_crash_play _ _ _ askedAgain ends rest
  have run := (run.tail crash).trans run'
  obtain ⟨one, same⟩ := election_safety _ _ (Cluster.fresh_start (by decide) (by decide)) run
  refine ⟨c', run, leads, name, term', fun c later x mem leads' own => ?_, fun a grants => ?_⟩
  · exact (one c later 1 (by decide) x mem leads leads' (term.trans own.symm)).symm
  · exact same 2 (by decide) 2 a 1 grants (.inl ⟨_, granted, rfl⟩)

end MiniRaft
