import MiniRaft.Entries
import MiniRaft.Simulation

/-!
# Calls as actions of the abstract history

For each method: what it does to a server that agrees with the history is a number of abstract actions of that
server, after which the two agree again.
-/

namespace MiniRaft

open Lib

/-- The history is consistent and within `lim`, and says the truth about server `s`. The commit index is not below
the `base` of before the call, and that of a leader, where it is another, is one that a quorum has stored. -/
structure Good (lim : ℕ) (ids : Finset ℕ) (s base : ℕ) (h : History) (r : TRaft) : Prop where
  inv : h.Inv (majority ids) TLogEntry.term
  fits : ∀ t, (h.llog t).length < lim
  sim : Sim lim ids h s r
  grown : lim ≤ 2 ^ 31 → base ≤ r.volatileState.commitIndex
  raised : r.stateName = .leader → r.volatileState.commitIndex = base ∨
    h.Committed (majority ids) TLogEntry.term r.state.currentTerm r.volatileState.commitIndex

/-- Actions of `s` lead to a history that says the truth about `r`. -/
def Moves (lim : ℕ) (ids : Finset ℕ) (s base : ℕ) (h : History) (r : TRaft) : Prop :=
  ∃ h', Actions ids s h h' ∧ Good lim ids s base h' r

/-- What a call may rely on. -/
def Licensed (lim : ℕ) (ids : Finset ℕ) (h : History) (s : ℕ) (r : TRaft) : Call → Prop
  | .process _ m => ∃ x ∈ ids.erase s, Sound lim ids h x s m
  | .processTimeout _ => True
  | .append _ | .approveRead => r.stateName = .leader

variable {lim : ℕ} {ids : Finset ℕ} {h : History} {s x d base : ℕ} {r r' r'' : TRaft} {delay : UInt32 → ℕ} {now : Time}

theorem Good.stay (good : Good lim ids s base h r) : Moves lim ids s base h r := ⟨h, .refl, good⟩

theorem Good.then (good : Good lim ids s base h r) (first : Moves lim ids s base h r')
    (next : ∀ h', h.Le h' → Good lim ids s base h' r' → Moves lim ids s base h' r'') : Moves lim ids s base h r'' := by
  obtain ⟨h', ev, good'⟩ := first
  obtain ⟨h'', ev', good''⟩ := next h' (Evolve.evolved good.inv ev).le good'
  exact ⟨h'', ev.trans ev', good''⟩

/-! ## Steps that change nothing the history knows -/

namespace Sim

theorem mem_nodes (sim : Sim lim ids h s r) {p : ℕ} : p ∈ r.nodes ↔ p ∈ ids.erase s := by
  rw [← sim.peers, List.mem_toFinset]

theorem nservers (sim : Sim lim ids h s r) (mem : s ∈ ids) : r.nservers = ids.card := by
  rw [TRaft.nservers, ← List.toFinset_card_of_nodup sim.nodup, sim.peers, Finset.card_erase_add_one mem]

theorem makeElection (sim : Sim lim ids h s r) : Sim lim ids h s (r.makeElection delay now) := { sim with }

theorem commitState (sim : Sim lim ids h s r) : Sim lim ids h s r.commit :=
  { sim with sent := fun m => sim.sent (by simpa [TRaft.commit, TRaft.emit] using m) }

theorem fault (sim : Sim lim ids h s r) (cause : Fault) : Sim lim ids h s (r.emit (.fault cause)) :=
  { sim with sent := fun m => sim.sent (by simpa [TRaft.emit] using m) }

theorem send (sim : Sim lim ids h s r) {m : TMessage} (peer : d ∈ ids.erase s) (sound : Sound lim ids h s d m) :
    Sim lim ids h s (r.send d m) := by
  rw [TRaft.send, if_pos (sim.mem_nodes.mpr peer)]
  refine { sim with sent := fun {e n} old => ?_ }
  rcases List.mem_append.mp old with old | new
  · exact sim.sent old
  · obtain ⟨rfl, rfl⟩ : e = d ∧ n = m := by simpa using new
    exact ⟨peer, sound⟩

theorem own_vote (sim : Sim lim ids h s r) (inv : h.Inv (majority ids) TLogEntry.term)
    (name : r.stateName = .candidate ∨ r.stateName = .leader) : r.state.votedFor = s ∧ s ≠ 0 := by
  have stood : ∃ l, h.stand s r.state.currentTerm = some l := by
    rcases name with name | name
    · exact ⟨_, (sim.candidate name).stood⟩
    · exact inv.votes.leadStood (sim.leader name).leads
  obtain ⟨l, stood⟩ := stood
  exact (sim.vote s).mp (inv.votes.standVote stood)

end Sim

/-! ## Messages -/

namespace Good

theorem send (good : Good lim ids s base h r) {m : TMessage} (peer : d ∈ ids.erase s) (sound : Sound lim ids h s d m) :
    Good lim ids s base h (r.send d m) :=
  { good with
    sim := good.sim.send peer sound
    grown := by simpa using good.grown
    raised := by simpa using good.raised }

theorem demoted (good : Good lim ids s base h r) {t : ℕ} (later : r.state.currentTerm < t) :
    Moves lim ids s base h (r.demoted t) := by
  have sim := good.sim
  have later' : h.term s < t := by rw [sim.term]; exact later
  have st : Step (majority ids) TLogEntry.term h s _ := .adopt later'
  have le := st.le good.inv.votes good.inv.logs
  have noVote := (good.inv.votes.fresh later').1
  have adopted : Sim lim ids { h with term := Function.update h.term s t } s
      { r with state := r.state.withVote t 0, stateName := .follower } := {
    id := sim.id
    nodup := sim.nodup
    peers := sim.peers
    term := Function.update_self ..
    log := sim.log
    vote := fun c => by
      change h.vote s t = some c ↔ 0 = c ∧ c ≠ 0
      rw [noVote]
      constructor
      · nofun
      · rintro ⟨rfl, ne⟩; exact absurd rfl ne
    candidate := nofun
    leader := nofun
    commit := fun small => ⟨(sim.commit small).1, (sim.commit small).2.mono le later.le⟩
    sent := fun m => ⟨(sim.sent m).1, (sim.sent m).2.mono le⟩ }
  exact ⟨_, .single st, good.inv.step st, good.fits, adopted.commitState, good.grown, nofun⟩

theorem adoptTerm (good : Good lim ids s base h r) (header : Option TMessageEx) :
    Moves lim ids s base h (r.adoptTerm delay now header) := by
  have taken := r.adopting delay now header
  generalize r.adoptTerm delay now header = r' at taken ⊢
  cases taken with
  | known => exact good.stay
  | armed later =>
    obtain ⟨h', moves, good'⟩ := good.demoted later
    exact ⟨h', moves, { good' with sim := good'.sim.makeElection }⟩
  | running later => exact good.demoted later

/-- The vote: the candidate's log is at least as up to date as the voter's. -/
theorem onRequestVote (good : Good lim ids s base h r) (zero : 0 ∉ ids) (peer : x ∈ ids.erase s) {ex : TMessageEx}
    {body : TRequestVoteRequest} (sound : Sound lim ids h x s (.requestVoteRequest ex body)) :
    Moves lim ids s base h (r.onRequestVote delay now ex body) := by
  have sim := good.sim
  obtain ⟨rfl, cand, l, stood, lastT, lastI⟩ := sound
  have taken := r.voting delay now ex body
  generalize r.onRequestVote delay now ex body = r' at taken ⊢
  cases taken with
  | refused => exact Good.stay (good.send peer ⟨sim.id, nofun⟩)
  | granted present free fresh =>
    rw [cand] at free
    rw [lastT, lastI, TState.logTerm_last, r.state.index_eq, ← sim.log] at fresh
    have notSelf := Finset.ne_of_mem_erase peer
    have nonzero : ex.src ≠ 0 := fun e => zero (e ▸ Finset.mem_of_mem_erase peer)
    have st : Step (majority ids) TLogEntry.term h s _ := .grant (c := ex.src) (l := l)
      (by rw [sim.term, ← present]; exact stood)
      (fun y voted => by
        rw [sim.term, sim.vote] at voted
        rcases free with none | same
        · exact absurd (voted.1.symm.trans none) voted.2
        · exact voted.1.symm.trans same)
      (fresh.imp id id)
    have le := st.le good.inv.votes good.inv.logs
    -- a candidate or leader has voted for itself
    have bystander : ¬ (r.stateName = .candidate ∨ r.stateName = .leader) := fun name => by
      obtain ⟨own, pos⟩ := sim.own_vote good.inv name
      rcases free with none | same
      · exact pos (own.symm.trans none)
      · exact notSelf (same.symm.trans own)
    have cast : set2 h.vote s (h.term s) (some ex.src) s r.state.currentTerm = some ex.src := by
      rw [← sim.term, set2_self]
    refine ⟨_, .single st, good.inv.step st, good.fits, ?_, by rw [TRaft.volatileState_send]; exact good.grown,
      fun name => ?_⟩
    rotate_left
    · rw [TRaft.stateName_send] at name; exact absurd (.inr name) bystander
    refine Sim.send (Sim.commitState ?_) peer ⟨sim.id, fun _ => cast⟩
    exact {
      id := sim.id
      nodup := sim.nodup
      peers := sim.peers
      term := sim.term
      log := sim.log
      vote := fun c => by
        change set2 h.vote s (h.term s) (some ex.src) s r.state.currentTerm = some c ↔ body.candidateId = c ∧ c ≠ 0
        rw [cast, cand, Option.some.injEq]
        constructor
        · rintro rfl; exact ⟨rfl, nonzero⟩
        · exact fun e => e.1
      candidate := fun name => absurd (.inl name) bystander
      leader := fun name => absurd (.inr name) bystander
      commit := fun small => ⟨(sim.commit small).1, (sim.commit small).2.mono le le_rfl⟩
      sent := fun m => ⟨(sim.sent m).1, (sim.sent m).2.mono le⟩ }
  | ignored => exact good.stay

/-- A vote counts for the term it was cast in. -/
theorem onRequestVoteResponse (good : Good lim ids s base h r) (name : r.stateName = .candidate) (peer : x ∈ ids.erase s)
    {ex : TMessageEx} {body : TRequestVoteResponse} (sound : Sound lim ids h x s (.requestVoteResponse ex body)) :
    Moves lim ids s base h (r.onRequestVoteResponse ex body) := by
  obtain ⟨rfl, vote⟩ := sound
  have taken := r.polling ex body
  generalize r.onRequestVoteResponse ex body = r' at taken ⊢
  cases taken with
  | counted granted present =>
    have candidacy := good.sim.candidate name
    refine Good.stay { good with
      sim := { good.sim with candidate := fun _ => ?_, leader := fun lead => ?_ } }
    · refine { candidacy with votes := fun v hv => ?_ }
      rcases Finset.mem_insert.mp hv with rfl | old
      · exact ⟨peer, present ▸ vote granted⟩
      · exact candidacy.votes v old
    · exact nomatch name.symm.trans lead
  | ignored => exact good.stay

/-- The consistency check finds the batch's first part in the log. -/
theorem fits_prefixed (good : Good lim ids s base h r) (small : lim ≤ 2 ^ 63) {body : TAppendEntriesRequest}
    (batch : Batch lim ids h x r.state.currentTerm body) (fits : TRaft.fitsLog body r.state) :
    (h.llog r.state.currentTerm).take body.prevLogIndex <+: r.state.log := by
  have logs := good.inv.logs
  have bound := batch.bound
  rw [TRaft.fitsLog, decide_eq_true_iff] at fits
  rcases Nat.eq_zero_or_pos body.prevLogIndex with zero | pos
  · rw [zero]; exact List.nil_prefix
  · obtain ⟨-, same⟩ := fits.resolve_left (by omega)
    have := good.fits r.state.currentTerm
    rw [r.state.logTerm_eq (by omega), batch.prevTerm] at same
    obtain ⟨e, he⟩ : ∃ e, (h.llog r.state.currentTerm)[body.prevLogIndex - 1]? = some e :=
      ⟨_, List.getElem?_eq_getElem (by omega)⟩
    have term : termAt TLogEntry.term (h.llog r.state.currentTerm) _ = _ := termAt_of_get he
    rw [show body.prevLogIndex - 1 + 1 = body.prevLogIndex by omega] at term
    have := (logs.llogTerm (List.mem_of_getElem? he)).1
    have match_ := (logs.llogCo r.state.currentTerm).matching_termAt (good.sim.log ▸ logs.logCo s) (by omega) same.symm
    rw [match_]
    exact List.take_prefix ..

/-- The payload, or any first part of it, is merged into the log. -/
theorem merge (good : Good lim ids s base h r) (small : lim ≤ 2 ^ 63) {body : TAppendEntriesRequest}
    (batch : Batch lim ids h x r.state.currentTerm body) (fits : TRaft.fitsLog body r.state) {payload : List TLogEntry}
    (part : payload <+: body.payload) :
    let k := body.prevLogIndex + payload.length
    let m := h.llog r.state.currentTerm
    let l := (r.state.replaceAll body.prevLogIndex payload).log
    m.take k <+: r.state.log ∧ l = r.state.log ∨ ¬ m.take k <+: r.state.log ∧ l = m.take k := by
  have logs := good.inv.logs
  have := good.fits r.state.currentTerm
  have := batch.bound
  have short := part.length_le
  have piece : payload = ((h.llog r.state.currentTerm).drop body.prevLogIndex).take payload.length := by
    have whole := List.prefix_iff_eq_take.mp part
    rwa [batch.piece, List.take_take, Nat.min_eq_left short] at whole
  refine TState.replaceAll_merges (by omega) (fun e he => (logs.llogTerm he).1) (fun i pos same => ?_) payload
    piece (by omega) (good.fits_prefixed small batch fits)
  exact ((logs.llogCo _).matching_termAt (good.sim.log ▸ logs.logCo s) pos same.symm).symm

/-- Every log is the beginning of a leader log, so it stays below `lim`. -/
theorem log_lt (good : Good lim ids s base h r) : r.state.log.length < lim := by
  have logs := good.inv.logs
  have co := good.sim.log ▸ logs.logCo s
  cases last : r.state.log[r.state.log.length - 1]? with
  | none =>
    have := List.getElem?_eq_none_iff.mp last
    have := good.fits 0
    omega
  | some e =>
    have pos : 0 < lastTerm TLogEntry.term r.state.log := by
      rw [lastTerm_of_get last]
      exact (logs.logTerm (good.sim.log ▸ List.mem_of_getElem? last)).1
    exact (co.whole pos).length_le.trans_lt (good.fits _)

theorem commit_lt (good : Good lim ids s base h r) (small : lim ≤ 2 ^ 31) : r.volatileState.commitIndex < 2 ^ 31 := by
  have := (good.sim.commit small).1
  have := good.log_lt
  omega

/-- What was committed before, or what the leader reports, is committed in the merged log. -/
theorem commit_merged {h' : History} (good : Good lim ids s base h r) (small : lim ≤ 2 ^ 31) {body : TAppendEntriesRequest}
    (batch : Batch lim ids h x r.state.currentTerm body) {l : List TLogEntry} (le : h.Le h')
    (held : (h.llog r.state.currentTerm).take (body.prevLogIndex + body.payload.length) <+: l)
    (kept : r.state.log.take r.volatileState.commitIndex <+: l) {n : ℕ}
    (through : throughInt (max r.volatileState.commitIndex body.leaderCommit) = n) :
    n ≤ l.length ∧ Decided ids h' r.state.currentTerm (l.take n) := by
  obtain ⟨inside, decided⟩ := good.sim.commit small
  obtain ⟨reach, reported⟩ := batch.commit small
  have bound := batch.bound
  have := good.fits r.state.currentTerm
  have := good.commit_lt small
  have same : n = max r.volatileState.commitIndex body.leaderCommit :=
    through ▸ throughInt_of_lt (by omega)
  rcases Nat.le_total body.leaderCommit r.volatileState.commitIndex with low | high
  · rw [same, Nat.max_eq_left low]
    have len : (r.state.log.take r.volatileState.commitIndex).length = r.volatileState.commitIndex := by
      rw [List.length_take]; omega
    have := List.prefix_iff_eq_take.mp kept
    rw [len] at this
    exact ⟨len ▸ kept.length_le, this ▸ decided.mono le le_rfl⟩
  · rw [same, Nat.max_eq_right high]
    have len := held.length_le
    rw [List.length_take, Nat.min_eq_left bound] at len
    have part : l.take body.leaderCommit = (h.llog r.state.currentTerm).take body.leaderCommit := by
      rw [take_of_prefixed held (by rw [List.length_take]; omega), List.take_take, Nat.min_eq_left reach]
    exact ⟨reach.trans len, part ▸ reported.mono le le_rfl⟩

/-- A batch of the leader of the present term. -/
theorem onAppendEntries (good : Good lim ids s base h r) (small : lim ≤ 2 ^ 63) (peer : x ∈ ids.erase s) {ex : TMessageEx}
    {body : TAppendEntriesRequest} (sound : Sound lim ids h x s (.appendEntriesRequest ex body)) :
    Moves lim ids s base h (r.onAppendEntries delay now ex body) := by
  have sim := good.sim
  obtain ⟨rfl, batch⟩ := sound
  have taken := r.appending delay now ex body
  generalize r.onAppendEntries delay now ex body = r' at taken ⊢
  cases taken with
  | outdated => exact Good.stay (good.send peer ⟨sim.id, nofun⟩)
  | unexpected => exact Good.stay { good with sim := sim.fault .assertion }
  | merged present fits =>
    rw [present] at batch
    rw [TRaft.heard, TVolatileState.setCommitIndex]
    generalize through : throughInt (max r.volatileState.commitIndex body.leaderCommit) = n
    have merged := good.merge small batch fits List.prefix_rfl
    obtain ⟨term, votedFor⟩ := TState.replaceAll_fields body.payload body.prevLogIndex r.state
    have st : Step (majority ids) TLogEntry.term h s _ := .accept (L := ex.src)
      (k := body.prevLogIndex + body.payload.length) (l := (r.state.replaceAll body.prevLogIndex body.payload).log)
      (by rw [sim.term]; exact batch.leads) (Finset.ne_of_mem_erase peer) (by rw [sim.term]; exact batch.bound)
      (by rw [sim.term, sim.log]; exact merged)
    have le := st.le good.inv.votes good.inv.logs
    refine ⟨_, .single st, good.inv.step st, good.fits, ?_, fun low => ?_, fun name => by simp at name⟩
    rotate_left
    · have reached := (batch.commit low).1
      have bound := batch.bound
      have := good.fits r.state.currentTerm
      have := good.commit_lt low
      rw [TRaft.volatileState_send]
      change base ≤ n
      rw [← through, throughInt_of_lt (by omega)]
      exact (good.grown low).trans (le_max_left ..)
    refine Sim.send ?_ peer ⟨sim.id, fun _ => ?_⟩
    · exact {
        id := sim.id
        nodup := sim.nodup
        peers := sim.peers
        term := sim.term.trans term.symm
        log := Function.update_self ..
        vote := fun c => by
          change h.vote s (r.state.replaceAll body.prevLogIndex body.payload).currentTerm = _ ↔
            (r.state.replaceAll body.prevLogIndex body.payload).votedFor = c ∧ c ≠ 0
          rw [term, votedFor]; exact sim.vote c
        candidate := nofun
        leader := nofun
        commit := fun low => by
          have kept := st.decided_kept good.inv (sim.term ▸ (sim.commit low).2) (sim.log ▸ List.take_prefix ..)
          simp only [Function.update_self] at kept
          change _ ∧ Decided ids _ (r.state.replaceAll body.prevLogIndex body.payload).currentTerm _
          rw [term]
          exact good.commit_merged low batch le (prefix_of_merge merged) kept through
        sent := fun m => ⟨(sim.sent m).1, (sim.sent m).2.mono le⟩ }
    · change body.prevLogIndex + body.payload.length ≤ set2 h.ack s (h.term s) _ s r.state.currentTerm
      rw [← sim.term, set2_self]
      exact le_max_right ..
  | rejected =>
    rw [TRaft.heard, TVolatileState.setCommitIndex]
    generalize through : throughInt r.volatileState.commitIndex = n
    have same : lim ≤ 2 ^ 31 → r.volatileState.commitIndex = n := fun low =>
      through ▸ (throughInt_of_lt (good.commit_lt low)).symm
    refine Good.stay { good with
      sim := Sim.send ?_ peer ⟨sim.id, nofun⟩
      grown := fun low => by
        rw [TRaft.volatileState_send]
        exact (good.grown low).trans (same low).le
      raised := fun name => by simp at name }
    exact { sim with
      candidate := nofun
      leader := nofun
      commit := fun low => same low ▸ sim.commit low }

/-! ## Leading -/

/-- A leader's log is the leader log of its term. -/
theorem whole (good : Good lim ids s base h r) (name : r.stateName = .leader) :
    r.state.log = h.llog r.state.currentTerm := by
  have same := good.inv.logs.leadLog (s := s)
  rw [good.sim.term, good.sim.log] at same
  exact same (good.sim.leader name).leads

theorem next_update {next : ℕ → ℕ} {len n q : ℕ} (old : ∀ p ∈ ids.erase s, 1 ≤ next p ∧ next p ≤ len + 1)
    (low : 1 ≤ n) (high : n ≤ len + 1) :
    ∀ p ∈ ids.erase s, 1 ≤ Function.update next q n p ∧ Function.update next q n p ≤ len + 1 := by
  intro p hp
  by_cases hx : p = q
  · subst hx; simp [low, high]
  · rw [Function.update_of_ne hx]; exact old p hp

/-- Where `CommitAdvance` raises the commit index, a commit quorum has stored the log up to there, and the entry
there is of the present term. -/
theorem quorum_stored (good : Good lim ids s base h r) (small : lim ≤ 2 ^ 63) (mem : s ∈ ids)
    (name : r.stateName = .leader) {k : ℕ} (pos : 0 < k)
    (at_k : ((r.volatileState.indices r.nservers r.state.lastLogIndex).insertionSort (· ≤ ·)).getD (r.nservers / 2) 0 = k)
    (own : r.state.logTerm (toInt64 k) = r.state.currentTerm) :
    h.Committed (majority ids) TLogEntry.term r.state.currentTerm k := by
  have leads := good.sim.leader name
  obtain ⟨A, many, reached⟩ := r.volatileState.quorum s pos at_k
    fun hs => Finset.ne_of_mem_erase (leads.keys s hs) rfl
  have stored : ∀ y ∈ A, k ≤ h.ack y r.state.currentTerm := by
    intro y hy
    rcases reached y hy with ⟨rfl, le⟩ | ⟨-, le⟩
    · rw [leads.own]; exact le.trans r.state.index_eq.le
    · exact le.trans (leads.acked y)
  have inside : A ⊆ ids := fun y hy => by
    rcases reached y hy with ⟨rfl, -⟩ | ⟨key, -⟩
    · exact mem
    · exact Finset.mem_of_mem_erase (leads.keys y key)
  rw [good.sim.nservers mem] at many
  have alive : 0 < ids.card := Finset.card_pos.mpr ⟨s, mem⟩
  obtain ⟨y, hy⟩ := Finset.card_pos.mp (by omega : 0 < A.card)
  have bound := (stored y hy).trans (good.inv.logs.ackLen y r.state.currentTerm)
  have := good.fits r.state.currentTerm
  rw [r.state.logTerm_eq (by omega), good.whole name] at own
  exact ⟨⟨pos, own, bound⟩, A, ⟨inside, many⟩, stored⟩

theorem advance (good : Good lim ids s base h r) (small : lim ≤ 2 ^ 63) (mem : s ∈ ids) (name : r.stateName = .leader)
    (seqno : ℕ) :
    Moves lim ids s base h { r with volatileState := r.volatileState.commitAdvance r.nservers r.state seqno } := by
  have sim := good.sim
  unfold TVolatileState.commitAdvance
  dsimp only
  generalize at_k : ((r.volatileState.indices r.nservers r.state.lastLogIndex).insertionSort (· ≤ ·)).getD
    (r.nservers / 2) 0 = k
  split
  · rename_i own
    rcases Nat.le_total k r.volatileState.commitIndex with low | high
    · rw [Nat.max_eq_left low]
      exact Good.stay { good with sim := { sim with } }
    · rcases Nat.eq_or_lt_of_le high with same | high
      · rw [← same, Nat.max_self]
        exact Good.stay { good with sim := { sim with } }
      · rw [Nat.max_eq_right high.le] at own ⊢
        have stored := good.quorum_stored small mem name (by omega) at_k own
        have whole := good.whole name
        refine Good.stay { good with
          sim := { sim with commit := fun _ => ⟨?_, ?_⟩ }
          grown := fun low => (good.grown low).trans high.le
          raised := fun _ => .inr stored }
        · exact whole ▸ stored.1.2.2
        · exact .inr ⟨_, le_rfl, k, stored, by simp, whole ▸ List.take_prefix ..⟩
  · exact good.stay

/-- An acknowledgement from the present term. -/
theorem onAppendEntriesResponse (good : Good lim ids s base h r) (small : lim ≤ 2 ^ 63) (mem : s ∈ ids)
    (name : r.stateName = .leader) (peer : x ∈ ids.erase s) {ex : TMessageEx} {body : TAppendEntriesResponse}
    (sound : Sound lim ids h x s (.appendEntriesResponse ex body)) :
    Moves lim ids s base h (r.onAppendEntriesResponse ex body) := by
  have sim := good.sim
  have leads := sim.leader name
  obtain ⟨rfl, acked⟩ := sound
  have taken := r.responding ex body
  generalize r.onAppendEntriesResponse ex body = r' at taken ⊢
  cases taken with
  | outdated => exact good.stay
  | matched present success =>
    have acked := acked success
    rw [present] at acked
    have bound := acked.trans (good.inv.logs.ackLen _ _)
    rw [← good.whole name] at bound
    have fits : u64 (body.matchIndex + 1) = body.matchIndex + 1 := u64_of_lt (by have := good.log_lt; omega)
    suffices Good lim ids s base h { r with volatileState := r.volatileState.matched ex.src body.matchIndex } from
      this.advance small mem name ex.seqno
    refine { good with sim := { sim with leader := fun _ => { leads with
      keys := fun p hp => ?_, acked := fun p => ?_,
      next := next_update leads.next (Nat.succ_pos _ |>.trans_eq fits.symm) (fits.trans_le (Nat.succ_le_succ bound)) } } }
    · rcases TVolatileState.mem_setMatchIndex hp with rfl | old
      · exact peer
      · exact leads.keys p old
    · change (r.volatileState.setMatchIndex ex.src _).matchOf p ≤ _
      rw [TVolatileState.matchOf_setMatchIndex]
      split
      · subst p; exact max_le (leads.acked _) acked
      · exact leads.acked p
  | failed present =>
    have old := leads.next ex.src peer
    refine Good.stay { good with sim := { sim with leader := fun _ => { leads with
      next := next_update leads.next (le_max_left ..) ?_ } } }
    change _ ≤ r.state.log.length + 1
    split <;> omega

/-- What `CreateAppendEntries` builds is a piece of the leader log. -/
theorem createAppendEntries (good : Good lim ids s base h r) (small : lim ≤ 2 ^ 63) (name : r.stateName = .leader)
    (peer : d ∈ ids.erase s) : Sound lim ids h s d (r.createAppendEntries d) := by
  have leads := good.sim.leader name
  have whole := good.whole name
  have short : r.state.log.length < maxLogSize := good.log_lt.trans_le small
  obtain ⟨low, high⟩ := leads.next d peer
  obtain ⟨k, next⟩ := Nat.exists_eq_add_of_le' low
  have inside : k ≤ r.state.log.length := by omega
  have last := TRaft.batchEnd_le (d := d) inside
  have len : ((r.state.log.drop k).take (r.batchEnd d k - k)).length = r.batchEnd d k - k := by
    rw [List.length_take, List.length_drop]
    omega
  rw [TRaft.createAppendEntries_eq next inside short]
  refine ⟨good.sim.id, leads.leads, ?_, ?_, ?_, fun low => ⟨?_, ?_⟩⟩
  · rw [len, ← whole]; dsimp only; omega
  · rw [len, ← whole]
  · rw [← whole]
  · rw [len]; exact (min_le_right ..).trans (show r.batchEnd d k ≤ k + (r.batchEnd d k - k) by omega)
  · rw [← whole]
    exact (good.sim.commit low).2.of_prefixed (take_prefix_of_le (min_le_left ..))

theorem sendAppendEntries (good : Good lim ids s base h r) (small : lim ≤ 2 ^ 63) (name : r.stateName = .leader)
    (peer : d ∈ ids.erase s) : Good lim ids s base h (r.sendAppendEntries d) := by
  have leads := good.sim.leader name
  have sound := good.createAppendEntries small name peer
  have touched : Good lim ids s base h
      { r with seqno := r.seqno + 1, volatileState := r.volatileState.touchMatch d } :=
    { good with sim := { good.sim with leader := fun _ => { leads with
        keys := fun p hp => by
          rcases TVolatileState.mem_touchMatch hp with rfl | old
          · exact peer
          · exact leads.keys p old
        acked := fun p => (r.volatileState.matchOf_touchMatch d p).le.trans (leads.acked p) } } }
  exact touched.send peer sound

/-! ## Timeouts and appends -/

theorem candidateTimeout (good : Good lim ids s base h r) (name : r.stateName = .candidate) :
    Good lim ids s base h (r.candidateTimeout now) := by
  have asked : Good lim ids s base h (r.candidateTimeout now) ∧ (r.candidateTimeout now).stateName = .candidate := by
    refine TRaft.candidateTimeout_rule
      (P := fun r => Good lim ids s base h r ∧ r.stateName = .candidate) (fun {r p} due member kept => ?_) ⟨good, name⟩
    obtain ⟨good', name⟩ := kept
    have candidacy := good'.sim.candidate name
    have armed : Good lim ids s base h { r with volatileState := r.volatileState.setRpcDue p due } :=
      { good' with sim := { good'.sim with } }
    refine ⟨armed.send (good.sim.mem_nodes.mp member) ?_, by simpa⟩
    exact ⟨good'.sim.id, good'.sim.id, _, candidacy.stood, r.state.term_eq, r.state.index_eq⟩
  exact asked.1

theorem leaderTimeout (good : Good lim ids s base h r) (small : lim ≤ 2 ^ 63) (mem : s ∈ ids)
    (name : r.stateName = .leader) : Moves lim ids s base h (r.leaderTimeout now) := by
  have pinged : Good lim ids s base h (r.nodes.foldl (TRaft.leaderTimeoutFor now) r) ∧
      (r.nodes.foldl (TRaft.leaderTimeoutFor now) r).stateName = .leader := by
    refine TRaft.heartbeats_rule
      (P := fun r => Good lim ids s base h r ∧ r.stateName = .leader) (fun {r p} _ _ member kept => ?_) ⟨good, name⟩
    obtain ⟨good', name⟩ := kept
    have peer := good.sim.mem_nodes.mp member
    exact ⟨sendAppendEntries { good' with sim := { good'.sim with } } small name peer, by simpa using name⟩
  unfold TRaft.leaderTimeout
  dsimp only
  split
  · exact pinged.1.advance small mem pinged.2 0
  · exact pinged.1.stay

theorem approveRead (good : Good lim ids s base h r) (small : lim ≤ 2 ^ 63) (name : r.stateName = .leader) :
    Good lim ids s base h r.approveRead.2 := by
  have pinged : Good lim ids s base h r.approveRead.2 ∧ r.approveRead.2.stateName = .leader := by
    refine TRaft.approveRead_rule
      (P := fun r => Good lim ids s base h r ∧ r.stateName = .leader) (fun {r p} member kept => ?_) ⟨good, name⟩
    have peer := good.sim.mem_nodes.mp member
    exact ⟨kept.1.sendAppendEntries small kept.2 peer, by simpa using kept.2⟩
  exact pinged.1

/-- The leader of the present term adds an entry of that term. -/
theorem extend (good : Good lim ids s base h r) (leads : h.lead r.state.currentTerm = some s) (entry : TLogEntry)
    (own : entry.term = r.state.currentTerm) (room : r.state.log.length + 1 < lim) {v : TVolatileState}
    (same : v.commitIndex = r.volatileState.commitIndex) (keys : ∀ p ∈ v.matchIndex, p ∈ ids.erase s)
    (acked : ∀ p, v.matchOf p ≤ h.ack p r.state.currentTerm)
    (next : ∀ p ∈ ids.erase s, 1 ≤ v.nextIndex p ∧ v.nextIndex p ≤ r.state.log.length + 1)
    (raised : v.commitIndex = base ∨ h.Committed (majority ids) TLogEntry.term r.state.currentTerm v.commitIndex) :
    Moves lim ids s base h
      { r with volatileState := v, stateName := .leader, state := r.state.append entry } := by
  have sim := good.sim
  have st : Step (majority ids) TLogEntry.term h s _ := .extend (e := entry) (by rw [sim.term]; exact leads)
    (by rw [sim.term]; exact own)
  have le := st.le good.inv.votes good.inv.logs
  refine ⟨_, .single st, good.inv.step st, fun t => ?_, ?_, same ▸ good.grown, fun _ => raised.imp_right le.committed⟩
  · by_cases ht : t = h.term s
    · subst ht; simpa [sim.log] using room
    · simpa [Function.update_of_ne ht] using good.fits t
  · exact {
      id := sim.id
      nodup := sim.nodup
      peers := sim.peers
      term := sim.term
      log := by simp [sim.log]
      vote := sim.vote
      candidate := nofun
      leader := fun _ => {
        leads := leads
        own := by
          change set2 h.ack s (h.term s) _ s r.state.currentTerm = _
          rw [← sim.term, set2_self, sim.log]; rfl
        keys := keys
        acked := fun p => (acked p).trans (le.ack ..)
        next := fun p hp => ⟨(next p hp).1, by have := (next p hp).2; simp; omega⟩ }
      commit := fun low => by
        obtain ⟨inside, decided⟩ := sim.commit low
        rw [same]
        refine ⟨by simp; omega, ?_⟩
        change Decided ids _ r.state.currentTerm ((r.state.log ++ [entry]).take r.volatileState.commitIndex)
        rw [List.take_append_of_le_length inside]
        exact decided.mono le le_rfl
      sent := fun m => ⟨(sim.sent m).1, (sim.sent m).2.mono le⟩ }

theorem append (good : Good lim ids s base h r) (name : r.stateName = .leader) (entry : TLogEntry)
    (room : r.state.log.length + 1 < lim) : Moves lim ids s base h (r.append entry).2 := by
  have leads := good.sim.leader name
  have := good.extend leads.leads { entry with term := r.state.currentTerm } rfl room rfl leads.keys leads.acked
    leads.next (good.raised name)
  rwa [← name] at this

theorem startElection (good : Good lim ids s base h r) (zero : 0 ∉ ids) (mem : s ∈ ids) :
    Moves lim ids s base h (r.startElection delay now) := by
  have sim := good.sim
  have later : h.term s < r.state.currentTerm + 1 := by rw [sim.term]; omega
  have st : Step (majority ids) TLogEntry.term h s _ := .stand later
  have le := st.le good.inv.votes good.inv.logs
  have self : r.id = s := sim.id
  have pos : s ≠ 0 := fun e => zero (e ▸ mem)
  refine ⟨_, .single st, good.inv.step st, good.fits, ?_, ?_, ?_⟩
  all_goals
    rw [TRaft.startElection_eq]
  · exact {
      id := sim.id
      nodup := sim.nodup
      peers := sim.peers
      term := Function.update_self ..
      log := sim.log
      vote := fun c => by
        change set2 h.vote s (r.state.currentTerm + 1) (some s) s (r.state.currentTerm + 1) = some c ↔ r.id = c ∧ c ≠ 0
        rw [set2_self, Option.some.injEq, self]
        constructor
        · rintro rfl; exact ⟨rfl, pos⟩
        · exact fun e => e.1
      candidate := fun _ => {
        stood := by
          change set2 h.stand s (r.state.currentTerm + 1) (some (h.log s)) s (r.state.currentTerm + 1) = _
          rw [set2_self, sim.log]; rfl
        notYet := fun leads => by
          have := good.inv.votes.leadTerm leads
          rw [sim.term] at this
          exact Nat.not_succ_le_self _ this
        votes := fun v hv => absurd (show v ∈ (∅ : Finset ℕ) from hv) (Finset.notMem_empty v) }
      leader := nofun
      commit := fun low => ⟨(sim.commit low).1, (sim.commit low).2.mono le (Nat.le_succ _)⟩
      sent := fun m => by
        have m := sim.sent (by simpa [TRaft.commit, TRaft.emit, TRaft.makeElection] using m)
        exact ⟨m.1, m.2.mono le⟩ }
  · exact good.grown
  · nofun

/-- The votes of a winner and its own are a vote quorum. -/
theorem elected (good : Good lim ids s base h r) (mem : s ∈ ids) (wins : r.wins) :
    r.stateName = .candidate ∧ (majority ids).vote (insert s r.volatileState.votes) ∧
      ∀ v ∈ insert s r.volatileState.votes, h.vote v (h.term s) = some s := by
  have sim := good.sim
  rw [TRaft.wins, decide_eq_true_iff] at wins
  obtain ⟨name, many⟩ := wins
  have candidacy := sim.candidate name
  have notSelf : s ∉ r.volatileState.votes := fun hs => Finset.ne_of_mem_erase (candidacy.votes s hs).1 rfl
  refine ⟨name, ⟨fun v hv => ?_, ?_⟩, fun v hv => ?_⟩
  · rcases Finset.mem_insert.mp hv with rfl | hv
    · exact mem
    · exact Finset.mem_of_mem_erase (candidacy.votes v hv).1
  · have servers := sim.nservers mem
    rw [Finset.card_insert_of_notMem notSelf]
    unfold TRaft.minVotes at many
    unfold TRaft.nservers at servers
    omega
  · rw [sim.term]
    rcases Finset.mem_insert.mp hv with rfl | hv
    · exact good.inv.votes.standVote candidacy.stood
    · exact (candidacy.votes v hv).2

/-- A winner leads with the log it stood with, and appends the empty entry of its term. -/
theorem becomeLeader (good : Good lim ids s base h r) (mem : s ∈ ids) (wins : r.wins)
    (same : r.volatileState.commitIndex = base) (room : r.state.log.length + 1 < lim) :
    Moves lim ids s base h r.becomeLeader := by
  have sim := good.sim
  obtain ⟨name, quorum, votes⟩ := good.elected mem wins
  have candidacy := sim.candidate name
  have win : Step (majority ids) TLogEntry.term h s _ := .win quorum votes
    (by rw [sim.term, sim.log]; exact candidacy.stood) (by rw [sim.term]; exact candidacy.notYet)
  have le := win.le good.inv.votes good.inv.logs
  -- between the two actions the server counts as a follower, of which nothing is asked
  have won : Good lim ids s base _ { r with stateName := .follower } := {
    inv := good.inv.step win
    fits := fun t => by
      by_cases ht : t = h.term s
      · subst ht
        simp only [Function.update_self, sim.log]
        omega
      · simpa [Function.update_of_ne ht] using good.fits t
    sim := { sim with
      candidate := nofun
      leader := nofun
      commit := fun low => ⟨(sim.commit low).1, (sim.commit low).2.mono le le_rfl⟩
      sent := fun m => ⟨(sim.sent m).1, (sim.sent m).2.mono le⟩ }
    grown := good.grown
    raised := nofun }
  obtain ⟨h', ev, good'⟩ := won.extend (v := r.becomeLeader.volatileState)
    (by rw [← sim.term]; exact Function.update_self ..) { term := r.state.currentTerm, flags := eStub } rfl room rfl
    (fun p hp => absurd hp (AList.notMem_empty p)) (fun p => Nat.zero_le _)
    (fun p hp => by
      change 1 ≤ (if p ∈ r.nodes then _ else 0) ∧ (if p ∈ r.nodes then _ else 0) ≤ _
      rw [if_pos (sim.mem_nodes.mpr hp), r.state.index_eq]
      exact ⟨by omega, le_rfl⟩)
    (.inl same)
  exact ⟨h', .head win ev, good'⟩

/-! ## Whole calls -/

theorem dispatch (good : Good lim ids s base h r) (small : lim ≤ 2 ^ 63) (zero : 0 ∉ ids) (mem : s ∈ ids)
    (peer : x ∈ ids.erase s) {m : TMessage} (sound : Sound lim ids h x s m) :
    Moves lim ids s base h (r.dispatch delay now m) := by
  have taken := r.dispatched delay now m
  generalize r.dispatch delay now m = r' at taken ⊢
  cases taken with
  | ignored => exact good.stay
  | unknown => exact Good.stay { good with sim := good.sim.fault .unknownState }
  | requestVote ex body => exact good.onRequestVote zero peer sound
  | vote name ex body => exact good.onRequestVoteResponse name peer sound
  | appendEntries ex body => exact good.onAppendEntries small peer sound
  | appended name ex body => exact good.onAppendEntriesResponse small mem name peer sound

theorem process (good : Good lim ids s base h r) (small : lim ≤ 2 ^ 63) (zero : 0 ∉ ids) (mem : s ∈ ids)
    (peer : x ∈ ids.erase s) {m : TMessage} (sound : Sound lim ids h x s m) :
    Moves lim ids s base h (r.process delay now m) :=
  good.then (good.adoptTerm m.ex?) fun _ le good' => good'.dispatch small zero mem peer (sound.mono le)

theorem dispatchTimeout (good : Good lim ids s base h r) (small : lim ≤ 2 ^ 63) (mem : s ∈ ids)
    (due : r.stateName = .follower → now < r.volatileState.electionDue) :
    Moves lim ids s base h (r.dispatchTimeout now) := by
  have taken := r.ticking now
  generalize r.dispatchTimeout now = r' at taken ⊢
  cases taken with
  | waits => exact good.stay
  | stands name early => exact absurd early (due name).not_ge
  | asks name => exact (good.candidateTimeout name).stay
  | pings name => exact good.leaderTimeout small mem name
  | unknown => exact Good.stay { good with sim := good.sim.fault .unknownState }

end Good

theorem TRaft.commitIndex_startElection (now : Time) (r : TRaft) :
    (r.startElection delay now).volatileState.commitIndex = r.volatileState.commitIndex := by
  rw [TRaft.startElection_eq]

namespace Good

/-- The second and third part of `ProcessTimeout`. -/
theorem finishTimeout (good : Good lim ids s base h r) (small : lim ≤ 2 ^ 63) (mem : s ∈ ids)
    (same : r.volatileState.commitIndex = base) (due : r.stateName = .follower → now < r.volatileState.electionDue)
    (room : (if r.wins then r.becomeLeader else r).state.log.length < lim) :
    Moves lim ids s base h ((if r.wins then r.becomeLeader else r).dispatchTimeout now) := by
  split
  · rename_i wins
    have room : r.state.log.length + 1 < lim := by simpa [wins, TRaft.becomeLeader] using room
    exact good.then (good.becomeLeader mem wins same room) fun _ _ good' => good'.dispatchTimeout small mem nofun
  · exact good.dispatchTimeout small mem due

theorem processTimeout (good : Good lim ids s r.volatileState.commitIndex h r) (small : lim ≤ 2 ^ 63) (zero : 0 ∉ ids)
    (mem : s ∈ ids) (room : (r.processTimeout delay now).state.log.length < lim) :
    Moves lim ids s r.volatileState.commitIndex h (r.processTimeout delay now) := by
  have waits := @TRaft.follower_waits delay now r
  unfold TRaft.processTimeout at room ⊢
  dsimp only at room ⊢
  rw [TRaft.state_dispatchTimeout] at room
  by_cases due : r.electionIsDue now
  · rw [if_pos due] at room waits ⊢
    have started : Moves lim ids s _ h (r.startElection delay now) := good.startElection zero mem
    apply good.then started
    intro _ _ good'
    exact good'.finishTimeout small mem (TRaft.commitIndex_startElection now r) waits room
  · rw [if_neg due] at room waits ⊢
    exact good.finishTimeout small mem rfl waits room

theorem restart (good : Good lim ids s base h r) : Good lim ids s 0 h r.restart :=
  { good with
    sim := { good.sim with
      candidate := nofun
      leader := nofun
      commit := fun _ => ⟨Nat.zero_le _, Hist.Decided.nil _⟩ }
    grown := fun _ => le_rfl
    raised := nofun }

/-- **Every call is a number of actions of the abstract history.** -/
theorem perform (good : Good lim ids s r.volatileState.commitIndex h r) (small : lim ≤ 2 ^ 63) (zero : 0 ∉ ids)
    (mem : s ∈ ids) {call : Call} (licensed : Licensed lim ids h s r call)
    (room : (r.perform delay call).state.log.length < lim) :
    Moves lim ids s r.volatileState.commitIndex h (r.perform delay call) := by
  cases call with
  | process now m =>
    obtain ⟨x, peer, sound⟩ := licensed
    exact good.process small zero mem peer sound
  | processTimeout now => exact good.processTimeout small zero mem room
  | append entry => exact good.append licensed entry (by simpa [TRaft.perform, TRaft.append] using room)
  | approveRead => exact (good.approveRead small licensed).stay

end Good

end MiniRaft
