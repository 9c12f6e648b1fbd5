import MiniRaft.Lib.Ranked
import MiniRaft.Merge

/-!
# Catching up

A leader and one follower exchange requests and responses without loss, and nothing else happens. The leader probes with
empty requests until the follower accepts one, and then sends the rest of its log in batches.
-/

namespace MiniRaft

open Lib

structure Replication where
  leader : TRaft
  follower : TRaft

/-- Log matching: two logs with entries of the same term at an index agree up to there. -/
def LogMatching (l m : List TLogEntry) : Prop :=
  ∀ i, 1 ≤ i → i ≤ l.length → i ≤ m.length → termAt TLogEntry.term l i = termAt TLogEntry.term m i → l.take i = m.take i

namespace Replication

/-- `MatchIndex` of the follower. -/
def matchIndex (c : Replication) : ℕ := c.leader.volatileState.matchOf c.follower.id

/-- `NextIndex` of the follower. -/
def nextIndex (c : Replication) : ℕ := c.leader.volatileState.nextIndex c.follower.id

/-- What the leader sends, without the header. -/
def request (c : Replication) : TAppendEntriesRequest :=
  match c.leader.createAppendEntries c.follower.id with
  | .appendEntriesRequest _ body => body
  | _ => {}

/-- A round: a request of the leader, and the response that the follower sends to it. -/
def exchange (delay : UInt32 → ℕ) (now : Time) (c : Replication) : Replication :=
  match c.leader.createAppendEntries c.follower.id with
  | .appendEntriesRequest ex body =>
    let leader := c.leader.sendAppendEntries c.follower.id
    let follower := c.follower.onAppendEntries delay now ex body
    match follower.effects.getLast? with
    | some (.send _ (.appendEntriesResponse ex body)) => { leader := leader.onAppendEntriesResponse ex body, follower }
    | _ => { leader, follower }
  | _ => c

/-- The follower accepts the request. -/
def accepts (c : Replication) : Bool := TRaft.fitsLog c.request c.follower.state

/-- The follower has the leader's log `l`, and the leader knows. -/
structure Agreed (l : List TLogEntry) (c : Replication) : Prop where
  matchIndex : c.matchIndex = l.length
  nextIndex : c.nextIndex = l.length + 1
  held : c.follower.state.log.take l.length = l

/-- A leader with the log `l` and a follower of the same term, whose logs match. Until the follower has accepted a
request `MatchIndex` is 0, and then it is one below `NextIndex`. -/
structure CatchingUp (l : List TLogEntry) (c : Replication) : Prop where
  peer : c.leader.id ∈ c.follower.nodes
  term : c.follower.state.currentTerm = c.leader.state.currentTerm
  log : c.leader.state.log = l
  matching : LogMatching c.follower.state.log l
  low : 1 ≤ c.nextIndex
  high : c.nextIndex ≤ l.length + 1
  phase : c.matchIndex = 0 ∨ c.nextIndex = c.matchIndex + 1
  held : l.take c.matchIndex <+: c.follower.state.log
  batch : c.leader.volatileState.batchSize c.follower.id < 2 ^ 31

/-- What is left to do: while probing the whole log and the steps back, and then the entries not yet matched. -/
def rank (l : List TLogEntry) (c : Replication) : ℕ :=
  if c.matchIndex = 0 then l.length + c.nextIndex else l.length - c.matchIndex

variable {l : List TLogEntry} {c : Replication} {delay : UInt32 → ℕ} {now : Time}

/-! ## The request -/

/-- The last index that is sent. -/
def lastIndex (c : Replication) : ℕ := c.leader.batchEnd c.follower.id c.request.prevLogIndex

/-- The request where `NextIndex` is one past an index of the log. -/
theorem request_eq {k : ℕ} (next : c.nextIndex = k + 1) (high : k ≤ c.leader.state.log.length)
    (small : c.leader.state.log.length < maxLogSize) : c.request.prevLogIndex = k ∧
      c.request.prevLogTerm = termAt TLogEntry.term c.leader.state.log k ∧
      c.request.payload = (c.leader.state.log.drop k).take (c.lastIndex - k) := by
  have built := TRaft.createAppendEntries_eq (d := c.follower.id) next high small
  unfold lastIndex request
  rw [built]
  exact ⟨rfl, rfl, rfl⟩

theorem lastIndex_eq (c : Replication) : c.lastIndex =
    if u64 (c.matchIndex + 1) < c.nextIndex then c.request.prevLogIndex
    else min (u64 (c.request.prevLogIndex + (max 1 (c.leader.volatileState.batchSize c.follower.id)).toNat % 2 ^ 31))
      c.leader.state.log.length := by
  rw [← c.leader.state.index_eq]
  unfold lastIndex TRaft.batchEnd matchIndex nextIndex
  dsimp only

/-- A request carries a piece of the log from `NextIndex` on: none of it while probing, and otherwise at least one
entry if there is one. -/
structure Carries (l : List TLogEntry) (c : Replication) : Prop where
  prev : c.request.prevLogIndex = c.nextIndex - 1
  prevTerm : c.request.prevLogTerm = termAt TLogEntry.term l c.request.prevLogIndex
  piece : ∃ n, c.request.payload = (l.drop c.request.prevLogIndex).take n
  inside : c.request.prevLogIndex + c.request.payload.length ≤ l.length
  probes : c.matchIndex + 1 < c.nextIndex → c.request.payload.length = 0
  sends : c.nextIndex = c.matchIndex + 1 → c.matchIndex < l.length → 1 ≤ c.request.payload.length

theorem CatchingUp.carries (up : CatchingUp l c) (small : l.length < maxLogSize) : Carries l c := by
  obtain ⟨low, high, batch, rfl⟩ : _ ∧ _ ∧ _ ∧ c.leader.state.log = l := ⟨up.low, up.high, up.batch, up.log⟩
  obtain ⟨k, next⟩ := Nat.exists_eq_add_of_le' low
  obtain ⟨prev, prevTerm, piece⟩ := request_eq next (by omega) small
  unfold maxLogSize at small
  have matched := up.phase
  have last := c.lastIndex_eq
  rw [prev, u64_of_lt (by omega), u64_of_lt (by omega)] at last
  have bounds : k ≤ c.lastIndex ∧ c.lastIndex ≤ c.leader.state.log.length := by
    rw [last]
    split <;> omega
  have len : c.request.payload.length = c.lastIndex - k := by
    rw [piece, List.length_take, List.length_drop]
    omega
  refine ⟨by omega, prev ▸ prevTerm, ⟨_, prev ▸ piece⟩, by omega, fun probing => ?_, fun sends more => ?_⟩
  · rw [if_pos probing] at last
    omega
  · rw [if_neg (by omega)] at last
    omega

/-! ## A round -/

/-- The header of the request. -/
def header (c : Replication) : TMessageEx :=
  { src := c.leader.id, dst := c.follower.id, term := c.leader.state.currentTerm, seqno := c.leader.seqno }

/-- The header of the response. -/
def answerHeader (c : Replication) : TMessageEx :=
  { src := c.follower.id, dst := c.leader.id, term := c.follower.state.currentTerm, seqno := c.leader.seqno }

/-- The leader when it has sent the request and got a response to it. -/
def told (c : Replication) (matchIndex : ℕ) (success : Bool) : TRaft :=
  (c.leader.sendAppendEntries c.follower.id).onAppendEntriesResponse c.answerHeader { matchIndex, success }

theorem exchange_eq (delay : UInt32 → ℕ) (now : Time) (c : Replication) : c.exchange delay now =
    match (c.follower.onAppendEntries delay now c.header c.request).effects.getLast? with
    | some (.send _ (.appendEntriesResponse ex body)) =>
      { leader := (c.leader.sendAppendEntries c.follower.id).onAppendEntriesResponse ex body
        follower := c.follower.onAppendEntries delay now c.header c.request }
    | _ => { leader := c.leader.sendAppendEntries c.follower.id
             follower := c.follower.onAppendEntries delay now c.header c.request } := by
  unfold exchange request header TRaft.createAppendEntries
  dsimp only

theorem exchange_of_answer {r : TRaft} {matchIndex : ℕ} {success : Bool} (peer : c.leader.id ∈ c.follower.nodes)
    (done : c.follower.onAppendEntries delay now c.header c.request =
      r.send c.leader.id (c.follower.reply c.header matchIndex success)) (nodes : r.nodes = c.follower.nodes) :
    c.exchange delay now =
      { leader := c.told matchIndex success
        follower := c.follower.onAppendEntries delay now c.header c.request } := by
  have sent : (c.follower.onAppendEntries delay now c.header c.request).effects.getLast? =
      some (.send c.leader.id (c.follower.reply c.header matchIndex success)) := by
    rw [done, TRaft.effects_send, if_pos (nodes ▸ peer), List.getLast?_concat]
  rw [exchange_eq, sent]
  rfl

theorem CatchingUp.exchange_accepts (up : CatchingUp l c) (accepts : c.accepts) : c.exchange delay now =
    { leader := c.told (c.request.prevLogIndex + c.request.payload.length) true
      follower := c.follower.onAppendEntries delay now c.header c.request } := by
  have present : c.header.term = c.follower.state.currentTerm := up.term.symm
  exact exchange_of_answer up.peer (TRaft.onAppendEntries_fits present accepts) (TRaft.nodes_heard ..)

theorem CatchingUp.exchange_rejects (up : CatchingUp l c) (rejects : c.accepts = false) : c.exchange delay now =
    { leader := c.told 0 false
      follower := c.follower.onAppendEntries delay now c.header c.request } := by
  have present : c.header.term = c.follower.state.currentTerm := up.term.symm
  have fails : ¬ TRaft.fitsLog c.request c.follower.state := by simpa [accepts] using rejects
  exact exchange_of_answer up.peer (TRaft.onAppendEntries_rejects present fails) (TRaft.nodes_heard ..)

/-! ## What the leader learns -/

/-- What a leader notes of the peer `d`. -/
structure Notes (d matchIndex nextIndex : ℕ) (r r' : TRaft) : Prop where
  id : r'.id = r.id
  state : r'.state = r.state
  matchIndex : r'.volatileState.matchOf d = matchIndex
  nextIndex : r'.volatileState.nextIndex d = nextIndex
  batch : r'.volatileState.batchSize d ≤ 1024

theorem notes_success {r : TRaft} {ex : TMessageEx} (present : ex.term = r.state.currentTerm) {k : ℕ}
    (small : k + 1 < 2 ^ 64) : Notes ex.src (max (r.volatileState.matchOf ex.src) k) (k + 1) r
      (r.onAppendEntriesResponse ex { matchIndex := k, success := true }) := by
  have taken := r.responding ex { matchIndex := k, success := true }
  generalize r.onAppendEntriesResponse ex { matchIndex := k, success := true } = r' at taken ⊢
  cases taken with
  | outdated other => exact absurd present other
  | matched =>
    obtain ⟨_, _, same⟩ := (r.volatileState.matched ex.src k).commitAdvance_eq r.nservers r.state ex.seqno
    rw [same]
    refine ⟨rfl, rfl, ?_, (Function.update_self ..).trans (u64_of_lt small), (Function.update_self ..).le⟩
    have stored := r.volatileState.matchOf_setMatchIndex ex.src (max (r.volatileState.matchOf ex.src) k) ex.src
    rwa [if_pos rfl] at stored
  | failed _ failure => cases failure

/-- A step back is at least one, and ends at 1. -/
theorem notes_failure {r : TRaft} {ex : TMessageEx} (present : ex.term = r.state.currentTerm) (k : ℕ) :
    ∃ nextIndex, Notes ex.src (r.volatileState.matchOf ex.src) nextIndex r
      (r.onAppendEntriesResponse ex { matchIndex := k, success := false }) ∧
      1 ≤ nextIndex ∧ (1 < r.volatileState.nextIndex ex.src → nextIndex < r.volatileState.nextIndex ex.src) := by
  have taken := r.responding ex { matchIndex := k, success := false }
  generalize r.onAppendEntriesResponse ex { matchIndex := k, success := false } = r' at taken ⊢
  cases taken with
  | outdated other => exact absurd present other
  | matched _ success => cases success
  | failed =>
    refine ⟨_, ⟨rfl, rfl, rfl, Function.update_self .., ?_⟩, le_max_left .., fun more => ?_⟩
    · exact (le_of_eq (Function.update_self ..)).trans (by decide : (1 : ℤ) ≤ 1024)
    · split <;> omega

/-- Sending changes nothing of what is noted. -/
theorem Notes.of_sent {d m n : ℕ} {r r' : TRaft} (notes : Notes d m n (r.sendAppendEntries d) r') : Notes d m n r r' :=
  { notes with
    id := notes.id.trans (TRaft.id_sendAppendEntries ..)
    state := notes.state.trans (TRaft.state_sendAppendEntries ..) }

theorem answerHeader_term (term : c.follower.state.currentTerm = c.leader.state.currentTerm) :
    c.answerHeader.term = (c.leader.sendAppendEntries c.follower.id).state.currentTerm := by
  rw [TRaft.state_sendAppendEntries]
  exact term

theorem told_success (term : c.follower.state.currentTerm = c.leader.state.currentTerm) {k : ℕ} (small : k + 1 < 2 ^ 64) :
    Notes c.follower.id (max c.matchIndex k) (k + 1) c.leader (c.told k true) := by
  have notes := (notes_success (answerHeader_term term) small).of_sent
  rwa [TRaft.volatileState_sendAppendEntries, TVolatileState.matchOf_touchMatch] at notes

theorem told_failure (term : c.follower.state.currentTerm = c.leader.state.currentTerm) (k : ℕ) :
    ∃ nextIndex, Notes c.follower.id c.matchIndex nextIndex c.leader (c.told k false) ∧ 1 ≤ nextIndex ∧
      (1 < c.nextIndex → nextIndex < c.nextIndex) := by
  obtain ⟨nextIndex, notes, low, less⟩ := notes_failure (answerHeader_term term) k
  rw [TRaft.volatileState_sendAppendEntries] at notes less
  rw [TVolatileState.matchOf_touchMatch] at notes
  exact ⟨nextIndex, notes.of_sent, low, less⟩

/-! ## What the follower stores -/

theorem onAppendEntries_same (delay : UInt32 → ℕ) (now : Time) {ex : TMessageEx} {r : TRaft}
    (present : ex.term = r.state.currentTerm) (body : TAppendEntriesRequest) :
    (r.onAppendEntries delay now ex body).id = r.id ∧
      (r.onAppendEntries delay now ex body).nodes = r.nodes ∧
      (r.onAppendEntries delay now ex body).state.currentTerm = r.state.currentTerm := by
  by_cases fits : TRaft.fitsLog body r.state
  · rw [TRaft.onAppendEntries_fits present fits, TRaft.id_send, TRaft.nodes_send, TRaft.state_send]
    exact ⟨rfl, rfl, (TState.replaceAll_fields ..).1⟩
  · rw [TRaft.onAppendEntries_rejects present fits, TRaft.id_send, TRaft.nodes_send, TRaft.state_send]
    exact ⟨rfl, rfl, rfl⟩

/-- An accepted request finds the leader's log up to `PrevLogIndex`. -/
theorem CatchingUp.take_of_accepts (up : CatchingUp l c) (carries : Carries l c) (small : l.length < maxLogSize)
    (accepts : c.accepts) : l.take c.request.prevLogIndex <+: c.follower.state.log := by
  unfold maxLogSize at small
  have inside := carries.inside
  rcases (TRaft.fitsLog_iff (by omega)).mp accepts with zero | ⟨reach, same⟩
  · rw [zero, List.take_zero]
    exact List.nil_prefix
  · rcases Nat.eq_zero_or_pos c.request.prevLogIndex with zero | pos
    · rw [zero, List.take_zero]
      exact List.nil_prefix
    · rw [carries.prevTerm] at same
      rw [← up.matching _ pos reach (by omega) same]
      exact List.take_prefix ..

/-- What an accepted request leaves in the follower's log: the leader's log up to the end of the batch. -/
theorem CatchingUp.stores (up : CatchingUp l c) (carries : Carries l c) (positive : ∀ e ∈ l, 1 ≤ e.term)
    (small : l.length < maxLogSize) (accepts : c.accepts) (delay : UInt32 → ℕ) (now : Time) :
    let s := (c.follower.onAppendEntries delay now c.header c.request).state
    l.take (c.request.prevLogIndex + c.request.payload.length) <+: s.log ∧ LogMatching s.log l := by
  have held := up.take_of_accepts carries small accepts
  have inside := carries.inside
  obtain ⟨n, piece⟩ := carries.piece
  unfold maxLogSize at small
  have matching : ∀ i, 0 < termAt TLogEntry.term l i →
      termAt TLogEntry.term c.follower.state.log i = termAt TLogEntry.term l i → c.follower.state.log.take i = l.take i := by
    intro i pos same
    obtain ⟨-, -, -, low, high⟩ := get_of_termAt_pos pos
    rw [← same] at pos
    obtain ⟨-, -, -, -, reach⟩ := get_of_termAt_pos pos
    exact up.matching i low reach high same
  have merged := TState.replaceAll_merges small positive matching c.request.payload piece (by omega) held
  have present : c.header.term = c.follower.state.currentTerm := up.term.symm
  have log : (c.follower.onAppendEntries delay now c.header c.request).state.log =
      (c.follower.state.replaceAll c.request.prevLogIndex c.request.payload).log := by
    rw [TRaft.log_of_present present]
    exact if_pos accepts
  dsimp only
  rw [log]
  refine ⟨prefix_of_merge merged, ?_⟩
  rcases merged with ⟨-, same⟩ | ⟨-, cut⟩
  · rw [same]
    exact up.matching
  · rw [cut]
    intro i low reach high same
    rw [List.take_take, Nat.min_eq_left (reach.trans (List.length_take_le ..))]

/-! ## Progress -/

/-- What a round does. -/
structure Moves (l : List TLogEntry) (matchIndex nextIndex : ℕ) (c' : Replication) : Prop where
  up : CatchingUp l c'
  matchIndex : c'.matchIndex = matchIndex
  nextIndex : c'.nextIndex = nextIndex

/-- The invariant after a round, from what the leader notes and what the follower has then. -/
theorem CatchingUp.moves (up : CatchingUp l c) {m n : ℕ} {leader : TRaft} (notes : Notes c.follower.id m n c.leader leader)
    (low : 1 ≤ n) (high : n ≤ l.length + 1) (phase : m = 0 ∨ n = m + 1)
    (held : l.take m <+: (c.follower.onAppendEntries delay now c.header c.request).state.log)
    (matching : LogMatching (c.follower.onAppendEntries delay now c.header c.request).state.log l) :
    Moves l m n { leader, follower := c.follower.onAppendEntries delay now c.header c.request } := by
  have present : c.header.term = c.follower.state.currentTerm := up.term.symm
  obtain ⟨id, nodes, term⟩ := onAppendEntries_same delay now present c.request
  rw [← id] at notes
  have matchIndex := notes.matchIndex
  refine ⟨?_, matchIndex, notes.nextIndex⟩
  constructor
  · dsimp only
    rw [notes.id, nodes]
    exact up.peer
  · dsimp only
    rw [term, notes.state]
    exact up.term
  · dsimp only
    rw [notes.state]
    exact up.log
  · exact matching
  · exact low.trans notes.nextIndex.ge
  · exact notes.nextIndex.le.trans high
  · unfold Replication.matchIndex Replication.nextIndex
    rw [matchIndex, notes.nextIndex]
    exact phase
  · unfold Replication.matchIndex
    rw [matchIndex]
    exact held
  · exact notes.batch.trans_lt (by decide)

/-- **A round in which the follower accepts.** -/
theorem CatchingUp.accepted (up : CatchingUp l c) (positive : ∀ e ∈ l, 1 ≤ e.term) (small : l.length < maxLogSize)
    (accepts : c.accepts) (delay : UInt32 → ℕ) (now : Time) :
    Moves l (c.request.prevLogIndex + c.request.payload.length) (c.request.prevLogIndex + c.request.payload.length + 1)
      (c.exchange delay now) ∧ c.matchIndex ≤ c.request.prevLogIndex := by
  have carries := up.carries small
  obtain ⟨held, matching⟩ := up.stores carries positive small accepts delay now
  have inside := carries.inside
  have prev := carries.prev
  have before : c.matchIndex ≤ c.request.prevLogIndex := by
    have := up.phase
    omega
  have notes := told_success up.term (k := c.request.prevLogIndex + c.request.payload.length) (by
    unfold maxLogSize at small
    omega)
  rw [Nat.max_eq_right (by omega)] at notes
  rw [up.exchange_accepts accepts]
  exact ⟨up.moves notes (by omega) (by omega) (.inr rfl) held matching, before⟩

/-- A request right after what is matched is accepted. -/
theorem CatchingUp.accepts_of_matched (up : CatchingUp l c) (small : l.length < maxLogSize)
    (matched : c.nextIndex = c.matchIndex + 1) : c.accepts := by
  have carries := up.carries small
  have inside := carries.inside
  have here : c.request.prevLogIndex = c.matchIndex := by
    have := carries.prev
    omega
  have len : (l.take c.matchIndex).length = c.matchIndex := by
    rw [List.length_take]
    omega
  have reach := up.held.length_le
  unfold maxLogSize at small
  unfold accepts
  rw [TRaft.fitsLog_iff (by omega)]
  refine .inr ⟨by omega, ?_⟩
  calc termAt TLogEntry.term c.follower.state.log c.request.prevLogIndex
      = termAt TLogEntry.term (l.take c.matchIndex) c.request.prevLogIndex := termAt_of_prefixed up.held (by omega)
    _ = termAt TLogEntry.term l c.request.prevLogIndex :=
        (termAt_of_prefixed (List.take_prefix ..) (by omega)).symm
    _ = c.request.prevLogTerm := carries.prevTerm.symm

/-- **A round in which the follower rejects.** It is still being probed, and beyond index 1. -/
theorem CatchingUp.rejected (up : CatchingUp l c) (small : l.length < maxLogSize) (rejects : c.accepts = false)
    (delay : UInt32 → ℕ) (now : Time) :
    ∃ n, Moves l 0 n (c.exchange delay now) ∧ c.matchIndex = 0 ∧ 1 ≤ n ∧ n < c.nextIndex := by
  have behind : c.nextIndex ≠ c.matchIndex + 1 := fun matched => by
    rw [up.accepts_of_matched small matched] at rejects
    cases rejects
  have none := up.phase.resolve_right behind
  have low := up.low
  have high := up.high
  obtain ⟨n, notes, pos, less⟩ := told_failure up.term 0
  have less := less (by omega)
  rw [none] at notes
  have present : c.header.term = c.follower.state.currentTerm := up.term.symm
  have log : (c.follower.onAppendEntries delay now c.header c.request).state.log = c.follower.state.log := by
    rw [TRaft.log_of_present present, if_neg]
    simpa [accepts] using rejects
  rw [up.exchange_rejects rejects]
  refine ⟨n, up.moves notes pos (by omega) (.inl rfl) List.nil_prefix ?_, none, pos, less⟩
  rw [log]
  exact up.matching

/-- Until the logs agree an accepted request raises `MatchIndex`. -/
theorem CatchingUp.progress (up : CatchingUp l c) (small : l.length < maxLogSize) (before : ¬ Agreed l c) :
    c.matchIndex < c.request.prevLogIndex + c.request.payload.length := by
  have carries := up.carries small
  have prev := carries.prev
  have low := up.low
  have high := up.high
  by_cases matched : c.nextIndex = c.matchIndex + 1
  · have more : c.matchIndex < l.length := by
      by_contra all
      have whole : c.matchIndex = l.length := by omega
      refine before ⟨whole, by omega, ?_⟩
      have held := up.held
      rw [whole, List.take_length] at held
      exact (List.prefix_iff_eq_take.mp held).symm
    have := carries.sends matched more
    omega
  · have := up.phase.resolve_right matched
    omega

/-- **Catching up is ranked.** -/
theorem ranked (delay : UInt32 → ℕ) (positive : ∀ e ∈ l, 1 ≤ e.term) (small : l.length < maxLogSize) :
    Ranked (CatchingUp l) (Agreed l) (rank l) fun c c' => ∃ now, c' = c.exchange delay now where
  keeps := by
    rintro c _ up ⟨now, rfl⟩
    cases accepts : c.accepts with
    | true => exact (up.accepted positive small accepts delay now).1.up
    | false =>
      obtain ⟨n, moves, -⟩ := up.rejected small accepts delay now
      exact moves.up
  stays := by
    rintro c _ up agreed ⟨now, rfl⟩
    have matched := agreed.matchIndex
    have next := agreed.nextIndex
    have carries := up.carries small
    have inside := carries.inside
    have prev := carries.prev
    obtain ⟨moves, -⟩ := up.accepted positive small (up.accepts_of_matched small (by omega)) delay now
    have all : c.request.prevLogIndex + c.request.payload.length = l.length := by omega
    rw [all] at moves
    refine ⟨moves.matchIndex, moves.nextIndex, ?_⟩
    have held := moves.up.held
    rw [moves.matchIndex, List.take_length] at held
    exact (List.prefix_iff_eq_take.mp held).symm
  less := by
    rintro c _ up before ⟨now, rfl⟩
    have low := up.low
    unfold rank
    cases accepts : c.accepts with
    | true =>
      obtain ⟨moves, -⟩ := up.accepted positive small accepts delay now
      have more := up.progress small before
      have inside := (up.carries small).inside
      rw [moves.matchIndex]
      split <;> split <;> omega
    | false =>
      obtain ⟨n, moves, none, -, less⟩ := up.rejected small accepts delay now
      rw [moves.matchIndex, moves.nextIndex, if_pos rfl, if_pos none]
      omega

end Replication

/-- A leader that begins to replicate its log to a follower of the same term: `NextIndex` is anywhere in its log or
right after it, `MatchIndex` is 0, and the terms in its log begin at 1. -/
structure Replication.Begins (c : Replication) : Prop where
  peer : c.leader.id ∈ c.follower.nodes
  term : c.follower.state.currentTerm = c.leader.state.currentTerm
  positive : ∀ e ∈ c.leader.state.log, 1 ≤ e.term
  small : c.leader.state.log.length < maxLogSize
  matching : LogMatching c.follower.state.log c.leader.state.log
  low : 1 ≤ c.nextIndex
  high : c.nextIndex ≤ c.leader.state.log.length + 1
  matchIndex : c.matchIndex = 0
  batch : c.leader.volatileState.batchSize c.follower.id < 2 ^ 31

theorem Replication.Begins.up {c : Replication} (begins : c.Begins) : CatchingUp c.leader.state.log c where
  peer := begins.peer
  term := begins.term
  log := rfl
  matching := begins.matching
  low := begins.low
  high := begins.high
  phase := .inl begins.matchIndex
  held := by
    rw [begins.matchIndex]
    exact List.nil_prefix
  batch := begins.batch

/-- **Catch-up terminates in agreement.** After at most twice as many rounds as the log has entries, and one, the leader
knows that the follower has its log, and so from then on. A rejected round moves `NextIndex` back, and not below 1; an
accepted round raises `MatchIndex` until the logs agree. -/
theorem catch_up (delay : UInt32 → ℕ) {c : ℕ → Replication} (begins : (c 0).Begins)
    (rounds : ∀ k, ∃ now, c (k + 1) = (c k).exchange delay now) :
    let log := (c 0).leader.state.log
    (∀ k, 2 * log.length + 1 ≤ k → (c k).Agreed log) ∧
    ∀ k, (c k).leader.state.log = log ∧
      ((c k).accepts = false → 1 ≤ (c (k + 1)).nextIndex ∧ (c (k + 1)).nextIndex < (c k).nextIndex) ∧
      ((c k).accepts → ¬ (c k).Agreed log → (c k).matchIndex < (c (k + 1)).matchIndex) := by
  dsimp only
  have ranked := Replication.ranked delay begins.positive begins.small
  refine ⟨fun k enough => ranked.reaches begins.up rounds ?_, fun k => ?_⟩
  · have high := begins.high
    unfold Replication.rank
    rw [if_pos begins.matchIndex]
    omega
  · have up := ranked.run begins.up rounds k
    obtain ⟨now, next⟩ := rounds k
    refine ⟨up.log, fun rejects => ?_, fun accepts before => ?_⟩
    · obtain ⟨n, moves, -, low, less⟩ := up.rejected begins.small rejects delay now
      rw [next, moves.nextIndex]
      exact ⟨low, less⟩
    · obtain ⟨moves, -⟩ := up.accepted begins.positive begins.small accepts delay now
      rw [next, moves.matchIndex]
      exact up.progress begins.small before

/-- Server 1 leads term 3 with entries of the terms 1, 1, 2 and 3, and server 2 has three entries of term 1. -/
def diverged : Replication where
  leader :=
    { id := 1
      nodes := [2]
      state := .ofLog 3 1 [{ term := 1 }, { term := 1 }, { term := 2 }, { term := 3 }]
      volatileState := { nextIndex := fun _ => 5, backOff := fun _ => 1 }
      stateName := .leader }
  follower :=
    { id := 2
      nodes := [1]
      state := .ofLog 3 0 [{ term := 1 }, { term := 1 }, { term := 1 }] }

theorem diverged_matching : LogMatching diverged.follower.state.log diverged.leader.state.log := by
  intro i low reach _ same
  change i ≤ 3 at reach
  rcases (by omega : i = 1 ∨ i = 2 ∨ i = 3) with rfl | rfl | rfl
  · rfl
  · rfl
  · exact absurd same (by decide)

theorem catch_up_diverged :
    let c := fun k => (Replication.exchange (fun _ => 5000) 0)^[k] diverged
    (c 9).follower.state.log.take 4 = diverged.leader.state.log := by
  intro c
  have begins : (c 0).Begins :=
    { peer := by decide
      term := rfl
      positive := by decide
      small := by decide
      matching := diverged_matching
      low := by decide
      high := by decide
      matchIndex := rfl
      batch := by decide }
  have rounds : ∀ k, ∃ now, c (k + 1) = (c k).exchange (fun _ => 5000) now :=
    fun k => ⟨0, Function.iterate_succ_apply' ..⟩
  exact ((catch_up (fun _ => 5000) begins rounds).1 9 le_rfl).held

end MiniRaft
