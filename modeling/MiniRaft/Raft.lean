import MiniRaft.Volatile

/-!
# The protocol (`TRaft`)

Every method is a function on the server. What a method does to the outside (messages handed to `Send`, calls
of `State->Commit()`, a null node or a failed assertion) is appended to `effects`, which is never cleared: it
is the history of the server, and the network is what the servers ever sent. `delay` is the floating-point
part of `MakeElection`, the milliseconds drawn from a value of `rand_`.
-/

namespace MiniRaft

inductive EState where
  | none
  | candidate
  | follower
  | leader
  deriving DecidableEq, Repr

/-- How a call ends that does not return: a null `INode` or message, a failed `assert`, or the `logic_error`. -/
inductive Fault where
  | nullNode
  | nullMessage
  | assertion
  | unknownState
  deriving DecidableEq, Repr

inductive TEffect where
  | send (dst : ℕ) (message : TMessage)
  | commit (fields : TStateFields)
  | fault (cause : Fault)
  deriving DecidableEq

structure TRaft where
  id : ℕ
  nodes : List ℕ
  state : TState := {}
  volatileState : TVolatileState := {}
  seqno : ℕ := 0
  stateName : EState := .follower
  seed : UInt32 := 31337
  effects : List TEffect := []

/-- `rand_`: a 32-bit xorshift. -/
def rand_ (seed : UInt32) : UInt32 :=
  let seed := seed ^^^ (seed <<< 13)
  let seed := seed ^^^ (seed >>> 17)
  seed ^^^ (seed <<< 5)

namespace TRaft

/-- The constructor. -/
def new (state : TState) (node : ℕ) (nodes : List ℕ) : TRaft where
  id := node
  nodes := nodes
  state := state
  volatileState := { nextIndex := fun id => if id ∈ nodes then 1 else 0 }

def minVotes (r : TRaft) : ℕ := (r.nodes.length + 2 + r.nodes.length % 2) / 2

def nservers (r : TRaft) : ℕ := r.nodes.length + 1

def emit (e : TEffect) (r : TRaft) : TRaft := { r with effects := r.effects ++ [e] }

/-- `Nodes[dst]->Send(message)`. -/
def send (dst : ℕ) (message : TMessage) (r : TRaft) : TRaft :=
  if dst ∈ r.nodes then r.emit (.send dst message) else r.emit (.fault .nullNode)

/-- `State->Commit()`. -/
def commit (r : TRaft) : TRaft := r.emit (.commit r.state.toTStateFields)

/-- `Become`. -/
def become (newStateName : EState) (r : TRaft) : TRaft :=
  if r.stateName ≠ newStateName then { r with stateName := newStateName } else r

section

variable (delay : UInt32 → ℕ)

/-- `VolatileState->ElectionDue = MakeElection(now)`. -/
def makeElection (now : Time) (r : TRaft) : TRaft :=
  let seed := rand_ r.seed
  { r with seed := seed, volatileState := r.volatileState.setElectionDue (now + milliseconds (delay seed)) }

/-- `OnRequestVote(TRequestVoteRequest)`. -/
def onRequestVote (now : Time) (ex : TMessageEx) (message : TRequestVoteRequest) (r : TRaft) : TRaft :=
  if ex.term < r.state.currentTerm then
    r.send ex.src (.requestVoteResponse { src := r.id, dst := ex.src, term := r.state.currentTerm } ⟨false⟩)
  else if ex.term = r.state.currentTerm then
    let accept := decide ((r.state.votedFor = 0 ∨ r.state.votedFor = message.candidateId) ∧
      (r.state.logTerm (-1) < message.lastLogTerm ∨
        message.lastLogTerm = r.state.logTerm (-1) ∧ r.state.lastLogIndex ≤ message.lastLogIndex))
    let reply := .requestVoteResponse { src := r.id, dst := ex.src, term := r.state.currentTerm } ⟨accept⟩
    if accept then
      let r := r.makeElection delay now
      let r := { r with state := r.state.withVote r.state.currentTerm message.candidateId }
      r.commit.send ex.src reply
    else r.send ex.src reply
  else r

/-- `OnRequestVote(TRequestVoteResponse)`. -/
def onRequestVoteResponse (ex : TMessageEx) (message : TRequestVoteResponse) (r : TRaft) : TRaft :=
  if message.voteGranted ∧ ex.term = r.state.currentTerm then
    { r with volatileState := (r.volatileState.vote ex.src).setRpcDue ex.src Time.max }
  else r

/-- The test of `PrevLogIndex` and `PrevLogTerm`. -/
def fitsLog (message : TAppendEntriesRequest) (s : TState) : Bool :=
  message.prevLogIndex = 0 ∨
    message.prevLogIndex ≤ s.lastLogIndex ∧ s.logTerm (toInt64 message.prevLogIndex) = message.prevLogTerm

/-- `OnAppendEntries(TAppendEntriesRequest)`. -/
def onAppendEntries (now : Time) (ex : TMessageEx) (message : TAppendEntriesRequest) (r : TRaft) : TRaft :=
  let answer (matchIndex : ℕ) (success : Bool) : TMessage := .appendEntriesResponse
    { src := r.id, dst := ex.src, term := r.state.currentTerm, seqno := ex.seqno } { matchIndex, success }
  if ex.term < r.state.currentTerm then r.send ex.src (answer 0 false)
  else if ex.term ≠ r.state.currentTerm then r.emit (.fault .assertion)
  else
    let success := fitsLog message r.state
    let state := if success then r.state.replaceAll message.prevLogIndex message.payload else r.state
    let matchIndex := if success then message.prevLogIndex + message.payload.length else 0
    let commitIndex := if success then max r.volatileState.commitIndex message.leaderCommit
      else r.volatileState.commitIndex
    let volatileState := (r.volatileState.setLeaderId message.leaderId).setCommitIndex commitIndex
    let r := { r with state := state, volatileState := volatileState }
    ((r.makeElection delay now).become .follower).send ex.src (answer matchIndex success)

/-- `OnAppendEntries(TAppendEntriesResponse)`. -/
def onAppendEntriesResponse (ex : TMessageEx) (message : TAppendEntriesResponse) (r : TRaft) : TRaft :=
  if ex.term ≠ r.state.currentTerm then r
  else
    let v := r.volatileState
    if message.success then
      let v := v.setMatchIndex ex.src (max (v.matchOf ex.src) message.matchIndex)
      let v := ((v.setNextIndex ex.src (u64 (message.matchIndex + 1))).setRpcDue ex.src 0).setBatchSize ex.src 1024
      { r with volatileState := (v.setBackOff ex.src 1).commitAdvance r.nservers r.state ex.seqno }
    else
      let backOff := max (v.backOff ex.src) 1
      let nextIndex := if backOff.toNat < v.nextIndex ex.src then v.nextIndex ex.src - backOff.toNat else 0
      let v := ((v.setNextIndex ex.src (max 1 nextIndex)).setRpcDue ex.src 0).setBatchSize ex.src 1
      { r with volatileState := v.setBackOff ex.src (min 32768 (shiftLeft backOff)) }

/-- `CreateVote`. -/
def createVote (nodeId : ℕ) (r : TRaft) : TMessage := .requestVoteRequest
  { src := r.id, dst := nodeId, term := r.state.currentTerm }
  { lastLogIndex := r.state.lastLogIndex, lastLogTerm := r.state.lastLogTerm, candidateId := r.id }

/-- `lastIndex` of `CreateAppendEntries`, after `prevIndex`: nothing is sent while the follower's log is being
probed. `batchSize` is an `int`. -/
def batchEnd (nodeId prevIndex : ℕ) (r : TRaft) : ℕ :=
  let v := r.volatileState
  let batchSize := (max 1 (v.batchSize nodeId)).toNat % 2 ^ 31
  if u64 (v.matchOf nodeId + 1) < v.nextIndex nodeId then prevIndex
  else min (u64 (prevIndex + batchSize)) r.state.lastLogIndex

/-- `CreateAppendEntries`: the message, built before `Seqno++`. An element of the payload that the loop over the log leaves
empty, because `prevIndex` is past `lastIndex`, is a default entry here. -/
def createAppendEntries (nodeId : ℕ) (r : TRaft) : TMessage :=
  let prevIndex := u64Sub (r.volatileState.nextIndex nodeId) 1
  let lastIndex := r.batchEnd nodeId prevIndex
  let nentries := u64Sub lastIndex prevIndex % 2 ^ 32
  .appendEntriesRequest
    { src := r.id, dst := nodeId, term := r.state.currentTerm, seqno := r.seqno }
    { prevLogIndex := prevIndex
      prevLogTerm := r.state.logTerm (toInt64 prevIndex)
      leaderCommit := min r.volatileState.commitIndex lastIndex
      leaderId := r.id
      nentries := nentries
      payload := (List.range' (u64 (prevIndex + 1)) nentries).map r.state.get }

/-- `node->Send(CreateAppendEntries(id))`, with what the call leaves behind. -/
def sendAppendEntries (nodeId : ℕ) (r : TRaft) : TRaft :=
  let message := r.createAppendEntries nodeId
  { r with seqno := r.seqno + 1, volatileState := r.volatileState.touchMatch nodeId }.send nodeId message

def follower (now : Time) (message : TMessage) (r : TRaft) : TRaft :=
  match message with
  | .requestVoteRequest ex body => r.onRequestVote delay now ex body
  | .appendEntriesRequest ex body => r.onAppendEntries delay now ex body
  | _ => r

def candidate (now : Time) (message : TMessage) (r : TRaft) : TRaft :=
  match message with
  | .requestVoteResponse ex body => r.onRequestVoteResponse ex body
  | .requestVoteRequest ex body => r.onRequestVote delay now ex body
  | .appendEntriesRequest ex body => r.onAppendEntries delay now ex body
  | _ => r

def leader (now : Time) (message : TMessage) (r : TRaft) : TRaft :=
  match message with
  | .appendEntriesResponse ex body => r.onAppendEntriesResponse ex body
  | .requestVoteRequest ex body => r.onRequestVote delay now ex body
  | .appendEntriesRequest ex body => r.onAppendEntries delay now ex body
  | _ => r

/-- What `Process` does first with a message of a later term. -/
def stepDown (now : Time) (term : ℕ) (r : TRaft) : TRaft :=
  let r := { r with state := r.state.withVote term 0 }.commit
  let r := { r with stateName := .follower }
  if r.volatileState.electionDue ≤ now ∨ r.volatileState.electionDue = Time.max then r.makeElection delay now else r

/-- `Process` for a message with the given header. -/
def adoptTerm (now : Time) (header : Option TMessageEx) (r : TRaft) : TRaft :=
  match header with
  | some ex => if r.state.currentTerm < ex.term then r.stepDown delay now ex.term else r
  | none => r

/-- The `switch` of `Process`. -/
def dispatch (now : Time) (message : TMessage) (r : TRaft) : TRaft :=
  match r.stateName with
  | .follower => r.follower delay now message
  | .candidate => r.candidate delay now message
  | .leader => r.leader delay now message
  | .none => r.emit (.fault .unknownState)

/-- `Process`. -/
def process (now : Time) (message : TMessage) (r : TRaft) : TRaft :=
  (r.adoptTerm delay now message.ex?).dispatch delay now message

def followerTimeout (now : Time) (r : TRaft) : TRaft :=
  if r.volatileState.electionDue ≤ now then r.become .candidate else r

/-- One peer of `CandidateTimeout`. -/
def candidateTimeoutFor (now : Time) (r : TRaft) (id : ℕ) : TRaft :=
  if r.volatileState.rpcDue id ≤ now then
    let r := { r with volatileState := r.volatileState.setRpcDue id (now + milliseconds TTimeout.rpc) }
    r.send id (r.createVote id)
  else r

def candidateTimeout (now : Time) (r : TRaft) : TRaft := r.nodes.foldl (candidateTimeoutFor now) r

/-- One peer of `LeaderTimeout`. -/
def leaderTimeoutFor (now : Time) (r : TRaft) (id : ℕ) : TRaft :=
  let v := r.volatileState
  if v.heartbeatDue id ≤ now ∨ v.nextIndex id ≤ r.state.lastLogIndex ∧ v.rpcDue id ≤ now then
    let v := v.setHearbeatDue id (now + milliseconds (TTimeout.election / 2))
    { r with volatileState := v.setRpcDue id (now + milliseconds TTimeout.rpc) }.sendAppendEntries id
  else r

def leaderTimeout (now : Time) (r : TRaft) : TRaft :=
  let r := r.nodes.foldl (leaderTimeoutFor now) r
  if r.nservers = 1 then { r with volatileState := r.volatileState.commitAdvance r.nservers r.state 0 } else r

/-- `ApproveRead`: the number handed out, and the server after pinging every peer. -/
def approveRead (r : TRaft) : ℕ × TRaft :=
  (throughInt r.seqno, r.nodes.foldl (fun r id => r.sendAppendEntries id) r)

/-- `CommitSeqno`. -/
def commitSeqno (r : TRaft) : ℕ := r.volatileState.commitSeqno

/-- The first part of `ProcessTimeout`: a new term, a vote for oneself. -/
def startElection (now : Time) (r : TRaft) : TRaft :=
  let next : TVolatileState :=
    { nextIndex := fun id => if id ∈ r.nodes then 1 else 0, commitIndex := r.volatileState.commitIndex }
  let r := { r with volatileState := next }.makeElection delay now
  let r := { r with state := r.state.withVote (r.state.currentTerm + 1) r.id }
  r.commit.become .candidate

/-- The second part of `ProcessTimeout`: a candidate with enough votes leads, and adds an empty entry. -/
def becomeLeader (r : TRaft) : TRaft :=
  { r with
    volatileState :=
      { commitIndex := r.volatileState.commitIndex
        nextIndex := fun id => if id ∈ r.nodes then r.state.lastLogIndex + 1 else 0
        rpcDue := fun id => if id ∈ r.nodes then Time.max else 0
        electionDue := Time.max }
    stateName := .leader
    state := r.state.append { term := r.state.currentTerm, flags := eStub } }

/-- The test before the first part of `ProcessTimeout`. -/
def electionIsDue (now : Time) (r : TRaft) : Bool :=
  (r.stateName = .candidate ∨ r.stateName = .follower) ∧ r.volatileState.electionDue ≤ now

/-- The test before the second part of `ProcessTimeout`. -/
def wins (r : TRaft) : Bool := r.stateName = .candidate ∧ r.minVotes ≤ r.volatileState.votes.card + 1

/-- The `switch` of `ProcessTimeout`. -/
def dispatchTimeout (now : Time) (r : TRaft) : TRaft :=
  match r.stateName with
  | .follower => r.followerTimeout now
  | .candidate => r.candidateTimeout now
  | .leader => r.leaderTimeout now
  | .none => r.emit (.fault .unknownState)

/-- `ProcessTimeout`. -/
def processTimeout (now : Time) (r : TRaft) : TRaft :=
  let r := if r.electionIsDue now then r.startElection delay now else r
  let r := if r.wins then r.becomeLeader else r
  r.dispatchTimeout now

end

/-- `Append`: the index of the new entry, and the server. -/
def append (entry : TLogEntry) (r : TRaft) : ℕ × TRaft :=
  let state := r.state.append { entry with term := r.state.currentTerm }
  (state.lastLogIndex, { r with state := state })

/-- `GetLeaderId`. -/
def getLeaderId (r : TRaft) : ℕ := r.volatileState.leaderId

/-- `GetLastIndex`. -/
def getLastIndex (r : TRaft) : ℕ := r.state.lastLogIndex

/-- The process is started again on the same stored state. -/
def restart (r : TRaft) : TRaft := { new r.state r.id r.nodes with effects := r.effects }

/-! ## What the methods leave alone -/

@[simp] theorem stateName_send (d : ℕ) (m : TMessage) (r : TRaft) : (r.send d m).stateName = r.stateName := by
  unfold send; split <;> rfl

@[simp] theorem state_send (d : ℕ) (m : TMessage) (r : TRaft) : (r.send d m).state = r.state := by
  unfold send; split <;> rfl

@[simp] theorem volatileState_send (d : ℕ) (m : TMessage) (r : TRaft) :
    (r.send d m).volatileState = r.volatileState := by
  unfold send; split <;> rfl

@[simp] theorem nodes_send (d : ℕ) (m : TMessage) (r : TRaft) : (r.send d m).nodes = r.nodes := by
  unfold send; split <;> rfl

@[simp] theorem id_send (d : ℕ) (m : TMessage) (r : TRaft) : (r.send d m).id = r.id := by
  unfold send; split <;> rfl

theorem effects_send (d : ℕ) (m : TMessage) (r : TRaft) :
    (r.send d m).effects = r.effects ++ [if d ∈ r.nodes then .send d m else .fault .nullNode] := by
  unfold send; split <;> rfl

@[simp] theorem seqno_send (d : ℕ) (m : TMessage) (r : TRaft) : (r.send d m).seqno = r.seqno := by
  unfold send; split <;> rfl

@[simp] theorem id_sendAppendEntries (d : ℕ) (r : TRaft) : (r.sendAppendEntries d).id = r.id := id_send ..

@[simp] theorem nodes_sendAppendEntries (d : ℕ) (r : TRaft) : (r.sendAppendEntries d).nodes = r.nodes := nodes_send ..

@[simp] theorem state_sendAppendEntries (d : ℕ) (r : TRaft) : (r.sendAppendEntries d).state = r.state := state_send ..

@[simp] theorem stateName_sendAppendEntries (d : ℕ) (r : TRaft) : (r.sendAppendEntries d).stateName = r.stateName :=
  stateName_send ..

@[simp] theorem volatileState_sendAppendEntries (d : ℕ) (r : TRaft) :
    (r.sendAppendEntries d).volatileState = r.volatileState.touchMatch d := volatileState_send ..

@[simp] theorem seqno_sendAppendEntries (d : ℕ) (r : TRaft) : (r.sendAppendEntries d).seqno = r.seqno + 1 :=
  seqno_send ..

theorem become_eq (name : EState) (r : TRaft) : r.become name = { r with stateName := name } := by
  unfold become
  split
  · rfl
  · rename_i same
    obtain rfl : r.stateName = name := by simpa using same
    rfl

/-! ## Elections -/

section

variable {delay : UInt32 → ℕ} {now : Time} {ex : TMessageEx} {message : TAppendEntriesRequest} {r : TRaft}

theorem startElection_eq (now : Time) (r : TRaft) :
    r.startElection delay now =
      { r with
        seed := rand_ r.seed
        volatileState :=
          { nextIndex := fun id => if id ∈ r.nodes then 1 else 0
            commitIndex := r.volatileState.commitIndex
            electionDue := now + milliseconds (delay (rand_ r.seed)) }
        state := r.state.withVote (r.state.currentTerm + 1) r.id
        effects := r.effects ++ [.commit (r.state.withVote (r.state.currentTerm + 1) r.id).toTStateFields]
        stateName := .candidate } := by
  unfold startElection
  dsimp only
  rw [become_eq]
  rfl

/-- After the first part of `ProcessTimeout` a follower has time left. -/
theorem follower_waits (now : Time) (r : TRaft)
    (name : (if r.electionIsDue now then r.startElection delay now else r).stateName = .follower) :
    now < (if r.electionIsDue now then r.startElection delay now else r).volatileState.electionDue := by
  by_cases due : r.electionIsDue now
  · rw [if_pos due, startElection_eq] at name
    cases name
  · rw [if_neg due] at name ⊢
    rw [electionIsDue, decide_eq_true_iff] at due
    exact Nat.not_le.mp fun le => due ⟨.inr name, le⟩

/-- **What `OnRequestVote` does with a request.** -/
inductive Voting (delay : UInt32 → ℕ) (now : Time) (ex : TMessageEx) (message : TRequestVoteRequest) (r : TRaft) :
    TRaft → Prop where
  | refused : Voting delay now ex message r
      (r.send ex.src (.requestVoteResponse { src := r.id, dst := ex.src, term := r.state.currentTerm } ⟨false⟩))
  | granted (present : ex.term = r.state.currentTerm)
      (free : r.state.votedFor = 0 ∨ r.state.votedFor = message.candidateId)
      (fresh : r.state.logTerm (-1) < message.lastLogTerm ∨
        message.lastLogTerm = r.state.logTerm (-1) ∧ r.state.lastLogIndex ≤ message.lastLogIndex) :
      Voting delay now ex message r
        ({ r.makeElection delay now with
            state := r.state.withVote r.state.currentTerm message.candidateId }.commit.send ex.src
          (.requestVoteResponse { src := r.id, dst := ex.src, term := r.state.currentTerm } ⟨true⟩))
  | ignored (late : r.state.currentTerm < ex.term) : Voting delay now ex message r r

theorem voting (delay : UInt32 → ℕ) (now : Time) (ex : TMessageEx) (message : TRequestVoteRequest) (r : TRaft) :
    Voting delay now ex message r (r.onRequestVote delay now ex message) := by
  unfold onRequestVote
  split
  · exact .refused
  split
  · rename_i present
    dsimp only
    split
    · rename_i accept
      rw [accept]
      rw [decide_eq_true_iff] at accept
      exact .granted present accept.1 accept.2
    · rename_i refuse
      rw [Bool.not_eq_true] at refuse
      rw [refuse]
      exact .refused
  · exact .ignored (by omega)

/-- **What `OnRequestVote` does with a response.** -/
inductive Polling (ex : TMessageEx) (message : TRequestVoteResponse) (r : TRaft) : TRaft → Prop where
  | counted (granted : message.voteGranted) (present : ex.term = r.state.currentTerm) :
      Polling ex message r { r with volatileState := (r.volatileState.vote ex.src).setRpcDue ex.src Time.max }
  | ignored (drops : ¬ (message.voteGranted ∧ ex.term = r.state.currentTerm)) : Polling ex message r r

theorem polling (ex : TMessageEx) (message : TRequestVoteResponse) (r : TRaft) :
    Polling ex message r (r.onRequestVoteResponse ex message) := by
  unfold onRequestVoteResponse
  split
  · rename_i counts
    exact .counted counts.1 counts.2
  · rename_i drops
    exact .ignored drops

/-! ## Batches -/

theorem batchEnd_le {d k : ℕ} (high : k ≤ r.state.log.length) : r.batchEnd d k ≤ r.state.log.length := by
  unfold batchEnd
  dsimp only
  split
  · exact high
  · exact (min_le_right ..).trans r.state.index_eq.le

/-- A batch within the log is no longer than an `int` is big. -/
theorem le_batchEnd {d k : ℕ} (high : k ≤ r.state.log.length) (small : r.state.log.length < maxLogSize) :
    k ≤ r.batchEnd d k ∧ r.batchEnd d k < k + 2 ^ 31 := by
  unfold maxLogSize at small
  unfold batchEnd
  dsimp only
  rw [r.state.index_eq, u64_of_lt (n := k + _) (by omega)]
  split <;> omega

/-- **What `CreateAppendEntries` builds** where `NextIndex` is one past an index of the log. -/
theorem createAppendEntries_eq {d k : ℕ} (next : r.volatileState.nextIndex d = k + 1) (high : k ≤ r.state.log.length)
    (small : r.state.log.length < maxLogSize) :
    r.createAppendEntries d = .appendEntriesRequest
      { src := r.id, dst := d, term := r.state.currentTerm, seqno := r.seqno }
      { prevLogIndex := k
        prevLogTerm := Lib.termAt TLogEntry.term r.state.log k
        leaderCommit := min r.volatileState.commitIndex (r.batchEnd d k)
        leaderId := r.id
        nentries := r.batchEnd d k - k
        payload := (r.state.log.drop k).take (r.batchEnd d k - k) } := by
  have last := batchEnd_le (d := d) high
  obtain ⟨reach, most⟩ := le_batchEnd (d := d) high small
  unfold maxLogSize at small
  have prev : u64Sub (r.volatileState.nextIndex d) 1 = k := by
    rw [next, u64Sub_of_le (Nat.le_add_left ..) (by omega), Nat.add_sub_cancel]
  have count : u64Sub (r.batchEnd d k) k % 2 ^ 32 = r.batchEnd d k - k := by
    rw [u64Sub_of_le reach (by omega), Nat.mod_eq_of_lt (by omega)]
  unfold createAppendEntries
  dsimp only
  rw [prev, count, u64_of_lt (by omega), r.state.logTerm_eq (by omega), r.state.map_get_range (by omega)]

/-! ## Requests to append -/

/-- The server with what a request of the present term leaves behind, before it answers. -/
def heard (delay : UInt32 → ℕ) (now : Time) (leaderId commitIndex : ℕ) (state : TState) (r : TRaft) : TRaft :=
  { r with
    state := state
    volatileState := ((r.volatileState.setLeaderId leaderId).setCommitIndex commitIndex).setElectionDue
      (now + milliseconds (delay (rand_ r.seed)))
    seed := rand_ r.seed
    stateName := .follower }

theorem nodes_heard (delay : UInt32 → ℕ) (now : Time) (leaderId commitIndex : ℕ) (state : TState) (r : TRaft) :
    (r.heard delay now leaderId commitIndex state).nodes = r.nodes := rfl

/-- The answer to a request. -/
def reply (ex : TMessageEx) (matchIndex : ℕ) (success : Bool) (r : TRaft) : TMessage := .appendEntriesResponse
  { src := r.id, dst := ex.src, term := r.state.currentTerm, seqno := ex.seqno } { matchIndex, success }

theorem onAppendEntries_fits (present : ex.term = r.state.currentTerm) (fits : fitsLog message r.state) :
    r.onAppendEntries delay now ex message =
      (r.heard delay now message.leaderId (max r.volatileState.commitIndex message.leaderCommit)
        (r.state.replaceAll message.prevLogIndex message.payload)).send ex.src
          (r.reply ex (message.prevLogIndex + message.payload.length) true) := by
  unfold onAppendEntries
  dsimp only
  rw [if_neg (by omega), if_neg (not_not_intro present), become_eq]
  simp only [fits, if_true]
  rfl

theorem onAppendEntries_rejects (present : ex.term = r.state.currentTerm) (fits : ¬ fitsLog message r.state) :
    r.onAppendEntries delay now ex message =
      (r.heard delay now message.leaderId r.volatileState.commitIndex r.state).send ex.src (r.reply ex 0 false) := by
  unfold onAppendEntries
  dsimp only
  rw [if_neg (by omega), if_neg (not_not_intro present), become_eq]
  simp only [fits, Bool.false_eq_true, if_false]
  rfl

/-- **What `OnAppendEntries` does with a request.** -/
inductive Appending (delay : UInt32 → ℕ) (now : Time) (ex : TMessageEx) (message : TAppendEntriesRequest) (r : TRaft) :
    TRaft → Prop where
  | outdated (early : ex.term < r.state.currentTerm) :
      Appending delay now ex message r (r.send ex.src (r.reply ex 0 false))
  | unexpected (late : r.state.currentTerm < ex.term) : Appending delay now ex message r (r.emit (.fault .assertion))
  | merged (present : ex.term = r.state.currentTerm) (fits : fitsLog message r.state) :
      Appending delay now ex message r
        ((r.heard delay now message.leaderId (max r.volatileState.commitIndex message.leaderCommit)
          (r.state.replaceAll message.prevLogIndex message.payload)).send ex.src
            (r.reply ex (message.prevLogIndex + message.payload.length) true))
  | rejected (present : ex.term = r.state.currentTerm) (fails : ¬ fitsLog message r.state) :
      Appending delay now ex message r
        ((r.heard delay now message.leaderId r.volatileState.commitIndex r.state).send ex.src (r.reply ex 0 false))

theorem appending (delay : UInt32 → ℕ) (now : Time) (ex : TMessageEx) (message : TAppendEntriesRequest) (r : TRaft) :
    Appending delay now ex message r (r.onAppendEntries delay now ex message) := by
  rcases lt_trichotomy ex.term r.state.currentTerm with early | present | late
  · have same : r.onAppendEntries delay now ex message = r.send ex.src (r.reply ex 0 false) := by
      unfold onAppendEntries
      dsimp only
      rw [if_pos early]
      rfl
    exact same ▸ .outdated early
  · by_cases fits : fitsLog message r.state
    · exact onAppendEntries_fits present fits ▸ .merged present fits
    · exact onAppendEntries_rejects present fits ▸ .rejected present fits
  · have same : r.onAppendEntries delay now ex message = r.emit (.fault .assertion) := by
      unfold onAppendEntries
      dsimp only
      rw [if_neg late.not_gt, if_pos late.ne']
    exact same ▸ .unexpected late

/-! ## Responses -/

/-- **What `OnAppendEntries` does with a response.** -/
inductive Responding (ex : TMessageEx) (message : TAppendEntriesResponse) (r : TRaft) : TRaft → Prop where
  | outdated (other : ex.term ≠ r.state.currentTerm) : Responding ex message r r
  | matched (present : ex.term = r.state.currentTerm) (success : message.success) :
      Responding ex message r { r with
        volatileState := (r.volatileState.matched ex.src message.matchIndex).commitAdvance r.nservers r.state ex.seqno }
  | failed (present : ex.term = r.state.currentTerm) (failure : message.success = false) :
      Responding ex message r { r with volatileState := r.volatileState.steppedBack ex.src }

theorem responding (ex : TMessageEx) (message : TAppendEntriesResponse) (r : TRaft) :
    Responding ex message r (r.onAppendEntriesResponse ex message) := by
  unfold onAppendEntriesResponse
  split
  · rename_i other
    exact .outdated other
  rename_i present
  rw [not_not] at present
  dsimp only
  split
  · rename_i success
    exact .matched present success
  · rename_i failure
    exact .failed present (Bool.eq_false_of_not_eq_true failure)

/-! ## Messages -/

/-- The server after a message of a later term, its timer apart. -/
def demoted (term : ℕ) (r : TRaft) : TRaft :=
  { r with
    state := r.state.withVote term 0
    effects := r.effects ++ [.commit (r.state.withVote term 0).toTStateFields]
    stateName := .follower }

/-- **What `Process` does first with a message.** -/
inductive Adopting (delay : UInt32 → ℕ) (now : Time) (r : TRaft) : Option TMessageEx → TRaft → Prop where
  | known {header : Option TMessageEx} (le : ∀ ex ∈ header, ex.term ≤ r.state.currentTerm) :
      Adopting delay now r header r
  | armed {ex : TMessageEx} (later : r.state.currentTerm < ex.term) :
      Adopting delay now r (some ex) ((r.demoted ex.term).makeElection delay now)
  | running {ex : TMessageEx} (later : r.state.currentTerm < ex.term) (waits : now < r.volatileState.electionDue)
      (set : r.volatileState.electionDue ≠ Time.max) : Adopting delay now r (some ex) (r.demoted ex.term)

theorem adopting (delay : UInt32 → ℕ) (now : Time) (header : Option TMessageEx) (r : TRaft) :
    Adopting delay now r header (r.adoptTerm delay now header) := by
  unfold adoptTerm
  split
  · rename_i ex
    split
    · rename_i later
      unfold stepDown
      dsimp only
      split
      · exact .armed later
      · rename_i waits
        rw [not_or, not_le] at waits
        exact .running later waits.1 waits.2
    · rename_i early
      exact .known fun _ same => Option.some.inj same ▸ Nat.not_lt.mp early
  · exact .known nofun

/-- **What the `switch` of `Process` does with a message**: whatever the role, one handler at most sees it. -/
inductive Dispatched (delay : UInt32 → ℕ) (now : Time) (r : TRaft) : TMessage → TRaft → Prop where
  | ignored (m : TMessage) : Dispatched delay now r m r
  | unknown (m : TMessage) : Dispatched delay now r m (r.emit (.fault .unknownState))
  | requestVote (ex : TMessageEx) (body : TRequestVoteRequest) :
      Dispatched delay now r (.requestVoteRequest ex body) (r.onRequestVote delay now ex body)
  | vote (name : r.stateName = .candidate) (ex : TMessageEx) (body : TRequestVoteResponse) :
      Dispatched delay now r (.requestVoteResponse ex body) (r.onRequestVoteResponse ex body)
  | appendEntries (ex : TMessageEx) (body : TAppendEntriesRequest) :
      Dispatched delay now r (.appendEntriesRequest ex body) (r.onAppendEntries delay now ex body)
  | appended (name : r.stateName = .leader) (ex : TMessageEx) (body : TAppendEntriesResponse) :
      Dispatched delay now r (.appendEntriesResponse ex body) (r.onAppendEntriesResponse ex body)

theorem dispatched (delay : UInt32 → ℕ) (now : Time) (m : TMessage) (r : TRaft) :
    Dispatched delay now r m (r.dispatch delay now m) := by
  unfold dispatch
  split
  · unfold follower
    split
    · exact .requestVote ..
    · exact .appendEntries ..
    · exact .ignored _
  · rename_i name
    unfold candidate
    split
    · exact .vote name ..
    · exact .requestVote ..
    · exact .appendEntries ..
    · exact .ignored _
  · rename_i name
    unfold leader
    split
    · exact .appended name ..
    · exact .requestVote ..
    · exact .appendEntries ..
    · exact .ignored _
  · exact .unknown _

/-! ## Loops over the peers -/

section

variable {P : TRaft → Prop}

/-- **Rule for `ApproveRead`.** -/
theorem approveRead_rule (pings : ∀ {r' id}, id ∈ r.nodes → P r' → P (r'.sendAppendEntries id)) (kept : P r) :
    P r.approveRead.2 :=
  List.foldlRecOn (motive := P) r.nodes _ kept fun _ kept _ peer => pings peer kept

/-- **Rule for `CandidateTimeout`.** -/
theorem candidateTimeout_rule (asks : ∀ {r' id} (due : Time), id ∈ r.nodes → P r' →
      P ({ r' with volatileState := r'.volatileState.setRpcDue id due }.send id (r'.createVote id))) (kept : P r) :
    P (r.candidateTimeout now) := by
  apply List.foldlRecOn (motive := P) r.nodes _ kept
  intro r' kept id peer
  unfold candidateTimeoutFor
  split
  · exact asks _ peer kept
  · exact kept

/-- The loop of `LeaderTimeout`. -/
theorem heartbeats_rule {ids : List ℕ} (pings : ∀ {r' id} (heartbeat rpc : Time), id ∈ ids → P r' →
      P ({ r' with
        volatileState := (r'.volatileState.setHearbeatDue id heartbeat).setRpcDue id rpc }.sendAppendEntries id))
    (kept : P r) : P (ids.foldl (leaderTimeoutFor now) r) := by
  apply List.foldlRecOn (motive := P) ids _ kept
  intro r' kept id peer
  unfold leaderTimeoutFor
  dsimp only
  split
  · exact pings _ _ peer kept
  · exact kept

/-- **Rule for `LeaderTimeout`.** -/
theorem leaderTimeout_rule (pings : ∀ {r' id} (heartbeat rpc : Time), id ∈ r.nodes → P r' →
      P ({ r' with
        volatileState := (r'.volatileState.setHearbeatDue id heartbeat).setRpcDue id rpc }.sendAppendEntries id))
    (advances : ∀ {r' : TRaft}, r'.nservers = 1 → P r' →
      P { r' with volatileState := r'.volatileState.commitAdvance r'.nservers r'.state 0 }) (kept : P r) :
    P (r.leaderTimeout now) := by
  have pinged : P (r.nodes.foldl (leaderTimeoutFor now) r) := heartbeats_rule pings kept
  unfold leaderTimeout
  dsimp only
  split
  · rename_i alone
    exact advances alone pinged
  · exact pinged

end

/-! ## Timeouts -/

/-- **What the `switch` of `ProcessTimeout` does.** -/
inductive Ticking (now : Time) (r : TRaft) : TRaft → Prop where
  | waits (name : r.stateName = .follower) (early : now < r.volatileState.electionDue) : Ticking now r r
  | stands (name : r.stateName = .follower) (due : r.volatileState.electionDue ≤ now) :
      Ticking now r { r with stateName := .candidate }
  | asks (name : r.stateName = .candidate) : Ticking now r (r.candidateTimeout now)
  | pings (name : r.stateName = .leader) : Ticking now r (r.leaderTimeout now)
  | unknown (name : r.stateName = .none) : Ticking now r (r.emit (.fault .unknownState))

theorem ticking (now : Time) (r : TRaft) : Ticking now r (r.dispatchTimeout now) := by
  unfold dispatchTimeout
  split
  · rename_i name
    unfold followerTimeout
    split
    · rename_i due
      rw [become_eq]
      exact .stands name due
    · rename_i early
      exact .waits name (Nat.not_le.mp early)
  · rename_i name
    exact .asks name
  · rename_i name
    exact .pings name
  · rename_i name
    exact .unknown name

/-- **What a timeout may do to a server of which `P` holds**, whatever its role. -/
structure TimeoutInvariant (nodes : List ℕ) (P : TRaft → Prop) : Prop where
  asks {r : TRaft} {id : ℕ} (due : Time) : id ∈ nodes → P r →
    P ({ r with volatileState := r.volatileState.setRpcDue id due }.send id (r.createVote id))
  pings {r : TRaft} {id : ℕ} (heartbeat rpc : Time) : id ∈ nodes → P r →
    P ({ r with
      volatileState := (r.volatileState.setHearbeatDue id heartbeat).setRpcDue id rpc }.sendAppendEntries id)
  advances {r : TRaft} : r.nservers = 1 → P r →
    P { r with volatileState := r.volatileState.commitAdvance r.nservers r.state 0 }
  fails {r : TRaft} : P r → P (r.emit (.fault .unknownState))

namespace TimeoutInvariant

variable {P : TRaft → Prop}

/-- Nothing of a timeout but its first two parts touches the stored state. -/
theorem ofState (nodes : List ℕ) (Q : TState → Prop) : TimeoutInvariant nodes fun r => Q r.state where
  asks _ _ kept := by rwa [state_send]
  pings _ _ _ kept := by rwa [state_sendAppendEntries]
  advances _ kept := kept
  fails kept := kept

/-- A follower stands where its time is up. -/
theorem dispatchTimeout (inv : TimeoutInvariant r.nodes P)
    (stands : r.stateName = .follower → r.volatileState.electionDue ≤ now → P { r with stateName := .candidate })
    (kept : P r) : P (r.dispatchTimeout now) := by
  have taken := r.ticking now
  generalize r.dispatchTimeout now = r' at taken ⊢
  cases taken with
  | waits => exact kept
  | stands name due => exact stands name due
  | asks => exact candidateTimeout_rule inv.asks kept
  | pings => exact leaderTimeout_rule inv.pings inv.advances kept
  | unknown => exact inv.fails kept

/-- **`ProcessTimeout` keeps what its parts keep.** The first part leaves no follower whose time is up. -/
theorem processTimeout (inv : TimeoutInvariant r.nodes P) (waits : ¬ r.electionIsDue now → P r)
    (starts : r.electionIsDue now → P (r.startElection delay now))
    (wins : ∀ {r' : TRaft}, r'.wins → P r' → P r'.becomeLeader) : P (r.processTimeout delay now) := by
  have idle := @follower_waits delay now r
  have same : (if r.electionIsDue now then r.startElection delay now else r).nodes = r.nodes := by
    split
    · rw [startElection_eq]
    · rfl
  have started : P (if r.electionIsDue now then r.startElection delay now else r) := by
    split
    · rename_i due
      exact starts due
    · rename_i early
      exact waits early
  unfold TRaft.processTimeout
  dsimp only
  generalize (if r.electionIsDue now then r.startElection delay now else r) = r₁ at idle same started ⊢
  rw [← same] at inv
  split
  · rename_i won
    have inv : TimeoutInvariant r₁.becomeLeader.nodes P := inv
    exact inv.dispatchTimeout nofun (wins won started)
  · exact inv.dispatchTimeout (fun name due => absurd due (idle name).not_ge) started

end TimeoutInvariant

theorem state_dispatchTimeout (now : Time) (r : TRaft) : (r.dispatchTimeout now).state = r.state :=
  (TimeoutInvariant.ofState r.nodes (· = r.state)).dispatchTimeout (fun _ _ => rfl) rfl

theorem state_approveRead (r : TRaft) : r.approveRead.2.state = r.state :=
  approveRead_rule (P := fun r' => r'.state = r.state) (fun _ same => (state_sendAppendEntries ..).trans same) rfl

end

end TRaft

end MiniRaft
