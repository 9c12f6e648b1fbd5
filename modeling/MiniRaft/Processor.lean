import MiniRaft.Raft
import MiniRaft.Rsm

/-!
# Requests of clients (`TRequestProcessor`)

A call may fail, by an `assert` or a null pointer, and then has no result. `events` is the history of what the
processor did to its clients and its state machine. A client is the number of its `INode`, and `none` is null.
-/

namespace MiniRaft

/-- `TWaiting`. `entry` is not in the source: it is the entry that `OnWriteRequest` appended for the command. -/
structure TWaiting where
  index : ℕ
  seqno : ℕ := 0
  command : TCommandRequest
  replyTo : Option ℕ
  entry : Option TLogEntry := none
  deriving DecidableEq

/-- `TAnswer`. -/
structure TAnswer where
  index : ℕ
  reply : TCommandResponse
  deriving DecidableEq

inductive TEvent where
  /-- `Rsm->Write(entry, index)` while `LastAppliedIndex` was `applied`, and what went into `WriteAnswers`. -/
  | write (index : ℕ) (entry : TLogEntry) (applied : ℕ) (reply : TCommandResponse)
  /-- An entry left out of the state machine because it is a stub. -/
  | skip (index : ℕ) (entry : TLogEntry)
  /-- A request placed in `Waiting`, or in `StrongWaiting`. -/
  | queue (strong : Bool) (request : TWaiting)
  /-- A reply that `ProcessWaiting` sent while `LastAppliedIndex` was `applied` and `CommitSeqno` was `seqno`. -/
  | answer (strong : Bool) (request : TWaiting) (applied seqno : ℕ) (reply : TCommandResponse)
  /-- Any other reply sent to a client. -/
  | respond (client : ℕ) (reply : TCommandResponse)
  /-- A command sent to the leader. -/
  | forward (leader : ℕ) (command : TCommandRequest)
  deriving DecidableEq

structure TRequestProcessor (ρ : Type*) where
  raft : TRaft
  rsm : TRsm ρ
  nodes : List ℕ
  waiting : List TWaiting := []
  strongWaiting : List TWaiting := []
  waitingStateChange : List TWaiting := []
  writeAnswers : List TAnswer := []
  forwardCookie : ℕ := 1
  cookie2Client : ℕ → Option ℕ := fun _ => none
  client2Cookie : ℕ → Option (Finset ℕ) := fun _ => none
  events : List TEvent := []

namespace TRequestProcessor

variable {ρ : Type*} (rsm : IRsm ρ)

def record (e : TEvent) (p : TRequestProcessor ρ) : TRequestProcessor ρ := { p with events := p.events ++ [e] }

/-- `Forward`. -/
def forward (command : TCommandRequest) (replyTo : Option ℕ) (p : TRequestProcessor ρ) :
    Except Fault (TRequestProcessor ρ) :=
  match replyTo with
  | none => .ok p
  | some client =>
    if command.cookie ≠ 0 then .ok (p.record (.respond client { cookie := command.cookie, errorCode := 1 }))
    else
      let leaderId := p.raft.getLeaderId
      if p.raft.stateName = .candidate ∨ leaderId = 0 then
        .ok { p with waitingStateChange := p.waitingStateChange ++ [{ index := 0, command, replyTo }] }
      else if p.raft.stateName = .follower then
        if leaderId = p.raft.id then .error .assertion
        else if leaderId ∉ p.nodes then .error .nullNode
        else
          let command := { command with cookie := max 1 p.forwardCookie }
          let cookies := insert p.forwardCookie ((p.client2Cookie client).getD ∅)
          let p := p.record (.forward leaderId command)
          .ok { p with
            cookie2Client := Function.update p.cookie2Client p.forwardCookie (some client)
            client2Cookie := Function.update p.client2Cookie client (some cookies)
            forwardCookie := (p.forwardCookie + 1) % 2 ^ 32 }
      else .error .assertion

/-- A request goes into `Waiting`. -/
def enqueue (w : TWaiting) (p : TRequestProcessor ρ) : TRequestProcessor ρ :=
  { p.record (.queue false w) with waiting := p.waiting ++ [w] }

/-- A request goes into `StrongWaiting`. -/
def enqueueStrong (w : TWaiting) (p : TRequestProcessor ρ) : TRequestProcessor ρ :=
  { p.record (.queue true w) with strongWaiting := p.strongWaiting ++ [w] }

/-- `OnReadRequest`. -/
def onReadRequest (command : TCommandRequest) (replyTo : Option ℕ) (p : TRequestProcessor ρ) :
    Except Fault (TRequestProcessor ρ) :=
  if command.isWrite then .error .assertion
  else if command.isStale ∨ ¬ command.isConsistent ∧ p.raft.stateName = .leader then
    -- stale read, default read (from leader)
    if p.waiting.getLast?.all (·.index ≤ p.raft.getLastIndex) then
      .ok (p.enqueue { index := p.raft.getLastIndex, command, replyTo })
    else .error .assertion
  else if p.raft.stateName ≠ .leader then p.forward command replyTo
  else
    -- consistent read
    let seqno := p.raft.approveRead.1
    let p := { p with raft := p.raft.approveRead.2 }
    if p.strongWaiting.getLast?.all (fun w => w.index ≤ p.raft.getLastIndex ∧ w.seqno ≤ seqno) then
      .ok (p.enqueueStrong { index := p.raft.getLastIndex, seqno, command, replyTo })
    else .error .assertion

/-- `OnWriteRequest`. -/
def onWriteRequest (command : TCommandRequest) (replyTo : Option ℕ) (p : TRequestProcessor ρ) :
    Except Fault (TRequestProcessor ρ) :=
  if ¬ command.isWrite then .error .assertion
  else if p.raft.stateName = .leader then
    let prepared := rsm.prepare command p.rsm
    let entry := { prepared.1 with term := p.raft.state.currentTerm }
    let index := (p.raft.append prepared.1).1
    let p := { p with rsm := prepared.2, raft := (p.raft.append prepared.1).2 }
    if replyTo.isSome then
      if p.waiting.getLast?.all (·.index ≤ index) then .ok (p.enqueue { index, command, replyTo, entry := some entry })
      else .error .assertion
    else .ok p
  else p.forward command replyTo

/-- `OnCommandRequest`. -/
def onCommandRequest (command : TCommandRequest) (replyTo : Option ℕ) (p : TRequestProcessor ρ) :
    Except Fault (TRequestProcessor ρ) :=
  if ¬ command.isWrite then p.onReadRequest command replyTo else p.onWriteRequest rsm command replyTo

/-- `CheckStateChange`. -/
def checkStateChange (p : TRequestProcessor ρ) : Except Fault (TRequestProcessor ρ) :=
  if p.waitingStateChange = [] then .ok p
  else if p.raft.stateName = .candidate ∨ p.raft.getLeaderId = 0 then .ok p
  else
    p.waitingStateChange.foldlM (fun p w => p.onCommandRequest rsm w.command w.replyTo) { p with waitingStateChange := [] }

/-- `OnCommandResponse`; `Client2Cookie` without the client is a dereferenced `end()`. -/
def onCommandResponse (response : TCommandResponse) (p : TRequestProcessor ρ) : Except Fault (TRequestProcessor ρ) :=
  match p.cookie2Client response.cookie with
  | none => .ok p
  | some client =>
    match p.client2Cookie client with
    | none => .error .nullNode
    | some cookies =>
      let cookies := cookies.erase response.cookie
      let p := p.record (.respond client response)
      .ok { p with
        client2Cookie := Function.update p.client2Cookie client (if cookies = ∅ then none else some cookies)
        cookie2Client := Function.update p.cookie2Client response.cookie none }

/-- `CleanUp`. -/
def cleanUp (client : ℕ) (p : TRequestProcessor ρ) : TRequestProcessor ρ :=
  match p.client2Cookie client with
  | none => p
  | some cookies =>
    { p with
      cookie2Client := fun cookie => if cookie ∈ cookies then none else p.cookie2Client cookie
      client2Cookie := Function.update p.client2Cookie client none }

/-- One round of the loop of `ProcessCommitted`. -/
def applyEntry (p : TRequestProcessor ρ) (i : ℕ) : TRequestProcessor ρ :=
  let entry := p.raft.state.get i
  if entry.flags = eStub then p.record (.skip i entry)
  else
    let written := rsm.write entry i p.rsm
    let reply := written.1.getD { index := i }
    let p := p.record (.write i entry p.rsm.lastAppliedIndex reply)
    { p with rsm := written.2, writeAnswers := p.writeAnswers ++ [{ index := i, reply }] }

/-- `ProcessCommitted`. -/
def processCommitted (p : TRequestProcessor ρ) : TRequestProcessor ρ :=
  let commitIndex := p.raft.volatileState.commitIndex
  let first := p.rsm.lastAppliedIndex + 1
  let p := (List.range' first (commitIndex + 1 - first)).foldl (applyEntry rsm) p
  { p with rsm := { p.rsm with lastAppliedIndex := commitIndex } }

/-- The answer to a waiting write: answers to earlier indices are dropped. -/
def takeAnswer (w : TWaiting) (p : TRequestProcessor ρ) : Except Fault (TCommandResponse × TRequestProcessor ρ) :=
  match p.writeAnswers.dropWhile (·.index < w.index) with
  | [] => .error .assertion
  | answer :: rest =>
    if answer.index = w.index then .ok (answer.reply, { p with writeAnswers := rest }) else .error .assertion

/-- The answer to a waiting read. -/
def readAnswer (w : TWaiting) (p : TRequestProcessor ρ) : Except Fault (TCommandResponse × TRequestProcessor ρ) :=
  match rsm.read w.command w.index p.rsm with
  | (some reply, after) => .ok (reply, { p with rsm := after })
  | (none, _) => .error .nullMessage

/-- `w.ReplyTo->Send(reply)`, with the cookie of the request. -/
def sendReply (strong : Bool) (w : TWaiting) (applied : ℕ) (reply : TCommandResponse) (p : TRequestProcessor ρ) :
    Except Fault (TRequestProcessor ρ) :=
  if w.replyTo.isSome then
    .ok (p.record (.answer strong w applied p.raft.commitSeqno { reply with cookie := w.command.cookie }))
  else .error .nullNode

/-- The body of the first loop of `ProcessWaiting`. -/
def answer (lastApplied : ℕ) (w : TWaiting) (p : TRequestProcessor ρ) : Except Fault (TRequestProcessor ρ) :=
  (if w.command.isWrite then p.takeAnswer w else p.readAnswer rsm w).bind fun (reply, p) =>
    p.sendReply false w lastApplied reply

/-- The body of the second loop of `ProcessWaiting`. -/
def answerStrong (lastApplied : ℕ) (w : TWaiting) (p : TRequestProcessor ρ) : Except Fault (TRequestProcessor ρ) :=
  if w.command.isWrite then .error .assertion
  else (p.readAnswer rsm w).bind fun (reply, p) => p.sendReply true w lastApplied reply

/-- A loop of `ProcessWaiting` over the queue that is left: `back()` is looked at, `pop()` takes the front. -/
def drain (ready : TWaiting → Bool) (body : TWaiting → TRequestProcessor ρ → Except Fault (TRequestProcessor ρ)) :
    List TWaiting → TRequestProcessor ρ → Except Fault (List TWaiting × TRequestProcessor ρ)
  | [], p => .ok ([], p)
  | front :: rest, p =>
    let back := (front :: rest).getLast (List.cons_ne_nil front rest)
    if ready back then (body back p).bind (drain ready body rest) else .ok (front :: rest, p)

/-- The first loop of `ProcessWaiting`. -/
def processQueue (lastApplied : ℕ) (p : TRequestProcessor ρ) : Except Fault (TRequestProcessor ρ) :=
  (drain (·.index ≤ lastApplied) (answer rsm lastApplied) p.waiting p).bind fun (rest, p) =>
    .ok { p with waiting := rest }

/-- The second loop of `ProcessWaiting`. -/
def processStrongQueue (lastApplied : ℕ) (p : TRequestProcessor ρ) : Except Fault (TRequestProcessor ρ) :=
  let seqno := p.raft.commitSeqno
  (drain (fun w => w.index ≤ lastApplied ∧ w.seqno ≤ seqno) (answerStrong rsm lastApplied) p.strongWaiting p).bind
    fun (rest, p) => .ok { p with strongWaiting := rest }

/-- `ProcessWaiting`. -/
def processWaiting (p : TRequestProcessor ρ) : Except Fault (TRequestProcessor ρ) :=
  let lastApplied := p.rsm.lastAppliedIndex
  (p.processQueue rsm lastApplied).bind (processStrongQueue rsm lastApplied)

end TRequestProcessor

end MiniRaft
