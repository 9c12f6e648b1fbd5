import Mathlib.Algebra.Group.Nat.Defs
import Mathlib.Data.Nat.Notation

/-!
# Messages (`messages.h`)

The headers `Type` and `Len` are not kept: the constructor is the type, and the length is that of the fields.
The payload of an `AppendEntries` request is the list of log entries it is cast to.
-/

namespace MiniRaft

/-- A point of the steady clock in nanoseconds since its epoch. -/
abbrev Time := ℕ

/-- `TLogEntry`; `flags` is `ENone = 0` or `EStub = 1`. -/
structure TLogEntry where
  term : ℕ := 1
  flags : ℕ := 0
  data : List UInt8 := []
  deriving DecidableEq, Repr, Inhabited

/-- `TLogEntry::EStub`. -/
def eStub : ℕ := 1

/-- The header of the messages servers exchange. -/
structure TMessageEx where
  src : ℕ := 0
  dst : ℕ := 0
  term : ℕ := 0
  seqno : ℕ := 0
  deriving DecidableEq, Repr

structure TRequestVoteRequest where
  lastLogIndex : ℕ
  lastLogTerm : ℕ
  candidateId : ℕ
  deriving DecidableEq, Repr

structure TRequestVoteResponse where
  voteGranted : Bool
  deriving DecidableEq, Repr

structure TAppendEntriesRequest where
  prevLogIndex : ℕ := 0
  prevLogTerm : ℕ := 0
  leaderCommit : ℕ := 0
  leaderId : ℕ := 0
  nentries : ℕ := 0
  payload : List TLogEntry := []
  deriving DecidableEq, Repr

structure TAppendEntriesResponse where
  matchIndex : ℕ
  success : Bool
  deriving DecidableEq, Repr

/-- A message given to `TRaft::Process`; `other` is any type for which `IsEx` is false. -/
inductive TMessage where
  | requestVoteRequest (ex : TMessageEx) (body : TRequestVoteRequest)
  | requestVoteResponse (ex : TMessageEx) (body : TRequestVoteResponse)
  | appendEntriesRequest (ex : TMessageEx) (body : TAppendEntriesRequest)
  | appendEntriesResponse (ex : TMessageEx) (body : TAppendEntriesResponse)
  | other
  deriving DecidableEq, Repr

/-- `Cast<TMessageEx>` where `IsEx` holds. -/
def TMessage.ex? : TMessage → Option TMessageEx
  | .requestVoteRequest ex _ | .requestVoteResponse ex _ | .appendEntriesRequest ex _ | .appendEntriesResponse ex _ =>
    some ex
  | .other => none

/-- `TCommandRequest`; the bits of `flags` are `EWrite = 1`, `EStale = 2`, `EConsistent = 4`. -/
structure TCommandRequest where
  flags : ℕ := 0
  cookie : ℕ := 0
  data : List UInt8 := []
  deriving DecidableEq, Repr, Inhabited

namespace TCommandRequest

/-- `Flags & EWrite`. -/
def isWrite (c : TCommandRequest) : Bool := c.flags.testBit 0

/-- `Flags & EStale`. -/
def isStale (c : TCommandRequest) : Bool := c.flags.testBit 1

/-- `Flags & EConsistent`. -/
def isConsistent (c : TCommandRequest) : Bool := c.flags.testBit 2

end TCommandRequest

structure TCommandResponse where
  index : ℕ := 0
  cookie : ℕ := 0
  errorCode : ℕ := 0
  data : List UInt8 := []
  deriving DecidableEq, Repr

/-- `TTimeout::Election` in milliseconds. -/
def TTimeout.election : ℕ := 5000

/-- `TTimeout::Rpc` in milliseconds. -/
def TTimeout.rpc : ℕ := 10000

/-- `ITimeSource::Max`. -/
def Time.max : Time := 2 ^ 63 - 1

/-- A duration given in milliseconds. -/
def milliseconds (ms : ℕ) : Time := 1000000 * ms

end MiniRaft
