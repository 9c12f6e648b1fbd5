import MiniRaft.Lib.Files
import MiniRaft.State

/-!
# The state on disk (`persist.h`, `persist.cpp`)

`TDiskState` with its three files. A call may throw, abort or take the entry of a null message, and then has no
result.
-/

namespace MiniRaft

open Lib

/-- A message as it is stored: `Type`, and what follows the header. `Len` counts the header as well. -/
structure TRecord where
  type : UInt32
  value : List UInt8
  deriving DecidableEq, Repr

namespace TRecord

/-- `Len`. -/
def len (m : TRecord) : ℕ := 8 + m.value.length

def bytes (m : TRecord) : List UInt8 := le 4 m.type.toNat ++ le 4 m.len ++ m.value

/-- `Term`, of a message that is a log entry. -/
def term (m : TRecord) : ℕ := ofLe (m.value.take 8)

/-- The message has room for the fields of a `TLogEntry`, and its length for those of `Len`. -/
def IsLogEntry (m : TRecord) : Prop := 24 ≤ m.len ∧ m.len < 2 ^ 32

instance : DecidablePred IsLogEntry := fun _ => inferInstanceAs (Decidable (_ ∧ _))

@[simp] theorem length_bytes (m : TRecord) : m.bytes.length = m.len := by
  simp [bytes, len]
  omega

end TRecord

inductive DiskFault where
  | runtimeError (what : String)
  | assertion
  | abort
  | nullMessage
  deriving DecidableEq, Repr

inductive TFile where
  | entries
  | index
  | state
  deriving DecidableEq, Repr

structure TDiskState extends TStateFields where
  files : TFile → FileStream

namespace TDiskState

def withFile (d : TDiskState) (f : TFile) (s : FileStream) : TDiskState :=
  { d with files := Function.update d.files f s }

/-- `Read`. -/
def read (d : TDiskState) : Except DiskFault (TRecord × TDiskState) :=
  match (d.files .entries).read 4 with
  | (none, _) => .error (.runtimeError "Error on read 1")
  | (some type, s) =>
    match s.read 4 with
    | (none, _) => .error (.runtimeError "Error on read 2")
    | (some len, s) =>
      if ofLe len < 8 then .error .assertion
      else
        match s.read (ofLe len - 8) with
        | (none, _) => .error (.runtimeError "Error on read 3")
        | (some value, s) => .ok ({ type := UInt32.ofNat (ofLe type), value }, d.withFile .entries s)

/-- `Get`. -/
def get (index : ℤ) (d : TDiskState) : Except DiskFault (Option TRecord × TDiskState) :=
  if (d.lastLogIndex : ℤ) < index ∨ index < 1 then .ok (none, d)
  else
    match ((d.files .index).seek ((index.toNat - 1) * 8)).read 8 with
    | (none, s) => .ok (none, d.withFile .index s)
    | (some offset, s) =>
      let d := d.withFile .index s
      (d.withFile .entries ((d.files .entries).seek (ofLe offset))).read.map fun (entry, d) => (some entry, d)

/-- The writes and flushes of `Commit`. -/
def commitOps (d : TDiskState) : List (FileOp TFile) :=
  [.seek .state 0, .write .state (le 8 d.lastLogIndex), .write .state (le 8 d.currentTerm),
    .write .state (le 4 d.votedFor), .flush .state, .flush .index, .flush .entries]

/-- `Commit`. -/
def commit (d : TDiskState) : Except DiskFault TDiskState :=
  if (d.files .state).failed then .error .abort else .ok { d with files := FileOp.run d.commitOps d.files }

/-- `RemoveLast`. -/
def removeLast (d : TDiskState) : Except DiskFault TDiskState :=
  if 0 < d.lastLogIndex then { d with lastLogIndex := d.lastLogIndex - 1 }.commit else .ok d

/-- The position that `Append` records: that of `Entries` if there is a last entry. -/
def offset (held : Option TRecord) (d : TDiskState) : ℕ := if held.isSome then (d.files .entries).pos else 0

/-- The writes of `Append` before its `Commit`. -/
def appendOps (held : Option TRecord) (entry : TRecord) (d : TDiskState) : List (FileOp TFile) :=
  [.write .entries entry.bytes, .seek .index (d.lastLogIndex * 8), .write .index (le 8 (d.offset held))]

/-- The fields after `Append`. -/
def appended (entry : TRecord) (d : TDiskState) : TDiskState :=
  { d with lastLogTerm := entry.term, lastLogIndex := d.lastLogIndex + 1 }

/-- `Append`. -/
def append (entry : TRecord) (d : TDiskState) : Except DiskFault TDiskState :=
  (d.get d.lastLogIndex).bind fun (held, d) =>
    let files := FileOp.run (d.appendOps held entry) d.files
    { d.appended entry with files }.commit

/-- The fields that the constructor reads, or `none` where the file has another size than they have. -/
def fields (s : FileStream) : Option (TStateFields × FileStream) :=
  if s.content.length = 20 then
    let (lastLogIndex, s) := (s.seek 0).read 8
    let (currentTerm, s) := s.read 8
    let (votedFor, s) := s.read 4
    some ({
      lastLogIndex := (lastLogIndex.map ofLe).getD 0
      currentTerm := (currentTerm.map ofLe).getD 1
      votedFor := (votedFor.map ofLe).getD 0 }, s)
  else none

/-- The constructor up to its last statement: the fields are read, or stored. -/
def start (image : TFile → List UInt8) : Except DiskFault TDiskState :=
  let files f : FileStream := { disk := image f }
  match fields (files .state) with
  | some (stored, s) => .ok { stored with files := Function.update files .state s }
  | none => { files := files : TDiskState }.commit

/-- The last statement of the constructor. -/
def readLast (d : TDiskState) : Except DiskFault TDiskState :=
  if 0 < d.lastLogIndex then
    (d.get d.lastLogIndex).bind fun (held, d) =>
      match held with
      | some entry => .ok { d with lastLogTerm := entry.term }
      | none => .error .nullMessage
  else .ok d

/-- The constructor, of files with the given bytes. A file that does not exist is empty. -/
def new (image : TFile → List UInt8) : Except DiskFault TDiskState := (start image).bind readLast

/-- The files once their streams are closed. -/
def close (d : TDiskState) : TFile → List UInt8 := fun f => (d.files f).content

end TDiskState

end MiniRaft
