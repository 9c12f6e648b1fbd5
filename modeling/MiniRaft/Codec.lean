import MiniRaft.Malformed
import MiniRaft.Processor

/-!
# Structs as bytes (`messages.h`)

The fields of a struct are little-endian words at fixed offsets. A message is built by copying the fields behind the header,
and used by a cast that goes by `Type` alone.
-/

namespace MiniRaft

open Lib TMessageHolder

/-- What `InboundConnection` tells apart: `Maybe<TCommandRequest>`, `Maybe<TCommandResponse>`, and all that goes to
`Process`. -/
inductive TInbound where
  | commandRequest (command : TCommandRequest)
  | commandResponse (response : TCommandResponse)
  | message (message : TMessage)
  deriving DecidableEq

/-! ## Building messages -/

/-- The fields of `TMessageEx`. -/
def TMessageEx.bytes (ex : TMessageEx) : List UInt8 := le 4 ex.src ++ le 4 ex.dst ++ le 8 ex.term ++ le 8 ex.seqno

/-- A `uint32_t` that holds a `bool`. -/
def flag (b : Bool) : List UInt8 := le 4 b.toNat

/-- `Padding`. -/
def padding : List UInt8 := le 4 0

def TLogEntry.record (e : TLogEntry) : TRecord where
  type := logEntryType
  value := le 8 e.term ++ le 8 e.flags ++ e.data

def TRequestVoteRequest.record (ex : TMessageEx) (body : TRequestVoteRequest) : TRecord where
  type := 2
  value := ex.bytes ++ (le 8 body.lastLogIndex ++ le 8 body.lastLogTerm ++ le 4 body.candidateId ++ padding)

def TRequestVoteResponse.record (ex : TMessageEx) (body : TRequestVoteResponse) : TRecord where
  type := 3
  value := ex.bytes ++ (flag body.voteGranted ++ padding)

def TAppendEntriesRequest.record (ex : TMessageEx) (body : TAppendEntriesRequest) : TRecord where
  type := appendEntriesType
  value := ex.bytes ++ (le 8 body.prevLogIndex ++ le 8 body.prevLogTerm ++ le 8 body.leaderCommit ++ le 4 body.leaderId ++
    le 4 body.nentries)

def TAppendEntriesResponse.record (ex : TMessageEx) (body : TAppendEntriesResponse) : TRecord where
  type := 5
  value := ex.bytes ++ (le 8 body.matchIndex ++ flag body.success ++ padding)

def TCommandRequest.record (c : TCommandRequest) : TRecord where
  type := 8
  value := le 4 c.flags ++ le 4 c.cookie ++ c.data

def TCommandResponse.record (c : TCommandResponse) : TRecord where
  type := 9
  value := le 8 c.index ++ le 4 c.cookie ++ le 4 c.errorCode ++ c.data

namespace TInbound

/-- `NewHoldedMessage`, and `InitPayload` for what `CreateAppendEntries` builds. -/
def holder : TInbound → TMessageHolder
  | .commandRequest command => .mk command.record []
  | .commandResponse response => .mk response.record []
  | .message (.requestVoteRequest ex body) => .mk (body.record ex) []
  | .message (.requestVoteResponse ex body) => .mk (body.record ex) []
  | .message (.appendEntriesRequest ex body) => .mk (body.record ex) (body.payload.map fun e => .mk e.record [])
  | .message (.appendEntriesResponse ex body) => .mk (body.record ex) []
  | .message .other => .mk { type := 0, value := [] } []

end TInbound

/-! ## Casts -/

namespace TRecord

/-- `Cast<TMessageEx>`. -/
def ex (m : TRecord) : TMessageEx where
  src := word m.value 0 4
  dst := word m.value 4 4
  term := word m.value 8 8
  seqno := word m.value 16 8

/-- `Cast<TLogEntry>`. -/
def logEntry (m : TRecord) : TLogEntry where
  term := word m.value 0 8
  flags := word m.value 8 8
  data := m.value.drop 16

def requestVoteRequest (m : TRecord) : TRequestVoteRequest where
  lastLogIndex := word m.value 24 8
  lastLogTerm := word m.value 32 8
  candidateId := word m.value 40 4

def requestVoteResponse (m : TRecord) : TRequestVoteResponse where
  voteGranted := word m.value 24 4 ≠ 0

/-- `Cast<TAppendEntriesRequest>`, with the payload of the holder. -/
def appendEntriesRequest (m : TRecord) (payload : List TMessageHolder) : TAppendEntriesRequest where
  prevLogIndex := word m.value 24 8
  prevLogTerm := word m.value 32 8
  leaderCommit := word m.value 40 8
  leaderId := word m.value 48 4
  nentries := word m.value 52 4
  payload := payload.map (·.message.logEntry)

def appendEntriesResponse (m : TRecord) : TAppendEntriesResponse where
  matchIndex := word m.value 24 8
  success := word m.value 32 4 ≠ 0

def commandRequest (m : TRecord) : TCommandRequest where
  flags := word m.value 0 4
  cookie := word m.value 4 4
  data := m.value.drop 8

def commandResponse (m : TRecord) : TCommandResponse where
  index := word m.value 0 8
  cookie := word m.value 8 4
  errorCode := word m.value 12 4
  data := m.value.drop 16

end TRecord

namespace TMessageHolder

/-- The struct that the type selects, whatever the length. -/
def selects (m : TMessageHolder) : TInbound :=
  match m.message.type.toNat with
  | 2 => .message (.requestVoteRequest m.message.ex m.message.requestVoteRequest)
  | 3 => .message (.requestVoteResponse m.message.ex m.message.requestVoteResponse)
  | 4 => .message (.appendEntriesRequest m.message.ex (m.message.appendEntriesRequest m.payload))
  | 5 => .message (.appendEntriesResponse m.message.ex m.message.appendEntriesResponse)
  | 8 => .commandRequest m.message.commandRequest
  | 9 => .commandResponse m.message.commandResponse
  | _ => .message .other

/-- No cast of the message goes beyond a buffer. A `TLogEntry` is cast as part of a payload only. -/
def Covers (m : TMessageHolder) : Prop :=
  (m.message.type ≠ logEntryType → sizeOfType m.message.type ≤ m.message.len) ∧
    (m.message.type = appendEntriesType → ∀ e ∈ m.payload, sizeOfType logEntryType ≤ e.message.len)

instance (m : TMessageHolder) : Decidable m.Covers := inferInstanceAs (Decidable (_ ∧ _))

/-- What is made of a message, where the casts stay within the buffers: the source does not check them. -/
def inbound? (m : TMessageHolder) : Option TInbound := if m.Covers then some m.selects else none

end TMessageHolder

/-! ## There and back -/

def TMessageEx.Fits (ex : TMessageEx) : Prop :=
  ex.src < 2 ^ 32 ∧ ex.dst < 2 ^ 32 ∧ ex.term < 2 ^ 64 ∧ ex.seqno < 2 ^ 64

def TLogEntry.Fits (e : TLogEntry) : Prop := e.term < 2 ^ 64 ∧ e.flags < 2 ^ 64 ∧ 24 + e.data.length < 2 ^ 32

/-- Every number fits its field, `Len` included, and `Nentries` is the length of the payload. -/
def TInbound.Fits : TInbound → Prop
  | .commandRequest c => c.flags < 2 ^ 32 ∧ c.cookie < 2 ^ 32 ∧ 16 + c.data.length < 2 ^ 32
  | .commandResponse c => c.index < 2 ^ 64 ∧ c.cookie < 2 ^ 32 ∧ c.errorCode < 2 ^ 32 ∧ 24 + c.data.length < 2 ^ 32
  | .message (.requestVoteRequest ex body) =>
    ex.Fits ∧ body.lastLogIndex < 2 ^ 64 ∧ body.lastLogTerm < 2 ^ 64 ∧ body.candidateId < 2 ^ 32
  | .message (.requestVoteResponse ex _) => ex.Fits
  | .message (.appendEntriesRequest ex body) =>
    ex.Fits ∧ body.prevLogIndex < 2 ^ 64 ∧ body.prevLogTerm < 2 ^ 64 ∧ body.leaderCommit < 2 ^ 64 ∧
      body.leaderId < 2 ^ 32 ∧ body.nentries < 2 ^ 32 ∧ body.nentries = body.payload.length ∧ ∀ e ∈ body.payload, e.Fits
  | .message (.appendEntriesResponse ex body) => ex.Fits ∧ body.matchIndex < 2 ^ 64
  | .message .other => True

instance (ex : TMessageEx) : Decidable ex.Fits := inferInstanceAs (Decidable (_ ∧ _))

instance : DecidablePred TLogEntry.Fits := fun _ => inferInstanceAs (Decidable (_ ∧ _))

instance : DecidablePred TInbound.Fits
  | .commandRequest _ => inferInstanceAs (Decidable (_ ∧ _))
  | .commandResponse _ => inferInstanceAs (Decidable (_ ∧ _))
  | .message (.requestVoteRequest _ _) => inferInstanceAs (Decidable (_ ∧ _))
  | .message (.requestVoteResponse ex _) => inferInstanceAs (Decidable ex.Fits)
  | .message (.appendEntriesRequest _ _) => inferInstanceAs (Decidable (_ ∧ _))
  | .message (.appendEntriesResponse _ _) => inferInstanceAs (Decidable (_ ∧ _))
  | .message .other => inferInstanceAs (Decidable True)

variable {m : TMessageHolder} {x y : TInbound}

theorem mod_uint32 {n : ℕ} (fits : n < 2 ^ 32) : n % 256 ^ 4 = n := Nat.mod_eq_of_lt fits

theorem mod_uint64 {n : ℕ} (fits : n < 2 ^ 64) : n % 256 ^ 8 = n := Nat.mod_eq_of_lt fits

theorem mod_bool (b : Bool) : b.toNat % 256 ^ 4 = b.toNat := by cases b <;> rfl

/-- The header of the messages that servers exchange, whatever follows it. -/
theorem TMessageEx.read_bytes {ex : TMessageEx} (fits : ex.Fits) (type : UInt32) (rest : List UInt8) :
    TRecord.ex { type, value := ex.bytes ++ rest } = ex := by
  obtain ⟨src, dst, term, seqno⟩ := fits
  unfold TRecord.ex TMessageEx.bytes
  simp (disch := decide) only [word_skip, word_here, List.append_assoc, Nat.reduceSub]
  rw [mod_uint32 src, mod_uint32 dst, mod_uint64 term, mod_uint64 seqno]

theorem TMessageEx.length_bytes (ex : TMessageEx) : ex.bytes.length = 24 := by simp [TMessageEx.bytes]

/-- A field behind the header. -/
theorem TMessageEx.word_behind (ex : TMessageEx) (i width : ℕ) (rest : List UInt8) :
    word (ex.bytes ++ rest) (24 + i) width = word rest i width := by
  rw [word, ← List.drop_drop, List.drop_left' ex.length_bytes, word]

theorem TLogEntry.read_record {e : TLogEntry} (fits : e.Fits) : e.record.logEntry = e := by
  obtain ⟨term, flags, -⟩ := fits
  unfold TRecord.logEntry TLogEntry.record
  simp (disch := decide) only [word_skip, word_here, drop_skip, List.append_assoc, Nat.reduceSub, List.drop_zero]
  rw [mod_uint64 term, mod_uint64 flags]

theorem TLogEntry.len_record (e : TLogEntry) : e.record.len = 24 + e.data.length := by
  simp [TRecord.len, TLogEntry.record]
  omega

theorem TRequestVoteRequest.read_record {ex : TMessageEx} {body : TRequestVoteRequest} (index : body.lastLogIndex < 2 ^ 64)
    (term : body.lastLogTerm < 2 ^ 64) (candidate : body.candidateId < 2 ^ 32) :
    (body.record ex).requestVoteRequest = body := by
  unfold TRecord.requestVoteRequest TRequestVoteRequest.record
  simp (disch := decide) only [ex.word_behind 0, ex.word_behind 8, ex.word_behind 16, word_skip, word_here, List.append_assoc,
    Nat.reduceSub]
  rw [mod_uint64 index, mod_uint64 term, mod_uint32 candidate]

theorem TRequestVoteResponse.read_record (ex : TMessageEx) (body : TRequestVoteResponse) :
    (body.record ex).requestVoteResponse = body := by
  unfold TRecord.requestVoteResponse TRequestVoteResponse.record flag
  simp (disch := decide) only [ex.word_behind 0, word_here]
  rw [mod_bool]
  cases body with
  | mk granted => cases granted <;> rfl

theorem TAppendEntriesRequest.read_record {ex : TMessageEx} {body : TAppendEntriesRequest} (index : body.prevLogIndex < 2 ^ 64)
    (term : body.prevLogTerm < 2 ^ 64) (commit : body.leaderCommit < 2 ^ 64) (leader : body.leaderId < 2 ^ 32)
    (count : body.nentries < 2 ^ 32) (each : ∀ e ∈ body.payload, e.Fits) :
    (body.record ex).appendEntriesRequest (body.payload.map fun e => .mk e.record []) = body := by
  have payload : (body.payload.map fun e => TMessageHolder.mk e.record []).map (·.message.logEntry) = body.payload := by
    rw [List.map_map]
    exact (List.map_congr_left fun e mem => TLogEntry.read_record (each e mem)).trans (List.map_id _)
  unfold TRecord.appendEntriesRequest TAppendEntriesRequest.record
  rw [payload]
  simp (disch := decide) only [ex.word_behind 0, ex.word_behind 8, ex.word_behind 16, ex.word_behind 24, ex.word_behind 28,
    word_skip, word_here, word_last, List.append_assoc, Nat.reduceSub]
  rw [mod_uint64 index, mod_uint64 term, mod_uint64 commit, mod_uint32 leader, mod_uint32 count]

theorem TAppendEntriesResponse.read_record {ex : TMessageEx} {body : TAppendEntriesResponse} (index : body.matchIndex < 2 ^ 64) :
    (body.record ex).appendEntriesResponse = body := by
  unfold TRecord.appendEntriesResponse TAppendEntriesResponse.record flag
  simp (disch := decide) only [ex.word_behind 0, ex.word_behind 8, word_skip, word_here, List.append_assoc, Nat.reduceSub]
  rw [mod_uint64 index, mod_bool]
  cases body with
  | mk index success => cases success <;> rfl

theorem TCommandRequest.read_record {c : TCommandRequest} (flags : c.flags < 2 ^ 32) (cookie : c.cookie < 2 ^ 32) :
    c.record.commandRequest = c := by
  unfold TRecord.commandRequest TCommandRequest.record
  simp (disch := decide) only [word_skip, word_here, drop_skip, List.append_assoc, Nat.reduceSub, List.drop_zero]
  rw [mod_uint32 flags, mod_uint32 cookie]

theorem TCommandResponse.read_record {c : TCommandResponse} (index : c.index < 2 ^ 64) (cookie : c.cookie < 2 ^ 32)
    (error : c.errorCode < 2 ^ 32) : c.record.commandResponse = c := by
  unfold TRecord.commandResponse TCommandResponse.record
  simp (disch := decide) only [word_skip, word_here, drop_skip, List.append_assoc, Nat.reduceSub, List.drop_zero]
  rw [mod_uint64 index, mod_uint32 cookie, mod_uint32 error]

theorem TRequestVoteRequest.len_record (ex : TMessageEx) (body : TRequestVoteRequest) : (body.record ex).len = 56 := by
  simp [TRecord.len, TRequestVoteRequest.record, ex.length_bytes, padding]

theorem TRequestVoteResponse.len_record (ex : TMessageEx) (body : TRequestVoteResponse) : (body.record ex).len = 40 := by
  simp [TRecord.len, TRequestVoteResponse.record, ex.length_bytes, flag, padding]

theorem TAppendEntriesRequest.len_record (ex : TMessageEx) (body : TAppendEntriesRequest) : (body.record ex).len = 64 := by
  simp [TRecord.len, TAppendEntriesRequest.record, ex.length_bytes]

theorem TAppendEntriesResponse.len_record (ex : TMessageEx) (body : TAppendEntriesResponse) : (body.record ex).len = 48 := by
  simp [TRecord.len, TAppendEntriesResponse.record, ex.length_bytes, flag, padding]

theorem TCommandRequest.len_record (c : TCommandRequest) : c.record.len = 16 + c.data.length := by
  simp [TRecord.len, TCommandRequest.record]
  omega

theorem TCommandResponse.len_record (c : TCommandResponse) : c.record.len = 24 + c.data.length := by
  simp [TRecord.len, TCommandResponse.record]
  omega

/-- `Nentries`, where the reader looks for it. -/
theorem TAppendEntriesRequest.nentries_record (ex : TMessageEx) {body : TAppendEntriesRequest} (count : body.nentries < 2 ^ 32) :
    (body.record ex).nentries = body.nentries := by
  show word (body.record ex).value 52 4 = _
  unfold TAppendEntriesRequest.record
  simp (disch := decide) only [ex.word_behind 28, word_skip, word_last, List.append_assoc, Nat.reduceSub]
  exact mod_uint32 count

/-- An entry as part of a payload. -/
theorem TLogEntry.wellFormed_record {e : TLogEntry} (fits : e.Fits) : (TMessageHolder.mk e.record []).WellFormed := by
  have len := e.len_record
  have small := fits.2.2
  exact .mk (by omega) (by rw [len]; exact Nat.le_add_right ..) rfl (List.forall_mem_nil _)

/-- **What is built is well formed**, so that it comes through the wire. -/
theorem TInbound.wellFormed_holder (fits : x.Fits) : x.holder.WellFormed := by
  cases x with
  | commandRequest c =>
    have len := c.len_record
    have small := fits.2.2
    exact .mk (by omega) (by rw [len]; exact Nat.le_add_right ..) rfl (List.forall_mem_nil _)
  | commandResponse c =>
    have len := c.len_record
    have small := fits.2.2.2
    exact .mk (by omega) (by rw [len]; exact Nat.le_add_right ..) rfl (List.forall_mem_nil _)
  | message m =>
    cases m with
    | requestVoteRequest ex body =>
      have len := body.len_record ex
      exact .mk (by omega) (by rw [len]; exact Nat.le_refl _) rfl (List.forall_mem_nil _)
    | requestVoteResponse ex body =>
      have len := body.len_record ex
      exact .mk (by omega) (by rw [len]; exact Nat.le_refl _) rfl (List.forall_mem_nil _)
    | appendEntriesRequest ex body =>
      obtain ⟨-, -, -, -, -, small, count, each⟩ := fits
      have len := body.len_record ex
      refine .mk (by omega) (by rw [len]; exact Nat.le_refl _) ?_ fun m mem => ?_
      · rw [List.length_map, if_pos (show (body.record ex).type = appendEntriesType from rfl),
          TAppendEntriesRequest.nentries_record ex small, count]
      · obtain ⟨e, entry, rfl⟩ := List.mem_map.mp mem
        exact TLogEntry.wellFormed_record (each e entry)
    | appendEntriesResponse ex body =>
      have len := body.len_record ex
      exact .mk (by omega) (by rw [len]; exact Nat.le_refl _) rfl (List.forall_mem_nil _)
    | other => exact .mk (by decide) (by decide) rfl (List.forall_mem_nil _)

/-- The casts stay within the buffers of what is built. -/
theorem TInbound.covers_holder (fits : x.Fits) : x.holder.Covers := by
  constructor
  · intro _
    generalize x.holder = m, TInbound.wellFormed_holder fits = wf
    cases wf with
    | mk _ room => exact room
  · intro type e mem
    cases x with
    | message m =>
      cases m with
      | appendEntriesRequest ex body =>
        obtain ⟨entry, _, rfl⟩ := List.mem_map.mp mem
        show 24 ≤ entry.record.len
        rw [entry.len_record]
        exact Nat.le_add_right ..
      | _ => cases mem
    | _ => cases mem

/-- **A message is selected as what it was built from.** -/
theorem TInbound.selects_holder (fits : x.Fits) : x.holder.selects = x := by
  unfold TMessageHolder.selects
  cases x with
  | commandRequest c =>
    show TInbound.commandRequest c.record.commandRequest = _
    rw [TCommandRequest.read_record fits.1 fits.2.1]
  | commandResponse c =>
    show TInbound.commandResponse c.record.commandResponse = _
    rw [TCommandResponse.read_record fits.1 fits.2.1 fits.2.2.1]
  | message m =>
    cases m with
    | requestVoteRequest ex body =>
      obtain ⟨header, index, term, candidate⟩ := fits
      show TInbound.message (.requestVoteRequest (body.record ex).ex (body.record ex).requestVoteRequest) = _
      rw [TRequestVoteRequest.read_record index term candidate, TRequestVoteRequest.record, TMessageEx.read_bytes header]
    | requestVoteResponse ex body =>
      show TInbound.message (.requestVoteResponse (body.record ex).ex (body.record ex).requestVoteResponse) = _
      rw [TRequestVoteResponse.read_record, TRequestVoteResponse.record, TMessageEx.read_bytes fits]
    | appendEntriesRequest ex body =>
      obtain ⟨header, index, term, commit, leader, count, -, each⟩ := fits
      show TInbound.message (.appendEntriesRequest (body.record ex).ex
        ((body.record ex).appendEntriesRequest (body.payload.map fun e => .mk e.record []))) = _
      rw [TAppendEntriesRequest.read_record index term commit leader count each, TAppendEntriesRequest.record,
        TMessageEx.read_bytes header]
    | appendEntriesResponse ex body =>
      show TInbound.message (.appendEntriesResponse (body.record ex).ex (body.record ex).appendEntriesResponse) = _
      rw [TAppendEntriesResponse.read_record fits.2, TAppendEntriesResponse.record, TMessageEx.read_bytes fits.1]
    | other => rfl

/-- **A message that is built and sent is the message that is received.** -/
theorem TInbound.inbound_holder (fits : x.Fits) : x.holder.inbound? = some x := by
  unfold TMessageHolder.inbound?
  rw [if_pos (covers_holder fits), selects_holder fits]

/-! ## What is received -/

theorem TRecord.ex_fits (m : TRecord) : m.ex.Fits :=
  ⟨word_lt m.value 0 4, word_lt m.value 4 4, word_lt m.value 8 8, word_lt m.value 16 8⟩

theorem TRecord.logEntry_fits {m : TRecord} (room : 24 ≤ m.len) (small : m.len < 2 ^ 32) : m.logEntry.Fits := by
  refine ⟨word_lt m.value 0 8, word_lt m.value 8 8, ?_⟩
  show 24 + (m.value.drop 16).length < _
  unfold TRecord.len at room small
  rw [List.length_drop]
  omega

theorem TMessageHolder.Framed.small (framed : m.Framed) : m.message.len < 2 ^ 32 := by
  cases framed with
  | mk fits => exact fits

theorem TMessageHolder.Covers.room (covers : m.Covers) {type : UInt32} (own : m.message.type = type)
    (entry : type ≠ logEntryType) : sizeOfType type ≤ m.message.len := by
  subst own
  exact covers.1 entry

/-- **What the reader hands on fits its fields**, wherever the casts stay within the buffers. -/
theorem TMessageHolder.Framed.fits (framed : m.Framed) (read : m.inbound? = some x) : x.Fits := by
  unfold inbound? at read
  rw [Option.ite_none_right_eq_some, Option.some.injEq] at read
  obtain ⟨covers, rfl⟩ := read
  have small := framed.small
  cases framed with
  | @mk message payload len count each =>
    change message.len < _ at small
    unfold selects
    split <;> rename_i type
    · exact ⟨message.ex_fits, word_lt message.value 24 8, word_lt message.value 32 8, word_lt message.value 40 4⟩
    · exact message.ex_fits
    · have own : message.type = appendEntriesType := UInt32.toNat_inj.mp type
      have long : ¬ message.value.length < 56 := by
        have room : 64 ≤ message.len := covers.room own (by decide)
        rw [TRecord.len] at room
        omega
      have number : some message.nentries = some payload.length := by
        rw [← count, TRecord.expects, if_neg (not_not_intro own), if_neg long]
      refine ⟨message.ex_fits, word_lt message.value 24 8, word_lt message.value 32 8, word_lt message.value 40 8,
        word_lt message.value 48 4, word_lt message.value 52 4, ?_, ?_⟩
      · show message.nentries = (payload.map _).length
        rw [List.length_map, Option.some.inj number]
      · intro e mem
        obtain ⟨entry, here, rfl⟩ := List.mem_map.mp mem
        exact TRecord.logEntry_fits (covers.2 own entry here) (each entry here).small
    · exact ⟨message.ex_fits, word_lt message.value 24 8⟩
    · refine ⟨word_lt message.value 0 4, word_lt message.value 4 4, ?_⟩
      have own : message.type = 8 := UInt32.toNat_inj.mp type
      have room : 16 ≤ message.len := covers.room own (by decide)
      show 16 + (message.value.drop 8).length < _
      unfold TRecord.len at room small
      rw [List.length_drop]
      omega
    · refine ⟨word_lt message.value 0 8, word_lt message.value 8 4, word_lt message.value 12 4, ?_⟩
      have own : message.type = 9 := UInt32.toNat_inj.mp type
      have room : 24 ≤ message.len := covers.room own (by decide)
      show 24 + (message.value.drop 16).length < _
      unfold TRecord.len at room small
      rw [List.length_drop]
      omega
    · trivial

/-- **Typed messages come back from the wire.** Messages whose fields fit, and whose header words each arrive in one piece, are
received as what they were, in their order; and whatever a connection receives, if it covers its casts, is the same when it is
sent on. -/
theorem typed_round_trip :
    (∀ (xs : List TInbound) (s : Stream UInt8), (∀ x ∈ xs, x.Fits) → s.items = writeAll (xs.map TInbound.holder) →
      (∀ o ∈ wordsAll 0 (xs.map TInbound.holder), s.readSome 4 o = 4) →
      (TMessageReader.received s).1.map inbound? = xs.map some ∧ (TMessageReader.received s).2 = .closed) ∧
    ∀ (s : Stream UInt8) (m : TMessageHolder) (x : TInbound), m ∈ (TMessageReader.received s).1 → m.inbound? = some x →
      x.Fits ∧ x.holder.inbound? = some x := by
  constructor
  · intro xs s fits bytes full
    have whole := not_cut_of_readSome full
    have each : ∀ m ∈ xs.map TInbound.holder, m.Framed := by
      intro m mem
      obtain ⟨x, own, rfl⟩ := List.mem_map.mp mem
      exact (TInbound.wellFormed_holder (fits x own)).framed
    have here : s.items = writeAll (xs.map TInbound.holder) ++ [] := by rw [List.append_nil, bytes]
    obtain ⟨k, all⟩ := received_framed here each whole
    have at_end : (writeAll (xs.map TInbound.holder)).length = s.items.length := by rw [bytes]
    rw [all, at_end, TMessageReader.receive, read_end]
    refine ⟨?_, rfl⟩
    dsimp only
    rw [List.append_nil, List.map_map]
    exact List.map_congr_left fun x own => TInbound.inbound_holder (fits x own)
  · intro s m x mem read
    obtain ⟨rest, each, -, -, -⟩ := received_outcome s
    have fits := (each m mem).fits read
    exact ⟨fits, TInbound.inbound_holder fits⟩

/-- An `AppendEntries` request with one entry, and a command behind it. -/
def sampleSent : List TInbound :=
  [.message (.appendEntriesRequest { src := 1, dst := 2, term := 3, seqno := 7 }
    { prevLogIndex := 4, prevLogTerm := 2, leaderId := 1, nentries := 1, payload := [{ term := 3, data := [5, 0] }] }),
    .commandRequest { flags := 1, cookie := 9, data := [8] }]

theorem typed_round_trip_sample :
    (TMessageReader.received ⟨writeAll (sampleSent.map TInbound.holder), ∅⟩).1.map inbound? = sampleSent.map some := by
  refine (typed_round_trip.1 sampleSent ⟨writeAll (sampleSent.map TInbound.holder), ∅⟩ (by decide) rfl ?_).1
  decide +kernel

end MiniRaft
