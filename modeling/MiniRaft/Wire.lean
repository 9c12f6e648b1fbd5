import MiniRaft.Lib.Streams
import MiniRaft.Persist

/-!
# Messages on the wire (`TMessageWriter`, `TMessageReader`)

A message goes out as its bytes and those of its payload, one after the other. The reader gets the two words of a header by
one `ReadSome` each, the rest by exact reads. It is a function of the stream and of the position in it; where it would recurse
deeper than `depth` it gives up, which it never has to.
-/

namespace MiniRaft

open Lib

/-- `TMessageHolder`: `PayloadSize` is the length of the payload, `Len` that of the buffer. -/
inductive TMessageHolder where
  | mk (message : TRecord) (payload : List TMessageHolder)

/-- `sizeof` of the struct whose `MessageType` it is. -/
def sizeOfType (type : UInt32) : ℕ :=
  match type.toNat with
  | 1 => 24 -- TLogEntry
  | 2 => 56 -- TRequestVoteRequest
  | 3 => 40 -- TRequestVoteResponse
  | 4 => 64 -- TAppendEntriesRequest
  | 5 => 48 -- TAppendEntriesResponse
  | 8 => 16 -- TCommandRequest
  | 9 => 24 -- TCommandResponse
  | _ => 8

/-- `EMessageType::LOG_ENTRY`. -/
def logEntryType : UInt32 := 1

/-- `EMessageType::APPEND_ENTRIES_REQUEST`. -/
def appendEntriesType : UInt32 := 4

/-- `Nentries`, of a message that is a `TAppendEntriesRequest`. -/
def TRecord.nentries (m : TRecord) : ℕ := ofLe ((m.value.drop 52).take 4)

/-- How many payload messages are read for a message; none where `Nentries` lies beyond the buffer. -/
def TRecord.expects (m : TRecord) : Option ℕ :=
  if m.type ≠ appendEntriesType then some 0 else if m.value.length < 56 then none else some m.nentries

namespace TMessageHolder

def message : TMessageHolder → TRecord
  | .mk message _ => message

def payload : TMessageHolder → List TMessageHolder
  | .mk _ payload => payload

mutual

/-- `TMessageWriter::Write`. -/
def write : TMessageHolder → List UInt8
  | .mk message payload => message.bytes ++ writeAll payload

/-- Messages written one after the other. -/
def writeAll : List TMessageHolder → List UInt8
  | [] => []
  | m :: ms => write m ++ writeAll ms

end

mutual

/-- The positions of the header words of a message that begins at `p`. -/
def words (p : ℕ) : TMessageHolder → List ℕ
  | .mk message payload => p :: (p + 4) :: wordsAll (p + message.len) payload

/-- The same for messages one after the other. -/
def wordsAll (p : ℕ) : List TMessageHolder → List ℕ
  | [] => []
  | m :: ms => words p m ++ wordsAll (p + (write m).length) ms

end

/-- What the reader takes for a message: the length fits its word, and the payload is what the message announces. -/
inductive Framed : TMessageHolder → Prop where
  | mk {message : TRecord} {payload : List TMessageHolder} (fits : message.len < 2 ^ 32)
      (count : message.expects = some payload.length) (each : ∀ m ∈ payload, m.Framed) : (TMessageHolder.mk message payload).Framed

/-- A message as the program builds it: it has room for its struct, and a payload only if it is a `TAppendEntriesRequest`, of
as many messages as `Nentries` says. -/
inductive WellFormed : TMessageHolder → Prop where
  | mk {message : TRecord} {payload : List TMessageHolder} (fits : message.len < 2 ^ 32)
      (room : sizeOfType message.type ≤ message.len)
      (count : payload.length = if message.type = appendEntriesType then message.nentries else 0)
      (each : ∀ m ∈ payload, m.WellFormed) : (TMessageHolder.mk message payload).WellFormed

end TMessageHolder

/-- How `Read` ends without a message: with an exception, a failed `assert`, or by reading `Nentries` beyond the buffer. -/
inductive ReadFault where
  | closed
  | assertion
  | beyond
  | depth
  deriving DecidableEq, Repr

namespace TMessageReader

/-- The loop over the payload. -/
def readPayload (one : ℕ → Except ReadFault (TMessageHolder × ℕ)) : ℕ → ℕ → Except ReadFault (List TMessageHolder × ℕ)
  | 0, p => .ok ([], p)
  | n + 1, p => (one p).bind fun (m, p) => (readPayload one n p).map fun (ms, p) => (m :: ms, p)

/-- `Read`, from position `p` of the stream on. -/
def read (s : Stream UInt8) : ℕ → ℕ → Except ReadFault (TMessageHolder × ℕ)
  | 0, _ => .error .depth
  | depth + 1, p =>
    if s.readSome 4 p ≠ 4 then .error .closed
    else if s.readSome 4 (p + 4) ≠ 4 then .error .closed
    else
      let type := UInt32.ofNat (ofLe (s.slice p 4))
      let len := ofLe (s.slice (p + 4) 4)
      if len < 8 then .error .assertion
      else if s.items.length < p + len then .error .closed
      else
        let message : TRecord := { type, value := s.slice (p + 8) (len - 8) }
        match message.expects with
        | none => .error .beyond
        | some nentries =>
          (readPayload (read s depth) nentries (p + len)).map fun (payload, p) => (.mk message payload, p)

/-- The messages that a connection receives, and how it ends. -/
def receive (s : Stream UInt8) : ℕ → ℕ → List TMessageHolder × ReadFault
  | 0, _ => ([], .depth)
  | rounds + 1, p =>
    match read s (s.items.length + 1) p with
    | .error fault => ([], fault)
    | .ok (m, p) => (m :: (receive s rounds p).1, (receive s rounds p).2)

/-- `InboundConnection`, as far as it reads. -/
def received (s : Stream UInt8) : List TMessageHolder × ReadFault := receive s (s.items.length + 1) 0

end TMessageReader

open TMessageHolder TMessageReader

variable {s : Stream UInt8} {p d : ℕ} {m : TMessageHolder} {ms : List TMessageHolder} {rest : List UInt8}

/-! ## What is written -/

theorem TRecord.bytes_pos (m : TRecord) : 8 ≤ m.bytes.length := by
  rw [TRecord.length_bytes, TRecord.len]
  omega

theorem TRecord.bytes_append_pos (m : TRecord) (rest : List UInt8) : 8 ≤ (m.bytes ++ rest).length := by
  rw [List.length_append]
  exact Nat.le_add_right_of_le m.bytes_pos

theorem length_write (message : TRecord) (payload : List TMessageHolder) :
    (write (.mk message payload)).length = message.len + (writeAll payload).length := by
  rw [write, List.length_append, TRecord.length_bytes]

theorem writeAll_append (ms ms' : List TMessageHolder) : writeAll (ms ++ ms') = writeAll ms ++ writeAll ms' := by
  induction ms with
  | nil => rfl
  | cons m ms ih => rw [List.cons_append, writeAll, ih, writeAll, List.append_assoc]

theorem length_write_le (mem : m ∈ ms) : (write m).length ≤ (writeAll ms).length := by
  obtain ⟨before, after, rfl⟩ := List.append_of_mem mem
  rw [writeAll_append, writeAll, List.length_append, List.length_append]
  omega

theorem wordsAll_append (p : ℕ) (ms ms' : List TMessageHolder) :
    wordsAll p (ms ++ ms') = wordsAll p ms ++ wordsAll (p + (writeAll ms).length) ms' := by
  induction ms generalizing p with
  | nil => rfl
  | cons m ms ih =>
    rw [List.cons_append, wordsAll, ih, wordsAll, List.append_assoc, writeAll, List.length_append, Nat.add_assoc]

theorem TMessageHolder.WellFormed.framed (wf : m.WellFormed) : m.Framed := by
  induction wf with
  | @mk message payload fits room count each ih =>
    refine .mk fits ?_ ih
    unfold TRecord.expects
    by_cases entries : message.type = appendEntriesType
    · have long : ¬ message.value.length < 56 := by
        rw [entries] at room
        have : 64 ≤ message.len := room
        rw [TRecord.len] at this
        omega
      rw [if_neg (not_not_intro entries), if_neg long, count, if_pos entries]
    · rw [if_pos entries, count, if_neg entries]

/-! ## One header -/

/-- One of the words was cut. -/
def Cut (s : Stream UInt8) (ws : List ℕ) : Prop := ∃ o ∈ ws, s.Splits o 4

instance (s : Stream UInt8) (ws : List ℕ) : Decidable (Cut s ws) := inferInstanceAs (Decidable (∃ _ ∈ _, _))

theorem cut_append (ws ws' : List ℕ) : Cut s (ws ++ ws') ↔ Cut s ws ∨ Cut s ws' := by
  unfold Cut
  simp only [List.mem_append, or_and_right, exists_or]

theorem not_cut_append {ws ws' : List ℕ} (whole : ¬ Cut s ws) (whole' : ¬ Cut s ws') : ¬ Cut s (ws ++ ws') := by
  rw [cut_append]
  exact fun either => either.elim whole whole'

theorem not_cut_nil : ¬ Cut s [] := fun ⟨_, mem, _⟩ => List.not_mem_nil mem

/-- A header is not cut exactly where neither word is. -/
theorem cut_header : Cut s [p, p + 4] ↔ s.Splits p 4 ∨ s.Splits (p + 4) 4 := by
  unfold Cut
  constructor
  · rintro ⟨o, mem, split⟩
    rcases List.mem_cons.mp mem with rfl | mem
    · exact .inl split
    · exact .inr (List.mem_singleton.mp mem ▸ split)
  · rintro (split | split)
    · exact ⟨p, List.mem_cons_self .., split⟩
    · exact ⟨p + 4, List.mem_cons_of_mem _ (List.mem_singleton_self _), split⟩

theorem read_cut (cut : Cut s [p, p + 4]) (d : ℕ) : read s (d + 1) p = .error .closed := by
  unfold TMessageReader.read
  by_cases first : s.readSome 4 p = 4
  · have whole := ((Stream.readSome_eq_iff (by decide) p).mp first).2
    have second : s.readSome 4 (p + 4) ≠ 4 := by
      intro second
      have whole' := ((Stream.readSome_eq_iff (by decide) (p + 4)).mp second).2
      exact (cut_header.mp cut).elim whole whole'
    rw [if_neg (not_not_intro first), if_pos second]
  · rw [if_pos first]

/-- The two words of a header, in one piece each. -/
theorem readSome_header {type len : ℕ} (here : s.items.drop p = le 4 type ++ (le 4 len ++ rest)) (whole : ¬ Cut s [p, p + 4]) :
    s.readSome 4 p = 4 ∧ s.readSome 4 (p + 4) = 4 ∧ s.slice p 4 = le 4 type ∧ s.slice (p + 4) 4 = le 4 len ∧
      s.items.drop (p + 8) = rest := by
  have some_ (n : ℕ) : le 4 n ≠ [] := List.ne_nil_of_length_eq_add_one (length_le 4 n)
  have type_at := Stream.slice_of_drop here
  have type_in := Stream.length_of_drop here (some_ type)
  have behind := Stream.drop_of_drop here
  rw [length_le] at type_at type_in behind
  have len_at := Stream.slice_of_drop behind
  have len_in := Stream.length_of_drop behind (some_ len)
  have body := Stream.drop_of_drop behind
  rw [length_le] at len_at len_in body
  rw [cut_header, not_or] at whole
  refine ⟨?_, ?_, type_at, len_at, body⟩
  · exact (Stream.readSome_eq_iff (by decide) p).mpr ⟨type_in, whole.1⟩
  · exact (Stream.readSome_eq_iff (by decide) (p + 4)).mpr ⟨len_in, whole.2⟩

theorem read_small {type len : ℕ} (small : len < 8) (here : s.items.drop p = le 4 type ++ (le 4 len ++ rest))
    (whole : ¬ Cut s [p, p + 4]) (d : ℕ) : read s (d + 1) p = .error .assertion := by
  obtain ⟨first, second, -, len_at, -⟩ := readSome_header here whole
  have len_eq : ofLe (le 4 len) = len := ofLe_le (by omega)
  unfold TMessageReader.read
  dsimp only
  rw [if_neg (not_not_intro first), if_neg (not_not_intro second), len_at, len_eq, if_pos small]

/-- **A message that is there is read**, and its payload behind it. -/
theorem read_message {message : TRecord} (fits : message.len < 2 ^ 32) (here : s.items.drop p = message.bytes ++ rest)
    (whole : ¬ Cut s [p, p + 4]) (d : ℕ) : read s (d + 1) p =
      match message.expects with
      | none => .error .beyond
      | some nentries =>
        (readPayload (read s d) nentries (p + message.len)).map fun (payload, p) => (.mk message payload, p) := by
  have inside := Stream.length_of_drop here (List.ne_nil_of_length_pos (by have := message.bytes_pos; omega))
  rw [TRecord.length_bytes] at inside
  rw [TRecord.bytes, List.append_assoc, List.append_assoc] at here
  obtain ⟨first, second, type_at, len_at, behind⟩ := readSome_header here whole
  have type_eq : ofLe (le 4 message.type.toNat) = message.type.toNat := ofLe_le message.type.toNat_lt
  have len_eq : ofLe (le 4 message.len) = message.len := ofLe_le fits
  have room : ¬ message.len < 8 := by simp [TRecord.len]
  have value : s.slice (p + 8) (message.len - 8) = message.value := by
    have := Stream.slice_of_drop behind
    rwa [show message.value.length = message.len - 8 by simp [TRecord.len]] at this
  unfold TMessageReader.read
  dsimp only
  rw [if_neg (not_not_intro first), if_neg (not_not_intro second), type_at, len_at, type_eq, len_eq, if_neg room,
    if_neg (Nat.not_lt.mpr inside), value, UInt32.ofNat_toNat]

/-- **What a stream begins with** at a position: nothing that gets beyond the header, a length that is too small, or the
bytes of a message. -/
inductive Begins (s : Stream UInt8) (p : ℕ) : Prop where
  | stopped (closed : ∀ d, read s (d + 1) p = .error .closed)
  | small {type len : ℕ} {rest : List UInt8} (small : len < 8)
      (here : s.items.drop p = le 4 type ++ (le 4 len ++ rest)) (whole : ¬ Cut s [p, p + 4])
  | message {message : TRecord} {rest : List UInt8} (fits : message.len < 2 ^ 32)
      (here : s.items.drop p = message.bytes ++ rest) (whole : ¬ Cut s [p, p + 4])

theorem begins (s : Stream UInt8) (p : ℕ) : Begins s p := by
  by_cases first : s.readSome 4 p = 4
  swap
  · refine .stopped fun d => ?_
    unfold TMessageReader.read
    rw [if_pos first]
  by_cases second : s.readSome 4 (p + 4) = 4
  swap
  · refine .stopped fun d => ?_
    unfold TMessageReader.read
    rw [if_neg (not_not_intro first), if_pos second]
  obtain ⟨inside, whole⟩ := (Stream.readSome_eq_iff (by decide) p).mp first
  obtain ⟨inside', whole'⟩ := (Stream.readSome_eq_iff (by decide) (p + 4)).mp second
  have uncut : ¬ Cut s [p, p + 4] := by
    rw [cut_header, not_or]
    exact ⟨whole, whole'⟩
  have type_len : (s.slice p 4).length = 4 := by
    rw [Stream.slice, List.length_take, List.length_drop]
    omega
  have len_len : (s.slice (p + 4) 4).length = 4 := by
    rw [Stream.slice, List.length_take, List.length_drop]
    omega
  have type_eq : le 4 (ofLe (s.slice p 4)) = s.slice p 4 := by
    have := le_ofLe (s.slice p 4)
    rwa [type_len] at this
  have len_eq : le 4 (ofLe (s.slice (p + 4) 4)) = s.slice (p + 4) 4 := by
    have := le_ofLe (s.slice (p + 4) 4)
    rwa [len_len] at this
  have here : s.items.drop p = le 4 (ofLe (s.slice p 4)) ++ (le 4 (ofLe (s.slice (p + 4) 4)) ++ s.items.drop (p + 8)) := by
    rw [type_eq, len_eq, Stream.slice, Stream.slice, show p + 8 = p + 4 + 4 by rfl, ← List.drop_drop (i := 4) (j := p + 4),
      List.take_append_drop, ← List.drop_drop (i := 4) (j := p), List.take_append_drop]
  by_cases small : ofLe (s.slice (p + 4) 4) < 8
  · exact .small small here uncut
  by_cases missing : s.items.length < p + ofLe (s.slice (p + 4) 4)
  · refine .stopped fun d => ?_
    unfold TMessageReader.read
    dsimp only
    rw [if_neg (not_not_intro first), if_neg (not_not_intro second), if_neg small, if_pos missing]
  let message : TRecord :=
    { type := UInt32.ofNat (ofLe (s.slice p 4))
      value := s.slice (p + 8) (ofLe (s.slice (p + 4) 4) - 8) }
  have type_lt := ofLe_lt (s.slice p 4)
  have len_lt := ofLe_lt (s.slice (p + 4) 4)
  rw [type_len] at type_lt
  rw [len_len] at len_lt
  have value_len : message.value.length = ofLe (s.slice (p + 4) 4) - 8 := by
    show ((s.items.drop (p + 8)).take _).length = _
    rw [List.length_take, List.length_drop]
    omega
  have len : message.len = ofLe (s.slice (p + 4) 4) := by
    rw [TRecord.len, value_len]
    omega
  have type : message.type.toNat = ofLe (s.slice p 4) := UInt32.toNat_ofNat_of_lt' (by simpa using type_lt)
  refine @Begins.message s p message (s.items.drop (p + 8 + (ofLe (s.slice (p + 4) 4) - 8))) ?_ ?_ uncut
  · rw [len]
    exact len_lt
  · rw [TRecord.bytes, len, type, here, List.append_assoc, List.append_assoc]
    congr 2
    exact (List.take_append_drop ..).symm.trans (congrArg _ List.drop_drop)

/-! ## One message -/

theorem write_pos (m : TMessageHolder) : 8 ≤ (write m).length := by
  cases m with
  | mk message payload =>
    have := message.bytes_pos
    rw [length_write, ← TRecord.length_bytes]
    omega

theorem write_ne_nil (m : TMessageHolder) : write m ≠ [] :=
  List.ne_nil_of_length_pos (Nat.lt_of_lt_of_le (by decide) (write_pos m))

/-- **The payload that is there is read** unless one of its words was cut, and then whatever follows it. -/
theorem readPayload_framed {one : ℕ → Except ReadFault (TMessageHolder × ℕ)}
    (each : ∀ m ∈ ms, ∀ p rest, s.items.drop p = write m ++ rest →
      one p = if Cut s (words p m) then .error .closed else .ok (m, p + (write m).length))
    (here : s.items.drop p = writeAll ms ++ rest) (k : ℕ) : readPayload one (ms.length + k) p =
      if Cut s (wordsAll p ms) then .error .closed
      else (readPayload one k (p + (writeAll ms).length)).map fun (ms', p) => (ms ++ ms', p) := by
  induction ms generalizing p with
  | nil =>
    rw [if_neg (show ¬ Cut s (wordsAll p []) from not_cut_nil), List.length_nil, Nat.zero_add]
    show readPayload one k p = (readPayload one k p).map _
    cases readPayload one k p <;> rfl
  | cons m ms ih =>
    rw [writeAll, List.append_assoc] at here
    have behind := Stream.drop_of_drop here
    have next := ih (fun m mem => each m (List.mem_cons_of_mem _ mem)) behind
    rw [List.length_cons, Nat.succ_add, readPayload, each m (List.mem_cons_self ..) p _ here, wordsAll]
    by_cases cut : Cut s (words p m)
    · rw [if_pos cut, if_pos ((cut_append _ _).mpr (.inl cut))]
      rfl
    rw [if_neg cut]
    show (readPayload one (ms.length + k) (p + (write m).length)).map _ = _
    rw [next]
    by_cases cuts : Cut s (wordsAll (p + (write m).length) ms)
    · rw [if_pos cuts, if_pos ((cut_append _ _).mpr (.inr cuts))]
      rfl
    · rw [if_neg cuts, if_neg (not_cut_append cut cuts), writeAll, List.length_append, Nat.add_assoc]
      cases readPayload one k (p + ((write m).length + (writeAll ms).length)) <;> rfl

/-- **A message that is there is read** unless one of the words was cut. -/
theorem read_framed (framed : m.Framed) (here : s.items.drop p = write m ++ rest) (deep : (write m).length ≤ d) :
    read s d p = if Cut s (words p m) then .error .closed else .ok (m, p + (write m).length) := by
  induction framed generalizing p rest d with
  | @mk message payload fits count each ih =>
    obtain ⟨d, rfl⟩ : ∃ k, d = k + 1 := Nat.exists_eq_succ_of_ne_zero (by have := write_pos (.mk message payload); omega)
    rw [length_write] at deep
    have := message.bytes_pos
    rw [TRecord.length_bytes] at this
    rw [write, List.append_assoc] at here
    have behind := Stream.drop_of_drop here
    rw [TRecord.length_bytes] at behind
    by_cases cut : Cut s [p, p + 4]
    · have : Cut s (words p (.mk message payload)) := (cut_append [p, p + 4] _).mpr (.inl cut)
      rw [read_cut cut, if_pos this]
    · have rest_of : Cut s (words p (.mk message payload)) ↔ Cut s (wordsAll (p + message.len) payload) :=
        (cut_append [p, p + 4] _).trans (or_iff_right cut)
      have read_payload := readPayload_framed (k := 0)
        (fun m mem p rest there => ih m mem (d := d) there (by have := length_write_le mem; omega)) behind
      rw [Nat.add_zero] at read_payload
      rw [read_message fits here cut, count]
      dsimp only
      rw [read_payload]
      by_cases cuts : Cut s (wordsAll (p + message.len) payload)
      · rw [if_pos cuts, if_pos (rest_of.mpr cuts)]
        rfl
      · rw [if_neg cuts, if_neg (mt rest_of.mp cuts), length_write, ← Nat.add_assoc]
        simp [readPayload, Except.map]

/-- **Bytes at `p` that are no message**: the length is too small for a header, the buffer too short for `Nentries`, or that
is so of a message of the payload. The reader fails at them after the header words `ws`. -/
inductive Broken : ℕ → List ℕ → ReadFault → List UInt8 → Prop where
  | small {p type len : ℕ} {rest : List UInt8} (small : len < 8) :
    Broken p [p, p + 4] .assertion (le 4 type ++ (le 4 len ++ rest))
  | body {p : ℕ} {message : TRecord} {rest : List UInt8} (fits : message.len < 2 ^ 32) (short : message.expects = none) :
    Broken p [p, p + 4] .beyond (message.bytes ++ rest)
  | payload {p n : ℕ} {message : TRecord} {ms : List TMessageHolder} {ws : List ℕ} {f : ReadFault} {tail : List UInt8}
    (fits : message.len < 2 ^ 32) (count : message.expects = some n) (each : ∀ m ∈ ms, m.Framed) (more : ms.length < n)
    (next : Broken (p + message.len + (writeAll ms).length) ws f tail) :
    Broken p ([p, p + 4] ++ (wordsAll (p + message.len) ms ++ ws)) f (message.bytes ++ (writeAll ms ++ tail))

variable {ws : List ℕ} {f : ReadFault}

theorem Broken.pos (broken : Broken p ws f rest) : 8 ≤ rest.length := by
  cases broken with
  | small =>
    rw [List.length_append, List.length_append, length_le, length_le]
    omega
  | body => exact TRecord.bytes_append_pos _ _
  | payload => exact TRecord.bytes_append_pos _ _

theorem Broken.ne_depth (broken : Broken p ws f rest) : f ≠ .depth := by
  induction broken with
  | small => exact nofun
  | body => exact nofun
  | payload _ _ _ _ _ ih => exact ih

theorem Broken.ne_closed (broken : Broken p ws f rest) : f ≠ .closed := by
  induction broken with
  | small => exact nofun
  | body => exact nofun
  | payload _ _ _ _ _ ih => exact ih

/-- **The reader fails** at what is no message, unless one of the words was cut: then it takes the connection for closed. -/
theorem read_broken (broken : Broken p ws f rest) (here : s.items.drop p = rest) (deep : rest.length ≤ d) :
    read s d p = .error (if Cut s ws then .closed else f) := by
  have pos := broken.pos
  induction broken generalizing d with
  | @small p type len rest small =>
    obtain ⟨d, rfl⟩ : ∃ k, d = k + 1 := Nat.exists_eq_succ_of_ne_zero (by omega)
    by_cases cut : Cut s [p, p + 4]
    · rw [if_pos cut, read_cut cut]
    · rw [if_neg cut, read_small small here cut]
  | @body p message rest fits short =>
    obtain ⟨d, rfl⟩ : ∃ k, d = k + 1 := Nat.exists_eq_succ_of_ne_zero (by omega)
    by_cases cut : Cut s [p, p + 4]
    · rw [if_pos cut, read_cut cut]
    · rw [if_neg cut, read_message fits here cut, short]
  | @payload p n message ms ws f tail fits count each more next ih =>
    obtain ⟨d, rfl⟩ : ∃ k, d = k + 1 := Nat.exists_eq_succ_of_ne_zero (by omega)
    have := message.bytes_pos
    rw [List.length_append, List.length_append] at deep
    have behind := Stream.drop_of_drop here
    rw [TRecord.length_bytes] at behind
    by_cases cut : Cut s [p, p + 4]
    · rw [if_pos ((cut_append _ _).mpr (.inl cut)), read_cut cut]
    have rest_of : Cut s ([p, p + 4] ++ (wordsAll (p + message.len) ms ++ ws)) ↔
        Cut s (wordsAll (p + message.len) ms) ∨ Cut s ws := by
      rw [cut_append, cut_append]
      exact or_iff_right cut
    obtain ⟨k, rfl⟩ : ∃ k, n = ms.length + (k + 1) := ⟨n - ms.length - 1, by omega⟩
    have read_payload := readPayload_framed (k := k + 1)
      (fun m mem p rest there =>
        read_framed (d := d) (each m mem) there (by have := length_write_le mem; omega)) behind
    have failed := ih (d := d) (Stream.drop_of_drop behind) (by omega) next.pos
    rw [read_message fits here cut, count]
    dsimp only
    rw [read_payload]
    by_cases cuts : Cut s (wordsAll (p + message.len) ms)
    · rw [if_pos cuts, if_pos (rest_of.mpr (.inl cuts))]
      rfl
    · rw [if_neg cuts, readPayload, failed, if_congr (rest_of.trans (or_iff_right cuts)) rfl rfl]
      rfl

/-- **What `Read` comes to** at a position. It gives up only where the stream goes on for as many bytes as it was deep. -/
inductive Outcome (s : Stream UInt8) (d p : ℕ) : Except ReadFault (TMessageHolder × ℕ) → Prop where
  | message {m : TMessageHolder} {rest : List UInt8} (framed : m.Framed) (here : s.items.drop p = write m ++ rest)
    (whole : ¬ Cut s (words p m)) : Outcome s d p (.ok (m, p + (write m).length))
  | fault {ws : List ℕ} {f : ReadFault} (broken : Broken p ws f (s.items.drop p)) (whole : ¬ Cut s ws) :
    Outcome s d p (.error f)
  | closed : Outcome s d p (.error .closed)
  | depth (shallow : p ≤ s.items.length → p + d ≤ s.items.length) : Outcome s d p (.error .depth)

/-- What the loop over a payload of `n` messages comes to. -/
inductive Outcomes (s : Stream UInt8) (d n p : ℕ) : Except ReadFault (List TMessageHolder × ℕ) → Prop where
  | messages {ms : List TMessageHolder} {rest : List UInt8} (each : ∀ m ∈ ms, m.Framed) (count : n = ms.length)
    (here : s.items.drop p = writeAll ms ++ rest) (whole : ¬ Cut s (wordsAll p ms)) :
    Outcomes s d n p (.ok (ms, p + (writeAll ms).length))
  | fault {ms : List TMessageHolder} {ws : List ℕ} {f : ReadFault} {tail : List UInt8} (each : ∀ m ∈ ms, m.Framed)
    (more : ms.length < n) (here : s.items.drop p = writeAll ms ++ tail)
    (broken : Broken (p + (writeAll ms).length) ws f tail) (whole : ¬ Cut s (wordsAll p ms ++ ws)) :
    Outcomes s d n p (.error f)
  | closed : Outcomes s d n p (.error .closed)
  | depth (shallow : p ≤ s.items.length → p + d ≤ s.items.length) : Outcomes s d n p (.error .depth)

theorem readPayload_outcomes {one : ℕ → Except ReadFault (TMessageHolder × ℕ)} (each : ∀ p, Outcome s d p (one p)) (n p : ℕ) :
    Outcomes s d n p (readPayload one n p) := by
  induction n generalizing p with
  | zero => exact @Outcomes.messages s d 0 p [] _ nofun rfl rfl not_cut_nil
  | succ n ih =>
    unfold readPayload
    generalize one p = r, each p = first
    cases first with
    | @message m rest framed here whole =>
      show Outcomes s d (n + 1) p ((readPayload one n (p + (write m).length)).map _)
      generalize readPayload one n (p + (write m).length) = r, ih (p + (write m).length) = next
      cases next with
      | @messages ms rest' each count here' whole' =>
        have all : ∀ x ∈ m :: ms, x.Framed := List.forall_mem_cons.mpr ⟨framed, each⟩
        rw [Stream.drop_of_drop here] at here'
        show Outcomes s d (n + 1) p (.ok (m :: ms, p + (write m).length + (writeAll ms).length))
        rw [Nat.add_assoc, ← List.length_append]
        exact @Outcomes.messages s d (n + 1) p (m :: ms) rest' all (by rw [count, List.length_cons])
          (by rw [here, here', writeAll, List.append_assoc]) (not_cut_append whole whole')
      | @fault ms ws f tail each more here' broken whole' =>
        have all : ∀ x ∈ m :: ms, x.Framed := List.forall_mem_cons.mpr ⟨framed, each⟩
        rw [Stream.drop_of_drop here] at here'
        apply @Outcomes.fault s d (n + 1) p (m :: ms) ws f tail all (Nat.succ_lt_succ more)
        · rw [here, here', writeAll, List.append_assoc]
        · rw [writeAll, List.length_append, ← Nat.add_assoc]
          exact broken
        · rw [wordsAll, List.append_assoc]
          exact not_cut_append whole whole'
      | closed => exact .closed
      | depth shallow =>
        refine .depth fun _ => ?_
        have within := Stream.length_of_drop here (write_ne_nil m)
        have := shallow within
        omega
    | @fault ws f broken whole => exact @Outcomes.fault s d (n + 1) p [] ws f _ nofun (Nat.succ_pos n) rfl broken whole
    | closed => exact .closed
    | depth shallow => exact .depth shallow

theorem read_outcome (s : Stream UInt8) (d p : ℕ) : Outcome s d p (read s d p) := by
  induction d generalizing p with
  | zero => exact .depth id
  | succ d ih =>
    cases begins s p with
    | stopped closed =>
      rw [closed d]
      exact .closed
    | small small here whole =>
      rw [read_small small here whole d]
      have broken : Broken p [p, p + 4] .assertion (s.items.drop p) := by
        rw [here]
        exact .small small
      exact .fault broken whole
    | @message message rest fits here whole =>
      rw [read_message fits here whole d]
      have behind := Stream.drop_of_drop here
      rw [TRecord.length_bytes] at behind
      cases count : message.expects with
      | none =>
        have broken : Broken p [p, p + 4] .beyond (s.items.drop p) := by
          rw [here]
          exact .body fits count
        exact .fault broken whole
      | some n =>
        dsimp only
        generalize readPayload (read s d) n (p + message.len) = r, readPayload_outcomes ih n (p + message.len) = next
        cases next with
        | @messages ms rest' each same here' whole' =>
          subst same
          rw [behind] at here'
          show Outcome s (d + 1) p (.ok (.mk message ms, p + message.len + (writeAll ms).length))
          rw [Nat.add_assoc, ← length_write]
          have at_p : s.items.drop p = write (.mk message ms) ++ rest' := by
            rw [here, here', write, List.append_assoc]
          have uncut : ¬ Cut s ([p, p + 4] ++ wordsAll (p + message.len) ms) := not_cut_append whole whole'
          exact .message (.mk fits count each) at_p uncut
        | @fault ms ws f tail each more here' broken whole' =>
          rw [behind] at here'
          refine .fault ?_ (not_cut_append whole whole')
          rw [here, here']
          exact .payload fits count each more broken
        | closed => exact .closed
        | depth shallow =>
          refine .depth fun _ => ?_
          have header := message.bytes_pos
          have within := Stream.length_of_drop here (List.ne_nil_of_length_pos (by omega))
          rw [TRecord.length_bytes] at within header
          have := shallow within
          omega

/-- **The reader never gives up**: every message takes a header at least. -/
theorem read_ne_depth (inside : p ≤ s.items.length) (deep : s.items.length < p + d) : read s d p ≠ .error .depth := by
  intro gave_up
  have outcome := read_outcome s d p
  rw [gave_up] at outcome
  cases outcome with
  | fault broken => exact broken.ne_depth rfl
  | depth shallow =>
    have := shallow inside
    omega

/-! ## One message after the other -/

theorem length_le_writeAll (ms : List TMessageHolder) : ms.length ≤ (writeAll ms).length := by
  induction ms with
  | nil => exact Nat.le_refl 0
  | cons m ms ih =>
    have := write_pos m
    rw [writeAll, List.length_append, List.length_cons]
    omega

theorem receive_rounds (bytes : s.items = writeAll ms ++ rest) : ∃ k, s.items.length + 1 = ms.length + (k + 1) := by
  have := length_le_writeAll ms
  have := congrArg List.length bytes
  rw [List.length_append] at this
  exact ⟨s.items.length - ms.length, by omega⟩

theorem drop_writeAll (bytes : s.items = writeAll ms ++ rest) : s.items.drop (writeAll ms).length = rest := by
  rw [bytes, List.drop_left]

/-- **Messages that are there are received** where none of their words was cut, and then whatever follows them. -/
theorem receive_framed (each : ∀ m ∈ ms, m.Framed) (here : s.items.drop p = writeAll ms ++ rest)
    (whole : ¬ Cut s (wordsAll p ms)) (k : ℕ) : receive s (ms.length + k) p =
      (ms ++ (receive s k (p + (writeAll ms).length)).1, (receive s k (p + (writeAll ms).length)).2) := by
  induction ms generalizing p with
  | nil =>
    rw [List.length_nil, Nat.zero_add]
    rfl
  | cons m ms ih =>
    rw [wordsAll, cut_append, not_or] at whole
    rw [writeAll, List.append_assoc] at here
    have within := Stream.length_of_drop here (write_ne_nil m)
    have first := read_framed (d := s.items.length + 1) (each m (List.mem_cons_self ..)) here (by omega)
    have next := ih (fun m mem => each m (List.mem_cons_of_mem _ mem)) (Stream.drop_of_drop here) whole.2
    rw [List.length_cons, Nat.succ_add, receive, first, if_neg whole.1]
    dsimp only
    rw [next, writeAll, List.length_append, Nat.add_assoc]
    rfl

/-- Messages that are there are the first that are received. -/
theorem received_framed (bytes : s.items = writeAll ms ++ rest) (each : ∀ m ∈ ms, m.Framed)
    (whole : ¬ Cut s (wordsAll 0 ms)) : ∃ k, received s =
      (ms ++ (receive s (k + 1) (writeAll ms).length).1, (receive s (k + 1) (writeAll ms).length).2) := by
  obtain ⟨k, rounds⟩ := receive_rounds bytes
  have all := receive_framed (k := k + 1) each (by rw [List.drop_zero, bytes]) whole
  rw [Nat.zero_add, ← rounds] at all
  exact ⟨k, all⟩

/-- At the end of the stream the connection is closed. -/
theorem read_end (s : Stream UInt8) (d : ℕ) : read s (d + 1) s.items.length = .error .closed := by
  have nothing : s.readSome 4 s.items.length ≠ 4 := by
    rw [Ne, Stream.readSome_eq_iff (by decide)]
    omega
  unfold TMessageReader.read
  rw [if_pos nothing]

theorem not_cut_of_readSome {ws : List ℕ} (full : ∀ o ∈ ws, s.readSome 4 o = 4) : ¬ Cut s ws := by
  rintro ⟨o, mem, split⟩
  exact ((Stream.readSome_eq_iff (by decide) o).mp (full o mem)).2 split

/-- **Messages come back from the wire**: well-formed messages that are written one after the other are received, with their
payloads and to the last byte, where every read of a header word returns all of it; and what is read as a message is what
is written for it. -/
theorem wire_round_trip :
    (∀ (ms : List TMessageHolder) (s : Stream UInt8), (∀ m ∈ ms, m.WellFormed) → s.items = writeAll ms →
      (∀ o ∈ wordsAll 0 ms, s.readSome 4 o = 4) →
      received s = (ms, .closed) ∧
        readPayload (read s (s.items.length + 1)) ms.length 0 = .ok (ms, s.items.length)) ∧
    ∀ (s : Stream UInt8) (d p q : ℕ) (m : TMessageHolder), read s d p = .ok (m, q) →
      q = p + (write m).length ∧ s.slice p (write m).length = write m := by
  constructor
  · intro ms s wf bytes full
    have whole := not_cut_of_readSome full
    have each : ∀ m ∈ ms, m.Framed := fun m mem => (wf m mem).framed
    have here : s.items = writeAll ms ++ [] := by
      rw [List.append_nil, bytes]
    have at_end : (writeAll ms).length = s.items.length := by
      rw [bytes]
    constructor
    · obtain ⟨k, all⟩ := received_framed here each whole
      rw [all, at_end, receive, read_end]
      exact congrArg (·, _) (List.append_nil ms)
    · have read_one (m : TMessageHolder) (mem : m ∈ ms) (p : ℕ) (rest : List UInt8)
          (there : s.items.drop p = write m ++ rest) : read s (s.items.length + 1) p =
            if Cut s (words p m) then .error .closed else .ok (m, p + (write m).length) := by
        have within := Stream.length_of_drop there (write_ne_nil m)
        exact read_framed (each m mem) there (by omega)
      have read_all := readPayload_framed read_one (List.drop_zero.trans here) 0
      rw [Nat.add_zero ms.length, Nat.zero_add] at read_all
      rw [read_all, if_neg whole, at_end]
      exact congrArg (fun ms => Except.ok (ms, s.items.length)) (List.append_nil ms)
  · intro s d p q m done
    generalize outcome : read s d p = r at done
    have := read_outcome s d p
    rw [outcome, done] at this
    cases this with
    | message framed here whole => exact ⟨rfl, Stream.slice_of_drop here⟩

/-- One entry, appended. -/
def appendOne : TMessageHolder :=
  .mk { type := 4, value := List.replicate 52 0 ++ [1, 0, 0, 0] } [.mk { type := 1, value := List.replicate 17 7 } []]

theorem appendOne_wellFormed : appendOne.WellFormed := by
  refine .mk (by decide) (by decide) (by decide) fun m mem => ?_
  obtain rfl := List.mem_singleton.mp mem
  exact .mk (by decide) (by decide) (by decide) nofun

theorem wire_round_trip_nested :
    received ⟨writeAll [appendOne, appendOne], {64, 72, 89, 100}⟩ = ([appendOne, appendOne], .closed) :=
  (wire_round_trip.1 [appendOne, appendOne] ⟨writeAll [appendOne, appendOne], {64, 72, 89, 100}⟩
    (fun m mem => by
      rcases List.mem_cons.mp mem with rfl | mem
      · exact appendOne_wellFormed
      · rw [List.mem_singleton.mp mem]
        exact appendOne_wellFormed)
    rfl (by decide +kernel)).1

end MiniRaft
