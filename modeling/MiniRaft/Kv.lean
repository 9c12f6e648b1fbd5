import MiniRaft.Codec
import MiniRaft.Lib.Assignments
import MiniRaft.Replicas

/-!
# The key-value store (`TKv`)

Keys and values lie one behind the other in the data of an entry, after two sizes of 16 bits. What `Read` and `Write` read is
not checked against the length of the message, so `beyond` gives the memory behind it, byte by byte, and `listing` the order
in which an `unordered_map` is listed. Both may be others in every call. The servers are one store where the sizes in all
entries fit.
-/

namespace MiniRaft

open Lib

/-- `H`. -/
abbrev KvMap := Finmap fun _ : List UInt8 => List UInt8

/-- `TKv`. -/
abbrev TKv := TRsm KvMap

/-- The `n` bytes at position `i` of a message that holds `data`. -/
def slice (beyond : ℕ → UInt8) (data : List UInt8) (i n : ℕ) : List UInt8 :=
  (List.range' i n).map fun j => data.getD j (beyond j)

/-- A `uint16_t`. -/
def uint16 (beyond : ℕ → UInt8) (data : List UInt8) (i : ℕ) : ℕ := ofLe (slice beyond data i 2)

namespace TKv

/-- `TKvEntry` in the data of a log entry. An empty value removes the key. -/
def entry (beyond : ℕ → UInt8) (data : List UInt8) : Assignment (List UInt8) (List UInt8) :=
  let keySize := uint16 beyond data 0
  let valSize := uint16 beyond data 2
  { key := slice beyond data 4 keySize
    value := if valSize ≠ 0 then some (slice beyond data (4 + keySize) valSize) else none }

/-- What `list` shows of one pair. -/
def line (pair : List UInt8 × List UInt8) : List UInt8 := pair.1 ++ [0x20, 0x3d, 0x20] ++ pair.2 ++ [0x0a]

/-- `Read`. -/
def read (beyond : ℕ → UInt8) (listing : KvMap → List (List UInt8 × List UInt8))
    (message : TCommandRequest) (index : ℕ) (kv : TKv) : Option TCommandResponse × TKv :=
  let keySize := uint16 beyond message.data 0
  if keySize = 0 then (some { index, data := (listing kv.impl).flatMap line }, kv)
  else
    match kv.impl.lookup (slice beyond message.data 2 keySize) with
    | none => (some { index }, kv)
    | some value => (some { index, data := value }, kv)

/-- `Write`. -/
def write (beyond : ℕ → UInt8) (message : TLogEntry) (index : ℕ) (kv : TKv) : Option TCommandResponse × TKv :=
  if kv.lastAppliedIndex < index then
    (none, { lastAppliedIndex := index, impl := assign kv.impl (entry beyond message.data) })
  else (none, kv)

/-- `Prepare`. -/
def prepare (command : TCommandRequest) (kv : TKv) : TLogEntry × TKv := ({ data := command.data }, kv)

def rsm (beyond : ℕ → UInt8) (listing : KvMap → List (List UInt8 × List UInt8)) :
    IRsm KvMap where
  read := read beyond listing
  write := write beyond
  prepare := prepare

end TKv

/-! ## The client -/

/-- A token, and what is behind the separator that ends it; `none` is the null pointer. -/
def strtok (sep : UInt8 → Bool) (text : List UInt8) : Option (List UInt8 × List UInt8) :=
  match text.dropWhile sep with
  | [] => none
  | rest => some (rest.takeWhile (! sep ·), (rest.dropWhile (! sep ·)).drop 1)

/-- What a line asks for. -/
inductive KvCommand where
  | set (key val : List UInt8)
  | get (key : List UInt8)
  | list
  | del (key : List UInt8)
  deriving DecidableEq

namespace KvCommand

/-- `" \t\r\n"`. -/
def sep (byte : UInt8) : Bool := byte = 0x20 ∨ byte = 0x09 ∨ byte = 0x0d ∨ byte = 0x0a

/-- The words `set`, `get`, `list` and `del`. -/
def setWord : List UInt8 := [0x73, 0x65, 0x74]
def getWord : List UInt8 := [0x67, 0x65, 0x74]
def listWord : List UInt8 := [0x6c, 0x69, 0x73, 0x74]
def delWord : List UInt8 := [0x64, 0x65, 0x6c]

/-- The command in a line. There is none where the client goes on with a null pointer: a token is missing, or the word is
none of the four. -/
def parse (line : List UInt8) : Option KvCommand :=
  let text := line.takeWhile (· ≠ 0)
  (strtok sep text).bind fun (word, text) =>
    if word = setWord then
      (strtok sep text).bind fun (key, text) => (strtok sep text).bind fun (val, _) => some (.set key val)
    else if word = getWord then (strtok sep text).bind fun (key, _) => some (.get key)
    else if word = listWord then some .list
    else if word = delWord then (strtok sep text).bind fun (key, _) => some (.del key)
    else none

/-- `TWriteKv`. -/
def writeKv (key val : List UInt8) : TCommandRequest where
  flags := 1
  data := le 2 key.length ++ le 2 val.length ++ key ++ val

/-- `TReadKv`, with the two bytes that the struct is longer than its fields. -/
def readKv (flags : ℕ) (spare key : List UInt8) : TCommandRequest where
  flags := flags
  data := le 2 key.length ++ key ++ spare

/-- The message that is sent; `flags` is what the options `--stale` and `--consistent` make. -/
def request (flags : ℕ) (spare : List UInt8) : KvCommand → TCommandRequest
  | set key val => writeKv key val
  | get key => readKv flags spare key
  | list => readKv flags spare []
  | del key => writeKv key []

end KvCommand

/-! ## There and back -/

variable {beyond : ℕ → UInt8} {listing : KvMap → List (List UInt8 × List UInt8)}
  {data key val : List UInt8}

theorem slice_inside {i n : ℕ} (inside : i + n ≤ data.length) : slice beyond data i n = (data.drop i).take n := by
  apply List.ext_getElem
  · simp [slice]
    omega
  · intro j low high
    have low : j < n := by simpa [slice] using low
    have here : i + j < data.length := by omega
    simp [slice, List.getD_eq_getElem?_getD, here]

theorem uint16_inside {i : ℕ} (inside : i + 2 ≤ data.length) : uint16 beyond data i = word data i 2 := by
  rw [uint16, slice_inside inside, word]

theorem mod_uint16 {n : ℕ} (fits : n < 2 ^ 16) : n % 256 ^ 2 = n := Nat.mod_eq_of_lt fits

theorem length_writeKv (key val : List UInt8) : (KvCommand.writeKv key val).data.length = 4 + key.length + val.length := by
  simp [KvCommand.writeKv]
  omega

/-- The sizes of an entry are those of its key and value. -/
theorem word_writeKv (short : key.length < 2 ^ 16) (short' : val.length < 2 ^ 16) :
    word (KvCommand.writeKv key val).data 0 2 = key.length ∧ word (KvCommand.writeKv key val).data 2 2 = val.length := by
  unfold KvCommand.writeKv
  constructor
  · simp only [List.append_assoc, word_here, mod_uint16 short]
  · simp only [List.append_assoc, word_skip le_rfl, word_here, Nat.sub_self, mod_uint16 short']

/-- **An entry is read back as it was written**, whatever the memory behind it holds. -/
theorem TKv.entry_writeKv (short : key.length < 2 ^ 16) (short' : val.length < 2 ^ 16) :
    entry beyond (KvCommand.writeKv key val).data = { key, value := if val = [] then none else some val } := by
  have len := length_writeKv key val
  obtain ⟨word_key, word_val⟩ := word_writeKv short short'
  have first : uint16 beyond (KvCommand.writeKv key val).data 0 = key.length := (uint16_inside (by omega)).trans word_key
  have second : uint16 beyond (KvCommand.writeKv key val).data 2 = val.length := (uint16_inside (by omega)).trans word_val
  have keyed : slice beyond (KvCommand.writeKv key val).data 4 key.length = key := by
    rw [slice_inside (by omega), KvCommand.writeKv]
    simp (disch := decide) only [List.append_assoc, drop_skip, Nat.reduceSub, List.drop_zero, List.take_left]
  have valued : slice beyond (KvCommand.writeKv key val).data (4 + key.length) val.length = val := by
    rw [slice_inside (by omega), KvCommand.writeKv, ← List.drop_drop]
    simp (disch := decide) only [List.append_assoc, drop_skip, Nat.reduceSub, List.drop_zero, List.drop_left, List.take_length]
  unfold entry
  dsimp only
  rw [first, second, keyed, valued]
  by_cases empty : val = []
  · simp [empty]
  · simp [empty]

/-- A key is found as it was asked for, and no key lists everything. -/
theorem TKv.read_readKv (short : key.length < 2 ^ 16) (flags : ℕ) (spare : List UInt8) (index : ℕ) (kv : TKv)
    {command : TCommandRequest} (same : command.data = (KvCommand.readKv flags spare key).data) :
    (read beyond listing command index kv).1 = some
      { index, data := if key = [] then (listing kv.impl).flatMap line else (kv.impl.lookup key).getD [] } := by
  have len : (KvCommand.readKv flags spare key).data.length = 2 + key.length + spare.length := by
    simp [KvCommand.readKv]
    omega
  have size : uint16 beyond (KvCommand.readKv flags spare key).data 0 = key.length := by
    rw [uint16_inside (by omega), KvCommand.readKv]
    simp only [List.append_assoc, word_here, mod_uint16 short]
  have keyed : slice beyond (KvCommand.readKv flags spare key).data 2 key.length = key := by
    rw [slice_inside (by omega), KvCommand.readKv]
    simp (disch := decide) only [List.append_assoc, drop_skip, Nat.reduceSub, List.drop_zero, List.take_left]
  unfold read
  dsimp only
  rw [same, size, keyed]
  by_cases empty : key = []
  · simp [empty]
  · rw [if_neg (by simpa using empty), if_neg empty]
    cases kv.impl.lookup key with
    | none => rfl
    | some value => rfl

theorem strtok_some {sep : UInt8 → Bool} {text token rest : List UInt8} (found : strtok sep text = some (token, rest)) :
    token ≠ [] ∧ token.length + rest.length ≤ text.length := by
  unfold strtok at found
  cases behind : text.dropWhile sep with
  | nil => simp [behind] at found
  | cons first more =>
    have start : sep first = false := by
      have := List.dropWhile_get_zero_not (p := sep) text (by simp [behind])
      simpa [behind] using this
    have shorter : (text.dropWhile sep).length ≤ text.length := List.length_dropWhile_le ..
    have split := congrArg List.length (List.takeWhile_append_dropWhile (p := (! sep ·)) (l := first :: more))
    simp only [behind, Option.some.injEq, Prod.mk.injEq] at found shorter
    obtain ⟨rfl, rfl⟩ := found
    constructor
    · simp [start]
    · rw [List.length_append] at split
      rw [List.length_drop]
      omega

namespace KvCommand

/-- The fields of a command that come from a line. -/
def tokens : KvCommand → List (List UInt8)
  | set key val => [key, val]
  | get key | del key => [key]
  | list => []

/-- **No token is empty**, so that a value is never taken for a removal, nor a key for a listing. -/
theorem parse_tokens {line : List UInt8} {c : KvCommand} (parsed : parse line = some c) :
    ∀ token ∈ c.tokens, token ≠ [] ∧ token.length ≤ line.length := by
  have cut : (line.takeWhile (· ≠ 0)).length ≤ line.length := (List.takeWhile_prefix _).length_le
  simp only [parse, Option.bind_eq_some_iff, Prod.exists] at parsed
  obtain ⟨word, text, first, parsed⟩ := parsed
  obtain ⟨-, room⟩ := strtok_some first
  split at parsed
  · simp only [Option.bind_eq_some_iff, Prod.exists] at parsed
    obtain ⟨key, text', second, val, text'', third, same⟩ := parsed
    cases same
    obtain ⟨some_, room'⟩ := strtok_some second
    obtain ⟨some_', room''⟩ := strtok_some third
    have low : key.length ≤ line.length := by omega
    have low' : val.length ≤ line.length := by omega
    simp [tokens, some_, some_', low, low']
  · split at parsed
    · simp only [Option.bind_eq_some_iff, Prod.exists] at parsed
      obtain ⟨key, text', second, same⟩ := parsed
      cases same
      obtain ⟨some_, room'⟩ := strtok_some second
      have low : key.length ≤ line.length := by omega
      simp [tokens, some_, low]
    · split at parsed
      · cases parsed
        simp [tokens]
      · split at parsed
        · simp only [Option.bind_eq_some_iff, Prod.exists] at parsed
          obtain ⟨key, text', second, same⟩ := parsed
          cases same
          obtain ⟨some_, room'⟩ := strtok_some second
          have low : key.length ≤ line.length := by omega
          simp [tokens, some_, low]
        · cases parsed

/-- What a command does to the store. -/
def effect : KvCommand → Option (Assignment (List UInt8) (List UInt8))
  | set key val => some { key, value := some val }
  | del key => some { key, value := none }
  | get _ | list => none

/-- What a command learns of the store. -/
def answer (listing : KvMap → List (List UInt8 × List UInt8))
    (store : KvMap) : KvCommand → List UInt8
  | get key => (store.lookup key).getD []
  | list => (listing store).flatMap TKv.line
  | set _ _ | del _ => []

/-- A write that a line asks for is the entry that it becomes. -/
theorem entry_request {line : List UInt8} {c : KvCommand} (parsed : parse line = some c) (short : line.length < 2 ^ 16)
    (flags : ℕ) (spare : List UInt8) {a : Assignment (List UInt8) (List UInt8)} (writes : c.effect = some a) :
    TKv.entry beyond (c.request flags spare).data = a := by
  have each := parse_tokens parsed
  cases c with
  | set key val =>
    cases writes
    simp only [tokens, List.forall_mem_cons] at each
    obtain ⟨⟨-, low⟩, ⟨some_, low'⟩, -⟩ := each
    rw [request, TKv.entry_writeKv (by omega) (by omega), if_neg some_]
  | del key =>
    cases writes
    simp only [tokens, List.forall_mem_cons] at each
    obtain ⟨⟨-, low⟩, -⟩ := each
    rw [request, TKv.entry_writeKv (by omega) (by decide), if_pos rfl]
  | get | list => cases writes

/-- A read that a line asks for is answered out of the store. -/
theorem read_request {line : List UInt8} {c : KvCommand} (parsed : parse line = some c) (short : line.length < 2 ^ 16)
    {flags : ℕ} {spare : List UInt8} (reads : c.effect = none) (index : ℕ) (kv : TKv) {command : TCommandRequest}
    (same : command.data = (c.request flags spare).data) :
    (TKv.read beyond listing command index kv).1 = some { index, data := c.answer listing kv.impl } := by
  have each := parse_tokens parsed
  cases c with
  | get key =>
    simp only [tokens, List.forall_mem_cons] at each
    obtain ⟨⟨some_, low⟩, -⟩ := each
    rw [TKv.read_readKv (by omega) flags spare index kv same, if_neg some_]
    rfl
  | list =>
    rw [TKv.read_readKv (by decide) flags spare index kv same, if_pos rfl]
    rfl
  | set | del => cases reads

end KvCommand

/-! ## Replicas -/

namespace TKv

/-- An entry has the bytes that its sizes speak of. -/
def Fits (data : List UInt8) : Prop := 4 + word data 0 2 + word data 2 2 ≤ data.length

instance (data : List UInt8) : Decidable (Fits data) := inferInstanceAs (Decidable (_ ≤ _))

/-- What an entry that fits asks for. -/
def meaning (data : List UInt8) : Assignment (List UInt8) (List UInt8) where
  key := (data.drop 4).take (word data 0 2)
  value := if word data 2 2 ≠ 0 then some ((data.drop (4 + word data 0 2)).take (word data 2 2)) else none

/-- **The memory behind an entry does not matter** where it fits. -/
theorem entry_of_fits (fits : Fits data) (beyond : ℕ → UInt8) : entry beyond data = meaning data := by
  unfold Fits at fits
  unfold entry meaning
  dsimp only
  rw [uint16_inside (by omega), uint16_inside (by omega), slice_inside (by omega), slice_inside (by omega)]

/-- All pairs of the map are listed, in some order. -/
def Lists (listing : KvMap → List (List UInt8 × List UInt8))
    (store : KvMap) : Prop :=
  (listing store : Multiset (List UInt8 × List UInt8)) = store.entries.map fun pair => (pair.1, pair.2)

instance (listing : KvMap → List (List UInt8 × List UInt8))
    (store : KvMap) : Decidable (Lists listing store) :=
  inferInstanceAs (Decidable (_ = _))

/-- What a call may come upon: any memory behind the messages, and any order of the map. -/
def Among (store : KvMap) (rsm : IRsm KvMap) : Prop :=
  ∃ beyond listing, Lists listing store ∧ rsm = TKv.rsm beyond listing

theorem replaysOn (beyond : ℕ → UInt8)
    (listing : KvMap → List (List UInt8 × List UInt8)) :
    (rsm beyond listing).ReplaysOn (fun store e => assign store (meaning e.data)) fun e => Fits e.data where
  read c i r := by
    change (read beyond listing c i r).2 = r
    unfold read
    dsimp only
    split
    · rfl
    · split <;> rfl
  prepare _ _ := rfl
  write e i r fits low := by
    change (write beyond e i r).2 = _
    unfold write
    rw [if_pos low, entry_of_fits fits]

/-- The store after the entries of a log. -/
def store (log : List TLogEntry) : KvMap :=
  replay (fun store e => assign store (meaning e.data)) ∅ log

theorem lookup_store (log : List TLogEntry) (key : List UInt8) :
    (store log).lookup key = lastTo key ((clients log).map fun e => meaning e.data) := by
  rw [← lookup_assign_all, List.foldl_map]
  rfl

/-- All entries of clients in all logs fit. -/
def Fitting (ids : Finset ℕ) (P : System KvMap) : Prop :=
  ∀ s ∈ ids, ∀ e ∈ clients (P s).raft.state.log, Fits e.data

instance (ids : Finset ℕ) (P : System KvMap) : Decidable (Fitting ids P) :=
  inferInstanceAs (Decidable (∀ s ∈ ids, ∀ e ∈ clients (P s).raft.state.log, Fits e.data))

theorem fits_writeKv (short : key.length < 2 ^ 16) (short' : val.length < 2 ^ 16) :
    Fits (KvCommand.writeKv key val).data := by
  obtain ⟨first, second⟩ := word_writeKv short short'
  rw [Fits, first, second, length_writeKv]

/-- What a line asks to be written fits. -/
theorem fits_request {line : List UInt8} {c : KvCommand} (parsed : KvCommand.parse line = some c) (short : line.length < 2 ^ 16)
    (flags : ℕ) (spare : List UInt8) {a : Assignment (List UInt8) (List UInt8)} (writes : c.effect = some a) :
    Fits (c.request flags spare).data := by
  have each := KvCommand.parse_tokens parsed
  cases c with
  | set key val =>
    simp only [KvCommand.tokens, List.forall_mem_cons] at each
    obtain ⟨⟨-, low⟩, ⟨-, low'⟩, -⟩ := each
    exact fits_writeKv (by omega) (by omega)
  | del key =>
    simp only [KvCommand.tokens, List.forall_mem_cons] at each
    obtain ⟨⟨-, low⟩, -⟩ := each
    exact fits_writeKv (by omega) (by decide)
  | get | list => cases writes

end TKv

/-- **The servers are one store**, in every run in which the sizes in all entries fit, whatever memory each call finds behind
the messages and in whatever order it lists the map. There is one sequence of entries of which every server has applied a
beginning, and a key has after them what the last entry for it says. What a line of a client asks to be written is what its
entry says, and what it asks for is answered by any server with what the entries up to some index have made of the store. -/
theorem kv_one_store (delay : UInt32 → ℕ) (ids : Finset ℕ) {start P : System KvMap}
    (fresh : System.Start ids start) (empty : ∀ s ∈ ids, (start s).rsm = { impl := ∅ })
    (run : System.RunAmong delay (2 ^ 31) ids TKv.Among (fun P label P' => Refreshes ∅ P label P' ∧ TKv.Fitting ids P) start P) :
    ∃ H : List TLogEntry,
      (∀ s ∈ ids, (P s).rsm.impl = TKv.store (H.take (P s).rsm.lastAppliedIndex) ∧
        ∀ i e, (i, e) ∈ appliedOf (P s).events → H[i - 1]? = some e) ∧
      (∀ n key, (TKv.store (H.take n)).lookup key = lastTo key ((clients (H.take n)).map fun e => TKv.meaning e.data)) ∧
      ∀ (line : List UInt8) (c : KvCommand) (flags : ℕ) (spare : List UInt8), KvCommand.parse line = some c →
        line.length < 2 ^ 16 →
        (∀ e : TLogEntry, e.data = (c.request flags spare).data → ∀ a, c.effect = some a →
          TKv.Fits e.data ∧ TKv.meaning e.data = a) ∧
        ∀ s ∈ ids, ∀ strong w applied seqno reply, .answer strong w applied seqno reply ∈ (P s).events →
          w.command.isWrite = false → w.command.data = (c.request flags spare).data → c.effect = none →
          w.index ≤ applied ∧ applied ≤ H.length ∧ ∃ listing, TKv.Lists listing (TKv.store (H.take applied)) ∧
            reply.data = c.answer listing (TKv.store (H.take applied)) := by
  obtain ⟨h, H, -, now⟩ := (Ensemble.start (by decide) fresh empty).run
    (by rintro store _ ⟨beyond, listing, -, rfl⟩; exact TKv.replaysOn beyond listing) le_rfl run
  refine ⟨H, fun s mem => ⟨(now.replicas s mem).machine, fun i e member => ((now.replicas s mem).applied i e member).2⟩,
    fun n key => TKv.lookup_store _ key, fun line c flags spare parsed short => ⟨?_, ?_⟩⟩
  · intro e same a writes
    have fits := TKv.fits_request parsed short flags spare writes
    rw [same]
    exact ⟨fits, TKv.entry_of_fits fits (fun _ => 0) ▸ KvCommand.entry_request parsed short flags spare writes⟩
  · intro s mem strong w applied seqno reply answered kind same reads
    obtain ⟨low, high, _, ⟨beyond, listing, lists, rfl⟩, found, out, rfl⟩ :=
      (now.replicas s mem).answers _ _ _ _ _ answered kind
    refine ⟨low, high, listing, lists, ?_⟩
    have held := out.symm.trans (KvCommand.read_request parsed short reads w.index
      { lastAppliedIndex := applied, impl := TKv.store (H.take applied) } same)
    obtain rfl := Option.some.inj held
    rfl

/-! ## Two servers -/

/-- The pairs of the map in the order of a list. -/
def TKv.inOrder (pairs : List (List UInt8 × List UInt8)) (store : KvMap) : List (List UInt8 × List UInt8) :=
  pairs.filter fun pair => store.lookup pair.1 = some pair.2

/-- A call of a server whose map is listed so, while all entries fit. -/
def TKv.Called (pairs : List (List UInt8 × List UInt8)) (P : System KvMap) (label : System.Label) (_ : System KvMap) : Prop :=
  label.isCall ∧ TKv.Lists (TKv.inOrder pairs) (P label.server).rsm.impl ∧ TKv.Fitting [1, 2].toFinset P

instance (pairs : List (List UInt8 × List UInt8)) (P : System KvMap) (label : System.Label) (P' : System KvMap) :
    Decidable (TKv.Called pairs P label P') :=
  inferInstanceAs (Decidable (_ ∧ _ ∧ _))

/-- Calls that come upon the same memory and order. -/
def TKv.play (byte : UInt8) (pairs : List (List UInt8 × List UInt8)) (cues : List Cue) (P : System KvMap) :
    Option (System KvMap) :=
  System.play (fun _ => 5000) (2 ^ 31) [1, 2].toFinset (TKv.rsm (fun _ => byte) (TKv.inOrder pairs)) (TKv.Called pairs) cues P

theorem TKv.exists_of_play (byte : UInt8) (pairs : List (List UInt8 × List UInt8)) (cues : List Cue)
    {P : System KvMap} (φ : System KvMap → Prop) [DecidablePred φ] (played : (TKv.play byte pairs cues P).any (φ ·)) :
    ∃ P', System.RunAmong (fun _ => 5000) (2 ^ 31) [1, 2].toFinset TKv.Among
      (fun P label P' => Refreshes ∅ P label P' ∧ TKv.Fitting [1, 2].toFinset P) P P' ∧ φ P' := by
  obtain ⟨P', played, holds⟩ := (Option.any_eq_true _ _).mp played
  refine ⟨P', Relation.ReflTransGen.mono ?_ _ _ (System.run_of_play cues played), by simpa using holds⟩
  rintro Q Q' ⟨label, ⟨call, lists, fitting⟩, st⟩
  refine ⟨_, label, ⟨_, _, lists, rfl⟩, ⟨?_, fitting⟩, st⟩
  rintro s rfl
  cases call

/-- The line `list`. -/
def listLine : List UInt8 := [0x6c, 0x69, 0x73, 0x74, 0x0a]

/-- Server 1 takes two writes, which it answers, and lists its map. -/
def firstListed : List Cue :=
  [.request 1 (.processTimeout 1000000000), .deliver 1000000000 1 1, .deliver 1000000000 2 2,
    .request 1 (.processTimeout 1000000000), .request 1 (.onCommandRequest (KvCommand.writeKv [0x61] [0x62]) (some 7)),
    .deliver 1000000000 1 2, .deliver 1000000000 2 3, .request 1 (.processTimeout 3000000000), .deliver 3000000000 1 3,
    .deliver 3000000000 2 4, .request 1 (.processTimeout 6000000000), .request 1 .processCommitted, .request 1 .processWaiting,
    .deliver 6000000000 1 4, .deliver 6000000000 2 5,
    .request 1 (.onCommandRequest (KvCommand.writeKv [0x63] [0x64]) (some 7)), .request 1 (.processTimeout 9000000000),
    .deliver 9000000000 1 5, .deliver 9000000000 2 6, .request 1 (.processTimeout 12000000000), .deliver 12000000000 1 6,
    .request 1 .processCommitted, .request 1 .processWaiting,
    .request 1 (.onCommandRequest (KvCommand.readKv 2 [0, 0] []) (some 8)), .request 1 .processWaiting]

/-- Server 2 applies them and lists its map. -/
def secondListed : List Cue :=
  [.request 2 .processCommitted, .request 2 (.onCommandRequest (KvCommand.readKv 2 [0, 0] []) (some 8)),
    .request 2 .processWaiting]

/-- The read that waits at either. -/
def listRead : TWaiting where
  index := 3
  command := KvCommand.readKv 2 [0, 0] []
  replyTo := some 8

/-- The servers list the same map, each in its own order. -/
theorem kv_one_store_listed : ∃ (P : System KvMap) (H : List TLogEntry),
    (P 1).rsm.impl = TKv.store (H.take 3) ∧ (P 2).rsm.impl = TKv.store (H.take 3) ∧
    (∃ order, TKv.Lists order (TKv.store (H.take 3)) ∧
      [0x61, 0x20, 0x3d, 0x20, 0x62, 0x0a, 0x63, 0x20, 0x3d, 0x20, 0x64, 0x0a] =
        KvCommand.answer order (TKv.store (H.take 3)) .list) ∧
    (∃ order, TKv.Lists order (TKv.store (H.take 3)) ∧
      [0x63, 0x20, 0x3d, 0x20, 0x64, 0x0a, 0x61, 0x20, 0x3d, 0x20, 0x62, 0x0a] =
        KvCommand.answer order (TKv.store (H.take 3)) .list) ∧
    lastTo [0x63] ((clients (H.take 3)).map fun e => TKv.meaning e.data) = some [0x64] := by
  let holds (P : System KvMap) : Prop :=
    ((P 1).rsm.lastAppliedIndex = 3 ∧ (P 2).rsm.lastAppliedIndex = 3 ∧ (P 2).rsm.impl.lookup [0x63] = some [0x64]) ∧
    .answer false listRead 3 3 { index := 3, data := [0x61, 0x20, 0x3d, 0x20, 0x62, 0x0a, 0x63, 0x20, 0x3d, 0x20, 0x64, 0x0a] } ∈
      (P 1).events ∧
    .answer false listRead 3 0 { index := 3, data := [0x63, 0x20, 0x3d, 0x20, 0x64, 0x0a, 0x61, 0x20, 0x3d, 0x20, 0x62, 0x0a] } ∈
      (P 2).events
  obtain ⟨P₀, run₀, next⟩ := TKv.exists_of_play 1 [([0x61], [0x62]), ([0x63], [0x64])] firstListed
    (P := .fresh [1, 2] { impl := ∅ })
    (fun P => (TKv.play 2 [([0x63], [0x64]), ([0x61], [0x62])] secondListed P).any fun P => holds P) (by decide +kernel)
  obtain ⟨P, run, ⟨last, last', found⟩, one, two⟩ := TKv.exists_of_play _ _ secondListed holds next
  obtain ⟨H, machines, keys, lines⟩ := kv_one_store (fun _ => 5000) [1, 2].toFinset
    (System.fresh_start (by decide) (by decide) _) (fun _ _ => rfl) (run₀.trans run)
  obtain ⟨-, reads⟩ := lines listLine .list 2 [0, 0] (by decide) (by decide)
  obtain ⟨-, -, order, lists, same⟩ := reads 1 (by decide) _ _ _ _ _ one rfl rfl rfl
  obtain ⟨-, -, order', lists', same'⟩ := reads 2 (by decide) _ _ _ _ _ two rfl rfl rfl
  have machine := (machines 1 (by decide)).1
  have machine' := (machines 2 (by decide)).1
  rw [last] at machine
  rw [last'] at machine'
  exact ⟨P, H, machine, machine', ⟨order, lists, same⟩, ⟨order', lists', same'⟩, by rw [← keys, ← machine', found]⟩

end MiniRaft
