import MiniRaft.Wire

/-!
# Malformed messages (`TMessageReader::Read`, `TMessageHolder::Maybe`)

All that the reader checks of a length is the `assert` in `NewMessage`. `Maybe` goes by the type alone and `OnAppendEntries`
casts what the payload has. So a connection is closed for a malformed message only where the stream ends within it.
-/

namespace MiniRaft

open Lib TMessageHolder TMessageReader

/-- A struct of type `LOG_ENTRY` is behind the message. -/
def TRecord.IsEntry (m : TRecord) : Prop := m.type = logEntryType ∧ sizeOfType logEntryType ≤ m.len

instance (m : TRecord) : Decidable m.IsEntry := inferInstanceAs (Decidable (_ ∧ _))

/-- The struct that `Maybe` selects by the type is behind the message, and an entry behind each of the payload, where
`OnAppendEntries` casts them. `Maybe` never selects a `TLogEntry`. -/
structure Usable (casts : Prop) (m : TMessageHolder) : Prop where
  struct : m.message.type ≠ logEntryType → sizeOfType m.message.type ≤ m.message.len
  entries : casts → m.message.type = appendEntriesType → ∀ e ∈ m.payload, e.message.IsEntry

/-- What should hold of a connection: all it hands on is usable, and it ends with an exception. Which payloads
`OnAppendEntries` casts is up to the state of the node. -/
def RejectsMalformed (casts : ℕ → Prop) (s : Stream UInt8) : Prop :=
  (∀ i m, (received s).1[i]? = some m → Usable (casts i) m) ∧ (received s).2 = .closed

/-- **What is wrong with a stream**: a message is shorter than its struct, a payload has something else than an entry, or
the length of a message is less than that of a header, or of `TAppendEntriesRequest` where it is one. -/
inductive HasMalformed (casts : ℕ → Prop) (s : Stream UInt8) : Prop where
  | struct {ms : List TMessageHolder} {m : TMessageHolder} {rest : List UInt8}
    (bytes : s.items = writeAll (ms ++ [m]) ++ rest) (each : ∀ m' ∈ ms ++ [m], m'.Framed)
    (whole : ¬ Cut s (wordsAll 0 (ms ++ [m]))) (type : m.message.type ≠ logEntryType)
    (short : m.message.len < sizeOfType m.message.type)
  | entry {ms : List TMessageHolder} {m e : TMessageHolder} {rest : List UInt8}
    (bytes : s.items = writeAll (ms ++ [m]) ++ rest) (each : ∀ m' ∈ ms ++ [m], m'.Framed)
    (whole : ¬ Cut s (wordsAll 0 (ms ++ [m]))) (cast : casts ms.length) (type : m.message.type = appendEntriesType)
    (mem : e ∈ m.payload) (other : ¬ e.message.IsEntry)
  | length {ms : List TMessageHolder} {ws : List ℕ} {f : ReadFault} {rest : List UInt8}
    (bytes : s.items = writeAll ms ++ rest) (each : ∀ m ∈ ms, m.Framed) (broken : Broken (writeAll ms).length ws f rest)
    (whole : ¬ Cut s (wordsAll 0 ms ++ ws))

variable {s : Stream UInt8} {casts : ℕ → Prop} {p : ℕ} {ms : List TMessageHolder} {rest : List UInt8}

/-! ## What is received -/

/-- **Where a connection stands at its end**: what it received is there, and it was closed or came to what is no message. -/
theorem receive_outcome {k : ℕ} (inside : p ≤ s.items.length) (rounds : s.items.length < p + k) :
    ∃ rest, (∀ m ∈ (receive s k p).1, m.Framed) ∧ s.items.drop p = writeAll (receive s k p).1 ++ rest ∧
      ¬ Cut s (wordsAll p (receive s k p).1) ∧
      ((receive s k p).2 = .closed ∨
        ∃ ws, Broken (p + (writeAll (receive s k p).1).length) ws (receive s k p).2 rest ∧ ¬ Cut s ws) := by
  have nothing : ¬ Cut s (wordsAll p []) := not_cut_nil
  induction k generalizing p with
  | zero => omega
  | succ k ih =>
    have outcome := read_outcome s (s.items.length + 1) p
    have deep := read_ne_depth (d := s.items.length + 1) inside (by omega)
    unfold receive
    generalize read s (s.items.length + 1) p = r at outcome deep
    cases outcome with
    | @message m rest' framed here whole =>
      have within := Stream.length_of_drop here (write_ne_nil m)
      have header := write_pos m
      obtain ⟨rest, each, later, whole', ended⟩ := ih within (by omega) not_cut_nil
      rw [Stream.drop_of_drop here] at later
      dsimp only
      refine ⟨rest, List.forall_mem_cons.mpr ⟨framed, each⟩, ?_, not_cut_append whole whole', ?_⟩
      · rw [here, later, writeAll, List.append_assoc]
      · rwa [writeAll, List.length_append, ← Nat.add_assoc]
    | @fault ws f broken whole => exact ⟨_, List.forall_mem_nil _, rfl, nothing, .inr ⟨ws, broken, whole⟩⟩
    | closed => exact ⟨_, List.forall_mem_nil _, rfl, nothing, .inl rfl⟩
    | depth => exact absurd rfl deep

theorem received_outcome (s : Stream UInt8) : ∃ rest, (∀ m ∈ (received s).1, m.Framed) ∧
    s.items = writeAll (received s).1 ++ rest ∧ ¬ Cut s (wordsAll 0 (received s).1) ∧
      ((received s).2 = .closed ∨ ∃ ws, Broken (writeAll (received s).1).length ws (received s).2 rest ∧ ¬ Cut s ws) := by
  obtain ⟨rest, each, bytes, whole, ended⟩ := receive_outcome (s := s) (k := s.items.length + 1) (Nat.zero_le _) (by omega)
  rw [List.drop_zero] at bytes
  rw [Nat.zero_add] at ended
  exact ⟨rest, each, bytes, whole, ended⟩

/-- **The `i`-th message received** is what `i` messages are followed by in the stream. -/
theorem received_getElem_iff {i : ℕ} {m : TMessageHolder} : (received s).1[i]? = some m ↔
    ∃ ms rest, ms.length = i ∧ s.items = writeAll (ms ++ [m]) ++ rest ∧ (∀ m' ∈ ms ++ [m], m'.Framed) ∧
      ¬ Cut s (wordsAll 0 (ms ++ [m])) := by
  constructor
  · intro here
    obtain ⟨inside, rfl⟩ := List.getElem?_eq_some_iff.mp here
    obtain ⟨rest, each, bytes, whole, -⟩ := received_outcome s
    have all : (received s).1 = (received s).1.take i ++ [(received s).1[i]] ++ (received s).1.drop (i + 1) := by
      rw [List.append_assoc, List.singleton_append, List.getElem_cons_drop, List.take_append_drop]
    rw [all, List.forall_mem_append] at each
    rw [all, wordsAll_append, cut_append, not_or] at whole
    rw [all, writeAll_append, List.append_assoc] at bytes
    exact ⟨_, _, List.length_take_of_le inside.le, bytes, each.1, whole.1⟩
  · rintro ⟨ms, rest, rfl, bytes, each, whole⟩
    obtain ⟨k, all⟩ := received_framed bytes each whole
    rw [all, List.append_assoc, List.getElem?_append_right (Nat.le_refl _), Nat.sub_self]
    rfl

/-- **A connection is closed** unless the reader comes to what is no message. -/
theorem received_closed_iff : (received s).2 = .closed ↔
    ¬ ∃ ms ws f rest, s.items = writeAll ms ++ rest ∧ (∀ m ∈ ms, m.Framed) ∧ Broken (writeAll ms).length ws f rest ∧
      ¬ Cut s (wordsAll 0 ms ++ ws) := by
  constructor
  · rintro ended ⟨ms, ws, f, rest, bytes, each, broken, whole⟩
    rw [cut_append, not_or] at whole
    obtain ⟨k, all⟩ := received_framed bytes each whole.1
    have short : rest.length ≤ s.items.length + 1 := by
      rw [bytes, List.length_append]
      omega
    have failed := read_broken broken (drop_writeAll bytes) short
    rw [if_neg whole.2] at failed
    rw [all, receive, failed] at ended
    exact broken.ne_closed ended
  · intro none_
    obtain ⟨rest, each, bytes, whole, ended⟩ := received_outcome s
    rcases ended with closed | ⟨ws, broken, whole'⟩
    · exact closed
    · exact absurd ⟨_, ws, _, rest, bytes, each, broken, not_cut_append whole whole'⟩ none_

/-- **Malformed messages are rejected** where there are none. -/
theorem malformed_rejected (casts : ℕ → Prop) (s : Stream UInt8) : RejectsMalformed casts s ↔ ¬ HasMalformed casts s := by
  unfold RejectsMalformed
  rw [received_closed_iff]
  constructor
  · rintro ⟨usable, closed⟩ malformed
    cases malformed with
    | struct bytes each whole type short =>
      have here := usable _ _ (received_getElem_iff.mpr ⟨_, _, rfl, bytes, each, whole⟩)
      exact Nat.not_le.mpr short (here.struct type)
    | entry bytes each whole cast type mem other =>
      have here := usable _ _ (received_getElem_iff.mpr ⟨_, _, rfl, bytes, each, whole⟩)
      exact other (here.entries cast type _ mem)
    | length bytes each broken whole => exact closed ⟨_, _, _, _, bytes, each, broken, whole⟩
  · intro none_
    constructor
    · intro i m here
      obtain ⟨ms, rest, rfl, bytes, each, whole⟩ := received_getElem_iff.mp here
      constructor
      · intro type
        by_contra short
        exact none_ (.struct bytes each whole type (Nat.lt_of_not_le short))
      · intro cast type e mem
        by_contra other
        exact none_ (.entry bytes each whole cast type mem other)
    · rintro ⟨ms, ws, f, rest, bytes, each, broken, whole⟩
      exact none_ (.length bytes each broken whole)

/-- A vote request that is a header alone is handed on, and a header of length 7 ends the program. -/
theorem malformed_rejected_short :
    (received ⟨[2, 0, 0, 0, 8, 0, 0, 0], ∅⟩).1.map (fun m => (m.message.type.toNat, m.message.len)) = [(2, 8)] ∧
      (received ⟨[2, 0, 0, 0, 7, 0, 0, 0], ∅⟩).2 = .assertion ∧
      ¬ RejectsMalformed (fun _ => False) ⟨[2, 0, 0, 0, 8, 0, 0, 0], ∅⟩ ∧
      ¬ RejectsMalformed (fun _ => False) ⟨[2, 0, 0, 0, 7, 0, 0, 0], ∅⟩ := by
  have header : (received ⟨[2, 0, 0, 0, 8, 0, 0, 0], ∅⟩).1.map (fun m => (m.message.type.toNat, m.message.len)) = [(2, 8)] := by
    decide +kernel
  have stopped : (received ⟨[2, 0, 0, 0, 7, 0, 0, 0], ∅⟩).2 = .assertion := by decide +kernel
  refine ⟨header, stopped, ?_, ?_⟩
  · rintro ⟨usable, -⟩
    obtain ⟨m, all, at_m⟩ := List.map_eq_singleton_iff.mp header
    rw [Prod.mk.injEq] at at_m
    have type : m.message.type = 2 := UInt32.toNat_inj.mp at_m.1
    have room := (usable 0 m (by rw [all]; rfl)).struct (by rw [type]; decide)
    rw [type, at_m.2] at room
    exact absurd room (by decide)
  · rintro ⟨-, ended⟩
    rw [stopped] at ended
    cases ended

end MiniRaft
