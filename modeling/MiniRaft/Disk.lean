import MiniRaft.Persist

/-!
# What the files hold

`Stores` says of the bytes of the three files which log, term and vote they are, and `Stored` of a `TDiskState` that
it is over such files with nothing left to write. The log is the plain list of entries.
-/

namespace MiniRaft

open Lib

/-- What a store is for. -/
structure Store where
  log : List TRecord := []
  currentTerm : UInt64 := 1
  votedFor : UInt32 := 0
  deriving DecidableEq, Repr

/-- The entry at an index from 1. -/
def Store.get (i : ℤ) (p : Store) : Option TRecord := if i < 1 then none else p.log[(i - 1).toNat]?

/-- The bytes of a log in the entries file. -/
def entryBytes (log : List TRecord) : List UInt8 := log.flatMap TRecord.bytes

/-- The positions of its entries, the first at `offset`. -/
def indexBytes : ℕ → List TRecord → List UInt8
  | _, [] => []
  | offset, m :: log => le 8 offset ++ indexBytes (offset + m.len) log

/-- The fields of the state file. -/
def stateBytes (p : Store) : List UInt8 := le 8 p.log.length ++ le 8 p.currentTerm.toNat ++ le 4 p.votedFor.toNat

/-- The log, the term and the vote that the files are. -/
structure Stores (image : TFile → List UInt8) (p : Store) : Prop where
  entries : Holds (image .entries) 0 (entryBytes p.log)
  index : Holds (image .index) 0 (indexBytes 0 p.log)
  state : image .state = stateBytes p
  sound : ∀ m ∈ p.log, m.IsLogEntry
  room : (entryBytes p.log).length < 2 ^ 63

structure Stored (d : TDiskState) (p : Store) : Prop where
  clean : ∀ f, (d.files f).Clean
  lastLogIndex : d.lastLogIndex = p.log.length
  currentTerm : d.currentTerm = p.currentTerm.toNat
  votedFor : d.votedFor = p.votedFor.toNat
  stores : Stores (fun f => (d.files f).disk) p

/-- Every entry is where the index says. -/
def Slots (image : TFile → List UInt8) (log : List TRecord) : Prop := ∀ xs m ys, log = xs ++ m :: ys →
  ∃ offset < 2 ^ 64, Holds (image .index) (8 * xs.length) (le 8 offset) ∧ Holds (image .entries) offset m.bytes

/-- The log, the term and the vote that the calls read. -/
structure Readable (d : TDiskState) (p : Store) : Prop where
  clean : ∀ f, (d.files f).Clean
  lastLogIndex : d.lastLogIndex = p.log.length
  currentTerm : d.currentTerm = p.currentTerm.toNat
  votedFor : d.votedFor = p.votedFor.toNat
  slots : Slots (fun f => (d.files f).disk) p.log
  sound : ∀ m ∈ p.log, m.IsLogEntry

/-- Only the positions of the streams and the cached `LastLogTerm` differ. -/
structure Moved (d d' : TDiskState) : Prop where
  lastLogIndex : d'.lastLogIndex = d.lastLogIndex
  currentTerm : d'.currentTerm = d.currentTerm
  votedFor : d'.votedFor = d.votedFor
  disk : ∀ f, (d'.files f).disk = (d.files f).disk
  clean : ∀ f, (d'.files f).Clean

variable {d d' : TDiskState} {p : Store} {m : TRecord} {image : TFile → List UInt8}

/-! ## Bytes -/

@[simp] theorem entryBytes_append (xs ys : List TRecord) : entryBytes (xs ++ ys) = entryBytes xs ++ entryBytes ys :=
  List.flatMap_append

@[simp] theorem entryBytes_singleton (m : TRecord) : entryBytes [m] = m.bytes := by simp [entryBytes]

theorem indexBytes_append (offset : ℕ) (xs ys : List TRecord) :
    indexBytes offset (xs ++ ys) = indexBytes offset xs ++ indexBytes (offset + (entryBytes xs).length) ys := by
  induction xs generalizing offset with
  | nil => simp [indexBytes, entryBytes]
  | cons m xs ih =>
    rw [List.cons_append, indexBytes, ih, indexBytes, List.append_assoc]
    simp [entryBytes, Nat.add_assoc]

@[simp] theorem length_indexBytes (offset : ℕ) (log : List TRecord) : (indexBytes offset log).length = 8 * log.length := by
  induction log generalizing offset with
  | nil => rfl
  | cons m log ih =>
    rw [indexBytes, List.length_append, ih, List.length_cons, length_le]
    omega

theorem length_le_entryBytes (log : List TRecord) : 8 * log.length ≤ (entryBytes log).length := by
  induction log with
  | nil => simp
  | cons m log ih =>
    have : (entryBytes (m :: log)).length = m.len + (entryBytes log).length := by simp [entryBytes]
    rw [this, List.length_cons, TRecord.len]
    omega

/-! ## Reading -/

/-- **What was written is read**, and the stream is then behind it. -/
theorem read_of_holds {pos : ℕ} (clean : (d.files .entries).Clean)
    (holds : Holds (d.files .entries).disk pos m.bytes) (small : m.len < 2 ^ 32) :
    (d.withFile .entries ((d.files .entries).seek pos)).read =
      .ok (m, d.withFile .entries { d.files .entries with pos := pos + m.len }) := by
  obtain ⟨header, value⟩ := holds_append.mp holds
  obtain ⟨type, len⟩ := holds_append.mp header
  have type_eq : ofLe (le 4 m.type.toNat) = m.type.toNat := ofLe_le m.type.toNat_lt
  have len_eq : ofLe (le 4 m.len) = m.len := ofLe_le small
  have room : ¬ m.len < 8 := by simp [TRecord.len]
  have rest : m.value.length = m.len - 8 := by simp [TRecord.len]
  simp only [TDiskState.read, TDiskState.withFile, Function.update_self, clean.seek,
    clean.read_of_holds type (length_le ..)]
  rw [length_le] at len
  simp only [clean.read_of_holds len (length_le ..), len_eq, if_neg room]
  rw [List.length_append, length_le, length_le] at value
  simp only [Nat.add_assoc, clean.read_of_holds value rest, type_eq]
  have whole : pos + (4 + (4 + (m.len - 8))) = pos + m.len := by omega
  simp [Function.update_idem, whole]

/-- **What is read is there.** -/
theorem holds_of_read (clean : (d.files .entries).Clean) {pos : ℕ}
    (h : (d.withFile .entries ((d.files .entries).seek pos)).read = .ok (m, d')) :
    Holds (d.files .entries).disk pos m.bytes ∧ m.len < 2 ^ 32 := by
  simp only [TDiskState.read, TDiskState.withFile, Function.update_self, clean.seek] at h
  split at h
  · cases h
  · rename_i type s₁ read₁
    obtain ⟨four, type_at, rfl⟩ := clean.holds_of_read read₁
    split at h
    · cases h
    · rename_i len s₂ read₂
      obtain ⟨four', len_at, rfl⟩ := clean.holds_of_read read₂
      split at h
      · cases h
      · rename_i long
        split at h
        · cases h
        · rename_i value s₃ read₃
          obtain ⟨rest, value_at, rfl⟩ := clean.holds_of_read read₃
          cases h
          -- the header that was read is the one that would be written
          have small : ofLe type < 2 ^ 32 := by simpa [four] using ofLe_lt type
          have type_eq : le 4 (UInt32.ofNat (ofLe type)).toNat = type := by
            rw [UInt32.toNat_ofNat_of_lt' (by simpa using small), ← four, le_ofLe]
          have len_eq : le 4 (8 + value.length) = len := by
            rw [rest, Nat.add_sub_cancel' (by omega), ← four', le_ofLe]
          have fits : 8 + value.length < 2 ^ 32 := by
            have := ofLe_lt len
            rw [four'] at this
            omega
          refine ⟨?_, fits⟩
          rw [TRecord.bytes, TRecord.len, type_eq, len_eq]
          refine holds_append.mpr ⟨holds_append.mpr ⟨type_at, by rwa [four]⟩, ?_⟩
          rwa [List.length_append, four, four', ← Nat.add_assoc]

theorem Moved.refl (clean : ∀ f, (d.files f).Clean) : Moved d d := ⟨rfl, rfl, rfl, fun _ => rfl, clean⟩

theorem Moved.of_files (clean : ∀ f, (d.files f).Clean) (index entries : ℕ) :
    Moved d ((d.withFile .index { d.files .index with pos := index }).withFile .entries
      { d.files .entries with pos := entries }) := by
  refine ⟨rfl, rfl, rfl, fun f => ?_, fun f => ?_⟩
  · cases f <;> rfl
  · cases f
    · exact ⟨(clean .entries).pending, (clean .entries).sound⟩
    · exact ⟨(clean .index).pending, (clean .index).sound⟩
    · exact clean .state

theorem get_outside {i : ℤ} (out : (d.lastLogIndex : ℤ) < i ∨ i < 1) : d.get i = .ok (none, d) := by
  rw [TDiskState.get, if_pos out]

section

variable {k offset : ℕ} (clean : ∀ f, (d.files f).Clean) (inside : k < d.lastLogIndex)

include clean inside

theorem get_of_holds (slot : Holds (d.files .index).disk (8 * k) (le 8 offset)) (word : offset < 2 ^ 64)
    (holds : Holds (d.files .entries).disk offset m.bytes) (small : m.len < 2 ^ 32) :
    ∃ d', d.get (k + 1 : ℕ) = .ok (some m, d') ∧ Moved d d' ∧ (d'.files .entries).pos = offset + m.len := by
  refine ⟨_, ?_, .of_files clean (8 * k + 8) (offset + m.len), by simp [TDiskState.withFile]⟩
  have range : ¬ ((d.lastLogIndex : ℤ) < (k + 1 : ℕ) ∨ ((k + 1 : ℕ) : ℤ) < 1) := by omega
  have at_slot : (((k + 1 : ℕ) : ℤ).toNat - 1) * 8 = 8 * k := by omega
  have entry := read_of_holds (d := d.withFile .index { d.files .index with pos := 8 * k + 8 }) (clean .entries)
    holds small
  rw [TDiskState.get, if_neg range, at_slot, (clean .index).seek,
    (clean .index).read_of_holds slot (length_le ..)]
  dsimp only
  rw [ofLe_le word]
  exact congrArg (Except.map _) entry

theorem holds_of_get (h : d.get (k + 1 : ℕ) = .ok (some m, d')) :
    ∃ offset < 2 ^ 64, Holds (d.files .index).disk (8 * k) (le 8 offset) ∧
      Holds (d.files .entries).disk offset m.bytes ∧ m.len < 2 ^ 32 := by
  have range : ¬ ((d.lastLogIndex : ℤ) < (k + 1 : ℕ) ∨ ((k + 1 : ℕ) : ℤ) < 1) := by omega
  have at_slot : (((k + 1 : ℕ) : ℤ).toNat - 1) * 8 = 8 * k := by omega
  rw [TDiskState.get, if_neg range, at_slot, (clean .index).seek] at h
  split at h
  · cases h
  · rename_i data s read
    obtain ⟨eight, slot, rfl⟩ := (clean .index).holds_of_read read
    have word := ofLe_lt data
    rw [eight] at word
    refine ⟨ofLe data, word, ?_, ?_⟩
    · rw [← eight, le_ofLe]
      exact eight ▸ slot
    · dsimp only at h
      cases entry : TDiskState.read _ with
      | error fault => rw [entry] at h; cases h
      | ok x =>
        rw [entry] at h
        cases h
        exact holds_of_read (d := d.withFile .index { d.files .index with pos := 8 * k + 8 }) (clean .entries) entry

end

/-! ## The log -/

theorem slot_of_holds (image : TFile → List UInt8) {log xs ys : List TRecord} (entries : Holds (image .entries) 0 (entryBytes log))
    (index : Holds (image .index) 0 (indexBytes 0 log)) (split : log = xs ++ m :: ys) :
    Holds (image .index) (8 * xs.length) (le 8 (entryBytes xs).length) ∧
      Holds (image .entries) (entryBytes xs).length m.bytes := by
  have cons : xs ++ m :: ys = xs ++ [m] ++ ys := by simp
  rw [split] at index entries
  constructor
  · rw [indexBytes_append, indexBytes, holds_append, holds_append] at index
    simpa using index.2.1
  · rw [cons, entryBytes_append, entryBytes_append, entryBytes_singleton, List.append_assoc, holds_append,
      holds_append] at entries
    simpa using entries.2.1

theorem slots_of_holds {log : List TRecord} (entries : Holds (image .entries) 0 (entryBytes log))
    (index : Holds (image .index) 0 (indexBytes 0 log)) (room : (entryBytes log).length < 2 ^ 63) :
    Slots image log := by
  intro xs m ys split
  obtain ⟨slot, holds⟩ := slot_of_holds image entries index split
  rw [split, entryBytes_append, List.length_append] at room
  exact ⟨_, by omega, slot, holds⟩

theorem Moved.disks (moved : Moved d d') : (fun f => (d'.files f).disk) = fun f => (d.files f).disk :=
  funext moved.disk

theorem Moved.stored (moved : Moved d d') (stored : Stored d p) : Stored d' p where
  clean := moved.clean
  lastLogIndex := moved.lastLogIndex.trans stored.lastLogIndex
  currentTerm := moved.currentTerm.trans stored.currentTerm
  votedFor := moved.votedFor.trans stored.votedFor
  stores := moved.disks ▸ stored.stores

theorem Moved.readable (moved : Moved d d') (readable : Readable d p) : Readable d' p where
  clean := moved.clean
  lastLogIndex := moved.lastLogIndex.trans readable.lastLogIndex
  currentTerm := moved.currentTerm.trans readable.currentTerm
  votedFor := moved.votedFor.trans readable.votedFor
  slots := moved.disks ▸ readable.slots
  sound := readable.sound

theorem Stores.slots (stores : Stores image p) : Slots image p.log :=
  slots_of_holds stores.entries stores.index stores.room

theorem Stored.readable (stored : Stored d p) : Readable d p where
  clean := stored.clean
  lastLogIndex := stored.lastLogIndex
  currentTerm := stored.currentTerm
  votedFor := stored.votedFor
  slots := stored.stores.slots
  sound := stored.stores.sound

/-- **`Get` is `Get` of the plain list.** -/
theorem Readable.get (readable : Readable d p) (i : ℤ) : ∃ d', d.get i = .ok (p.get i, d') ∧ Moved d d' := by
  by_cases out : (d.lastLogIndex : ℤ) < i ∨ i < 1
  · refine ⟨d, ?_, .refl readable.clean⟩
    rw [get_outside out, Store.get]
    rw [readable.lastLogIndex] at out
    split
    · rfl
    · rw [List.getElem?_eq_none (by omega)]
  · have inside : (i - 1).toNat < p.log.length := by
      have := readable.lastLogIndex
      omega
    have split : p.log = p.log.take (i - 1).toNat ++ p.log[(i - 1).toNat] :: p.log.drop ((i - 1).toNat + 1) := by
      simp
    obtain ⟨offset, word, slot, holds⟩ := readable.slots _ _ _ split
    rw [List.length_take_of_le inside.le] at slot
    obtain ⟨d', got, moved, -⟩ := get_of_holds readable.clean (readable.lastLogIndex ▸ inside) slot word holds
      (readable.sound _ (List.getElem_mem inside)).2
    have index : (((i - 1).toNat + 1 : ℕ) : ℤ) = i := by omega
    rw [index] at got
    refine ⟨d', ?_, moved⟩
    rw [got, Store.get, if_neg (by omega), List.getElem?_eq_getElem inside]

theorem Store.get_last {xs : List TRecord} (split : p.log = xs ++ [m]) : p.get p.log.length = some m := by
  simp [Store.get, split]

/-- The end of the constructor succeeds. -/
theorem Readable.readLast (readable : Readable d p) : ∃ d', d.readLast = .ok d' ∧ Moved d d' := by
  unfold TDiskState.readLast
  have last := readable.lastLogIndex
  split
  · rename_i some_
    rcases List.eq_nil_or_concat p.log with empty | ⟨xs, m, split⟩
    · simp [last, empty] at some_
    · rw [List.concat_eq_append] at split
      obtain ⟨d', got, moved⟩ := readable.get d.lastLogIndex
      rw [last, Store.get_last split] at got
      refine ⟨{ d' with lastLogTerm := m.term }, ?_, moved.lastLogIndex, moved.currentTerm, moved.votedFor, moved.disk,
        moved.clean⟩
      rw [last, got]
      rfl
  · exact ⟨d, rfl, .refl readable.clean⟩

/-! ## Writing -/

/-- The three numbers one after the other over a file that has no more. -/
theorem write_state {bytes : List UInt8} (short : bytes.length ≤ 20) (a b c : ℕ) :
    splice (splice (splice bytes 0 (le 8 a)) 8 (le 8 b)) 16 (le 4 c) = le 8 a ++ le 8 b ++ le 4 c := by
  have first := splice_append bytes 0 (le 8 a) (le 8 b)
  have second := splice_append bytes 0 (le 8 a ++ le 8 b) (le 4 c)
  rw [length_le] at first
  rw [List.length_append, length_le, length_le] at second
  rw [first, second, splice_zero, List.drop_eq_nil_of_le (by simpa using short), List.append_nil]

theorem run_commitOps_state (d : TDiskState) (files : TFile → FileStream) : FileOp.run d.commitOps files .state =
    (((((files .state).seek 0).write (le 8 d.lastLogIndex)).write (le 8 d.currentTerm)).write
      (le 4 d.votedFor)).flush := by
  simp [FileOp.run, TDiskState.commitOps, FileOp.act]

theorem run_commitOps_entries (d : TDiskState) (files : TFile → FileStream) :
    FileOp.run d.commitOps files .entries = (files .entries).flush := by
  simp [FileOp.run, TDiskState.commitOps, FileOp.act]

theorem run_commitOps_index (d : TDiskState) (files : TFile → FileStream) :
    FileOp.run d.commitOps files .index = (files .index).flush := by
  simp [FileOp.run, TDiskState.commitOps, FileOp.act]

/-- What `Commit` leaves. -/
structure Committed (d d' : TDiskState) : Prop where
  fields : d'.toTStateFields = d.toTStateFields
  clean : ∀ f, (d'.files f).Clean
  entries : d'.files .entries = (d.files .entries).flush
  index : (d'.files .index).disk = (d.files .index).content
  state : (d'.files .state).disk = le 8 d.lastLogIndex ++ le 8 d.currentTerm ++ le 4 d.votedFor

theorem commit_spec (sound : ∀ f, (d.files f).failed = false) (state : (d.files .state).Clean)
    (short : (d.files .state).disk.length ≤ 20) : ∃ d', d.commit = .ok d' ∧ Committed d d' := by
  rw [TDiskState.commit, if_neg (by simp [sound])]
  have entries := run_commitOps_entries d d.files
  have index := run_commitOps_index d d.files
  have last := run_commitOps_state d d.files
  refine ⟨_, rfl, rfl, fun f => ?_, entries, ?_, ?_⟩
  · change FileStream.Clean (FileOp.run d.commitOps d.files f)
    cases f with
    | entries => exact entries ▸ FileStream.flush_clean (sound .entries)
    | index => exact index ▸ FileStream.flush_clean (sound .index)
    | state =>
      rw [last, state.seek]
      apply FileStream.flush_clean
      simpa using state.sound
  · change FileStream.disk (FileOp.run d.commitOps d.files .index) = _
    rw [index]
    rfl
  · change FileStream.disk (FileOp.run d.commitOps d.files .state) = _
    rw [last, state.seek, FileStream.write_of_sound, FileStream.write_of_sound, FileStream.write_of_sound]
    · simp [FileStream.flush, FileStream.content, FileStream.apply, state.pending, write_state short]
    all_goals simpa using state.sound

/-- The operations of the store. -/
def Store.append (m : TRecord) (p : Store) : Store := { p with log := p.log ++ [m] }

def Store.removeLast (p : Store) : Store := { p with log := p.log.dropLast }

theorem Stored.short (stored : Stored d p) : (d.files .state).disk.length ≤ 20 := by
  have state : (d.files .state).disk = stateBytes p := stored.stores.state
  rw [state]
  simp [stateBytes]

/-- A `Commit` over files that have the bytes of a log stores it. -/
theorem stored_of_commit (sound : ∀ f, (d.files f).failed = false) (state : (d.files .state).Clean)
    (short : (d.files .state).disk.length ≤ 20) (last : d.lastLogIndex = p.log.length)
    (currentTerm : d.currentTerm = p.currentTerm.toNat) (votedFor : d.votedFor = p.votedFor.toNat)
    (entries : Holds (d.files .entries).content 0 (entryBytes p.log))
    (index : Holds (d.files .index).content 0 (indexBytes 0 p.log)) (valid : ∀ m ∈ p.log, m.IsLogEntry)
    (room : (entryBytes p.log).length < 2 ^ 63) : ∃ d', d.commit = .ok d' ∧ Stored d' p := by
  obtain ⟨d', done, committed⟩ := commit_spec sound state short
  refine ⟨d', done, committed.clean, ?_, ?_, ?_, ?_, ?_, ?_, valid, room⟩
  · exact (congrArg TStateFields.lastLogIndex committed.fields).trans last
  · exact (congrArg TStateFields.currentTerm committed.fields).trans currentTerm
  · exact (congrArg TStateFields.votedFor committed.fields).trans votedFor
  · rw [committed.entries]
    exact entries
  · rw [committed.index]
    exact index
  · rw [committed.state, stateBytes, last, currentTerm, votedFor]

/-- **`Commit` stores what the fields say.** -/
theorem Stored.commit (stored : Stored d p) (currentTerm : UInt64) (votedFor : UInt32) :
    ∃ d', { d with currentTerm := currentTerm.toNat, votedFor := votedFor.toNat }.commit = .ok d' ∧
      Stored d' { p with currentTerm, votedFor } := by
  obtain ⟨entries, index, -, valid, room⟩ := stored.stores
  exact stored_of_commit (fun f => (stored.clean f).sound) (stored.clean .state) stored.short stored.lastLogIndex rfl rfl
    ((stored.clean .entries).content ▸ entries) ((stored.clean .index).content ▸ index) valid room

/-- **`RemoveLast` removes the last entry**, if there is one. -/
theorem Stored.removeLast (stored : Stored d p) : ∃ d', d.removeLast = .ok d' ∧ Stored d' p.removeLast := by
  obtain ⟨entries, index, -, valid, room⟩ := stored.stores
  have last := stored.lastLogIndex
  rcases List.eq_nil_or_concat p.log with empty | ⟨xs, m, split⟩
  · refine ⟨d, ?_, ?_⟩
    · rw [TDiskState.removeLast, if_neg (by simp [last, empty])]
    · have same : p.removeLast = p := by
        rw [Store.removeLast, empty, List.dropLast_nil, ← empty]
      rwa [same]
  · rw [List.concat_eq_append] at split
    have rest : p.log.dropLast = xs := by rw [split, List.dropLast_concat]
    rw [split, entryBytes_append, holds_append] at entries
    rw [split, indexBytes_append, holds_append] at index
    rw [split, entryBytes_append, List.length_append] at room
    rw [TDiskState.removeLast, if_pos (by simp [last, split])]
    refine stored_of_commit (fun f => (stored.clean f).sound) (stored.clean .state) stored.short ?_ stored.currentTerm
      stored.votedFor ?_ ?_ ?_ ?_
    · dsimp only [Store.removeLast]
      rw [rest, last, split]
      simp
    · dsimp only [Store.removeLast]
      rw [rest, (stored.clean .entries).content]
      exact entries.1
    · dsimp only [Store.removeLast]
      rw [rest, (stored.clean .index).content]
      exact index.1
    · intro m member
      exact valid m (List.dropLast_subset _ member)
    · dsimp only [Store.removeLast]
      rw [rest]
      omega

/-- Where `Append` writes: `Entries` is behind the last entry after the `Get`, if there is one. -/
def TDiskState.writePos (d : TDiskState) (p : Store) : ℕ :=
  if p.log = [] then (d.files .entries).pos else (entryBytes p.log).length

/-- `Get` of the last entry, as `Append` begins with it. The position that is recorded is the end of the entries. -/
theorem Stored.get_last (stored : Stored d p) : ∃ held d', d.get d.lastLogIndex = .ok (held, d') ∧ Moved d d' ∧
    (d'.files .entries).pos = d.writePos p ∧ d'.offset held = (entryBytes p.log).length := by
  have last := stored.lastLogIndex
  rcases List.eq_nil_or_concat p.log with empty | ⟨xs, m, split⟩
  · refine ⟨none, d, get_outside (.inr ?_), .refl stored.clean, ?_, ?_⟩
    · simp [last, empty]
    · rw [TDiskState.writePos, if_pos empty]
    · rw [empty]
      rfl
  · rw [List.concat_eq_append] at split
    obtain ⟨slot, holds⟩ :=
      slot_of_holds (fun f => (d.files f).disk) stored.stores.entries stored.stores.index split
    have room := stored.stores.room
    rw [split, entryBytes_append, List.length_append] at room
    have entry : m.IsLogEntry := stored.stores.sound m (by simp [split])
    have index : xs.length + 1 = d.lastLogIndex := by simp [last, split]
    obtain ⟨d', got, moved, pos⟩ := get_of_holds stored.clean (by omega) slot (by omega) holds entry.2
    rw [index] at got
    have behind : (d'.files .entries).pos = (entryBytes p.log).length := by simp [pos, split]
    refine ⟨some m, d', got, moved, ?_, behind⟩
    rw [TDiskState.writePos, if_neg (by simp [split]), behind]

theorem run_appendOps (held : Option TRecord) (m : TRecord) (d : TDiskState) :
    FileOp.run (d.appendOps held m) d.files .entries = (d.files .entries).write m.bytes ∧
      FileOp.run (d.appendOps held m) d.files .index =
        ((d.files .index).seek (d.lastLogIndex * 8)).write (le 8 (d.offset held)) ∧
      FileOp.run (d.appendOps held m) d.files .state = d.files .state := by
  refine ⟨?_, ?_, ?_⟩ <;> simp [FileOp.run, TDiskState.appendOps, FileOp.act]

/-- What follows the bytes that a file has is its own. -/
theorem holds_write {bytes xs : List UInt8} (holds : Holds bytes 0 xs) (ys : List UInt8) :
    Holds (splice bytes xs.length ys) 0 (xs ++ ys) := by
  refine holds_append.mpr ⟨holds.splice (by simp), ?_⟩
  rw [Nat.zero_add]
  exact holds_splice ..

/-- **`Append` appends** where it writes behind the last entry: always, but for an empty log with `Entries` not at
its beginning. -/
theorem Stored.append (stored : Stored d p) (entry : m.IsLogEntry) (room : (entryBytes p.log).length + m.len < 2 ^ 63)
    (start : p.log = [] → (d.files .entries).pos = 0) : ∃ d', d.append m = .ok d' ∧ Stored d' (p.append m) := by
  obtain ⟨held, d₁, got, moved, pos, offset⟩ := stored.get_last
  have stored₁ := moved.stored stored
  have behind : d.writePos p = (entryBytes p.log).length := by
    unfold TDiskState.writePos
    split
    · rename_i empty
      rw [start empty, empty]
      rfl
    · rfl
  rw [behind] at pos
  obtain ⟨entries, index, -, valid, -⟩ := stored₁.stores
  have clean := stored₁.clean
  obtain ⟨run_entries, run_index, run_state⟩ := run_appendOps held m d₁
  rw [FileStream.write_of_sound (clean .entries).sound] at run_entries
  rw [(clean .index).seek, FileStream.write_of_sound (by exact (clean .index).sound)] at run_index
  have whole : (entryBytes (p.log ++ [m])).length = (entryBytes p.log).length + m.len := by simp
  rw [TDiskState.append, got]
  refine stored_of_commit ?_ ?_ ?_ ?_ stored₁.currentTerm stored₁.votedFor ?_ ?_ ?_ ?_
  · intro f
    cases f <;> simp only [run_entries, run_index, run_state, (clean _).sound]
  · simpa only [run_state] using clean .state
  · simpa only [run_state] using stored₁.short
  · simp [TDiskState.appended, Store.append, stored₁.lastLogIndex]
  · have written := holds_write entries m.bytes
    simpa [run_entries, FileStream.content, FileStream.apply, (clean .entries).pending, pos, Store.append] using written
  · have written := holds_write index (le 8 (entryBytes p.log).length)
    simp only [run_index, FileStream.content, FileStream.apply, (clean .index).pending, Store.append]
    rw [indexBytes_append]
    simpa [indexBytes, offset, stored₁.lastLogIndex, Nat.mul_comm] using written
  · intro x member
    rcases List.mem_append.mp member with old | new
    · exact valid x old
    · exact List.mem_singleton.mp new ▸ entry
  · exact whole ▸ room

/-! ## Opening -/

theorem fields_of_state {s : FileStream} (clean : s.Clean) (state : s.disk = stateBytes p)
    (word : p.log.length < 2 ^ 64) : TDiskState.fields s = some ({
      lastLogIndex := p.log.length
      currentTerm := p.currentTerm.toNat
      votedFor := p.votedFor.toNat }, { s with pos := 20 }) := by
  have whole : Holds s.disk 0 (stateBytes p) := state ▸ List.prefix_rfl
  obtain ⟨first, vote⟩ := holds_append.mp whole
  obtain ⟨index, term⟩ := holds_append.mp first
  simp only [length_le, Nat.zero_add, List.length_append, Nat.reduceAdd] at term vote
  have long : s.content.length = 20 := by
    rw [clean.content, state]
    simp [stateBytes]
  rw [TDiskState.fields, if_pos long, clean.seek, clean.read_of_holds index (length_le ..)]
  simp only [Nat.zero_add, clean.read_of_holds term (length_le ..), Nat.reduceAdd,
    clean.read_of_holds vote (length_le ..), Option.map_some, Option.getD_some]
  rw [ofLe_le (n := p.log.length) (by simpa using word), ofLe_le p.currentTerm.toNat_lt, ofLe_le p.votedFor.toNat_lt]

theorem Stores.length_lt (stores : Stores image p) : p.log.length < 2 ^ 63 := by
  have := length_le_entryBytes p.log
  have := stores.room
  omega

/-- The constructor up to its last statement. -/
theorem start_of_state (state : image .state = stateBytes p) (word : p.log.length < 2 ^ 64) :
    ∃ d, TDiskState.start image = .ok d ∧ (∀ f, (d.files f).Clean) ∧ d.lastLogIndex = p.log.length ∧
      d.currentTerm = p.currentTerm.toNat ∧ d.votedFor = p.votedFor.toNat ∧ ∀ f, (d.files f).disk = image f := by
  have started := fields_of_state (s := { disk := image .state }) ⟨rfl, rfl⟩ state word
  rw [TDiskState.start]
  dsimp only
  rw [started]
  refine ⟨_, rfl, fun f => ?_, rfl, rfl, rfl, fun f => ?_⟩
  · cases f <;> exact ⟨rfl, rfl⟩
  · cases f <;> rfl

/-- **The constructor finds the log, the term and the vote.** -/
theorem Stores.new (stores : Stores image p) : ∃ d, TDiskState.new image = .ok d ∧ Stored d p := by
  obtain ⟨d, started, clean, last, term, vote, disk⟩ :=
    start_of_state stores.state (stores.length_lt.trans (by decide))
  have stored : Stored d p := ⟨clean, last, term, vote, funext disk ▸ stores⟩
  obtain ⟨d', read, moved⟩ := stored.readable.readLast
  refine ⟨d', ?_, moved.stored stored⟩
  rw [TDiskState.new, started]
  exact read

/-- Closing the files and opening them again. -/
theorem Stored.reopen (stored : Stored d p) : ∃ d', TDiskState.new d.close = .ok d' ∧ Stored d' p := by
  have same : d.close = fun f => (d.files f).disk := funext fun f => (stored.clean f).content
  exact same ▸ stored.stores.new

/-- Empty files are the empty log. -/
theorem stored_new : ∃ d, TDiskState.new (fun _ => []) = .ok d ∧ Stored d {} := by
  obtain ⟨d, started, stored⟩ : ∃ d, TDiskState.start (fun _ => []) = .ok d ∧ Stored d {} :=
    stored_of_commit (d := { files := fun _ => {} }) (p := {}) (fun _ => rfl) ⟨rfl, rfl⟩ (by simp) rfl rfl rfl
      List.nil_prefix List.nil_prefix nofun (by decide)
  obtain ⟨d', read, moved⟩ := stored.readable.readLast
  refine ⟨d', ?_, moved.stored stored⟩
  rw [TDiskState.new, started]
  exact read

end MiniRaft
