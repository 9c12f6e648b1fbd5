import MiniRaft.Storage

/-!
# Crashes of the store

A crash during `RemoveLast` leaves the log with the last entry or without it. `Commit` flushes the number of entries
before the index and the entries, so that a crash during `Append` is harmless only where the files have the entry
already.
-/

namespace MiniRaft

open Lib

/-- The constructor succeeds on the files, and what it opens is the log, the term and the vote. -/
def Recovers (image : TFile → List UInt8) (p : Store) : Prop :=
  ∃ d, TDiskState.new image = .ok d ∧ d.lastLogIndex = p.log.length ∧ d.currentTerm = p.currentTerm.toNat ∧
    d.votedFor = p.votedFor.toNat ∧ ∀ i, ∃ d', d.get i = .ok (p.get i, d')

namespace TDiskState

/-- What `RemoveLast` does to the files. -/
def removeLastOps (d : TDiskState) : List (FileOp TFile) :=
  if 0 < d.lastLogIndex then { d with lastLogIndex := d.lastLogIndex - 1 }.commitOps else []

/-- What `Append` does to the files after its `Get`. -/
def wholeAppendOps (held : Option TRecord) (entry : TRecord) (d : TDiskState) : List (FileOp TFile) :=
  d.appendOps held entry ++ (d.appended entry).commitOps

/-- The files after a crash during `RemoveLast`. -/
def RemoveLastCrash (d : TDiskState) (image : TFile → List UInt8) : Prop := FileOp.Crash d.removeLastOps d.files image

/-- The files after a crash during `Append`. -/
def AppendCrash (entry : TRecord) (d : TDiskState) (image : TFile → List UInt8) : Prop :=
  ∃ held d', d.get d.lastLogIndex = .ok (held, d') ∧ FileOp.Crash (d'.wholeAppendOps held entry) d'.files image

end TDiskState

variable {d d' : TDiskState} {p : Store} {m : TRecord} {image : TFile → List UInt8}

theorem removeLast_files (h : d.removeLast = .ok d') : d'.files = FileOp.run d.removeLastOps d.files := by
  unfold TDiskState.removeLast at h
  unfold TDiskState.removeLastOps
  split at h
  · rename_i some_
    rw [if_pos some_]
    unfold TDiskState.commit at h
    split at h
    · cases h
    · cases h
      rfl
  · rename_i none
    rw [if_neg none]
    cases h
    rfl

theorem append_files (h : d.append m = .ok d') :
    ∃ held d₁, d.get d.lastLogIndex = .ok (held, d₁) ∧ d'.files = FileOp.run (d₁.wholeAppendOps held m) d₁.files := by
  unfold TDiskState.append at h
  cases got : d.get d.lastLogIndex with
  | error fault => rw [got] at h; cases h
  | ok x =>
    rw [got] at h
    refine ⟨x.1, x.2, rfl, ?_⟩
    change TDiskState.commit _ = _ at h
    unfold TDiskState.commit at h
    split at h
    · cases h
    · cases h
      funext f
      exact List.foldl_append.symm

/-! ## What the constructor finds -/

theorem recovers_of_slots (state : image .state = stateBytes p) (word : p.log.length < 2 ^ 64)
    (slots : Slots image p.log) (sound : ∀ m ∈ p.log, m.IsLogEntry) : Recovers image p := by
  obtain ⟨d, started, clean, last, term, vote, disk⟩ := start_of_state state word
  have readable : Readable d p := ⟨clean, last, term, vote, funext disk ▸ slots, sound⟩
  obtain ⟨d', read, moved⟩ := readable.readLast
  have readable' := moved.readable readable
  refine ⟨d', ?_, readable'.lastLogIndex, readable'.currentTerm, readable'.votedFor, fun i => ?_⟩
  · rw [TDiskState.new, started]
    exact read
  · obtain ⟨d'', got, -⟩ := readable'.get i
    exact ⟨d'', got⟩

theorem Stores.recovers (stores : Stores image p) : Recovers image p :=
  recovers_of_slots stores.state (stores.length_lt.trans (by decide)) stores.slots stores.sound

theorem get_lastLogIndex {i : ℤ} {held : Option TRecord} (h : d.get i = .ok (held, d')) :
    d'.lastLogIndex = d.lastLogIndex := by
  unfold TDiskState.get at h
  split at h
  · cases h
    rfl
  · split at h
    · cases h
      rfl
    · dsimp only at h
      unfold TDiskState.read at h
      repeat' split at h
      all_goals cases h
      rfl

/-- The state file says how many entries there are. -/
theorem Recovers.length_eq {q : Store} (recovers : Recovers image p) (state : image .state = stateBytes q)
    (word : q.log.length < 2 ^ 64) : p.log.length = q.log.length := by
  obtain ⟨d', opened, last', -⟩ := recovers
  obtain ⟨d, started, -, last, -⟩ := start_of_state state word
  rw [TDiskState.new, started] at opened
  change d.readLast = _ at opened
  unfold TDiskState.readLast at opened
  split at opened
  · cases got : d.get d.lastLogIndex with
    | error fault => rw [got] at opened; cases opened
    | ok x =>
      obtain ⟨held, d₁⟩ := x
      rw [got] at opened
      have same := get_lastLogIndex got
      cases held with
      | none => cases opened
      | some m =>
        cases opened
        exact last'.symm.trans (same.trans last)
  · cases opened
    exact last'.symm.trans last

/-- What is found as the last entry is there. -/
theorem Recovers.slot (recovers : Recovers image p) (state : image .state = stateBytes p)
    (word : p.log.length < 2 ^ 64) {xs : List TRecord} (split : p.log = xs ++ [m]) :
    ∃ offset < 2 ^ 64, Holds (image .index) (8 * xs.length) (le 8 offset) ∧ Holds (image .entries) offset m.bytes := by
  obtain ⟨d', opened, last', -, -, get⟩ := recovers
  obtain ⟨d, started, clean, last, -, -, disk⟩ := start_of_state state word
  have count : d.lastLogIndex = xs.length + 1 := by simp [last, split]
  rw [TDiskState.new, started] at opened
  change d.readLast = _ at opened
  rw [TDiskState.readLast, if_pos (by omega), count] at opened
  cases got : d.get (xs.length + 1 : ℕ) with
  | error fault => rw [got] at opened; cases opened
  | ok x =>
    obtain ⟨held, d₁⟩ := x
    rw [got] at opened
    cases held with
    | none => cases opened
    | some r =>
      cases opened
      obtain ⟨offset, word, slot, holds, small⟩ := holds_of_get clean (by omega) got
      -- the entry is read a second time from the same place
      obtain ⟨_, again, moved, -⟩ := get_of_holds clean (by omega) slot word holds small
      cases got.symm.trans again
      obtain ⟨_, second, -⟩ := get_of_holds (d := { d₁ with lastLogTerm := r.term }) moved.clean
        (by rw [moved.lastLogIndex]; omega) (moved.disk .index ▸ slot) word (moved.disk .entries ▸ holds) small
      obtain ⟨_, found⟩ := get (xs.length + 1 : ℕ)
      have whole : xs.length + 1 = p.log.length := by simp [split]
      rw [whole, Store.get_last split, ← whole] at found
      cases second.symm.trans found
      exact ⟨offset, word, disk .index ▸ slot, disk .entries ▸ holds⟩

/-! ## Crashes -/

theorem writes_commitOps (d : TDiskState) (pos : ℕ) :
    FileOp.writes .entries pos d.commitOps = [] ∧ FileOp.writes .index pos d.commitOps = [] ∧
      FileOp.writes .state pos d.commitOps =
        [(0, le 8 d.lastLogIndex), (8, le 8 d.currentTerm), (16, le 4 d.votedFor)] := by
  simp [TDiskState.commitOps, FileOp.writes]

theorem writes_wholeAppendOps (held : Option TRecord) (m : TRecord) (d : TDiskState) (pos : ℕ) :
    FileOp.writes .entries pos (d.wholeAppendOps held m) = [(pos, m.bytes)] ∧
      FileOp.writes .index pos (d.wholeAppendOps held m) = [(d.lastLogIndex * 8, le 8 (d.offset held))] ∧
      FileOp.writes .state pos (d.wholeAppendOps held m) =
        [(0, le 8 (d.lastLogIndex + 1)), (8, le 8 d.currentTerm), (16, le 4 d.votedFor)] := by
  simp [TDiskState.wholeAppendOps, TDiskState.appendOps, TDiskState.commitOps, TDiskState.appended, FileOp.writes]

/-- Of the writes of a state file only the first changes anything where term and vote are stored already. -/
theorem state_of_writes (n a b c k : ℕ) :
    FileStream.apply (le 8 n ++ le 8 b ++ le 4 c) ([(0, le 8 a), (8, le 8 b), (16, le 4 c)].take k) =
      if k = 0 then le 8 n ++ le 8 b ++ le 4 c else le 8 a ++ le 8 b ++ le 4 c := by
  have first : splice (le 8 n ++ le 8 b ++ le 4 c) 0 (le 8 a) = le 8 a ++ le 8 b ++ le 4 c := by
    rw [splice_zero, List.append_assoc, List.drop_left' (by simp), List.append_assoc]
  have whole : Holds (le 8 a ++ le 8 b ++ le 4 c) 0 (le 8 a ++ le 8 b ++ le 4 c) := List.prefix_rfl
  obtain ⟨terms, vote⟩ := holds_append.mp whole
  obtain ⟨-, term⟩ := holds_append.mp terms
  simp only [length_le, Nat.zero_add, List.length_append, Nat.reduceAdd] at term vote
  have second := term.splice_eq (by simp)
  have third := vote.splice_eq (by simp)
  match k with
  | 0 => rfl
  | 1 => exact first
  | 2 =>
    change splice (splice _ 0 (le 8 a)) 8 (le 8 b) = _
    rw [first, second]
    rfl
  | k + 3 =>
    rw [List.take_of_length_le (by simp)]
    change splice (splice (splice _ 0 (le 8 a)) 8 (le 8 b)) 16 (le 4 c) = _
    rw [first, second, third]
    rfl

theorem apply_take_one (bytes : List UInt8) (pos : ℕ) (data : List UInt8) (k : ℕ) :
    FileStream.apply bytes ([(pos, data)].take k) = if k = 0 then bytes else splice bytes pos data := by
  cases k <;> simp [FileStream.apply]

/-- What a crash leaves of a clean file. -/
theorem survivors {ops : List (FileOp TFile)} {files : TFile → FileStream} (clean : ∀ f, (files f).Clean)
    (crash : FileOp.Crash ops files image) :
    ∃ count : TFile → ℕ, ∀ f, image f =
      FileStream.apply (files f).disk ((FileOp.writes f (files f).pos ops).take (count f)) := by
  obtain ⟨k, survives⟩ := crash
  have each : ∀ f, ∃ n, image f =
      FileStream.apply (files f).disk ((FileOp.writes f (files f).pos ops).take n) := by
    intro f
    obtain ⟨n, same⟩ := FileOp.survives_foldl (clean f).sound k (survives f)
    rw [(clean f).pending, List.nil_append] at same
    exact ⟨n, same⟩
  exact ⟨fun f => (each f).choose, fun f => (each f).choose_spec⟩

/-- **A crash during `RemoveLast` leaves the log before or after it.** -/
theorem Stored.removeLast_crash (stored : Stored d p) (crash : d.RemoveLastCrash image) :
    Stores image p ∨ Stores image p.removeLast := by
  obtain ⟨count, images⟩ := survivors stored.clean crash
  obtain ⟨entries, index, state, sound, room⟩ := stored.stores
  have last := stored.lastLogIndex
  rcases List.eq_nil_or_concat p.log with empty | ⟨xs, m, split⟩
  · have same : image = fun f => (d.files f).disk := by
      funext f
      rw [images f, TDiskState.removeLastOps, if_neg (by simp [last, empty])]
      cases f <;> simp [FileOp.writes, FileStream.apply]
    exact .inl (same ▸ stored.stores)
  · rw [List.concat_eq_append] at split
    have rest : p.log.dropLast = xs := by rw [split, List.dropLast_concat]
    rw [TDiskState.removeLastOps, if_pos (by simp [last, split])] at images
    have writes := writes_commitOps { d with lastLogIndex := d.lastLogIndex - 1 }
    have image_entries : image .entries = (d.files .entries).disk := by
      rw [images, (writes _).1, List.take_nil]
      rfl
    have image_index : image .index = (d.files .index).disk := by
      rw [images, (writes _).2.1, List.take_nil]
      rfl
    have image_state := images .state
    rw [(writes _).2.2, state, stateBytes, ← stored.currentTerm, ← stored.votedFor, state_of_writes] at image_state
    split at image_state
    · refine .inl ⟨image_entries ▸ entries, image_index ▸ index, ?_, sound, room⟩
      rw [image_state, stateBytes, stored.currentTerm, stored.votedFor]
    · rw [split, entryBytes_append, holds_append] at entries
      rw [split, indexBytes_append, holds_append] at index
      rw [split, entryBytes_append, List.length_append] at room
      refine .inr ⟨?_, ?_, ?_, fun m member => sound m (List.dropLast_subset _ member), ?_⟩
      · rw [Store.removeLast, rest, image_entries]
        exact entries.1
      · rw [Store.removeLast, rest, image_index]
        exact index.1
      · rw [image_state, stateBytes, Store.removeLast, List.length_dropLast, ← last, stored.currentTerm, stored.votedFor]
      · rw [Store.removeLast, rest]
        dsimp only
        omega

/-- The files have the entry already: at the position that `Append` records and at one that the index has for it,
whether or not the entry is written once more. -/
def Rewrites (d : TDiskState) (p : Store) (m : TRecord) : Prop :=
  let offset := (entryBytes p.log).length
  let before := (d.files .entries).disk
  let after := splice before (d.writePos p) m.bytes
  ∃ old < 2 ^ 64, Holds (d.files .index).disk (8 * p.log.length) (le 8 old) ∧
    ∀ bytes ∈ [before, after], ∀ i ∈ [old, offset], Holds bytes i m.bytes

/-- The operations of `Append` up to the first flush. -/
theorem wholeAppendOps_split (held : Option TRecord) (m : TRecord) (d : TDiskState) : ∃ ops rest,
    d.wholeAppendOps held m = ops ++ rest ∧ (∀ op ∈ ops, op.isFlush = false) ∧
      ∀ f pos, FileOp.writes f pos ops = FileOp.writes f pos (d.wholeAppendOps held m) := by
  refine ⟨(d.wholeAppendOps held m).take 7, (d.wholeAppendOps held m).drop 7, (List.take_append_drop ..).symm, ?_, ?_⟩
  · simp [TDiskState.wholeAppendOps, TDiskState.appendOps, TDiskState.commitOps, FileOp.isFlush]
  · intro f pos
    simp [TDiskState.wholeAppendOps, TDiskState.appendOps, TDiskState.commitOps, FileOp.writes]

/-- **The files that a crash during `Append` may leave**: of each of them the one before or the one after it. -/
theorem Stored.append_crash (stored : Stored d p) :
    d.AppendCrash m image ↔
      (image .entries = (d.files .entries).disk ∨
        image .entries = splice (d.files .entries).disk (d.writePos p) m.bytes) ∧
      (image .index = (d.files .index).disk ∨
        image .index = splice (d.files .index).disk (8 * p.log.length) (le 8 (entryBytes p.log).length)) ∧
      (image .state = stateBytes p ∨ image .state = stateBytes (p.append m)) := by
  obtain ⟨held, d₁, got, moved, pos, offset⟩ := stored.get_last
  have stored₁ := moved.stored stored
  have state : (d.files .state).disk = stateBytes p := stored.stores.state
  have last : d₁.lastLogIndex * 8 = 8 * p.log.length := by rw [stored₁.lastLogIndex, Nat.mul_comm]
  have writes := writes_wholeAppendOps held m d₁
  have apply_state := state_of_writes p.log.length (p.log.length + 1) p.currentTerm.toNat p.votedFor.toNat
  have whole : stateBytes (p.append m) =
      le 8 (p.log.length + 1) ++ le 8 p.currentTerm.toNat ++ le 4 p.votedFor.toNat := by
    simp [stateBytes, Store.append]
  rw [whole]
  constructor
  · rintro ⟨_, _, got', crash⟩
    cases got.symm.trans got'
    obtain ⟨count, images⟩ := survivors stored₁.clean crash
    refine ⟨?_, ?_, ?_⟩
    · rw [images, (writes _).1, pos, moved.disk, apply_take_one]
      split <;> simp
    · rw [images, (writes _).2.1, offset, last, moved.disk, apply_take_one]
      split <;> simp
    · rw [images, (writes _).2.2, moved.disk, state, stateBytes, stored₁.lastLogIndex, stored₁.currentTerm,
        stored₁.votedFor, apply_state]
      split <;> simp
  · rintro ⟨entries, index, last_state⟩
    refine ⟨held, d₁, got, ?_⟩
    obtain ⟨ops, rest, split, none, same⟩ := wholeAppendOps_split held m d₁
    have each : ∀ f, ∃ n, image f = FileStream.apply (d₁.files f).disk
        (((d₁.files f).pending ++ FileOp.writes f (d₁.files f).pos ops).take n) := by
      intro f
      rw [(stored₁.clean f).pending, List.nil_append, same, moved.disk]
      cases f with
      | entries =>
        rw [(writes _).1, pos]
        simp only [apply_take_one]
        rcases entries with old | new
        · exact ⟨0, old⟩
        · exact ⟨1, new⟩
      | index =>
        rw [(writes _).2.1, offset, last]
        simp only [apply_take_one]
        rcases index with old | new
        · exact ⟨0, old⟩
        · exact ⟨1, new⟩
      | state =>
        rw [(writes _).2.2, state, stateBytes, stored₁.lastLogIndex, stored₁.currentTerm, stored₁.votedFor]
        simp only [apply_state]
        rcases last_state with old | new
        · exact ⟨0, old⟩
        · exact ⟨1, new⟩
    choose count images using each
    rw [split, funext images]
    exact FileOp.crash_of_writes (fun f => (stored₁.clean f).sound) none rest count

/-- What is below the end of the log stays in every file that a crash may leave. -/
theorem Stored.kept (stored : Stored d p)
    (entries : image .entries = (d.files .entries).disk ∨
      image .entries = splice (d.files .entries).disk (d.writePos p) m.bytes)
    (index : image .index = (d.files .index).disk ∨
      image .index = splice (d.files .index).disk (8 * p.log.length) (le 8 (entryBytes p.log).length)) :
    Holds (image .entries) 0 (entryBytes p.log) ∧ Holds (image .index) 0 (indexBytes 0 p.log) := by
  constructor
  · rcases entries with old | new
    · exact old ▸ stored.stores.entries
    · rw [new]
      unfold TDiskState.writePos
      split
      · rename_i empty
        rw [empty]
        exact List.nil_prefix
      · exact Holds.splice stored.stores.entries (by simp)
  · rcases index with old | new
    · exact old ▸ stored.stores.index
    · rw [new]
      exact Holds.splice stored.stores.index (by simp)

/-- The three files as a crash leaves them. -/
def images (entries index state : List UInt8) : TFile → List UInt8
  | .entries => entries
  | .index => index
  | .state => state

/-- **`Append` is crash-atomic exactly where it writes what the files have already.** -/
theorem Stored.append_atomic (stored : Stored d p) (entry : m.IsLogEntry)
    (room : (entryBytes p.log).length + m.len < 2 ^ 63) :
    (∀ image, d.AppendCrash m image → Recovers image p ∨ Recovers image (p.append m)) ↔ Rewrites d p m := by
  have valid : ∀ x ∈ (p.append m).log, x.IsLogEntry := by
    intro x member
    rcases List.mem_append.mp member with old | new
    · exact stored.stores.sound x old
    · exact List.mem_singleton.mp new ▸ entry
  have count := stored.stores.length_lt
  have word : (p.append m).log.length < 2 ^ 64 := by
    rw [Store.append, List.length_append, List.length_singleton]
    omega
  constructor
  · intro atomic
    -- one image for each choice of the two files, all with the new number of entries
    have found : ∀ entries index, (entries = (d.files .entries).disk ∨
        entries = splice (d.files .entries).disk (d.writePos p) m.bytes) → (index = (d.files .index).disk ∨
        index = splice (d.files .index).disk (8 * p.log.length) (le 8 (entryBytes p.log).length)) →
        ∃ offset < 2 ^ 64, Holds index (8 * p.log.length) (le 8 offset) ∧ Holds entries offset m.bytes := by
      intro entries index one other
      let image := images entries index (stateBytes (p.append m))
      rcases atomic image (stored.append_crash.mpr ⟨one, other, .inr rfl⟩) with before | after
      · have := before.length_eq (q := p.append m) rfl word
        simp [Store.append] at this
      · exact after.slot rfl word rfl
    obtain ⟨old, small, slot, holds₁⟩ := found _ _ (.inl rfl) (.inl rfl)
    obtain ⟨old', small', slot', holds₂⟩ := found _ _ (.inr rfl) (.inl rfl)
    obtain ⟨new, small₃, slot₃, holds₃⟩ := found _ _ (.inl rfl) (.inr rfl)
    obtain ⟨new', small₄, slot₄, holds₄⟩ := found _ _ (.inr rfl) (.inr rfl)
    have recorded := holds_splice (d.files .index).disk (8 * p.log.length) (le 8 (entryBytes p.log).length)
    obtain rfl : old' = old := le_inj small' small (slot'.unique slot (by simp))
    obtain rfl : new = (entryBytes p.log).length := le_inj small₃ (by omega) (slot₃.unique recorded (by simp))
    obtain rfl : new' = (entryBytes p.log).length := le_inj small₄ (by omega) (slot₄.unique recorded (by simp))
    refine ⟨_, small, slot, ?_⟩
    simp only [List.mem_cons, List.not_mem_nil, or_false]
    rintro _ (rfl | rfl) _ (rfl | rfl)
    · exact holds₁
    · exact holds₃
    · exact holds₂
    · exact holds₄
  · rintro ⟨old, small, slot, holds⟩ image crash
    obtain ⟨entries, index, state⟩ := stored.append_crash.mp crash
    obtain ⟨kept_entries, kept_index⟩ := stored.kept entries index
    rcases state with state | state
    · exact .inl (Stores.recovers ⟨kept_entries, kept_index, state, stored.stores.sound, stored.stores.room⟩)
    · right
      refine recovers_of_slots state word ?_ valid
      intro xs x ys split
      rcases List.eq_nil_or_concat ys with rfl | ⟨ys', y, rfl⟩
      · obtain ⟨rfl, same⟩ := List.append_inj' (split : p.log ++ [m] = xs ++ [x]) rfl
        cases same
        have at_entry : ∀ i, i = old ∨ i = (entryBytes p.log).length → Holds (image .entries) i m.bytes := by
          intro i either
          exact holds _ (by rcases entries with same | same <;> simp [same]) i (by simpa using either)
        rcases index with same | same
        · exact ⟨old, small, same ▸ slot, at_entry _ (.inl rfl)⟩
        · exact ⟨_, by omega, same ▸ holds_splice .., at_entry _ (.inr rfl)⟩
      · rw [List.concat_eq_append, ← List.cons_append, ← List.append_assoc] at split
        have whole : p.log = xs ++ x :: ys' := (List.append_inj' (split : p.log ++ [m] = _) rfl).1
        exact slots_of_holds kept_entries kept_index stored.stores.room _ _ _ whole

/-- **Storage operations and crashes**: `RemoveLast` is atomic, and `Append` is exactly where it writes what the files
have already. -/
theorem storage_atomic (stored : Stored d p) :
    (∀ image, d.RemoveLastCrash image → Recovers image p ∨ Recovers image p.removeLast) ∧
    ∀ m : TRecord, m.IsLogEntry → (entryBytes p.log).length + m.len < 2 ^ 63 →
      ((∀ image, d.AppendCrash m image → Recovers image p ∨ Recovers image (p.append m)) ↔ Rewrites d p m) := by
  refine ⟨fun image crash => ?_, fun m entry room => stored.append_atomic entry room⟩
  rcases stored.removeLast_crash crash with before | after
  · exact .inl before.recovers
  · exact .inr after.recovers

/-- An entry that was removed is appended again. -/
theorem storage_atomic_again : ∃ d p, Stored d p ∧ p.log = [entryB] ∧
    ∀ image, d.AppendCrash entryA image → Recovers image p ∨ Recovers image (p.append entryA) := by
  obtain ⟨d₀, opened, stored₀⟩ := stored_new
  have careful : ∀ d ∈ (TDiskState.new fun _ => []).toOption,
      Careful [.append entryB, .append entryA, .removeLast] d := by
    decide +kernel
  obtain ⟨d, done, stored⟩ := stored₀.run _ (careful d₀ (by simp [opened, Except.toOption]))
  have there : ∀ d ∈ ((TDiskState.new fun _ => []).bind
      (TDiskState.run [.append entryB, .append entryA, .removeLast])).toOption,
      Holds (d.files .index).disk 8 (le 8 26) ∧ ∀ bytes ∈ [(d.files .entries).disk,
        splice (d.files .entries).disk 26 entryA.bytes], ∀ i ∈ [26, 26], Holds bytes i entryA.bytes := by
    decide +kernel
  have rewrites : Rewrites d { log := [entryB] } entryA :=
    ⟨26, by decide, there d (by simp [opened, done, Except.toOption, Except.bind])⟩
  exact ⟨d, _, stored, rfl, ((storage_atomic stored).2 entryA (by decide) (by decide)).mpr rewrites⟩

/-- After a crash between the first and the second flush of `Commit`, in the first `Append`, the constructor takes
the entry of a null message. -/
theorem storage_atomic_torn : ∃ d image, TDiskState.new (fun _ => []) = .ok d ∧ d.AppendCrash entryA image ∧
    TDiskState.new image = .error .nullMessage ∧ ¬ Recovers image {} ∧ ¬ Recovers image (Store.append entryA {}) := by
  obtain ⟨d, opened, stored⟩ := stored_new
  have empty : ∀ d ∈ (TDiskState.new fun _ => []).toOption,
      (d.files .entries).disk = [] ∧ (d.files .index).disk = [] := by
    decide +kernel
  obtain ⟨entries, index⟩ := empty d (by simp [opened, Except.toOption])
  let image := images [] [] (stateBytes (Store.append entryA {}))
  have failed : TDiskState.new image = .error .nullMessage := by rfl
  have lost : ∀ p, ¬ Recovers image p := by
    rintro p ⟨d', opened', -⟩
    rw [failed] at opened'
    cases opened'
  exact ⟨d, image, opened, stored.append_crash.mpr ⟨.inl entries.symm, .inl index.symm, .inr rfl⟩, failed, lost _, lost _⟩

end MiniRaft
