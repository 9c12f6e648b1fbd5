import Mathlib.Data.List.TakeWhile
import Mathlib.Logic.Function.Basic
import MiniRaft.Lib.Bytes

/-!
# Buffered files

A stream has one position for reading and writing. What it writes reaches the file when the stream is flushed, or
earlier, one write after the other. A crash loses the writes that have not reached it.
-/

namespace Lib

structure FileStream where
  /-- What a crash leaves for certain. -/
  disk : List UInt8 := []
  /-- The writes since the last flush, each with its position. -/
  pending : List (ℕ × List UInt8) := []
  pos : ℕ := 0
  failed : Bool := false

namespace FileStream

def apply (bytes : List UInt8) (writes : List (ℕ × List UInt8)) : List UInt8 :=
  writes.foldl (fun bytes w => splice bytes w.1 w.2) bytes

/-- What is read, and what the file has once the stream is flushed. -/
def content (s : FileStream) : List UInt8 := apply s.disk s.pending

def seek (pos : ℕ) (s : FileStream) : FileStream := if s.failed then s else { s with pos }

def write (data : List UInt8) (s : FileStream) : FileStream :=
  if s.failed then s else { s with pending := s.pending ++ [(s.pos, data)], pos := s.pos + data.length }

def flush (s : FileStream) : FileStream := { s with disk := s.content, pending := [] }

/-- `n` bytes, or a failure that stays. -/
def read (n : ℕ) (s : FileStream) : Option (List UInt8) × FileStream :=
  let data := (s.content.drop s.pos).take n
  if s.failed then (none, s)
  else if data.length = n then (some data, { s with pos := s.pos + n })
  else (none, { s with pos := s.pos + data.length, failed := true })

/-- What the file may have after a crash. -/
def Survives (s : FileStream) (bytes : List UInt8) : Prop := ∃ k, bytes = apply s.disk (s.pending.take k)

/-- Nothing is waiting to be flushed, and nothing failed. -/
structure Clean (s : FileStream) : Prop where
  pending : s.pending = []
  sound : s.failed = false

variable {s : FileStream} {data : List UInt8} {n : ℕ}

theorem Clean.content (clean : s.Clean) : s.content = s.disk := by
  rw [FileStream.content, clean.pending]
  rfl

theorem flush_clean (sound : s.failed = false) : s.flush.Clean := ⟨rfl, sound⟩

@[simp] theorem failed_write (s : FileStream) (data : List UInt8) : (s.write data).failed = s.failed := by
  unfold write
  split <;> rfl

theorem write_of_sound (sound : s.failed = false) (data : List UInt8) :
    s.write data = { s with pending := s.pending ++ [(s.pos, data)], pos := s.pos + data.length } := by
  rw [FileStream.write, if_neg (by simp [sound])]

theorem Clean.seek (clean : s.Clean) (pos : ℕ) : s.seek pos = { s with pos } := by
  rw [FileStream.seek, if_neg (by simp [clean.sound])]

theorem Clean.read_of_holds (clean : s.Clean) {pos : ℕ} (holds : Holds s.disk pos data) (len : data.length = n) :
    read n { s with pos } = (some data, { s with pos := pos + n }) := by
  have content : FileStream.content { s with pos } = s.disk := clean.content
  have taken : (s.disk.drop pos).take n = data := len ▸ holds.take
  unfold read
  dsimp only
  rw [content, taken, if_neg (by simp [clean.sound]), if_pos len]

theorem Clean.holds_of_read (clean : s.Clean) {pos : ℕ} {s' : FileStream}
    (h : read n { s with pos } = (some data, s')) :
    data.length = n ∧ Holds s.disk pos data ∧ s' = { s with pos := pos + n } := by
  have content : FileStream.content { s with pos } = s.disk := clean.content
  unfold read at h
  dsimp only at h
  rw [content, if_neg (by simp [clean.sound])] at h
  split at h
  · rename_i len
    cases h
    exact ⟨len, List.take_prefix .., rfl⟩
  · cases h

end FileStream

/-! ## Several files -/

/-- What is done to the streams of the files `F`. -/
inductive FileOp (F : Type*) where
  | seek (f : F) (pos : ℕ)
  | write (f : F) (data : List UInt8)
  | flush (f : F)

namespace FileOp

variable {F : Type*} [DecidableEq F]

/-- What the operation does to the stream of `f`. -/
def act (f : F) (s : FileStream) : FileOp F → FileStream
  | seek g pos => if g = f then s.seek pos else s
  | write g data => if g = f then s.write data else s
  | flush g => if g = f then s.flush else s

def run (ops : List (FileOp F)) (files : F → FileStream) : F → FileStream := fun f => ops.foldl (act f) (files f)

/-- The files may be `image` after a crash between two of the operations, or before or after them all. -/
def Crash (ops : List (FileOp F)) (files : F → FileStream) (image : F → List UInt8) : Prop :=
  ∃ k, ∀ f, (run (ops.take k) files f).Survives (image f)

/-- The writes to `f`, from position `pos` on. -/
def writes (f : F) : ℕ → List (FileOp F) → List (ℕ × List UInt8)
  | _, [] => []
  | pos, seek g p :: ops => writes f (if g = f then p else pos) ops
  | pos, write g data :: ops =>
    if g = f then (pos, data) :: writes f (pos + data.length) ops else writes f pos ops
  | pos, flush _ :: ops => writes f pos ops

def isFlush : FileOp F → Bool
  | flush _ => true
  | _ => false

variable {files : F → FileStream} {ops : List (FileOp F)} {image : F → List UInt8} {f : F} {s : FileStream}

theorem act_sound (sound : s.failed = false) (op : FileOp F) : (op.act f s).failed = false := by
  cases op with
  | seek g pos => by_cases mine : g = f <;> simp [act, FileStream.seek, mine, sound]
  | write g data => by_cases mine : g = f <;> simp [act, FileStream.write, mine, sound]
  | flush g => by_cases mine : g = f <;> simp [act, FileStream.flush, mine, sound]

/-- What an operation adds to the writes, or makes certain of them. -/
theorem act_writes (sound : s.failed = false) (op : FileOp F) (ops : List (FileOp F)) :
    ∃ n, (op.act f s).disk = FileStream.apply s.disk ((s.pending ++ writes f s.pos (op :: ops)).take n) ∧
      (op.isFlush = false → n = 0) ∧
      (op.act f s).pending ++ writes f (op.act f s).pos ops = (s.pending ++ writes f s.pos (op :: ops)).drop n := by
  cases op with
  | seek g pos =>
    refine ⟨0, ?_, fun _ => rfl, ?_⟩ <;> by_cases mine : g = f <;>
      simp [act, writes, mine, FileStream.seek, sound, FileStream.apply]
  | write g data =>
    refine ⟨0, ?_, fun _ => rfl, ?_⟩ <;> by_cases mine : g = f <;>
      simp [act, writes, mine, FileStream.write, sound, FileStream.apply]
  | flush g =>
    by_cases mine : g = f
    · refine ⟨s.pending.length, ?_, nofun, ?_⟩ <;>
        simp [act, writes, mine, FileStream.flush, FileStream.content]
    · refine ⟨0, ?_, nofun, ?_⟩ <;> simp [act, writes, mine, FileStream.apply]

theorem apply_append (bytes : List UInt8) (xs ys : List (ℕ × List UInt8)) :
    FileStream.apply bytes (xs ++ ys) = FileStream.apply (FileStream.apply bytes xs) ys := List.foldl_append

/-- **A crash leaves of a file what a number of its writes made of it.** -/
theorem survives_foldl {bytes : List UInt8} (sound : s.failed = false) (k : ℕ)
    (survives : ((ops.take k).foldl (act f) s).Survives bytes) :
    ∃ n, bytes = FileStream.apply s.disk ((s.pending ++ writes f s.pos ops).take n) := by
  induction ops generalizing s k with
  | nil =>
    obtain ⟨n, same⟩ := survives
    exact ⟨n, by simpa [writes] using same⟩
  | cons op ops ih =>
    cases k with
    | zero =>
      obtain ⟨n, same⟩ := survives
      refine ⟨min n s.pending.length, ?_⟩
      rw [List.take_append_of_le_length (Nat.min_le_right ..), ← List.take_take, List.take_length]
      exact same
    | succ k =>
      obtain ⟨n, same⟩ := ih (act_sound sound op) k survives
      obtain ⟨m, disk, -, pending⟩ := act_writes (f := f) sound op ops
      refine ⟨m + n, ?_⟩
      rw [same, disk, pending, ← apply_append, List.take_add]

/-- **Before the first flush, every number of writes to each file may have reached it.** -/
theorem crash_of_writes (sound : ∀ f, (files f).failed = false) (none : ∀ op ∈ ops, op.isFlush = false)
    (rest : List (FileOp F)) (count : F → ℕ) :
    Crash (ops ++ rest) files fun f =>
      FileStream.apply (files f).disk (((files f).pending ++ writes f (files f).pos ops).take (count f)) := by
  refine ⟨ops.length, fun f => ⟨count f, ?_⟩⟩
  rw [List.take_left]
  suffices ∀ s : FileStream, s.failed = false → (ops.foldl (act f) s).disk = s.disk ∧
      (ops.foldl (act f) s).pending = s.pending ++ writes f s.pos ops by
    obtain ⟨disk, pending⟩ := this (files f) (sound f)
    rw [run, disk, pending]
  induction ops with
  | nil => intro s _; simp [writes]
  | cons op ops ih =>
    intro s sound
    obtain ⟨m, disk, zero, pending⟩ := act_writes (f := f) sound op ops
    obtain rfl := zero (none op (List.mem_cons_self ..))
    obtain ⟨disk', pending'⟩ := ih (fun op member => none op (List.mem_cons_of_mem _ member)) _ (act_sound sound op)
    refine ⟨disk'.trans disk, pending'.trans pending⟩

end FileOp

end Lib
