import MiniRaft.Disk

/-!
# Runs of the store

`TDiskState` is the plain list over every sequence of its operations in which no `Append` on an empty log finds
`Entries` behind the beginning of its file.
-/

namespace MiniRaft

open Lib

/-- A call of `TDiskState`, a change of the fields with a `Commit`, or the destructor and the constructor. -/
inductive DiskOp where
  | append (entry : TRecord)
  | removeLast
  | get (index : ℤ)
  | commit (currentTerm : UInt64) (votedFor : UInt32)
  | reopen

def TDiskState.step (d : TDiskState) : DiskOp → Except DiskFault TDiskState
  | .append entry => d.append entry
  | .removeLast => d.removeLast
  | .get index => (d.get index).map (·.2)
  | .commit currentTerm votedFor =>
    { d with currentTerm := currentTerm.toNat, votedFor := votedFor.toNat }.commit
  | .reopen => TDiskState.new d.close

def TDiskState.run (ops : List DiskOp) (d : TDiskState) : Except DiskFault TDiskState := ops.foldlM step d

def Store.step (p : Store) : DiskOp → Store
  | .append entry => p.append entry
  | .removeLast => p.removeLast
  | .commit currentTerm votedFor => { p with currentTerm, votedFor }
  | .get _ | .reopen => p

/-- What may be appended, to an entries file that does not grow past the positions of a stream, and where: on an
empty log only with `Entries` at the beginning of its file. -/
def TDiskState.Fits (d : TDiskState) : DiskOp → Prop
  | .append entry =>
    entry.IsLogEntry ∧ (d.files .entries).content.length + entry.len < 2 ^ 63 ∧
      (d.lastLogIndex = 0 → (d.files .entries).pos = 0)
  | _ => True

instance (d : TDiskState) : DecidablePred d.Fits := fun op => by
  unfold TDiskState.Fits
  split <;> infer_instance

/-- Every operation fits where it is made. -/
def Careful : List DiskOp → TDiskState → Prop
  | [], _ => True
  | op :: ops, d => d.Fits op ∧ ∀ d' ∈ (d.step op).toOption, Careful ops d'

instance : ∀ ops d, Decidable (Careful ops d) := fun ops => by
  induction ops with
  | nil => exact fun _ => .isTrue trivial
  | cons op ops ih => exact fun _ => inferInstanceAs (Decidable (_ ∧ _))

variable {d d' : TDiskState} {p : Store}

/-- **One operation.** -/
theorem Stored.step (stored : Stored d p) {op : DiskOp} (fits : d.Fits op) :
    ∃ d', d.step op = .ok d' ∧ Stored d' (p.step op) := by
  cases op with
  | append m =>
    obtain ⟨entry, room, start⟩ := fits
    have long := List.IsPrefix.length_le stored.stores.entries
    rw [(stored.clean .entries).content] at room
    rw [List.drop_zero] at long
    refine stored.append entry (by omega) fun empty => start ?_
    rw [stored.lastLogIndex, empty]
    rfl
  | removeLast => exact stored.removeLast
  | get i =>
    obtain ⟨d', got, moved⟩ := stored.readable.get i
    refine ⟨d', ?_, moved.stored stored⟩
    rw [TDiskState.step, got]
    rfl
  | commit currentTerm votedFor => exact stored.commit currentTerm votedFor
  | reopen => exact stored.reopen

theorem Stored.run (ops : List DiskOp) (stored : Stored d p) (careful : Careful ops d) :
    ∃ d', d.run ops = .ok d' ∧ Stored d' (ops.foldl Store.step p) := by
  induction ops generalizing d p with
  | nil => exact ⟨d, rfl, stored⟩
  | cons op ops ih =>
    obtain ⟨fits, rest⟩ := careful
    obtain ⟨d₁, first, stored₁⟩ := stored.step fits
    obtain ⟨d', later, stored'⟩ := ih stored₁ (rest d₁ (by simp [first, Except.toOption]))
    refine ⟨d', ?_, stored'⟩
    rw [TDiskState.run, List.foldlM_cons, first]
    exact later

/-- **`TDiskState` stores a log.** From empty files on, every careful sequence of operations succeeds and leaves the
log that the plain list has, entry by entry, with the term and the vote of the last `Commit`. -/
theorem disk_stores_log (ops : List DiskOp) (opened : TDiskState.new (fun _ => []) = .ok d)
    (careful : Careful ops d) :
    ∃ d', d.run ops = .ok d' ∧ d'.lastLogIndex = (ops.foldl Store.step {}).log.length ∧
      d'.currentTerm = (ops.foldl Store.step {}).currentTerm.toNat ∧
      d'.votedFor = (ops.foldl Store.step {}).votedFor.toNat ∧
      ∀ i, ∃ d'', d'.get i = .ok ((ops.foldl Store.step {}).get i, d'') := by
  obtain ⟨d₀, opened₀, stored₀⟩ := stored_new
  obtain rfl : d₀ = d := Except.ok.inj (opened₀.symm.trans opened)
  obtain ⟨d', done, stored⟩ := stored₀.run ops careful
  refine ⟨d', done, stored.lastLogIndex, stored.currentTerm, stored.votedFor, fun i => ?_⟩
  obtain ⟨d'', got, -⟩ := stored.readable.get i
  exact ⟨d'', got⟩

/-- Two entries. -/
def entryA : TRecord := { type := 1, value := le 8 1 ++ le 8 0 ++ [65] }

def entryB : TRecord := { type := 1, value := le 8 2 ++ le 8 0 ++ [66, 67] }

theorem disk_stores_log_rewritten : ∃ d d', TDiskState.new (fun _ => []) = .ok d ∧
    d.run [.append entryA, .append entryA, .removeLast, .append entryB, .commit 10 2, .reopen] = .ok d' ∧
      (d'.lastLogIndex, d'.currentTerm, d'.votedFor) = (2, 10, 2) ∧ ∃ d'', d'.get 2 = .ok (some entryB, d'') := by
  obtain ⟨d, opened, -⟩ := stored_new
  have careful : ∀ d ∈ (TDiskState.new fun _ => []).toOption,
      Careful [.append entryA, .append entryA, .removeLast, .append entryB, .commit 10 2, .reopen] d := by
    decide +kernel
  obtain ⟨d', done, last, term, vote, get⟩ := disk_stores_log _ opened (careful d (by simp [opened, Except.toOption]))
  exact ⟨d, d', opened, done, by rw [last, term, vote]; rfl, get 2⟩

/-- An entry is appended and removed, and the next one is written behind it: the log has the removed entry again. -/
theorem disk_stores_log_emptied :
    let ops := [.append entryA, .removeLast, .append entryB]
    (((TDiskState.new fun _ => []).bind (TDiskState.run ops)).bind (TDiskState.get 1)).toOption.map (·.1) =
        some (some entryA) ∧
      (ops.foldl Store.step {}).get 1 = some entryB ∧ entryA ≠ entryB := by
  decide +kernel

end MiniRaft
