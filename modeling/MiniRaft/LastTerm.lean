import MiniRaft.Raft
import MiniRaft.Storage

/-!
# The cached `LastLogTerm`

One side of the vote reads `LastLogTerm`, the other calls `LogTerm()`, which reads the entry at `LastLogIndex` again.
`TState` keeps the two equal. `RemoveLast` of `TDiskState` moves `LastLogIndex` and leaves `LastLogTerm`, until the next
`Append` or the next start.
-/

namespace MiniRaft

open Lib

namespace TDiskState

/-- `LogTerm`. -/
def logTerm (index : ℤ) (d : TDiskState) : Except DiskFault (ℕ × TDiskState) :=
  let index := if index < 0 then (d.lastLogIndex : ℤ) else index
  if index < 1 ∨ (d.lastLogIndex : ℤ) < index then .ok (0, d)
  else
    (d.get index).bind fun (held, d) =>
      match held with
      | some entry => .ok (entry.term, d)
      | none => .error .nullMessage

/-- `LogTerm(index)` returns `LastLogTerm`. -/
def LastTermIs (index : ℤ) (d : TDiskState) : Prop := (d.logTerm index).toOption.map (·.1) = some d.lastLogTerm

instance (index : ℤ) (d : TDiskState) : Decidable (d.LastTermIs index) := inferInstanceAs (Decidable (_ = _))

/-- `LastLogTerm` is the term of the last entry, 0 for an empty log. -/
def KeepsLastTerm (d : TDiskState) : Prop := d.LastTermIs (-1)

/-- Where an operation is made after which `LastLogTerm` is right. -/
def Restores (d : TDiskState) : DiskOp → Prop
  | .append _ | .reopen => True
  | .removeLast => d.LastTermIs (d.lastLogIndex - 1)
  | .get _ | .commit .. => d.KeepsLastTerm

/-- `RemoveLast` is made where the entry below the last one is of the same term, or on a log of one entry of term 0. -/
def SameBelow (d : TDiskState) : DiskOp → Prop
  | .removeLast => d.LastTermIs (d.lastLogIndex - 1)
  | _ => True

instance (d : TDiskState) : DecidablePred d.SameBelow := fun op => by
  unfold SameBelow
  split <;> infer_instance

/-- Every operation fits where it is made, and every `RemoveLast` keeps the term. -/
def Even : List DiskOp → TDiskState → Prop
  | [], _ => True
  | op :: ops, d => d.Fits op ∧ d.SameBelow op ∧ ∀ d' ∈ (d.step op).toOption, Even ops d'

instance : ∀ ops d, Decidable (Even ops d) := fun ops => by
  induction ops with
  | nil => exact fun _ => .isTrue trivial
  | cons op ops ih => exact fun _ => inferInstanceAs (Decidable (_ ∧ _ ∧ _))

variable {d d' : TDiskState} {m : TRecord} {image : TFile → List UInt8}

/-! ## What the calls do to the field -/

theorem lastLogTerm_commit (done : d.commit = .ok d') : d'.lastLogTerm = d.lastLogTerm := by
  unfold commit at done
  split at done
  · cases done
  · cases done
    rfl

theorem lastLogTerm_read (done : d.read = .ok (m, d')) : d'.lastLogTerm = d.lastLogTerm := by
  unfold read at done
  split at done
  · cases done
  split at done
  · cases done
  split at done
  · cases done
  split at done
  · cases done
  cases done
  rfl

theorem lastLogTerm_get {i : ℤ} {held : Option TRecord} (done : d.get i = .ok (held, d')) :
    d'.lastLogTerm = d.lastLogTerm := by
  unfold get at done
  split at done
  · cases done
    rfl
  split at done
  · cases done
    rfl
  · rename_i offset s _
    dsimp only at done
    cases entry : TDiskState.read _ with
    | error fault =>
      rw [entry] at done
      cases done
    | ok x =>
      rw [entry] at done
      cases done
      exact lastLogTerm_read (d := (d.withFile .index s).withFile .entries _) entry

theorem lastLogTerm_removeLast (done : d.removeLast = .ok d') : d'.lastLogTerm = d.lastLogTerm := by
  unfold removeLast at done
  split at done
  · exact lastLogTerm_commit (d := { d with lastLogIndex := d.lastLogIndex - 1 }) done
  · cases done
    rfl

theorem lastLogTerm_append (done : d.append m = .ok d') : d'.lastLogTerm = m.term := by
  unfold append at done
  cases got : d.get d.lastLogIndex with
  | error fault =>
    rw [got] at done
    cases done
  | ok x =>
    rw [got] at done
    exact lastLogTerm_commit done

theorem lastLogTerm_start (done : start image = .ok d) : d.lastLogTerm = 0 := by
  unfold start at done
  dsimp only at done
  split at done
  · rename_i stored s found
    cases done
    unfold fields at found
    split at found
    · cases found
      rfl
    · cases found
  · exact lastLogTerm_commit done

end TDiskState

open TDiskState

variable {d d' : TDiskState} {p : Store} {op : DiskOp} {image : TFile → List UInt8}

/-- **`LogTerm` is that of the plain list.** -/
theorem Stored.logTerm (stored : Stored d p) (i : ℕ) : ∃ d', d.logTerm i = .ok (termAt TRecord.term p.log i, d') := by
  have last := stored.lastLogIndex
  unfold TDiskState.logTerm
  dsimp only
  rw [if_neg (by omega : ¬ (i : ℤ) < 0)]
  by_cases out : (i : ℤ) < 1 ∨ (d.lastLogIndex : ℤ) < i
  · rw [if_pos out]
    refine ⟨d, ?_⟩
    rcases out with zero | past
    · obtain rfl : i = 0 := by omega
      rfl
    · rw [termAt_beyond (by omega)]
  · rw [if_neg out]
    obtain ⟨k, rfl⟩ : ∃ k, i = k + 1 := ⟨i - 1, by omega⟩
    have inside : k < p.log.length := by omega
    obtain ⟨d', got, -⟩ := stored.readable.get (k + 1 : ℕ)
    have there : p.get (k + 1 : ℕ) = some p.log[k] := by
      unfold Store.get
      rw [if_neg (by omega), show (((k + 1 : ℕ) : ℤ) - 1).toNat = k by omega, List.getElem?_eq_getElem inside]
    rw [got, there, termAt_of_get (List.getElem?_eq_getElem inside)]
    exact ⟨d', rfl⟩

theorem Stored.lastTermIs_iff (stored : Stored d p) (i : ℕ) :
    d.LastTermIs i ↔ termAt TRecord.term p.log i = d.lastLogTerm := by
  obtain ⟨d', term⟩ := stored.logTerm i
  unfold LastTermIs
  rw [term]
  exact Option.some_inj

theorem lastTermIs_of_neg {i : ℤ} (neg : i < 0) (d : TDiskState) : d.LastTermIs i ↔ d.LastTermIs d.lastLogIndex := by
  unfold LastTermIs TDiskState.logTerm
  dsimp only
  rw [if_pos neg, if_neg (by omega : ¬ (d.lastLogIndex : ℤ) < 0)]

theorem Stored.keepsLastTerm_iff (stored : Stored d p) : d.KeepsLastTerm ↔ lastTerm TRecord.term p.log = d.lastLogTerm := by
  unfold KeepsLastTerm
  rw [lastTermIs_of_neg (by decide), stored.lastTermIs_iff, stored.lastLogIndex]
  rfl

/-- The index below the last one is that of the last entry that is left. -/
theorem Stored.sameBelow_iff (stored : Stored d p) :
    d.LastTermIs (d.lastLogIndex - 1) ↔ lastTerm TRecord.term p.removeLast.log = d.lastLogTerm := by
  have last := stored.lastLogIndex
  have left : (p.removeLast).log = p.log.take (p.log.length - 1) := List.dropLast_eq_take
  rcases Nat.eq_zero_or_pos p.log.length with empty | pos
  · rw [lastTermIs_of_neg (by omega), stored.lastTermIs_iff, last, empty, left, empty]
    rfl
  · have below : (d.lastLogIndex : ℤ) - 1 = (p.log.length - 1 : ℕ) := by omega
    have short : (p.log.take (p.log.length - 1)).length = p.log.length - 1 := List.length_take_of_le (Nat.sub_le ..)
    rw [below, stored.lastTermIs_iff, left, lastTerm, short, termAt_of_prefixed (List.take_prefix ..) short.ge]

/-- The last statement of the constructor reads the term. -/
theorem Stored.lastLogTerm_readLast (stored : Stored d p) (start : d.lastLogTerm = 0) (done : d.readLast = .ok d') :
    d'.lastLogTerm = lastTerm TRecord.term p.log := by
  have last := stored.lastLogIndex
  unfold readLast at done
  split at done
  · rename_i some_
    rcases List.eq_nil_or_concat p.log with empty | ⟨xs, m, split⟩
    · simp [last, empty] at some_
    · rw [List.concat_eq_append] at split
      obtain ⟨d₁, got, -⟩ := stored.readable.get d.lastLogIndex
      rw [last, Store.get_last split] at got
      rw [last, got] at done
      cases done
      rw [split, lastTerm_append]
  · rename_i none_
    cases done
    have empty : p.log = [] := List.length_eq_zero_iff.mp (by omega)
    rw [start, empty]
    rfl

theorem Stores.lastLogTerm_new (stores : Stores image p) (opened : TDiskState.new image = .ok d) :
    d.lastLogTerm = lastTerm TRecord.term p.log := by
  obtain ⟨d₀, started, clean, last, term, vote, disk⟩ :=
    start_of_state stores.state (stores.length_lt.trans (by decide))
  have stored : Stored d₀ p := ⟨clean, last, term, vote, funext disk ▸ stores⟩
  rw [TDiskState.new, started] at opened
  exact stored.lastLogTerm_readLast (lastLogTerm_start started) opened

/-- **One operation.** `LastLogTerm` is right after it exactly where the operation restores it. -/
theorem Stored.restores_iff (stored : Stored d p) (fits : d.Fits op) :
    ∃ d', d.step op = .ok d' ∧ Stored d' (p.step op) ∧ (d'.KeepsLastTerm ↔ d.Restores op) := by
  obtain ⟨d', done, stored'⟩ := stored.step fits
  refine ⟨d', done, stored', ?_⟩
  rw [stored'.keepsLastTerm_iff]
  cases op with
  | append m =>
    apply iff_of_true _ trivial
    rw [lastLogTerm_append done]
    exact lastTerm_append ..
  | removeLast =>
    rw [lastLogTerm_removeLast done]
    exact stored.sameBelow_iff.symm
  | get i =>
    have same : d'.lastLogTerm = d.lastLogTerm := by
      rw [TDiskState.step] at done
      cases got : d.get i with
      | error fault =>
        rw [got] at done
        cases done
      | ok x =>
        rw [got] at done
        cases done
        exact lastLogTerm_get got
    rw [same]
    exact stored.keepsLastTerm_iff.symm
  | commit currentTerm votedFor =>
    rw [lastLogTerm_commit done]
    exact stored.keepsLastTerm_iff.symm
  | reopen =>
    apply iff_of_true _ trivial
    have same : d.close = fun f => (d.files f).disk := funext fun f => (stored.clean f).content
    rw [TDiskState.step, same] at done
    exact (stored.stores.lastLogTerm_new done).symm

/-- **A run.** -/
theorem Stored.run_even (ops : List DiskOp) (stored : Stored d p) (keeps : d.KeepsLastTerm) (even : Even ops d) :
    ∃ d', d.run ops = .ok d' ∧ d'.KeepsLastTerm := by
  induction ops generalizing d p with
  | nil => exact ⟨d, rfl, keeps⟩
  | cons op ops ih =>
    obtain ⟨fits, same, rest⟩ := even
    obtain ⟨d₁, first, stored₁, keeps₁⟩ := stored.restores_iff fits
    have restores : d.Restores op := by
      cases op with
      | removeLast => exact same
      | get | commit => exact keeps
      | append | reopen => trivial
    obtain ⟨d', later, keeps'⟩ := ih stored₁ (keeps₁.mpr restores) (rest d₁ (by simp [first, Except.toOption]))
    refine ⟨d', ?_, keeps'⟩
    rw [TDiskState.run, List.foldlM_cons, first]
    exact later

/-- Empty files are the empty log, whose last term is 0. -/
theorem keepsLastTerm_new (opened : TDiskState.new (fun _ => []) = .ok d) : Stored d {} ∧ d.KeepsLastTerm := by
  obtain ⟨d₀, opened₀, stored⟩ := stored_new
  obtain rfl : d₀ = d := Except.ok.inj (opened₀.symm.trans opened)
  refine ⟨stored, stored.keepsLastTerm_iff.mpr ?_⟩
  have zero : (TDiskState.new fun _ => []).toOption.map (·.lastLogTerm) = some 0 := by decide +kernel
  rw [opened] at zero
  exact (Option.some.inj zero).symm

/-- **The cached term.** In `TState` `LastLogTerm` is `LogTerm()` always, so that a vote is requested with the pair that
others compare. In `TDiskState` it is after every operation on a stored log exactly where the operation restores it:
an `Append` and a start always do, `RemoveLast` only where the entry below is of the same term, and the rest leaves it as it
is. So it is in every run from empty files in which each `RemoveLast` is made on such a log. -/
theorem last_log_term (d : TDiskState) :
    (∀ s : TState, s.lastLogTerm = s.logTerm (-1)) ∧
    (∀ (r : TRaft) (nodeId : ℕ), r.createVote nodeId =
      .requestVoteRequest { src := r.id, dst := nodeId, term := r.state.currentTerm }
        { lastLogIndex := r.state.lastLogIndex, lastLogTerm := r.state.logTerm (-1), candidateId := r.id }) ∧
    (∀ (p : Store) (op : DiskOp), Stored d p → d.Fits op →
      ∃ d', d.step op = .ok d' ∧ (d'.KeepsLastTerm ↔ d.Restores op)) ∧
    ∀ ops : List DiskOp, TDiskState.new (fun _ => []) = .ok d → Even ops d →
      ∃ d', d.run ops = .ok d' ∧ d'.KeepsLastTerm := by
  have kept (s : TState) : s.lastLogTerm = s.logTerm (-1) := s.term_eq.trans s.logTerm_last.symm
  refine ⟨kept, fun r nodeId => ?_, fun p op stored fits => ?_, fun ops opened even => ?_⟩
  · rw [TRaft.createVote, kept]
  · obtain ⟨d', done, -, restores⟩ := stored.restores_iff fits
    exact ⟨d', done, restores⟩
  · obtain ⟨stored, keeps⟩ := keepsLastTerm_new opened
    exact stored.run_even ops keeps even

theorem last_log_term_rewritten : ∃ d d', TDiskState.new (fun _ => []) = .ok d ∧
    d.run [.append entryA, .append entryA, .removeLast, .append entryB, .commit 10 2, .reopen] = .ok d' ∧
      d'.KeepsLastTerm := by
  obtain ⟨d, opened, -⟩ := stored_new
  have even : ∀ d ∈ (TDiskState.new fun _ => []).toOption,
      Even [.append entryA, .append entryA, .removeLast, .append entryB, .commit 10 2, .reopen] d := by
    decide +kernel
  obtain ⟨d', done, keeps⟩ := (last_log_term d).2.2.2 _ opened (even d (by simp [opened, Except.toOption]))
  exact ⟨d, d', opened, done, keeps⟩

/-- Entries of the terms 1 and 2 are appended, and the second one is removed: `LastLogTerm` is 2 still, `LogTerm()` is 1. -/
theorem last_log_term_removed : (TDiskState.new fun _ => []).toOption.isSome ∧ ∀ d ∈ (TDiskState.new fun _ => []).toOption,
    ((d.run [.append entryA, .append entryB, .removeLast]).toOption.map fun d' =>
      (d'.lastLogTerm, (d'.logTerm (-1)).toOption.map (·.1), decide (d'.LastTermIs (-1)))) = some (2, some 1, false) := by
  decide +kernel

end MiniRaft
