import MiniRaft.Applied

/-!
# Reading back from `TDummyRsm`

`Write` keeps the entries that are not stubs, one after the other, and `Read` takes the index of the log for a position
among them. What it finds goes out with the 16 bytes that lie beyond the entry, since the length of the data is taken to
be the entry's `Len` less that of a bare `TMessage`.
-/

namespace MiniRaft

/-- The entries that were given to the state machine. -/
def clientEntries (events : List TEvent) : List TLogEntry :=
  (appliedOf events).filterMap fun applied => if applied.2.flags = eStub then none else some applied.2

namespace TDummyRsm

variable {beyond : List UInt8} {p p' : TRequestProcessor (List TLogEntry)}

/-- The data of the client entry at index `i` of the log, and nothing where there is none. -/
def written (p : TRequestProcessor (List TLogEntry)) (i : ℤ) : List UInt8 :=
  match (appliedOf p.events).find? (fun applied => (applied.1 : ℤ) = i) with
  | some (_, entry) => if entry.flags = eStub then [] else entry.data
  | none => []

/-- The command carries an index, and is answered with what was written there, whatever the memory holds. -/
def ReadsBack (p : TRequestProcessor (List TLogEntry)) (command : TCommandRequest) : Prop :=
  ∀ beyond : List UInt8, beyond.length = 16 → ∀ index, ((read beyond command index p.rsm).1.map (·.data)) =
    some (written p (readIndex command.data))

/-! ## What the state machine holds -/

/-- The state machine holds the client entries that were applied. -/
def Filled (p : TRequestProcessor (List TLogEntry)) : Prop := p.rsm.impl = clientEntries p.events

theorem Filled.of_same (filled : Filled p) (rsm : p'.rsm = p.rsm) (applied : appliedOf p'.events = appliedOf p.events) :
    Filled p' := by
  unfold Filled clientEntries
  rw [rsm, applied]
  exact filled

/-- One round of the loop. -/
theorem Filled.applyEntry (beyond : List UInt8) {i : ℕ} (low : p.rsm.lastAppliedIndex < i) (filled : Filled p) :
    (p.applyEntry (rsm beyond) i).rsm.lastAppliedIndex ≤ i ∧ Filled (p.applyEntry (rsm beyond) i) := by
  unfold TRequestProcessor.applyEntry
  dsimp only
  split
  · rename_i stub
    refine ⟨low.le, ?_⟩
    show p.rsm.impl = clientEntries (p.events ++ [.skip i _])
    rw [show p.rsm.impl = _ from filled]
    simp [clientEntries, appliedOf, TEvent.applied?, stub]
  · rename_i entry
    have wrote : (write (p.raft.state.get i) i p.rsm).2 =
        { lastAppliedIndex := i, impl := p.rsm.impl ++ [p.raft.state.get i] } := by
      unfold write
      rw [if_pos low]
    constructor
    · show (write (p.raft.state.get i) i p.rsm).2.lastAppliedIndex ≤ i
      rw [wrote]
    · show (write (p.raft.state.get i) i p.rsm).2.impl = clientEntries (p.events ++ [.write i _ _ _])
      rw [wrote, show p.rsm.impl = _ from filled]
      simp [clientEntries, appliedOf, TEvent.applied?, entry]

theorem Filled.foldl (n : ℕ) : ∀ {first : ℕ} {p : TRequestProcessor (List TLogEntry)},
    p.rsm.lastAppliedIndex < first → Filled p →
      Filled ((List.range' first n).foldl (TRequestProcessor.applyEntry (rsm beyond)) p) := by
  induction n with
  | zero => exact fun _ filled => filled
  | succ n ih =>
    intro first p low filled
    obtain ⟨reached, filled'⟩ := filled.applyEntry beyond low
    exact ih (Nat.lt_succ_of_le reached) filled'

theorem Filled.processCommitted (filled : Filled p) : Filled (p.processCommitted (rsm beyond)) :=
  foldl _ (Nat.lt_succ_self _) filled

/-- Reading and preparing leave the state machine alone. -/
theorem read_snd (command : TCommandRequest) (index : ℕ) (r : TDummyRsm) : (read beyond command index r).2 = r := by
  unfold read
  dsimp only
  split <;> rfl

theorem rsm_commanded {command : TCommandRequest} {replyTo : Option ℕ}
    (h : Commanded (rsm beyond) command replyTo p p') : p'.rsm = p.rsm := by
  cases h with
  | aside aside => exact aside.rsm
  | _ => rfl

theorem rsm_answers {strong : Bool} {applied : ℕ} {ok : TWaiting → Prop}
    (h : Answers (rsm beyond) strong applied ok p p') : p'.rsm = p.rsm := by
  induction h with
  | refl => rfl
  | tail _ last ih =>
    obtain ⟨w, -, answered⟩ := last
    cases answered with
    | write => exact ih
    | read => exact (read_snd ..).trans ih

/-- Every call but `ProcessCommitted` leaves it alone. -/
theorem rsm_handled {delay : UInt32 → ℕ} {request : Request} (h : Handled delay (rsm beyond) p request p') :
    (request = .processCommitted ∧ p' = p.processCommitted (rsm beyond)) ∨ p'.rsm = p.rsm := by
  cases h with
  | process | processTimeout | append => exact .inr rfl
  | served served =>
    right
    induction served with
    | refl => rfl
    | tail _ last ih =>
      obtain ⟨_, _, commanded⟩ := last
      exact (rsm_commanded commanded).trans ih
  | processCommitted => exact .inl ⟨rfl, rfl⟩
  | processWaiting done =>
    obtain ⟨p₁, p₂, rest, strongRest, answers, answers', -, -, rfl⟩ := Answers.of_processWaiting done
    have first : p₁.rsm = p.rsm := rsm_answers answers
    have second : p₂.rsm = { p₁ with waiting := rest }.rsm := rsm_answers answers'
    exact .inr (second.trans first)

/-- **A run.** What was applied is in order, and the state machine holds the client entries of it. -/
theorem run_filled {delay : UInt32 → ℕ} {raft : TRaft}
    (run : ServerRun delay (rsm beyond) CatchesUp (.new raft { impl := [] }) p) : InOrder 0 p ∧ Filled p := by
  induction run with
  | refl => exact ⟨⟨le_rfl, rfl, nofun, nofun⟩, rfl⟩
  | tail _ last ih =>
    have inOrder := (ih.1.step (lawful beyond) last).1
    obtain ⟨request, ok, done⟩ := last
    have handled := Handled.of_handle done
    refine ⟨inOrder, ?_⟩
    cases rsm_handled handled with
    | inl applied =>
      rw [applied.2]
      exact ih.2.processCommitted
    | inr same =>
      cases handled.quiet with
      | inl applied =>
        rw [applied.2]
        exact ih.2.processCommitted
      | inr quiet =>
        obtain ⟨es, events, none_⟩ := quiet.events
        apply ih.2.of_same same
        rw [events, appliedOf_append, show appliedOf es = [] from List.filterMap_eq_nil_iff.mpr none_, List.append_nil]

/-! ## What is read -/

/-- The answer is the entry at the position with what lies beyond it, or nothing. -/
theorem read_data (beyond : List UInt8) (command : TCommandRequest) (index : ℕ) (r : TDummyRsm) :
    (read beyond command index r).1.map (·.data) =
      some (if 0 < readIndex command.data ∧ readIndex command.data ≤ r.impl.length then
        (r.impl.getD ((readIndex command.data).toNat - 1) default).data ++ beyond else []) := by
  unfold read
  dsimp only
  split <;> rfl

/-- **A read is right** exactly where it finds nothing, and nothing was to be found. -/
theorem readsBack_iff (p : TRequestProcessor (List TLogEntry)) (command : TCommandRequest) : ReadsBack p command ↔
    (readIndex command.data ≤ 0 ∨ (p.rsm.impl.length : ℤ) < readIndex command.data) ∧
      written p (readIndex command.data) = [] := by
  unfold ReadsBack
  simp only [read_data, Option.some.injEq]
  by_cases found : 0 < readIndex command.data ∧ readIndex command.data ≤ p.rsm.impl.length
  · simp only [if_pos found]
    apply iff_of_false
    · intro same
      have zeros := same (List.replicate 16 0) (List.length_replicate ..) 0
      have ones := same (List.replicate 16 1) (List.length_replicate ..) 0
      have clash := List.append_cancel_left (zeros.trans ones.symm)
      exact absurd clash (by decide)
    · rintro ⟨low | high, -⟩
      · omega
      · omega
  · simp only [if_neg found]
    constructor
    · intro same
      refine ⟨by omega, ?_⟩
      exact (same (List.replicate 16 0) (List.length_replicate ..) 0).symm
    · rintro ⟨-, none_⟩ beyond _ _
      exact none_.symm

theorem written_eq_nil (stubs : clientEntries p.events = []) (i : ℤ) : written p i = [] := by
  unfold written
  cases found : (appliedOf p.events).find? (fun applied => (applied.1 : ℤ) = i) with
  | none => rfl
  | some applied =>
    have all := List.filterMap_eq_nil_iff.mp stubs applied (List.mem_of_find?_eq_some found)
    dsimp only
    split
    · rfl
    · rename_i entry
      simp [entry] at all

/-- The data of an entry that is not a stub, applied at its index. -/
theorem written_of_applied (inOrder : InOrder 0 p) {i : ℕ} {entry : TLogEntry}
    (applied : (i, entry) ∈ appliedOf p.events) (client : entry.flags ≠ eStub) : written p i = entry.data := by
  have nodup : ((appliedOf p.events).map (·.1)).Nodup := by
    rw [inOrder.indices]
    exact List.nodup_range'
  unfold written
  cases found : (appliedOf p.events).find? (fun applied => (applied.1 : ℤ) = i) with
  | none => exact absurd (List.find?_eq_none.mp found _ applied) (by simp)
  | some other =>
    have same : other.1 = i := by simpa using List.find?_some found
    have there := List.mem_of_find?_eq_some found
    obtain rfl : other = (i, entry) := List.inj_on_of_nodup_map nodup there applied same
    exact if_neg client

end TDummyRsm

section

open TDummyRsm

/-- **What `TDummyRsm` reads back.** In every run in which `ProcessCommitted` catches up, the state machine holds the
client entries that were applied, in order. A read of an index is answered with the data that was written there, and with
nothing that lies beyond, exactly where the index is not positive or exceeds the number of client entries, and no data
was written there. So every read is right exactly where no client entry was applied. -/
theorem dummy_rsm_reads (delay : UInt32 → ℕ) (beyond : List UInt8) (raft : TRaft) (p : TRequestProcessor (List TLogEntry))
    (run : ServerRun delay (TDummyRsm.rsm beyond) CatchesUp (.new raft { impl := [] }) p) :
    (∀ (i : ℕ) (command : TCommandRequest) (r : TDummyRsm) (term : ℕ),
      (i, { (prepare command r).1 with term := term }) ∈ appliedOf p.events → written p i = command.data) ∧
    (∀ command : TCommandRequest, 8 ≤ command.data.length → (ReadsBack p command ↔
      (readIndex command.data ≤ 0 ∨ ((clientEntries p.events).length : ℤ) < readIndex command.data) ∧
        written p (readIndex command.data) = [])) ∧
    ((∀ command : TCommandRequest, 8 ≤ command.data.length → ReadsBack p command) ↔ clientEntries p.events = []) := by
  obtain ⟨inOrder, filled⟩ := run_filled run
  have each (command : TCommandRequest) : ReadsBack p command ↔
      (readIndex command.data ≤ 0 ∨ ((clientEntries p.events).length : ℤ) < readIndex command.data) ∧
        written p (readIndex command.data) = [] := by
    rw [readsBack_iff, show p.rsm.impl = _ from filled]
  refine ⟨fun i command r term applied => written_of_applied inOrder applied nofun, fun command _ => each command, ?_⟩
  constructor
  · intro all
    let first : TCommandRequest := { data := [1, 0, 0, 0, 0, 0, 0, 0] }
    have one : readIndex first.data = 1 := by decide
    have right := ((each first).mp (all first le_rfl)).1
    rw [one] at right
    apply List.length_eq_zero_iff.mp
    omega
  · intro stubs command _
    rw [each, written_eq_nil stubs, stubs]
    exact ⟨by simp only [List.length_nil]; omega, rfl⟩

/-- A lone server after its election, a write of one byte, and the commit of both entries. -/
def appliedByte : TRequestProcessor (List TLogEntry) :=
  let elected := TRequestProcessor.new ((TRaft.new (.ofLog 1 0 []) 1 []).processTimeout (fun _ => 5000) 0) { impl := [] }
  let asked := { elected with raft := (elected.raft.append { data := [65] }).2 }
  TRequestProcessor.processCommitted (TDummyRsm.rsm []) { asked with raft := asked.raft.processTimeout (fun _ => 5000) 1 }

theorem appliedByte_reachable : ServerRun (fun _ => 5000) (TDummyRsm.rsm []) CatchesUp
    (.new (TRaft.new {} 1 []) { impl := [] }) appliedByte :=
  .tail (.tail (.tail (.single ⟨.processTimeout 0, nofun, rfl⟩) ⟨.append { data := [65] }, nofun, rfl⟩)
    ⟨.processTimeout 1, nofun, rfl⟩) ⟨.processCommitted, fun _ => by decide, rfl⟩

/-- The command that reads index `i`. -/
def readOf (i : UInt8) : TCommandRequest := { data := [i, 0, 0, 0, 0, 0, 0, 0] }

theorem dummy_rsm_reads_beyond : ReadsBack appliedByte (readOf 3) ∧ ¬ ReadsBack appliedByte (readOf 1) := by
  have claim := (dummy_rsm_reads (fun _ => 5000) [] _ appliedByte appliedByte_reachable).2.1
  constructor
  · exact (claim (readOf 3) le_rfl).mpr (by decide)
  · rw [claim (readOf 1) le_rfl]
    decide

/-- The byte is at index 2 of the log. A read of 2 is answered with nothing, and a read of 1, the stub, with the byte and
16 more. -/
theorem dummy_rsm_reads_shifted : written appliedByte 2 = [65] ∧ ¬ ReadsBack appliedByte (readOf 2) ∧
    (∀ beyond, (read beyond (readOf 2) 2 appliedByte.rsm).1.map (·.data) = some []) ∧
    ∀ beyond, (read beyond (readOf 1) 1 appliedByte.rsm).1.map (·.data) = some (65 :: beyond) := by
  have empty : ∀ beyond, (read beyond (readOf 2) 2 appliedByte.rsm).1.map (·.data) = some [] := fun beyond => by
    rw [read_data, if_neg (by decide)]
  have first : ∀ beyond, (read beyond (readOf 1) 1 appliedByte.rsm).1.map (·.data) = some (65 :: beyond) := fun beyond => by
    rw [read_data, if_pos (by decide)]
    rfl
  refine ⟨by decide, ?_, empty, first⟩
  rw [readsBack_iff]
  decide

end

end MiniRaft
