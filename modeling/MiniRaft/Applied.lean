import MiniRaft.Server

/-!
# Applying committed entries (`ProcessCommitted`)

The entries that a server gave to its state machine, or skipped, are read off its events. One call of
`ProcessCommitted` appends the entries after `LastAppliedIndex` up to `CommitIndex`.
-/

namespace MiniRaft

/-- The index and entry that an event applies. -/
def TEvent.applied? : TEvent → Option (ℕ × TLogEntry)
  | .write i entry _ _ | .skip i entry => some (i, entry)
  | _ => none

/-- The answer that an event leaves in `WriteAnswers`. -/
def TEvent.answer? : TEvent → Option TAnswer
  | .write i _ _ reply => some { index := i, reply }
  | _ => none

/-- Stubs are skipped, and nothing else is. -/
def TEvent.Fits : TEvent → Prop
  | .write _ entry _ _ => entry.flags ≠ eStub
  | .skip _ entry => entry.flags = eStub
  | _ => False

/-- The state machine took the entry for a new one. -/
def TEvent.Executed : TEvent → Prop
  | .write i _ applied _ => applied < i
  | _ => True

def appliedOf (events : List TEvent) : List (ℕ × TLogEntry) := events.filterMap TEvent.applied?

@[simp] theorem appliedOf_append (es fs : List TEvent) : appliedOf (es ++ fs) = appliedOf es ++ appliedOf fs :=
  List.filterMap_append

variable {ρ : Type*} {rsm : IRsm ρ} {p p' : TRequestProcessor ρ}

/-- What applying the entries at `indices` changes. -/
structure Applies (indices : List ℕ) (p p' : TRequestProcessor ρ) : Prop where
  raft : p'.raft = p.raft
  nodes : p'.nodes = p.nodes
  waiting : p'.waiting = p.waiting
  strongWaiting : p'.strongWaiting = p.strongWaiting
  events : ∃ es, p'.events = p.events ++ es ∧ appliedOf es = indices.map (fun i => (i, p.raft.state.get i)) ∧
    (∀ e ∈ es, e.Fits) ∧ p'.writeAnswers = p.writeAnswers ++ es.filterMap TEvent.answer?

theorem applyEntry_applies (rsm : IRsm ρ) (p : TRequestProcessor ρ) (i : ℕ) : Applies [i] p (p.applyEntry rsm i) := by
  unfold TRequestProcessor.applyEntry
  dsimp only
  split
  · rename_i stub
    exact ⟨rfl, rfl, rfl, rfl, _, rfl, rfl, by simpa [TEvent.Fits] using stub, (List.append_nil _).symm⟩
  · rename_i entry
    exact ⟨rfl, rfl, rfl, rfl, _, rfl, rfl, by simpa [TEvent.Fits] using entry, rfl⟩

theorem Applies.trans {is js : List ℕ} {p'' : TRequestProcessor ρ} (h : Applies is p p') (k : Applies js p' p'') :
    Applies (is ++ js) p p'' := by
  obtain ⟨es, events, applied, fits, answers⟩ := h.events
  obtain ⟨fs, events', applied', fits', answers'⟩ := k.events
  refine ⟨k.raft.trans h.raft, k.nodes.trans h.nodes, k.waiting.trans h.waiting, k.strongWaiting.trans h.strongWaiting,
    es ++ fs, by rw [events', events, List.append_assoc], ?_, ?_, ?_⟩
  · rw [appliedOf_append, applied, applied', h.raft, List.map_append]
  · intro e he
    exact (List.mem_append.mp he).elim (fits e) (fits' e)
  · rw [answers', answers, List.filterMap_append, List.append_assoc]

theorem foldl_applies (rsm : IRsm ρ) (indices : List ℕ) :
    ∀ p : TRequestProcessor ρ, Applies indices p (indices.foldl (TRequestProcessor.applyEntry rsm) p) := by
  induction indices with
  | nil => intro p; exact ⟨rfl, rfl, rfl, rfl, [], by simp, rfl, by simp, by simp⟩
  | cons i indices ih => intro p; exact (applyEntry_applies rsm p i).trans (ih _)

/-- The indices that a call of `ProcessCommitted` applies. -/
def TRequestProcessor.pending (p : TRequestProcessor ρ) : List ℕ :=
  List.range' (p.rsm.lastAppliedIndex + 1) (p.raft.volatileState.commitIndex - p.rsm.lastAppliedIndex)

/-- **One call of `ProcessCommitted`.** -/
theorem processCommitted_applies (rsm : IRsm ρ) (p : TRequestProcessor ρ) :
    Applies p.pending p (p.processCommitted rsm) ∧
      (p.processCommitted rsm).rsm.lastAppliedIndex = p.raft.volatileState.commitIndex := by
  have all := foldl_applies rsm p.pending p
  have same : p.raft.volatileState.commitIndex + 1 - (p.rsm.lastAppliedIndex + 1) =
      p.raft.volatileState.commitIndex - p.rsm.lastAppliedIndex := by omega
  unfold TRequestProcessor.processCommitted
  dsimp only
  rw [same]
  exact ⟨{ all with }, rfl⟩

/-- Every entry of a run of indices is new to a state machine that has not gone past them. -/
theorem foldl_executed (lawful : rsm.Lawful) (n : ℕ) :
    ∀ {first : ℕ} {p : TRequestProcessor ρ}, p.rsm.lastAppliedIndex < first →
      (∀ e ∈ p.events, e.Executed) →
      ∀ e ∈ ((List.range' first n).foldl (TRequestProcessor.applyEntry rsm) p).events, e.Executed := by
  induction n with
  | zero => intro first p _ old; exact old
  | succ n ih =>
    intro first p low old
    rw [List.range'_succ, List.foldl_cons]
    unfold TRequestProcessor.applyEntry
    dsimp only
    split
    · apply ih (by exact low.trans (Nat.lt_succ_self _))
      intro e he
      rcases List.mem_append.mp he with he | he
      · exact old e he
      · obtain rfl := List.mem_singleton.mp he; trivial
    · refine ih ?_ fun e he => ?_
      · rcases lawful.write (p.raft.state.get first) first p.rsm with same | own
        · exact same.trans_lt (low.trans (Nat.lt_succ_self _))
        · exact own.trans_lt (Nat.lt_succ_self _)
      · rcases List.mem_append.mp he with he | he
        · exact old e he
        · obtain rfl := List.mem_singleton.mp he; exact low

/-! ## Calls that apply nothing -/

/-- Nothing is applied, and answers are at most taken from the front of `WriteAnswers`. -/
structure Quiet (rsm : IRsm ρ) (p p' : TRequestProcessor ρ) : Prop where
  events : ∃ es, p'.events = p.events ++ es ∧ ∀ e ∈ es, e.applied? = none
  last : rsm.Lawful → p'.rsm.lastAppliedIndex = p.rsm.lastAppliedIndex
  answers : p'.writeAnswers <:+ p.writeAnswers

namespace Quiet

theorem refl (p : TRequestProcessor ρ) : Quiet rsm p p := ⟨⟨[], by simp, by simp⟩, fun _ => rfl, List.suffix_rfl⟩

theorem trans {p'' : TRequestProcessor ρ} (h : Quiet rsm p p') (k : Quiet rsm p' p'') : Quiet rsm p p'' := by
  obtain ⟨es, events, none⟩ := h.events
  obtain ⟨fs, events', none'⟩ := k.events
  exact ⟨⟨es ++ fs, by rw [events', events, List.append_assoc], fun e he =>
    (List.mem_append.mp he).elim (none e) (none' e)⟩, fun lawful => (k.last lawful).trans (h.last lawful),
    k.answers.trans h.answers⟩

theorem of_commanded {command : TCommandRequest} {replyTo : Option ℕ} (h : Commanded rsm command replyTo p p') :
    Quiet rsm p p' := by
  cases h with
  | aside aside =>
    obtain ⟨es, events, none⟩ := aside.events
    refine ⟨⟨es, events, fun e he => ?_⟩, fun _ => by rw [aside.rsm], aside.writeAnswers ▸ List.suffix_rfl⟩
    have := none e he
    cases e <;> first | rfl | cases this
  | read | strong => exact ⟨⟨_, rfl, by simp [TEvent.applied?]⟩, fun _ => rfl, List.suffix_rfl⟩
  | silent => exact ⟨⟨[], by simp, by simp⟩, fun lawful => lawful.prepare .., List.suffix_rfl⟩
  | write => exact ⟨⟨_, rfl, by simp [TEvent.applied?]⟩, fun lawful => lawful.prepare .., List.suffix_rfl⟩

theorem of_served (h : Served rsm p p') : Quiet rsm p p' := by
  induction h with
  | refl => exact refl p
  | tail _ step ih =>
    obtain ⟨_, _, commanded⟩ := step
    exact ih.trans (of_commanded commanded)

theorem of_answered {strong : Bool} {applied : ℕ} {w : TWaiting} (h : Answered rsm strong applied w p p') :
    Quiet rsm p p' := by
  cases h with
  | @write kind weak heard answer rest own taken =>
    have part : answer :: rest <:+ p.writeAnswers := taken ▸ List.dropWhile_suffix _
    exact ⟨⟨_, rfl, by simp [TEvent.applied?]⟩, fun _ => rfl, (List.suffix_cons ..).trans part⟩
  | read => exact ⟨⟨_, rfl, by simp [TEvent.applied?]⟩, fun lawful => lawful.read .., List.suffix_rfl⟩

theorem of_answers {strong : Bool} {applied : ℕ} {ok : TWaiting → Prop} (h : Answers rsm strong applied ok p p') :
    Quiet rsm p p' := by
  induction h with
  | refl => exact refl p
  | tail _ step ih =>
    obtain ⟨w, -, answered⟩ := step
    exact ih.trans (of_answered answered)

theorem of_processWaiting (h : p.processWaiting rsm = .ok p') : Quiet rsm p p' := by
  obtain ⟨p₁, p₂, rest, strongRest, answers, answers', -, -, rfl⟩ := Answers.of_processWaiting h
  have first : Quiet rsm p { p₁ with waiting := rest } := { of_answers answers with }
  have second : Quiet rsm { p₁ with waiting := rest } { p₂ with strongWaiting := strongRest } :=
    { of_answers answers' with }
  exact first.trans second

end Quiet

/-- Every call but `ProcessCommitted` applies nothing. -/
theorem Handled.quiet {delay : UInt32 → ℕ} {request : Request} (h : Handled delay rsm p request p') :
    (request = .processCommitted ∧ p' = p.processCommitted rsm) ∨ Quiet rsm p p' := by
  cases h with
  | process | processTimeout | append => exact .inr ⟨⟨[], by simp, by simp⟩, fun _ => rfl, List.suffix_rfl⟩
  | served h => exact .inr (.of_served h)
  | processCommitted => exact .inl ⟨rfl, rfl⟩
  | processWaiting h => exact .inr (.of_processWaiting h)

/-! ## Once and in order -/

/-- One call to a process, made where `ok` allows it. -/
def ServerStep (delay : UInt32 → ℕ) (rsm : IRsm ρ) (ok : Request → TRequestProcessor ρ → Prop)
    (p p' : TRequestProcessor ρ) : Prop :=
  ∃ request, ok request p ∧ p.handle delay rsm request = .ok p'

def ServerRun (delay : UInt32 → ℕ) (rsm : IRsm ρ) (ok : Request → TRequestProcessor ρ → Prop) :
    TRequestProcessor ρ → TRequestProcessor ρ → Prop :=
  Relation.ReflTransGen (ServerStep delay rsm ok)

theorem TRequestProcessor.handleAll_cons {delay : UInt32 → ℕ} {request : Request} {requests : List Request}
    (done : p.handleAll delay rsm (request :: requests) = .ok p') :
    ∃ p₁, p.handle delay rsm request = .ok p₁ ∧ p₁.handleAll delay rsm requests = .ok p' := by
  unfold TRequestProcessor.handleAll at done
  rw [List.foldlM_cons] at done
  exact Except.bind_ok done

/-- Calls one after the other are a run. -/
theorem ServerRun.of_handleAll {delay : UInt32 → ℕ} {ok : Request → TRequestProcessor ρ → Prop} {requests : List Request}
    (all : ∀ request ∈ requests, ∀ p, ok request p) (done : p.handleAll delay rsm requests = .ok p') :
    ServerRun delay rsm ok p p' := by
  induction requests generalizing p with
  | nil =>
    cases done
    exact .refl
  | cons request requests ih =>
    obtain ⟨p₁, first, rest⟩ := TRequestProcessor.handleAll_cons done
    rw [List.forall_mem_cons] at all
    exact .head ⟨request, all.1 p, first⟩ (ih all.2 rest)

/-- A property of where calls end is checked by making them. -/
theorem TRequestProcessor.exists_of_handleAll (delay : UInt32 → ℕ) (rsm : IRsm ρ) (requests : List Request)
    (p : TRequestProcessor ρ) (φ : TRequestProcessor ρ → Prop) [DecidablePred φ]
    (made : (p.handleAll delay rsm requests).toOption.any (φ ·)) : ∃ p', p.handleAll delay rsm requests = .ok p' ∧ φ p' := by
  cases done : p.handleAll delay rsm requests with
  | error fault => simp [done, Except.toOption] at made
  | ok p' => exact ⟨p', rfl, by simpa [done, Except.toOption] using made⟩

/-- A process that started with `restored` has applied the indices after it once each and in order: stubs were
skipped, and everything else was new to the state machine when it was given to it. -/
structure InOrder (restored : ℕ) (p : TRequestProcessor ρ) : Prop where
  low : restored ≤ p.rsm.lastAppliedIndex
  indices : (appliedOf p.events).map (·.1) = List.range' (restored + 1) (p.rsm.lastAppliedIndex - restored)
  fits : ∀ e ∈ p.events, e.applied?.isSome → e.Fits
  executed : ∀ e ∈ p.events, e.Executed

/-- What `ProcessCommitted` does: everything committed is applied afterwards, and what it applied are entries of the log. -/
structure AppliesLog (rsm : IRsm ρ) (p : TRequestProcessor ρ) : Prop where
  last : (p.processCommitted rsm).rsm.lastAppliedIndex = p.raft.volatileState.commitIndex
  entries : ∃ es, (p.processCommitted rsm).events = p.events ++ es ∧
    ∀ i entry, (i, entry) ∈ appliedOf es → p.raft.state.log[i - 1]? = some entry

/-- **Every committed entry is applied once, in order**, in each run of a process from `start` whose calls are made
where `ok` allows them. -/
def AppliesInOrder (delay : UInt32 → ℕ) (rsm : IRsm ρ) (ok : Request → TRequestProcessor ρ → Prop)
    (start : TRequestProcessor ρ) : Prop :=
  ∀ p, ServerRun delay rsm ok start p →
    InOrder start.rsm.lastAppliedIndex p ∧
    (∀ p', ServerStep delay rsm ok p p' → p.rsm.lastAppliedIndex ≤ p'.rsm.lastAppliedIndex) ∧
    (ok .processCommitted p → AppliesLog rsm p)

/-- `ProcessCommitted` is only called where everything applied is known to be committed. -/
def CatchesUp (request : Request) (p : TRequestProcessor ρ) : Prop :=
  request = .processCommitted → p.rsm.lastAppliedIndex ≤ p.raft.volatileState.commitIndex

/-- And everything that is known to be committed is in the log. -/
structure CatchesUpWithLog (request : Request) (p : TRequestProcessor ρ) : Prop where
  up : CatchesUp request p
  inLog : request = .processCommitted → p.raft.volatileState.commitIndex ≤ p.raft.state.lastLogIndex

theorem executed_of_none {e : TEvent} (h : e.applied? = none) : e.Executed := by
  cases e <;> trivial

/-- One call of `ProcessCommitted`, where it catches up. -/
theorem InOrder.processCommitted {restored : ℕ} (lawful : rsm.Lawful) (h : InOrder restored p)
    (up : p.rsm.lastAppliedIndex ≤ p.raft.volatileState.commitIndex) : InOrder restored (p.processCommitted rsm) := by
  obtain ⟨all, last⟩ := processCommitted_applies rsm p
  obtain ⟨es, events, applied, fits, -⟩ := all.events
  have low := h.low
  refine ⟨by omega, ?_, fun e he some_ => ?_, ?_⟩
  · have front : p.rsm.lastAppliedIndex + 1 = restored + 1 + 1 * (p.rsm.lastAppliedIndex - restored) := by omega
    have count : p.raft.volatileState.commitIndex - restored = p.rsm.lastAppliedIndex - restored +
        (p.raft.volatileState.commitIndex - p.rsm.lastAppliedIndex) := by omega
    rw [events, appliedOf_append, applied, List.map_append, h.indices, last, List.map_map, count, ← List.range'_append,
      ← front]
    simp [TRequestProcessor.pending, Function.comp_def]
  · rw [events] at he
    exact (List.mem_append.mp he).elim (fun old => h.fits e old some_) (fits e)
  · have := foldl_executed lawful (p.raft.volatileState.commitIndex + 1 - (p.rsm.lastAppliedIndex + 1))
      (Nat.lt_succ_self p.rsm.lastAppliedIndex) h.executed
    exact this

theorem InOrder.quiet {restored : ℕ} (lawful : rsm.Lawful) (h : InOrder restored p) (quiet : Quiet rsm p p') :
    InOrder restored p' := by
  obtain ⟨es, events, none⟩ := quiet.events
  have last := quiet.last lawful
  have nothing : appliedOf es = [] := List.filterMap_eq_nil_iff.mpr none
  refine ⟨last ▸ h.low, ?_, fun e he some_ => ?_, fun e he => ?_⟩
  · rw [events, appliedOf_append, nothing, List.append_nil, last, h.indices]
  · rw [events] at he
    rcases List.mem_append.mp he with old | new
    · exact h.fits e old some_
    · rw [none e new] at some_; cases some_
  · rw [events] at he
    exact (List.mem_append.mp he).elim (h.executed e) fun new => executed_of_none (none e new)

theorem InOrder.step {restored : ℕ} {delay : UInt32 → ℕ} (lawful : rsm.Lawful) (h : InOrder restored p)
    (st : ServerStep delay rsm CatchesUp p p') :
    InOrder restored p' ∧ p.rsm.lastAppliedIndex ≤ p'.rsm.lastAppliedIndex := by
  obtain ⟨request, ok, handled⟩ := st
  rcases (Handled.of_handle handled).quiet with ⟨rfl, rfl⟩ | quiet
  · exact ⟨h.processCommitted lawful (ok rfl), (processCommitted_applies rsm p).2 ▸ ok rfl⟩
  · exact ⟨h.quiet lawful quiet, (quiet.last lawful).ge⟩

theorem ServerStep.mono {delay : UInt32 → ℕ} {ok ok' : Request → TRequestProcessor ρ → Prop}
    (weaker : ∀ request p, ok request p → ok' request p) (st : ServerStep delay rsm ok p p') : ServerStep delay rsm ok' p p' := by
  obtain ⟨request, allowed, handled⟩ := st
  exact ⟨request, weaker request p allowed, handled⟩

/-- `ProcessCommitted` applies the entries after `LastAppliedIndex`, where the log has them. -/
theorem AppliesLog.of_inLog (rsm : IRsm ρ) (inLog : p.raft.volatileState.commitIndex ≤ p.raft.state.lastLogIndex) :
    AppliesLog rsm p := by
  obtain ⟨all, last⟩ := processCommitted_applies rsm p
  obtain ⟨es, events, applied, -⟩ := all.events
  refine ⟨last, es, events, fun i entry there => ?_⟩
  rw [applied, List.mem_map] at there
  obtain ⟨j, pending, same⟩ := there
  obtain ⟨rfl, rfl⟩ := Prod.mk.inj same
  rw [TRequestProcessor.pending, List.mem_range'_1] at pending
  rw [p.raft.state.index_eq] at inLog
  exact p.raft.state.get_eq_getElem (by omega) (by omega)

/-- Where `ProcessCommitted` always catches up, every process applies in order. -/
theorem applies_in_order (delay : UInt32 → ℕ) (rsm : IRsm ρ) (lawful : rsm.Lawful) (raft : TRaft) (restored : TRsm ρ) :
    AppliesInOrder delay rsm CatchesUpWithLog (.new raft restored) := by
  intro p run
  have inOrder : InOrder restored.lastAppliedIndex p := by
    induction run with
    | refl => exact ⟨le_rfl, by simp [TRequestProcessor.new, appliedOf], nofun, nofun⟩
    | tail _ st ih => exact (ih.step lawful (st.mono fun _ _ ok => ok.up)).1
  exact ⟨inOrder, fun p' st => (inOrder.step lawful (st.mono fun _ _ ok => ok.up)).2, fun ok => .of_inLog rsm (ok.inLog rfl)⟩

/-- A machine that restored index 1, on a lone server whose log holds the entry. -/
def restored : TRequestProcessor (List TLogEntry) :=
  .new (.new (.ofLog 1 0 [{ data := [65] }]) 1 []) { lastAppliedIndex := 1, impl := [{ data := [65] }] }

/-- Its election and a write of a client, which it commits and applies at the next timeout. -/
def caughtUp : TRequestProcessor (List TLogEntry) :=
  let elected := { restored with raft := restored.raft.processTimeout (fun _ => 5000) 0 }
  let asked := { elected with raft := (elected.raft.append { data := [66] }).2 }
  TRequestProcessor.processCommitted (TDummyRsm.rsm []) { asked with raft := asked.raft.processTimeout (fun _ => 5000) 1 }

/-- The restored entry is not executed again; the stub after it is skipped, and the write is executed. -/
theorem applies_in_order_restored : caughtUp.rsm.impl.map (·.data) = [[65], [66]] ∧ InOrder 1 caughtUp ∧
    (appliedOf caughtUp.events).map (fun a => (a.1, a.2.data)) = [(2, []), (3, [66])] := by
  have run : ServerRun (fun _ => 5000) (TDummyRsm.rsm []) CatchesUpWithLog restored caughtUp :=
    .tail (.tail (.tail (.single ⟨.processTimeout 0, ⟨nofun, nofun⟩, rfl⟩) ⟨.append { data := [66] }, ⟨nofun, nofun⟩, rfl⟩)
      ⟨.processTimeout 1, ⟨nofun, nofun⟩, rfl⟩) ⟨.processCommitted, ⟨fun _ => by decide, fun _ => by decide⟩, rfl⟩
  exact ⟨by decide, (applies_in_order (fun _ => 5000) (TDummyRsm.rsm []) (TDummyRsm.lawful []) _ _ caughtUp run).1, by decide⟩

/-- `ProcessCommitted` is called before anything is known to be committed, and again after the election. -/
def reapplied : TRequestProcessor (List TLogEntry) :=
  let before := restored.processCommitted (TDummyRsm.rsm [])
  { before with raft := before.raft.processTimeout (fun _ => 5000) 0 }.processCommitted (TDummyRsm.rsm [])

/-- The restored entry is executed a second time. -/
theorem applies_again : reapplied.rsm.impl = [{ data := [65] }, { data := [65] }] ∧
    ¬ AppliesInOrder (fun _ => 5000) (TDummyRsm.rsm []) (fun _ _ => True) restored := by
  refine ⟨by decide, fun inOrder => ?_⟩
  have run : ServerRun (fun _ => 5000) (TDummyRsm.rsm []) (fun _ _ => True) restored reapplied :=
    .tail (.tail (.single ⟨.processCommitted, trivial, rfl⟩) ⟨.processTimeout 0, trivial, rfl⟩)
      ⟨.processCommitted, trivial, rfl⟩
  exact absurd (inOrder _ run).1.indices (by decide)

end MiniRaft
