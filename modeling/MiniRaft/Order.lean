import MiniRaft.Merge
import MiniRaft.Progress
import MiniRaft.Reads

/-!
# The order of the queues

A request is queued with the last index of the log, and each queue has to stay sorted. Only a batch that cuts the log
below the last queued index can undo this, and for the tickets of consistent reads the `int` they go through.
-/

namespace MiniRaft

open Lib

/-- The queue is sorted by `f`, and no value is above `bound`. -/
structure Sorted (f : TWaiting → ℕ) (q : List TWaiting) (bound : ℕ) : Prop where
  sorted : (q.map f).Pairwise (· ≤ ·)
  bounded : ∀ w ∈ q, f w ≤ bound

namespace Sorted

variable {f : TWaiting → ℕ} {q q' : List TWaiting} {bound bound' : ℕ} {w : TWaiting}

theorem nil : Sorted f [] bound := ⟨List.Pairwise.nil, nofun⟩

theorem mono (sorted : Sorted f q bound) (le : bound ≤ bound') : Sorted f q bound' :=
  ⟨sorted.sorted, fun w member => (sorted.bounded w member).trans le⟩

theorem suffix (sorted : Sorted f q bound) (rest : q' <:+ q) : Sorted f q' bound where
  sorted := sorted.sorted.sublist (rest.sublist.map f)
  bounded w member := sorted.bounded w (rest.mem member)

theorem snoc (sorted : Sorted f q bound) (le : bound ≤ f w) : Sorted f (q ++ [w]) (f w) where
  sorted := by
    rw [List.map_append, List.pairwise_append]
    refine ⟨sorted.sorted, List.pairwise_singleton .., ?_⟩
    intro x old y new
    obtain ⟨v, member, rfl⟩ := List.mem_map.mp old
    obtain rfl : y = f w := List.mem_singleton.mp new
    exact (sorted.bounded v member).trans le
  bounded v member := by
    rcases List.mem_append.mp member with old | new
    · exact (sorted.bounded v old).trans le
    · rw [List.mem_singleton.mp new]

/-- What bounds the last one bounds them all. -/
theorem lower (sorted : Sorted f q bound) (last : ∀ w ∈ q.getLast?, f w ≤ bound') : Sorted f q bound' where
  sorted := sorted.sorted
  bounded w member := by
    obtain ⟨front, v, rfl⟩ := List.eq_nil_or_concat q |>.resolve_left (List.ne_nil_of_mem member)
    rw [List.concat_eq_append] at *
    have highest := last v (by simp)
    rcases List.mem_append.mp member with old | new
    · have pairs := sorted.sorted
      rw [List.map_append, List.pairwise_append] at pairs
      exact (pairs.2.2 _ (List.mem_map_of_mem old) (f v) (by simp)).trans highest
    · rw [List.mem_singleton.mp new]
      exact highest

end Sorted

/-! ## The calls of one server -/

namespace TRequestProcessor

variable {ρ : Type*}

/-- The calls one by one: what `CheckStateChange` takes off its queue are calls of their own. -/
def handleEach (delay : UInt32 → ℕ) (rsm : IRsm ρ) (p : TRequestProcessor ρ) :
    Request → Except Fault (TRequestProcessor ρ)
  | .checkStateChange => .ok { p with waitingStateChange := [] }
  | request => p.handle delay rsm request

/-- A run of one server, with any calls that satisfy `ok`. -/
def Run (delay : UInt32 → ℕ) (rsm : IRsm ρ) (ok : TRequestProcessor ρ → Request → Prop) :
    TRequestProcessor ρ → TRequestProcessor ρ → Prop :=
  Relation.ReflTransGen fun p p' => ∃ request, ok p request ∧ p.handleEach delay rsm request = .ok p'

variable {delay : UInt32 → ℕ} {rsm : IRsm ρ} {p p' : TRequestProcessor ρ} {request : Request}

theorem handleEach_eq (other : request ≠ .checkStateChange) : p.handleEach delay rsm request = p.handle delay rsm request := by
  cases request with
  | checkStateChange => exact absurd rfl other
  | _ => rfl

/-- A call of the event loop is a number of such calls. -/
theorem Run.of_handle (done : p.handle delay rsm request = .ok p') : Run delay rsm (fun _ _ => True) p p' := by
  have commands (l : List TWaiting) : ∀ p : TRequestProcessor ρ,
      l.foldlM (fun p w => p.onCommandRequest rsm w.command w.replyTo) p = Except.ok p' →
      Run delay rsm (fun _ _ => True) p p' := by
    induction l with
    | nil => intro p h; cases h; exact .refl
    | cons w l ih =>
      intro p h
      rw [List.foldlM_cons] at h
      obtain ⟨p₁, first, rest⟩ := Except.bind_ok h
      exact .head ⟨.onCommandRequest w.command w.replyTo, trivial, first⟩ (ih p₁ rest)
  by_cases taken : request = .checkStateChange
  · subst taken
    change p.checkStateChange rsm = _ at done
    unfold TRequestProcessor.checkStateChange at done
    split at done
    · cases done; exact .refl
    · split at done
      · cases done; exact .refl
      · exact .head ⟨.checkStateChange, trivial, rfl⟩ (commands _ _ done)
  · exact .single ⟨request, trivial, (handleEach_eq taken).trans done⟩

/-- **What one call does to the queues.** -/
inductive Queues (delay : UInt32 → ℕ) (rsm : IRsm ρ) (p : TRequestProcessor ρ) : Request → TRequestProcessor ρ → Prop where
  | protocol (request : Request) (call : Call) (is_call : request.call? = some call) :
      Queues delay rsm p request { p with raft := p.raft.perform delay call }
  | command {command : TCommandRequest} {replyTo : Option ℕ} {p' : TRequestProcessor ρ}
      (done : p.onCommandRequest rsm command replyTo = .ok p') : Queues delay rsm p (.onCommandRequest command replyTo) p'
  | rest {request : Request} {p' : TRequestProcessor ρ} (raft : p'.raft = p.raft) (waiting : p'.waiting <:+ p.waiting)
      (strong : p'.strongWaiting <:+ p.strongWaiting) : Queues delay rsm p request p'

theorem Queues.of_aside (aside : Aside p p') : Queues delay rsm p request p' :=
  .rest aside.raft (aside.waiting ▸ List.suffix_rfl) (aside.strongWaiting ▸ List.suffix_rfl)

theorem Queues.of_handleEach (done : p.handleEach delay rsm request = .ok p') : Queues delay rsm p request p' := by
  cases request with
  | process now message => cases done; exact .protocol _ (.process now message) rfl
  | processTimeout now => cases done; exact .protocol _ (.processTimeout now) rfl
  | append entry => cases done; exact .protocol _ (.append entry) rfl
  | onCommandRequest command replyTo => exact .command done
  | onCommandResponse response => exact .of_aside (.of_onCommandResponse done)
  | checkStateChange => cases done; exact .rest rfl List.suffix_rfl List.suffix_rfl
  | processCommitted =>
    cases done
    obtain ⟨applies, -⟩ := processCommitted_applies rsm p
    exact .rest applies.raft (applies.waiting ▸ List.suffix_rfl) (applies.strongWaiting ▸ List.suffix_rfl)
  | processWaiting =>
    obtain ⟨p₁, p₂, rest, strongRest, answers, answers', shorter, shorter', rfl⟩ := Answers.of_processWaiting done
    have same := answers'.frame
    exact .rest (same.raft.trans answers.frame.raft) (same.waiting ▸ shorter) shorter'
  | cleanUp client => cases done; exact .of_aside (.of_cleanUp client p)

/-- The numbers only go up. -/
theorem seqno_perform {r : TRaft} {call : Call} (is_call : request.call? = some call) :
    r.seqno ≤ (r.perform delay call).seqno := by
  have leads : call = .approveRead → r.stateName = .leader := by
    rintro rfl
    cases request <;> cases is_call
  obtain ⟨r₁, counts⟩ : ∃ r₁, Counts call r r₁ (r.perform delay call) := Counts.perform leads
  exact counts.turns.seqno.ge.trans counts.emits.seqno

end TRequestProcessor

/-! ## Tickets -/

/-- A consistent read of a leader. -/
def TCommandRequest.AsksLeader (command : TCommandRequest) : Prop :=
  command.isWrite = false ∧ command.isStale = false ∧ command.isConsistent

namespace TRequestProcessor

variable {ρ : Type*} {delay : UInt32 → ℕ} {rsm : IRsm ρ} {p p' : TRequestProcessor ρ} {request : Request} {b : ℕ → ℕ}
  {K : ℕ → Prop}

/-- A read that asks for a ticket finds `Seqno` at a value in `K`. -/
def ReadsAt (K : ℕ → Prop) (p : TRequestProcessor ρ) : Request → Prop
  | .onCommandRequest command _ => command.AsksLeader → p.raft.stateName = .leader → K p.raft.seqno
  | _ => True

/-- The tickets in `StrongWaiting` do not decrease, and none is beyond what `b` makes of the present number. -/
def Ticketed (b : ℕ → ℕ) (p : TRequestProcessor ρ) : Prop := Sorted (·.seqno) p.strongWaiting (b p.raft.seqno)

/-- Only a consistent read of a leader goes into `StrongWaiting`. -/
theorem asksLeader_of_strong {command : TCommandRequest} {replyTo : Option ℕ}
    (done : p.onCommandRequest rsm command replyTo = .ok p') (queued : p'.strongWaiting ≠ p.strongWaiting) :
    command.AsksLeader := by
  have commanded := Commanded.of_onCommandRequest done
  cases commanded with
  | aside aside => exact absurd aside.strongWaiting queued
  | read | silent | write => exact absurd rfl queued
  | strong kind consistent leads fits =>
    refine ⟨kind, ?_, consistent⟩
    by_contra stale
    have stale : command.isStale = true := by simpa using stale
    unfold onCommandRequest onReadRequest at done
    rw [if_pos (by simp [kind]), if_neg (by simp [kind]), if_pos (.inl stale)] at done
    split at done
    · have same := congrArg strongWaiting (Except.ok.inj done)
      exact queued same.symm
    · cases done

theorem Ticketed.step (mono : Monotone b) (ok : ∀ k, K k → throughInt k = b k) (ticketed : Ticketed b p)
    (reads : ReadsAt K p request)
    (done : p.handleEach delay rsm request = .ok p') : Ticketed b p' := by
  cases Queues.of_handleEach done with
  | protocol _ call is_call => exact Sorted.mono ticketed (mono (seqno_perform is_call))
  | rest raft waiting strong =>
    unfold Ticketed
    rw [raft]
    exact Sorted.suffix ticketed strong
  | @command command replyTo _ done =>
    have asks := asksLeader_of_strong done
    cases Commanded.of_onCommandRequest done with
    | aside aside =>
      unfold Ticketed
      rw [aside.raft, aside.strongWaiting]
      exact ticketed
    | read | silent | write => exact ticketed
    | strong kind consistent leads fits =>
      have ticket := ok _ (reads (asks (by simp [enqueueStrong])) leads)
      have more : p.raft.seqno ≤ p.raft.approveRead.2.seqno := (TRaft.Asked.frame ⟨leads, .inr rfl⟩).2
      apply Sorted.mono (Sorted.snoc ticketed ticket.ge)
      exact ticket.le.trans (mono more)

theorem Ticketed.run (mono : Monotone b) (ok : ∀ k, K k → throughInt k = b k) (ticketed : Ticketed b p)
    (run : Run delay rsm (ReadsAt K) p p') : Ticketed b p' := by
  induction run with
  | refl => exact ticketed
  | tail _ last ih =>
    obtain ⟨request, reads, done⟩ := last
    exact ih.step mono ok reads done

end TRequestProcessor

/-! ## Batches -/

/-- The batch agrees with the log up to index `i`, or it reaches that far itself. -/
def TState.Leaves (i : ℕ) (message : TAppendEntriesRequest) (s : TState) : Prop :=
  s.Spares i message ∨ i ≤ message.prevLogIndex + message.payload.length

/-- A batch that a server may send, and that fits into the memory. -/
structure TState.Receives (s : TState) (message : TAppendEntriesRequest) : Prop where
  terms : ∀ e ∈ message.payload, 1 ≤ e.term
  room : s.log.length + message.payload.length < maxLogSize

section

variable {delay : UInt32 → ℕ} {r : TRaft} {call : Call} {message : TAppendEntriesRequest}

/-- After a batch is merged the log is as long as the batch reaches. -/
theorem TRaft.Merges.reaches (merges : r.Merges delay call message) (receives : r.state.Receives message)
    (name : (r.perform delay call).stateName = .follower) :
    message.prevLogIndex + message.payload.length ≤ (r.perform delay call).state.log.length := by
  obtain ⟨now, ex, rfl, term, fits⟩ := merges
  have first := r.log_adoptTerm delay now (some ex)
  change (TRaft.dispatch delay now _ (r.adoptTerm delay now (some ex))).stateName = _ at name
  change _ ≤ (TRaft.dispatch delay now _ (r.adoptTerm delay now (some ex))).state.log.length
  generalize r.adoptTerm delay now (some ex) = r' at *
  have known : r'.stateName ≠ .none := by
    intro unknown
    unfold TRaft.dispatch at name
    rw [unknown] at name
    exact nomatch unknown.symm.trans name
  have room := receives.room
  rw [maxLogSize, ← first] at room
  rw [← TRaft.fitsLog_congr first message, TRaft.fitsLog_iff (by omega)] at fits
  rw [TRaft.dispatch_appendEntries delay now ex message known]
  exact (TRaft.onAppendEntries_holds term fits receives.terms room).2.2

theorem TRaft.stateName_adoptTerm (delay : UInt32 → ℕ) (now : Time) (header : Option TMessageEx) (known : r.stateName ≠ .none) :
    (r.adoptTerm delay now header).stateName ≠ .none := by
  have taken := r.adopting delay now header
  generalize r.adoptTerm delay now header = r' at taken ⊢
  cases taken with
  | known => exact known
  | armed => nofun
  | running => nofun

/-- After a conflict the log is no longer than the batch reaches. -/
theorem TRaft.Merges.cuts {i : ℕ} (merges : r.Merges delay call message) (receives : r.state.Receives message)
    (known : r.stateName ≠ .none) (conflict : ¬ r.state.Spares i message) :
    (r.perform delay call).state.log.length ≤ message.prevLogIndex + message.payload.length := by
  obtain ⟨now, ex, rfl, term, fits⟩ := merges
  have first := r.log_adoptTerm delay now (some ex)
  have known' := TRaft.stateName_adoptTerm delay now (some ex) known
  change (TRaft.dispatch delay now _ (r.adoptTerm delay now (some ex))).state.log.length ≤ _
  generalize r.adoptTerm delay now (some ex) = r' at *
  have room := receives.room
  rw [maxLogSize, ← first] at room
  rw [← TRaft.fitsLog_congr first message] at fits
  have inside := ((TRaft.fitsLog_iff (by omega)).mp fits).inside
  have clashes : ∃ j, r'.state.Clashes message.prevLogIndex message.payload j := by
    unfold TState.Spares at conflict
    push Not at conflict
    obtain ⟨j, entry, get, -, differs⟩ := conflict
    have := (List.getElem?_eq_some_iff.mp get).1
    rw [← TState.logTerm_congr first, r'.state.logTerm_eq (by omega)] at differs
    exact ⟨j, entry, get, .inr differs⟩
  classical
  have here := Nat.find_spec clashes
  rw [TRaft.dispatch_appendEntries delay now ex message known', TRaft.log_of_present term, if_pos fits,
    TState.replaceAll_clash message.payload receives.terms (by omega) inside (fun j low => Nat.find_min clashes low) here]
  obtain ⟨entry, get, -⟩ := here
  have := (List.getElem?_eq_some_iff.mp get).1
  rw [List.length_append, List.length_take, List.length_drop]
  omega

/-- **What a call leaves of the log.** -/
theorem TRaft.length_perform (call : Call) {i : ℕ} (inside : i ≤ r.state.log.length)
    (leaves : ∀ message, r.Merges delay call message → r.state.Receives message ∧ r.state.Leaves i message) :
    i ≤ (r.perform delay call).state.log.length := by
  rcases r.log_perform delay call with extended | ⟨message, merges, name, kept⟩
  · exact inside.trans extended.length_le
  · obtain ⟨receives, spares | reaches⟩ := leaves message merges
    · have len := (kept i spares).length_le
      rwa [List.length_take, Nat.min_eq_left inside] at len
    · exact reaches.trans (merges.reaches receives name)

end

namespace TRequestProcessor

variable {ρ : Type*} {delay : UInt32 → ℕ} {rsm : IRsm ρ} {p p' : TRequestProcessor ρ} {request : Request}

/-- Every batch that the call merges can be received. -/
def Receives (delay : UInt32 → ℕ) (p : TRequestProcessor ρ) (request : Request) : Prop :=
  ∀ call message, request.call? = some call → p.raft.Merges delay call message → p.raft.state.Receives message

/-- The call merges no batch that conflicts with the log and ends below the last index of a queue. -/
def SparesQueues (delay : UInt32 → ℕ) (p : TRequestProcessor ρ) (request : Request) : Prop :=
  ∀ call message, request.call? = some call → p.raft.Merges delay call message →
    ∀ w, w ∈ p.waiting.getLast? ∨ w ∈ p.strongWaiting.getLast? → p.raft.state.Leaves w.index message

/-- What the tickets of reads below `2 ^ 32` are bounded by. -/
def intTicket (k : ℕ) : ℕ := if k < 2 ^ 32 then throughInt k else 2 ^ 64

theorem intTicket_mono : Monotone intTicket := by
  intro j k le
  unfold intTicket throughInt
  split <;> split <;> (try split) <;> (try split) <;> omega

/-- **The order of the queues.** -/
structure Ordered (p : TRequestProcessor ρ) : Prop where
  waiting : Sorted (·.index) p.waiting p.raft.getLastIndex
  strong : Sorted (·.index) p.strongWaiting p.raft.getLastIndex
  tickets : Ticketed intTicket p

theorem Ordered.new (raft : TRaft) (restored : TRsm ρ) : Ordered (.new raft restored) :=
  ⟨.nil, .nil, .nil⟩

theorem getLastIndex_append (entry : TLogEntry) (r : TRaft) : r.getLastIndex ≤ (r.append entry).1 := by
  change r.state.lastLogIndex ≤ (r.state.append { entry with term := r.state.currentTerm }).lastLogIndex
  rw [r.state.index_eq, TState.index_eq]
  simp

/-- **One call.** -/
theorem Ordered.step (ordered : p.Ordered) (receives : Receives delay p request) (spares : SparesQueues delay p request)
    (reads : ReadsAt (· < 2 ^ 32) p request) (done : p.handleEach delay rsm request = .ok p') : p'.Ordered := by
  have tickets := ordered.tickets.step intTicket_mono (fun k low => (if_pos low).symm) reads done
  cases Queues.of_handleEach done with
  | protocol _ call is_call =>
    have kept : ∀ w, w ∈ p.waiting.getLast? ∨ w ∈ p.strongWaiting.getLast? → w.index ≤ p.raft.getLastIndex →
        w.index ≤ (p.raft.perform delay call).getLastIndex := by
      intro w last inside
      unfold TRaft.getLastIndex at inside ⊢
      rw [TState.index_eq] at inside ⊢
      exact TRaft.length_perform call inside fun message merges =>
        ⟨receives call message is_call merges, spares call message is_call merges w last⟩
    refine ⟨ordered.waiting.lower fun w last => ?_, ordered.strong.lower fun w last => ?_, tickets⟩
    · exact kept w (.inl last) (ordered.waiting.bounded w (List.mem_of_getLast? last))
    · exact kept w (.inr last) (ordered.strong.bounded w (List.mem_of_getLast? last))
  | rest raft waiting strong =>
    refine ⟨?_, ?_, tickets⟩
    · rw [raft]
      exact ordered.waiting.suffix waiting
    · rw [raft]
      exact ordered.strong.suffix strong
  | @command command replyTo _ done =>
    cases Commanded.of_onCommandRequest done with
    | aside aside =>
      refine ⟨?_, ?_, tickets⟩
      · rw [aside.raft, aside.waiting]
        exact ordered.waiting
      · rw [aside.raft, aside.strongWaiting]
        exact ordered.strong
    | read kind fits => exact ⟨ordered.waiting.snoc le_rfl, ordered.strong, tickets⟩
    | strong kind consistent leads fits =>
      have same : p.raft.approveRead.2.getLastIndex = p.raft.getLastIndex :=
        congrArg (·.lastLogIndex) p.raft.state_approveRead
      refine ⟨?_, ?_, tickets⟩
      · exact ordered.waiting.mono same.ge
      · exact ordered.strong.snoc same.ge
    | silent kind leads deaf =>
      have more := getLastIndex_append (rsm.prepare command p.rsm).1 p.raft
      exact ⟨ordered.waiting.mono more, ordered.strong.mono more, tickets⟩
    | write kind leads heard =>
      have more := getLastIndex_append (rsm.prepare command p.rsm).1 p.raft
      exact ⟨ordered.waiting.snoc more, ordered.strong.mono more, tickets⟩

/-- The order is kept by a call that spares the queues and asks for no ticket from `2 ^ 32` on. -/
def KeepsOrder (delay : UInt32 → ℕ) (p : TRequestProcessor ρ) (request : Request) : Prop :=
  SparesQueues delay p request ∧ ReadsAt (· < 2 ^ 32) p request

theorem Ordered.run (ordered : p.Ordered)
    (run : Run delay rsm (fun p request => Receives delay p request ∧ KeepsOrder delay p request) p p') : p'.Ordered := by
  induction run with
  | refl => exact ordered
  | tail _ last ih =>
    obtain ⟨request, ⟨receives, spares, reads⟩, done⟩ := last
    exact ih.step receives spares reads done

/-- **No assertion before an `emplace` fails**: what fails is `Forward`. -/
theorem Ordered.enqueues (ordered : p.Ordered) {command : TCommandRequest} {replyTo : Option ℕ} {fault : Fault}
    (reads : ReadsAt (· < 2 ^ 32) p (.onCommandRequest command replyTo))
    (failed : p.onCommandRequest rsm command replyTo = .error fault) : p.forward command replyTo = .error fault := by
  unfold onCommandRequest at failed
  split at failed
  · rename_i kind
    have kind : command.isWrite = false := by simpa using kind
    unfold onReadRequest at failed
    rw [if_neg (by simp [kind])] at failed
    split at failed
    · have fits : p.waiting.getLast?.all (·.index ≤ p.raft.getLastIndex) := by
        simpa [Option.all_eq_true] using fun w last => ordered.waiting.bounded w (List.mem_of_getLast? last)
      rw [if_pos fits] at failed
      cases failed
    · rename_i asks
      split at failed
      · exact failed
      · rename_i leads
        rw [not_not] at leads
        have asksLeader : command.AsksLeader :=
          ⟨kind, by by_contra stale; exact asks (.inl (by simpa using stale)), by by_contra c; exact asks (.inr ⟨c, leads⟩)⟩
        have ticket : p.raft.approveRead.1 = intTicket p.raft.seqno := (if_pos (reads asksLeader leads)).symm
        have same : p.raft.approveRead.2.getLastIndex = p.raft.getLastIndex :=
          congrArg (·.lastLogIndex) p.raft.state_approveRead
        have fits : p.strongWaiting.getLast?.all fun w =>
            w.index ≤ p.raft.approveRead.2.getLastIndex ∧ w.seqno ≤ p.raft.approveRead.1 := by
          rw [ticket, same]
          simpa [Option.all_eq_true] using fun w last =>
            ⟨ordered.strong.bounded w (List.mem_of_getLast? last), ordered.tickets.bounded w (List.mem_of_getLast? last)⟩
        dsimp only at failed
        rw [if_pos fits] at failed
        cases failed
  · rename_i kind
    have kind : command.isWrite = true := by simpa using kind
    unfold onWriteRequest at failed
    rw [if_neg (by simp [kind])] at failed
    split at failed
    · dsimp only at failed
      split at failed
      · have fits : p.waiting.getLast?.all (·.index ≤ (p.raft.append (rsm.prepare command p.rsm).1).1) := by
          have more := getLastIndex_append (rsm.prepare command p.rsm).1 p.raft
          simpa [Option.all_eq_true] using fun w last =>
            (ordered.waiting.bounded w (List.mem_of_getLast? last)).trans more
        rw [if_pos fits] at failed
        cases failed
      · cases failed
    · exact failed

/-- A batch that cuts the log below the last request in `Waiting` makes the next stale read fail. -/
theorem cut {call : Call} {message : TAppendEntriesRequest} {w : TWaiting}
    (known : p.raft.stateName ≠ .none) (merges : p.raft.Merges delay call message)
    (receives : p.raft.state.Receives message) (last : w ∈ p.waiting.getLast?)
    (cuts : ¬ p.raft.state.Leaves w.index message) {command : TCommandRequest} (read : command.isWrite = false)
    (stale : command.isStale) (replyTo : Option ℕ) :
    TRequestProcessor.onCommandRequest rsm command replyTo { p with raft := p.raft.perform delay call } = .error .assertion := by
  unfold TState.Leaves at cuts
  rw [not_or] at cuts
  have short := merges.cuts receives known cuts.1
  rw [← TState.index_eq] at short
  have fails : ¬ p.waiting.getLast?.all (·.index ≤ (p.raft.perform delay call).getLastIndex) := by
    intro fits
    have low : w.index ≤ (p.raft.perform delay call).getLastIndex := by
      simpa using (Option.all_eq_true _ _).mp fits w last
    exact cuts.2 (low.trans short)
  unfold onCommandRequest onReadRequest
  rw [if_pos (by simp [read]), if_neg (by simp [read]), if_pos (.inl stale)]
  exact if_neg fails

end TRequestProcessor

/-- **The queues stay ordered.** In every run in which no batch is merged that conflicts with the log and ends below the
last queued index, and in which consistent reads of a leader find `Seqno` below `2 ^ 32`, the queues are sorted and what
is enqueued next fits at their end. A batch that cuts the log below the last request in `Waiting` makes a stale read
right after it fail. -/
theorem queues_ordered {ρ : Type*} (delay : UInt32 → ℕ) (rsm : IRsm ρ) (raft : TRaft) (restored : TRsm ρ) :
    (∀ p, TRequestProcessor.Run delay rsm (fun p request => p.Receives delay request ∧ p.KeepsOrder delay request)
        (.new raft restored) p →
      p.Ordered ∧ ∀ (command : TCommandRequest) (replyTo : Option ℕ) (fault : Fault),
        p.ReadsAt (· < 2 ^ 32) (.onCommandRequest command replyTo) →
        p.onCommandRequest rsm command replyTo = .error fault → p.forward command replyTo = .error fault) ∧
    ∀ (p : TRequestProcessor ρ) (call : Call) (message : TAppendEntriesRequest) (w : TWaiting),
      p.raft.stateName ≠ .none → p.raft.Merges delay call message → p.raft.state.Receives message →
      w ∈ p.waiting.getLast? → ¬ p.raft.state.Leaves w.index message →
      ∀ (command : TCommandRequest) (replyTo : Option ℕ), command.isWrite = false → command.isStale →
        TRequestProcessor.onCommandRequest rsm command replyTo { p with raft := p.raft.perform delay call } =
          .error .assertion := by
  constructor
  · intro p run
    have ordered := (TRequestProcessor.Ordered.new raft restored).run run
    exact ⟨ordered, fun command replyTo fault reads failed => ordered.enqueues reads failed⟩
  · intro p call message w known merges receives last cuts command replyTo read stale
    exact TRequestProcessor.cut known merges receives last cuts read stale replyTo

/-- A follower with two entries of term 1. -/
def cutOff : TRequestProcessor (List TLogEntry) :=
  .new { id := 2, nodes := [1, 3], state := .ofLog 1 0 [{ term := 1 }, { term := 1 }] } { impl := [] }

def staleRead : TCommandRequest where
  flags := 2

/-- The leader of term 2 has one entry. -/
def shorter : TAppendEntriesRequest where
  leaderId := 1
  payload := [{ term := 2 }]

/-- A stale read is queued at index 2, the log is cut to one entry, and the next stale read fails. -/
theorem queues_ordered_cut : ∃ p p' : TRequestProcessor (List TLogEntry),
    TRequestProcessor.Run (fun _ => 5000) (TDummyRsm.rsm []) (fun p request => p.Receives (fun _ => 5000) request) cutOff p ∧
    p.waiting.map (·.index) = [2] ∧ p.raft.getLastIndex = 1 ∧
    p.onCommandRequest (TDummyRsm.rsm []) staleRead (some 7) = .error .assertion ∧
    p.forward staleRead (some 7) = .ok p' := by
  have received (p : TRequestProcessor (List TLogEntry)) (room : p.raft.state.log.length = 2) : p.Receives (fun _ => 5000)
      (.process 0 (.appendEntriesRequest { src := 1, dst := 2, term := 2 } shorter)) := by
    rintro call message is_call ⟨now, ex, same, -⟩
    cases is_call
    cases same
    exact ⟨by decide, by rw [room]; decide⟩
  have run : TRequestProcessor.Run (fun _ => 5000) (TDummyRsm.rsm []) (fun p request => p.Receives (fun _ => 5000) request)
      cutOff _ := .tail (.single ⟨.onCommandRequest staleRead (some 7), nofun, rfl⟩) ⟨_, received _ rfl, rfl⟩
  exact ⟨_, _, run, rfl, rfl, rfl, rfl⟩

namespace TRequestProcessor

/-- A check for what keeps the order: a batch ends at or above the last index of each queue. -/
def leavesQueues {ρ : Type*} (p : TRequestProcessor ρ) : Request → Bool
  | .process _ (.appendEntriesRequest _ body) =>
    (∀ e ∈ body.payload, 1 ≤ e.term) ∧ p.raft.state.log.length + body.payload.length < maxLogSize ∧
      (p.waiting.getLast?.all (·.index ≤ body.prevLogIndex + body.payload.length)) ∧
      p.strongWaiting.getLast?.all (·.index ≤ body.prevLogIndex + body.payload.length)
  | _ => p.raft.seqno < 2 ^ 32

/-- The server after the calls, if each of them passes the check and returns. -/
def playOrdered : List Request → TRequestProcessor (List TLogEntry) → Option (TRequestProcessor (List TLogEntry))
  | [], p => some p
  | request :: requests, p =>
    if p.leavesQueues request then
      (p.handleEach (fun _ => 5000) (TDummyRsm.rsm []) request).toOption.bind (playOrdered requests)
    else none

theorem keepsOrder_of_leavesQueues {ρ : Type*} {delay : UInt32 → ℕ} {p : TRequestProcessor ρ} {request : Request}
    (leaves : p.leavesQueues request) : p.Receives delay request ∧ p.KeepsOrder delay request := by
  have reads : p.ReadsAt (· < 2 ^ 32) request := by
    cases request with
    | onCommandRequest command replyTo => exact fun _ _ => by simpa [leavesQueues] using leaves
    | _ => trivial
  have batch {call : Call} {message : TAppendEntriesRequest} (is_call : request.call? = some call)
      (merges : p.raft.Merges delay call message) : ∃ now ex, request = .process now (.appendEntriesRequest ex message) := by
    obtain ⟨now, ex, rfl, -⟩ := merges
    cases request with
    | process =>
      cases is_call
      exact ⟨now, ex, rfl⟩
    | _ => cases is_call
  refine ⟨fun call message is_call merges => ?_, fun call message is_call merges w last => .inr ?_, reads⟩
  · obtain ⟨now, ex, rfl⟩ := batch is_call merges
    obtain ⟨terms, room, -⟩ := of_decide_eq_true leaves
    exact ⟨terms, room⟩
  · obtain ⟨now, ex, rfl⟩ := batch is_call merges
    obtain ⟨-, -, weak, strong⟩ := of_decide_eq_true leaves
    rcases last with last | last
    · simpa using (Option.all_eq_true _ _).mp weak w last
    · simpa using (Option.all_eq_true _ _).mp strong w last

theorem Run.of_playOrdered {requests : List Request} {p p' : TRequestProcessor (List TLogEntry)}
    (played : playOrdered requests p = some p') : TRequestProcessor.Run (fun _ => 5000) (TDummyRsm.rsm [])
      (fun p request => p.Receives (fun _ => 5000) request ∧ p.KeepsOrder (fun _ => 5000) request) p p' := by
  induction requests generalizing p with
  | nil => exact Option.some.inj played ▸ .refl
  | cons request requests ih =>
    obtain ⟨leaves, rest⟩ := Option.ite_none_right_eq_some.mp played
    obtain ⟨p₁, done, rest⟩ := Option.bind_eq_some_iff.mp rest
    refine .head ⟨request, keepsOrder_of_leavesQueues leaves, ?_⟩ (ih rest)
    cases result : p.handleEach (fun _ => 5000) (TDummyRsm.rsm []) request with
    | error fault => rw [result] at done; cases done
    | ok p'' => rw [result] at done; cases done; rfl

end TRequestProcessor

/-- The leader of term 3 replaces the entries from index 3 on. -/
def longer : TAppendEntriesRequest where
  prevLogIndex := 2
  prevLogTerm := 1
  leaderId := 3
  payload := [{ term := 3 }, { term := 3 }, { term := 3 }]

/-- A follower queues a read, comes to lead, and queues a consistent read and a write. Its entries from index 3 on are replaced by
a batch that reaches beyond them, and it queues another read. -/
def overruledRequests : List Request :=
  [.onCommandRequest staleRead (some 7), .processTimeout 0,
    .process 0 (.requestVoteResponse { src := 1, dst := 2, term := 2 } ⟨true⟩), .processTimeout 0,
    .onCommandRequest { flags := 4 } (some 8), .onCommandRequest { flags := 1, data := [65] } (some 9),
    .process 0 (.appendEntriesRequest { src := 3, dst := 2, term := 3 } longer), .onCommandRequest staleRead (some 7)]

/-- The assertion before the next `emplace` does not fail. -/
theorem queues_ordered_overruled : ∃ p : TRequestProcessor (List TLogEntry),
    p.waiting.map (·.index) = [2, 4, 5] ∧ p.strongWaiting.map (·.index) = [3] ∧ p.raft.stateName = .follower ∧
    p.raft.state.log.map TLogEntry.term = [1, 1, 3, 3, 3] ∧ p.Ordered ∧
    ∃ p', p.onCommandRequest (TDummyRsm.rsm []) staleRead (some 10) = .ok p' := by
  obtain ⟨p, played, holds⟩ := (Option.any_eq_true _ _).mp
    (by decide +kernel : (cutOff.playOrdered overruledRequests).any fun p =>
      p.waiting.map (·.index) = [2, 4, 5] ∧ p.strongWaiting.map (·.index) = [3] ∧ p.raft.stateName = .follower ∧
        p.raft.state.log.map TLogEntry.term = [1, 1, 3, 3, 3] ∧ p.raft.getLeaderId = 3 ∧ p.raft.id = 2 ∧ p.nodes = [1, 3])
  obtain ⟨waiting, strong, name, log, leader, id, nodes⟩ := of_decide_eq_true holds
  obtain ⟨ordered, enqueues⟩ := (queues_ordered (fun _ => 5000) (TDummyRsm.rsm []) cutOff.raft { impl := [] }).1 p
    (.of_playOrdered played)
  refine ⟨p, waiting, strong, name, log, ordered, ?_⟩
  cases result : p.onCommandRequest (TDummyRsm.rsm []) staleRead (some 10) with
  | ok p' => exact ⟨p', rfl⟩
  | error fault =>
    have failed := enqueues staleRead (some 10) fault (fun asks => nomatch asks.2.1) result
    -- `Forward` would have a leader to send it to
    simp [TRequestProcessor.forward, staleRead, leader, name, id, nodes] at failed

end MiniRaft
