import Mathlib.Data.List.TakeWhile
import MiniRaft.Writes

/-!
# The queues of waiting requests

A loop of `ProcessWaiting` looks at one end of its queue and removes the other. Where no request of a queue is
ready, or all of them are the same, it does what a queue is for. `Queues` is what a leader's commands keep up for
the writes among them to find their answers.
-/

namespace MiniRaft

open Lib

/-- The request that an event places in a queue. -/
def TEvent.queued? (strong : Bool) : TEvent → Option TWaiting
  | .queue b w => if b = strong then some w else none
  | _ => none

/-- The request that an event answers. -/
def TEvent.answered? (strong : Bool) : TEvent → Option TWaiting
  | .answer b w _ _ _ => if b = strong then some w else none
  | _ => none

def queuedOf (strong : Bool) (events : List TEvent) : List TWaiting := events.filterMap (TEvent.queued? strong)

def answeredOf (strong : Bool) (events : List TEvent) : List TWaiting := events.filterMap (TEvent.answered? strong)

/-- Nothing in the queue is ready, or everything in it is the same. -/
def Uniform (ready : TWaiting → Bool) (q : List TWaiting) : Prop :=
  (∀ w ∈ q, ready w = false) ∨ ∀ v ∈ q, ∀ w ∈ q, v = w

instance (ready : TWaiting → Bool) : DecidablePred (Uniform ready) :=
  fun _ => inferInstanceAs (Decidable (_ ∨ _))

/-- A state in which `ProcessWaiting` takes the requests it looks at. -/
def Orderly {ρ : Type*} (p : TRequestProcessor ρ) : Prop :=
  Uniform (fun w => w.index ≤ p.rsm.lastAppliedIndex) p.waiting ∧
    Uniform (fun w => w.index ≤ p.rsm.lastAppliedIndex ∧ w.seqno ≤ p.raft.commitSeqno) p.strongWaiting

instance {ρ : Type*} (p : TRequestProcessor ρ) : Decidable (Orderly p) := inferInstanceAs (Decidable (_ ∧ _))

variable {ρ : Type*} {rsm : IRsm ρ} {p p' p'' : TRequestProcessor ρ} {command : TCommandRequest} {replyTo : Option ℕ}
  {P P' : System ρ} {delay : UInt32 → ℕ} {ids : Finset ℕ} {s : ℕ} {label : System.Label}

/-! ## Draining a queue -/

theorem Uniform.cases {ready : TWaiting → Bool} {q : List TWaiting} (uniform : Uniform ready q) :
    (∀ w ∈ q, ready w = false) ∨ ∃ w, ready w = true ∧ q = List.replicate q.length w := by
  rcases uniform with idle | same
  · exact .inl idle
  · by_cases any : ∃ w ∈ q, ready w = true
    · obtain ⟨w, member, now⟩ := any
      exact .inr ⟨w, now, List.eq_replicate_iff.mpr ⟨rfl, fun v hv => same v hv w member⟩⟩
    · left
      intro w member
      by_contra now
      exact any ⟨w, member, by simpa using now⟩

/-- What is ready comes before what is not. -/
theorem Uniform.split {ready : TWaiting → Bool} {q : List TWaiting} (uniform : Uniform ready q) :
    q = q.filter ready ++ q.filter (! ready ·) := by
  rcases uniform.cases with idle | ⟨w, now, same⟩
  · have none : q.filter ready = [] := List.filter_eq_nil_iff.mpr fun w member => by simp [idle w member]
    have all : q.filter (! ready ·) = q := List.filter_eq_self.mpr fun w member => by simp [idle w member]
    rw [none, all, List.nil_append]
  · rw [same]
    simp [now]

theorem drain_idle {ready : TWaiting → Bool}
    {body : TWaiting → TRequestProcessor ρ → Except Fault (TRequestProcessor ρ)} {q : List TWaiting}
    (idle : ∀ w ∈ q, ready w = false) (p : TRequestProcessor ρ) :
    TRequestProcessor.drain ready body q p = .ok (q, p) := by
  cases q with
  | nil => rfl
  | cons front q =>
    have back := idle _ (List.getLast_mem (List.cons_ne_nil front q))
    unfold TRequestProcessor.drain
    simp [back]

theorem drain_replicate {ready : TWaiting → Bool}
    {body : TWaiting → TRequestProcessor ρ → Except Fault (TRequestProcessor ρ)} {w : TWaiting} (now : ready w = true)
    (n : ℕ) (p : TRequestProcessor ρ) :
    TRequestProcessor.drain ready body (List.replicate (n + 1) w) p =
      (body w p).bind (TRequestProcessor.drain ready body (List.replicate n w)) := by
  have back : ∀ h, (w :: List.replicate n w).getLast h = w := fun h =>
    List.eq_of_mem_replicate (n := n + 1) (List.getLast_mem h)
  rw [List.replicate_succ]
  unfold TRequestProcessor.drain
  simp [back, now]

theorem Answered.event {strong : Bool} {applied : ℕ} {w : TWaiting} (h : Answered rsm strong applied w p p') :
    ∃ reply, p'.events = p.events ++ [.answer strong w applied p.raft.commitSeqno reply] := by
  cases h <;> exact ⟨_, rfl⟩

/-- What a loop of `ProcessWaiting` leaves in the queue, and whom it answers. -/
theorem drain_uniform {strong : Bool} {applied : ℕ} {ready : TWaiting → Bool}
    {body : TWaiting → TRequestProcessor ρ → Except Fault (TRequestProcessor ρ)}
    (spec : ∀ {w p p'}, body w p = .ok p' → Answered rsm strong applied w p p') {q rest : List TWaiting}
    (uniform : Uniform ready q) (h : TRequestProcessor.drain ready body q p = .ok (rest, p')) :
    rest = q.filter (! ready ·) ∧ ∃ es, p'.events = p.events ++ es ∧ answeredOf strong es = q.filter ready ∧
      answeredOf (! strong) es = [] ∧ ∀ b, queuedOf b es = [] := by
  rcases uniform.cases with idle | ⟨w, now, same⟩
  · rw [drain_idle idle] at h
    cases h
    refine ⟨?_, [], by simp, ?_, rfl, fun _ => rfl⟩
    · exact (List.filter_eq_self.mpr fun w member => by simp [idle w member]).symm
    · exact (List.filter_eq_nil_iff.mpr fun w member => by simp [idle w member]).symm
  · rw [same] at h ⊢
    generalize q.length = n at h ⊢
    simp only [List.filter_replicate, now, Bool.not_true, if_true, Bool.false_eq_true, if_false]
    clear same uniform
    induction n generalizing p with
    | zero => cases h; exact ⟨rfl, [], by simp, rfl, rfl, fun _ => rfl⟩
    | succ n ih =>
      rw [drain_replicate now] at h
      obtain ⟨p₁, first, later⟩ := Except.bind_ok h
      obtain ⟨reply, event⟩ := (spec first).event
      obtain ⟨empty, es, events, answered, other, queued⟩ := ih later
      refine ⟨empty, _ :: es, by rw [events, event, List.append_assoc]; rfl, ?_, ?_, ?_⟩
      · rw [answeredOf, List.filterMap_cons, List.replicate_succ, ← answered]
        simp [TEvent.answered?, answeredOf]
      · rw [answeredOf, List.filterMap_cons, ← other]
        simp [TEvent.answered?, answeredOf]
      · intro b
        rw [queuedOf, List.filterMap_cons, ← queued b]
        rfl

/-! ## Requests in and answers out -/

/-- What was in the queues and what came in is what was answered, followed by what is in the queues. -/
def Balanced (p p' : TRequestProcessor ρ) : Prop :=
  ∃ es, p'.events = p.events ++ es ∧ ∀ strong, p.queue strong ++ queuedOf strong es = answeredOf strong es ++ p'.queue strong

namespace Balanced

theorem refl (p : TRequestProcessor ρ) : Balanced p p := ⟨[], by simp, fun _ => by simp [queuedOf, answeredOf]⟩

theorem trans (h : Balanced p p') (k : Balanced p' p'') : Balanced p p'' := by
  obtain ⟨es, events, law⟩ := h
  obtain ⟨fs, events', law'⟩ := k
  refine ⟨es ++ fs, by rw [events', events, List.append_assoc], fun strong => ?_⟩
  calc p.queue strong ++ queuedOf strong (es ++ fs)
      = p.queue strong ++ queuedOf strong es ++ queuedOf strong fs := by
        rw [queuedOf, List.filterMap_append, List.append_assoc]; rfl
    _ = answeredOf strong es ++ (p'.queue strong ++ queuedOf strong fs) := by rw [law, List.append_assoc]
    _ = answeredOf strong (es ++ fs) ++ p''.queue strong := by
        rw [law', answeredOf, answeredOf, answeredOf, List.filterMap_append, List.append_assoc]

/-- Events that concern no queue. -/
theorem of_events {es : List TEvent} (events : p'.events = p.events ++ es)
    (none : ∀ e ∈ es, ∀ strong, e.queued? strong = none ∧ e.answered? strong = none)
    (waiting : p'.waiting = p.waiting) (strongWaiting : p'.strongWaiting = p.strongWaiting) : Balanced p p' := by
  refine ⟨es, events, fun strong => ?_⟩
  have queued : queuedOf strong es = [] := List.filterMap_eq_nil_iff.mpr fun e he => (none e he strong).1
  have answered : answeredOf strong es = [] := List.filterMap_eq_nil_iff.mpr fun e he => (none e he strong).2
  rw [queued, answered, List.append_nil, List.nil_append, TRequestProcessor.queue, TRequestProcessor.queue, waiting,
    strongWaiting]

theorem of_commanded (h : Commanded rsm command replyTo p p') : Balanced p p' := by
  cases h with
  | aside aside =>
    obtain ⟨es, events, asides⟩ := aside.events
    refine of_events events (fun e he strong => ?_) aside.waiting aside.strongWaiting
    have := asides e he
    cases e <;> first | exact ⟨rfl, rfl⟩ | cases this
  | silent => exact of_events (List.append_nil _).symm nofun rfl rfl
  | read | strong | write =>
    refine ⟨_, rfl, fun strong => ?_⟩
    cases strong <;> simp [queuedOf, answeredOf, TEvent.queued?, TEvent.answered?, TRequestProcessor.queue,
      TRequestProcessor.enqueue, TRequestProcessor.enqueueStrong, TRequestProcessor.record]

theorem of_served (h : Served rsm p p') : Balanced p p' := by
  induction h with
  | refl => exact refl p
  | tail _ step ih =>
    obtain ⟨_, _, commanded⟩ := step
    exact ih.trans (of_commanded commanded)

theorem of_processCommitted (rsm : IRsm ρ) (p : TRequestProcessor ρ) : Balanced p (p.processCommitted rsm) := by
  obtain ⟨all, -⟩ := processCommitted_applies rsm p
  obtain ⟨es, events, -, fits, -⟩ := all.events
  refine of_events events (fun e he strong => ?_) all.waiting all.strongWaiting
  have := fits e he
  cases e <;> first | exact ⟨rfl, rfl⟩ | cases this

end Balanced

/-- **`ProcessWaiting` where the queues are uniform**: it answers what is ready and leaves the rest. -/
theorem processWaiting_uniform (orderly : Orderly p) (h : p.processWaiting rsm = .ok p') :
    Balanced p p' ∧ p'.waiting = p.waiting.filter (fun w => p.rsm.lastAppliedIndex < w.index) ∧
      p'.strongWaiting = p.strongWaiting.filter
        (fun w => ¬ (w.index ≤ p.rsm.lastAppliedIndex ∧ w.seqno ≤ p.raft.commitSeqno)) := by
  obtain ⟨q, first, second⟩ := Except.bind_ok h
  obtain ⟨⟨rest, p₁⟩, drained, same⟩ := Except.bind_ok first
  cases same
  obtain ⟨⟨strongRest, p₂⟩, drained', same⟩ := Except.bind_ok second
  cases same
  have frame := (Answers.of_drain Answered.of_answer _ drained).1.frame
  have frame' := (Answers.of_drain Answered.of_answerStrong _ drained').1.frame
  obtain ⟨left, es, events, answered, none, queued⟩ := drain_uniform Answered.of_answer orderly.1 drained
  dsimp only at drained'
  have uniform : Uniform (fun w => w.index ≤ p.rsm.lastAppliedIndex ∧ w.seqno ≤ p₁.raft.commitSeqno) p₁.strongWaiting := by
    rw [frame.raft, frame.strongWaiting]; exact orderly.2
  obtain ⟨left', fs, events', answered', none', queued'⟩ := drain_uniform Answered.of_answerStrong uniform drained'
  have kept : p₂.waiting = rest := frame'.waiting
  have split := orderly.1.split
  have split' := uniform.split
  rw [← answered, ← left] at split
  rw [← answered', ← left', frame.strongWaiting] at split'
  refine ⟨⟨es ++ fs, by rw [← List.append_assoc, ← events]; exact events', fun strong => ?_⟩, ?_, ?_⟩
  · have nothing : queuedOf strong (es ++ fs) = [] := by
      have first := queued strong
      have second := queued' strong
      unfold queuedOf at *
      rw [List.filterMap_append, first, second, List.append_nil]
    have both : answeredOf strong (es ++ fs) = answeredOf strong es ++ answeredOf strong fs := List.filterMap_append
    rw [nothing, both, List.append_nil]
    cases strong with
    | false =>
      change p.waiting = _ ++ p₂.waiting
      rw [show answeredOf false fs = [] from none', List.append_nil, kept]
      exact split
    | true =>
      change p.strongWaiting = _ ++ strongRest
      rw [show answeredOf true es = [] from none, List.nil_append]
      exact split'
  · change p₂.waiting = _
    rw [kept, left]
    apply List.filter_congr
    intro w _
    rw [← decide_not, decide_eq_decide]
    exact Nat.not_le
  · change strongRest = _
    rw [left', frame.strongWaiting, frame.raft]
    exact List.filter_congr fun w _ => (decide_not ..).symm

/-! ## Writes find their answers -/

/-- The answer to a waiting write is still to come, or is the first in `WriteAnswers` after those to earlier ones. -/
def Awaits (p : TRequestProcessor ρ) (w : TWaiting) : Prop :=
  (p.rsm.lastAppliedIndex < w.index ∧ (∀ a ∈ p.writeAnswers, a.index < w.index) ∧
    (p.raft.state.get w.index).flags ≠ eStub) ∨
  ∃ answer rest, p.writeAnswers.dropWhile (·.index < w.index) = answer :: rest ∧ answer.index = w.index

/-- Queues that a leader has filled, or that are empty. -/
structure Queues (p : TRequestProcessor ρ) : Prop where
  applied : p.rsm.lastAppliedIndex ≤ p.raft.state.log.length
  waiting : ∀ w ∈ p.waiting, w.index ≤ p.raft.state.log.length ∧ (w.command.isWrite → Awaits p w)
  order : p.waiting.Pairwise fun v w => v.index ≤ w.index ∧ (w.command.isWrite → v.index < w.index)
  strong : ∀ w ∈ p.strongWaiting, w.command.isWrite = false

theorem Queues.of_empty (applied : p.rsm.lastAppliedIndex ≤ p.raft.state.log.length) (waiting : p.waiting = [])
    (strongWaiting : p.strongWaiting = []) : Queues p where
  applied := applied
  waiting := by rw [waiting]; nofun
  order := by rw [waiting]; exact List.Pairwise.nil
  strong := by rw [strongWaiting]; nofun

theorem TState.get_stable {s s' : TState} (longer : s.log <+: s'.log) {i : ℕ} (low : 1 ≤ i)
    (high : i ≤ s.log.length) : s'.get i = s.get i := by
  have here := get_of_prefixed longer (s.get_eq_getElem low high)
  have there := s'.get_eq_getElem low (high.trans longer.length_le)
  exact Option.some.inj (there.symm.trans here)

theorem Awaits.frame {w : TWaiting} (awaits : Awaits p w) (inside : w.index ≤ p.raft.state.log.length)
    (longer : p.raft.state.log <+: p'.raft.state.log) (last : p'.rsm.lastAppliedIndex = p.rsm.lastAppliedIndex)
    (answers : p'.writeAnswers = p.writeAnswers) : Awaits p' w := by
  unfold Awaits
  rw [last, answers]
  rcases awaits with ⟨ahead, later, plain⟩ | found
  · exact .inl ⟨ahead, later, by rwa [TState.get_stable longer (by omega) inside]⟩
  · exact .inr found

/-- The answers of one `ProcessCommitted` are to the indices that are not stubs, in order. -/
theorem answers_of_fits (es : List TEvent) (fits : ∀ e ∈ es, e.Fits) :
    (es.filterMap TEvent.answer?).map (·.index) = ((appliedOf es).filter (·.2.flags ≠ eStub)).map (·.1) := by
  induction es with
  | nil => rfl
  | cons e es ih =>
    have first := fits e (List.mem_cons_self ..)
    have rest := ih fun e he => fits e (List.mem_cons_of_mem _ he)
    unfold appliedOf at *
    cases e with
    | write i entry applied reply =>
      have plain : entry.flags ≠ eStub := first
      simpa [TEvent.answer?, TEvent.applied?, plain] using rest
    | skip i entry =>
      have stub : entry.flags = eStub := first
      rw [List.filterMap_cons_none rfl, List.filterMap_cons_some (f := TEvent.applied?) rfl,
        List.filter_cons_of_neg (by simpa using stub)]
      exact rest
    | _ => cases first

/-- Dropping what is below an index of an increasing list leaves that index first. -/
theorem dropWhile_index {i : ℕ} (l : List TAnswer) (sorted : (l.map (·.index)).Pairwise (· < ·))
    (member : i ∈ l.map (·.index)) :
    ∃ answer rest, l.dropWhile (·.index < i) = answer :: rest ∧ answer.index = i := by
  induction l with
  | nil => cases member
  | cons a l ih =>
    obtain ⟨above, sorted⟩ := List.pairwise_cons.mp sorted
    rcases List.mem_cons.mp member with here | later
    · exact ⟨a, l, List.dropWhile_cons_of_neg (by simp [here]), here.symm⟩
    · have below := above i later
      rw [List.dropWhile_cons_of_pos (by simpa using below)]
      exact ih sorted later

theorem Awaits.processCommitted {w : TWaiting} (awaits : Awaits p w) (rsm : IRsm ρ) :
    Awaits (p.processCommitted rsm) w := by
  obtain ⟨all, last⟩ := processCommitted_applies rsm p
  obtain ⟨es, events, applied, fits, answers⟩ := all.events
  have indices := answers_of_fits es fits
  rw [applied] at indices
  unfold Awaits
  rw [last, answers, all.raft]
  rcases awaits with ⟨ahead, later, plain⟩ | ⟨answer, rest, found, own⟩
  · have past : p.writeAnswers.dropWhile (·.index < w.index) = [] :=
      List.dropWhile_eq_nil_iff.mpr fun a member => by simpa using later a member
    rcases Nat.lt_or_ge p.raft.volatileState.commitIndex w.index with more | reached
    · refine .inl ⟨more, fun a member => ?_, plain⟩
      rcases List.mem_append.mp member with old | new
      · exact later a old
      · have index : a.index ∈ (es.filterMap TEvent.answer?).map (·.index) := List.mem_map_of_mem new
        rw [indices] at index
        obtain ⟨x, there, same⟩ := List.mem_map.mp index
        obtain ⟨k, pending, rfl⟩ := List.mem_map.mp (List.mem_of_mem_filter there)
        have := List.mem_range'_1.mp pending
        dsimp only at same
        omega
    · right
      have sorted : ((es.filterMap TEvent.answer?).map (·.index)).Pairwise (· < ·) := by
        rw [indices, List.filter_map, List.map_map]
        have : p.pending.Pairwise (· < ·) := List.pairwise_lt_range'
        simpa [Function.comp_def] using this.filter _
      have member : w.index ∈ (es.filterMap TEvent.answer?).map (·.index) := by
        have pending : w.index ∈ p.pending := List.mem_range'_1.mpr (by omega)
        rw [indices]
        refine List.mem_map.mpr ⟨(w.index, p.raft.state.get w.index), List.mem_filter.mpr ⟨?_, ?_⟩, rfl⟩
        · exact List.mem_map.mpr ⟨_, pending, rfl⟩
        · simpa using plain
      obtain ⟨answer, rest, found, own⟩ := dropWhile_index _ sorted member
      exact ⟨answer, rest, by rw [List.dropWhile_append, past]; exact found, own⟩
  · right
    refine ⟨answer, rest ++ es.filterMap TEvent.answer?, ?_, own⟩
    rw [List.dropWhile_append, found]
    rfl

namespace Queues

theorem frame (queues : Queues p) (longer : p.raft.state.log <+: p'.raft.state.log)
    (last : p'.rsm.lastAppliedIndex = p.rsm.lastAppliedIndex) (answers : p'.writeAnswers = p.writeAnswers)
    (waiting : p'.waiting = p.waiting) (strongWaiting : p'.strongWaiting = p.strongWaiting) : Queues p' where
  applied := last ▸ queues.applied.trans longer.length_le
  waiting := by
    rw [waiting]
    intro w member
    obtain ⟨inside, awaits⟩ := queues.waiting w member
    exact ⟨inside.trans longer.length_le, fun write => (awaits write).frame inside longer last answers⟩
  order := waiting ▸ queues.order
  strong := strongWaiting ▸ queues.strong

theorem enqueue (queues : Queues p) {w : TWaiting} (inside : w.index ≤ p.raft.state.log.length)
    (behind : ∀ v ∈ p.waiting, v.index ≤ w.index ∧ (w.command.isWrite → v.index < w.index))
    (awaits : w.command.isWrite → Awaits p w) : Queues (p.enqueue w) where
  applied := queues.applied
  waiting := by
    intro v member
    rcases List.mem_append.mp member with old | new
    · exact queues.waiting v old
    · obtain rfl := List.mem_singleton.mp new
      exact ⟨inside, awaits⟩
  order := by
    refine List.pairwise_append.mpr ⟨queues.order, List.pairwise_singleton .., ?_⟩
    intro v member u new
    obtain rfl := List.mem_singleton.mp new
    exact behind v member
  strong := queues.strong

theorem commanded (queues : Queues p) (lawful : rsm.Lawful) (plain : ∀ c m, (rsm.prepare c m).1.flags ≠ eStub)
    (acc : Accounted p) (inside : p.raft.volatileState.commitIndex ≤ p.raft.state.log.length)
    (h : Commanded rsm command replyTo p p') : Queues p' := by
  cases h with
  | aside aside =>
    exact queues.frame (aside.raft ▸ List.prefix_rfl) (by rw [aside.rsm]) aside.writeAnswers aside.waiting
      aside.strongWaiting
  | read kind fits =>
    have last : p.raft.getLastIndex = p.raft.state.log.length := p.raft.state.index_eq
    refine queues.enqueue last.le (fun v member => ⟨?_, fun write => ?_⟩) fun write => ?_
    · exact last ▸ (queues.waiting v member).1
    · simp [kind] at write
    · simp [kind] at write
  | strong kind consistent leads fits =>
    have asked : Queues { p with raft := p.raft.approveRead.2 } :=
      queues.frame (p.raft.state_approveRead ▸ List.prefix_rfl) rfl rfl rfl rfl
    refine { asked with strong := ?_ }
    intro w member
    rcases List.mem_append.mp member with old | new
    · exact queues.strong w old
    · obtain rfl := List.mem_singleton.mp new
      exact kind
  | silent kind leads deaf =>
    exact queues.frame (List.prefix_append ..) (lawful.prepare ..) rfl rfl rfl
  | write kind leads heard =>
    have prepared : Queues
        { p with rsm := (rsm.prepare command p.rsm).2, raft := (p.raft.append (rsm.prepare command p.rsm).1).2 } :=
      queues.frame (List.prefix_append ..) (lawful.prepare ..) rfl rfl rfl
    have index : (p.raft.append (rsm.prepare command p.rsm).1).1 = p.raft.state.log.length + 1 := by
      rw [TRaft.append, TState.index_eq]
      simp
    refine prepared.enqueue ?_ (fun v member => ?_) fun _ => .inl ⟨?_, fun a member => ?_, ?_⟩
    · dsimp only
      rw [index]
      simp [TRaft.append]
    · have := (queues.waiting v member).1
      dsimp only
      omega
    · have := queues.applied
      have := lawful.prepare command p.rsm
      dsimp only
      omega
    · have := (acc a member).2.1
      dsimp only
      omega
    · -- the entry at the new index is the one that was just appended
      have get : (p.raft.append (rsm.prepare command p.rsm).1).2.state.get (p.raft.state.log.length + 1) =
          { (rsm.prepare command p.rsm).1 with term := p.raft.state.currentTerm } := by
        simp [TRaft.append, TState.get]
      dsimp only
      rw [index, get]
      exact plain command p.rsm

theorem served (queues : Queues p) (lawful : rsm.Lawful) (plain : ∀ c m, (rsm.prepare c m).1.flags ≠ eStub)
    (acc : Accounted p) (inside : p.raft.volatileState.commitIndex ≤ p.raft.state.log.length) (h : Served rsm p p') :
    Queues p' := by
  suffices Queues p' ∧ Accounted p' ∧ p'.raft.volatileState.commitIndex ≤ p'.raft.state.log.length from this.1
  induction h with
  | refl => exact ⟨queues, acc, inside⟩
  | tail _ step ih =>
    obtain ⟨queues, acc, inside⟩ := ih
    obtain ⟨_, _, commanded⟩ := step
    refine ⟨queues.commanded lawful plain acc inside commanded, acc.quiet (.of_commanded commanded) commanded.keeps, ?_⟩
    rcases commanded.raft with same | asked
    · exact same ▸ inside
    · exact asked.commitIndex.le.trans (inside.trans asked.length_le)

theorem processCommitted (queues : Queues p) (inside : p.raft.volatileState.commitIndex ≤ p.raft.state.log.length)
    (rsm : IRsm ρ) : Queues (p.processCommitted rsm) := by
  obtain ⟨all, last⟩ := processCommitted_applies rsm p
  refine ⟨by rw [last, all.raft]; exact inside, ?_, all.waiting ▸ queues.order, all.strongWaiting ▸ queues.strong⟩
  rw [all.waiting, all.raft]
  intro w member
  obtain ⟨low, awaits⟩ := queues.waiting w member
  exact ⟨low, fun write => (awaits write).processCommitted rsm⟩

/-- Answers to reads are not taken from `WriteAnswers`. -/
theorem writeAnswers_of_strong {applied : ℕ} {ok : TWaiting → Prop} (h : Answers rsm true applied ok p p') :
    p'.writeAnswers = p.writeAnswers := by
  induction h with
  | refl => rfl
  | tail _ step ih =>
    obtain ⟨w, -, answered⟩ := step
    cases answered with
    | write kind weak => cases weak
    | read => exact ih

theorem processWaiting (queues : Queues p) (lawful : rsm.Lawful) (orderly : Orderly p)
    (h : p.processWaiting rsm = .ok p') : Queues p' := by
  obtain ⟨-, waiting, strongWaiting⟩ := processWaiting_uniform orderly h
  have raft : p'.raft = p.raft := by
    obtain ⟨p₁, p₂, rest, strongRest, answers, answers', -, -, rfl⟩ := Answers.of_processWaiting h
    exact answers'.frame.raft.trans answers.frame.raft
  have last := (Quiet.of_processWaiting h).last lawful
  have strong : ∀ w ∈ p'.strongWaiting, w.command.isWrite = false := by
    rw [strongWaiting]
    intro w member
    exact queues.strong w (List.mem_of_mem_filter member)
  rcases orderly.1.cases with idle | ⟨w, now, same⟩
  · -- nothing is taken from `Waiting`, and so nothing from `WriteAnswers`
    have all : p'.waiting = p.waiting := by
      rw [waiting]
      apply List.filter_eq_self.mpr
      intro w member
      have := idle w member
      simpa using this
    have answers : p'.writeAnswers = p.writeAnswers := by
      obtain ⟨q, first, second⟩ := Except.bind_ok h
      rw [TRequestProcessor.processQueue, drain_idle idle] at first
      cases first
      obtain ⟨⟨strongRest, p₂⟩, drained', same⟩ := Except.bind_ok second
      cases same
      have kept := writeAnswers_of_strong (Answers.of_drain Answered.of_answerStrong _ drained').1
      exact kept
    have framed : Queues { p' with strongWaiting := p.strongWaiting } :=
      queues.frame (raft ▸ List.prefix_rfl) last answers all rfl
    exact { framed with strong := strong }
  · have none : p'.waiting = [] := by
      rw [waiting, same]
      have : ¬ p.rsm.lastAppliedIndex < w.index := by simpa using now
      simp [this]
    refine ⟨by rw [last, raft]; exact queues.applied, ?_, ?_, strong⟩
    · rw [none]; nofun
    · rw [none]; exact List.Pairwise.nil

end Queues

/-! ## Failures -/

/-- The call does not end in a fault that `bad` names. -/
def Avoids {α : Type*} (bad : Fault → Prop) (x : Except Fault α) : Prop := ∀ fault, x = .error fault → ¬ bad fault

section

variable {bad : Fault → Prop}

theorem Avoids.ok {α : Type*} (a : α) : Avoids bad (.ok a) := nofun

theorem Avoids.bind {α β : Type*} {x : Except Fault α} {f : α → Except Fault β} (first : Avoids bad x)
    (next : ∀ a, x = .ok a → Avoids bad (f a)) : Avoids bad (x.bind f) := by
  intro fault eq
  cases x with
  | error cause =>
    apply first fault
    simpa [Except.bind] using eq
  | ok a => exact next a rfl fault eq

theorem drain_avoids {ready : TWaiting → Bool}
    {body : TWaiting → TRequestProcessor ρ → Except Fault (TRequestProcessor ρ)} (q : List TWaiting)
    (each : ∀ w ∈ q, ∀ p, Avoids bad (body w p)) (p : TRequestProcessor ρ) :
    Avoids bad (TRequestProcessor.drain ready body q p) := by
  induction q generalizing p with
  | nil => exact .ok _
  | cons front q ih =>
    unfold TRequestProcessor.drain
    dsimp only
    split
    · apply (each _ (List.getLast_mem (List.cons_ne_nil front q)) p).bind
      intro p₁ _
      exact ih (fun w member => each w (List.mem_cons_of_mem _ member)) p₁
    · exact .ok _

/-- Where null messages and null clients are failures, there are none. -/
structure Attended (rsm : IRsm ρ) (bad : Fault → Prop) (w : TWaiting) : Prop where
  reply : bad .nullMessage → ∀ c i m, (rsm.read c i m).1.isSome
  client : bad .nullNode → w.replyTo.isSome

theorem sendReply_avoids {w : TWaiting} (sound : Attended rsm bad w) (strong : Bool) (applied : ℕ)
    (reply : TCommandResponse) (p : TRequestProcessor ρ) : Avoids bad (p.sendReply strong w applied reply) := by
  unfold TRequestProcessor.sendReply
  split
  · exact .ok _
  · rename_i deaf
    rintro _ ⟨⟩ failure
    exact deaf (sound.client failure)

theorem readAnswer_avoids {w : TWaiting} (sound : Attended rsm bad w) (p : TRequestProcessor ρ) :
    Avoids bad (p.readAnswer rsm w) := by
  unfold TRequestProcessor.readAnswer
  split
  · exact .ok _
  · rename_i none
    rintro _ ⟨⟩ failure
    have := sound.reply failure w.command w.index p.rsm
    rw [none] at this
    cases this

theorem answer_avoids {w : TWaiting} (sound : Attended rsm bad w) (kind : w.command.isWrite = false)
    (applied : ℕ) (p : TRequestProcessor ρ) : Avoids bad (p.answer rsm applied w) := by
  unfold TRequestProcessor.answer
  rw [if_neg (by simp [kind])]
  exact (readAnswer_avoids sound p).bind fun x _ => sendReply_avoids sound _ _ x.1 x.2

theorem answerStrong_avoids {w : TWaiting} (sound : Attended rsm bad w) (kind : w.command.isWrite = false)
    (applied : ℕ) (p : TRequestProcessor ρ) : Avoids bad (p.answerStrong rsm applied w) := by
  unfold TRequestProcessor.answerStrong
  rw [if_neg (by simp [kind])]
  exact (readAnswer_avoids sound p).bind fun x _ => sendReply_avoids sound _ _ x.1 x.2

/-- A write that is ready finds its answer. -/
theorem answer_write_avoids {w : TWaiting} (sound : Attended rsm bad w) (awaits : Awaits p w)
    (now : w.index ≤ p.rsm.lastAppliedIndex) (kind : w.command.isWrite) (applied : ℕ) :
    Avoids bad (p.answer rsm applied w) := by
  rcases awaits with ⟨ahead, -⟩ | ⟨answer, rest, found, own⟩
  · omega
  · unfold TRequestProcessor.answer TRequestProcessor.takeAnswer
    rw [if_pos kind, found]
    dsimp only
    rw [if_pos own]
    exact Avoids.bind (.ok _) fun x _ => sendReply_avoids sound _ _ x.1 x.2

/-- **`ProcessWaiting` does not fail** where the queues are in order and uniform. -/
theorem Queues.avoids (queues : Queues p) (orderly : Orderly p)
    (sound : ∀ w ∈ p.waiting ++ p.strongWaiting, Attended rsm bad w) : Avoids bad (p.processWaiting rsm) := by
  have first : Avoids bad (p.processQueue rsm p.rsm.lastAppliedIndex) := by
    refine Avoids.bind ?_ fun (rest, p) _ => .ok _
    rcases orderly.1.cases with idle | ⟨w, now, same⟩
    · rw [drain_idle idle]
      exact .ok _
    · cases kind : w.command.isWrite with
      | false =>
        apply drain_avoids
        intro v member p'
        have : v = w := by
          rw [same] at member
          exact List.eq_of_mem_replicate member
        subst this
        exact answer_avoids (sound v (List.mem_append_left _ member)) kind _ p'
      | true =>
        -- the order of the queue leaves room for one copy of a write
        have one : p.waiting.length ≤ 1 := by
          by_contra more
          obtain ⟨n, count⟩ : ∃ n, p.waiting.length = n + 2 := ⟨p.waiting.length - 2, by omega⟩
          have order := queues.order
          rw [same, count, List.replicate_succ, List.replicate_succ] at order
          have := ((List.pairwise_cons.mp order).1 w (List.mem_cons_self ..)).2 kind
          omega
        rcases Nat.eq_zero_or_pos p.waiting.length with zero | pos
        · rw [List.length_eq_zero_iff.mp zero]
          exact .ok _
        · have member : w ∈ p.waiting := by
            rw [same]
            exact List.mem_replicate.mpr ⟨by omega, rfl⟩
          rw [same, show p.waiting.length = 0 + 1 by omega, drain_replicate now]
          have awaits := (queues.waiting w member).2 kind
          refine (answer_write_avoids (sound w (List.mem_append_left _ member)) awaits ?_ kind _).bind ?_
          · simpa using now
          · intro p₁ _
            exact .ok _
  apply first.bind
  intro p₁ done
  have kept : p₁.strongWaiting = p.strongWaiting := by
    obtain ⟨⟨rest, p₂⟩, drained, same⟩ := Except.bind_ok done
    cases same
    exact (Answers.of_drain Answered.of_answer _ drained).1.frame.strongWaiting
  refine Avoids.bind ?_ fun (rest, p) _ => .ok _
  apply drain_avoids
  intro w member p'
  rw [kept] at member
  exact answerStrong_avoids (sound w (List.mem_append_right _ member)) (queues.strong w member) _ p'

end

/-! ## Runs -/

/-- A reply goes to the client of a request that is ready, and is what the state machine said to that request. -/
def Proper (rsm : IRsm ρ) (events : List TEvent) : TEvent → Prop
  | .answer strong w applied seqno reply => w.index ≤ applied ∧ (strong → w.seqno ≤ seqno) ∧ w.replyTo.isSome ∧
      ∃ r, reply = { r with cookie := w.command.cookie } ∧
        if w.command.isWrite then ∃ e before, .write w.index e before r ∈ events
        else ∃ m, (rsm.read w.command w.index m).1 = some r
  | _ => True

theorem Proper.mono {es fs : List TEvent} (le : es <+: fs) {e : TEvent} (h : Proper rsm es e) : Proper rsm fs e := by
  cases e with
  | answer strong w applied seqno reply =>
    obtain ⟨index, approved, heard, r, same, source⟩ := h
    refine ⟨index, approved, heard, r, same, ?_⟩
    split
    · rename_i kind
      rw [if_pos kind] at source
      obtain ⟨e, before, written⟩ := source
      exact ⟨e, before, le.subset written⟩
    · rename_i kind
      rwa [if_neg kind] at source
  | _ => trivial

theorem Proper.handled {request : Request} (acc : Accounted p) (proper : ∀ e ∈ p.events, Proper rsm p.events e)
    (handled : Handled delay rsm p request p') : ∀ e ∈ p'.events, Proper rsm p'.events e := by
  obtain ⟨es, events, replies⟩ := handled.replies
  rw [events]
  intro event member
  rcases List.mem_append.mp member with old | new
  · exact (proper event old).mono (List.prefix_append ..)
  · cases event with
    | answer strong w applied seqno reply =>
      obtain ⟨due, ⟨r, same, source⟩, rfl, rfl⟩ := replies _ _ _ _ _ new
      refine ⟨due.index, due.seqno, due.client, r, same, ?_⟩
      split
      · rename_i kind
        rw [if_pos kind] at source
        obtain ⟨a, there, own, rfl⟩ := source
        obtain ⟨-, -, e, before, written, -⟩ := acc a there
        exact ⟨e, before, List.mem_append_left _ (own ▸ written)⟩
      · rename_i kind
        rwa [if_neg kind] at source
    | _ => trivial

theorem System.Reachable.answering (reach : System.Reachable delay (2 ^ 31) ids rsm P) :
    (∃ h, Consistent (2 ^ 31) ids h P) ∧
      ∀ s ∈ ids, Accounted (P s) ∧ ∀ e ∈ (P s).events, Proper rsm (P s).events e := by
  obtain ⟨start, fresh, later⟩ := reach
  induction later with
  | refl =>
    refine ⟨⟨_, .start (by decide) fresh⟩, fun s mem => ?_⟩
    rw [fresh.2 s mem]
    exact ⟨nofun, nofun⟩
  | tail _ st ih =>
    obtain ⟨⟨h, con⟩, all⟩ := ih
    obtain ⟨label, -, st⟩ := st
    obtain ⟨h', -, con'⟩ := con.step le_rfl st
    refine ⟨⟨h', con'⟩, fun x mem => ?_⟩
    obtain ⟨acc, proper⟩ := all x mem
    rcases st.reacts x with idle | ⟨-, request, rfl, -, done⟩ | ⟨-, -, restored, restarted⟩
    · rw [idle]
      exact ⟨acc, proper⟩
    · have handled := Handled.of_handle done
      have keeps := System.Step.keeps con le_rfl st
      exact ⟨acc.handled handled ((con.agrees.sim x mem).commit le_rfl).1 keeps, .handled acc proper handled⟩
    · rw [restarted]
      exact ⟨.restart restored _, proper⟩

/-- The step is a call of `ProcessWaiting` of server `s`. -/
def System.Label.waits (s : ℕ) : System.Label → Bool
  | .call x .processWaiting => x = s
  | _ => false

/-- Server `s` goes on leading its term. -/
def Leads (s : ℕ) (P : System ρ) (_ : System.Label) (P' : System ρ) : Prop :=
  (P s).raft.stateName = .leader ∧ (P' s).raft.stateName = .leader ∧
    (P' s).raft.state.currentTerm = (P s).raft.state.currentTerm

/-- Server `s` goes on leading its term, and each of its calls of `ProcessWaiting` finds uniform queues. -/
def Reigns (s : ℕ) (P : System ρ) (label : System.Label) (P' : System ρ) : Prop :=
  Leads s P label P' ∧ (label.waits s → Orderly (P s))

instance (s : ℕ) (P : System ρ) (label : System.Label) (P' : System ρ) : Decidable (Leads s P label P') :=
  inferInstanceAs (Decidable (_ ∧ _ ∧ _))

instance (s : ℕ) (P : System ρ) (label : System.Label) (P' : System ρ) : Decidable (Reigns s P label P') :=
  inferInstanceAs (Decidable (_ ∧ _))

theorem Queues.handled {request : Request} (lawful : rsm.Lawful) (plain : ∀ c m, (rsm.prepare c m).1.flags ≠ eStub)
    (queues : Queues p) (acc : Accounted p) (inside : p.raft.volatileState.commitIndex ≤ p.raft.state.log.length)
    (leads : p'.raft.stateName = .leader) (orderly : request = .processWaiting → Orderly p)
    (handled : Handled delay rsm p request p') : Queues p' ∧ Balanced p p' := by
  have perform : ∀ call, (p.raft.perform delay call).stateName = .leader →
      Queues { p with raft := p.raft.perform delay call } ∧ Balanced p { p with raft := p.raft.perform delay call } := by
    intro call leads
    refine ⟨?_, .of_events (List.append_nil _).symm nofun rfl rfl⟩
    rcases p.raft.log_perform delay call with longer | ⟨message, -, follower, -⟩
    · exact queues.frame longer rfl rfl rfl rfl
    · rw [leads] at follower
      cases follower
  cases handled with
  | process now message => exact perform (.process now message) leads
  | processTimeout now => exact perform (.processTimeout now) leads
  | append entry => exact perform (.append entry) leads
  | served h => exact ⟨queues.served lawful plain acc inside h, .of_served h⟩
  | processCommitted => exact ⟨queues.processCommitted inside rsm, .of_processCommitted rsm p⟩
  | processWaiting h =>
    exact ⟨queues.processWaiting lawful (orderly rfl) h, (processWaiting_uniform (orderly rfl) h).1⟩

/-- **Every queued request is answered once, in order**, by a leader whose calls of `ProcessWaiting` find uniform
queues: what was queued is what was answered and what still waits, each reply is proper, and the next
`ProcessWaiting` fails no assertion and leaves the requests that are not ready. -/
theorem requests_answered (delay : UInt32 → ℕ) (rsm : IRsm ρ) (lawful : rsm.Lawful)
    (plain : ∀ c m, (rsm.prepare c m).1.flags ≠ eStub) (ids : Finset ℕ) {P P' : System ρ} {s : ℕ} (mem : s ∈ ids)
    (reach : System.Reachable delay (2 ^ 31) ids rsm P) (queues : Queues (P s))
    (run : System.Run delay (2 ^ 31) ids rsm (Reigns s) P P') :
    (∃ es, (P' s).events = (P s).events ++ es ∧ ∀ strong,
      (P s).queue strong ++ queuedOf strong es = answeredOf strong es ++ (P' s).queue strong) ∧
    (∀ e ∈ (P' s).events, Proper rsm (P' s).events e) ∧
    (Orderly (P' s) →
      (P' s).processWaiting rsm ≠ .error .assertion ∧
      ((∀ c i m, (rsm.read c i m).1.isSome) → (∀ w ∈ (P' s).waiting ++ (P' s).strongWaiting, w.replyTo.isSome) →
        ∃ p, (P' s).processWaiting rsm = .ok p) ∧
      ∀ p, (P' s).processWaiting rsm = .ok p →
        p.waiting = (P' s).waiting.filter (fun w => (P' s).rsm.lastAppliedIndex < w.index) ∧
        p.strongWaiting = (P' s).strongWaiting.filter
          (fun w => ¬ (w.index ≤ (P' s).rsm.lastAppliedIndex ∧ w.seqno ≤ (P' s).raft.commitSeqno))) := by
  obtain ⟨reach', queues', balanced⟩ :
      System.Reachable delay (2 ^ 31) ids rsm P' ∧ Queues (P' s) ∧ Balanced (P s) (P' s) := by
    induction run with
    | refl => exact ⟨reach, queues, .refl _⟩
    | tail before st ih =>
      obtain ⟨reach₁, queues₁, balanced₁⟩ := ih
      refine ⟨reach.run (before.tail st), ?_⟩
      obtain ⟨⟨h, con⟩, all⟩ := reach₁.answering
      obtain ⟨label, ⟨⟨-, leads, -⟩, orderly⟩, st⟩ := st
      rcases st.reacts s with idle | ⟨-, request, rfl, -, done⟩ | ⟨-, -, restored, restarted⟩
      · rw [idle]
        exact ⟨queues₁, balanced₁⟩
      · obtain ⟨next, moved⟩ := queues₁.handled lawful plain (all s mem).1 ((con.agrees.sim s mem).commit le_rfl).1
          leads (fun same => orderly (by simp [same, System.Label.waits])) (.of_handle done)
        exact ⟨next, balanced₁.trans moved⟩
      · rw [restarted] at leads
        cases leads
  refine ⟨balanced, (reach'.answering.2 s mem).2, fun orderly => ⟨?_, ?_, ?_⟩⟩
  · intro failed
    have safe : Avoids (· = .assertion) ((P' s).processWaiting rsm) :=
      queues'.avoids orderly fun w _ => ⟨nofun, nofun⟩
    exact safe _ failed rfl
  · intro replies heard
    have safe : Avoids (fun _ => True) ((P' s).processWaiting rsm) :=
      queues'.avoids orderly fun w member => ⟨fun _ => replies, fun _ => heard w member⟩
    cases result : (P' s).processWaiting rsm with
    | error fault => exact absurd trivial (safe fault result)
    | ok p => exact ⟨p, rfl⟩
  · intro p done
    exact (processWaiting_uniform orderly done).2

/-- A lone server becomes leader. -/
def enthroned : List Cue := [.request 1 (.processTimeout 0), .request 1 (.processTimeout 3000000000)]

/-- A write and a consistent read, each answered before the next request. -/
def oneByOne : List Cue :=
  [.request 1 (.onCommandRequest { flags := 1, cookie := 5, data := [65] } (some 7)),
    .request 1 (.processTimeout 6000000000), .request 1 .processCommitted, .request 1 .processWaiting,
    .request 1 (.onCommandRequest { flags := 4, cookie := 6 } (some 8)), .request 1 .processWaiting]

theorem requests_answered_alone : ∃ P P',
    System.Run (fun _ => 5000) (2 ^ 31) [1].toFinset (TDummyRsm.rsm []) (Reigns 1) P P' ∧
    (∃ es, (P' 1).events = (P 1).events ++ es ∧ ∀ strong, queuedOf strong es = answeredOf strong es) ∧
    ∀ strong, (answeredOf strong (P' 1).events).length = 1 := by
  let done (P : System (List TLogEntry)) : Prop :=
    ∀ strong, (P 1).queue strong = [] ∧ (answeredOf strong (P 1).events).length = 1
  obtain ⟨P, reach, applied, idle, later⟩ := System.reachable_of_rehearse [1] enthroned (by decide) (by decide)
    (fun P => (P 1).rsm.lastAppliedIndex ≤ (P 1).raft.state.log.length ∧ (∀ strong, (P 1).queue strong = []) ∧
      (System.resume (Reigns 1) [1] oneByOne P).any fun P' => done P') (by decide +kernel)
  obtain ⟨P', run, ends⟩ := System.exists_of_resume _ _ _ _ done later
  have plain : ∀ c m, ((TDummyRsm.rsm []).prepare c m).1.flags ≠ eStub := by
    intro c m
    simp [TDummyRsm.rsm, TDummyRsm.prepare, eStub]
  obtain ⟨⟨es, events, law⟩, -⟩ := requests_answered _ _ (TDummyRsm.lawful []) plain [1].toFinset (by decide) reach
    (.of_empty applied (idle false) (idle true)) run
  refine ⟨P, P', run, ⟨es, events, fun strong => ?_⟩, fun strong => (ends strong).2⟩
  simpa [idle strong, (ends strong).1] using law strong

/-- Two clients read, and the server looks at its queue. -/
def twoReads : List Cue :=
  [.request 1 .processCommitted, .request 1 (.onCommandRequest { cookie := 5 } (some 7)),
    .request 1 (.onCommandRequest { cookie := 6 } (some 8)), .request 1 .processWaiting]

/-- Two clients write, and both entries are applied. -/
def twoWrites : List Cue :=
  [.request 1 (.onCommandRequest { flags := 1, cookie := 5, data := [65] } (some 7)),
    .request 1 (.onCommandRequest { flags := 1, cookie := 6, data := [66] } (some 8)),
    .request 1 (.processTimeout 6000000000), .request 1 .processCommitted]

/-- The fault that a call ends in. -/
def fault? {α : Type*} : Except Fault α → Option Fault
  | .error fault => some fault
  | .ok _ => none

/-- Of two reads the second is answered twice and the first never, and after two writes an assertion fails. -/
theorem requests_answered_crossed : ∃ P,
    System.Reachable (fun _ => 5000) (2 ^ 31) [1].toFinset (TDummyRsm.rsm []) P ∧ Queues (P 1) ∧
    (∃ P' v w, System.Run (fun _ => 5000) (2 ^ 31) [1].toFinset (TDummyRsm.rsm []) (Leads 1) P P' ∧
      v ≠ w ∧ queuedOf false (P' 1).events = [v, w] ∧ answeredOf false (P' 1).events = [w, w] ∧
      (P' 1).waiting = []) ∧
    ∃ P', System.Run (fun _ => 5000) (2 ^ 31) [1].toFinset (TDummyRsm.rsm []) (Leads 1) P P' ∧
      (P' 1).processWaiting (TDummyRsm.rsm []) = .error .assertion := by
  let v : TWaiting :=
    { index := 1
      command := { cookie := 5 }
      replyTo := some 7 }
  let w : TWaiting :=
    { index := 1
      command := { cookie := 6 }
      replyTo := some 8 }
  let crossed (P : System (List TLogEntry)) : Prop :=
    queuedOf false (P 1).events = [v, w] ∧ answeredOf false (P 1).events = [w, w] ∧ (P 1).waiting = []
  let fails (P : System (List TLogEntry)) : Prop :=
    fault? ((P 1).processWaiting (TDummyRsm.rsm [])) = some .assertion
  obtain ⟨P, reach, applied, idle, reads, writes⟩ :=
    System.reachable_of_rehearse [1] enthroned (by decide) (by decide)
    (fun P => (P 1).rsm.lastAppliedIndex ≤ (P 1).raft.state.log.length ∧ (∀ strong, (P 1).queue strong = []) ∧
      ((System.resume (Leads 1) [1] twoReads P).any fun P' => crossed P') ∧
      (System.resume (Leads 1) [1] twoWrites P).any fun P' => fails P') (by decide +kernel)
  obtain ⟨P₁, run₁, queued, answered, left⟩ := System.exists_of_resume _ _ _ _ crossed reads
  obtain ⟨P₂, run₂, failed⟩ := System.exists_of_resume _ _ _ _ fails writes
  refine ⟨P, reach, .of_empty applied (idle false) (idle true),
    ⟨P₁, v, w, run₁, by decide, queued, answered, left⟩, P₂, run₂, ?_⟩
  cases result : (P₂ 1).processWaiting (TDummyRsm.rsm []) with
  | ok p => simp [fails, fault?, result] at failed
  | error fault => simpa [fails, fault?, result] using failed

end MiniRaft
