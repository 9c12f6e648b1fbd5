import MiniRaft.Progress

/-!
# Replicas of a state machine

A state machine that only folds the entries given to it holds the fold of what is committed, up to `LastAppliedIndex`. So all
the servers answer reads as one machine would that was given one sequence of entries.
-/

namespace MiniRaft

open Lib

/-- A state machine that is the fold of its entries, and takes each at a new index. -/
structure IRsm.Replays {ρ : Type*} (rsm : IRsm ρ) (apply : ρ → TLogEntry → ρ) : Prop where
  read : ∀ c i r, (rsm.read c i r).2 = r
  prepare : ∀ c r, (rsm.prepare c r).2 = r
  write : ∀ e i r, r.lastAppliedIndex < i → (rsm.write e i r).2 = { lastAppliedIndex := i, impl := apply r.impl e }

/-- The same as far as the entries fit: of others nothing is said. -/
structure IRsm.ReplaysOn {ρ : Type*} (rsm : IRsm ρ) (apply : ρ → TLogEntry → ρ) (fits : TLogEntry → Prop) : Prop where
  read : ∀ c i r, (rsm.read c i r).2 = r
  prepare : ∀ c r, (rsm.prepare c r).2 = r
  write : ∀ e i r, fits e → r.lastAppliedIndex < i →
    (rsm.write e i r).2 = { lastAppliedIndex := i, impl := apply r.impl e }

/-- The entries that are given to state machines. -/
def clients (log : List TLogEntry) : List TLogEntry := log.filter fun e => e.flags ≠ eStub

def replay {ρ : Type*} (apply : ρ → TLogEntry → ρ) (init : ρ) (log : List TLogEntry) : ρ := (clients log).foldl apply init

/-- `H` is what the servers have committed, and `p` has replayed the beginning of it. -/
structure Held {ρ : Type*} (apply : ρ → TLogEntry → ρ) (init : ρ) (H : List TLogEntry) (p : TRequestProcessor ρ) : Prop where
  reaches : p.raft.volatileState.commitIndex ≤ H.length
  committed : p.raft.state.log.take p.raft.volatileState.commitIndex = H.take p.raft.volatileState.commitIndex
  behind : p.rsm.lastAppliedIndex ≤ p.raft.volatileState.commitIndex
  machine : p.rsm.impl = replay apply init (H.take p.rsm.lastAppliedIndex)
  applied : ∀ i e, (i, e) ∈ appliedOf p.events → 1 ≤ i ∧ H[i - 1]? = some e

/-- A read was answered out of what the machine made of the beginning of `H`, no shorter than the log was when the read came. -/
structure Replica {ρ : Type*} (rsm : IRsm ρ) (apply : ρ → TLogEntry → ρ) (init : ρ) (H : List TLogEntry)
    (p : TRequestProcessor ρ) : Prop extends Held apply init H p where
  answers : ∀ strong w applied seqno reply, .answer strong w applied seqno reply ∈ p.events → w.command.isWrite = false →
    w.index ≤ applied ∧ applied ≤ H.length ∧ ∃ r,
      (rsm.read w.command w.index { lastAppliedIndex := applied, impl := replay apply init (H.take applied) }).1 = some r ∧
        reply = { r with cookie := w.command.cookie }

/-- The same where each call may come upon another machine, of those that there may be for what the server holds. -/
structure Replicas {ρ : Type*} (rsms : ρ → IRsm ρ → Prop) (apply : ρ → TLogEntry → ρ) (init : ρ) (H : List TLogEntry)
    (p : TRequestProcessor ρ) : Prop extends Held apply init H p where
  answers : ∀ strong w applied seqno reply, .answer strong w applied seqno reply ∈ p.events → w.command.isWrite = false →
    w.index ≤ applied ∧ applied ≤ H.length ∧ ∃ rsm, rsms (replay apply init (H.take applied)) rsm ∧ ∃ r,
      (rsm.read w.command w.index { lastAppliedIndex := applied, impl := replay apply init (H.take applied) }).1 = some r ∧
        reply = { r with cookie := w.command.cookie }

/-- A process that starts again has an empty state machine. -/
def Refreshes {ρ : Type*} (init : ρ) (_ : System ρ) (label : System.Label) (P' : System ρ) : Prop :=
  ∀ s, label = .restart s → (P' s).rsm = { impl := init }

def System.Label.server : System.Label → ℕ
  | .call s _ | .restart s => s

/-- The step is a call. -/
def System.Label.isCall : System.Label → Bool
  | .call .. => true
  | .restart _ => false

variable {ρ : Type*} {rsm : IRsm ρ} {apply : ρ → TLogEntry → ρ} {init : ρ} {p p' : TRequestProcessor ρ} {P P' : System ρ}
  {delay : UInt32 → ℕ} {lim : ℕ} {ids : Finset ℕ} {h : History} {s : ℕ} {H H' : List TLogEntry} {label : System.Label}
  {fits : TLogEntry → Prop} {rsms : ρ → IRsm ρ → Prop}

theorem IRsm.Replays.on (replays : rsm.Replays apply) : rsm.ReplaysOn apply fun _ => True where
  read := replays.read
  prepare := replays.prepare
  write e i r _ := replays.write e i r

theorem replay_append (log : List TLogEntry) (e : TLogEntry) :
    replay apply init (log ++ [e]) = if e.flags = eStub then replay apply init log else apply (replay apply init log) e := by
  by_cases stub : e.flags = eStub
  · simp [replay, clients, stub]
  · simp [replay, clients, stub]

/-! ## Reads -/

/-- The event applies nothing, and if it answers a read, that is what the machine `r` gives. -/
def TEvent.ReadsFrom (rsm : IRsm ρ) (r : TRsm ρ) : TEvent → Prop
  | .answer _ w applied _ reply => w.command.isWrite = false → w.index ≤ applied ∧ applied = r.lastAppliedIndex ∧
      ∃ found, (rsm.read w.command w.index r).1 = some found ∧ reply = { found with cookie := w.command.cookie }
  | .write .. | .skip .. => False
  | _ => True

/-- The machine stays, and gives the answers to reads. -/
structure Reading (rsm : IRsm ρ) (p p' : TRequestProcessor ρ) : Prop where
  machine : p'.rsm = p.rsm
  events : ∃ es, p'.events = p.events ++ es ∧ ∀ e ∈ es, e.ReadsFrom rsm p.rsm

namespace Reading

theorem refl (p : TRequestProcessor ρ) : Reading rsm p p := ⟨rfl, [], by simp, by simp⟩

theorem trans {p'' : TRequestProcessor ρ} (h : Reading rsm p p') (k : Reading rsm p' p'') : Reading rsm p p'' := by
  obtain ⟨es, events, all⟩ := h.events
  obtain ⟨fs, events', all'⟩ := k.events
  refine ⟨k.machine.trans h.machine, es ++ fs, by rw [events', events, List.append_assoc], fun e member => ?_⟩
  rw [h.machine] at all'
  exact (List.mem_append.mp member).elim (all e) (all' e)

theorem of_commanded {command : TCommandRequest} {replyTo : Option ℕ} (replays : rsm.ReplaysOn apply fits)
    (h : Commanded rsm command replyTo p p') : Reading rsm p p' := by
  cases h with
  | aside aside =>
    obtain ⟨es, events, asides⟩ := aside.events
    refine ⟨aside.rsm, es, events, fun e member => ?_⟩
    have := asides e member
    cases e <;> trivial
  | silent => exact ⟨replays.prepare .., [], by simp, by simp⟩
  | write => exact ⟨replays.prepare .., _, rfl, by simp [TEvent.ReadsFrom]⟩
  | read | strong => exact ⟨rfl, _, rfl, by simp [TEvent.ReadsFrom]⟩

theorem of_served (replays : rsm.ReplaysOn apply fits) (h : Served rsm p p') : Reading rsm p p' := by
  induction h with
  | refl => exact refl p
  | tail _ step ih =>
    obtain ⟨_, _, commanded⟩ := step
    exact ih.trans (of_commanded replays commanded)

theorem of_answers {strong : Bool} {applied : ℕ} {ok : TWaiting → Prop} (replays : rsm.ReplaysOn apply fits)
    (h : Answers rsm strong applied ok p p') (last : applied = p.rsm.lastAppliedIndex) (low : ∀ w, ok w → w.index ≤ applied) :
    Reading rsm p p' := by
  induction h with
  | refl => exact refl p
  | @tail p₁ p₂ _ step ih =>
    obtain ⟨w, fits, answered⟩ := step
    apply ih.trans
    cases answered with
    | write kind =>
      refine ⟨rfl, _, rfl, ?_⟩
      simp [TEvent.ReadsFrom, kind]
    | read kind heard found =>
      refine ⟨replays.read .., _, rfl, ?_⟩
      simp only [List.mem_singleton, forall_eq]
      intro _
      exact ⟨low w fits, by rw [ih.machine]; exact last, _, found, rfl⟩

theorem of_processWaiting (replays : rsm.ReplaysOn apply fits) (h : p.processWaiting rsm = .ok p') : Reading rsm p p' := by
  obtain ⟨p₁, p₂, rest, strongRest, answers, answers', -, -, rfl⟩ := Answers.of_processWaiting h
  have first := of_answers replays answers rfl fun w ok => ok.2
  have second := of_answers replays answers' (by rw [← first.machine]) fun w ok => ok.2.1
  have kept : Reading rsm p { p₁ with waiting := rest } := { first with }
  exact { kept.trans second with }

end Reading

/-- **Every call but `ProcessCommitted` only reads the state machine.** -/
theorem Handled.reading {request : Request} (replays : rsm.ReplaysOn apply fits) (h : Handled delay rsm p request p') :
    (request = .processCommitted ∧ p' = p.processCommitted rsm) ∨ Reading rsm p p' := by
  cases h with
  | process | processTimeout | append => exact .inr ⟨rfl, [], by simp, by simp⟩
  | served served => exact .inr (.of_served replays served)
  | processCommitted => exact .inl ⟨rfl, rfl⟩
  | processWaiting done => exact .inr (.of_processWaiting replays done)

theorem TEvent.ReadsFrom.applied {r : TRsm ρ} {e : TEvent} (h : e.ReadsFrom rsm r) : e.applied? = none := by
  cases e <;> first | rfl | exact h.elim

/-! ## Writes -/

/-- One round of the loop. -/
theorem replay_applyEntry (replays : rsm.ReplaysOn apply fits) {n : ℕ} (low : p.rsm.lastAppliedIndex ≤ n)
    (inside : n < p.raft.state.log.length) (fit : ∀ e ∈ clients p.raft.state.log, fits e)
    (machine : p.rsm.impl = replay apply init (p.raft.state.log.take n)) :
    (p.applyEntry rsm (n + 1)).rsm.lastAppliedIndex ≤ n + 1 ∧
      (p.applyEntry rsm (n + 1)).rsm.impl = replay apply init (p.raft.state.log.take (n + 1)) := by
  have here := p.raft.state.get_eq_getElem (i := n + 1) (by omega) (by omega)
  rw [Nat.add_sub_cancel] at here
  have entry : p.raft.state.log.take (n + 1) = p.raft.state.log.take n ++ [p.raft.state.get (n + 1)] := by
    simp [List.take_add_one, here]
  rw [entry, replay_append, ← machine]
  unfold TRequestProcessor.applyEntry
  dsimp only
  split
  next => exact ⟨low.trans n.le_succ, rfl⟩
  next other =>
    have mine := fit _ (List.mem_filter.mpr ⟨List.mem_of_getElem? here, by simpa using other⟩)
    have wrote := replays.write (p.raft.state.get (n + 1)) (n + 1) p.rsm mine (Nat.lt_succ_of_le low)
    simp [wrote]

/-- The rounds of the loop that start after the first `n` entries. -/
theorem replay_foldl (replays : rsm.ReplaysOn apply fits) (k : ℕ) {n : ℕ} (low : p.rsm.lastAppliedIndex ≤ n)
    (inside : n + k ≤ p.raft.state.log.length) (fit : ∀ e ∈ clients p.raft.state.log, fits e)
    (machine : p.rsm.impl = replay apply init (p.raft.state.log.take n)) :
    ((List.range' (n + 1) k).foldl (TRequestProcessor.applyEntry rsm) p).rsm.impl =
      replay apply init (p.raft.state.log.take (n + k)) := by
  induction k generalizing p n with
  | zero => simpa using machine
  | succ k ih =>
    obtain ⟨low', machine'⟩ := replay_applyEntry replays low (by omega) fit machine
    have same := (applyEntry_applies rsm p (n + 1)).raft
    have rest := ih low' (by rw [same]; omega) (by rw [same]; exact fit) (by rw [same]; exact machine')
    rw [same] at rest
    rw [List.range'_succ, List.foldl_cons, rest]
    congr 2
    omega

/-- **One call of `ProcessCommitted`.** -/
theorem replay_processCommitted (replays : rsm.ReplaysOn apply fits)
    (behind : p.rsm.lastAppliedIndex ≤ p.raft.volatileState.commitIndex)
    (inside : p.raft.volatileState.commitIndex ≤ p.raft.state.log.length) (fit : ∀ e ∈ clients p.raft.state.log, fits e)
    (machine : p.rsm.impl = replay apply init (p.raft.state.log.take p.rsm.lastAppliedIndex)) :
    (p.processCommitted rsm).rsm.impl = replay apply init (p.raft.state.log.take p.raft.volatileState.commitIndex) := by
  have all := replay_foldl replays (p.raft.volatileState.commitIndex - p.rsm.lastAppliedIndex) le_rfl (by omega) fit machine
  rw [Nat.add_sub_cancel' behind] at all
  rw [← all, ← Nat.add_sub_add_right _ 1]
  rfl

/-! ## One sequence of entries -/

theorem take_of_grows (grows : H <+: H') {n : ℕ} (low : n ≤ H.length) : H'.take n = H.take n := by
  obtain ⟨rest, rfl⟩ := grows
  rw [List.take_append_of_le_length low]

namespace Held

theorem mono (grows : H <+: H') (held : Held apply init H p) : Held apply init H' p where
  reaches := held.reaches.trans grows.length_le
  committed := by rw [take_of_grows grows held.reaches, held.committed]
  behind := held.behind
  machine := by rw [take_of_grows grows (held.behind.trans held.reaches), held.machine]
  applied i e member := by
    obtain ⟨low, here⟩ := held.applied i e member
    exact ⟨low, get_of_prefixed grows here⟩

theorem start {raft : TRaft} (zero : raft.volatileState.commitIndex = 0) : Held apply init [] (.new raft { impl := init }) where
  reaches := zero.le
  committed := by simp [show (TRequestProcessor.new raft (TRsm.mk 0 init)).raft.volatileState.commitIndex = 0 from zero]
  behind := Nat.zero_le _
  machine := rfl
  applied _ _ member := absurd member List.not_mem_nil

/-- One call, after which `H` is still what is committed. -/
theorem handled {request : Request} (replays : rsm.ReplaysOn apply fits) (held : Held apply init H p)
    (done : Handled delay rsm p request p') (fit : ∀ e ∈ clients p.raft.state.log, fits e)
    (inside : p.raft.volatileState.commitIndex ≤ p.raft.state.log.length)
    (grows : p.raft.volatileState.commitIndex ≤ p'.raft.volatileState.commitIndex)
    (reaches : p'.raft.volatileState.commitIndex ≤ H.length)
    (committed : p'.raft.state.log.take p'.raft.volatileState.commitIndex = H.take p'.raft.volatileState.commitIndex) :
    Held apply init H p' := by
  rcases done.reading replays with ⟨-, rfl⟩ | reading
  · obtain ⟨all, last⟩ := processCommitted_applies rsm p
    have machine : p.rsm.impl = replay apply init (p.raft.state.log.take p.rsm.lastAppliedIndex) := by
      rw [held.machine, ← min_eq_left held.behind, ← List.take_take, ← List.take_take, held.committed]
    obtain ⟨es, events, applied, -, -⟩ := all.events
    refine ⟨reaches, committed, last.trans_le grows, ?_, fun i e member => ?_⟩
    · rw [replay_processCommitted replays held.behind inside fit machine, last, held.committed]
    · rw [events, appliedOf_append, applied] at member
      rcases List.mem_append.mp member with old | new
      · exact held.applied i e old
      · obtain ⟨k, pending, same⟩ := List.mem_map.mp new
        obtain ⟨rfl, rfl⟩ := Prod.mk.inj same
        have low := List.mem_range'_1.mp pending
        have behind := held.behind
        have here : (p.raft.state.log.take p.raft.volatileState.commitIndex)[k - 1]? = some (p.raft.state.get k) := by
          rw [get_take_of_lt (by omega)]
          exact p.raft.state.get_eq_getElem (by omega) (by omega)
        rw [held.committed] at here
        exact ⟨by omega, get_of_prefixed (List.take_prefix ..) here⟩
  · obtain ⟨es, events, reads⟩ := reading.events
    refine ⟨reaches, committed, ?_, ?_, fun i e member => ?_⟩
    · rw [reading.machine]
      exact held.behind.trans grows
    · rw [reading.machine, held.machine]
    · rw [events, appliedOf_append] at member
      have none_ : appliedOf es = [] := List.filterMap_eq_nil_iff.mpr fun e new => (reads e new).applied
      rw [none_, List.append_nil] at member
      exact held.applied i e member

/-- What a call answers reads with. -/
theorem answers {request : Request} (replays : rsm.ReplaysOn apply fits) (held : Held apply init H p)
    (done : Handled delay rsm p request p') {strong : Bool} {w : TWaiting} {applied seqno : ℕ} {reply : TCommandResponse}
    (member : .answer strong w applied seqno reply ∈ p'.events) (kind : w.command.isWrite = false) :
    .answer strong w applied seqno reply ∈ p.events ∨ p.rsm.lastAppliedIndex = applied ∧
      w.index ≤ applied ∧ applied ≤ H.length ∧ ∃ r,
        (rsm.read w.command w.index { lastAppliedIndex := applied, impl := replay apply init (H.take applied) }).1 = some r ∧
          reply = { r with cookie := w.command.cookie } := by
  rcases done.reading replays with ⟨-, rfl⟩ | reading
  · obtain ⟨all, -⟩ := processCommitted_applies rsm p
    obtain ⟨es, events, -, fits, -⟩ := all.events
    rw [events] at member
    rcases List.mem_append.mp member with old | new
    · exact .inl old
    · exact absurd (fits _ new) nofun
  · obtain ⟨es, events, reads⟩ := reading.events
    rw [events] at member
    rcases List.mem_append.mp member with old | new
    · exact .inl old
    · obtain ⟨low, rfl, found⟩ := reads _ new kind
      refine .inr ⟨rfl, low, held.behind.trans held.reaches, ?_⟩
      rwa [← held.machine]

/-- The process is started again. -/
theorem restart (held : Held apply init H p) : Held apply init H (p.restart { impl := init }) where
  reaches := Nat.zero_le _
  committed := rfl
  behind := Nat.zero_le _
  machine := rfl
  applied := held.applied

end Held

namespace Replicas

theorem mono (grows : H <+: H') (replicas : Replicas rsms apply init H p) : Replicas rsms apply init H' p := by
  refine ⟨replicas.toHeld.mono grows, fun strong w applied seqno reply member kind => ?_⟩
  obtain ⟨low, high, found⟩ := replicas.answers strong w applied seqno reply member kind
  exact ⟨low, high.trans grows.length_le, by rwa [take_of_grows grows high]⟩

theorem start {raft : TRaft} (zero : raft.volatileState.commitIndex = 0) :
    Replicas rsms apply init [] (.new raft { impl := init }) :=
  ⟨.start zero, fun _ _ _ _ _ member => absurd member List.not_mem_nil⟩

/-- One call that comes upon one of the machines, after which `H` is still what is committed. -/
theorem handled {request : Request} (replays : rsm.ReplaysOn apply fits) (replicas : Replicas rsms apply init H p)
    (one : rsms p.rsm.impl rsm) (done : Handled delay rsm p request p') (fit : ∀ e ∈ clients p.raft.state.log, fits e)
    (inside : p.raft.volatileState.commitIndex ≤ p.raft.state.log.length)
    (grows : p.raft.volatileState.commitIndex ≤ p'.raft.volatileState.commitIndex)
    (reaches : p'.raft.volatileState.commitIndex ≤ H.length)
    (committed : p'.raft.state.log.take p'.raft.volatileState.commitIndex = H.take p'.raft.volatileState.commitIndex) :
    Replicas rsms apply init H p' := by
  refine ⟨replicas.toHeld.handled replays done fit inside grows reaches committed, fun strong w n seqno reply member kind => ?_⟩
  rcases replicas.toHeld.answers replays done member kind with old | ⟨rfl, low, high, found⟩
  · exact replicas.answers strong w n seqno reply old kind
  · exact ⟨low, high, rsm, by rwa [← replicas.machine], found⟩

theorem restart (replicas : Replicas rsms apply init H p) : Replicas rsms apply init H (p.restart { impl := init }) :=
  ⟨replicas.toHeld.restart, replicas.answers⟩

/-- With one machine for all calls. -/
theorem replica_iff : Replicas (fun _ => (· = rsm)) apply init H p ↔ Replica rsm apply init H p := by
  constructor
  · rintro ⟨held, answers⟩
    refine ⟨held, fun strong w applied seqno reply member kind => ?_⟩
    obtain ⟨low, high, _, rfl, found⟩ := answers strong w applied seqno reply member kind
    exact ⟨low, high, found⟩
  · rintro ⟨held, answers⟩
    refine ⟨held, fun strong w applied seqno reply member kind => ?_⟩
    obtain ⟨low, high, found⟩ := answers strong w applied seqno reply member kind
    exact ⟨low, high, rsm, rfl, found⟩

end Replicas

theorem Replica.mono (grows : H <+: H') (replica : Replica rsm apply init H p) : Replica rsm apply init H' p :=
  Replicas.replica_iff.mp ((Replicas.replica_iff.mpr replica).mono grows)

/-! ## Runs of all servers -/

/-- A run in which each call may come upon another machine. -/
def System.RunAmong (delay : UInt32 → ℕ) (lim : ℕ) (ids : Finset ℕ) (rsms : ρ → IRsm ρ → Prop)
    (ok : System ρ → System.Label → System ρ → Prop) : System ρ → System ρ → Prop :=
  Relation.ReflTransGen fun P P' => ∃ rsm label, rsms (P label.server).rsm.impl rsm ∧ ok P label P' ∧
    System.Step delay lim ids rsm P label P'

/-- A history that agrees with all servers, and what has been committed in it. -/
structure Ensemble (lim : ℕ) (ids : Finset ℕ) (rsms : ρ → IRsm ρ → Prop) (apply : ρ → TLogEntry → ρ) (init : ρ) (h : History)
    (H : List TLogEntry) (P : System ρ) : Prop where
  consistent : Consistent lim ids h P
  decided : ∃ t, Decided ids h t H
  replicas : ∀ s ∈ ids, Replicas rsms apply init H (P s)

theorem Ensemble.start (pos : 0 < lim) (fresh : System.Start ids P) (empty : ∀ s ∈ ids, (P s).rsm = { impl := init }) :
    Ensemble lim ids rsms apply init .start [] P where
  consistent := .start pos fresh
  decided := ⟨0, .nil 0⟩
  replicas s mem := by
    obtain ⟨nodes, -, -, own⟩ := fresh.1.2 s mem
    rw [fresh.2 s mem, empty s mem]
    apply Replicas.start
    rw [show (P s).raft = _ from own]
    rfl

/-- What is committed after a step extends what was, or is part of it. -/
theorem Ensemble.step (replays : rsm.ReplaysOn apply fits) (small : lim ≤ 2 ^ 31)
    (before : Ensemble lim ids rsms apply init h H P) (fit : ∀ s ∈ ids, ∀ e ∈ clients (P s).raft.state.log, fits e)
    (refreshes : Refreshes init P label P') (one : rsms (P label.server).rsm.impl rsm)
    (st : System.Step delay lim ids rsm P label P') :
    ∃ h' H', h.Le h' ∧ H <+: H' ∧ Ensemble lim ids rsms apply init h' H' P' := by
  obtain ⟨h', le, con⟩ := before.consistent.step small st
  obtain ⟨t, decided⟩ := before.decided
  have decided := decided.mono le le_rfl
  cases label with
  | restart s =>
    refine ⟨h', H, le, List.prefix_rfl, con, ⟨t, decided⟩, fun x mem => ?_⟩
    rcases st.reacts x with same | ⟨-, request, other, -⟩ | ⟨-, own, restored, same⟩
    · rw [same]
      exact before.replicas x mem
    · cases other
    · have fresh := refreshes x own
      rw [same] at fresh ⊢
      obtain rfl : restored = { impl := init } := fresh
      exact (before.replicas x mem).restart
  | call s request =>
    have keeps := st.keeps before.consistent small
    obtain ⟨mem, done⟩ : s ∈ ids ∧ Handled delay rsm (P s) request (P' s) := by
      cases st with
      | call mem request enabled done =>
        rw [Function.update_self]
        exact ⟨mem, .of_handle done⟩
    have others : ∀ x, x ≠ s → P' x = P x := by
      cases st with
      | call => exact fun x other => Function.update_of_ne other ..
    obtain ⟨inside, mine⟩ := (con.agrees.sim s mem).commit small
    have old := ((before.consistent.agrees.sim s mem).commit small).1
    obtain ⟨H', grows, decided', reaches⟩ : ∃ H', H <+: H' ∧ (∃ u, Decided ids h' u H') ∧
        (P' s).raft.state.log.take (P' s).raft.volatileState.commitIndex <+: H' := by
      rcases decided.comparable con.agrees.inv mine with pre | pre
      · exact ⟨_, pre, ⟨_, mine⟩, List.prefix_rfl⟩
      · exact ⟨H, List.prefix_rfl, ⟨t, decided⟩, pre⟩
    refine ⟨h', H', le, grows, con, decided', fun x mem' => ?_⟩
    by_cases own : x = s
    · subst own
      have len : ((P' x).raft.state.log.take (P' x).raft.volatileState.commitIndex).length =
          (P' x).raft.volatileState.commitIndex := List.length_take_of_le inside
      refine ((before.replicas x mem).mono grows).handled replays one done (fit x mem) old keeps.commit ?_ ?_
      · exact len ▸ reaches.length_le
      · have same := List.prefix_iff_eq_take.mp reaches
        rwa [len] at same
    · rw [others x own]
      exact (before.replicas x mem').mono grows

/-- **The servers are one machine** in a run in which each call may come upon another machine, and all that the logs have fits. -/
theorem Ensemble.run (replays : ∀ impl rsm, rsms impl rsm → rsm.ReplaysOn apply fits) (small : lim ≤ 2 ^ 31)
    (before : Ensemble lim ids rsms apply init h H P)
    (run : System.RunAmong delay lim ids rsms
      (fun P label P' => Refreshes init P label P' ∧ ∀ s ∈ ids, ∀ e ∈ clients (P s).raft.state.log, fits e) P P') :
    ∃ h' H', H <+: H' ∧ Ensemble lim ids rsms apply init h' H' P' := by
  induction run with
  | refl => exact ⟨h, H, List.prefix_rfl, before⟩
  | tail _ step ih =>
    obtain ⟨h₁, H₁, grows, between⟩ := ih
    obtain ⟨_, _, one, ⟨refreshes, fit⟩, st⟩ := step
    obtain ⟨h₂, H₂, -, grows', after⟩ := between.step (replays _ _ one) small fit refreshes one st
    exact ⟨h₂, H₂, grows.trans grows', after⟩

/-- The same with one machine for all calls. -/
structure Replicated (lim : ℕ) (ids : Finset ℕ) (rsm : IRsm ρ) (apply : ρ → TLogEntry → ρ) (init : ρ) (h : History)
    (H : List TLogEntry) (P : System ρ) : Prop where
  consistent : Consistent lim ids h P
  decided : ∃ t, Decided ids h t H
  replica : ∀ s ∈ ids, Replica rsm apply init H (P s)

theorem Replicated.ensemble_iff :
    Ensemble lim ids (fun _ => (· = rsm)) apply init h H P ↔ Replicated lim ids rsm apply init h H P :=
  ⟨fun ⟨con, decided, replicas⟩ => ⟨con, decided, fun s mem => Replicas.replica_iff.mp (replicas s mem)⟩,
    fun ⟨con, decided, replica⟩ => ⟨con, decided, fun s mem => Replicas.replica_iff.mpr (replica s mem)⟩⟩

theorem Replicated.start (pos : 0 < lim) (fresh : System.Start ids P) (empty : ∀ s ∈ ids, (P s).rsm = { impl := init }) :
    Replicated lim ids rsm apply init .start [] P := ensemble_iff.mp (.start pos fresh empty)

theorem Replicated.step (replays : rsm.Replays apply) (small : lim ≤ 2 ^ 31) (before : Replicated lim ids rsm apply init h H P)
    (refreshes : Refreshes init P label P') (st : System.Step delay lim ids rsm P label P') :
    ∃ h' H', h.Le h' ∧ H <+: H' ∧ Replicated lim ids rsm apply init h' H' P' := by
  obtain ⟨h', H', le, grows, after⟩ :=
    (ensemble_iff.mpr before).step replays.on small (fun _ _ _ _ => trivial) refreshes rfl st
  exact ⟨h', H', le, grows, ensemble_iff.mp after⟩

theorem Replicated.run (replays : rsm.Replays apply) (small : lim ≤ 2 ^ 31) (before : Replicated lim ids rsm apply init h H P)
    (run : System.Run delay lim ids rsm (Refreshes init) P P') :
    ∃ h' H', H <+: H' ∧ Replicated lim ids rsm apply init h' H' P' := by
  induction run with
  | refl => exact ⟨h, H, List.prefix_rfl, before⟩
  | tail _ step ih =>
    obtain ⟨h₁, H₁, grows, between⟩ := ih
    obtain ⟨_, refreshes, st⟩ := step
    obtain ⟨h₂, H₂, -, grows', after⟩ := between.step replays small refreshes st
    exact ⟨h₂, H₂, grows.trans grows', after⟩

/-- **The servers are one machine.** In a run in which state machines are lost with their process, there is one sequence of
entries, which later states extend: each server has committed a beginning of it, applied it in order, and holds the fold of
what it has applied. Every read that any server has answered was answered out of the fold of some beginning, which reaches
as far as the server's log did when the read was taken. -/
theorem one_sequence (delay : UInt32 → ℕ) {rsm : IRsm ρ} {apply : ρ → TLogEntry → ρ} (replays : rsm.Replays apply) (init : ρ)
    (ids : Finset ℕ) {start P : System ρ} (fresh : System.Start ids start) (empty : ∀ s ∈ ids, (start s).rsm = { impl := init })
    (run : System.Run delay (2 ^ 31) ids rsm (Refreshes init) start P) :
    ∃ H, (∀ s ∈ ids, Replica rsm apply init H (P s)) ∧
      ∀ P', System.Run delay (2 ^ 31) ids rsm (Refreshes init) P P' →
        ∃ H', H <+: H' ∧ ∀ s ∈ ids, Replica rsm apply init H' (P' s) := by
  obtain ⟨h, H, -, now⟩ := (Replicated.start (by decide) fresh empty).run replays le_rfl run
  refine ⟨H, now.replica, fun P' later => ?_⟩
  obtain ⟨h', H', grows, after⟩ := now.run replays le_rfl later
  exact ⟨H', grows, after.replica⟩

/-! ## The answers of one server -/

/-- What had been applied when each answer was sent. -/
def seenOf (events : List TEvent) : List ℕ :=
  events.filterMap fun
    | .answer _ _ applied _ _ => some applied
    | _ => none

/-- Since `P`, no answer of server `s` has seen less than one before it, nor less than the index of its request. -/
structure Forward (s : ℕ) (P P' : System ρ) : Prop where
  events : ∃ es, (P' s).events = (P s).events ++ es ∧ (seenOf es).Pairwise (· ≤ ·) ∧
    (∀ n ∈ seenOf es, n ≤ (P' s).rsm.lastAppliedIndex) ∧
    ∀ strong w applied seqno reply, .answer strong w applied seqno reply ∈ es → w.index ≤ applied

theorem Forward.refl (s : ℕ) (P : System ρ) : Forward s P P := ⟨[], by simp [seenOf]⟩

/-- The answers of one call have all seen the same. -/
theorem Handled.seen {request : Request} (h : Handled delay rsm p request p') :
    ∃ es, p'.events = p.events ++ es ∧ (∀ n ∈ seenOf es, n = p.rsm.lastAppliedIndex) ∧
      ∀ strong w applied seqno reply, .answer strong w applied seqno reply ∈ es → w.index ≤ applied := by
  obtain ⟨es, events, replies⟩ := h.replies
  refine ⟨es, events, fun n seen => ?_, fun strong w applied seqno reply member => ?_⟩
  · obtain ⟨e, member, same⟩ := List.mem_filterMap.mp seen
    cases e with
    | answer strong w applied seqno reply =>
      obtain ⟨-, -, own, -⟩ := replies _ _ _ _ _ member
      exact (Option.some.inj same).symm.trans own
    | _ => cases same
  · obtain ⟨due, -, rfl, -⟩ := replies _ _ _ _ _ member
    exact due.index

theorem Forward.handled {request : Request} {Q Q' : System ρ} (forward : Forward s P Q)
    (done : Handled delay rsm (Q s) request (Q' s)) (grows : (Q s).rsm.lastAppliedIndex ≤ (Q' s).rsm.lastAppliedIndex) :
    Forward s P Q' := by
  obtain ⟨es, events, sorted, low, index⟩ := forward.events
  obtain ⟨fs, events', seen, index'⟩ := done.seen
  refine ⟨es ++ fs, by rw [events', events, List.append_assoc], ?_, fun n member => ?_, ?_⟩
  · rw [seenOf, List.filterMap_append, List.pairwise_append]
    refine ⟨sorted, ?_, fun n old k new => (low n old).trans (seen k new).ge⟩
    exact List.pairwise_of_forall_mem_list fun n here k there => ((seen n here).trans (seen k there).symm).le
  · rw [seenOf, List.filterMap_append, List.mem_append] at member
    rcases member with old | new
    · exact (low n old).trans grows
    · exact (seen n new).trans_le grows
  · intro strong w applied seqno reply member
    rcases List.mem_append.mp member with old | new
    · exact index _ _ _ _ _ old
    · exact index' _ _ _ _ _ new

/-- **A server does not go back.** While its process lives, each answer to a read is given out of at least the entries that
any earlier answer had seen, and an answer to a write has seen that write. -/
theorem answers_go_forward (delay : UInt32 → ℕ) {rsm : IRsm ρ} {apply : ρ → TLogEntry → ρ} (replays : rsm.Replays apply)
    (init : ρ) (ids : Finset ℕ) {start P P' : System ρ} (fresh : System.Start ids start)
    (empty : ∀ s ∈ ids, (start s).rsm = { impl := init }) (run : System.Run delay (2 ^ 31) ids rsm (Refreshes init) start P)
    {s : ℕ} (later : System.Run delay (2 ^ 31) ids rsm
      (fun Q label Q' => Refreshes init Q label Q' ∧ label ≠ .restart s) P P') :
    ∃ H, (∀ x ∈ ids, Replica rsm apply init H (P' x)) ∧ Forward s P P' := by
  obtain ⟨h, H, -, now⟩ := (Replicated.start (by decide) fresh empty).run replays le_rfl run
  suffices ∃ h H, Replicated (2 ^ 31) ids rsm apply init h H P' ∧ Forward s P P' by
    obtain ⟨h', H', after, forward⟩ := this
    exact ⟨H', after.replica, forward⟩
  induction later with
  | refl => exact ⟨h, H, now, .refl s P⟩
  | @tail Q Q' _ step ih =>
    obtain ⟨h₁, H₁, between, forward⟩ := ih
    obtain ⟨label, ⟨refreshes, lives⟩, st⟩ := step
    obtain ⟨h₂, H₂, -, -, after⟩ := between.step replays le_rfl refreshes st
    refine ⟨h₂, H₂, after, ?_⟩
    rcases st.reacts s with idle | ⟨mem, request, rfl, -, done⟩ | ⟨-, own, -⟩
    · obtain ⟨es, events⟩ := forward.events
      exact ⟨es, by rwa [idle]⟩
    · have done := Handled.of_handle done
      apply forward.handled done
      rcases done.reading replays.on with ⟨-, same⟩ | reading
      · rw [same, (processCommitted_applies rsm (Q s)).2]
        exact (between.replica s mem).behind
      · rw [reading.machine]
    · exact absurd own lives

/-! ## Runs that are played -/

/-- Calls do not restart anything. -/
theorem System.Run.refreshes (run : System.Run delay lim ids rsm (fun _ label _ => label.isCall) P P') (init : ρ) (s : ℕ) :
    System.Run delay lim ids rsm (fun Q label Q' => Refreshes init Q label Q' ∧ label ≠ .restart s) P P' := by
  refine run.mono fun Q label Q' own => ⟨?_, ?_⟩
  · rintro x rfl
    cases own
  · rintro rfl
    cases own

/-- What is played from a fresh start. -/
theorem System.calls_of_play (ids : List ℕ) (cues : List Cue) (rsm : IRsm ρ) (init : ρ) (φ : System ρ → Prop)
    [DecidablePred φ]
    (h : (play (fun _ => 5000) (2 ^ 31) ids.toFinset rsm (fun _ label _ => label.isCall) cues (fresh ids { impl := init })).any
      (φ ·)) :
    ∃ P, Run (fun _ => 5000) (2 ^ 31) ids.toFinset rsm (fun _ label _ => label.isCall) (fresh ids { impl := init }) P ∧ φ P := by
  obtain ⟨P, played, holds⟩ := (Option.any_eq_true _ _).mp h
  exact ⟨P, run_of_play cues played, by simpa using holds⟩

/-- `TDummyRsm` keeps its entries. -/
theorem TDummyRsm.replays (beyond : List UInt8) : (TDummyRsm.rsm beyond).Replays fun entries e => entries ++ [e] where
  read c i r := by
    change (read beyond c i r).2 = r
    unfold read
    dsimp only
    split <;> rfl
  prepare _ _ := rfl
  write e i r low := by
    change (write e i r).2 = _
    unfold write
    rw [if_pos low]

/-- Both servers hold the write. -/
theorem one_sequence_replicated : ∃ (P : System (List TLogEntry)) (H : List TLogEntry),
    (P 1).rsm.impl = [{ term := 2, data := [65] }] ∧ (P 2).rsm.lastAppliedIndex = 2 ∧
    (P 2).rsm.impl = replay (fun entries e => entries ++ [e]) [] (H.take 2) ∧ H[1]? = some { term := 2, data := [65] } := by
  obtain ⟨P, run, held, last, applied⟩ := System.calls_of_play [1, 2] replicated (TDummyRsm.rsm []) []
    (fun P => (P 1).rsm.impl = [{ term := 2, data := [65] }] ∧ (P 2).rsm.lastAppliedIndex = 2 ∧
      (2, { term := 2, data := [65] }) ∈ appliedOf (P 2).events) (by decide +kernel)
  obtain ⟨H, replica, -⟩ := one_sequence (fun _ => 5000) (TDummyRsm.replays []) [] [1, 2].toFinset
    (System.fresh_start (by decide) (by decide) _) (fun _ _ => rfl) ((run.refreshes [] 0).mono fun _ _ _ own => own.1)
  have machine := (replica 2 (by decide)).machine
  rw [last] at machine
  exact ⟨P, H, held, last, machine, ((replica 2 (by decide)).applied _ _ applied).2⟩

/-- A lone server answers a write, and after it a read. -/
def loneSession : List Cue :=
  [.request 1 (.processTimeout 0), .request 1 (.onCommandRequest { flags := 1, cookie := 5, data := [65] } (some 7)),
    .request 1 (.processTimeout 3000000000), .request 1 .processCommitted, .request 1 .processWaiting,
    .request 1 (.onCommandRequest { data := [1] } (some 7)), .request 1 .processWaiting]

theorem answers_go_forward_lone : ∃ (P : System (List TLogEntry)) (H : List TLogEntry), seenOf (P 1).events = [2, 2] ∧
    (P 1).rsm.impl = replay (fun entries e => entries ++ [e]) [] (H.take (P 1).rsm.lastAppliedIndex) ∧
    (seenOf (P 1).events).Pairwise (· ≤ ·) := by
  obtain ⟨P, run, seen⟩ := System.calls_of_play [1] loneSession (TDummyRsm.rsm []) [] (fun P => seenOf (P 1).events = [2, 2])
    (by decide +kernel)
  obtain ⟨H, replica, ⟨es, events, sorted, -⟩⟩ := answers_go_forward (fun _ => 5000) (TDummyRsm.replays []) [] [1].toFinset
    (System.fresh_start (by decide) (by decide) _) (fun _ _ => rfl) .refl (run.refreshes [] 1)
  refine ⟨P, H, seen, (replica 1 (by decide)).machine, ?_⟩
  rwa [show (P 1).events = es from events]

end MiniRaft
