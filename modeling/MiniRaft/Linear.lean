import MiniRaft.Queues
import MiniRaft.Reads
import MiniRaft.Replicas

/-!
# Linearizability

Writes and consistent reads take effect one after the other: a write at its index in the sequence of committed entries, and
a consistent read behind the entries that had been applied when it was answered. A request that was answered before another
one was taken, by whatever server, comes before it.
-/

namespace MiniRaft

open Lib

/-- Where an answered request took effect. Other reads than consistent ones are left out. -/
def TEvent.point? : TEvent → Option ℕ
  | .answer true _ applied _ _ => some applied
  | .answer false w _ _ _ => if w.command.isWrite then some w.index else none
  | _ => none

/-- The index and the entry of a write that was taken. -/
def TEvent.written? : TEvent → Option (ℕ × TLogEntry)
  | .queue false w => if w.command.isWrite then w.entry.map (w.index, ·) else none
  | _ => none

variable {ρ : Type*} {rsm : IRsm ρ} {apply : ρ → TLogEntry → ρ} {init : ρ} {p p' p'' : TRequestProcessor ρ} {P P' : System ρ}
  {delay : UInt32 → ℕ} {lim : ℕ} {ids : Finset ℕ} {h h' : History} {s x i j n : ℕ} {d e : TLogEntry}
  {H H' log : List TLogEntry} {label : System.Label} {command : TCommandRequest} {replyTo : Option ℕ} {es fs : List TEvent}
  {a : TEvent}

/-! ## Requests that are taken -/

/-- A server whose log has grown. -/
structure Longer (p p' : TRequestProcessor ρ) : Prop where
  name : p'.raft.stateName = p.raft.stateName
  term : p'.raft.state.currentTerm = p.raft.state.currentTerm
  log : p.raft.state.log <+: p'.raft.state.log

/-- The writes that a leader has taken are at the end of its log, one behind the other. -/
structure Written (p p' : TRequestProcessor ρ) (es : List TEvent) : Prop where
  sorted : es.Pairwise fun a b => ∀ i d j e, a.written? = some (i, d) → b.written? = some (j, e) → i < j
  each : ∀ a ∈ es, ∀ i e, a.written? = some (i, e) → p.raft.stateName = .leader ∧ Longer p p' ∧
    e.term = p.raft.state.currentTerm ∧ p.raft.state.log.length < i ∧ p'.raft.state.log[i - 1]? = some e

theorem Longer.trans (h : Longer p p') (k : Longer p' p'') : Longer p p'' :=
  ⟨k.name.trans h.name, k.term.trans h.term, h.log.trans k.log⟩

theorem Written.none (nothing : ∀ a ∈ es, a.written? = none) : Written p p' es where
  sorted := List.pairwise_of_forall_mem_list fun a mem b _ i d j e found _ => by
    rw [nothing a mem] at found
    cases found
  each a mem i e found := by
    rw [nothing a mem] at found
    cases found

theorem Written.append (h : Written p p' es) (k : Written p' p'' fs) (longer : Longer p p') (longer' : Longer p' p'') :
    Written p p'' (es ++ fs) where
  sorted := by
    refine List.pairwise_append.mpr ⟨h.sorted, k.sorted, fun a mem b mem' i d j e found found' => ?_⟩
    obtain ⟨-, -, -, low, get⟩ := h.each a mem i d found
    obtain ⟨-, -, -, low', -⟩ := k.each b mem' j e found'
    have := (List.getElem?_eq_some_iff.mp get).1
    omega
  each a mem i e found := by
    rcases List.mem_append.mp mem with old | new
    · obtain ⟨leads, -, term, low, get⟩ := h.each a old i e found
      exact ⟨leads, longer.trans longer', term, low, get_of_prefixed longer'.log get⟩
    · obtain ⟨leads, -, term, low, get⟩ := k.each a new i e found
      exact ⟨longer.name ▸ leads, longer.trans longer', longer.term ▸ term, longer.log.length_le.trans_lt low, get⟩

theorem Commanded.longer (h : Commanded rsm command replyTo p p') : Longer p p' := by
  rcases h.raft with same | asked
  · exact ⟨by rw [same], by rw [same], by rw [same]⟩
  · refine ⟨asked.frame.1, ?_, asked.log⟩
    obtain ⟨-, ⟨entry, same⟩ | same⟩ := asked
    · rw [same]
      rfl
    · rw [same, TRaft.state_approveRead]

theorem Commanded.written (h : Commanded rsm command replyTo p p') :
    ∃ es, p'.events = p.events ++ es ∧ (∀ a ∈ es, a.point? = none) ∧ Written p p' es := by
  have longer := h.longer
  cases h with
  | aside aside =>
    obtain ⟨es, events, asides⟩ := aside.events
    refine ⟨es, events, fun a mem => ?_, .none fun a mem => ?_⟩
    · have := asides a mem
      cases a <;> first | rfl | exact this.elim
    · have := asides a mem
      cases a <;> first | rfl | exact this.elim
  | read kind => exact ⟨_, rfl, by simp [TEvent.point?], .none (by simp [TEvent.written?, kind])⟩
  | strong kind => exact ⟨_, rfl, by simp [TEvent.point?], .none (by simp [TEvent.written?])⟩
  | silent => exact ⟨[], (List.append_nil _).symm, nofun, .none nofun⟩
  | write kind leads heard =>
    refine ⟨_, rfl, by simp [TEvent.point?], List.pairwise_singleton .., ?_⟩
    simp only [List.mem_singleton, forall_eq, TEvent.written?, kind, if_true, Option.map_some, Option.some.injEq, Prod.mk.injEq]
    rintro i e ⟨rfl, rfl⟩
    refine ⟨leads, longer, rfl, ?_, ?_⟩
    all_goals simp [TRaft.append, TRequestProcessor.enqueue, TRequestProcessor.record, TState.index_eq]

theorem Served.written (h : Served rsm p p') :
    Longer p p' ∧ ∃ es, p'.events = p.events ++ es ∧ (∀ a ∈ es, a.point? = none) ∧ Written p p' es := by
  induction h with
  | refl => exact ⟨⟨rfl, rfl, List.prefix_rfl⟩, [], (List.append_nil _).symm, nofun, .none nofun⟩
  | tail _ step ih =>
    obtain ⟨longer, es, events, silent, written⟩ := ih
    obtain ⟨_, _, commanded⟩ := step
    obtain ⟨fs, events', silent', written'⟩ := commanded.written
    refine ⟨longer.trans commanded.longer, es ++ fs, by rw [events', events, List.append_assoc], fun a mem => ?_,
      written.append written' longer commanded.longer⟩
    exact (List.mem_append.mp mem).elim (silent a) (silent' a)

/-- **A call takes requests or answers them.** -/
theorem Handled.written {request : Request} (h : Handled delay rsm p request p') : ∃ es, p'.events = p.events ++ es ∧
    (((∀ a ∈ es, a.point? = none) ∧ Written p p' es) ∨
      (request = .processWaiting ∧ ∀ a ∈ es, ∃ strong w applied seqno reply, a = .answer strong w applied seqno reply)) := by
  cases h with
  | process | processTimeout | append => exact ⟨[], (List.append_nil _).symm, .inl ⟨nofun, .none nofun⟩⟩
  | served h =>
    obtain ⟨-, es, events, silent, written⟩ := Served.written h
    exact ⟨es, events, .inl ⟨silent, written⟩⟩
  | processCommitted =>
    obtain ⟨es, events, -, fits, -⟩ := (processCommitted_applies rsm p).1.events
    refine ⟨es, events, .inl ⟨fun a mem => ?_, .none fun a mem => ?_⟩⟩
    · have := fits a mem
      cases a <;> first | rfl | exact this.elim
    · have := fits a mem
      cases a <;> first | rfl | exact this.elim
  | processWaiting h =>
    obtain ⟨p₁, p₂, rest, strongRest, answers, answers', -, -, rfl⟩ := Answers.of_processWaiting h
    obtain ⟨es, events, all⟩ := answers.replies
    obtain ⟨fs, events', all'⟩ := answers'.replies
    refine ⟨es ++ fs, by rw [← List.append_assoc, ← events]; exact events', .inr ⟨rfl, fun a mem => ?_⟩⟩
    rcases List.mem_append.mp mem with weak | strong
    · obtain ⟨_, _, -, -, -, same⟩ := all a weak
      exact ⟨_, _, _, _, _, same⟩
    · obtain ⟨_, _, -, -, -, same⟩ := all' a strong
      exact ⟨_, _, _, _, _, same⟩

/-! ## What state machines say to writes -/

/-- A write was answered by a machine that had been given the entries before it. -/
def TEvent.WroteIn (rsm : IRsm ρ) (apply : ρ → TLogEntry → ρ) (init : ρ) (log : List TLogEntry) : TEvent → Prop
  | .write i e _ reply => ∃ r : TRsm ρ, r.impl = replay apply init (log.take (i - 1)) ∧
      reply = (rsm.write e i r).1.getD { index := i }
  | _ => True

theorem wroteIn_foldl (replays : rsm.Replays apply) (k : ℕ) {n : ℕ} (low : p.rsm.lastAppliedIndex ≤ n)
    (inside : n + k ≤ p.raft.state.log.length) (machine : p.rsm.impl = replay apply init (p.raft.state.log.take n))
    (shared : ∀ m ≤ n + k, p.raft.state.log.take m = H.take m) (old : ∀ a ∈ p.events, a.WroteIn rsm apply init H) :
    ∀ a ∈ ((List.range' (n + 1) k).foldl (TRequestProcessor.applyEntry rsm) p).events, a.WroteIn rsm apply init H := by
  induction k generalizing p n with
  | zero => simpa using old
  | succ k ih =>
    obtain ⟨low', machine'⟩ := replay_applyEntry replays.on low (by omega) (fun _ _ => trivial) machine
    have same := (applyEntry_applies rsm p (n + 1)).raft
    rw [List.range'_succ, List.foldl_cons]
    refine ih low' (by rw [same]; omega) (by rw [same]; exact machine') (fun m le => ?_) ?_
    · rw [same]
      exact shared m (by omega)
    · unfold TRequestProcessor.applyEntry
      dsimp only
      split
      · exact List.forall_mem_append.mpr ⟨old, List.forall_mem_singleton.mpr trivial⟩
      · refine List.forall_mem_append.mpr ⟨old, List.forall_mem_singleton.mpr ⟨p.rsm, ?_, rfl⟩⟩
        rw [machine, shared n (by omega)]
        rfl

/-- **The writes of a call** are answered by the machine of the entries before them. -/
theorem Handled.wroteIn {request : Request} (replays : rsm.Replays apply) (replica : Replica rsm apply init H p)
    (done : Handled delay rsm p request p') (inside : p.raft.volatileState.commitIndex ≤ p.raft.state.log.length)
    (old : ∀ a ∈ p.events, a.WroteIn rsm apply init H) : ∀ a ∈ p'.events, a.WroteIn rsm apply init H := by
  rcases done.reading replays.on with ⟨-, rfl⟩ | reading
  · have behind := replica.behind
    have shared (m : ℕ) (le : m ≤ p.raft.volatileState.commitIndex) : p.raft.state.log.take m = H.take m := by
      rw [← min_eq_left le, ← List.take_take, ← List.take_take, replica.committed]
    have all := wroteIn_foldl replays (p.raft.volatileState.commitIndex - p.rsm.lastAppliedIndex) le_rfl (by omega)
      (by rw [shared _ behind, replica.machine]) (fun m le => shared m (by omega)) old
    rwa [← Nat.add_sub_add_right _ 1] at all
  · obtain ⟨es, events, reads⟩ := reading.events
    rw [events]
    refine List.forall_mem_append.mpr ⟨old, fun a mem => ?_⟩
    have := reads a mem
    cases a with
    | write => exact this.elim
    | _ => trivial

/-- The sequence may go on. -/
theorem TEvent.WroteIn.mono (grows : H <+: H') {a : TEvent} (inside : ∀ i e, a.applied? = some (i, e) → i ≤ H.length)
    (wrote : a.WroteIn rsm apply init H) : a.WroteIn rsm apply init H' := by
  cases a with
  | write i e applied reply =>
    obtain ⟨r, machine, said⟩ := wrote
    have := inside i e rfl
    exact ⟨r, by rw [machine, take_of_prefixed grows (by omega)], said⟩
  | _ => trivial

/-! ## Runs with their events -/

namespace System

/-- The events of a step. -/
def news (P : System ρ) (label : Label) (P' : System ρ) : List (ℕ × TEvent) :=
  ((P' label.server).events.drop (P label.server).events.length).map (label.server, ·)

/-- A run whose steps satisfy `ok`, with the events of all servers in the order in which they happened. -/
inductive Traced (delay : UInt32 → ℕ) (lim : ℕ) (ids : Finset ℕ) (rsm : IRsm ρ) (ok : System ρ → Label → System ρ → Prop)
    (start : System ρ) : List (ℕ × TEvent) → System ρ → Prop where
  | start : Traced delay lim ids rsm ok start [] start
  | step {l : List (ℕ × TEvent)} {P P' : System ρ} {label : Label} (before : Traced delay lim ids rsm ok start l P)
      (fits : ok P label P') (st : Step delay lim ids rsm P label P') :
      Traced delay lim ids rsm ok start (l ++ news P label P') P'

theorem Run.traced {ok : System ρ → Label → System ρ → Prop} {start : System ρ} (run : Run delay lim ids rsm ok start P) :
    ∃ l, Traced delay lim ids rsm ok start l P := by
  induction run with
  | refl => exact ⟨[], .start⟩
  | tail _ step ih =>
    obtain ⟨l, traced⟩ := ih
    obtain ⟨_, fits, st⟩ := step
    exact ⟨_, .step traced fits st⟩

theorem Step.events (st : Step delay lim ids rsm P label P') (x : ℕ) : (P x).events <+: (P' x).events := by
  rcases st.reacts x with same | ⟨-, request, -, -, done⟩ | ⟨-, -, restored, same⟩
  · rw [same]
  · obtain ⟨es, events, -⟩ := (Handled.of_handle done).replies
    exact events ▸ List.prefix_append ..
  · rw [same]
    exact List.prefix_rfl

theorem news_eq (events : (P' label.server).events = (P label.server).events ++ es) :
    news P label P' = es.map (label.server, ·) := by rw [news, events, List.drop_left]

/-- **What happens in a step**: nothing, or a call takes requests or answers them. -/
theorem Step.news (st : Step delay lim ids rsm P label P') : news P label P' = [] ∨ ∃ s ∈ ids, ∃ request es,
    label = .call s request ∧ Handled delay rsm (P s) request (P' s) ∧ (P' s).events = (P s).events ++ es ∧
      System.news P label P' = es.map (s, ·) ∧
      (((∀ a ∈ es, a.point? = none) ∧ Written (P s) (P' s) es) ∨ (request = .processWaiting ∧
        ∀ a ∈ es, ∃ strong w applied seqno reply, a = .answer strong w applied seqno reply)) := by
  have nothing (same : (P' label.server).events = (P label.server).events) : System.news P label P' = [] := by
    rw [System.news, same, List.drop_length, List.map_nil]
  rcases st.reacts label.server with same | ⟨mem, request, own, -, done⟩ | ⟨-, -, restored, same⟩
  · exact .inl (nothing (by rw [same]))
  · have handled := Handled.of_handle done
    obtain ⟨es, events, kind⟩ := handled.written
    exact .inr ⟨label.server, mem, request, es, own, handled, events, news_eq events, kind⟩
  · exact .inl (nothing (by rw [same]; rfl))

/-- What the order of requests rests on: state machines are lost with their process, no batch replaces the entry of a waiting
write, `ProcessWaiting` finds applied what is committed, tickets are below `2 ^ 32`, and the consistent reads that it answers
have been acknowledged by enough servers. -/
structure Guarded (delay : UInt32 → ℕ) (ids : Finset ℕ) (init : ρ) (P : System ρ) (label : Label) (P' : System ρ) : Prop where
  refreshes : Refreshes init P label P'
  spared : Spared delay P label P'
  tickets : ∀ s ∈ ids, (P' s).raft.seqno < 2 ^ 32
  caught : ∀ s, label.waits s → (P s).rsm.lastAppliedIndex = (P s).raft.volatileState.commitIndex
  enough : ∀ s, label.waits s → ids.card ≤ 4 ∨ ∀ w ∈ (P s).strongWaiting, w.seqno ≤ (P s).raft.commitSeqno →
    ids.card - ids.card / 2 ≤ (approvals ids P.rafts s (P s).raft.state.currentTerm w.seqno).card + 1

end System

/-! ## The order -/

/-- Where an element of two lists is. -/
theorem split_append {α : Type*} {l k l₁ l₂ : List α} {c : α} (split : l ++ k = l₁ ++ c :: l₂) :
    (∃ m, l = l₁ ++ c :: m ∧ l₂ = m ++ k) ∨ ∃ m, l₁ = l ++ m ∧ k = m ++ c :: l₂ := by
  rcases List.append_eq_append_iff.mp split with ⟨m, left, right⟩ | ⟨m, left, right⟩
  · exact .inr ⟨m, left, right⟩
  · cases m with
    | nil => exact .inr ⟨[], by simpa using left.symm, by simpa using right.symm⟩
    | cons b m =>
      obtain ⟨rfl, rfl⟩ := List.cons.inj right
      exact .inl ⟨m, left, rfl⟩

/-- Request `a` was answered with what was committed at the time. -/
def Placed (ids : Finset ℕ) (h : History) (a : TEvent) : Prop :=
  ∀ n, a.point? = some n → ∃ t q, Decided ids h t q ∧ q.length = n

/-- When the read `w` was accepted by `x`, the requests in `l` had been answered. -/
def Accepted (delay : UInt32 → ℕ) (ids : Finset ℕ) (rsm : IRsm ρ) (l : List (ℕ × TEvent)) (x : ℕ) (w : TWaiting)
    (P : System ρ) : Prop :=
  ∃ (P₀ : System ρ) (h₀ : History), Agrees (2 ^ 31) ids h₀ P₀.rafts ∧ Pinging ids P₀.rafts ∧ x ∈ ids ∧
    (P₀ x).raft.stateName = .leader ∧ (P₀ x).raft.state.log.length ≤ w.index ∧ (P₀ x).raft.seqno ≤ w.seqno ∧
    System.Later delay (2 ^ 31) ids rsm P₀ P ∧ ∀ a ∈ l, Placed ids h₀ a.2

/-- Whatever was answered before the write `b` was taken is not behind it. -/
def Before (ids : Finset ℕ) (h : History) (a b : TEvent) : Prop :=
  ∀ n j e, a.point? = some n → b.written? = some (j, e) → ∃ t q, Decided ids h t q ∧ q.length = n ∧ q[j - 1]? ≠ some e

/-- Of two writes of one term the later one has the higher index. -/
def Apart (a b : TEvent) : Prop :=
  ∀ i d j e, a.written? = some (i, d) → b.written? = some (j, e) → d.term = e.term → i < j

/-- The events `l` of a run to `P`, in which `H` has been committed. -/
structure Linear (delay : UInt32 → ℕ) (ids : Finset ℕ) (rsm : IRsm ρ) (apply : ρ → TLogEntry → ρ) (init : ρ) (h : History)
    (H : List TLogEntry) (l : List (ℕ × TEvent)) (P : System ρ) : Prop where
  replicated : Replicated (2 ^ 31) ids rsm apply init h H P
  pinging : Pinging ids P.rafts
  faithful : ∀ s ∈ ids, Faithful (P s)
  wrote : ∀ s ∈ ids, ∀ a ∈ (P s).events, a.WroteIn rsm apply init H
  happened : ∀ a ∈ l, a.1 ∈ ids ∧ a.2 ∈ (P a.1).events
  placed : ∀ a ∈ l, Placed ids h a.2
  written : ∀ a ∈ l, ∀ i e, a.2.written? = some (i, e) → 1 ≤ i ∧ (h.llog e.term)[i - 1]? = some e
  apart : l.Pairwise fun a b => Apart a.2 b.2
  before : l.Pairwise fun a b => Before ids h a.2 b.2
  reads : ∀ l₁ x w l₂, l = l₁ ++ (x, .queue true w) :: l₂ → Accepted delay ids rsm l₁ x w P ∧
    ∀ applied seqno reply, (x, .answer true w applied seqno reply) ∈ l₂ → ∀ a ∈ l₁, ∀ n, a.2.point? = some n → n ≤ applied

theorem Placed.mono (le : h.Le h') (placed : Placed ids h a) : Placed ids h' a := by
  intro n point
  obtain ⟨t, q, decided, len⟩ := placed n point
  exact ⟨t, q, decided.mono le le_rfl, len⟩

theorem Before.mono {b : TEvent} (le : h.Le h') (before : Before ids h a b) : Before ids h' a b := by
  intro n j e point written
  obtain ⟨t, q, decided, len, other⟩ := before n j e point written
  exact ⟨t, q, decided.mono le le_rfl, len, other⟩

theorem Accepted.step {l : List (ℕ × TEvent)} {w : TWaiting} (accepted : Accepted delay ids rsm l x w P)
    (st : System.Step delay (2 ^ 31) ids rsm P label P') : Accepted delay ids rsm l x w P' := by
  obtain ⟨P₀, h₀, agrees, pinging, mem, leads, index, ticket, later, placed⟩ := accepted
  exact ⟨P₀, h₀, agrees, pinging, mem, leads, index, ticket, later.tail ⟨label, trivial, st⟩, placed⟩

/-- An entry that its leader has not appended yet is not decided. -/
theorem not_get_of_decided (inv : h.Inv (majority ids) TLogEntry.term) {t : ℕ} {q : List TLogEntry}
    (decided : Decided ids h t q) (beyond : (h.llog e.term).length < j) : q[j - 1]? ≠ some e := by
  intro get
  rcases decided with rfl | ⟨u, -, i, -, -, part⟩
  · cases get
  · have here := get_of_prefixed part get
    have held := (inv.logs.llogCo u (j - 1) e here).length_le
    have inside := (List.getElem?_eq_some_iff.mp here).1
    rw [List.length_take] at held
    omega

theorem approvals_mono {c : Cluster} {T U k : ℕ} (le : T ≤ U) : approvals ids c s U k ⊆ approvals ids c s T k := by
  intro y mem
  obtain ⟨peer, approves⟩ := Finset.mem_filter.mp mem
  obtain ⟨t, k', term, number, acked⟩ := TRaft.approves_iff.mp approves
  exact Finset.mem_filter.mpr ⟨peer, TRaft.approves_iff.mpr ⟨t, k', le.trans term, number, acked⟩⟩

/-- **A consistent read sees what was answered before it was accepted.** -/
theorem Accepted.answered {l : List (ℕ × TEvent)} {w : TWaiting} (accepted : Accepted delay ids rsm l x w P)
    (due : Due (P x) true w) (caught : (P x).rsm.lastAppliedIndex = (P x).raft.volatileState.commitIndex)
    (enough : ids.card ≤ 4 ∨
      ids.card - ids.card / 2 ≤ (approvals ids P.rafts x (P x).raft.state.currentTerm w.seqno).card + 1) :
    ∀ a ∈ l, ∀ n, a.2.point? = some n → n ≤ (P x).rsm.lastAppliedIndex := by
  obtain ⟨P₀, h₀, agrees, pinging, mem, leads, index, ticket, later, placed⟩ := accepted
  intro a there n point
  obtain ⟨t, q, decided, rfl⟩ := placed a there n point
  rcases Nat.eq_zero_or_pos q.length with none_ | some_
  · omega
  obtain ⟨h₁, le, agrees₁⟩ := agrees.later (by decide) later.rafts
  have terms : (P₀ x).raft.state.currentTerm ≤ (P x).raft.state.currentTerm := by
    have := le.term x
    rwa [(agrees.sim x mem).term, (agrees₁.sim x mem).term] at this
  have enough := enough.imp_right fun many =>
    many.trans (Nat.add_le_add_right (Finset.card_le_card (approvals_mono terms)) 1)
  have low := due.index
  rcases agrees.ticket pinging le_rfl mem leads ticket decided some_ later.rafts (due.seqno rfl) enough with short | high
  · have : q.length ≤ w.index := short.trans index
    omega
  · exact high.trans caught.ge

/-- **An answer is placed** in what is committed. -/
theorem Handled.placed {request : Request} {strong : Bool} {w : TWaiting} {applied seqno : ℕ} {reply : TCommandResponse}
    (done : Handled delay rsm p request p') (events : p'.events = p.events ++ es)
    (answered : .answer strong w applied seqno reply ∈ es) (replica : Replica rsm apply init H p)
    (replica' : Replica rsm apply init H' p') (faithful : Faithful p') {t u : ℕ} (decided : Decided ids h t H)
    (decided' : Decided ids h u H') : Placed ids h (.answer strong w applied seqno reply) := by
  obtain ⟨fs, events', replies⟩ := done.replies
  obtain rfl : fs = es := List.append_cancel_left (events'.symm.trans events)
  intro n point
  cases strong with
  | true =>
    obtain ⟨-, -, same, -⟩ := replies _ _ _ _ _ answered
    obtain rfl : applied = n := Option.some.inj point
    have reaches := replica.behind.trans replica.reaches
    exact ⟨t, H.take applied, decided.of_prefixed (List.take_prefix ..), List.length_take_of_le (same ▸ reaches)⟩
  | false =>
    have kind : w.command.isWrite := by
      by_contra other
      simp [TEvent.point?, other] at point
    obtain rfl : w.index = n := by simpa [TEvent.point?, kind] using point
    have there : .answer false w applied seqno reply ∈ p'.events := events ▸ List.mem_append_right _ answered
    obtain ⟨e, before, r, -, written, -⟩ := faithful.honored _ there kind
    obtain ⟨low, get⟩ := replica'.applied w.index e (List.mem_filterMap.mpr ⟨_, written, rfl⟩)
    have inside := (List.getElem?_eq_some_iff.mp get).1
    exact ⟨u, H'.take w.index, decided'.of_prefixed (List.take_prefix ..), List.length_take_of_le (by omega)⟩

namespace Linear

variable {l : List (ℕ × TEvent)}

theorem start {start : System ρ} (fresh : System.Start ids start) (empty : ∀ s ∈ ids, (start s).rsm = { impl := init }) :
    Linear delay ids rsm apply init .start [] [] start where
  replicated := .start (by decide) fresh empty
  pinging := .start fresh.1
  faithful s mem := .start fresh mem
  wrote s mem a there := by
    rw [fresh.2 s mem] at there
    exact absurd there List.not_mem_nil
  happened := nofun
  placed := nofun
  written := nofun
  apart := .nil
  before := .nil
  reads l₁ x w l₂ split := absurd (congrArg List.length split) (by simp)

/-- The old events in the new state. -/
theorem advance (replays : rsm.Replays apply) (linear : Linear delay ids rsm apply init h H l P)
    (guarded : System.Guarded delay ids init P label P') (st : System.Step delay (2 ^ 31) ids rsm P label P') :
    ∃ h' H', h.Le h' ∧ H <+: H' ∧ Linear delay ids rsm apply init h' H' l P' := by
  have con := linear.replicated.consistent
  obtain ⟨h', H', le, grows, after⟩ := linear.replicated.step replays le_rfl guarded.refreshes st
  have old (x : ℕ) (mem : x ∈ ids) : ∀ a ∈ (P x).events, a.WroteIn rsm apply init H' := fun a there =>
    (linear.wrote x mem a there).mono grows fun i e same => by
      obtain ⟨low, get⟩ := (linear.replicated.replica x mem).applied i e (List.mem_filterMap.mpr ⟨a, there, same⟩)
      have := (List.getElem?_eq_some_iff.mp get).1
      omega
  refine ⟨h', H', le, grows, after, linear.pinging.later con.agrees (by decide) st.rafts,
    .step con le_rfl guarded.spared linear.faithful st, fun x mem => ?_, fun a there => ?_, fun a there => ?_,
    fun a there i e found => ?_, linear.apart, linear.before.imp fun before => before.mono le, fun l₁ x w l₂ split => ?_⟩
  · rcases st.reacts x with same | ⟨-, request, -, -, done⟩ | ⟨-, -, restored, same⟩
    · rw [same]
      exact old x mem
    · exact Handled.wroteIn replays ((linear.replicated.replica x mem).mono grows) (.of_handle done)
        ((con.agrees.sim x mem).commit le_rfl).1 (old x mem)
    · rw [same]
      exact old x mem
  · obtain ⟨mem, here⟩ := linear.happened a there
    exact ⟨mem, (st.events a.1).subset here⟩
  · exact (linear.placed a there).mono le
  · obtain ⟨low, get⟩ := linear.written a there i e found
    exact ⟨low, get_of_prefixed (le.llog _) get⟩
  · obtain ⟨accepted, seen⟩ := linear.reads l₁ x w l₂ split
    exact ⟨accepted.step st, seen⟩

/-- A call has taken requests. -/
theorem taken {request : Request} (linear : Linear delay ids rsm apply init h H l P)
    (linear' : Linear delay ids rsm apply init h' H' l P') (le : h.Le h') (tickets : (P' s).raft.seqno < 2 ^ 32)
    (mem : s ∈ ids) (st : System.Step delay (2 ^ 31) ids rsm P label P') (done : Handled delay rsm (P s) request (P' s))
    (events : (P' s).events = (P s).events ++ es) (silent : ∀ a ∈ es, a.point? = none) (written : Written (P s) (P' s) es) :
    Linear delay ids rsm apply init h' H' (l ++ es.map (s, ·)) P' := by
  have agrees := linear.replicated.consistent.agrees
  have agrees' := linear'.replicated.consistent.agrees
  have whole {a : TEvent} (there : a ∈ es) {i : ℕ} {e : TLogEntry} (found : a.written? = some (i, e)) :
      (h.llog e.term).length < i ∧ (h'.llog e.term)[i - 1]? = some e := by
    obtain ⟨leads, longer, term, low, get⟩ := written.each a there i e found
    have own : (P s).raft.state.log = h.llog (P s).raft.state.currentTerm := (agrees.whole mem leads).2
    have own' : (P' s).raft.state.log = h'.llog (P' s).raft.state.currentTerm := (agrees'.whole mem (longer.name ▸ leads)).2
    rw [own] at low
    rw [own', longer.term] at get
    rw [term]
    exact ⟨low, get⟩
  have quiet {a : ℕ × TEvent} (there : a ∈ es.map (s, ·)) : a.2.point? = none := by
    obtain ⟨b, mem', rfl⟩ := List.mem_map.mp there
    exact silent b mem'
  refine ⟨linear'.replicated, linear'.pinging, linear'.faithful, linear'.wrote,
    List.forall_mem_append.mpr ⟨linear'.happened, ?_⟩, List.forall_mem_append.mpr ⟨linear'.placed, ?_⟩,
    List.forall_mem_append.mpr ⟨linear'.written, ?_⟩,
    List.pairwise_append.mpr ⟨linear'.apart, ?_, ?_⟩, List.pairwise_append.mpr ⟨linear'.before, ?_, ?_⟩, ?_⟩
  · refine List.forall_mem_map.mpr fun a there => ⟨mem, ?_⟩
    dsimp only
    rw [events]
    exact List.mem_append_right _ there
  · intro a there n point
    rw [quiet there] at point
    cases point
  · refine List.forall_mem_map.mpr fun a there i e found => ?_
    obtain ⟨low, get⟩ := whole there found
    exact ⟨by omega, get⟩
  · refine List.pairwise_map.mpr (written.sorted.imp fun apart i d j e found found' _ => ?_)
    exact apart i d j e found found'
  · intro a old b new i d j e found found' same
    obtain ⟨c, there, rfl⟩ := List.mem_map.mp new
    -- the leader had the older entry in its log when it took the write
    obtain ⟨low, get⟩ := linear.written a old i d found
    have inside := (List.getElem?_eq_some_iff.mp get).1
    have beyond := (whole there found').1
    rw [same] at inside
    omega
  · refine List.pairwise_of_forall_mem_list fun a there b _ n j e point _ => ?_
    rw [quiet there] at point
    cases point
  · intro a old b new n j e point found
    obtain ⟨c, there, rfl⟩ := List.mem_map.mp new
    obtain ⟨t, q, decided, len⟩ := linear.placed a old n point
    exact ⟨t, q, decided.mono le le_rfl, len, not_get_of_decided agrees.inv decided (whole there found).1⟩
  · intro l₁ x w l₂ split
    rcases split_append split with ⟨m, left, rfl⟩ | ⟨m, rfl, right⟩
    · obtain ⟨accepted, seen⟩ := linear'.reads l₁ x w m left
      refine ⟨accepted, fun applied seqno reply answered => ?_⟩
      rcases List.mem_append.mp answered with old | new
      · exact seen applied seqno reply old
      · cases quiet new
    · have here : (x, TEvent.queue true w) ∈ es.map (s, ·) := right ▸ List.mem_append_right _ List.mem_cons_self
      obtain ⟨b, there, same⟩ := List.mem_map.mp here
      obtain ⟨rfl, rfl⟩ := Prod.mk.inj same
      obtain ⟨leads, index, ticket⟩ := done.strong_queued ⟨es, events, there⟩ tickets
      have later : System.Later delay (2 ^ 31) ids rsm P P' := .single ⟨label, trivial, st⟩
      refine ⟨⟨P, h, agrees, linear.pinging, mem, leads, index, ticket, later, ?_⟩, fun applied seqno reply answered => ?_⟩
      · refine List.forall_mem_append.mpr ⟨linear.placed, fun a there n point => ?_⟩
        rw [quiet (right ▸ List.mem_append_left _ there)] at point
        cases point
      · cases quiet (right ▸ List.mem_append_right _ (List.mem_cons_of_mem _ answered))

/-- `ProcessWaiting` has answered requests. -/
theorem answered (linear : Linear delay ids rsm apply init h H l P) (linear' : Linear delay ids rsm apply init h' H' l P')
    (le : h.Le h') (guarded : System.Guarded delay ids init P (.call s .processWaiting) P') (mem : s ∈ ids)
    (done : Handled delay rsm (P s) .processWaiting (P' s)) (events : (P' s).events = (P s).events ++ es)
    (answers : ∀ a ∈ es, ∃ strong w applied seqno reply, a = .answer strong w applied seqno reply) :
    Linear delay ids rsm apply init h' H' (l ++ es.map (s, ·)) P' := by
  have idle {a : ℕ × TEvent} (there : a ∈ es.map (s, ·)) : a.2.written? = none ∧ ∀ w, a.2 ≠ .queue true w := by
    obtain ⟨b, mem', rfl⟩ := List.mem_map.mp there
    obtain ⟨strong, w, applied, seqno, reply, rfl⟩ := answers b mem'
    exact ⟨by cases strong <;> rfl, nofun⟩
  refine ⟨linear'.replicated, linear'.pinging, linear'.faithful, linear'.wrote,
    List.forall_mem_append.mpr ⟨linear'.happened, ?_⟩, List.forall_mem_append.mpr ⟨linear'.placed, ?_⟩,
    List.forall_mem_append.mpr ⟨linear'.written, ?_⟩,
    List.pairwise_append.mpr ⟨linear'.apart, ?_, ?_⟩, List.pairwise_append.mpr ⟨linear'.before, ?_, ?_⟩, ?_⟩
  · refine List.forall_mem_map.mpr fun a there => ⟨mem, ?_⟩
    dsimp only
    rw [events]
    exact List.mem_append_right _ there
  · refine List.forall_mem_map.mpr fun a there => ?_
    obtain ⟨strong, w, applied, seqno, reply, rfl⟩ := answers a there
    obtain ⟨t, decided⟩ := linear.replicated.decided
    obtain ⟨u, decided'⟩ := linear'.replicated.decided
    exact done.placed events there (linear.replicated.replica s mem) (linear'.replicated.replica s mem) (linear'.faithful s mem)
      (decided.mono le le_rfl) decided'
  · intro a there i e found
    rw [(idle there).1] at found
    cases found
  · refine List.pairwise_of_forall_mem_list fun a there b _ i d j e found _ => ?_
    rw [(idle there).1] at found
    cases found
  · intro a old b new i d j e _ found
    rw [(idle new).1] at found
    cases found
  · refine List.pairwise_of_forall_mem_list fun a _ b there n j e _ found => ?_
    rw [(idle there).1] at found
    cases found
  · intro a old b new n j e _ found
    rw [(idle new).1] at found
    cases found
  · intro l₁ x w l₂ split
    rcases split_append split with ⟨m, left, rfl⟩ | ⟨m, rfl, right⟩
    · obtain ⟨accepted', seen⟩ := linear'.reads l₁ x w m left
      refine ⟨accepted', fun applied seqno reply there => ?_⟩
      rcases List.mem_append.mp there with old | new
      · exact seen applied seqno reply old
      · obtain ⟨b, there, same⟩ := List.mem_map.mp new
        obtain ⟨rfl, rfl⟩ := Prod.mk.inj same
        obtain ⟨fs, events', replies⟩ := done.replies
        obtain rfl : fs = es := List.append_cancel_left (events'.symm.trans events)
        obtain ⟨due, -, rfl, -⟩ := replies _ _ _ _ _ there
        refine (linear.reads l₁ s w m left).1.answered due (guarded.caught s (decide_eq_true rfl)) ?_
        exact (guarded.enough s (decide_eq_true rfl)).imp_right fun many => many w due.waits (due.seqno rfl)
    · have here : (x, TEvent.queue true w) ∈ es.map (s, ·) := right ▸ List.mem_append_right _ List.mem_cons_self
      exact absurd rfl ((idle here).2 w)

/-- **One step.** -/
theorem step (replays : rsm.Replays apply) (linear : Linear delay ids rsm apply init h H l P)
    (guarded : System.Guarded delay ids init P label P') (st : System.Step delay (2 ^ 31) ids rsm P label P') :
    ∃ h' H', H <+: H' ∧ Linear delay ids rsm apply init h' H' (l ++ System.news P label P') P' := by
  obtain ⟨h', H', le, grows, linear'⟩ := linear.advance replays guarded st
  refine ⟨h', H', grows, ?_⟩
  rcases st.news with nothing | ⟨s, mem, request, es, rfl, done, events, news, ⟨silent, written⟩ | ⟨rfl, answers⟩⟩
  · rwa [nothing, List.append_nil]
  · rw [news]
    exact linear.taken linear' le (guarded.tickets s mem) mem st done events silent written
  · rw [news]
    exact linear.answered linear' le guarded mem done events answers

theorem of_traced (replays : rsm.Replays apply) {start : System ρ} (fresh : System.Start ids start)
    (empty : ∀ s ∈ ids, (start s).rsm = { impl := init })
    (run : System.Traced delay (2 ^ 31) ids rsm (System.Guarded delay ids init) start l P) :
    ∃ h H, Linear delay ids rsm apply init h H l P := by
  induction run with
  | start => exact ⟨_, _, .start fresh empty⟩
  | step _ guarded st ih =>
    obtain ⟨h, H, linear⟩ := ih
    obtain ⟨h', H', -, linear'⟩ := linear.step replays guarded st
    exact ⟨h', H', linear'⟩

end Linear

/-! ## Requests and answers -/

theorem of_queued {strong : Bool} {v w : TWaiting} {queue : List TWaiting} (waits : w ∈ queue ++ [v]) :
    w ∈ queue ∨ .queue strong w ∈ [TEvent.queue strong v] := by
  rcases List.mem_append.mp waits with old | new
  · exact .inl old
  · obtain rfl := List.mem_singleton.mp new
    exact .inr (List.mem_singleton.mpr rfl)

theorem Commanded.queued (h : Commanded rsm command replyTo p p') : ∃ es, p'.events = p.events ++ es ∧
    ∀ strong, ∀ w ∈ p'.queue strong, w ∈ p.queue strong ∨ .queue strong w ∈ es := by
  cases h with
  | aside aside =>
    obtain ⟨es, events, -⟩ := aside.events
    refine ⟨es, events, fun strong w waits => .inl ?_⟩
    unfold TRequestProcessor.queue at waits ⊢
    rwa [aside.waiting, aside.strongWaiting] at waits
  | read | write =>
    refine ⟨_, rfl, fun strong w waits => ?_⟩
    cases strong with
    | true => exact .inl waits
    | false => exact of_queued waits
  | strong =>
    refine ⟨_, rfl, fun strong w waits => ?_⟩
    cases strong with
    | true => exact of_queued waits
    | false => exact .inl waits
  | silent => exact ⟨[], (List.append_nil _).symm, fun _ _ waits => .inl waits⟩

/-- What waits after a call has waited before, or was queued by it. -/
theorem Handled.queued {request : Request} (h : Handled delay rsm p request p') : ∃ es, p'.events = p.events ++ es ∧
    ∀ strong, ∀ w ∈ p'.queue strong, w ∈ p.queue strong ∨ .queue strong w ∈ es := by
  cases h with
  | process | processTimeout | append => exact ⟨[], (List.append_nil _).symm, fun _ _ waits => .inl waits⟩
  | served h =>
    induction h with
    | refl => exact ⟨[], (List.append_nil _).symm, fun _ _ waits => .inl waits⟩
    | tail _ step ih =>
      obtain ⟨es, events, all⟩ := ih
      obtain ⟨_, _, commanded⟩ := step
      obtain ⟨fs, events', all'⟩ := commanded.queued
      refine ⟨es ++ fs, by rw [events', events, List.append_assoc], fun strong w waits => ?_⟩
      rcases all' strong w waits with old | new
      · exact (all strong w old).imp_right (List.mem_append_left _)
      · exact .inr (List.mem_append_right _ new)
  | processCommitted =>
    have all := (processCommitted_applies rsm p).1
    obtain ⟨es, events, -⟩ := all.events
    refine ⟨es, events, fun strong w waits => .inl ?_⟩
    unfold TRequestProcessor.queue at waits ⊢
    rwa [all.waiting, all.strongWaiting] at waits
  | processWaiting h =>
    obtain ⟨p₁, p₂, rest, strongRest, answers, answers', part, part', rfl⟩ := Answers.of_processWaiting h
    obtain ⟨es, events, -⟩ := (Handled.processWaiting h : Handled delay rsm p _ _).replies
    refine ⟨es, events, fun strong w waits => .inl ?_⟩
    cases strong with
    | true => exact part'.subset waits
    | false =>
      have waiting : p₂.waiting = rest := answers'.frame.waiting
      exact part.subset (waiting ▸ waits : w ∈ rest)

/-- **What was answered was taken before**, and so was what waits. -/
theorem System.Traced.asked {ok : System ρ → System.Label → System ρ → Prop} {start : System ρ} (fresh : System.Start ids start)
    {l : List (ℕ × TEvent)} (run : System.Traced delay lim ids rsm ok start l P) :
    (∀ s ∈ ids, ∀ strong, ∀ w ∈ (P s).queue strong, (s, .queue strong w) ∈ l) ∧
    ∀ l₁ s strong w applied seqno reply l₂, l = l₁ ++ (s, .answer strong w applied seqno reply) :: l₂ →
      (s, .queue strong w) ∈ l₁ := by
  induction run with
  | start =>
    refine ⟨fun s mem strong w waits => ?_, fun l₁ s strong w applied seqno reply l₂ split => by simp at split⟩
    rw [fresh.2 s mem] at waits
    cases strong <;> cases waits
  | @step l P P' label _ _ st ih =>
    obtain ⟨waiting, asked⟩ := ih
    refine ⟨fun x mem strong w waits => ?_, fun l₁ x strong w applied seqno reply l₂ split => ?_⟩
    · rcases st.reacts x with same | ⟨-, request, rfl, -, done⟩ | ⟨-, -, restored, same⟩
      · rw [same] at waits
        exact List.mem_append_left _ (waiting x mem strong w waits)
      · obtain ⟨es, events, queued⟩ := (Handled.of_handle done).queued
        rcases queued strong w waits with old | new
        · exact List.mem_append_left _ (waiting x mem strong w old)
        · have news : System.news P (.call x request) P' = es.map (x, ·) := System.news_eq events
          exact List.mem_append_right _ (news ▸ List.mem_map.mpr ⟨_, new, rfl⟩)
      · rw [same] at waits
        cases strong <;> cases waits
    · rcases split_append split with ⟨m, left, rfl⟩ | ⟨m, rfl, right⟩
      · exact asked l₁ x strong w applied seqno reply m left
      · have here : (x, TEvent.answer strong w applied seqno reply) ∈ System.news P label P' :=
          right ▸ List.mem_append_right _ List.mem_cons_self
        rcases st.news with nothing | ⟨s, mem, request, es, rfl, done, events, news, -⟩
        · rw [nothing] at here
          cases here
        · rw [news] at here
          obtain ⟨b, there, same⟩ := List.mem_map.mp here
          obtain ⟨rfl, rfl⟩ := Prod.mk.inj same
          obtain ⟨fs, events', replies⟩ := done.replies
          obtain rfl : fs = es := List.append_cancel_left (events'.symm.trans events)
          obtain ⟨due, -⟩ := replies _ _ _ _ _ there
          exact List.mem_append_left _ (waiting s mem strong w due.waits)

/-! ## Main results -/

/-- The request was answered. -/
def Replied (l : List (ℕ × TEvent)) (strong : Bool) (w : TWaiting) : Prop :=
  ∃ s applied seqno reply, (s, .answer strong w applied seqno reply) ∈ l

/-- Every write and every consistent read has a place in the sequence `H` of committed entries. -/
structure Linearized (rsm : IRsm ρ) (apply : ρ → TLogEntry → ρ) (init : ρ) (H : List TLogEntry)
    (l : List (ℕ × TEvent)) : Prop where
  /-- What is answered was asked before. -/
  asked : ∀ l₁ s strong w applied seqno reply l₂, l = l₁ ++ (s, .answer strong w applied seqno reply) :: l₂ →
    (s, .queue strong w) ∈ l₁
  /-- A write is answered by the machine that has been given the entries before its own. -/
  write : ∀ s w applied seqno reply, (s, .answer false w applied seqno reply) ∈ l → w.command.isWrite →
    ∃ e, w.entry = some e ∧ 1 ≤ w.index ∧ H[w.index - 1]? = some e ∧ ∃ r : TRsm ρ,
      r.impl = replay apply init (H.take (w.index - 1)) ∧
      reply = { (rsm.write e w.index r).1.getD { index := w.index } with cookie := w.command.cookie }
  /-- A read is answered by the machine that has been given what was applied. -/
  read : ∀ s strong w applied seqno reply, (s, .answer strong w applied seqno reply) ∈ l → w.command.isWrite = false →
    applied ≤ H.length ∧ ∃ r,
      (rsm.read w.command w.index { lastAppliedIndex := applied, impl := replay apply init (H.take applied) }).1 = some r ∧
      reply = { r with cookie := w.command.cookie }
  /-- No two writes have one place. -/
  distinct : l.Pairwise fun a b => ∀ w w', a.2 = .queue false w → b.2 = .queue false w' → w.command.isWrite →
    w'.command.isWrite → Replied l false w → Replied l false w' → w.index ≠ w'.index
  /-- A write comes behind all that were answered before it was taken. -/
  write_after : ∀ l₁ x w l₂, l = l₁ ++ (x, .queue false w) :: l₂ → w.command.isWrite → Replied l false w →
    ∀ a ∈ l₁, ∀ n, a.2.point? = some n → n < w.index
  /-- A consistent read sees all that were answered before it was taken. -/
  read_after : ∀ l₁ x w l₂, l = l₁ ++ (x, .queue true w) :: l₂ →
    ∀ applied seqno reply, (x, .answer true w applied seqno reply) ∈ l₂ → ∀ a ∈ l₁, ∀ n, a.2.point? = some n → n ≤ applied

namespace Linear

variable {l : List (ℕ × TEvent)} {w : TWaiting} {applied seqno : ℕ} {reply : TCommandResponse}

/-- The entry of an answered write is committed at its index. -/
theorem write (linear : Linear delay ids rsm apply init h H l P) (answered : (s, .answer false w applied seqno reply) ∈ l)
    (kind : w.command.isWrite) : ∃ e, w.entry = some e ∧ 1 ≤ w.index ∧ H[w.index - 1]? = some e ∧ ∃ r : TRsm ρ,
      r.impl = replay apply init (H.take (w.index - 1)) ∧
      reply = { (rsm.write e w.index r).1.getD { index := w.index } with cookie := w.command.cookie } := by
  obtain ⟨mem, here⟩ := linear.happened _ answered
  obtain ⟨e, before, r, own, written, same⟩ := (linear.faithful s mem).honored _ here kind
  obtain ⟨low, get⟩ := (linear.replicated.replica s mem).applied w.index e (List.mem_filterMap.mpr ⟨_, written, rfl⟩)
  obtain ⟨m, machine, said⟩ := linear.wrote s mem _ written
  exact ⟨e, own, low, get, m, machine, said ▸ same⟩

theorem write_after (linear : Linear delay ids rsm apply init h H l P) {l₁ l₂ : List (ℕ × TEvent)}
    (split : l = l₁ ++ (x, .queue false w) :: l₂) (kind : w.command.isWrite)
    (replied : Replied l false w) {a : ℕ × TEvent} (earlier : a ∈ l₁) (point : a.2.point? = some n) : n < w.index := by
  obtain ⟨_, _, _, _, answered⟩ := replied
  obtain ⟨e, own, low, get, -⟩ := linear.write answered kind
  have before := (List.pairwise_append.mp (split ▸ linear.before)).2.2 a earlier _ List.mem_cons_self
  obtain ⟨t, q, decided, rfl, other⟩ := before n w.index e point (by simp [TEvent.written?, kind, own])
  obtain ⟨u, decided'⟩ := linear.replicated.decided
  by_contra long
  obtain ⟨d, here⟩ : ∃ d, q[w.index - 1]? = some d := ⟨_, List.getElem?_eq_getElem (by omega)⟩
  exact other (decided.agree linear.replicated.consistent.agrees.inv decided' here get ▸ here)

theorem distinct (linear : Linear delay ids rsm apply init h H l P) : l.Pairwise fun a b => ∀ w w',
    a.2 = .queue false w → b.2 = .queue false w' → w.command.isWrite → w'.command.isWrite →
    Replied l false w → Replied l false w' → w.index ≠ w'.index := by
  refine linear.apart.imp fun {a b} apart w w' taken taken' kind kind' replied replied' same => ?_
  obtain ⟨_, _, _, _, answered⟩ := replied
  obtain ⟨_, _, _, _, answered'⟩ := replied'
  obtain ⟨e, own, -, get, -⟩ := linear.write answered kind
  obtain ⟨e', own', -, get', -⟩ := linear.write answered' kind'
  rw [same, get'] at get
  obtain rfl : e' = e := Option.some.inj get
  have less : w.index < w'.index := apart w.index e' w'.index e' (by simp [taken, TEvent.written?, kind, own])
    (by simp [taken', TEvent.written?, kind', own']) rfl
  exact less.ne same

end Linear

/-- **Writes and consistent reads are linearizable**, in every run whose steps are guarded: there is one sequence of entries of
which every server has committed a beginning, every write that was answered has a place of its own in it, every answer is
what one machine says that is given the entries in that order, and a request that was answered by any server before another
one was taken by any server comes before it. -/
theorem linearizable (delay : UInt32 → ℕ) {rsm : IRsm ρ} {apply : ρ → TLogEntry → ρ} (replays : rsm.Replays apply) (init : ρ)
    (ids : Finset ℕ) {start P : System ρ} (fresh : System.Start ids start) (empty : ∀ s ∈ ids, (start s).rsm = { impl := init })
    {l : List (ℕ × TEvent)} (run : System.Traced delay (2 ^ 31) ids rsm (System.Guarded delay ids init) start l P) :
    ∃ H, (∀ s ∈ ids, Replica rsm apply init H (P s)) ∧ Linearized rsm apply init H l := by
  obtain ⟨h, H, linear⟩ := Linear.of_traced replays fresh empty run
  refine ⟨H, linear.replicated.replica, (run.asked fresh).2, fun s w applied seqno reply => linear.write,
    fun s strong w applied seqno reply answered kind => ?_, linear.distinct,
    fun l₁ x w l₂ split kind replied a there n => linear.write_after split kind replied there,
    fun l₁ x w l₂ split => (linear.reads l₁ x w l₂ split).2⟩
  obtain ⟨mem, here⟩ := linear.happened _ answered
  obtain ⟨-, high, found⟩ := (linear.replicated.replica s mem).answers strong w applied seqno reply here kind
  exact ⟨high, found⟩

/-! ## Two servers answer -/

/-- What happened at a server is in the trace. -/
theorem System.Traced.mem {ok : System ρ → System.Label → System ρ → Prop} {start : System ρ} (fresh : System.Start ids start)
    {l : List (ℕ × TEvent)} (run : System.Traced delay lim ids rsm ok start l P) (mem : s ∈ ids) :
    ∀ a ∈ (P s).events, (s, a) ∈ l := by
  induction run with
  | start =>
    rw [fresh.2 s mem]
    exact nofun
  | @step l P P' label _ _ st ih =>
    intro a there
    by_cases own : s = label.server
    · subst own
      obtain ⟨es, events⟩ := st.events label.server
      rw [← events] at there
      rw [System.news_eq events.symm]
      rcases List.mem_append.mp there with old | new
      · exact List.mem_append_left _ (ih a old)
      · exact List.mem_append_right _ (List.mem_map_of_mem new)
    · rcases st.reacts s with same | ⟨-, request, rfl, -⟩ | ⟨-, rfl, -⟩
      · rw [same] at there
        exact List.mem_append_left _ (ih a there)
      · exact absurd rfl own
      · exact absurd rfl own

/-- A call that merges no batch which replaces the entry of a waiting write, with few tickets, and with what is committed
applied before it answers. -/
def System.Attended (ids : Finset ℕ) (P : System ρ) (label : System.Label) (P' : System ρ) : Prop :=
  P.spares label ∧ label.isCall ∧ (∀ s ∈ ids, (P' s).raft.seqno < 2 ^ 32) ∧
    (label.waits label.server → (P label.server).rsm.lastAppliedIndex = (P label.server).raft.volatileState.commitIndex)

instance (ids : Finset ℕ) (P : System ρ) (label : System.Label) (P' : System ρ) : Decidable (System.Attended ids P label P') :=
  inferInstanceAs (Decidable (_ ∧ _ ∧ _ ∧ _))

theorem System.Guarded.of_attended (few : ids.card ≤ 4) (attended : System.Attended ids P label P') :
    System.Guarded delay ids init P label P' := by
  obtain ⟨spares, call, tickets, caught⟩ := attended
  refine ⟨?_, .of_spares spares, tickets, fun s waits => ?_, fun _ _ => .inl few⟩
  · rintro s rfl
    cases call
  · cases label with
    | call x request =>
      cases request with
      | processWaiting =>
        obtain rfl : x = s := of_decide_eq_true waits
        exact caught waits
      | _ => cases waits
    | restart => cases waits

/-- Server 1 has answered a write that it had taken as the leader before; now server 2, which leads, answers one, takes a
consistent read and answers it once server 1 has confirmed that it still leads. -/
def answeredByTwo : List Cue :=
  handedOver ++ [.request 2 .processCommitted, .request 2 .processWaiting,
    .request 2 (.onCommandRequest { flags := 4, cookie := 7, data := [1] } (some 9)), .deliver 42000000000 2 25,
    .deliver 42000000000 1 12, .request 2 .processWaiting]

/-- The write and the read of server 2. -/
def laterWrite : TWaiting where
  index := 4
  command := { flags := 1, cookie := 6, data := [66] }
  replyTo := some 8
  entry := some { term := 3, data := [66] }

def laterRead : TWaiting where
  index := 5
  seqno := 12
  command := { flags := 4, cookie := 7, data := [1] }
  replyTo := some 9

/-- All three answers, and the places that they have. -/
theorem linearizable_two : ∃ (l : List (ℕ × TEvent)) (H : List TLogEntry),
    Linearized (TDummyRsm.rsm []) (fun entries e => entries ++ [e]) [] H l ∧
    (1, .answer false handed 5 0 { index := 2, cookie := 5 }) ∈ l ∧ H[1]? = some { term := 2, data := [65] } ∧
    (2, .answer false laterWrite 5 8 { index := 4, cookie := 6 }) ∈ l ∧ H[3]? = some { term := 3, data := [66] } ∧
    (2, .answer true laterRead 5 12 { index := 5, cookie := 7, data := [65] }) ∈ l ∧ 5 ≤ H.length := by
  obtain ⟨P, run, one, two, three⟩ := System.exists_of_resume (System.Attended [1, 2, 3].toFinset) [1, 2, 3] answeredByTwo
    (.fresh [1, 2, 3] { impl := [] })
    (fun P => .answer false handed 5 0 { index := 2, cookie := 5 } ∈ (P 1).events ∧
      .answer false laterWrite 5 8 { index := 4, cookie := 6 } ∈ (P 2).events ∧
      .answer true laterRead 5 12 { index := 5, cookie := 7, data := [65] } ∈ (P 2).events) (by decide +kernel)
  have fresh : System.Start [1, 2, 3].toFinset (.fresh [1, 2, 3] { impl := ([] : List TLogEntry) }) :=
    System.fresh_start (by decide) (by decide) _
  have run : System.Run (fun _ => 5000) (2 ^ 31) [1, 2, 3].toFinset (TDummyRsm.rsm [])
      (System.Guarded (fun _ => 5000) [1, 2, 3].toFinset []) _ P :=
    run.mono fun _ _ _ attended => .of_attended (by decide) attended
  obtain ⟨l, traced⟩ := run.traced
  obtain ⟨H, -, linearized⟩ :=
    linearizable (fun _ => 5000) (TDummyRsm.replays []) [] [1, 2, 3].toFinset fresh (fun _ _ => rfl) traced
  have one := traced.mem fresh (by decide) _ one
  have two := traced.mem fresh (by decide) _ two
  have three := traced.mem fresh (by decide) _ three
  obtain ⟨e, mine, -, place, -⟩ := linearized.write _ _ _ _ _ one (by decide)
  obtain ⟨e', mine', -, place', -⟩ := linearized.write _ _ _ _ _ two (by decide)
  cases mine
  cases mine'
  exact ⟨l, H, linearized, one, place, two, place', three, (linearized.read _ _ _ _ _ _ three (by decide)).1⟩

end MiniRaft
