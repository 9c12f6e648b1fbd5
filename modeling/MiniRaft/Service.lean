import MiniRaft.Availability
import MiniRaft.Queues

/-!
# What a majority does for its clients

The servers of a schedule apply what they have committed. Their leader takes a write, and answers it.
-/

namespace MiniRaft

open Lib

variable {ρ : Type*} {rsm : IRsm ρ} {delay : UInt32 → ℕ} {lim wait : ℕ} {ids Q : Finset ℕ} {s x : ℕ} {P P' : System ρ}
  {now t : Time} {σ : TState} {p : TRequestProcessor ρ}

/-! ## A write and its answer -/

namespace TRequestProcessor

/-- The server after a write that its leader has taken. -/
def taken (rsm : IRsm ρ) (command : TCommandRequest) (client : ℕ) (p : TRequestProcessor ρ) : TRequestProcessor ρ :=
  let prepared := rsm.prepare command p.rsm
  ({ p with rsm := prepared.2, raft := (p.raft.append prepared.1).2 } : TRequestProcessor ρ).enqueue
    { index := p.raft.state.log.length + 1
      command
      replyTo := some client
      entry := some { prepared.1 with term := p.raft.state.currentTerm } }

theorem onCommandRequest_taken {command : TCommandRequest} {client : ℕ} (kind : command.isWrite)
    (leads : p.raft.stateName = .leader) (idle : p.waiting = []) :
    p.onCommandRequest rsm command (some client) = .ok (p.taken rsm command client) := by
  unfold onCommandRequest onWriteRequest
  rw [if_neg (not_not_intro kind), if_neg (not_not_intro kind), if_pos leads]
  simp [idle, taken, TRaft.append, TState.append]

/-- The answer that came last is the one to the write. -/
theorem takeAnswer_last {w : TWaiting} {reply : TCommandResponse} {old : List TAnswer}
    (answers : p.writeAnswers = old ++ [{ index := w.index, reply }]) (before : ∀ a ∈ old, a.index < w.index) :
    p.takeAnswer w = .ok (reply, { p with writeAnswers := [] }) := by
  have rest : p.writeAnswers.dropWhile (·.index < w.index) = [{ index := w.index, reply }] := by
    rw [answers, List.dropWhile_append_of_pos (by simpa using before)]
    simp
  unfold takeAnswer
  rw [rest]
  simp

theorem drain_one {ready : TWaiting → Bool} {body : TWaiting → TRequestProcessor ρ → Except Fault (TRequestProcessor ρ)}
    {w : TWaiting} {p' : TRequestProcessor ρ} (due : ready w) (done : body w p = .ok p') :
    drain ready body [w] p = .ok ([], p') := by
  simp [drain, due, done, Except.bind]

theorem processStrongQueue_nil {n : ℕ} (idle : p.strongWaiting = []) : p.processStrongQueue rsm n = .ok p := by
  unfold processStrongQueue
  rw [idle]
  change Except.ok { p with strongWaiting := [] } = _
  rw [← idle]

/-- **The only request that waits is answered**, when it is a write that has been applied. -/
theorem processWaiting_applied {w : TWaiting} {client : ℕ} {reply : TCommandResponse} {old : List TAnswer}
    (only : p.waiting = [w]) (idle : p.strongWaiting = []) (kind : w.command.isWrite) (heard : w.replyTo = some client)
    (applied : w.index ≤ p.rsm.lastAppliedIndex) (answers : p.writeAnswers = old ++ [{ index := w.index, reply }])
    (before : ∀ a ∈ old, a.index < w.index) :
    ∃ p', p.processWaiting rsm = .ok p' ∧ p'.raft = p.raft ∧ p'.rsm = p.rsm ∧ p'.events = p.events ++
      [.answer false w p.rsm.lastAppliedIndex p.raft.commitSeqno { reply with cookie := w.command.cookie }] := by
  let p₁ := ({ p with writeAnswers := [] } : TRequestProcessor ρ).record
    (.answer false w p.rsm.lastAppliedIndex p.raft.commitSeqno { reply with cookie := w.command.cookie })
  have answered : answer rsm p.rsm.lastAppliedIndex w p = .ok p₁ := by
    unfold answer
    rw [if_pos kind, takeAnswer_last answers before]
    change sendReply _ _ _ _ _ = _
    unfold sendReply
    rw [if_pos (by rw [heard]; rfl)]
  have first : processQueue rsm p.rsm.lastAppliedIndex p = .ok { p₁ with waiting := [] } := by
    unfold processQueue
    rw [only, drain_one (decide_eq_true applied) answered]
    rfl
  refine ⟨{ p₁ with waiting := [] }, ?_, rfl, rfl, rfl⟩
  unfold processWaiting
  dsimp only
  rw [first]
  exact processStrongQueue_nil idle

/-- Just one committed entry has not been applied yet. -/
theorem processCommitted_one (rsm : IRsm ρ) {i : ℕ} (commit : p.raft.volatileState.commitIndex = i)
    (next : p.rsm.lastAppliedIndex + 1 = i) (plain : (p.raft.state.get i).flags ≠ eStub) :
    ∃ reply, (p.processCommitted rsm).events = p.events ++ [.write i (p.raft.state.get i) p.rsm.lastAppliedIndex reply] ∧
      (p.processCommitted rsm).writeAnswers = p.writeAnswers ++ [{ index := i, reply }] := by
  unfold processCommitted
  dsimp only
  rw [commit, next, Nat.add_sub_cancel_left, List.range'_one, List.foldl_cons, List.foldl_nil]
  unfold applyEntry
  dsimp only
  rw [if_neg plain]
  exact ⟨_, rfl, rfl⟩

end TRequestProcessor

namespace System

/-- What the servers `Q` do among themselves: they are told the time, receive what one of them has sent to another, apply
what is committed, and answer who waits. -/
def Among (Q : Finset ℕ) (now : Time) (P : System ρ) : Label → Prop
  | .call s (.process t m) => s ∈ Q ∧ t = now ∧ ∃ x ∈ Q, .send s m ∈ (P x).raft.effects
  | .call s (.processTimeout t) => s ∈ Q ∧ t = now
  | .call s .processCommitted | .call s .processWaiting => s ∈ Q
  | _ => False

/-- A step of theirs at the time that is then the present one. -/
def Schedule (delay : UInt32 → ℕ) (lim : ℕ) (ids : Finset ℕ) (rsm : IRsm ρ) (Q : Finset ℕ) (a b : Time × System ρ) : Prop :=
  a.1 ≤ b.1 ∧ ∃ label, Among Q b.1 a.2 label ∧ Step delay lim ids rsm a.2 label b.2

def Scheduled (delay : UInt32 → ℕ) (lim : ℕ) (ids : Finset ℕ) (rsm : IRsm ρ) (Q : Finset ℕ) :
    Time × System ρ → Time × System ρ → Prop := Relation.ReflTransGen (Schedule delay lim ids rsm Q)

/-- Server `s` leads the servers `Q`, and all of them have its log, know that it is committed and have applied it. -/
structure InStep (Q : Finset ℕ) (s : ℕ) (P : System ρ) : Prop where
  leads : (P s).raft.stateName = .leader
  term : ∀ x ∈ Q, (P x).raft.state.currentTerm = (P s).raft.state.currentTerm
  log : ∀ x ∈ Q, (P x).raft.state.log = (P s).raft.state.log
  commit : ∀ x ∈ Q, (P x).raft.volatileState.commitIndex = (P s).raft.state.log.length
  applied : ∀ x ∈ Q, (P x).rsm.lastAppliedIndex = (P s).raft.state.log.length

/-! ## Schedules of the protocol and of the system -/

/-- What the protocol does, the whole servers do. -/
theorem Schedule.of_cluster (sub : Q ⊆ ids) {b : Time × Cluster} (st : Cluster.Schedule delay lim Q (t, P.rafts) b) :
    ∃ P', Schedule delay lim ids rsm Q (t, P) (b.1, P') ∧ ∀ x, P' x = { P x with raft := b.2 x } := by
  obtain ⟨now, c⟩ := b
  obtain ⟨later, tick⟩ := st
  change Cluster.Tick delay lim Q now P.rafts c at tick
  have rest {s : ℕ} (r : TRaft) (x : ℕ) : Function.update P s { P s with raft := r } x =
      { P x with raft := Function.update P.rafts s r x } := by
    by_cases own : x = s
    · rw [own, Function.update_self, Function.update_self]
    · rw [Function.update_of_ne own, Function.update_of_ne own]
      rfl
  cases tick with
  | @timeout s mem room =>
    have enabled : Enabled ids P s (.processTimeout now) := trivial
    exact ⟨_, ⟨later, .call s (.processTimeout now), ⟨mem, rfl⟩, .call (sub mem) _ enabled rfl room⟩, rest _⟩
  | @deliver s x m mem peer sent room =>
    have enabled : Enabled ids P s (.process now m) := ⟨x, sub peer, sent⟩
    exact ⟨_, ⟨later, .call s (.process now m), ⟨mem, rfl, x, peer, sent⟩, .call (sub mem) _ enabled rfl room⟩, rest _⟩

theorem Scheduled.of_cluster (sub : Q ⊆ ids) {b : Time × Cluster}
    (run : Relation.ReflTransGen (Cluster.Schedule delay lim Q) (t, P.rafts) b) :
    ∃ P', Scheduled delay lim ids rsm Q (t, P) (b.1, P') ∧ ∀ x, P' x = { P x with raft := b.2 x } := by
  induction run with
  | refl => exact ⟨P, .refl, fun _ => rfl⟩
  | @tail b b' _ st ih =>
    obtain ⟨P₁, run, same⟩ := ih
    have rafts : P₁.rafts = b.2 := funext fun x => by rw [rafts, same]
    have st : Cluster.Schedule delay lim Q (b.1, P₁.rafts) b' := by rwa [rafts]
    obtain ⟨P₂, st', same'⟩ := Schedule.of_cluster sub st
    exact ⟨P₂, .tail run st', fun x => by rw [same', same]⟩

/-- **All apply what they have committed.** -/
theorem Scheduled.apply (sub : Q ⊆ ids) (room : ∀ x ∈ Q, (P x).raft.state.log.length < lim) :
    ∃ P', Scheduled delay lim ids rsm Q (t, P) (t, P') ∧ P'.rafts = P.rafts ∧
      ∀ x ∈ Q, P' x = (P x).processCommitted rsm := by
  have work : ∀ x ∈ Q.toList, ∀ a : Time × System ρ,
      (a.1 = t ∧ ∀ y, a.2 y = P y ∨ a.2 y = (P y).processCommitted rsm) →
      Attains (Schedule delay lim ids rsm Q) Prod.fst 0 (fun b : Time × System ρ =>
        (b.1 = t ∧ ∀ y, b.2 y = P y ∨ b.2 y = (P y).processCommitted rsm) ∧ b.2 x = (P x).processCommitted rsm ∧
          ∀ y, a.2 y = (P y).processCommitted rsm → b.2 y = (P y).processCommitted rsm) a := by
    intro x member a ⟨clock, each⟩
    have mem := Finset.mem_toList.mp member
    rcases each x with before | done
    · have raft : ((a.2 x).processCommitted rsm).raft = (P x).raft := by
        rw [(processCommitted_applies rsm (a.2 x)).1.raft, before]
      have enabled : Enabled ids a.2 x .processCommitted := trivial
      have st : Schedule delay lim ids rsm Q a (a.1, Function.update a.2 x ((a.2 x).processCommitted rsm)) :=
        ⟨le_rfl, .call x .processCommitted, mem, .call (sub mem) _ enabled rfl (raft ▸ room x mem)⟩
      have own : Function.update a.2 x ((a.2 x).processCommitted rsm) x = (P x).processCommitted rsm := by
        rw [Function.update_self, before]
      refine .single st le_rfl ⟨⟨clock, fun y => ?_⟩, own, fun y done => ?_⟩
      · by_cases here : y = x
        · exact .inr (here ▸ own)
        · dsimp only
          rw [Function.update_of_ne here]
          exact each y
      · by_cases here : y = x
        · exact here ▸ own
        · dsimp only
          rwa [Function.update_of_ne here]
    · exact .here ⟨⟨clock, each⟩, done, fun _ done => done⟩
  obtain ⟨⟨t', P'⟩, run, -, ⟨clock, each⟩, all⟩ :=
    Attains.each (a := (t, P)) Q.toList (fun x b => b.2 x = (P x).processCommitted rsm) work ⟨rfl, fun _ => .inl rfl⟩
  obtain rfl : t' = t := clock
  have each (x : ℕ) : P' x = P x ∨ P' x = (P x).processCommitted rsm := each x
  refine ⟨P', run, funext fun x => ?_, fun x mem => all x (Finset.mem_toList.mpr mem)⟩
  change (P' x).raft = (P x).raft
  rcases each x with same | done
  · rw [same]
  · rw [done, (processCommitted_applies rsm (P x)).1.raft]

theorem Scheduled.later {a b : Time × System ρ} (run : Scheduled delay lim ids rsm Q a b) : Later delay lim ids rsm a.2 b.2 := by
  induction run with
  | refl => exact .refl
  | tail _ st ih =>
    obtain ⟨-, label, -, step⟩ := st
    exact ih.tail ⟨label, trivial, step⟩

/-- **The servers get in step** with one that leads them. -/
theorem Scheduled.in_step (setting : Cluster.Setting delay lim wait ids Q)
    (reign : Cluster.Reign delay lim wait ids Q s σ (t, P.rafts)) (mem : s ∈ Q) :
    ∃ t' P', Scheduled delay lim ids rsm Q (t, P) (t', P') ∧ t' ≤ t + Cluster.beat * ((2 * σ.log.length + 3) * Q.card) ∧
      InStep Q s P' ∧ Cluster.Reign delay lim wait ids Q s σ (t', P'.rafts) ∧
      ∀ x ∈ Q, P' x = TRequestProcessor.processCommitted rsm { P x with raft := (P' x).raft } := by
  obtain ⟨b, run, soon, committed, told⟩ := reign.replicate setting mem
  obtain ⟨P₁, run₁, same⟩ := Scheduled.of_cluster setting.sub run
  have rafts : P₁.rafts = b.2 := funext fun x => by rw [System.rafts, same]
  have room (x : ℕ) (mem' : x ∈ Q) : (P₁ x).raft.state.log.length < lim := by
    rw [same]
    exact committed.log_lt setting (setting.sub mem')
  obtain ⟨P', run', kept, applied⟩ : ∃ P', Scheduled delay lim ids rsm Q (b.1, P₁) (b.1, P') ∧ P'.rafts = P₁.rafts ∧
      ∀ x ∈ Q, P' x = (P₁ x).processCommitted rsm := Scheduled.apply setting.sub room
  have raft (x : ℕ) : (P' x).raft = b.2 x := congrFun (kept.trans rafts) x
  have leader : (b.2 s).state = σ := committed.state
  refine ⟨b.1, P', run₁.trans run', soon, ?_, ?_, fun x mem' => ?_⟩
  · refine ⟨by rw [raft]; exact committed.leads, fun x mem' => ?_, fun x mem' => ?_, fun x mem' => ?_, fun x mem' => ?_⟩
    · rw [raft, raft, leader]
      exact (told x mem').1
    · rw [raft, raft, leader]
      exact (committed.log_eq setting mem mem' (told x mem')).1
    · rw [raft, raft, leader]
      exact (committed.log_eq setting mem mem' (told x mem')).2
    · have last := (processCommitted_applies rsm (P₁ x)).2
      rw [raft, leader, applied x mem', last, ← (committed.log_eq setting mem mem' (told x mem')).2, same]
  · rw [kept, rafts]
    exact committed.toReign
  · rw [raft, applied x mem', same]

/-- The servers of a run up to now may begin a schedule. -/
theorem Run.group {start : System ρ} (delays : ∀ seed, delay seed ≤ wait) (fresh : Start ids start)
    (run : Run delay lim ids rsm (fun _ label _ => label.By t) start P) (sub : Q ⊆ ids) :
    Cluster.Group delay lim wait ids Q (t, P.rafts) where
  reach := Reachable.rafts ⟨start, fresh, run.later⟩
  timed _ mem := run.timed delays fresh (sub mem)

/-- **One of the servers comes to lead**, and the others get in step with it. -/
theorem Scheduled.lead (setting : Cluster.Setting delay lim wait ids Q) (group : Cluster.Group delay lim wait ids Q (t, P.rafts))
    (room : ∀ x ∈ Q, (P x).raft.state.log.length + 1 < lim) :
    ∃ s ∈ Q, ∃ t' P' σ, Scheduled delay lim ids rsm Q (t, P) (t', P') ∧ InStep Q s P' ∧
      Cluster.Reign delay lim wait ids Q s σ (t', P'.rafts) ∧ (P s).raft.state.log <+: σ.log ∧
      σ.log.length ≤ (P s).raft.state.log.length + 1 ∧
      t' ≤ t + 2 * milliseconds wait + Cluster.beat * ((2 * (P s).raft.state.log.length + 5) * Q.card) ∧
      ∀ x ∈ Q, (P' x).waiting = (P x).waiting ∧ (P' x).strongWaiting = (P x).strongWaiting := by
  obtain ⟨b, run, soon, s, mem, σ, reign, grows, len⟩ := group.reign setting room
  have len : σ.log.length ≤ (P s).raft.state.log.length + 1 := len
  obtain ⟨P₁, run₁, same⟩ : ∃ P₁, Scheduled delay lim ids rsm Q (t, P) (b.1, P₁) ∧ ∀ x, P₁ x = { P x with raft := b.2 x } :=
    Scheduled.of_cluster setting.sub run
  have rafts : P₁.rafts = b.2 := funext fun x => by rw [System.rafts, same]
  have reign : Cluster.Reign delay lim wait ids Q s σ (b.1, P₁.rafts) := by rwa [rafts]
  obtain ⟨t', P', run', soon', inStep, reign', applied⟩ := Scheduled.in_step setting reign mem
  refine ⟨s, mem, t', P', σ, run₁.trans run', inStep, reign', grows, len, ?_, fun x mem' => ?_⟩
  · exact soon'.trans (Nat.add_le_add soon (Nat.mul_le_mul_left _ (Nat.mul_le_mul_right _ (by omega))))
  · have all := (processCommitted_applies rsm { P₁ x with raft := (P' x).raft }).1
    rw [← applied x mem'] at all
    exact ⟨by rw [all.waiting, same], by rw [all.strongWaiting, same]⟩

/-! ## A client's write -/

theorem InStep.congr (inStep : InStep Q s P) (raft : ∀ x, (P' x).raft = (P x).raft) (rsm : ∀ x, (P' x).rsm = (P x).rsm) :
    InStep Q s P' := by
  refine ⟨?_, fun x mem => ?_, fun x mem => ?_, fun x mem => ?_, fun x mem => ?_⟩
  · rw [raft]; exact inStep.leads
  · rw [raft, raft]; exact inStep.term x mem
  · rw [raft, raft]; exact inStep.log x mem
  · rw [raft, raft]; exact inStep.commit x mem
  · rw [raft, rsm]; exact inStep.applied x mem

variable {command : TCommandRequest} {client : ℕ}

/-- A leader goes on leading with the entry that it appends. -/
theorem reign_taken (reign : Cluster.Reign delay lim wait ids Q s σ (t, P.rafts))
    (reach : Reachable delay lim ids rsm (Function.update P s ((P s).taken rsm command client))) :
    Cluster.Reign delay lim wait ids Q s
      (σ.append { (rsm.prepare command (P s).rsm).1 with term := (P s).raft.state.currentTerm })
      (t, rafts (Function.update P s ((P s).taken rsm command client))) := by
  have state : (P s).raft.state = σ := reign.state
  have own : (Function.update P s ((P s).taken rsm command client) s).raft =
      ((P s).raft.append (rsm.prepare command (P s).rsm).1).2 := by rw [Function.update_self]; rfl
  have same {x : ℕ} (other : x ≠ s) : Function.update P s ((P s).taken rsm command client) x = P x :=
    Function.update_of_ne other ..
  refine ⟨⟨reach.rafts, fun x mem => ?_⟩, ?_, ?_, fun x mem => ?_⟩
  · change TRaft.Timed wait t (Function.update P s _ x).raft
    by_cases here : x = s
    · rw [here, own]
      exact (reign.timed s (here ▸ mem)).asked ⟨reign.leads, .inl ⟨_, rfl⟩⟩
    · rw [same here]
      exact reign.timed x mem
  · change (Function.update P s _ s).raft.stateName = _
    rw [own]
    exact reign.leads
  · change (Function.update P s _ s).raft.state = _
    rw [own, ← state]
    rfl
  · change (Function.update P s _ x).raft.state.currentTerm ≤ σ.currentTerm
    by_cases here : x = s
    · rw [here, own, ← state]
      exact le_rfl
    · rw [same here]
      exact reign.below x mem

/-- **The servers apply the entry that their leader has appended.** -/
theorem Scheduled.apply_taken (setting : Cluster.Setting delay lim wait ids Q) (mem : s ∈ Q)
    (inStep : InStep Q s P) {entry : TLogEntry} (plain : entry.flags ≠ eStub) {p : TRequestProcessor ρ}
    (applied : p.rsm.lastAppliedIndex = (P s).rsm.lastAppliedIndex)
    (log : σ.log = (P s).raft.state.log ++ [entry])
    (reign : Cluster.Reign delay lim wait ids Q s σ (t, rafts (Function.update P s p))) :
    ∃ t' P', Scheduled delay lim ids rsm Q (t, Function.update P s p) (t', P') ∧
      t' ≤ t + Cluster.beat * ((2 * σ.log.length + 3) * Q.card) ∧ InStep Q s P' ∧ (P' s).raft.state = σ ∧
      (P' s).waiting = p.waiting ∧ (P' s).strongWaiting = p.strongWaiting ∧
      ∀ x ∈ Q, ∃ reply, (P' x).events = (Function.update P s p x).events ++
          [.write σ.log.length entry (σ.log.length - 1) reply] ∧
        (P' x).writeAnswers = (Function.update P s p x).writeAnswers ++ [{ index := σ.log.length, reply }] := by
  obtain ⟨t', P', run, soon, inStep', reign', applies⟩ := Scheduled.in_step setting reign mem
  have state : (P' s).raft.state = σ := reign'.state
  have all := (processCommitted_applies rsm { Function.update P s p s with raft := (P' s).raft }).1
  rw [← applies s mem, Function.update_self] at all
  refine ⟨t', P', run, soon, inStep', state, all.waiting, all.strongWaiting, fun x mem' => ?_⟩
  have before : (Function.update P s p x).rsm.lastAppliedIndex + 1 = σ.log.length := by
    have last := inStep.applied x mem'
    have own := inStep.applied s mem
    rw [log, List.length_append, List.length_singleton]
    by_cases here : x = s
    · rw [here, Function.update_self, applied, own]
    · rw [Function.update_of_ne here, last]
  have same : (P' x).raft.state.log = σ.log := by rw [inStep'.log x mem', state]
  have commit : (P' x).raft.volatileState.commitIndex = σ.log.length := by rw [inStep'.commit x mem', state]
  have get : (P' x).raft.state.get σ.log.length = entry := by
    unfold TState.get
    rw [same, log]
    simp
  let q : TRequestProcessor ρ := { Function.update P s p x with raft := (P' x).raft }
  have one := TRequestProcessor.processCommitted_one rsm (p := q) commit before (get.symm ▸ plain)
  rw [← applies x mem', get] at one
  obtain ⟨reply, events, answers⟩ := one
  refine ⟨reply, ?_, answers⟩
  rw [events, ← before]
  rfl

/-- The leader answers a write that has been applied, when no other request waits. -/
theorem Schedule.answer (sub : Q ⊆ ids) (mem : s ∈ Q) (inStep : InStep Q s P) {w : TWaiting} {reply : TCommandResponse}
    {old : List TAnswer} (only : (P s).waiting = [w]) (idle : (P s).strongWaiting = []) (kind : w.command.isWrite)
    (heard : w.replyTo = some client) (applied : w.index ≤ (P s).rsm.lastAppliedIndex)
    (answers : (P s).writeAnswers = old ++ [{ index := w.index, reply }]) (before : ∀ a ∈ old, a.index < w.index)
    (room : (P s).raft.state.log.length < lim) :
    ∃ P', Schedule delay lim ids rsm Q (t, P) (t, P') ∧ InStep Q s P' ∧ (∀ x, (P x).events <+: (P' x).events) ∧
      .answer false w (P s).rsm.lastAppliedIndex (P s).raft.commitSeqno { reply with cookie := w.command.cookie } ∈
        (P' s).events := by
  obtain ⟨p, done, raft, impl, events⟩ :=
    TRequestProcessor.processWaiting_applied only idle kind heard applied answers before
  have enabled : Enabled ids P s .processWaiting := trivial
  have kept (x : ℕ) : (Function.update P s p x).raft = (P x).raft ∧ (Function.update P s p x).rsm = (P x).rsm ∧
      (P x).events <+: (Function.update P s p x).events := by
    by_cases here : x = s
    · rw [here, Function.update_self, events]
      exact ⟨raft, impl, List.prefix_append ..⟩
    · rw [Function.update_of_ne here]
      exact ⟨rfl, rfl, List.prefix_rfl⟩
  refine ⟨Function.update P s p, ⟨le_rfl, .call s .processWaiting, mem, .call (sub mem) _ enabled done (raft ▸ room)⟩,
    inStep.congr (fun x => (kept x).1) (fun x => (kept x).2.1), fun x => (kept x).2.2, ?_⟩
  rw [Function.update_self, events]
  exact List.mem_append_right _ (List.mem_singleton.mpr rfl)

end System

/-! ## Main results -/

/-- **More than half of the servers get on without the others.** From every state that a run has reached up to time `t`,
there is a schedule in which only they take part, and at the end of which one of them leads, the others are in its term,
and all have stored, committed and applied its log, which continues the log that it had. Its length is bounded in advance:
by two of the longest timeouts, and by half an election timeout for each entry and server. -/
theorem majority_leads (rsm : IRsm ρ) {start : System ρ} (delays : ∀ seed, 0 < delay seed ∧ delay seed ≤ wait)
    (fresh : System.Start ids start) (run : System.Run delay (2 ^ 31) ids rsm (fun _ label _ => label.By t) start P)
    (sub : Q ⊆ ids) (many : ids.card < 2 * Q.card) (room : ∀ x ∈ Q, (P x).raft.state.log.length + 1 < 2 ^ 31) :
    ∃ t' P', System.Scheduled delay (2 ^ 31) ids rsm Q (t, P) (t', P') ∧ ∃ s ∈ Q, System.InStep Q s P' ∧
      (P s).raft.state.log <+: (P' s).raft.state.log ∧
      t' ≤ t + 2 * milliseconds wait + Cluster.beat * ((2 * (P s).raft.state.log.length + 5) * Q.card) := by
  have setting : Cluster.Setting delay (2 ^ 31) wait ids Q := ⟨delays, by decide, le_rfl, sub, many⟩
  obtain ⟨s, mem, t', P', σ, run', inStep, reign, grows, len, soon, -⟩ :=
    System.Scheduled.lead setting (run.group (fun seed => (delays seed).2) fresh sub) room
  have state : (P' s).raft.state = σ := reign.state
  exact ⟨t', P', run', s, mem, inStep, state ▸ grows, soon⟩

/-- Server 3 has failed. -/
theorem majority_leads_two : ∃ t' P', System.Scheduled (fun _ => 5000) (2 ^ 31) [1, 2, 3].toFinset (TDummyRsm.rsm [])
      [1, 2].toFinset (0, .fresh [1, 2, 3] { impl := [] }) (t', P') ∧
    ∃ s ∈ [1, 2].toFinset, System.InStep [1, 2].toFinset s P' := by
  have fresh : System.Start [1, 2, 3].toFinset (.fresh [1, 2, 3] { impl := ([] : List TLogEntry) }) :=
    System.fresh_start (by decide) (by decide) _
  obtain ⟨t', P', run, s, mem, inStep, -⟩ := majority_leads (Q := [1, 2].toFinset) (TDummyRsm.rsm [])
    (fun _ => ⟨by decide, le_refl 5000⟩) fresh .refl (by decide) (by decide) (by decide)
  exact ⟨t', P', run, s, mem, inStep⟩

/-- **A majority serves its clients.** From every state that a run has reached, more than half of the servers, with no
request waiting, get in step with one of them by a schedule of their own. It takes any write, and a schedule follows in
which all of them apply its entry and the client is answered with what the leader's state machine made of it, within half
an election timeout for each entry and server. -/
theorem write_answered (rsm : IRsm ρ) (lawful : rsm.Lawful) {start : System ρ}
    (delays : ∀ seed, 0 < delay seed ∧ delay seed ≤ wait) (fresh : System.Start ids start)
    (run : System.Run delay (2 ^ 31) ids rsm (fun _ label _ => label.By t) start P) (sub : Q ⊆ ids)
    (many : ids.card < 2 * Q.card) (room : ∀ x ∈ Q, (P x).raft.state.log.length + 2 < 2 ^ 31)
    (idle : ∀ x ∈ Q, (P x).waiting = [] ∧ (P x).strongWaiting = []) :
    ∃ s ∈ Q, ∃ t₁ P₁, System.Scheduled delay (2 ^ 31) ids rsm Q (t, P) (t₁, P₁) ∧ System.InStep Q s P₁ ∧
      t₁ ≤ t + 2 * milliseconds wait + Cluster.beat * ((2 * (P s).raft.state.log.length + 5) * Q.card) ∧
      ∀ (command : TCommandRequest) (client : ℕ), command.isWrite →
        let prepared := (rsm.prepare command (P₁ s).rsm).1
        prepared.flags ≠ eStub →
        let entry := { prepared with term := (P₁ s).raft.state.currentTerm }
        let index := (P₁ s).raft.state.log.length + 1
        let w : TWaiting := { index, command, replyTo := some client, entry := some entry }
        ∃ P₂ t₃ P₃, System.Step delay (2 ^ 31) ids rsm P₁ (.call s (.onCommandRequest command (some client))) P₂ ∧
          System.Scheduled delay (2 ^ 31) ids rsm Q (t₁, P₂) (t₃, P₃) ∧
          t₃ ≤ t₁ + Cluster.beat * ((2 * index + 3) * Q.card) ∧ System.InStep Q s P₃ ∧
          (∀ x ∈ Q, ∃ reply, .write index entry (index - 1) reply ∈ (P₃ x).events) ∧
          ∃ reply seqno, .write index entry (index - 1) reply ∈ (P₃ s).events ∧
            .answer false w index seqno { reply with cookie := command.cookie } ∈ (P₃ s).events := by
  have setting : Cluster.Setting delay (2 ^ 31) wait ids Q := ⟨delays, by decide, le_rfl, sub, many⟩
  obtain ⟨s, mem, t₁, P₁, σ, run₁, inStep, reign, grows, len, soon, queues⟩ :=
    System.Scheduled.lead setting (run.group (fun seed => (delays seed).2) fresh sub) fun x mem => by
      have := room x mem
      omega
  refine ⟨s, mem, t₁, P₁, run₁, inStep, soon, ?_⟩
  intro command client kind prepared plain entry index w
  have plain : entry.flags ≠ eStub := plain
  have state : (P₁ s).raft.state = σ := reign.state
  have reach : System.Reachable delay (2 ^ 31) ids rsm P₁ :=
    System.Reachable.run (System.Reachable.run ⟨start, fresh, .refl⟩ run) run₁.later
  obtain ⟨no_wait, no_strong⟩ : (P₁ s).waiting = [] ∧ (P₁ s).strongWaiting = [] := by
    rw [(queues s mem).1, (queues s mem).2]
    exact idle s mem
  let p := (P₁ s).taken rsm command client
  have log : p.raft.state.log.length = index := List.length_append
  have room' : index < 2 ^ 31 := by
    have := room s mem
    change (P₁ s).raft.state.log.length + 1 < 2 ^ 31
    rw [state]
    omega
  have enabled : System.Enabled ids P₁ s (.onCommandRequest command (some client)) := trivial
  have st : System.Step delay (2 ^ 31) ids rsm P₁ (.call s (.onCommandRequest command (some client))) (Function.update P₁ s p) :=
    .call (sub mem) _ enabled (TRequestProcessor.onCommandRequest_taken kind reign.leads no_wait) (log ▸ room')
  have reach' := reach.run (.single ⟨_, trivial, st⟩ : System.Later delay (2 ^ 31) ids rsm P₁ (Function.update P₁ s p))
  obtain ⟨t₃, P₃, run₃, soon₃, inStep₃, state₃, waiting, strong, wrote⟩ :=
    System.Scheduled.apply_taken setting mem inStep plain (lawful.prepare ..) (congrArg (·.log ++ [entry]) state.symm)
      (System.reign_taken reign reach')
  have log₃ : (σ.append entry).log.length = index := by
    change (σ.log ++ [entry]).length = (P₁ s).raft.state.log.length + 1
    rw [List.length_append, List.length_singleton, state]
  rw [log₃] at soon₃ wrote
  obtain ⟨reply, events, answers⟩ := wrote s mem
  rw [Function.update_self] at events answers
  have applied : (P₃ s).rsm.lastAppliedIndex = index := by rw [inStep₃.applied s mem, state₃, log₃]
  have only : (P₃ s).waiting = [w] := by
    rw [waiting]
    change (P₁ s).waiting ++ [w] = [w]
    rw [no_wait, List.nil_append]
  -- the answers that were kept are to entries that were committed before
  have before : ∀ a ∈ p.writeAnswers, a.index < w.index := by
    intro a member
    have within := ((reach.answering.2 s (sub mem)).1 a member).2.1
    rw [inStep.commit s mem] at within
    exact Nat.lt_succ_of_le within
  obtain ⟨P₄, last, inStep₄, more, answered⟩ := System.Schedule.answer sub mem inStep₃ only (strong.trans no_strong) kind rfl
    applied.ge answers before (by rw [state₃, log₃]; exact room')
  rw [applied] at answered
  have present {e : TEvent} {es : List TEvent} : e ∈ es ++ [e] := List.mem_append_right _ (List.mem_singleton.mpr rfl)
  refine ⟨_, t₃, P₄, st, run₃.tail last, soon₃, inStep₄, fun x mem' => ?_, reply, _, (more s).subset ?_, answered⟩
  · obtain ⟨reply, wrote, -⟩ := wrote x mem'
    exact ⟨reply, (more x).subset (wrote ▸ present)⟩
  · exact events ▸ present

/-- Server 3 has failed, and client 7 writes. -/
theorem write_answered_two : ∃ P P₂ P' : System (List TLogEntry), ∃ s ∈ [1, 2].toFinset, ∃ t t' w i seqno reply,
    System.Step (fun _ => 5000) (2 ^ 31) [1, 2, 3].toFinset (TDummyRsm.rsm []) P
      (.call s (.onCommandRequest { flags := 1, cookie := 5, data := [65] } (some 7))) P₂ ∧
    System.Scheduled (fun _ => 5000) (2 ^ 31) [1, 2, 3].toFinset (TDummyRsm.rsm []) [1, 2].toFinset (t, P₂) (t', P') ∧
    .answer false w i seqno reply ∈ (P' s).events ∧ w.replyTo = some 7 ∧ reply.cookie = 5 := by
  have fresh : System.Start [1, 2, 3].toFinset (.fresh [1, 2, 3] { impl := ([] : List TLogEntry) }) :=
    System.fresh_start (by decide) (by decide) _
  obtain ⟨s, mem, t₁, P₁, -, -, -, answers⟩ := write_answered (t := 0) (Q := [1, 2].toFinset) (TDummyRsm.rsm [])
    (TDummyRsm.lawful []) (fun _ => ⟨by decide, le_refl 5000⟩) fresh .refl (by decide) (by decide) (by decide)
    fun x _ => ⟨rfl, rfl⟩
  obtain ⟨P₂, t₃, P₃, st, run, -, -, -, reply, seqno, -, answered⟩ :=
    answers { flags := 1, cookie := 5, data := [65] } 7 (by decide) (show (0 : ℕ) ≠ eStub by decide)
  exact ⟨P₁, P₂, P₃, s, mem, t₁, t₃, _, _, seqno, _, st, run, answered, rfl, rfl⟩

end MiniRaft
