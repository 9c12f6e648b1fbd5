import MiniRaft.Lib.Attains
import MiniRaft.Standing
import MiniRaft.Timers

/-!
# Schedules

Only some servers take part: they are told the time, and what they have sent to one another is delivered. The others may
have failed, or be cut off. The clock does not go back.
-/

namespace MiniRaft

open Lib

variable {delay : UInt32 → ℕ} {lim wait : ℕ} {ids Q : Finset ℕ} {h : History} {c c' : Cluster} {s x : ℕ} {now : Time}
  {a b : Time × Cluster}

namespace Cluster

/-- One of the servers `Q` is told the time, or receives what one of them has sent to it. -/
inductive Tick (delay : UInt32 → ℕ) (lim : ℕ) (Q : Finset ℕ) (now : Time) (c : Cluster) : Cluster → Prop where
  | timeout {s : ℕ} (mem : s ∈ Q) (room : ((c s).processTimeout delay now).state.log.length < lim) :
      Tick delay lim Q now c (Function.update c s ((c s).processTimeout delay now))
  | deliver {s x : ℕ} {m : TMessage} (mem : s ∈ Q) (peer : x ∈ Q) (sent : .send s m ∈ (c x).effects)
      (room : ((c s).process delay now m).state.log.length < lim) :
      Tick delay lim Q now c (Function.update c s ((c s).process delay now m))

/-- A tick at the time that is then the present one. -/
def Schedule (delay : UInt32 → ℕ) (lim : ℕ) (Q : Finset ℕ) (a b : Time × Cluster) : Prop :=
  a.1 ≤ b.1 ∧ Tick delay lim Q b.1 a.2 b.2

theorem Tick.step (sub : Q ⊆ ids) (tick : Tick delay lim Q now c c') : Step delay lim ids c c' := by
  cases tick with
  | timeout mem room => exact .call (sub mem) (.processTimeout now) trivial room
  | deliver mem peer sent room => exact .call (sub mem) (.process now _) ⟨_, sub peer, sent⟩ room

/-- More than half of the servers, whose timers are set ahead by up to `wait` milliseconds, and logs short enough for an
`int`. -/
structure Setting (delay : UInt32 → ℕ) (lim wait : ℕ) (ids Q : Finset ℕ) : Prop where
  delays : ∀ seed, 0 < delay seed ∧ delay seed ≤ wait
  pos : 0 < lim
  small : lim ≤ 2 ^ 31
  sub : Q ⊆ ids
  many : ids.card < 2 * Q.card

/-- What holds at any time of a schedule. -/
structure Group (delay : UInt32 → ℕ) (lim wait : ℕ) (ids Q : Finset ℕ) (a : Time × Cluster) : Prop where
  reach : Reachable delay lim ids a.2
  timed : ∀ x ∈ Q, (a.2 x).Timed wait a.1

namespace Group

variable (setting : Setting delay lim wait ids Q)

include setting

theorem agrees (group : Group delay lim wait ids Q a) : ∃ h, Agrees lim ids h a.2 :=
  group.reach.agrees setting.pos (setting.small.trans (by decide))

theorem standing (group : Group delay lim wait ids Q a) (mem : x ∈ ids) : Standing (a.2 x) :=
  group.reach.standing setting.pos (setting.small.trans (by decide)) mem

theorem log_lt (group : Group delay lim wait ids Q a) (mem : x ∈ ids) : (a.2 x).state.log.length < lim := by
  obtain ⟨h, agrees⟩ := group.agrees setting
  exact (agrees.good mem).log_lt

/-- The peers of a server are the others. -/
theorem mem_nodes (group : Group delay lim wait ids Q a) (mem : s ∈ ids) : x ∈ (a.2 s).nodes ↔ x ∈ ids.erase s := by
  obtain ⟨h, agrees⟩ := group.agrees setting
  exact (agrees.sim s mem).mem_nodes

/-- One of the servers has changed. -/
theorem tick {r : TRaft} (group : Group delay lim wait ids Q a) (later : a.1 ≤ now)
    (tick : Tick delay lim Q now a.2 (Function.update a.2 s r)) (timed : s ∈ Q → r.Timed wait now) :
    ∃ b, Schedule delay lim Q a b ∧ b.1 = now ∧ Group delay lim wait ids Q b ∧ b.2 s = r ∧ ∀ y, y ≠ s → b.2 y = a.2 y := by
  refine ⟨(now, _), ⟨later, tick⟩, rfl, ⟨group.reach.tail (tick.step setting.sub), fun x peer => ?_⟩,
    Function.update_self .., fun y other => Function.update_of_ne other ..⟩
  change TRaft.Timed wait now (Function.update a.2 s r x)
  by_cases own : x = s
  · rw [own, Function.update_self]
    exact timed (own ▸ peer)
  · rw [Function.update_of_ne own]
    exact (group.timed x peer).mono later

/-- **One of the servers is told the time.** -/
theorem timeout (group : Group delay lim wait ids Q a) (mem : s ∈ Q) (later : a.1 ≤ now)
    (room : ((a.2 s).processTimeout delay now).state.log.length < lim) :
    ∃ b, Schedule delay lim Q a b ∧ b.1 = now ∧ Group delay lim wait ids Q b ∧
      b.2 s = (a.2 s).processTimeout delay now ∧ ∀ y, y ≠ s → b.2 y = a.2 y := by
  have timed := (group.timed s mem).mono later
  exact group.tick setting later (.timeout mem room) fun _ =>
    timed.processTimeout (fun seed => (setting.delays seed).2) le_rfl

/-- **One of them receives what another has sent.** -/
theorem deliver (group : Group delay lim wait ids Q a) (mem : s ∈ Q) (later : a.1 ≤ now) (peer : x ∈ Q) {m : TMessage}
    (sent : .send s m ∈ (a.2 x).effects) (room : ((a.2 s).process delay now m).state.log.length < lim) :
    ∃ b, Schedule delay lim Q a b ∧ b.1 = now ∧ Group delay lim wait ids Q b ∧
      b.2 s = (a.2 s).process delay now m ∧ ∀ y, y ≠ s → b.2 y = a.2 y := by
  have timed := (group.timed s mem).mono later
  exact group.tick setting later (.deliver mem peer sent room) fun _ =>
    timed.process (fun seed => (setting.delays seed).2) le_rfl m

/-! ## Leaders and those that follow them -/

/-- A peer in the leader's term has what the leader counts as stored there. -/
theorem held (group : Group delay lim wait ids Q a) (mem : s ∈ ids) (leads : (a.2 s).stateName = .leader)
    (mem' : x ∈ ids) (same : (a.2 x).state.currentTerm = (a.2 s).state.currentTerm) :
    (a.2 s).state.log.take ((a.2 s).volatileState.matchOf x) <+: (a.2 x).state.log := by
  obtain ⟨start, fresh, run⟩ := group.reach
  have empty : History.start.Stored := fun x => List.prefix_rfl
  obtain ⟨h, -, agrees, stored⟩ := (Agrees.start setting.pos fresh).stored empty (setting.small.trans (by decide)) run
  obtain ⟨-, whole⟩ := agrees.whole mem leads
  have sim := agrees.sim x mem'
  have here := stored x
  rw [sim.term, same, sim.log, ← whole] at here
  exact (take_prefix_of_le (agrees.counted mem leads x)).trans here

theorem matchOf_le (group : Group delay lim wait ids Q a) (mem : s ∈ ids) (leads : (a.2 s).stateName = .leader) :
    (a.2 s).volatileState.matchOf x ≤ (a.2 s).state.log.length := by
  obtain ⟨h, agrees⟩ := group.agrees setting
  exact agrees.matchOf_le mem leads x

/-- **A peer that has the whole log has nothing else.** Its further entries would be of the leader's term. -/
theorem log_eq (group : Group delay lim wait ids Q a) (mem : s ∈ ids) (leads : (a.2 s).stateName = .leader)
    (mem' : x ∈ ids) (same : (a.2 x).state.currentTerm = (a.2 s).state.currentTerm)
    (held : (a.2 s).state.log <+: (a.2 x).state.log) : (a.2 x).state.log = (a.2 s).state.log := by
  obtain ⟨h, agrees⟩ := group.agrees setting
  have own : lastTerm TLogEntry.term (a.2 s).state.log = _ := (group.standing setting mem).own leads
  obtain ⟨lead, whole⟩ := agrees.whole mem leads
  have ordered := (agrees.ordered mem').1
  have co := agrees.inv.logs.logCo x
  rw [(agrees.sim x mem').log] at co
  have last : lastTerm TLogEntry.term (a.2 x).state.log = (a.2 s).state.currentTerm := by
    apply Nat.le_antisymm
    · rw [← same]
      exact ordered.termAt_le_present _
    · rw [← own, lastTerm, ← termAt_of_prefixed held le_rfl]
      exact ordered.termAt_le held.length_le le_rfl
  have pos : 0 < lastTerm TLogEntry.term (a.2 x).state.log := by
    obtain ⟨l, stood⟩ := agrees.inv.votes.leadStood lead
    rw [last]
    exact agrees.inv.votes.standPos stood
  have inside := co.whole pos
  rw [last, ← whole] at inside
  exact inside.eq_of_length_le held.length_le

end Group

end Cluster

end MiniRaft
