import Mathlib.Logic.Relation
import MiniRaft.Raft

/-!
# A cluster of servers

Any server may be called at any time. A message may be processed as often as one likes once it was sent, and
need never be: loss, delay, reordering and duplication are the freedom of the run.
-/

namespace MiniRaft

/-- The calls that the event loop and the request processor make. -/
inductive Call where
  | process (now : Time) (message : TMessage)
  | processTimeout (now : Time)
  | append (entry : TLogEntry)
  | approveRead

namespace TRaft

/-- A call, without its result. -/
def perform (delay : UInt32 → ℕ) : Call → TRaft → TRaft
  | .process now message, r => r.process delay now message
  | .processTimeout now, r => r.processTimeout delay now
  | .append entry, r => (r.append entry).2
  | .approveRead, r => r.approveRead.2

end TRaft

abbrev Cluster := ℕ → TRaft

namespace Cluster

/-- Some server has sent `message` to `dst`. -/
def Sent (ids : Finset ℕ) (c : Cluster) (dst : ℕ) (message : TMessage) : Prop :=
  ∃ x ∈ ids, .send dst message ∈ (c x).effects

/-- The calls that may be made of server `s`: requests of clients are taken up by leaders only. -/
def Enabled (ids : Finset ℕ) (c : Cluster) (s : ℕ) : Call → Prop
  | .process _ message => Sent ids c s message
  | .processTimeout _ => True
  | .append _ | .approveRead => (c s).stateName = .leader

/-- Servers with empty logs that know each other. -/
def Start (ids : Finset ℕ) (c : Cluster) : Prop :=
  0 ∉ ids ∧ ∀ s ∈ ids, ∃ nodes : List ℕ, nodes.Nodup ∧ nodes.toFinset = ids.erase s ∧ c s = .new {} s nodes

/-- A call, or a restart on the stored state. No log reaches `lim` entries. -/
inductive Step (delay : UInt32 → ℕ) (lim : ℕ) (ids : Finset ℕ) (c : Cluster) : Cluster → Prop where
  | call {s : ℕ} (mem : s ∈ ids) (call : Call) (enabled : Enabled ids c s call)
      (room : ((c s).perform delay call).state.log.length < lim) :
      Step delay lim ids c (Function.update c s ((c s).perform delay call))
  | restart {s : ℕ} (mem : s ∈ ids) : Step delay lim ids c (Function.update c s (c s).restart)

/-- **What a step does to one server.** -/
theorem Step.reacts {delay : UInt32 → ℕ} {lim : ℕ} {ids : Finset ℕ} {c c' : Cluster} (st : Step delay lim ids c c') (x : ℕ) :
    c' x = c x ∨ (x ∈ ids ∧ ∃ call, Enabled ids c x call ∧ c' x = (c x).perform delay call) ∨
      (x ∈ ids ∧ c' x = (c x).restart) := by
  cases st with
  | @call s mem call enabled room =>
    by_cases own : x = s
    · subst own
      exact .inr (.inl ⟨mem, call, enabled, Function.update_self ..⟩)
    · exact .inl (Function.update_of_ne own ..)
  | @restart s mem =>
    by_cases own : x = s
    · subst own
      exact .inr (.inr ⟨mem, Function.update_self ..⟩)
    · exact .inl (Function.update_of_ne own ..)

/-- From one state of a run to a later one. -/
def Later (delay : UInt32 → ℕ) (lim : ℕ) (ids : Finset ℕ) : Cluster → Cluster → Prop :=
  Relation.ReflTransGen (Step delay lim ids)

def Reachable (delay : UInt32 → ℕ) (lim : ℕ) (ids : Finset ℕ) (c : Cluster) : Prop :=
  ∃ start, Start ids start ∧ Later delay lim ids start c

theorem Later.mono {delay : UInt32 → ℕ} {lim lim' : ℕ} {ids : Finset ℕ} {c c' : Cluster} (le : lim ≤ lim')
    (later : Later delay lim ids c c') : Later delay lim' ids c c' := by
  refine Relation.ReflTransGen.mono (fun a b st => ?_) _ _ later
  cases st with
  | call mem call enabled room => exact .call mem call enabled (room.trans_le le)
  | restart mem => exact .restart mem

theorem Reachable.mono {delay : UInt32 → ℕ} {lim lim' : ℕ} {ids : Finset ℕ} {c : Cluster} (le : lim ≤ lim')
    (reach : Reachable delay lim ids c) : Reachable delay lim' ids c := by
  obtain ⟨start, fresh, later⟩ := reach
  exact ⟨start, fresh, later.mono le⟩

theorem Reachable.tail {delay : UInt32 → ℕ} {lim : ℕ} {ids : Finset ℕ} {c c' : Cluster}
    (reach : Reachable delay lim ids c) (st : Step delay lim ids c c') : Reachable delay lim ids c' := by
  obtain ⟨start, fresh, later⟩ := reach
  exact ⟨start, fresh, .tail later st⟩

/-- The servers `ids` before their first call. -/
def fresh (ids : List ℕ) : Cluster := fun s => .new {} s (ids.erase s)

theorem fresh_start {ids : List ℕ} (nodup : ids.Nodup) (zero : 0 ∉ ids) : Start ids.toFinset (fresh ids) := by
  refine ⟨by simpa using zero, fun s _ => ⟨ids.erase s, nodup.erase s, ?_, rfl⟩⟩
  ext x
  simp [nodup.mem_erase_iff]

/-! ## Runs that are computed -/

/-- A step that is written down: `ProcessTimeout` of a server, `Append`, or the delivery of the `k`-th effect of `x`. -/
inductive Turn where
  | timeout (s : ℕ) (now : Time)
  | append (s : ℕ) (entry : TLogEntry)
  | deliver (now : Time) (x k : ℕ)

/-- The server that is called, and the call. -/
def turned (ids : Finset ℕ) (c : Cluster) : Turn → Option (ℕ × Call)
  | .timeout s now => some (s, .processTimeout now)
  | .append s entry => if (c s).stateName = .leader then some (s, .append entry) else none
  | .deliver now x k =>
    match (c x).effects[k]? with
    | some (.send d message) => if x ∈ ids then some (d, .process now message) else none
    | _ => none

/-- The state after the steps, if all of them are possible. -/
def play (delay : UInt32 → ℕ) (lim : ℕ) (ids : Finset ℕ) : List Turn → Cluster → Option Cluster
  | [], c => some c
  | turn :: turns, c => (c.turned ids turn).bind fun (s, call) =>
      if s ∈ ids ∧ ((c s).perform delay call).state.log.length < lim then
        play delay lim ids turns (Function.update c s ((c s).perform delay call))
      else none

section

variable {delay : UInt32 → ℕ} {lim : ℕ} {ids : Finset ℕ} {c c' : Cluster} {s : ℕ}

theorem enabled_of_turned {turn : Turn} {call : Call} (turned : c.turned ids turn = some (s, call)) : Enabled ids c s call := by
  cases turn with
  | timeout x now =>
    obtain ⟨rfl, rfl⟩ := Prod.mk.inj (Option.some.inj turned)
    trivial
  | append x entry =>
    obtain ⟨leads, same⟩ := Option.ite_none_right_eq_some.mp turned
    obtain ⟨rfl, rfl⟩ := Prod.mk.inj (Option.some.inj same)
    exact leads
  | deliver now x k =>
    unfold Cluster.turned at turned
    dsimp only at turned
    split at turned
    · rename_i d message sent
      obtain ⟨mem, same⟩ := Option.ite_none_right_eq_some.mp turned
      obtain ⟨rfl, rfl⟩ := Prod.mk.inj (Option.some.inj same)
      exact ⟨x, mem, List.mem_of_getElem? sent⟩
    · cases turned

/-- The first step of what is played. -/
theorem call_of_play {turn : Turn} {turns : List Turn} (played : play delay lim ids (turn :: turns) c = some c') :
    ∃ s ∈ ids, ∃ call, Enabled ids c s call ∧ ((c s).perform delay call).state.log.length < lim ∧
      play delay lim ids turns (Function.update c s ((c s).perform delay call)) = some c' := by
  obtain ⟨⟨s, call⟩, turned, rest⟩ := Option.bind_eq_some_iff.mp played
  obtain ⟨⟨mem, room⟩, rest⟩ := Option.ite_none_right_eq_some.mp rest
  exact ⟨s, mem, call, enabled_of_turned turned, room, rest⟩

theorem Later.of_play {turns : List Turn} (played : play delay lim ids turns c = some c') : Later delay lim ids c c' := by
  induction turns generalizing c with
  | nil => exact Option.some.inj played ▸ .refl
  | cons turn turns ih =>
    obtain ⟨s, mem, call, enabled, room, rest⟩ := call_of_play played
    exact .head (.call mem call enabled room) (ih rest)

/-- A property of what is played is checked by playing it. -/
theorem exists_of_play (delay : UInt32 → ℕ) (lim : ℕ) (ids : Finset ℕ) (c : Cluster) (turns : List Turn) (φ : Cluster → Prop)
    [DecidablePred φ] (played : (play delay lim ids turns c).any (φ ·)) : ∃ c', Later delay lim ids c c' ∧ φ c' := by
  obtain ⟨c', played, holds⟩ := (Option.any_eq_true _ _).mp played
  exact ⟨c', .of_play played, by simpa using holds⟩

/-- The same for a single step. -/
theorem exists_of_turn (delay : UInt32 → ℕ) (lim : ℕ) (ids : Finset ℕ) (c : Cluster) (turn : Turn) (φ : Cluster → Prop)
    [DecidablePred φ] (played : (play delay lim ids [turn] c).any (φ ·)) : ∃ c', Step delay lim ids c c' ∧ φ c' := by
  obtain ⟨c', played, holds⟩ := (Option.any_eq_true _ _).mp played
  obtain ⟨s, mem, call, enabled, room, rest⟩ := call_of_play played
  exact ⟨c', Option.some.inj rest ▸ .call mem call enabled room, by simpa using holds⟩

end

end Cluster

end MiniRaft
