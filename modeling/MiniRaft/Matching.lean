import MiniRaft.System
import MiniRaft.Lib.Stored

/-!
# Match indices

A leader's `MatchIndex` of a peer is no more than the peer has acknowledged in the leader's term, and while the peer
stays in that term it keeps what it has acknowledged.
-/

namespace MiniRaft

open Lib

variable {lim : ℕ} {ids : Finset ℕ} {h : History} {c c' : Cluster} {s p : ℕ} {delay : UInt32 → ℕ}

/-- What is acknowledged stays stored along a run. -/
theorem Agrees.stored (agrees : Agrees lim ids h c) (stored : h.Stored) (small : lim ≤ 2 ^ 63)
    (later : Cluster.Later delay lim ids c c') : ∃ h', h.Le h' ∧ Agrees lim ids h' c' ∧ h'.Stored := by
  induction later with
  | refl => exact ⟨h, .refl h, agrees, stored⟩
  | tail _ st ih =>
    obtain ⟨h₁, le₁, agrees₁, stored₁⟩ := ih
    obtain ⟨s, h₂, ev, agrees₂⟩ := agrees₁.acts small st
    exact ⟨h₂, le₁.trans (Evolve.evolved agrees₁.inv ev).le, agrees₂, ev.stored agrees₁.inv stored₁⟩

/-- The leader counts what the peer has acknowledged. -/
theorem Agrees.counted (agrees : Agrees lim ids h c) (mem : s ∈ ids) (name : (c s).stateName = .leader) (p : ℕ) :
    (c s).volatileState.matchOf p ≤ h.ack p (c s).state.currentTerm :=
  ((agrees.sim s mem).leader name).acked p

theorem Agrees.matchOf_le (agrees : Agrees lim ids h c) (mem : s ∈ ids) (name : (c s).stateName = .leader) (p : ℕ) :
    (c s).volatileState.matchOf p ≤ (c s).state.log.length := by
  obtain ⟨-, whole⟩ := agrees.whole mem name
  rw [whole]
  exact (agrees.counted mem name p).trans (agrees.inv.logs.ackLen ..)

/-- **`MatchIndex` is sound.** A leader has `m` for a peer: then `m` is within the leader's log, and whatever happens
later, as long as the peer is in the leader's term, its log agrees with the leader's up to index `m`. -/
theorem match_index_sound (delay : UInt32 → ℕ) (ids : Finset ℕ) {c : Cluster} {s p m : ℕ}
    (reach : Cluster.Reachable delay maxLogSize ids c) (mem : s ∈ ids) (leads : (c s).stateName = .leader)
    (peer : p ∈ ids.erase s) (matches_ : (c s).volatileState.matchOf p = m) :
    m ≤ (c s).state.lastLogIndex ∧
    ∀ c', Cluster.Later delay maxLogSize ids c c' → (c' p).state.currentTerm = (c s).state.currentTerm →
      m ≤ (c' p).state.log.length ∧
      ∀ i, 1 ≤ i → i ≤ m → (c' p).state.log[i - 1]? = (c s).state.log[i - 1]? := by
  obtain ⟨start, fresh, run⟩ := reach
  have empty : History.start.Stored := fun x => List.prefix_rfl
  obtain ⟨h, -, agrees, stored⟩ := (Agrees.start (by decide) fresh).stored empty le_rfl run
  obtain ⟨-, whole⟩ := agrees.whole mem leads
  have acked : m ≤ h.ack p (c s).state.currentTerm := matches_ ▸ agrees.counted mem leads p
  have bound : m ≤ (c s).state.log.length := matches_ ▸ agrees.matchOf_le mem leads p
  refine ⟨(c s).state.index_eq ▸ bound, fun c' later same => ?_⟩
  obtain ⟨h', le, agrees', stored'⟩ := agrees.stored stored le_rfl later
  have sim' := agrees'.sim p (Finset.mem_of_mem_erase peer)
  have held : (h'.llog (c s).state.currentTerm).take (h'.ack p (c s).state.currentTerm) <+: (c' p).state.log := by
    have := stored' p
    rwa [sim'.term, same, sim'.log] at this
  have part : (c s).state.log.take m <+: (c' p).state.log := by
    rw [whole] at bound ⊢
    rw [← take_of_prefixed (le.llog _) bound]
    exact (take_prefix_of_le (acked.trans (le.ack ..))).trans held
  constructor
  · have len := part.length_le
    rwa [List.length_take, Nat.min_eq_left bound] at len
  · intro i low high
    have here : (c s).state.log[i - 1]? = some ((c s).state.get i) :=
      (c s).state.get_eq_getElem low (high.trans bound)
    rw [here]
    exact get_of_take_prefixed part (by omega) here

/-- Server 1 of two leads, and server 2 has its empty entry. -/
def acknowledged : List Cue :=
  [.request 1 (.processTimeout 1000000000), .deliver 1000000000 1 1, .deliver 1000000000 2 2,
    .request 1 (.processTimeout 1000000000), .deliver 1000000000 1 2, .deliver 1000000000 2 3]

theorem match_index_sound_acknowledged : ∃ c,
    Cluster.Reachable (fun _ => 5000) maxLogSize [1, 2].toFinset c ∧ (c 1).volatileState.matchOf 2 = 1 ∧
    (c 2).state.log[0]? = (c 1).state.log[0]? := by
  obtain ⟨P, reach, leads, same, matches_⟩ := System.reachable_of_rehearse [1, 2] acknowledged (by decide) (by decide)
    (fun P => (P 1).raft.stateName = .leader ∧
      (P 2).raft.state.currentTerm = (P 1).raft.state.currentTerm ∧
      (P 1).raft.volatileState.matchOf 2 = 1) (by decide +kernel)
  have reach : Cluster.Reachable (fun _ => 5000) maxLogSize [1, 2].toFinset P.rafts := reach.rafts.mono (by decide)
  obtain ⟨-, agree⟩ := match_index_sound _ _ reach (by decide) leads (by decide : 2 ∈ _) matches_
  exact ⟨P.rafts, reach, matches_, (agree _ .refl same).2 1 le_rfl le_rfl⟩

end MiniRaft
