import Mathlib.Tactic.Ring
import MiniRaft.Campaigns

/-!
# Availability

More than half of the servers can always get on without the others: some schedule of theirs elects one of them, and has all
of them store and commit its log.
-/

namespace MiniRaft

open Lib

namespace Cluster

variable {delay : UInt32 → ℕ} {lim wait : ℕ} {ids Q : Finset ℕ} {s x : ℕ} {a b : Time × Cluster} {σ : TState}

/-- How long a leader's heartbeat is not due. -/
def beat : Time := milliseconds (TTimeout.election / 2)

/-- The leader `s` lacks nothing of the servers `Q`. -/
structure Matched (delay : UInt32 → ℕ) (lim wait : ℕ) (ids Q : Finset ℕ) (s : ℕ) (σ : TState) (a : Time × Cluster) : Prop
    extends Reign delay lim wait ids Q s σ a where
  none : ∀ y ∈ Q.erase s, gap a s y = 0

/-- And it has committed its log. -/
structure Committed (delay : UInt32 → ℕ) (lim wait : ℕ) (ids Q : Finset ℕ) (s : ℕ) (σ : TState) (a : Time × Cluster) : Prop
    extends Matched delay lim wait ids Q s σ a where
  commit : (a.2 s).volatileState.commitIndex = σ.log.length

/-- Server `x` is in the leader's term and knows how far its log is committed. -/
def Told (σ : TState) (x : ℕ) (a : Time × Cluster) : Prop :=
  (a.2 x).state.currentTerm = σ.currentTerm ∧ σ.log.length ≤ (a.2 x).volatileState.commitIndex

section

variable (setting : Setting delay lim wait ids Q)

include setting

/-- One peer catches up, and no other falls behind. -/
theorem Reign.match_one (reign : Reign delay lim wait ids Q s σ a) (mem : s ∈ Q) (peer : x ∈ Q.erase s) :
    Attains (Schedule delay lim Q) Prod.fst (beat * (2 * σ.log.length + 2))
      (fun b => Reign delay lim wait ids Q s σ b ∧ gap b s x = 0 ∧ ∀ y, gap a s y = 0 → gap b s y = 0) a := by
  have far : x ∈ ids.erase s := Finset.erase_subset_erase s setting.sub peer
  have bound : gap a s x ≤ 2 * σ.log.length + 2 := by
    rw [← reign.state]
    exact TVolatileState.gap_le (reign.next_le setting (setting.sub mem) reign.leads far).2
  have less : ∀ b, (Reign delay lim wait ids Q s σ b ∧ ∀ y, gap a s y = 0 → gap b s y = 0) → 0 < gap b s x →
      Attains (Schedule delay lim Q) Prod.fst beat (fun b' =>
        (Reign delay lim wait ids Q s σ b' ∧ ∀ y, gap a s y = 0 → gap b' s y = 0) ∧ gap b' s x < gap b s x) b := by
    intro b ⟨reign, kept⟩ lacks
    refine (reign.round setting mem peer).mono le_rfl fun b' ⟨reign', done⟩ => ⟨⟨reign', fun y zero => ?_⟩, ?_⟩
    · have before := kept y zero
      by_cases here : y = x
      · rw [here] at before
        omega
      · rw [done.others y here]
        exact before
    · have := done.less
      omega
  have ranked := Attains.of_rank (gap · s x) less ⟨reign, fun _ zero => zero⟩ bound
  exact ranked.mono le_rfl fun b ⟨⟨reign', kept⟩, zero⟩ => ⟨reign', zero, kept⟩

/-- **All catch up.** -/
theorem Reign.match_all (reign : Reign delay lim wait ids Q s σ a) (mem : s ∈ Q) :
    Attains (Schedule delay lim Q) Prod.fst (beat * (2 * σ.log.length + 2) * (Q.card - 1))
      (Matched delay lim wait ids Q s σ) a := by
  have work : ∀ x ∈ (Q.erase s).toList, ∀ b, Reign delay lim wait ids Q s σ b →
      Attains (Schedule delay lim Q) Prod.fst (beat * (2 * σ.log.length + 2)) (fun b' =>
        Reign delay lim wait ids Q s σ b' ∧ gap b' s x = 0 ∧ ∀ y, gap b s y = 0 → gap b' s y = 0) b :=
    fun x peer b reign => reign.match_one setting mem (Finset.mem_toList.mp peer)
  have all := Attains.each (Q.erase s).toList (fun y b => gap b s y = 0) work reign
  rw [Finset.length_toList, Finset.card_erase_of_mem mem] at all
  exact all.mono le_rfl fun b ⟨reign', zero⟩ => ⟨reign', fun y peer => zero y (Finset.mem_toList.mpr peer)⟩

/-- A round between servers that lack nothing. -/
theorem Matched.round (matched : Matched delay lim wait ids Q s σ a) (mem : s ∈ Q) (peer : x ∈ Q.erase s) :
    Attains (Schedule delay lim Q) Prod.fst beat
      (fun b => Committed delay lim wait ids Q s σ b ∧ Exchanged Q s x a b) a := by
  refine (matched.toReign.round setting mem peer).mono le_rfl fun b ⟨reign', done⟩ => ⟨⟨⟨reign', fun y peer' => ?_⟩, ?_⟩, done⟩
  · have before := matched.none y peer'
    by_cases here : y = x
    · have := done.less
      rw [here] at before ⊢
      omega
    · rw [done.others y here]
      exact before
  · rw [done.counted (matched.none x peer) matched.none, matched.state]

/-- A server without peers commits its log by itself. -/
theorem Matched.alone (matched : Matched delay lim wait ids Q s σ a) (mem : s ∈ Q) (lone : Q.erase s = ∅)
    (single : (a.2 s).nodes = []) : Attains (Schedule delay lim Q) Prod.fst beat (Committed delay lim wait ids Q s σ) a := by
  have reach : Reachable delay maxLogSize ids a.2 := matched.reach.mono (setting.small.trans (by decide))
  have counting := reach.counting (setting.sub mem) matched.leads
  have position := matched.position_of_matched setting mem matched.leads fun y peer =>
    absurd (lone ▸ peer) (Finset.notMem_empty y)
  have done : (a.2 s).processTimeout delay a.1 = { a.2 s with
      volatileState := (a.2 s).volatileState.commitAdvance (a.2 s).nservers (a.2 s).state 0 } := by
    rw [TRaft.processTimeout_leader matched.leads, TRaft.leaderTimeout, single, List.foldl_nil]
    exact if_pos (by rw [TRaft.nservers, single]; rfl)
  have room := matched.log_lt setting (setting.sub mem)
  obtain ⟨b, st, clock, group, own, rest⟩ := matched.timeout setting mem le_rfl (by rwa [done])
  have state : (b.2 s).state = σ := by rw [own, done, ← matched.state]
  have name : (b.2 s).stateName = .leader := by rw [own, done, ← matched.leads]
  have only : ∀ y ∈ Q, y = s := fun y mem' => by
    by_contra other
    exact absurd (lone ▸ Finset.mem_erase.mpr ⟨other, mem'⟩) (Finset.notMem_empty y)
  have commit : (b.2 s).volatileState.commitIndex = σ.log.length := by
    have advanced := counting.sized.commitIndex_commitAdvance counting.small 0
    have last : lastTerm TLogEntry.term (a.2 s).state.log = _ := (matched.standing setting (setting.sub mem)).own matched.leads
    have within := matched.commitIndex_le setting (setting.sub mem)
    rw [own, done, ← matched.state]
    refine advanced.trans ?_
    rw [show (a.2 s).volatileState.position (a.2 s).nservers (a.2 s).state.lastLogIndex = (a.2 s).state.log.length from position]
    unfold TState.advance
    split
    · rfl
    · rename_i stays
      by_contra less
      exact stays ⟨by omega, last⟩
  refine .single st (by rw [clock]; exact Nat.le_add_right ..) ?_
  exact { group with
    leads := name
    state := state
    below := fun y mem' => by rw [only y mem', state]
    none := fun y peer => absurd (lone ▸ peer) (Finset.notMem_empty y)
    commit := commit }

/-- **The leader commits its log.** -/
theorem Matched.commits (matched : Matched delay lim wait ids Q s σ a) (mem : s ∈ Q) :
    Attains (Schedule delay lim Q) Prod.fst beat (Committed delay lim wait ids Q s σ) a := by
  rcases (Q.erase s).eq_empty_or_nonempty with empty | ⟨x, peer⟩
  · obtain ⟨h, agrees⟩ := matched.agrees setting
    have peers := (agrees.sim s (setting.sub mem)).peers
    have count := Finset.card_erase_of_mem mem
    have all := Finset.card_erase_of_mem (setting.sub mem)
    have many := setting.many
    rw [empty, Finset.card_empty] at count
    rw [Finset.card_eq_zero.mp (by omega : (ids.erase s).card = 0), List.toFinset_eq_empty_iff] at peers
    exact matched.alone setting mem empty peers
  · exact (matched.round setting mem peer).mono le_rfl fun b ⟨committed, _⟩ => committed

/-- **All hear that it is committed.** -/
theorem Committed.spread (committed : Committed delay lim wait ids Q s σ a) (mem : s ∈ Q) :
    Attains (Schedule delay lim Q) Prod.fst (beat * (Q.card - 1))
      (fun b => Committed delay lim wait ids Q s σ b ∧ ∀ x ∈ Q.erase s, Told σ x b) a := by
  have work : ∀ x ∈ (Q.erase s).toList, ∀ b, Committed delay lim wait ids Q s σ b →
      Attains (Schedule delay lim Q) Prod.fst beat (fun b' =>
        Committed delay lim wait ids Q s σ b' ∧ Told σ x b' ∧ ∀ y, Told σ y b → Told σ y b') b := by
    intro x member b committed
    have peer := Finset.mem_toList.mp member
    refine (committed.toMatched.round setting mem peer).mono le_rfl fun b' ⟨committed', done⟩ => ?_
    have told : Told σ x b' := by
      refine ⟨by rw [done.term, committed.state], ?_⟩
      rw [← committed.commit]
      exact done.told (committed.none x peer)
    refine ⟨committed', told, fun y before => ?_⟩
    by_cases own : y = s
    · rw [own]
      exact ⟨by rw [committed'.state], committed'.commit.ge⟩
    · by_cases here : y = x
      · rwa [here]
      · unfold Told
        rwa [done.frame y own here]
  have all := Attains.each (Q.erase s).toList (Told σ) work committed
  rw [Finset.length_toList, Finset.card_erase_of_mem mem] at all
  exact all.mono le_rfl fun b ⟨committed', told⟩ => ⟨committed', fun x peer => told x (Finset.mem_toList.mpr peer)⟩

/-- **The leader's log gets to all**, and they know that it is committed. -/
theorem Reign.replicate (reign : Reign delay lim wait ids Q s σ a) (mem : s ∈ Q) :
    Attains (Schedule delay lim Q) Prod.fst (beat * ((2 * σ.log.length + 3) * Q.card))
      (fun b => Committed delay lim wait ids Q s σ b ∧ ∀ x ∈ Q, Told σ x b) a := by
  have some_ := Finset.card_pos.mpr ⟨s, mem⟩
  obtain ⟨q, count⟩ : ∃ q, Q.card = q + 1 := ⟨Q.card - 1, by omega⟩
  have all := ((reign.match_all setting mem).andThen fun b matched => matched.commits setting mem).andThen
    fun b committed => committed.spread setting mem
  refine all.mono ?_ fun b ⟨committed, told⟩ => ⟨committed, fun x mem' => ?_⟩
  · calc beat * (2 * σ.log.length + 2) * (Q.card - 1) + beat + beat * (Q.card - 1)
        = beat * ((2 * σ.log.length + 3) * q + 1) := by rw [count, Nat.add_sub_cancel]; ring
      _ ≤ beat * ((2 * σ.log.length + 3) * Q.card) := by
        rw [count]
        exact Nat.mul_le_mul_left _ (by rw [Nat.mul_succ]; omega)
  · by_cases own : x = s
    · rw [own]
      exact ⟨by rw [committed.state], committed.commit.ge⟩
    · exact told x (Finset.mem_erase.mpr ⟨own, mem'⟩)

/-- Who knows that the log is committed has it. -/
theorem Committed.log_eq (committed : Committed delay lim wait ids Q s σ a) (mem : s ∈ Q) (mem' : x ∈ Q) (told : Told σ x a) :
    (a.2 x).state.log = σ.log ∧ (a.2 x).volatileState.commitIndex = σ.log.length := by
  have same : (a.2 x).state.log = σ.log := by
    by_cases own : x = s
    · rw [own, committed.state]
    · have term : (a.2 x).state.currentTerm = (a.2 s).state.currentTerm := by rw [told.1, committed.state]
      obtain ⟨known, beyond⟩ := TVolatileState.matched_of_gap (committed.none x (Finset.mem_erase.mpr ⟨own, mem'⟩))
      have held := committed.held setting (setting.sub mem) committed.leads (setting.sub mem') term
      rw [List.take_of_length_le (by omega)] at held
      rw [Group.log_eq setting committed.toGroup (setting.sub mem) committed.leads (setting.sub mem') term held, committed.state]
  have within := committed.commitIndex_le setting (setting.sub mem')
  rw [same] at within
  exact ⟨same, Nat.le_antisymm within told.2⟩

/-- **One of the servers comes to lead.** Its log continues that of one of them. -/
theorem Group.reign (group : Group delay lim wait ids Q a) (room : ∀ x ∈ Q, (a.2 x).state.log.length + 1 < lim) :
    Attains (Schedule delay lim Q) Prod.fst (2 * milliseconds wait) (fun b => ∃ s ∈ Q, ∃ σ, Reign delay lim wait ids Q s σ b ∧
      (a.2 s).state.log <+: σ.log ∧ σ.log.length ≤ (a.2 s).state.log.length + 1) a := by
  obtain ⟨s, mem, attains⟩ := group.ready setting room
  refine (attains.andThen fun b ⟨ready, log⟩ => ?_).mono (Nat.two_mul _).ge fun _ holds => holds
  rcases ready with ⟨σ, reign⟩ | ready
  · have same : σ.log = (a.2 s).state.log := by rw [← log, reign.state]
    exact .here ⟨s, mem, σ, reign, by rw [same], by rw [same]; exact Nat.le_succ _⟩
  · refine (ready.elect setting mem).mono le_rfl fun b' ⟨σ, reign, grows, len⟩ => ⟨s, mem, σ, reign, ?_⟩
    rw [log] at grows len
    exact ⟨grows, len.le⟩

end

end Cluster

end MiniRaft
