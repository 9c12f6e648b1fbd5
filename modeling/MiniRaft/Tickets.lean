import MiniRaft.Commit
import MiniRaft.Order

/-!
# The tickets of consistent reads

`ApproveRead` hands out `Seqno` before it pings the peers, as an `int`. While the `int` keeps the value, the ticket parts
the acknowledgements of earlier messages from those of the pings.
-/

namespace MiniRaft

/-- The number is the value of an `int`. -/
def FitsInt (n : ℕ) : Prop := n < 2 ^ 31 ∨ 2 ^ 64 - 2 ^ 31 ≤ n

namespace TRaft

/-- The ticket of a read is above every number given out before, and no more than those of the pings sent for it. -/
structure Separates (r : TRaft) : Prop where
  before : ∀ k < r.seqno, k < r.approveRead.1
  after : ∀ e ∈ r.approveRead.2.effects.drop r.effects.length, ∀ d term k, e.IsPing d term k → r.approveRead.1 ≤ k

theorem effects_sendAppendEntries {r : TRaft} {id : ℕ} (peer : id ∈ r.nodes) :
    (r.sendAppendEntries id).effects = r.effects ++ [.send id (r.createAppendEntries id)] := by
  unfold sendAppendEntries send
  rw [if_pos peer]
  rfl

theorem isPing_createAppendEntries (id : ℕ) (r : TRaft) :
    (TEffect.send id (r.createAppendEntries id)).IsPing id r.state.currentTerm r.seqno := ⟨rfl, rfl, rfl⟩

/-- Pings are numbered from `Seqno` on. -/
theorem foldl_sendAppendEntries (l : List ℕ) : ∀ r : TRaft, (∀ id ∈ l, id ∈ r.nodes) →
    ∃ es, (l.foldl (fun r id => r.sendAppendEntries id) r).effects = r.effects ++ es ∧
      (∀ e ∈ es, ∀ d term k, e.IsPing d term k → r.seqno ≤ k) ∧
      (l ≠ [] → ∃ e ∈ es, ∃ d term, e.IsPing d term r.seqno) := by
  induction l with
  | nil => exact fun r _ => ⟨[], by simp, nofun, fun ne => absurd rfl ne⟩
  | cons id l ih =>
    intro r peers
    have here := peers id (List.mem_cons_self ..)
    obtain ⟨es, effects, above, -⟩ := ih (r.sendAppendEntries id) fun x member => by
      rw [nodes_sendAppendEntries]
      exact peers x (List.mem_cons_of_mem _ member)
    refine ⟨.send id (r.createAppendEntries id) :: es, ?_, fun e member d term k ping => ?_, fun _ => ?_⟩
    · rw [List.foldl_cons, effects, effects_sendAppendEntries here, List.append_assoc]
      rfl
    · rcases List.mem_cons.mp member with rfl | later
      · obtain ⟨-, -, number⟩ := ping
        exact number.le
      · have := above e later d term k ping
        rw [seqno_sendAppendEntries] at this
        omega
    · exact ⟨_, List.mem_cons_self .., _, _, r.isPing_createAppendEntries id⟩

/-- **The ticket separates** exactly where the `int` keeps it. -/
theorem separates_iff {r : TRaft} (peers : r.nodes ≠ []) (small : r.seqno < 2 ^ 64) : r.Separates ↔ FitsInt r.seqno := by
  obtain ⟨es, effects, above, first⟩ := foldl_sendAppendEntries r.nodes r fun id member => member
  have sent : r.approveRead.2.effects.drop r.effects.length = es := by
    change (r.nodes.foldl _ r).effects.drop _ = _
    rw [effects, List.drop_left]
  rw [FitsInt, ← throughInt_eq_iff small]
  constructor
  · rintro ⟨before, after⟩
    obtain ⟨e, member, d, term, ping⟩ := first peers
    have high := after e (sent ▸ member) d term r.seqno ping
    have low : r.seqno ≤ r.approveRead.1 := by
      rcases Nat.eq_zero_or_pos r.seqno with zero | pos
      · omega
      · have := before (r.seqno - 1) (by omega)
        omega
    exact Nat.le_antisymm high low
  · intro same
    have ticket : r.approveRead.1 = r.seqno := same
    refine ⟨fun k low => ticket ▸ low, fun e member d term k ping => ?_⟩
    rw [ticket]
    exact above e (sent ▸ member) d term k ping

end TRaft

/-! ## What is counted -/

/-- `CommitAdvance` counts a number where the commit index that it finds is of the present term. -/
def TVolatileState.Commits (v : TVolatileState) (n : ℕ) (state : TState) : Prop :=
  state.logTerm (toInt64 (max v.commitIndex (v.position n state.lastLogIndex))) = state.currentTerm

theorem TVolatileState.Commits.commitSeqno {v : TVolatileState} {n : ℕ} {state : TState} (commits : v.Commits n state)
    (k : ℕ) : (v.commitAdvance n state k).commitSeqno = max v.commitSeqno k := by
  unfold commitAdvance
  dsimp only
  exact congrArg _ (if_pos commits)

/-- Nothing but what is heard gets into `CommitSeqno`. -/
theorem Counts.commitSeqno_lt {call : Call} {r r₁ r' : TRaft} {n : ℕ} (counts : Counts call r r₁ r')
    (heard : ∀ t k, call.Hears t k → k < n) (low : r.commitSeqno < n) : r'.commitSeqno < n := by
  have first : r₁.commitSeqno < n := by
    rcases counts.turns.commitSeqno with same | zero
    · omega
    · omega
  rcases counts.confirms with same | ⟨t, k, hears, confirms⟩
  · omega
  · have := heard t k hears
    rw [confirms.commitSeqno]
    omega

namespace TRequestProcessor

variable {ρ : Type*} {delay : UInt32 → ℕ} {rsm : IRsm ρ} {p p' : TRequestProcessor ρ} {request : Request} {n : ℕ}

/-- What the call acknowledges has a number below `n`. -/
def HearsBelow (n : ℕ) (_ : TRequestProcessor ρ) (request : Request) : Prop :=
  ∀ call t k, request.call? = some call → call.Hears t k → k < n

theorem commitSeqno_step (low : p.raft.commitSeqno < n) (hears : HearsBelow n p request)
    (done : p.handleEach delay rsm request = .ok p') : p'.raft.commitSeqno < n := by
  cases Queues.of_handleEach done with
  | protocol _ call is_call =>
    have leads : call = .approveRead → p.raft.stateName = .leader := by
      rintro rfl
      cases request <;> cases is_call
    obtain ⟨r₁, counts⟩ : ∃ r₁, Counts call p.raft r₁ (p.raft.perform delay call) := Counts.perform leads
    exact counts.commitSeqno_lt (fun t k => hears call t k is_call) low
  | rest raft => rwa [raft]
  | command done =>
    rcases (Commanded.of_onCommandRequest done).raft with same | ⟨-, ⟨entry, asked⟩ | asked⟩
    · rwa [same]
    · rw [asked]
      exact low
    · rw [asked]
      have kept := TRaft.commitSeqno_approveRead (r := p.raft)
      exact kept.trans_lt low

/-- As long as only numbers below `n` are acknowledged, `CommitSeqno` does not reach `n`. -/
theorem commitSeqno_run (low : p.raft.commitSeqno < n) (run : Run delay rsm (HearsBelow n) p p') :
    p'.raft.commitSeqno < n := by
  induction run with
  | refl => exact low
  | tail _ last ih =>
    obtain ⟨request, hears, done⟩ := last
    exact commitSeqno_step ih hears done

end TRequestProcessor

/-- **A read ticket separates old from new acknowledgements** exactly where `Seqno` is the value of an `int`. Then,
whatever a leader of a reachable system is asked and told, its `CommitSeqno` stays below the ticket while only messages
from before the read are acknowledged, and the acknowledgement of a message that was sent for the read lifts it to the
ticket. In every run whose consistent reads find such a `Seqno`, the tickets in `StrongWaiting` do not decrease. -/
theorem read_ticket {ρ : Type*} (delay : UInt32 → ℕ) (rsm : IRsm ρ) :
    (∀ r : TRaft, r.nodes ≠ [] → r.seqno + r.nservers < 2 ^ 64 → (r.Separates ↔ FitsInt r.seqno)) ∧
    (∀ (ids : Finset ℕ) (P : System ρ) (s : ℕ), System.Reachable delay maxLogSize ids rsm P → s ∈ ids →
      (P s).raft.stateName = .leader → (ids.erase s).Nonempty → (P s).raft.Separates →
      ∀ p, TRequestProcessor.Run delay rsm (TRequestProcessor.HearsBelow (P s).raft.seqno) (P s) p →
        p.raft.commitSeqno < (P s).raft.approveRead.1) ∧
    (∀ r : TRaft, r.Separates → ∀ e ∈ r.approveRead.2.effects.drop r.effects.length, ∀ d term k, e.IsPing d term k →
      ∀ (v : TVolatileState) (n : ℕ) (state : TState), v.Commits n state →
        r.approveRead.1 ≤ (v.commitAdvance n state k).commitSeqno) ∧
    ∀ (raft : TRaft) (restored : TRsm ρ) (p : TRequestProcessor ρ),
      TRequestProcessor.Run delay rsm (TRequestProcessor.ReadsAt fun seqno => seqno < 2 ^ 64 ∧ FitsInt seqno)
        (.new raft restored) p →
      (p.strongWaiting.map (·.seqno)).Pairwise (· ≤ ·) ∧ ∀ w ∈ p.strongWaiting, w.seqno ≤ p.raft.seqno := by
  refine ⟨fun r peers small => TRaft.separates_iff peers (by omega), fun ids P s reach mem leads peers separates p run => ?_,
    fun r separates e member d term k ping v n state commits => ?_, fun raft restored p run => ?_⟩
  · obtain ⟨P₀, start, later⟩ := reach
    have agrees := Agrees.start (by decide : 0 < maxLogSize) start.1
    have pinging := (Pinging.start start.1).later agrees le_rfl later.rafts
    exact separates.before _ (TRequestProcessor.commitSeqno_run (pinging.counted s mem leads peers) run)
  · rw [commits.commitSeqno]
    exact (separates.after e member d term k ping).trans (le_max_right ..)
  · have start : TRequestProcessor.Ticketed (fun k => k) (.new raft restored) := Sorted.nil
    have ticketed := start.run monotone_id (fun k fits => (throughInt_eq_iff fits.1).mpr fits.2) run
    exact ⟨ticketed.sorted, ticketed.bounded⟩

/-- A leader that has given out `seqno` numbers. -/
def numbered (seqno : ℕ) : TRaft where
  id := 1
  nodes := [2]
  state := .ofLog 1 0 []
  seqno := seqno
  stateName := .leader

theorem read_ticket_seven : (numbered 7).Separates :=
  ((read_ticket (fun _ => 5000) (TDummyRsm.rsm [])).1 (numbered 7) (by decide) (by decide)).mpr (.inl (by decide))

/-- The ticket of `2 ^ 31` is above the number of the ping that is sent for it. -/
theorem read_ticket_overflows :
    (numbered (2 ^ 31)).approveRead.1 = 2 ^ 64 - 2 ^ 31 ∧
    (∃ e ∈ (numbered (2 ^ 31)).approveRead.2.effects, e.IsPing 2 1 (2 ^ 31)) ∧ ¬ (numbered (2 ^ 31)).Separates := by
  have ping : ∃ e ∈ (numbered (2 ^ 31)).approveRead.2.effects, e.IsPing 2 1 (2 ^ 31) :=
    ⟨_, List.mem_singleton_self _, rfl, rfl, rfl⟩
  refine ⟨by decide, ping, fun separates => ?_⟩
  obtain ⟨e, member, is_ping⟩ := ping
  have reached := separates.after e member 2 1 _ is_ping
  revert reached
  decide

end MiniRaft
