import MiniRaft.Commit

/-!
# Acknowledgements

What a leader knows after a number of responses depends on which responses it has seen, and not on their order or
on how often it has seen each.
-/

namespace MiniRaft

open Lib

/-- A response to an `AppendEntries` request, with the time at which it is processed. -/
structure Ack where
  now : Time
  ex : TMessageEx
  body : TAppendEntriesResponse

namespace TRaft

/-- The response is of the present term, from a configured peer, about an index in the log. -/
structure Expects (r : TRaft) (ack : Ack) : Prop where
  present : ack.ex.term = r.state.currentTerm
  peer : ack.ex.src ∈ r.nodes
  within : ack.body.matchIndex ≤ r.state.lastLogIndex

/-- The responses are processed one after the other. -/
def processAcks (delay : UInt32 → ℕ) (acks : List Ack) (r : TRaft) : TRaft :=
  acks.foldl (fun r ack => r.process delay ack.now (.appendEntriesResponse ack.ex ack.body)) r

/-- A leader with match indices of configured peers, within its log. -/
structure Counting (r : TRaft) : Prop where
  leads : r.stateName = .leader
  nodup : r.nodes.Nodup
  keys : ∀ id ∈ r.volatileState.matchIndex, id ∈ r.nodes
  within : ∀ id, r.volatileState.matchOf id ≤ r.state.lastLogIndex
  ordered : r.state.Ordered
  small : r.state.log.length < maxLogSize

variable {delay : UInt32 → ℕ} {r r' : TRaft} {ack : Ack} {acks acks' : List Ack}

theorem sized_of_keys {v : TVolatileState} {nodes : List ℕ} {last : ℕ} (keys : ∀ id ∈ v.matchIndex, id ∈ nodes)
    (within : ∀ id, v.matchOf id ≤ last) : v.Sized (nodes.length + 1) last where
  peers := by
    have inside := List.subperm_of_subset v.matchIndex.keys_nodup fun id key => keys id (AList.mem_keys.mpr key)
    exact Nat.succ_le_succ inside.length_le
  within := within

theorem Counting.sized (counting : r.Counting) : r.volatileState.Sized r.nservers r.state.lastLogIndex :=
  sized_of_keys counting.keys counting.within

/-- The position of the present match indices. -/
def position (r : TRaft) : ℕ := r.volatileState.position r.nservers r.state.lastLogIndex

/-- What a response leaves behind. -/
structure Counted (ack : Ack) (r r' : TRaft) : Prop where
  state : r'.state = r.state
  nodes : r'.nodes = r.nodes
  name : r'.stateName = r.stateName
  matchIndex : r'.volatileState.matchIndex =
    if ack.body.success then (r.volatileState.setMatchIndex ack.ex.src
      (max (r.volatileState.matchOf ack.ex.src) ack.body.matchIndex)).matchIndex
    else r.volatileState.matchIndex
  commitIndex : r'.volatileState.commitIndex =
    if ack.body.success then r.state.advance r.volatileState.commitIndex r'.position else r.volatileState.commitIndex

theorem Counted.matchOf (counted : Counted ack r r') (id : ℕ) : r'.volatileState.matchOf id =
    if ack.body.success ∧ id = ack.ex.src then max (r.volatileState.matchOf id) ack.body.matchIndex
    else r.volatileState.matchOf id := by
  rw [TVolatileState.matchOf, counted.matchIndex]
  by_cases success : ack.body.success = true
  · have := r.volatileState.matchOf_setMatchIndex ack.ex.src
      (max (r.volatileState.matchOf ack.ex.src) ack.body.matchIndex) id
    rw [TVolatileState.matchOf] at this
    simp only [success, if_true, true_and]
    rw [this]
    split
    · rename_i same; rw [same]
    · rfl
  · simp only [success, Bool.false_eq_true, if_false, false_and]
    rfl

theorem Counted.bound (counted : Counted ack r r') (id x : ℕ) : r'.volatileState.matchOf id ≤ x ↔
    r.volatileState.matchOf id ≤ x ∧ (ack.body.success → ack.ex.src = id → ack.body.matchIndex ≤ x) := by
  rw [counted.matchOf]
  split
  · rename_i own
    simp [own.1, own.2]
  · rename_i other
    refine (and_iff_left fun success same => ?_).symm
    exact absurd ⟨success, same.symm⟩ other

theorem Counted.mem (counted : Counted ack r r') (id : ℕ) : id ∈ r'.volatileState.matchIndex ↔
    id ∈ r.volatileState.matchIndex ∨ ack.body.success ∧ ack.ex.src = id := by
  rw [counted.matchIndex]
  split
  · rename_i success
    simp only [success, true_and]
    rw [TVolatileState.setMatchIndex, AList.mem_insert, or_comm, eq_comm]
  · rename_i failure
    simp [failure]

theorem Counted.counting (counted : Counted ack r r') (counting : r.Counting) (expects : r.Expects ack) : r'.Counting where
  leads := counted.name.trans counting.leads
  nodup := counted.nodes ▸ counting.nodup
  keys := by
    intro id key
    rw [counted.nodes]
    rcases (counted.mem id).mp key with old | ⟨-, rfl⟩
    · exact counting.keys id old
    · exact expects.peer
  within := by
    intro id
    rw [counted.matchOf, counted.state]
    split
    · exact max_le (counting.within id) expects.within
    · exact counting.within id
  ordered := counted.state ▸ counting.ordered
  small := counted.state ▸ counting.small

/-- **One response.** -/
theorem Counting.process (counting : r.Counting) (expects : r.Expects ack) (delay : UInt32 → ℕ) :
    Counted ack r (r.process delay ack.now (.appendEntriesResponse ack.ex ack.body)) := by
  have same : r.process delay ack.now (.appendEntriesResponse ack.ex ack.body) =
      r.onAppendEntriesResponse ack.ex ack.body := by
    unfold TRaft.process TRaft.adoptTerm
    simp only [TMessage.ex?]
    rw [if_neg (by rw [expects.present]; omega), dispatch, counting.leads]
    rfl
  rw [same]
  have taken := r.responding ack.ex ack.body
  generalize r.onAppendEntriesResponse ack.ex ack.body = r' at taken ⊢
  cases taken with
  | outdated other => exact absurd expects.present other
  | matched _ success =>
    have sized : (r.volatileState.matched ack.ex.src ack.body.matchIndex).Sized r.nservers r.state.lastLogIndex := by
      apply sized_of_keys
      · intro id key
        rcases TVolatileState.mem_setMatchIndex key with rfl | old
        · exact expects.peer
        · exact counting.keys id old
      · intro id
        change (r.volatileState.setMatchIndex ack.ex.src _).matchOf id ≤ _
        rw [TVolatileState.matchOf_setMatchIndex]
        split
        · exact max_le (counting.within ack.ex.src) expects.within
        · exact counting.within id
    refine ⟨rfl, rfl, rfl, ?_, ?_⟩
    · rw [if_pos success, TVolatileState.matchIndex_commitAdvance]
      rfl
    · rw [if_pos success]
      apply (sized.commitIndex_commitAdvance counting.small ack.ex.seqno).trans
      unfold position
      rw [TVolatileState.position_commitAdvance]
      rfl
  | failed _ failure =>
    have refused : ¬ ack.body.success := by rw [failure]; exact Bool.false_ne_true
    refine ⟨rfl, rfl, rfl, ?_, ?_⟩
    · rw [if_neg refused]
      rfl
    · rw [if_neg refused]
      rfl

/-- **A number of responses.** The match index of a peer is the greatest one seen, and the commit index is what one
`CommitAdvance` at the end would have made of it. -/
structure Merged (acks : List Ack) (r r' : TRaft) : Prop where
  state : r'.state = r.state
  nodes : r'.nodes = r.nodes
  name : r'.stateName = r.stateName
  bound : ∀ id x, r'.volatileState.matchOf id ≤ x ↔
    r.volatileState.matchOf id ≤ x ∧ ∀ a ∈ acks, a.body.success → a.ex.src = id → a.body.matchIndex ≤ x
  mem : ∀ id, id ∈ r'.volatileState.matchIndex ↔
    id ∈ r.volatileState.matchIndex ∨ ∃ a ∈ acks, a.body.success ∧ a.ex.src = id
  commitIndex : r'.volatileState.commitIndex =
    if acks.any (·.body.success) then r.state.advance r.volatileState.commitIndex r'.position
    else r.volatileState.commitIndex

theorem Merged.nil (r : TRaft) : Merged [] r r := ⟨rfl, rfl, rfl, by simp, by simp, rfl⟩

/-- Nothing is taken back. -/
theorem Merged.matchOf_le (merged : Merged acks r r') (id : ℕ) :
    r.volatileState.matchOf id ≤ r'.volatileState.matchOf id := ((merged.bound id _).mp le_rfl).1

theorem Merged.commitIndex_le (merged : Merged acks r r') : r.volatileState.commitIndex ≤ r'.volatileState.commitIndex := by
  rw [merged.commitIndex]
  split
  · exact r.state.le_advance ..
  · exact le_rfl

theorem Counting.position_le (counting : r.Counting) : r.position ≤ r.state.log.length :=
  counting.sized.position_le.trans r.state.index_eq.le

/-- The position does not go back. -/
theorem Counting.position_mono (counting : r.Counting) (counting' : r'.Counting) (nodes : r'.nodes = r.nodes)
    (state : r'.state = r.state) (grown : ∀ id, r.volatileState.matchOf id ≤ r'.volatileState.matchOf id) :
    r.position ≤ r'.position := by
  have sized' := counting'.sized
  unfold position nservers at *
  rw [nodes, state] at sized' ⊢
  exact TVolatileState.position_mono counting.sized sized' grown

/-- One more response. -/
theorem Merged.snoc {r₁ : TRaft} (merged : Merged acks r r₁) (counting₁ : r₁.Counting) (counting' : r'.Counting)
    (counted : Counted ack r₁ r') : Merged (acks ++ [ack]) r r' := by
  refine ⟨counted.state.trans merged.state, counted.nodes.trans merged.nodes, counted.name.trans merged.name,
    fun id x => ?_, fun id => ?_, ?_⟩
  · rw [counted.bound, merged.bound, and_assoc, List.forall_mem_append, List.forall_mem_singleton]
  · rw [counted.mem, merged.mem, or_assoc]
    simp only [List.mem_append, List.mem_singleton, or_and_right, exists_or, exists_eq_left]
  · rw [counted.commitIndex, merged.commitIndex, List.any_append]
    by_cases success : ack.body.success = true
    · -- the position has not gone back since the last success
      have later := counting₁.position_mono counting' counted.nodes counted.state fun id =>
        ((counted.bound id _).mp le_rfl).1
      have inside := counting'.position_le
      rw [counted.state] at inside
      simp only [success, if_true, List.any_cons, Bool.true_or, Bool.or_true]
      split
      · rw [← merged.state, counting₁.ordered.advance_advance later inside]
      · rw [merged.state]
    · have same : r'.position = r₁.position := by
        unfold position nservers TVolatileState.position TVolatileState.indices
        rw [counted.nodes, counted.state, counted.matchIndex, if_neg success]
      simp only [success, Bool.false_eq_true, if_false, List.any_cons, List.any_nil, Bool.or_false, same]

theorem processAcks_append (delay : UInt32 → ℕ) (first rest : List Ack) (r : TRaft) :
    r.processAcks delay (first ++ rest) = (r.processAcks delay first).processAcks delay rest := List.foldl_append ..

theorem Counting.processAcks (counting : r.Counting) (expects : ∀ a ∈ acks, r.Expects a) (delay : UInt32 → ℕ) :
    (r.processAcks delay acks).Counting ∧ Merged acks r (r.processAcks delay acks) := by
  induction acks using List.reverseRecOn with
  | nil => exact ⟨counting, .nil r⟩
  | append_singleton acks ack ih =>
    obtain ⟨counting₁, merged⟩ := ih fun a ha => expects a (List.mem_append_left _ ha)
    have last := expects ack (by simp)
    have expected : (r.processAcks delay acks).Expects ack :=
      ⟨merged.state ▸ last.present, merged.nodes ▸ last.peer, merged.state ▸ last.within⟩
    have counted := counting₁.process expected delay
    have counting' := counted.counting counting₁ expected
    rw [processAcks_append]
    exact ⟨counting', merged.snoc counting₁ counting' counted⟩

/-- Every response of `acks` is in `acks'`, perhaps processed at another time. -/
def Covers (acks' acks : List Ack) : Prop := ∀ a ∈ acks, ∃ a' ∈ acks', a'.ex = a.ex ∧ a'.body = a.body

theorem Covers.any (covers : Covers acks' acks) (some_ : acks.any (·.body.success)) : acks'.any (·.body.success) := by
  obtain ⟨a, member, success⟩ := List.any_eq_true.mp some_
  obtain ⟨a', member', -, body⟩ := covers a member
  exact List.any_eq_true.mpr ⟨a', member', body ▸ success⟩

/-- More responses, greater match indices. -/
theorem Merged.matchOf_of_covers {r₁ r₂ : TRaft} (merged : Merged acks r r₁) (merged' : Merged acks' r r₂)
    (covers : Covers acks' acks) (id : ℕ) : r₁.volatileState.matchOf id ≤ r₂.volatileState.matchOf id := by
  rw [merged.bound]
  obtain ⟨start, seen⟩ := (merged'.bound id _).mp le_rfl
  refine ⟨start, fun a member success source => ?_⟩
  obtain ⟨a', member', ex, body⟩ := covers a member
  rw [← body] at success ⊢
  exact seen a' member' success (ex ▸ source)

theorem Merged.mem_of_covers {r₁ r₂ : TRaft} (merged : Merged acks r r₁) (merged' : Merged acks' r r₂)
    (covers : Covers acks' acks) {id : ℕ} (key : id ∈ r₁.volatileState.matchIndex) : id ∈ r₂.volatileState.matchIndex := by
  rw [merged'.mem]
  rcases (merged.mem id).mp key with old | ⟨a, member, success, source⟩
  · exact .inl old
  · obtain ⟨a', member', ex, body⟩ := covers a member
    exact .inr ⟨a', member', body ▸ success, ex ▸ source⟩

end TRaft

/-- A table is determined by its keys and what is read from it. -/
theorem TVolatileState.lookup_congr {v v' : TVolatileState} {id : ℕ} (keys : id ∈ v.matchIndex ↔ id ∈ v'.matchIndex)
    (same : v.matchOf id = v'.matchOf id) : v.matchIndex.lookup id = v'.matchIndex.lookup id := by
  rw [← AList.lookup_isSome, ← AList.lookup_isSome] at keys
  unfold TVolatileState.matchOf at same
  cases here : v.matchIndex.lookup id <;> cases there : v'.matchIndex.lookup id <;> simp_all

/-- **Acknowledgements commute.** A leader processes two lists of responses of its term from its peers. Where each of the
lists has the responses of the other, in whatever order and as often as one likes, the leader ends with the same match
indices and the same commit index. On the way neither decreases. -/
theorem acknowledgements_commute (delay : UInt32 → ℕ) {r : TRaft} (counting : r.Counting) {acks acks' : List Ack}
    (expects : ∀ a ∈ acks, r.Expects a) (covers : TRaft.Covers acks' acks) (covers' : TRaft.Covers acks acks') :
    let after := (r.processAcks delay acks).volatileState
    let after' := (r.processAcks delay acks').volatileState
    (∀ id, after.matchIndex.lookup id = after'.matchIndex.lookup id) ∧ after.commitIndex = after'.commitIndex ∧
    ∀ first second, first <+: second → second <+: acks →
      (∀ id, (r.processAcks delay first).volatileState.matchOf id ≤ (r.processAcks delay second).volatileState.matchOf id) ∧
      (r.processAcks delay first).volatileState.commitIndex ≤ (r.processAcks delay second).volatileState.commitIndex := by
  have expects' : ∀ a ∈ acks', r.Expects a := by
    intro a' member'
    obtain ⟨a, member, ex, body⟩ := covers' a' member'
    have known := expects a member
    exact ⟨ex ▸ known.present, ex ▸ known.peer, body ▸ known.within⟩
  obtain ⟨counting₁, merged⟩ := counting.processAcks expects delay
  obtain ⟨counting₂, merged'⟩ := counting.processAcks expects' delay
  have same : ∀ id, (r.processAcks delay acks).volatileState.matchOf id =
      (r.processAcks delay acks').volatileState.matchOf id := fun id =>
    Nat.le_antisymm (merged.matchOf_of_covers merged' covers id) (merged'.matchOf_of_covers merged covers' id)
  refine ⟨fun id => ?_, ?_, fun first second before inside => ?_⟩
  · exact TVolatileState.lookup_congr ⟨merged.mem_of_covers merged' covers, merged'.mem_of_covers merged covers'⟩ (same id)
  · have successes : acks.any (·.body.success) = acks'.any (·.body.success) :=
      Bool.eq_iff_iff.mpr ⟨covers.any, covers'.any⟩
    have nodes := merged'.nodes.trans merged.nodes.symm
    have state := merged'.state.trans merged.state.symm
    have position := Nat.le_antisymm (counting₁.position_mono counting₂ nodes state fun id => (same id).le)
      (counting₂.position_mono counting₁ nodes.symm state.symm fun id => (same id).ge)
    rw [merged.commitIndex, merged'.commitIndex, successes, position]
  · obtain ⟨rest, rfl⟩ := before
    have known : ∀ a ∈ first ++ rest, r.Expects a := fun a member => expects a (inside.mem member)
    obtain ⟨counting₃, merged₃⟩ := counting.processAcks (fun a member => known a (List.mem_append_left _ member)) delay
    have later : ∀ a ∈ rest, (r.processAcks delay first).Expects a := by
      intro a member
      have last := known a (List.mem_append_right _ member)
      exact ⟨merged₃.state ▸ last.present, merged₃.nodes ▸ last.peer, merged₃.state ▸ last.within⟩
    obtain ⟨-, merged₄⟩ := counting₃.processAcks later delay
    rw [TRaft.processAcks_append]
    exact ⟨merged₄.matchOf_le, merged₄.commitIndex_le⟩

/-- Server 1 of three leads in term 1 with one entry. -/
def countingLeader : TRaft where
  id := 1
  nodes := [2, 3]
  state := oneEntry
  stateName := .leader

theorem countingLeader_counting : countingLeader.Counting where
  leads := rfl
  nodup := by decide
  keys := fun id key => absurd key (AList.notMem_empty id)
  within := fun id => Nat.zero_le _
  ordered := oneEntry_ordered
  small := by decide

/-- A success of server 2 and a failure of server 3, in both orders. -/
theorem acknowledgements_commute_two :
    let stored : Ack := { now := 1, ex := { src := 2, dst := 1, term := 1 }, body := { matchIndex := 1, success := true } }
    let refused : Ack := { now := 2, ex := { src := 3, dst := 1, term := 1 }, body := { matchIndex := 0, success := false } }
    (countingLeader.processAcks (fun _ => 5000) [stored, refused]).volatileState.commitIndex =
      (countingLeader.processAcks (fun _ => 5000) [refused, stored, stored]).volatileState.commitIndex := by
  intro stored refused
  have expects : ∀ a ∈ [stored, refused], countingLeader.Expects a := by
    simp only [List.forall_mem_cons, List.not_mem_nil, false_imp_iff, implies_true, and_true]
    exact ⟨⟨rfl, by decide, by decide⟩, ⟨rfl, by decide, by decide⟩⟩
  have covers : TRaft.Covers [refused, stored, stored] [stored, refused] := fun a member =>
    ⟨a, by simp at member ⊢; tauto, rfl, rfl⟩
  have covers' : TRaft.Covers [stored, refused] [refused, stored, stored] := fun a member =>
    ⟨a, by simp at member ⊢; tauto, rfl, rfl⟩
  exact (acknowledgements_commute (fun _ => 5000) countingLeader_counting expects covers covers').2.1

end MiniRaft
