import MiniRaft.System

/-!
# State machine safety

What a server has applied was committed, and a committed entry is the same for all. The commit index is inside
the log, also while `OnAppendEntries` truncates it.
-/

namespace MiniRaft

open Lib

/-- Where a round of the loop of `OnAppendEntries` truncates the log, it keeps the first `n` entries. -/
def TState.Protects (n : ℕ) (message : TAppendEntriesRequest) (s : TState) : Prop :=
  ∀ (j : ℕ) (entry : TLogEntry), message.payload[j]? = some entry →
    let before := s.replaceAll message.prevLogIndex (message.payload.take j)
    before.logTerm (toInt64 (message.prevLogIndex + j + 1)) ≠ entry.term →
      s.log.take n <+: (before.truncate (message.prevLogIndex + j)).log

/-- Entry `e` has been committed at index `i`. -/
def Settled (ids : Finset ℕ) (h : History) (i : ℕ) (e : TLogEntry) : Prop :=
  ∃ t p, Decided ids h t p ∧ p[i - 1]? = some e

variable {ρ : Type*} {rsm : IRsm ρ} {p p' : TRequestProcessor ρ} {P P' : System ρ} {delay : UInt32 → ℕ} {lim : ℕ}
  {ids : Finset ℕ} {h h' : History} {s x base : ℕ} {r : TRaft} {label : System.Label}

theorem Settled.mono {i : ℕ} {e : TLogEntry} (le : h.Le h') (settled : Settled ids h i e) : Settled ids h' i e := by
  obtain ⟨t, p, decided, get⟩ := settled
  exact ⟨t, p, decided.mono le le_rfl, get⟩

theorem Settled.agree {i : ℕ} {d e : TLogEntry} (inv : h.Inv (majority ids) TLogEntry.term) (hd : Settled ids h i d)
    (he : Settled ids h i e) : d = e := by
  obtain ⟨t, p, decided, get⟩ := hd
  obtain ⟨u, q, decided', get'⟩ := he
  exact decided.agree inv decided' get get'

/-- The entries up to the commit index are committed. -/
theorem Sim.settled (sim : Sim lim ids h s r) (small : lim ≤ 2 ^ 31) {i : ℕ} (low : 1 ≤ i)
    (high : i ≤ r.volatileState.commitIndex) : Settled ids h i (r.state.get i) := by
  obtain ⟨inside, decided⟩ := sim.commit small
  refine ⟨_, _, decided, ?_⟩
  rw [get_take_of_lt (by omega)]
  exact r.state.get_eq_getElem low (high.trans inside)

/-- **Truncation spares what is committed.** -/
theorem Good.protects (good : Good lim ids s base h r) (small : lim ≤ 2 ^ 31) {message : TAppendEntriesRequest}
    (batch : Batch lim ids h x r.state.currentTerm message) (fits : TRaft.fitsLog message r.state) :
    r.state.Protects r.volatileState.commitIndex message := by
  intro j entry get before differs
  obtain ⟨inside, decided⟩ := good.sim.commit small
  have bound := batch.bound
  have short := good.fits r.state.currentTerm
  have room := (List.getElem?_eq_some_iff.mp get).1
  have committed : r.state.log.take r.volatileState.commitIndex <+: h.llog r.state.currentTerm :=
    decided.leader good.inv le_rfl batch.leads
  have merged := good.merge (by omega) batch fits (List.take_prefix j message.payload)
  have kept : r.state.log.take r.volatileState.commitIndex <+: before.log :=
    prefix_merge_of_prefixed merged (List.take_prefix ..) (List.take_prefix ..) committed
  have source : (h.llog r.state.currentTerm)[message.prevLogIndex + j]? = some entry := by
    rw [batch.piece, get_take_of_lt (by omega), List.getElem?_drop] at get
    exact get
  rw [before.logTerm_eq (by omega)] at differs
  rw [(before.truncate_spec _).1, List.prefix_take_iff]
  refine ⟨kept, ?_⟩
  -- a committed entry at the place of `entry` would be `entry` itself
  by_contra long
  rw [Nat.not_le] at long
  obtain ⟨e, here⟩ : ∃ e, (r.state.log.take r.volatileState.commitIndex)[message.prevLogIndex + j]? = some e :=
    ⟨_, List.getElem?_eq_getElem long⟩
  have same : e = entry := Option.some.inj ((get_of_prefixed committed here).symm.trans source)
  exact differs (same ▸ termAt_of_get (get_of_prefixed kept here))

/-- A history that agrees with all servers, and in which all that was applied is committed. -/
structure Consistent (lim : ℕ) (ids : Finset ℕ) (h : History) (P : System ρ) : Prop where
  agrees : Agrees lim ids h P.rafts
  settled : ∀ s ∈ ids, ∀ i e, (i, e) ∈ appliedOf (P s).events → Settled ids h i e

theorem Consistent.start (pos : 0 < lim) (start : System.Start ids P) : Consistent lim ids .start P where
  agrees := .start pos start.1
  settled s mem i e applied := by
    rw [start.2 s mem] at applied
    exact absurd applied List.not_mem_nil

/-- What one call adds to the applied entries is committed. -/
theorem Handled.settled {request : Request} (handled : Handled delay rsm p request p') (small : lim ≤ 2 ^ 31)
    (sim : Sim lim ids h s p.raft) (old : ∀ i e, (i, e) ∈ appliedOf p.events → Settled ids h i e) :
    ∀ i e, (i, e) ∈ appliedOf p'.events → Settled ids h i e := by
  rcases handled.quiet with ⟨-, rfl⟩ | quiet
  · obtain ⟨es, events, applied, -⟩ := (processCommitted_applies rsm p).1.events
    intro i e member
    rw [events, appliedOf_append, applied] at member
    rcases List.mem_append.mp member with member | member
    · exact old i e member
    · obtain ⟨k, pending, same⟩ := List.mem_map.mp member
      obtain ⟨rfl, rfl⟩ := Prod.mk.inj same
      have := List.mem_range'_1.mp pending
      exact sim.settled small (by omega) (by omega)
  · obtain ⟨es, events, none⟩ := quiet.events
    have nothing : appliedOf es = [] := List.filterMap_eq_nil_iff.mpr none
    intro i e member
    rw [events, appliedOf_append, nothing, List.append_nil] at member
    exact old i e member

theorem Consistent.step (con : Consistent lim ids h P) (small : lim ≤ 2 ^ 31) (st : System.Step delay lim ids rsm P label P') :
    ∃ h', h.Le h' ∧ Consistent lim ids h' P' := by
  obtain ⟨h', le, agrees⟩ := con.agrees.later (by omega) st.rafts
  refine ⟨h', le, agrees, fun x mem i e applied => ?_⟩
  have old := fun i e applied => (con.settled x mem i e applied).mono le
  rcases st.reacts x with idle | ⟨-, request, -, -, done⟩ | ⟨-, -, restored, restarted⟩
  · rw [idle] at applied
    exact old i e applied
  · exact ((Handled.of_handle done).settled small (con.agrees.sim x mem) (con.settled x mem) i e applied).mono le
  · rw [restarted] at applied
    exact old i e applied

theorem System.Reachable.consistent (pos : 0 < lim) (small : lim ≤ 2 ^ 31)
    (reach : System.Reachable delay lim ids rsm P) : ∃ h, Consistent lim ids h P := by
  obtain ⟨start, fresh, later⟩ := reach
  induction later with
  | refl => exact ⟨_, .start pos fresh⟩
  | tail _ st ih =>
    obtain ⟨h, con⟩ := ih
    obtain ⟨_, -, st⟩ := st
    obtain ⟨h', -, con'⟩ := con.step small st
    exact ⟨h', con'⟩

/-- A batch in flight does not truncate the committed part of the log that it reaches. -/
theorem Agrees.protects {c : Cluster} (agrees : Agrees lim ids h c) (small : lim ≤ 2 ^ 31) (mem : s ∈ ids) {now : Time}
    {ex : TMessageEx} {message : TAppendEntriesRequest}
    (sent : Cluster.Sent ids c s (.appendEntriesRequest ex message)) :
    let r := (c s).adoptTerm delay now (some ex)
    ex.term = r.state.currentTerm → TRaft.fitsLog message r.state →
      r.state.Protects r.volatileState.commitIndex message := by
  intro r same fits
  obtain ⟨x, -, sound⟩ := agrees.sent sent
  obtain ⟨h', ev, good⟩ : Moves lim ids s _ h r := (agrees.good mem).adoptTerm (some ex)
  have batch := sound.2.mono (Evolve.evolved agrees.inv ev).le
  exact good.protects small (same ▸ batch) fits

/-- **State machine safety.** Two servers that applied or skipped an entry at the same index did so with the same
entry. The commit index is inside the log, so that `ProcessCommitted` reads entries that exist, and no batch that
can arrive truncates the log below it. -/
theorem state_machine_safety (delay : UInt32 → ℕ) (rsm : IRsm ρ) (ids : Finset ℕ) {P : System ρ}
    (reach : System.Reachable delay (2 ^ 31) ids rsm P) :
    (∀ s ∈ ids, ∀ x ∈ ids, ∀ (i : ℕ) (d e : TLogEntry), (i, d) ∈ appliedOf (P s).events →
      (i, e) ∈ appliedOf (P x).events → d = e) ∧
    ∀ s ∈ ids, (P s).raft.volatileState.commitIndex ≤ (P s).raft.state.lastLogIndex ∧
      (∀ i ∈ (P s).pending, 1 ≤ i ∧ i ≤ (P s).raft.state.lastLogIndex) ∧
      ∀ (now : Time) (ex : TMessageEx) (message : TAppendEntriesRequest),
        Cluster.Sent ids P.rafts s (.appendEntriesRequest ex message) →
        let r := (P s).raft.adoptTerm delay now (some ex)
        ex.term = r.state.currentTerm → TRaft.fitsLog message r.state →
          r.state.Protects r.volatileState.commitIndex message := by
  obtain ⟨h, con⟩ := reach.consistent (by decide) le_rfl
  refine ⟨fun s mem x mem' i d e hd he => ?_, fun s mem => ?_⟩
  · exact (con.settled s mem i d hd).agree con.agrees.inv (con.settled x mem' i e he)
  · have inside : (P s).raft.volatileState.commitIndex ≤ (P s).raft.state.lastLogIndex :=
      (P s).raft.state.index_eq ▸ ((con.agrees.sim s mem).commit le_rfl).1
    refine ⟨inside, fun i pending => ?_, fun now ex message sent => con.agrees.protects le_rfl mem sent⟩
    have := List.mem_range'_1.mp pending
    omega

/-- Server 1 leads, and both it and server 2 apply a write. -/
def replicated : List Cue :=
  [.request 1 (.processTimeout 1000000000), .deliver 1000000000 1 1, .deliver 1000000000 2 2,
    .request 1 (.processTimeout 1000000000),
    .request 1 (.onCommandRequest { flags := 1, cookie := 5, data := [65] } (some 7)),
    .deliver 1000000000 1 2, .deliver 1000000000 2 3, .request 1 (.processTimeout 1000000000),
    .deliver 1000000000 1 3, .request 1 .processCommitted, .request 2 .processCommitted]

theorem state_machine_safety_replicated : ∃ P,
    System.Reachable (fun _ => 5000) (2 ^ 31) [1, 2].toFinset (TDummyRsm.rsm []) P ∧
    (2, { term := 2, data := [65] }) ∈ appliedOf (P 2).events ∧
    ∀ d, (2, d) ∈ appliedOf (P 1).events → d = { term := 2, data := [65] } := by
  obtain ⟨P, reach, applied⟩ := System.reachable_of_rehearse [1, 2] replicated (by decide) (by decide)
    (fun P => (2, { term := 2, data := [65] }) ∈ appliedOf (P 2).events) (by decide +kernel)
  exact ⟨P, reach, applied, fun d there =>
    (state_machine_safety _ _ _ reach).1 1 (by decide) 2 (by decide) 2 d _ there applied⟩

end MiniRaft
