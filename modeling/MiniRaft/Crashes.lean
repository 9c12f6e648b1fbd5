import MiniRaft.Lib.Unfinished
import MiniRaft.Matching

/-!
# Crashes inside a call

A process may die at any point of a call: between two operations on its `IState`, between the last of them and the
first message, and between two messages. It restarts on what was stored by then. An operation of the `IState` itself
happens or does not happen.
-/

namespace MiniRaft

open Lib

namespace TState

/-- What is stored in the course of `while (LastLogIndex > n) RemoveLast()`. -/
def removing (n : ℕ) : ℕ → TState → List TState
  | 0, s => [s]
  | rounds + 1, s => s :: if n < s.lastLogIndex then removing n rounds s.removeLast else []

/-- What is stored in one round of the loop of `OnAppendEntries`, up to `Append`. -/
def replacing (index : ℕ) (entry : TLogEntry) (s : TState) : List TState :=
  if s.logTerm (toInt64 index) ≠ entry.term then removing (index - 1) s.lastLogIndex s else [s]

/-- What is stored in the course of the loop of `OnAppendEntries`. -/
def merging (index : ℕ) : List TLogEntry → TState → List TState
  | [], s => [s]
  | entry :: payload, s => s.replacing (index + 1) entry ++ merging (index + 1) payload (s.replace (index + 1) entry)

/-- Two conflicting entries go one by one before the first entry of the payload is appended. -/
example : (merging 1 [{ term := 5 }] (.ofLog 5 0 [{ term := 1 }, { term := 2 }, { term := 2 }])).map
    (fun s => s.log.map TLogEntry.term) = [[1, 2, 2], [1, 2], [1], [1, 5]] := by decide

/-- `s'` has a beginning of the log of `s`, of `n` entries at least if `s` has them. -/
structure Shortened (n : ℕ) (s s' : TState) : Prop where
  log : ∃ j ≥ n, s'.log = s.log.take j
  currentTerm : s'.currentTerm = s.currentTerm
  votedFor : s'.votedFor = s.votedFor

theorem Shortened.refl (n : ℕ) (s : TState) : Shortened n s s :=
  ⟨⟨max n s.log.length, le_max_left .., (List.take_of_length_le (le_max_right ..)).symm⟩, rfl, rfl⟩

theorem Shortened.of_removeLast {n : ℕ} {s s' : TState} (more : n < s.log.length) (short : Shortened n s.removeLast s') :
    Shortened n s s' := by
  obtain ⟨⟨j, le, log⟩, term, vote⟩ := short
  rw [log_removeLast, List.dropLast_eq_take, List.take_take] at log
  exact ⟨⟨_, by omega, log⟩, term, vote⟩

theorem shortened_of_mem_removing (n : ℕ) : ∀ {rounds : ℕ} {s s' : TState}, s' ∈ removing n rounds s → Shortened n s s' := by
  intro rounds
  induction rounds with
  | zero =>
    intro s s' mem
    rw [List.mem_singleton.mp mem]
    exact .refl n s
  | succ rounds ih =>
    intro s s' mem
    rcases List.mem_cons.mp mem with rfl | later
    · exact .refl n s'
    · split at later
      · rename_i more
        rw [s.index_eq] at more
        exact (ih later).of_removeLast more
      · cases later

/-- **In the course of the loop** a first part of the payload is merged, and the log may be cut off on the way to the
next entry, which is not the one it has there. -/
theorem of_mem_merging : ∀ {payload : List TLogEntry} {index : ℕ} {s s' : TState}, s' ∈ merging index payload s →
    ∃ part, part <+: payload ∧ (s' = replaceAll index part s ∨ ∃ entry, part ++ [entry] <+: payload ∧
      (replaceAll index part s).logTerm (toInt64 (index + part.length + 1)) ≠ entry.term ∧
      Shortened (index + part.length) (replaceAll index part s) s') := by
  intro payload
  induction payload with
  | nil =>
    intro index s s' mem
    exact ⟨[], List.prefix_rfl, .inl (List.mem_singleton.mp mem)⟩
  | cons entry payload ih =>
    intro index s s' mem
    rcases List.mem_append.mp mem with here | later
    · refine ⟨[], List.nil_prefix, ?_⟩
      unfold replacing at here
      split at here
      · rename_i conflict
        exact .inr ⟨entry, ⟨payload, rfl⟩, conflict, shortened_of_mem_removing index here⟩
      · exact .inl (List.mem_singleton.mp here)
    · obtain ⟨part, pre, reached⟩ := ih later
      refine ⟨entry :: part, (List.cons_prefix_cons).mpr ⟨rfl, pre⟩, reached.imp_right ?_⟩
      rintro ⟨next, pre', conflict, short⟩
      rw [show index + 1 + part.length = index + (entry :: part).length by simp; omega] at conflict short
      exact ⟨next, (List.cons_prefix_cons).mpr ⟨rfl, pre'⟩, conflict, short⟩

end TState

namespace TRaft

/-- Where a call may be cut off: what is stored by then, and what is sent by then. -/
inductive Halts (delay : UInt32 → ℕ) (r : TRaft) : Call → TRaft → Prop where
  | begun {call : Call} : Halts delay r call r
  /-- `Process` has stored the later term. -/
  | adopted {now : Time} {m : TMessage} : Halts delay r (.process now m) (r.adoptTerm delay now m.ex?)
  /-- `OnAppendEntries` is in its loop. -/
  | merging {now : Time} {ex : TMessageEx} {body : TAppendEntriesRequest} {state : TState}
      (present : ex.term = (r.adoptTerm delay now (some ex)).state.currentTerm)
      (fits : fitsLog body (r.adoptTerm delay now (some ex)).state)
      (mem : state ∈ TState.merging body.prevLogIndex body.payload (r.adoptTerm delay now (some ex)).state) :
      Halts delay r (.process now (.appendEntriesRequest ex body)) { r.adoptTerm delay now (some ex) with state := state }
  /-- `ProcessTimeout` has stored the new term and the vote for itself. -/
  | stood {now : Time} (due : r.electionIsDue now) : Halts delay r (.processTimeout now) (r.startElection delay now)
  /-- All is stored, and some of the messages are sent. -/
  | sending {call : Call} {done rest : List TEffect} (split : (r.perform delay call).effects = done ++ rest)
      (begun : r.effects <+: done) (unsent : ∀ e ∈ rest, ∃ dst m, e = .send dst m) :
      Halts delay r call { r.perform delay call with effects := done }

end TRaft

namespace Cluster

/-- A call, or a call that is cut off and the restart that follows. -/
inductive HaltStep (delay : UInt32 → ℕ) (lim : ℕ) (ids : Finset ℕ) (c : Cluster) : Cluster → Prop where
  | call {s : ℕ} (mem : s ∈ ids) (call : Call) (enabled : Enabled ids c s call)
      (room : ((c s).perform delay call).state.log.length < lim) :
      HaltStep delay lim ids c (Function.update c s ((c s).perform delay call))
  | halt {s : ℕ} (mem : s ∈ ids) (call : Call) (enabled : Enabled ids c s call) {r : TRaft}
      (halts : (c s).Halts delay call r) (room : r.state.log.length < lim) :
      HaltStep delay lim ids c (Function.update c s r.restart)

def HaltLater (delay : UInt32 → ℕ) (lim : ℕ) (ids : Finset ℕ) : Cluster → Cluster → Prop :=
  Relation.ReflTransGen (HaltStep delay lim ids)

def HaltReachable (delay : UInt32 → ℕ) (lim : ℕ) (ids : Finset ℕ) (c : Cluster) : Prop :=
  ∃ start, Start ids start ∧ HaltLater delay lim ids start c

end Cluster

variable {lim base : ℕ} {ids : Finset ℕ} {h h' : History} {c c' : Cluster} {s x : ℕ} {r : TRaft} {delay : UInt32 → ℕ}
  {now : Time}

/-- What server `s` has done leads from history `h` to `h'`, which says the truth about its present state `r`. -/
structure Reaches (lim : ℕ) (ids : Finset ℕ) (s : ℕ) (h h' : History) (r : TRaft) : Prop where
  evolved : Evolved (majority ids) TLogEntry.term s h h'
  stored : h.Stored → h'.Stored
  fits : ∀ t, (h'.llog t).length < lim
  sim : Sim lim ids h' s r

namespace Reaches

theorem of_moves (inv : h.Inv (majority ids) TLogEntry.term) (moves : Moves lim ids s base h r) :
    ∃ h', Reaches lim ids s h h' r := by
  obtain ⟨h', ev, good⟩ := moves
  exact ⟨h', Evolve.evolved inv ev, ev.stored inv, good.fits, good.sim⟩

/-- Not all was sent, and the rest of the memory is lost. -/
theorem restart (leads : Reaches lim ids s h h' r) {r' : TRaft} (id : r'.id = r.id) (nodes : r'.nodes = r.nodes)
    (state : r'.state = r.state) (part : r'.effects ⊆ r.effects) : Reaches lim ids s h h' r'.restart :=
  { leads with
    sim := {
      id := id.trans leads.sim.id
      nodup := nodes ▸ leads.sim.nodup
      peers := nodes ▸ leads.sim.peers
      term := leads.sim.term.trans (congrArg (fun σ : TState => σ.currentTerm) state.symm)
      log := leads.sim.log.trans (congrArg TState.log state.symm)
      vote := fun c => by
        change h'.vote s r'.state.currentTerm = some c ↔ r'.state.votedFor = c ∧ c ≠ 0
        rw [state]
        exact leads.sim.vote c
      candidate := nofun
      leader := nofun
      commit := fun _ => ⟨Nat.zero_le _, Hist.Decided.nil _⟩
      sent := fun {_ _} m => leads.sim.sent (part m) } }

/-- A message was not sent. -/
theorem unsent {d : ℕ} {m : TMessage} (leads : Reaches lim ids s h h' (r.send d m)) : Reaches lim ids s h h' r.restart := by
  refine leads.restart (TRaft.id_send d m r).symm (TRaft.nodes_send d m r).symm (TRaft.state_send d m r).symm ?_
  rw [TRaft.effects_send]
  exact List.subset_append_left ..

/-- The log was cut off while conflicting entries were removed. -/
theorem cut (leads : Reaches lim ids s h h' r) {n : ℕ} (parts : h'.Parts s n) {state : TState}
    (short : TState.Shortened n r.state state) :
    ∃ h'', Reaches lim ids s h h'' { r with state := state }.restart := by
  obtain ⟨⟨j, le, log⟩, term, vote⟩ := short
  have sim := leads.sim
  have evolved := parts.evolved le leads.evolved.inv
  refine ⟨h'.cut s j, leads.evolved.trans evolved, fun stored => parts.stored le (leads.stored stored), leads.fits, ?_⟩
  exact {
    id := sim.id
    nodup := sim.nodup
    peers := sim.peers
    term := sim.term.trans term.symm
    log := by
      rw [Hist.log_cut_self, sim.log]
      exact log.symm
    vote := fun c => by
      change h'.vote s state.currentTerm = some c ↔ state.votedFor = c ∧ c ≠ 0
      rw [term, vote]
      exact sim.vote c
    candidate := nofun
    leader := nofun
    commit := fun _ => ⟨Nat.zero_le _, Hist.Decided.nil _⟩
    sent := fun m => ⟨(sim.sent m).1, (sim.sent m).2.mono evolved.le⟩ }

end Reaches

/-- The first part of a batch is a batch, of which nothing is said to be committed. -/
theorem Batch.part {t : ℕ} {body : TAppendEntriesRequest} (batch : Batch lim ids h x t body) {part : List TLogEntry}
    (pre : part <+: body.payload) : Batch lim ids h x t { body with payload := part, leaderCommit := 0 } where
  leads := batch.leads
  bound := (Nat.add_le_add_left pre.length_le _).trans batch.bound
  piece := by
    have whole := List.prefix_iff_eq_take.mp pre
    rwa [batch.piece, List.take_take, Nat.min_eq_left pre.length_le] at whole
  prevTerm := batch.prevTerm
  commit := fun _ => ⟨Nat.zero_le _, Hist.Decided.nil _⟩

/-- The entry after a first part of the payload, in the leader log. -/
theorem Batch.next {t : ℕ} {body : TAppendEntriesRequest} (batch : Batch lim ids h x t body) {part : List TLogEntry}
    {entry : TLogEntry} (pre : part ++ [entry] <+: body.payload) :
    (h.llog t)[body.prevLogIndex + part.length]? = some entry := by
  have piece := (batch.part pre).piece
  have here : (part ++ [entry])[part.length]? = some entry := by simp
  dsimp only at piece
  rw [piece, List.length_append, List.length_singleton, get_take_of_lt (Nat.lt_succ_self _), List.getElem?_drop] at here
  exact here

namespace Good

/-- A first part of the payload is merged, and the reply is not sent. -/
theorem merged_part (good : Good lim ids s base h r) (small : lim ≤ 2 ^ 63) (peer : x ∈ ids.erase s) {ex : TMessageEx}
    {body : TAppendEntriesRequest} (sound : Sound lim ids h x s (.appendEntriesRequest ex body))
    (present : ex.term = r.state.currentTerm) (fits : TRaft.fitsLog body r.state) {part : List TLogEntry}
    (pre : part <+: body.payload) :
    ∃ h', Reaches lim ids s h h' { r with state := r.state.replaceAll body.prevLogIndex part }.restart := by
  let body' := { body with payload := part, leaderCommit := 0 }
  have sound' : Sound lim ids h x s (.appendEntriesRequest ex body') := ⟨sound.1, sound.2.part pre⟩
  have moves : Moves lim ids s base h (r.onAppendEntries (fun _ => 0) 0 ex body') := good.onAppendEntries small peer sound'
  obtain ⟨h', leads⟩ := Reaches.of_moves good.inv moves
  refine ⟨h', ?_⟩
  have taken := r.appending (fun _ => 0) 0 ex body'
  generalize r.onAppendEntries (fun _ => 0) 0 ex body' = r' at taken leads
  cases taken with
  | outdated early => omega
  | unexpected late => omega
  | rejected present' misfit => exact absurd fits misfit
  | merged present' fits' =>
    exact leads.unsent

end Good

namespace Good

/-- **The call ends in the loop of `OnAppendEntries`.** -/
theorem merging (good : Good lim ids s base h r) (small : lim ≤ 2 ^ 63) (peer : x ∈ ids.erase s) {ex : TMessageEx}
    {body : TAppendEntriesRequest} (sound : Sound lim ids h x s (.appendEntriesRequest ex body))
    (present : ex.term = r.state.currentTerm) (fits : TRaft.fitsLog body r.state) {state : TState}
    (mem : state ∈ TState.merging body.prevLogIndex body.payload r.state) :
    ∃ h', Reaches lim ids s h h' { r with state := state }.restart := by
  obtain ⟨part, pre, reached⟩ := TState.of_mem_merging mem
  obtain ⟨h', leads⟩ := good.merged_part small peer sound present fits pre
  rcases reached with rfl | ⟨entry, pre', conflict, short⟩
  · exact ⟨h', leads⟩
  have batch := sound.2
  rw [present] at batch
  set merged := r.state.replaceAll body.prevLogIndex part with def_merged
  have sim := leads.sim
  have term : h'.term s = r.state.currentTerm := sim.term.trans (TState.replaceAll_fields part body.prevLogIndex r.state).1
  have next := batch.next pre'
  have long := (List.getElem?_eq_some_iff.mp next).1
  have bound := leads.fits r.state.currentTerm
  have longer := (leads.evolved.le.llog r.state.currentTerm).length_le
  -- the leader's log up to here is merged, and the next entry is another one
  have parts : h'.Parts s (body.prevLogIndex + part.length) := by
    refine ⟨⟨x, Finset.ne_of_mem_erase peer, ?_⟩, ?_, fun held => conflict ?_⟩
    · rw [term]
      exact leads.evolved.le.lead batch.leads
    · rw [term, sim.log, take_of_prefixed (leads.evolved.le.llog _) long.le]
      exact prefix_of_merge (good.merge small batch fits pre)
    · rw [term, sim.log] at held
      have here := get_of_take_prefixed held (Nat.lt_succ_self _) (get_of_prefixed (leads.evolved.le.llog _) next)
      rw [merged.logTerm_eq (by omega)]
      exact termAt_of_get here
  obtain ⟨h'', leads'⟩ := leads.cut parts short
  exact ⟨h'', leads'⟩

/-- **Wherever a call is cut off**, the restarted server is as some history says. -/
theorem halts (good : Good lim ids s r.volatileState.commitIndex h r) (small : lim ≤ 2 ^ 63) (zero : 0 ∉ ids)
    (mem : s ∈ ids) {call : Call} (licensed : Licensed lim ids h s r call) {r' : TRaft} (halts : r.Halts delay call r')
    (room : r'.state.log.length < lim) : ∃ h', Reaches lim ids s h h' r'.restart := by
  cases halts with
  | begun =>
    obtain ⟨h', leads⟩ := Reaches.of_moves good.inv good.stay
    exact ⟨h', leads.restart rfl rfl rfl (List.Subset.refl _)⟩
  | @adopted now m =>
    have moves : Moves lim ids s _ h (r.adoptTerm delay now m.ex?) := good.adoptTerm m.ex?
    obtain ⟨h', leads⟩ := Reaches.of_moves good.inv moves
    exact ⟨h', leads.restart rfl rfl rfl (List.Subset.refl _)⟩
  | @merging now ex body state present fits within =>
    obtain ⟨x, peer, sound⟩ := licensed
    have moves : Moves lim ids s _ h (r.adoptTerm delay now (some ex)) := good.adoptTerm (some ex)
    obtain ⟨h₁, ev, good₁⟩ := moves
    have evolved := Evolve.evolved good.inv ev
    obtain ⟨h₂, leads⟩ := good₁.merging small peer (sound.mono evolved.le) present fits within
    exact ⟨h₂, { leads with
      evolved := evolved.trans leads.evolved
      stored := fun stored => leads.stored (ev.stored good.inv stored) }⟩
  | @stood now due =>
    have moves : Moves lim ids s _ h (r.startElection delay now) := good.startElection zero mem
    obtain ⟨h', leads⟩ := Reaches.of_moves good.inv moves
    exact ⟨h', leads.restart rfl rfl rfl (List.Subset.refl _)⟩
  | sending split begun unsent =>
    obtain ⟨h', leads⟩ := Reaches.of_moves good.inv (good.perform small zero mem licensed room)
    refine ⟨h', leads.restart rfl rfl rfl ?_⟩
    rw [split]
    exact List.subset_append_left ..

end Good

/-- What `ProcessCommitted` may hand to the state machine. -/
def TRaft.committed (r : TRaft) : List TLogEntry := r.state.log.take r.volatileState.commitIndex

namespace Agrees

/-- A call that was cut off, as seen by all. -/
theorem led (agrees : Agrees lim ids h c) (leads : Reaches lim ids s h h' r) : Agrees lim ids h' (Function.update c s r) where
  zero := agrees.zero
  inv := leads.evolved.inv
  fits := leads.fits
  sim := fun x mem => by
    by_cases own : x = s
    · rw [own, Function.update_self]
      exact leads.sim
    · rw [Function.update_of_ne own]
      exact (agrees.sim x mem).frame leads.evolved own

theorem halt_step (agrees : Agrees lim ids h c) (small : lim ≤ 2 ^ 63) (st : Cluster.HaltStep delay lim ids c c') :
    ∃ s h', Evolved (majority ids) TLogEntry.term s h h' ∧ (h.Stored → h'.Stored) ∧ Agrees lim ids h' c' := by
  cases st with
  | @call s mem call enabled room =>
    obtain ⟨h', leads⟩ := Reaches.of_moves agrees.inv
      ((agrees.good mem).perform small agrees.zero mem (agrees.licensed enabled) room)
    exact ⟨s, h', leads.evolved, leads.stored, agrees.led leads⟩
  | @halt s mem call enabled r halts room =>
    obtain ⟨h', leads⟩ := (agrees.good mem).halts small agrees.zero mem (agrees.licensed enabled) halts room
    exact ⟨s, h', leads.evolved, leads.stored, agrees.led leads⟩

/-- **The run.** What a server holds of the decided prefixes it holds ever after. -/
theorem halt_later (agrees : Agrees lim ids h c) (stored : h.Stored) (small : lim ≤ 2 ^ 63)
    (later : Cluster.HaltLater delay lim ids c c') :
    ∃ h', h.Le h' ∧ h'.Stored ∧ Agrees lim ids h' c' ∧
      ∀ {x p}, Decided ids h (h.term x) p → p <+: h.log x → p <+: h'.log x := by
  induction later with
  | refl => exact ⟨h, .refl h, stored, agrees, fun _ held => held⟩
  | tail _ st ih =>
    obtain ⟨h₁, le₁, stored₁, agrees₁, kept₁⟩ := ih
    obtain ⟨s, h₂, evolved, stored₂, agrees₂⟩ := agrees₁.halt_step small st
    refine ⟨h₂, le₁.trans evolved.le, stored₂ stored₁, agrees₂, fun {x p} decided held => ?_⟩
    exact evolved.kept (decided.mono le₁ (le₁.term x)) (kept₁ decided held)

theorem decided (agrees : Agrees lim ids h c) (low : lim ≤ 2 ^ 31) (mem : s ∈ ids) :
    Decided ids h (c s).state.currentTerm (c s).committed := ((agrees.sim s mem).commit low).2

end Agrees

/-- **Safety where a process may die inside a call**, after any operation on its `IState` and any message sent. Along
every run a term has one leader, and logs match; what a server has committed stays at the front of its log, agrees with
what any server commits at any time, and is in the log of every leader from then on; and a peer holds what the leader
counts as stored there for as long as it is in the leader's term. -/
theorem crash_safety (delay : UInt32 → ℕ) (ids : Finset ℕ) {c c' : Cluster}
    (reach : Cluster.HaltReachable delay (2 ^ 31) ids c) (later : Cluster.HaltLater delay (2 ^ 31) ids c c') :
    (∀ s ∈ ids, ∀ x ∈ ids, (c s).stateName = .leader → (c' x).stateName = .leader →
      (c' x).state.currentTerm = (c s).state.currentTerm → x = s) ∧
    (∀ s ∈ ids, ∀ x ∈ ids, ∀ (i : ℕ) (d e : TLogEntry), (c s).state.log[i]? = some d → (c x).state.log[i]? = some e →
      d.term = e.term → (c s).state.log.take (i + 1) = (c x).state.log.take (i + 1)) ∧
    (∀ s ∈ ids, (c s).volatileState.commitIndex ≤ (c s).state.log.length ∧ (c s).committed <+: (c' s).state.log) ∧
    (∀ s ∈ ids, ∀ x ∈ ids, (c s).committed <+: (c' x).committed ∨ (c' x).committed <+: (c s).committed) ∧
    (∀ s ∈ ids, ∀ x ∈ ids, (c' x).stateName = .leader → (c s).state.currentTerm ≤ (c' x).state.currentTerm →
      (c s).committed <+: (c' x).state.log) ∧
    (∀ s ∈ ids, ∀ x ∈ ids, (c s).stateName = .leader → (c' x).state.currentTerm = (c s).state.currentTerm →
      (c s).state.log.take ((c s).volatileState.matchOf x) <+: (c' x).state.log) := by
  have low : 2 ^ 31 ≤ 2 ^ 31 := le_rfl
  have small : 2 ^ 31 ≤ 2 ^ 63 := by decide
  obtain ⟨start, fresh, run⟩ := reach
  have empty : History.start.Stored := fun x => List.prefix_rfl
  obtain ⟨h, -, stored, agrees, -⟩ := (Agrees.start (by decide) fresh).halt_later empty small run
  obtain ⟨h', le, stored', agrees', kept⟩ := agrees.halt_later stored small later
  refine ⟨fun s mem x mem' leads leads' same => ?_, fun s mem x mem' i d e hd he same => ?_, fun s mem => ?_,
    fun s mem x mem' => ?_, fun s mem x mem' leads' reached => ?_, fun s mem x mem' leads same => ?_⟩
  · have own := le.lead (agrees.whole mem leads).1
    have other := (agrees'.whole mem' leads').1
    rw [same, own] at other
    exact (Option.some.inj other).symm
  · rw [← (agrees.sim s mem).log] at hd ⊢
    rw [← (agrees.sim x mem').log] at he ⊢
    exact (agrees.inv.logs.logCo s).matching (agrees.inv.logs.logCo x) hd he same
  · have sim := agrees.sim s mem
    refine ⟨(sim.commit low).1, ?_⟩
    rw [← (agrees'.sim s mem).log]
    refine kept ?_ ?_
    · rw [sim.term]
      exact agrees.decided low mem
    · rw [sim.log]
      exact List.take_prefix ..
  · exact ((agrees.decided low mem).mono le le_rfl).comparable agrees'.inv (agrees'.decided low mem')
  · obtain ⟨lead, whole⟩ := agrees'.whole mem' leads'
    rw [whole]
    exact ((agrees.decided low mem).mono le le_rfl).leader agrees'.inv reached lead
  · obtain ⟨-, whole⟩ := agrees.whole mem leads
    have bound := agrees.matchOf_le mem leads x
    have acked := (agrees.counted mem leads x).trans (le.ack ..)
    have held := stored' x
    rw [(agrees'.sim x mem').term, same, (agrees'.sim x mem').log] at held
    rw [whole] at bound ⊢
    rw [← take_of_prefixed (le.llog _) bound]
    exact (take_prefix_of_le acked).trans held

/-- A restart between two calls is one of these crashes. -/
theorem Cluster.Reachable.halting {lim : ℕ} {delay : UInt32 → ℕ} {ids : Finset ℕ} {c : Cluster} (pos : 0 < lim)
    (small : lim ≤ 2 ^ 63) (reach : Cluster.Reachable delay lim ids c) : Cluster.HaltReachable delay lim ids c := by
  obtain ⟨start, fresh, run⟩ := reach
  refine ⟨start, fresh, ?_⟩
  induction run with
  | refl => exact .refl
  | @tail b c before st ih =>
    refine ih.tail ?_
    cases st with
    | call mem call enabled room => exact .call mem call enabled room
    | restart mem =>
      have reached : Cluster.Reachable delay lim ids b := ⟨start, fresh, before⟩
      obtain ⟨h, agrees⟩ := reached.agrees pos small
      exact .halt mem (.processTimeout 0) trivial .begun (agrees.good mem).log_lt

/-- Server 1 of three leads term 2 and has its empty entry to itself. Server 2 leads term 3, and commits its own. -/
def overruled : List Cue :=
  [.request 1 (.processTimeout 1000000000), .deliver 1000000000 1 2, .deliver 1000000000 3 2,
    .request 1 (.processTimeout 1000000000), .request 2 (.processTimeout 1000000000),
    .request 2 (.processTimeout 7000000000), .deliver 7000000000 2 5, .deliver 7000000000 3 5,
    .request 2 (.processTimeout 7000000000), .deliver 7000000000 2 7, .deliver 7000000000 3 6]

/-- What server 2 has sent to server 1, whose entry conflicts. -/
def overruling : TAppendEntriesRequest where
  leaderId := 2
  nentries := 1
  payload := [{ term := 3, flags := eStub }]

/-- Server 1 dies when it has removed its entry. -/
theorem crash_safety_overruled : ∃ c c',
    Cluster.HaltReachable (fun _ => 5000) (2 ^ 31) [1, 2, 3].toFinset c ∧
    Cluster.HaltLater (fun _ => 5000) (2 ^ 31) [1, 2, 3].toFinset c c' ∧
    (c 1).state.log = [{ term := 2, flags := eStub }] ∧ (c' 1).state.log = [] ∧
    (c 2).committed = [{ term := 3, flags := eStub }] ∧ (c 2).committed <+: (c' 2).state.log := by
  let ex : TMessageEx := { src := 2, dst := 1, term := 3 }
  obtain ⟨P, reach, log, committed, sent, present, fits, state, mem, removed⟩ :=
    System.reachable_of_rehearse [1, 2, 3] overruled (by decide) (by decide)
    (fun P => (P 1).raft.state.log = [{ term := 2, flags := eStub }] ∧
      (P 2).raft.committed = [{ term := 3, flags := eStub }] ∧
      .send 1 (.appendEntriesRequest ex overruling) ∈ (P 2).raft.effects ∧
      ex.term = ((P 1).raft.adoptTerm (fun _ => 5000) 7000000000 (some ex)).state.currentTerm ∧
      TRaft.fitsLog overruling ((P 1).raft.adoptTerm (fun _ => 5000) 7000000000 (some ex)).state ∧
      ∃ state ∈ TState.merging 0 overruling.payload ((P 1).raft.adoptTerm (fun _ => 5000) 7000000000 (some ex)).state,
        state.log = []) (by decide +kernel)
  have reached := reach.rafts.halting (by decide) (by decide)
  have enabled : Cluster.Enabled [1, 2, 3].toFinset P.rafts 1 (.process 7000000000 (.appendEntriesRequest ex overruling)) :=
    ⟨2, by decide, sent⟩
  have room : state.log.length < 2 ^ 31 := by rw [removed]; decide
  have later := Relation.ReflTransGen.single
    (Cluster.HaltStep.halt (by decide) _ enabled (TRaft.Halts.merging present fits mem) room)
  refine ⟨P.rafts, _, reached, later, log, ?_, committed, ?_⟩
  · rw [Function.update_self]
    exact removed
  · exact ((crash_safety _ _ reached later).2.2.1 2 (by decide)).2

end MiniRaft
