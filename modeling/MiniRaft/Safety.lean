import MiniRaft.Calls

/-!
# Safety of a cluster

Along every run some history agrees with all servers at once. Leader completeness and log matching are read
off that history.
-/

namespace MiniRaft

open Lib

/-- One history that says the truth about every server. -/
structure Agrees (lim : ℕ) (ids : Finset ℕ) (h : History) (c : Cluster) : Prop where
  zero : 0 ∉ ids
  inv : h.Inv (majority ids) TLogEntry.term
  fits : ∀ t, (h.llog t).length < lim
  sim : ∀ s ∈ ids, Sim lim ids h s (c s)

variable {lim : ℕ} {ids : Finset ℕ} {h : History} {c c' : Cluster} {s : ℕ} {delay : UInt32 → ℕ}

/-- Nothing has happened yet. -/
def History.start : History where
  term _ := 1
  log _ := []
  vote _ _ := none
  stand _ _ := none
  lead _ := none
  llog _ := []
  ack _ _ := 0

theorem History.start_inv (ids : Finset ℕ) : History.start.Inv (majority ids) TLogEntry.term where
  votes := ⟨nofun, nofun, nofun, nofun, nofun, nofun⟩
  logs := {
    noLead := fun _ => rfl
    leadLog := nofun
    logTerm := fun m => absurd m (List.not_mem_nil)
    llogTerm := fun m => absurd m (List.not_mem_nil)
    standTerm := nofun
    logCo := fun _ => nofun
    llogCo := fun _ => nofun
    standCo := nofun
    ackLen := fun _ _ => le_rfl
    ackTerm := nofun }
  keeps := ⟨nofun, fun _ own => absurd (own.1.trans own.2.2) (by simp [History.start]), nofun⟩

theorem Agrees.start (pos : 0 < lim) (start : Cluster.Start ids c) : Agrees lim ids .start c where
  zero := start.1
  inv := History.start_inv ids
  fits _ := pos
  sim s mem := by
    obtain ⟨nodes, nodup, peers, new⟩ := start.2 s mem
    rw [new]
    exact {
      id := rfl
      nodup := nodup
      peers := peers
      term := rfl
      log := rfl
      vote := fun c => by
        constructor
        · nofun
        · rintro ⟨rfl, ne⟩; exact absurd rfl ne
      candidate := nofun
      leader := nofun
      commit := fun _ => ⟨Nat.zero_le _, Hist.Decided.nil _⟩
      sent := nofun }

theorem Agrees.good (agrees : Agrees lim ids h c) (mem : s ∈ ids) :
    Good lim ids s (c s).volatileState.commitIndex h (c s) :=
  ⟨agrees.inv, agrees.fits, agrees.sim s mem, fun _ => le_rfl, fun _ => .inl rfl⟩

/-- A message in flight is sound. -/
theorem Agrees.sent (agrees : Agrees lim ids h c) {m : TMessage} (sent : Cluster.Sent ids c s m) :
    ∃ x ∈ ids.erase s, Sound lim ids h x s m := by
  obtain ⟨x, mem, effect⟩ := sent
  obtain ⟨peer, sound⟩ := (agrees.sim x mem).sent effect
  exact ⟨x, Finset.mem_erase.mpr ⟨(Finset.ne_of_mem_erase peer).symm, mem⟩, sound⟩

/-- A call that may be made may rely on what it relies on. -/
theorem Agrees.licensed (agrees : Agrees lim ids h c) {call : Call} (enabled : Cluster.Enabled ids c s call) :
    Licensed lim ids h s (c s) call := by
  cases call with
  | process now m => exact agrees.sent enabled
  | processTimeout now => trivial
  | append entry => exact enabled
  | approveRead => exact enabled

/-- Actions of one server, as seen by all. -/
theorem Agrees.actions (agrees : Agrees lim ids h c) {base : ℕ} {r : TRaft} (moves : Moves lim ids s base h r) :
    ∃ h', Actions ids s h h' ∧ Agrees lim ids h' (Function.update c s r) ∧ Good lim ids s base h' r := by
  obtain ⟨h', ev, good⟩ := moves
  have evolved := Evolve.evolved agrees.inv ev
  refine ⟨h', ev, ⟨agrees.zero, good.inv, good.fits, fun x mem => ?_⟩, good⟩
  by_cases hx : x = s
  · subst hx; rw [Function.update_self]; exact good.sim
  · rw [Function.update_of_ne hx]; exact (agrees.sim x mem).frame evolved hx

theorem Agrees.moved (agrees : Agrees lim ids h c) {base : ℕ} {r : TRaft} (moves : Moves lim ids s base h r) :
    ∃ h', h.Le h' ∧ Agrees lim ids h' (Function.update c s r) ∧ Good lim ids s base h' r := by
  obtain ⟨h', ev, agrees', good⟩ := agrees.actions moves
  exact ⟨h', (Evolve.evolved agrees.inv ev).le, agrees', good⟩

/-- A step of a run is a number of actions of one server. -/
theorem Agrees.acts (agrees : Agrees lim ids h c) (small : lim ≤ 2 ^ 63) (st : Cluster.Step delay lim ids c c') :
    ∃ s h', Actions ids s h h' ∧ Agrees lim ids h' c' := by
  cases st with
  | @call s mem call enabled room =>
    have moves := (agrees.good mem).perform small agrees.zero mem (agrees.licensed enabled) room
    obtain ⟨h', ev, agrees', -⟩ := agrees.actions moves
    exact ⟨s, h', ev, agrees'⟩
  | @restart s mem =>
    obtain ⟨h', ev, agrees', -⟩ := agrees.actions (agrees.good mem).restart.stay
    exact ⟨s, h', ev, agrees'⟩

/-- What a step does to one server, with the later history. -/
theorem Agrees.reacts (agrees : Agrees lim ids h c) (small : lim ≤ 2 ^ 63) (st : Cluster.Step delay lim ids c c') :
    ∃ h', h.Le h' ∧ Agrees lim ids h' c' ∧ ∀ x, c' x = c x ∨
      (x ∈ ids ∧ ∃ call, Cluster.Enabled ids c x call ∧ c' x = (c x).perform delay call ∧
        Good lim ids x (c x).volatileState.commitIndex h' (c' x)) ∨
      (x ∈ ids ∧ c' x = (c x).restart) := by
  cases st with
  | @call s mem call enabled room =>
    have moves := (agrees.good mem).perform small agrees.zero mem (agrees.licensed enabled) room
    obtain ⟨h', le, agrees', good⟩ := agrees.moved moves
    refine ⟨h', le, agrees', fun x => ?_⟩
    by_cases own : x = s
    · subst own
      rw [Function.update_self]
      exact .inr (.inl ⟨mem, call, enabled, rfl, good⟩)
    · exact .inl (Function.update_of_ne own ..)
  | @restart s mem =>
    obtain ⟨h', le, agrees', -⟩ := agrees.moved (agrees.good mem).restart.stay
    refine ⟨h', le, agrees', fun x => ?_⟩
    by_cases own : x = s
    · subst own
      exact .inr (.inr ⟨mem, Function.update_self ..⟩)
    · exact .inl (Function.update_of_ne own ..)

/-- **The step of a run.** A leader whose commit index has moved has it at what a quorum stored. -/
theorem Agrees.step (agrees : Agrees lim ids h c) (small : lim ≤ 2 ^ 63) (st : Cluster.Step delay lim ids c c') :
    ∃ h', h.Le h' ∧ Agrees lim ids h' c' ∧ ∀ s ∈ ids, (c' s).stateName = .leader →
      (c' s).volatileState.commitIndex = (c s).volatileState.commitIndex ∨
      h'.Committed (majority ids) TLogEntry.term (c' s).state.currentTerm (c' s).volatileState.commitIndex := by
  obtain ⟨h', le, agrees', reacts⟩ := agrees.reacts small st
  refine ⟨h', le, agrees', fun s _ name => ?_⟩
  rcases reacts s with idle | ⟨-, call, -, -, good⟩ | ⟨-, restarted⟩
  · exact .inl (by rw [idle])
  · exact good.raised name
  · rw [restarted] at name
    cases name

theorem Agrees.later (agrees : Agrees lim ids h c) (small : lim ≤ 2 ^ 63) (later : Cluster.Later delay lim ids c c') :
    ∃ h', h.Le h' ∧ Agrees lim ids h' c' := by
  induction later with
  | refl => exact ⟨h, .refl h, agrees⟩
  | tail _ st ih =>
    obtain ⟨h₁, le₁, agrees₁⟩ := ih
    obtain ⟨h₂, le₂, agrees₂, -⟩ := agrees₁.step small st
    exact ⟨h₂, le₁.trans le₂, agrees₂⟩

theorem Cluster.Reachable.agrees (pos : 0 < lim) (small : lim ≤ 2 ^ 63) (reach : Cluster.Reachable delay lim ids c) :
    ∃ h, Agrees lim ids h c := by
  obtain ⟨c₀, start, later⟩ := reach
  obtain ⟨h, -, agrees⟩ := (Agrees.start pos start).later small later
  exact ⟨h, agrees⟩

/-- What a leader's log is. -/
theorem Agrees.whole (agrees : Agrees lim ids h c) (mem : s ∈ ids) (name : (c s).stateName = .leader) :
    h.lead (c s).state.currentTerm = some s ∧ (c s).state.log = h.llog (c s).state.currentTerm :=
  ⟨((agrees.sim s mem).leader name).leads, (agrees.good mem).whole name⟩

/-- **Leader completeness.** Once a leader has advanced its commit index over index `i` in some step, every leader
of a later term has the entry that the leader then had there. -/
theorem leader_completeness (delay : UInt32 → ℕ) (ids : Finset ℕ) {c c' c'' : Cluster} {s x i : ℕ}
    (reach : Cluster.Reachable delay maxLogSize ids c) (st : Cluster.Step delay maxLogSize ids c c') (mem : s ∈ ids)
    (leads : (c' s).stateName = .leader) (low : (c s).volatileState.commitIndex < i)
    (high : i ≤ (c' s).volatileState.commitIndex) (later : Cluster.Later delay maxLogSize ids c' c'') (mem' : x ∈ ids)
    (leads' : (c'' x).stateName = .leader) (term : (c' s).state.currentTerm < (c'' x).state.currentTerm) :
    ∃ e, (c' s).state.log[i - 1]? = some e ∧ (c'' x).state.log[i - 1]? = some e := by
  have small : maxLogSize ≤ 2 ^ 63 := le_rfl
  obtain ⟨h, agrees⟩ := reach.agrees (by decide) small
  obtain ⟨h', -, agrees', raised⟩ := agrees.step small st
  obtain ⟨h'', le, agrees''⟩ := agrees'.later small later
  obtain ⟨-, whole⟩ := agrees'.whole mem leads
  obtain ⟨lead, whole'⟩ := agrees''.whole mem' leads'
  have committed := (raised s mem leads).resolve_left (by omega)
  have held := agrees''.inv.keeps.complete lead term (le.own committed.1) (le.committed committed).choosable
  have len := committed.1.2.2
  obtain ⟨e, he⟩ : ∃ e, (c' s).state.log[i - 1]? = some e :=
    ⟨_, List.getElem?_eq_getElem (by rw [whole]; omega)⟩
  refine ⟨e, he, ?_⟩
  rw [whole] at he
  rw [whole']
  exact get_of_take_prefixed held (by omega) (get_of_prefixed (le.llog _) he)

/-- Server 1 of three leads term 2 with the vote of server 3, and server 2 has its empty entry. -/
def emptyStored : List Cluster.Turn :=
  [.timeout 1 1000000000, .deliver 1000000000 1 2, .deliver 1000000000 3 2, .timeout 1 1000000000, .deliver 1000000000 1 3]

/-- Server 2 comes to lead term 3, with the vote of server 3, which has no entry. -/
def succession : List Cluster.Turn :=
  [.timeout 2 7000000000, .deliver 7000000000 2 4, .deliver 7000000000 3 5, .timeout 2 7000000000]

/-- Server 1 commits its entry with the answer of server 2, which has it when it leads. -/
theorem leader_completeness_succeeded : ∃ c' c'',
    Cluster.Later (fun _ => 5000) maxLogSize [1, 2, 3].toFinset c' c'' ∧ (c' 1).volatileState.commitIndex = 1 ∧
    (c'' 2).stateName = .leader ∧ (c'' 2).state.currentTerm = 3 ∧ (c'' 3).state.log = [] ∧
    ∃ e, (c' 1).state.log[0]? = some e ∧ (c'' 2).state.log[0]? = some e := by
  let ends (c : Cluster) : Prop := (c 2).stateName = .leader ∧ (c 2).state.currentTerm = 3 ∧ (c 3).state.log = []
  let commits (c : Cluster) : Prop := ((c 1).stateName = .leader ∧ (c 1).state.currentTerm = 2) ∧
    (c 1).volatileState.commitIndex = 1 ∧ (c.play (fun _ => 5000) maxLogSize [1, 2, 3].toFinset succession).any fun c' => ends c'
  obtain ⟨c, run, none_, next⟩ := Cluster.exists_of_play (fun _ => 5000) maxLogSize [1, 2, 3].toFinset (.fresh [1, 2, 3]) emptyStored
    (fun c => (c 1).volatileState.commitIndex = 0 ∧
      (c.play (fun _ => 5000) maxLogSize [1, 2, 3].toFinset [.deliver 1000000000 2 1]).any fun c' => commits c')
    (by decide +kernel)
  obtain ⟨c', st, ⟨leads, term⟩, commit, rest⟩ := Cluster.exists_of_turn _ _ _ _ _ commits next
  obtain ⟨c'', later, leads', term', empty⟩ := Cluster.exists_of_play _ _ _ _ succession ends rest
  refine ⟨c', c'', later, commit, leads', term', empty, ?_⟩
  exact leader_completeness _ _ ⟨_, Cluster.fresh_start (by decide) (by decide), run⟩ st (by decide) leads (i := 1)
    (by rw [none_]; decide) commit.ge later (by decide) leads' (by rw [term, term']; decide)

/-- **Log matching and leader append-only.** -/
theorem log_matching (delay : UInt32 → ℕ) (ids : Finset ℕ) {c : Cluster}
    (reach : Cluster.Reachable delay maxLogSize ids c) :
    (∀ s ∈ ids, ∀ x ∈ ids, ∀ (i : ℕ) (d e : TLogEntry), (c s).state.log[i]? = some d → (c x).state.log[i]? = some e →
      d.term = e.term → ∀ j ≤ i, (c s).state.log[j]? = (c x).state.log[j]?) ∧
    ∀ c', Cluster.Later delay maxLogSize ids c c' → ∀ s ∈ ids, (c s).stateName = .leader → (c' s).stateName = .leader →
      (c' s).state.currentTerm = (c s).state.currentTerm → (c s).state.log <+: (c' s).state.log := by
  have small : maxLogSize ≤ 2 ^ 63 := le_rfl
  obtain ⟨h, agrees⟩ := reach.agrees (by decide) small
  constructor
  · intro s mem x mem' i d e hd he same j le
    rw [← (agrees.sim s mem).log] at hd ⊢
    rw [← (agrees.sim x mem').log] at he ⊢
    have := (agrees.inv.logs.logCo s).matching (agrees.inv.logs.logCo x) hd he same
    rw [← get_take_of_lt (by omega : j < i + 1), this, get_take_of_lt (by omega)]
  · intro c' later s mem leads leads' same
    obtain ⟨h', le, agrees'⟩ := agrees.later small later
    rw [(agrees.whole mem leads).2, (agrees'.whole mem leads').2, same]
    exact le.llog _

/-- Server 1 has an entry of term 2 to itself, and server 2 leads term 3. -/
def differing : List Cluster.Turn := emptyStored ++ .append 1 { data := [65] } :: succession

/-- Server 1 receives two entries of server 2, of which the first replaces its own. -/
def replacement : List Cluster.Turn :=
  [.append 2 { data := [66] }, .deliver 7000000000 2 5, .deliver 7000000000 1 6, .timeout 2 7000000000, .deliver 7000000000 2 7]

theorem log_matching_replaced : ∃ c c',
    Cluster.Later (fun _ => 5000) maxLogSize [1, 2, 3].toFinset c c' ∧
    (c 1).state.log.map TLogEntry.term = [2, 2] ∧ (c 2).state.log.map TLogEntry.term = [2, 3] ∧
    (c 1).state.log[0]? = (c 2).state.log[0]? ∧ (c 2).state.log <+: (c' 2).state.log ∧
    (c' 1).state.log.map TLogEntry.term = [2, 3, 3] ∧ ∀ j ≤ 2, (c' 1).state.log[j]? = (c' 2).state.log[j]? := by
  let leads (c : Cluster) : Prop := (c 2).stateName = .leader ∧ (c 2).state.currentTerm = 3
  let ends (c : Cluster) : Prop := leads c ∧ (c 1).state.log.map TLogEntry.term = [2, 3, 3] ∧
    (c 2).state.log.map TLogEntry.term = [2, 3, 3]
  obtain ⟨c, run, ⟨name, term⟩, one, two, rest⟩ := Cluster.exists_of_play (fun _ => 5000) maxLogSize [1, 2, 3].toFinset
    (.fresh [1, 2, 3]) differing (fun c => leads c ∧ (c 1).state.log.map TLogEntry.term = [2, 2] ∧
      (c 2).state.log.map TLogEntry.term = [2, 3] ∧
      (c.play (fun _ => 5000) maxLogSize [1, 2, 3].toFinset replacement).any fun c' => ends c') (by decide +kernel)
  obtain ⟨c', later, ⟨name', term'⟩, one', two'⟩ := Cluster.exists_of_play _ _ _ _ replacement ends rest
  have fresh : Cluster.Start [1, 2, 3].toFinset (.fresh [1, 2, 3]) := Cluster.fresh_start (by decide) (by decide)
  obtain ⟨agree, extends_⟩ := log_matching _ _ ⟨_, fresh, run⟩
  obtain ⟨agree', -⟩ := log_matching _ _ ⟨_, fresh, run.trans later⟩
  have entry {log : List TLogEntry} {terms : List ℕ} (has : log.map TLogEntry.term = terms) {i t : ℕ} (there : terms[i]? = some t) :
      ∃ e, log[i]? = some e ∧ e.term = t := by
    rw [← has, List.getElem?_map] at there
    exact Option.map_eq_some_iff.mp there
  obtain ⟨d, get, same⟩ := entry one (i := 0) rfl
  obtain ⟨e, get', same'⟩ := entry two (i := 0) rfl
  obtain ⟨d', last, own⟩ := entry one' (i := 2) rfl
  obtain ⟨e', last', own'⟩ := entry two' (i := 2) rfl
  refine ⟨c, c', later, one, two, ?_, ?_, one', ?_⟩
  · exact agree 1 (by decide) 2 (by decide) 0 d e get get' (same.trans same'.symm) 0 le_rfl
  · exact extends_ c' later 2 (by decide) name name' (term'.trans term.symm)
  · exact agree' 1 (by decide) 2 (by decide) 2 d' e' last last' (own.trans own'.symm)

end MiniRaft
