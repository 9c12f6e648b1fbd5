import MiniRaft.Replies
import MiniRaft.Safety

/-!
# A cluster with its clients and state machines

Runs of whole servers. Each of their steps is a number of steps of the cluster of protocol servers.
-/

namespace MiniRaft

abbrev System (ρ : Type*) := ℕ → TRequestProcessor ρ

namespace System

variable {ρ : Type*}

/-- The protocol servers alone. -/
def rafts (P : System ρ) : Cluster := fun s => (P s).raft

/-- The calls that may be made of server `s`. Requests and responses of clients come at any time. -/
def Enabled (ids : Finset ℕ) (P : System ρ) (s : ℕ) : Request → Prop
  | .process _ message => Cluster.Sent ids P.rafts s message
  | .append _ => (P s).raft.stateName = .leader
  | _ => True

/-- Servers with empty logs that know each other, and any state machines. -/
def Start (ids : Finset ℕ) (P : System ρ) : Prop :=
  Cluster.Start ids P.rafts ∧ ∀ s ∈ ids, P s = .new (P s).raft (P s).rsm

/-- What a step does to which server. -/
inductive Label where
  | call (s : ℕ) (request : Request)
  | restart (s : ℕ)

/-- A call that returns, or a restart with whatever the state machine restores. No log reaches `lim` entries. -/
inductive Step (delay : UInt32 → ℕ) (lim : ℕ) (ids : Finset ℕ) (rsm : IRsm ρ) (P : System ρ) :
    Label → System ρ → Prop where
  | call {s : ℕ} (mem : s ∈ ids) (request : Request) (enabled : Enabled ids P s request) {p' : TRequestProcessor ρ}
      (done : (P s).handle delay rsm request = .ok p') (room : p'.raft.state.log.length < lim) :
      Step delay lim ids rsm P (.call s request) (Function.update P s p')
  | restart {s : ℕ} (mem : s ∈ ids) (restored : TRsm ρ) :
      Step delay lim ids rsm P (.restart s) (Function.update P s ((P s).restart restored))

/-- **What a step does to one server.** -/
theorem Step.reacts {delay : UInt32 → ℕ} {lim : ℕ} {ids : Finset ℕ} {rsm : IRsm ρ} {P P' : System ρ} {label : Label}
    (st : Step delay lim ids rsm P label P') (x : ℕ) :
    P' x = P x ∨
      (x ∈ ids ∧ ∃ request, label = .call x request ∧ Enabled ids P x request ∧
        (P x).handle delay rsm request = .ok (P' x)) ∨
      (x ∈ ids ∧ label = .restart x ∧ ∃ restored, P' x = (P x).restart restored) := by
  cases st with
  | @call s mem request enabled p' done room =>
    by_cases own : x = s
    · subst own
      rw [Function.update_self]
      exact .inr (.inl ⟨mem, request, rfl, enabled, done⟩)
    · exact .inl (Function.update_of_ne own ..)
  | @restart s mem restored =>
    by_cases own : x = s
    · subst own
      exact .inr (.inr ⟨mem, rfl, restored, Function.update_self ..⟩)
    · exact .inl (Function.update_of_ne own ..)

/-- A run whose steps satisfy `ok`, which sees the state before and after. -/
def Run (delay : UInt32 → ℕ) (lim : ℕ) (ids : Finset ℕ) (rsm : IRsm ρ) (ok : System ρ → Label → System ρ → Prop) :
    System ρ → System ρ → Prop :=
  Relation.ReflTransGen fun P P' => ∃ label, ok P label P' ∧ Step delay lim ids rsm P label P'

def Later (delay : UInt32 → ℕ) (lim : ℕ) (ids : Finset ℕ) (rsm : IRsm ρ) : System ρ → System ρ → Prop :=
  Run delay lim ids rsm fun _ _ _ => True

def Reachable (delay : UInt32 → ℕ) (lim : ℕ) (ids : Finset ℕ) (rsm : IRsm ρ) (P : System ρ) : Prop :=
  ∃ start, Start ids start ∧ Later delay lim ids rsm start P

variable {delay : UInt32 → ℕ} {lim : ℕ} {ids : Finset ℕ} {rsm : IRsm ρ} {P P' : System ρ}
  {ok : System ρ → Label → System ρ → Prop}

theorem Run.mono {ok' : System ρ → Label → System ρ → Prop} (run : Run delay lim ids rsm ok P P')
    (le : ∀ Q label Q', ok Q label Q' → ok' Q label Q') : Run delay lim ids rsm ok' P P' :=
  Relation.ReflTransGen.mono (fun Q Q' ⟨label, fits, st⟩ => ⟨label, le Q label Q' fits, st⟩) _ _ run

theorem Run.later (run : Run delay lim ids rsm ok P P') : Later delay lim ids rsm P P' :=
  run.mono fun _ _ _ _ => trivial

theorem Reachable.run (reach : Reachable delay lim ids rsm P) (run : Run delay lim ids rsm ok P P') :
    Reachable delay lim ids rsm P' := by
  obtain ⟨start, fresh, later⟩ := reach
  exact ⟨start, fresh, later.trans run.later⟩

end System

variable {ρ : Type*} {rsm : IRsm ρ} {p p' : TRequestProcessor ρ} {P P' : System ρ} {delay : UInt32 → ℕ} {lim : ℕ}
  {ids : Finset ℕ} {s : ℕ} {label : System.Label}

/-! ## Down to the protocol -/

/-- What commands do to a leader. -/
def TRaft.Asked (r r' : TRaft) : Prop :=
  r.stateName = .leader ∧ ((∃ entry, r' = (r.append entry).2) ∨ r' = r.approveRead.2)

theorem Commanded.raft {command : TCommandRequest} {replyTo : Option ℕ} (h : Commanded rsm command replyTo p p') :
    p'.raft = p.raft ∨ p.raft.Asked p'.raft := by
  cases h with
  | aside h => exact .inl h.raft
  | read => exact .inl rfl
  | strong kind consistent leads => exact .inr ⟨leads, .inr rfl⟩
  | silent kind leads => exact .inr ⟨leads, .inl ⟨_, rfl⟩⟩
  | write kind leads => exact .inr ⟨leads, .inl ⟨_, rfl⟩⟩

theorem Served.raft (h : Served rsm p p') : Relation.ReflTransGen TRaft.Asked p.raft p'.raft := by
  induction h with
  | refl => exact .refl
  | tail _ step ih =>
    obtain ⟨_, _, commanded⟩ := step
    rcases commanded.raft with same | asked
    · rwa [same]
    · exact ih.tail asked

theorem TRaft.Asked.length_le {r r' : TRaft} (h : r.Asked r') : r.state.log.length ≤ r'.state.log.length := by
  obtain ⟨-, ⟨entry, rfl⟩ | rfl⟩ := h
  · simp [TRaft.append]
  · rw [TRaft.state_approveRead]

theorem Cluster.Later.of_asked {c : Cluster} {r : TRaft} (mem : s ∈ ids)
    (path : Relation.ReflTransGen TRaft.Asked (c s) r) (room : r.state.log.length < lim) :
    Cluster.Later delay lim ids c (Function.update c s r) := by
  induction path with
  | refl => rw [Function.update_eq_self]; exact .refl
  | @tail r r' _ asked ih =>
    have before := ih (asked.length_le.trans_lt room)
    have call : ∃ call, Cluster.Enabled ids (Function.update c s r) s call ∧ r' = r.perform delay call := by
      obtain ⟨leads, ⟨entry, rfl⟩ | rfl⟩ := asked
      · exact ⟨.append entry, by simpa [Cluster.Enabled] using leads, rfl⟩
      · exact ⟨.approveRead, by simpa [Cluster.Enabled] using leads, rfl⟩
    obtain ⟨call, enabled, same⟩ := call
    have step : Cluster.Step delay lim ids _ _ := .call mem call enabled (by simpa [← same] using room)
    simp only [Function.update_self, ← same, Function.update_idem] at step
    exact before.tail step

theorem System.rafts_update (P : System ρ) (s : ℕ) (p : TRequestProcessor ρ) :
    System.rafts (Function.update P s p) = Function.update P.rafts s p.raft := by
  funext x
  by_cases hx : x = s
  · subst hx; simp [System.rafts]
  · simp [System.rafts, Function.update_of_ne hx]

/-- The call of the protocol that a request is, where it is one. -/
def Request.call? : Request → Option Call
  | .process now message => some (.process now message)
  | .processTimeout now => some (.processTimeout now)
  | .append entry => some (.append entry)
  | _ => none

/-- What a request does to the protocol. -/
theorem Handled.raft {request : Request} (h : Handled delay rsm p request p') :
    (∃ call, request.call? = some call ∧ p' = { p with raft := p.raft.perform delay call }) ∨
      Relation.ReflTransGen TRaft.Asked p.raft p'.raft := by
  cases h with
  | process now message => exact .inl ⟨_, rfl, rfl⟩
  | processTimeout now => exact .inl ⟨_, rfl, rfl⟩
  | append entry => exact .inl ⟨_, rfl, rfl⟩
  | served h => exact .inr h.raft
  | processCommitted => exact .inr ((processCommitted_applies rsm p).1.raft ▸ .refl)
  | processWaiting h =>
    obtain ⟨p₁, p₂, rest, strongRest, answers, answers', -, -, rfl⟩ := Answers.of_processWaiting h
    have same : p₂.raft = p.raft := answers'.frame.raft.trans answers.frame.raft
    exact .inr (same ▸ .refl)

theorem System.Enabled.call {request : Request} (enabled : System.Enabled ids P s request) {call : Call}
    (is_call : request.call? = some call) : Cluster.Enabled ids P.rafts s call := by
  cases request <;> cases is_call <;> exact enabled

/-- **A step of the system is a number of steps of the cluster.** -/
theorem System.Step.rafts (st : System.Step delay lim ids rsm P label P') :
    Cluster.Later delay lim ids P.rafts P'.rafts := by
  cases st with
  | @call s mem request enabled p' done room =>
    rw [System.rafts_update]
    rcases (Handled.of_handle done).raft with ⟨call, is_call, rfl⟩ | path
    · exact .single (.call mem call (enabled.call is_call) room)
    · exact .of_asked mem path room
  | @restart s mem restored =>
    rw [System.rafts_update]
    exact .single (.restart mem)

theorem System.Later.rafts (later : System.Later delay lim ids rsm P P') :
    Cluster.Later delay lim ids P.rafts P'.rafts := by
  induction later with
  | refl => exact .refl
  | tail _ st ih =>
    obtain ⟨_, -, st⟩ := st
    exact ih.trans st.rafts

theorem System.Reachable.rafts (reach : System.Reachable delay lim ids rsm P) :
    Cluster.Reachable delay lim ids P.rafts := by
  obtain ⟨start, fresh, later⟩ := reach
  exact ⟨_, fresh.1, later.rafts⟩

/-! ## Computed runs -/

/-- A step of a run that is written down: a request to a server, or the delivery of the `k`-th effect of `x`. -/
inductive Cue where
  | request (s : ℕ) (request : Request)
  | deliver (now : Time) (x k : ℕ)

namespace System

/-- Whether a request may be made whatever was sent. -/
def permits (P : System ρ) (s : ℕ) : Request → Bool
  | .process .. => false
  | .append _ => (P s).raft.stateName = .leader
  | _ => true

/-- The server that is called, and the call. -/
def cued (ids : Finset ℕ) (P : System ρ) : Cue → Option (ℕ × Request)
  | .request s request => if P.permits s request then some (s, request) else none
  | .deliver now x k =>
    match (P x).raft.effects[k]? with
    | some (.send d message) => if x ∈ ids then some (d, .process now message) else none
    | _ => none

/-- The state after the steps, if all of them are possible and satisfy `ok`. -/
def play (delay : UInt32 → ℕ) (lim : ℕ) (ids : Finset ℕ) (rsm : IRsm ρ)
    (ok : System ρ → Label → System ρ → Prop) [∀ P label P', Decidable (ok P label P')] :
    List Cue → System ρ → Option (System ρ)
  | [], P => some P
  | cue :: cues, P =>
    (P.cued ids cue).bind fun (s, request) =>
      ((P s).handle delay rsm request).toOption.bind fun p' =>
        if (s ∈ ids ∧ p'.raft.state.log.length < lim) ∧ ok P (.call s request) (Function.update P s p') then
          play delay lim ids rsm ok cues (Function.update P s p')
        else none

theorem cued_enabled {cue : Cue} {request : Request} (h : P.cued ids cue = some (s, request)) :
    Enabled ids P s request := by
  cases cue with
  | request x request' =>
    simp only [cued, Option.ite_none_right_eq_some, Option.some.injEq, Prod.mk.injEq] at h
    obtain ⟨permitted, rfl, rfl⟩ := h
    cases request' with
    | process => cases permitted
    | append entry => simpa [permits, Enabled] using permitted
    | _ => trivial
  | deliver now x k =>
    unfold cued at h
    dsimp only at h
    split at h
    · rename_i d message effect
      simp only [Option.ite_none_right_eq_some, Option.some.injEq, Prod.mk.injEq] at h
      obtain ⟨mem, rfl, rfl⟩ := h
      exact ⟨x, mem, List.mem_of_getElem? effect⟩
    · cases h

/-- The first step of what is played. -/
theorem play_cons [∀ P label P', Decidable (ok P label P')] {cue : Cue} {cues : List Cue}
    (h : play delay lim ids rsm ok (cue :: cues) P = some P') :
    ∃ label P₁, ok P label P₁ ∧ Step delay lim ids rsm P label P₁ ∧ play delay lim ids rsm ok cues P₁ = some P' := by
  simp only [play, Option.bind_eq_some_iff] at h
  obtain ⟨⟨s, request⟩, here, p', done, rest⟩ := h
  rw [Option.ite_none_right_eq_some] at rest
  obtain ⟨⟨fits, allowed⟩, rest⟩ := rest
  have done : (P s).handle delay rsm request = .ok p' := by
    cases result : (P s).handle delay rsm request with
    | error fault => rw [result] at done; cases done
    | ok p'' => rw [result] at done; cases done; rfl
  exact ⟨_, _, allowed, .call fits.1 request (cued_enabled here) done fits.2, rest⟩

/-- **What is played is a run.** -/
theorem run_of_play [∀ P label P', Decidable (ok P label P')] (cues : List Cue) :
    ∀ {P : System ρ}, play delay lim ids rsm ok cues P = some P' → Run delay lim ids rsm ok P P' := by
  induction cues with
  | nil => intro P h; cases h; exact .refl
  | cons cue cues ih =>
    intro P h
    obtain ⟨label, P₁, allowed, step, rest⟩ := play_cons h
    exact .head ⟨label, allowed, step⟩ (ih rest)

/-- The servers `ids` before their first call. -/
def fresh (ids : List ℕ) (rsm : TRsm ρ) : System ρ := fun s => .new (Cluster.fresh ids s) rsm

theorem fresh_start {ids : List ℕ} (nodup : ids.Nodup) (zero : 0 ∉ ids) (rsm : TRsm ρ) :
    Start ids.toFinset (fresh ids rsm) := ⟨Cluster.fresh_start nodup zero, fun _ _ => rfl⟩

section

variable (ok : System (List TLogEntry) → Label → System (List TLogEntry) → Prop)
  [∀ P label P', Decidable (ok P label P')]

/-- Steps played with `TDummyRsm` and elections that are due after five seconds. -/
def resume (ids : List ℕ) (cues : List Cue) (P : System (List TLogEntry)) : Option (System (List TLogEntry)) :=
  play (fun _ => 5000) (2 ^ 31) ids.toFinset (TDummyRsm.rsm []) ok cues P

/-- Steps played from a fresh start. -/
def rehearse (ids : List ℕ) (cues : List Cue) : Option (System (List TLogEntry)) :=
  resume ok ids cues (fresh ids { impl := [] })

/-- A property of what is played is checked by playing it. -/
theorem exists_of_resume (ids : List ℕ) (cues : List Cue) (P : System (List TLogEntry))
    (φ : System (List TLogEntry) → Prop) [DecidablePred φ] (h : (resume ok ids cues P).any (φ ·)) :
    ∃ P', Run (fun _ => 5000) (2 ^ 31) ids.toFinset (TDummyRsm.rsm []) ok P P' ∧ φ P' := by
  obtain ⟨P', played, holds⟩ := (Option.any_eq_true _ _).mp h
  exact ⟨P', run_of_play cues played, by simpa using holds⟩

/-- The same for a single step. -/
theorem exists_of_cue (ids : List ℕ) (cue : Cue) (P : System (List TLogEntry))
    (φ : System (List TLogEntry) → Prop) [DecidablePred φ] (h : (resume ok ids [cue] P).any (φ ·)) :
    ∃ label P', Step (fun _ => 5000) (2 ^ 31) ids.toFinset (TDummyRsm.rsm []) P label P' ∧ φ P' := by
  obtain ⟨P', played, holds⟩ := (Option.any_eq_true _ _).mp h
  obtain ⟨label, P₁, -, step, rest⟩ := play_cons played
  cases rest
  exact ⟨label, P', step, by simpa using holds⟩

end

theorem reachable_of_rehearse (ids : List ℕ) (cues : List Cue) (nodup : ids.Nodup) (zero : 0 ∉ ids)
    (φ : System (List TLogEntry) → Prop) [DecidablePred φ]
    (h : (rehearse (fun _ _ _ => True) ids cues).any (φ ·)) :
    ∃ P, Reachable (fun _ => 5000) (2 ^ 31) ids.toFinset (TDummyRsm.rsm []) P ∧ φ P := by
  obtain ⟨P, run, holds⟩ := exists_of_resume _ ids cues _ φ h
  exact ⟨P, ⟨_, fresh_start nodup zero _, run⟩, holds⟩

end System

end MiniRaft
