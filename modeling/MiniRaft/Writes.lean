import MiniRaft.Progress

/-!
# Answers to writes

`WriteAnswers` holds the replies to entries that the log still has. A waiting write is known by its index only,
so that its own entry is the one applied there as long as no batch has replaced it.
-/

namespace MiniRaft

open Lib

variable {ρ : Type*} {rsm : IRsm ρ} {p p' : TRequestProcessor ρ} {P P' : System ρ} {delay : UInt32 → ℕ} {lim : ℕ}
  {ids : Finset ℕ} {h : History} {s : ℕ} {label : System.Label} {command : TCommandRequest} {replyTo : Option ℕ}

/-! ## The answers that are kept -/

/-- Every answer that is kept is the reply to a write of an entry that is committed and in the log. -/
def Accounted (p : TRequestProcessor ρ) : Prop :=
  ∀ a ∈ p.writeAnswers, 1 ≤ a.index ∧ a.index ≤ p.raft.volatileState.commitIndex ∧
    ∃ e applied, .write a.index e applied a.reply ∈ p.events ∧ p.raft.state.log[a.index - 1]? = some e

namespace Accounted

theorem frame (acc : Accounted p) (answers : p'.writeAnswers <:+ p.writeAnswers) (events : p.events <+: p'.events)
    (keeps : p.raft.Keeps p'.raft) : Accounted p' := by
  intro a member
  obtain ⟨low, high, e, applied, written, get⟩ := acc a (answers.subset member)
  exact ⟨low, high.trans keeps.commit, e, applied, events.subset written,
    get_of_take_prefixed keeps.log (by omega) get⟩

theorem quiet (acc : Accounted p) (quiet : Quiet rsm p p') (keeps : p.raft.Keeps p'.raft) : Accounted p' := by
  obtain ⟨es, events, -⟩ := quiet.events
  exact acc.frame quiet.answers (events ▸ List.prefix_append ..) keeps

theorem processCommitted (acc : Accounted p)
    (inside : p.raft.volatileState.commitIndex ≤ p.raft.state.log.length) : Accounted (p.processCommitted rsm) := by
  obtain ⟨all, -⟩ := processCommitted_applies rsm p
  obtain ⟨es, events, applied, -, answers⟩ := all.events
  intro a member
  rw [answers] at member
  rw [events, all.raft]
  rcases List.mem_append.mp member with old | new
  · obtain ⟨low, high, e, applied, written, get⟩ := acc a old
    exact ⟨low, high, e, applied, List.mem_append_left _ written, get⟩
  · obtain ⟨event, there, is_answer⟩ := List.mem_filterMap.mp new
    cases event with
    | write i e before reply =>
      obtain rfl : { index := i, reply } = a := by simpa [TEvent.answer?] using is_answer
      have index : (i, e) ∈ appliedOf es := List.mem_filterMap.mpr ⟨_, there, rfl⟩
      rw [applied] at index
      obtain ⟨k, pending, same⟩ := List.mem_map.mp index
      obtain ⟨rfl, rfl⟩ := Prod.mk.inj same
      have := List.mem_range'_1.mp pending
      dsimp only
      exact ⟨by omega, by omega, _, before, List.mem_append_right _ there,
        p.raft.state.get_eq_getElem (by omega) (by omega)⟩
    | _ => simp [TEvent.answer?] at is_answer

theorem handled {request : Request} (acc : Accounted p) (handled : Handled delay rsm p request p')
    (inside : p.raft.volatileState.commitIndex ≤ p.raft.state.log.length) (keeps : p.raft.Keeps p'.raft) :
    Accounted p' := by
  rcases handled.quiet with ⟨-, rfl⟩ | quiet
  · exact acc.processCommitted inside
  · exact acc.quiet quiet keeps

theorem restart (restored : TRsm ρ) (p : TRequestProcessor ρ) : Accounted (p.restart restored) := nofun

end Accounted

theorem Commanded.keeps (h : Commanded rsm command replyTo p p') : p.raft.Keeps p'.raft := by
  rcases h.raft with same | asked
  · exact same ▸ .of_prefixed rfl List.prefix_rfl
  · exact asked.keeps

/-! ## The writes that wait -/

/-- The log still has the entry that was appended for the write. -/
def Backed (log : List TLogEntry) (w : TWaiting) : Prop :=
  w.command.isWrite → ∃ e, w.entry = some e ∧ 1 ≤ w.index ∧ log[w.index - 1]? = some e

/-- A write is answered with the reply to its own entry. -/
def Honored (events : List TEvent) : TEvent → Prop
  | .answer false w _ _ reply => w.command.isWrite → ∃ e applied r, w.entry = some e ∧
      .write w.index e applied r ∈ events ∧ reply = { r with cookie := w.command.cookie }
  | _ => True

theorem Honored.mono {es fs : List TEvent} (le : es <+: fs) {e : TEvent} (h : Honored es e) : Honored fs e := by
  cases e with
  | answer strong w applied seqno reply =>
    cases strong with
    | true => trivial
    | false =>
      intro kind
      obtain ⟨e, applied, r, own, written, same⟩ := h kind
      exact ⟨e, applied, r, own, le.subset written, same⟩
  | _ => trivial

/-- The log still has the entries of the waiting writes, and those that were answered were answered for theirs. -/
structure Faithful (p : TRequestProcessor ρ) : Prop where
  accounted : Accounted p
  backed : ∀ w ∈ p.waiting, Backed p.raft.state.log w
  honored : ∀ e ∈ p.events, Honored p.events e

theorem Backed.mono {log log' : List TLogEntry} {w : TWaiting} (longer : log <+: log') (h : Backed log w) :
    Backed log' w := by
  intro kind
  obtain ⟨e, own, low, get⟩ := h kind
  exact ⟨e, own, low, get_of_prefixed longer get⟩

theorem Backed.commanded (backed : ∀ w ∈ p.waiting, Backed p.raft.state.log w)
    (h : Commanded rsm command replyTo p p') : ∀ w ∈ p'.waiting, Backed p'.raft.state.log w := by
  cases h with
  | aside aside => rw [aside.waiting, aside.raft]; exact backed
  | read kind fits =>
    intro w member write
    rcases List.mem_append.mp member with old | new
    · exact backed w old write
    · obtain rfl := List.mem_singleton.mp new
      simp [kind] at write
  | strong kind consistent leads fits =>
    intro w member
    exact (backed w member).mono (p.raft.state_approveRead ▸ List.prefix_rfl)
  | silent kind leads deaf =>
    intro w member
    exact (backed w member).mono (List.prefix_append ..)
  | write kind leads heard =>
    intro w member write
    rcases List.mem_append.mp member with old | new
    · exact (backed w old).mono (List.prefix_append ..) write
    · obtain rfl := List.mem_singleton.mp new
      refine ⟨_, rfl, ?_⟩
      simp [TRequestProcessor.enqueue, TRequestProcessor.record, TRaft.append, TState.index_eq]

/-- **The waiting writes keep their entries** in a call that merges no batch which conflicts with them. -/
theorem Backed.handled {request : Request} (backed : ∀ w ∈ p.waiting, Backed p.raft.state.log w)
    (handled : Handled delay rsm p request p')
    (spared : ∀ call, request.call? = some call → ∀ message, p.raft.Merges delay call message →
      ∀ w ∈ p.waiting, w.command.isWrite → p.raft.state.Spares w.index message) :
    ∀ w ∈ p'.waiting, Backed p'.raft.state.log w := by
  have perform : ∀ call, request.call? = some call →
      ∀ w ∈ p.waiting, Backed (p.raft.perform delay call).state.log w := by
    intro call is_call w member
    rcases p.raft.log_perform delay call with longer | ⟨message, merges, -, kept⟩
    · exact (backed w member).mono longer
    · intro kind
      obtain ⟨e, own, low, get⟩ := backed w member kind
      have spares := kept w.index (spared call is_call message merges w member kind)
      exact ⟨e, own, low, get_of_take_prefixed spares (by omega) get⟩
  cases handled with
  | process now message => exact perform _ rfl
  | processTimeout now => exact perform _ rfl
  | append entry => exact perform _ rfl
  | served h =>
    induction h with
    | refl => exact backed
    | tail _ step ih =>
      obtain ⟨_, _, commanded⟩ := step
      exact Backed.commanded ih commanded
  | processCommitted =>
    have all := (processCommitted_applies rsm p).1
    rw [all.waiting, all.raft]
    exact backed
  | processWaiting h =>
    obtain ⟨p₁, p₂, rest, strongRest, answers, answers', part, -, rfl⟩ := Answers.of_processWaiting h
    intro w member
    have raft : p₂.raft = p.raft := answers'.frame.raft.trans answers.frame.raft
    have waiting : p₂.waiting = rest := answers'.frame.waiting
    exact raft ▸ backed w (part.subset (waiting ▸ member))

theorem Faithful.handled {request : Request} (f : Faithful p) (handled : Handled delay rsm p request p')
    (inside : p.raft.volatileState.commitIndex ≤ p.raft.state.log.length) (keeps : p.raft.Keeps p'.raft)
    (spared : ∀ call, request.call? = some call → ∀ message, p.raft.Merges delay call message →
      ∀ w ∈ p.waiting, w.command.isWrite → p.raft.state.Spares w.index message) : Faithful p' := by
  refine ⟨f.accounted.handled handled inside keeps, Backed.handled f.backed handled spared, ?_⟩
  obtain ⟨es, events, replies⟩ := handled.replies
  rw [events]
  intro event member
  rcases List.mem_append.mp member with old | new
  · exact (f.honored event old).mono (List.prefix_append ..)
  · cases event with
    | answer strong w applied seqno reply =>
      cases strong with
      | true => trivial
      | false =>
        intro kind
        obtain ⟨due, ⟨r, same, source⟩, -⟩ := replies _ _ _ _ _ new
        rw [if_pos kind] at source
        obtain ⟨a, there, own, rfl⟩ := source
        obtain ⟨e, mine, -, get⟩ := f.backed w due.waits kind
        obtain ⟨-, -, e', before, written, get'⟩ := f.accounted a there
        rw [own] at written get'
        obtain rfl : e = e' := Option.some.inj (get.symm.trans get')
        exact ⟨e, before, a.reply, mine, List.mem_append_left _ written, same⟩
    | _ => trivial

/-! ## Runs -/

/-- No batch replaces the entry of a write that waits on the server it arrives at. -/
def Spared (delay : UInt32 → ℕ) (P : System ρ) (label : System.Label) (_ : System ρ) : Prop :=
  ∀ s request call, label = .call s request → request.call? = some call → ∀ message,
    (P s).raft.Merges delay call message → ∀ w ∈ (P s).waiting, w.command.isWrite →
      (P s).raft.state.Spares w.index message

theorem Faithful.start (start : System.Start ids P) (mem : s ∈ ids) : Faithful (P s) := by
  rw [start.2 s mem]
  exact ⟨nofun, nofun, nofun⟩

theorem Faithful.step (con : Consistent lim ids h P) (small : lim ≤ 2 ^ 31) (spared : Spared delay P label P')
    (f : ∀ s ∈ ids, Faithful (P s)) (st : System.Step delay lim ids rsm P label P') : ∀ s ∈ ids, Faithful (P' s) := by
  intro x mem
  rcases st.reacts x with idle | ⟨-, request, rfl, -, done⟩ | ⟨-, -, restored, restarted⟩
  · rw [idle]
    exact f x mem
  · exact (f x mem).handled (.of_handle done) ((con.agrees.sim x mem).commit small).1 (System.Step.keeps con small st)
      fun call is_call => spared x request call rfl is_call
  · rw [restarted]
    exact ⟨.restart restored (P x), nofun, (f x mem).honored⟩

/-- **A write is acknowledged for its own command**, in every run in which no batch replaces the entry of a waiting
write: the entry applied at its index is the one that was appended for it, and no other entry was ever applied
there. -/
theorem write_acknowledgement (delay : UInt32 → ℕ) (rsm : IRsm ρ) (ids : Finset ℕ) {start P : System ρ}
    (fresh : System.Start ids start) (run : System.Run delay (2 ^ 31) ids rsm (Spared delay) start P) :
    ∀ s ∈ ids, ∀ (w : TWaiting) (applied seqno : ℕ) (reply : TCommandResponse),
      .answer false w applied seqno reply ∈ (P s).events → w.command.isWrite →
      ∃ e before r, w.entry = some e ∧ .write w.index e before r ∈ (P s).events ∧
        reply = { r with cookie := w.command.cookie } ∧ ∀ d, (w.index, d) ∈ appliedOf (P s).events → d = e := by
  obtain ⟨⟨h, con⟩, faithful⟩ : (∃ h, Consistent (2 ^ 31) ids h P) ∧ ∀ s ∈ ids, Faithful (P s) := by
    induction run with
    | refl => exact ⟨⟨_, .start (by decide) fresh⟩, fun s mem => .start fresh mem⟩
    | tail _ st ih =>
      obtain ⟨⟨h, con⟩, faithful⟩ := ih
      obtain ⟨label, spared, st⟩ := st
      obtain ⟨h', -, con'⟩ := con.step le_rfl st
      exact ⟨⟨h', con'⟩, .step con le_rfl spared faithful st⟩
  intro s mem w applied seqno reply answered kind
  obtain ⟨e, before, r, own, written, same⟩ := (faithful s mem).honored _ answered kind
  refine ⟨e, before, r, own, written, same, fun d there => ?_⟩
  have index : (w.index, e) ∈ appliedOf (P s).events := List.mem_filterMap.mpr ⟨_, written, rfl⟩
  exact (con.settled s mem _ d there).agree con.agrees.inv (con.settled s mem _ e index)

/-- No batch that is delivered replaces the entry of a write that waits, whether it is merged or not. -/
def System.spares (P : System ρ) : System.Label → Bool
  | .call s (.process _ (.appendEntriesRequest _ body)) =>
    (P s).waiting.all fun w => w.command.isWrite → (P s).raft.state.Spares w.index body
  | _ => true

theorem Spared.of_spares (spares : P.spares label) : Spared delay P label P' := by
  rintro s request call rfl is_call message ⟨now, ex, rfl, -⟩ w waits kind
  cases request with
  | process =>
    cases is_call
    exact of_decide_eq_true ((List.all_eq_true.mp spares) w waits) kind
  | _ => cases is_call

/-- Server 1 leads term 2 and queues a write, which it has sent to server 2 when server 2 is elected. After its second election
server 2, whose log is longer by then, goes back until it finds server 1, and sends it all from the write on. -/
def handedOver : List Cue :=
  [.request 1 (.processTimeout 1000000000), .deliver 1000000000 1 1, .deliver 1000000000 2 2,
    .request 1 (.processTimeout 1000000000), .deliver 1000000000 1 3, .deliver 1000000000 2 3,
    .request 1 (.onCommandRequest { flags := 1, cookie := 5, data := [65] } (some 7)),
    .request 1 (.processTimeout 3000000000), .deliver 3000000000 1 5,
    .request 2 (.processTimeout 10000000000), .request 2 (.processTimeout 10000000000), .deliver 10000000000 2 7,
    .deliver 10000000000 3 2, .request 2 (.processTimeout 10000000000),
    .request 2 (.onCommandRequest { flags := 1, cookie := 6, data := [66] } (some 8)),
    .request 3 (.processTimeout 20000000000), .request 3 (.processTimeout 20000000000), .deliver 20000000000 3 5,
    .request 2 (.processTimeout 30000000000), .request 2 (.processTimeout 30000000000), .deliver 30000000000 2 14,
    .deliver 30000000000 3 8, .request 2 (.processTimeout 30000000000), .deliver 30000000000 2 15, .deliver 30000000000 1 7,
    .request 2 (.processTimeout 33000000000), .deliver 33000000000 2 17, .deliver 33000000000 1 8,
    .request 2 (.processTimeout 36000000000), .deliver 36000000000 2 19, .deliver 36000000000 1 9,
    .request 2 (.processTimeout 39000000000), .deliver 39000000000 2 21, .deliver 39000000000 1 10,
    .request 2 (.processTimeout 42000000000), .deliver 42000000000 2 23, .request 1 .processCommitted,
    .request 1 .processWaiting]

/-- The write that waits at server 1. -/
def handed : TWaiting where
  index := 2
  command := { flags := 1, cookie := 5, data := [65] }
  replyTo := some 7
  entry := some { term := 2, data := [65] }

/-- Server 1, which follows by then, answers with the reply to the entry that it appended as a leader. -/
theorem write_acknowledgement_spared : ∃ P,
    System.Run (fun _ => 5000) (2 ^ 31) [1, 2, 3].toFinset (TDummyRsm.rsm []) (Spared fun _ => 5000)
      (.fresh [1, 2, 3] { impl := [] }) P ∧
    (P 1).raft.stateName = .follower ∧ (P 1).raft.state.log.map TLogEntry.term = [2, 2, 3, 3, 5] ∧
    ∃ before r, .write 2 { term := 2, data := [65] } before r ∈ (P 1).events ∧
      ∀ d, (2, d) ∈ appliedOf (P 1).events → d = { term := 2, data := [65] } := by
  obtain ⟨P, run, answered, follows, log⟩ := System.exists_of_resume (fun P label _ => P.spares label) [1, 2, 3] handedOver
    (.fresh [1, 2, 3] { impl := [] }) (fun P => .answer false handed 5 0 { index := 2, cookie := 5 } ∈ (P 1).events ∧
      (P 1).raft.stateName = .follower ∧ (P 1).raft.state.log.map TLogEntry.term = [2, 2, 3, 3, 5]) (by decide +kernel)
  have run : System.Run _ _ _ _ (Spared fun _ => 5000) _ P := run.mono fun _ _ _ spares => .of_spares spares
  obtain ⟨e, before, r, mine, written, -, alone⟩ := write_acknowledgement _ _ _
    (System.fresh_start (by decide) (by decide) _) run 1 (by decide) handed _ _ _ answered (by decide)
  cases mine
  exact ⟨P, run, follows, log, before, r, written, alone⟩

/-- Server 1 leads term 2 and queues a write at index 2. Server 3 leads term 3, with the vote of server 2, and its
entries 1 and 2 replace those of server 1. -/
def overwritten : List Cue :=
  [.request 1 (.processTimeout 1000000000), .deliver 1000000000 1 1, .deliver 1000000000 2 2,
    .request 1 (.processTimeout 1000000000),
    .request 1 (.onCommandRequest { flags := 1, cookie := 5, data := [65] } (some 7)),
    .request 3 (.processTimeout 1000000000), .request 3 (.processTimeout 7000000000), .deliver 7000000000 3 5,
    .deliver 7000000000 2 5, .request 3 (.processTimeout 7000000000),
    .request 3 (.onCommandRequest { flags := 1, cookie := 6, data := [66] } (some 8)),
    .deliver 7000000000 3 6, .deliver 7000000000 1 6, .request 3 (.processTimeout 7000000000),
    .deliver 7000000000 3 8, .deliver 7000000000 1 7, .request 3 (.processTimeout 10000000000),
    .deliver 10000000000 3 9, .request 1 .processCommitted, .request 1 .processWaiting]

/-- The write at server 1 is acknowledged, and the entry applied at its index is another one. -/
theorem write_acknowledgement_overwritten : ∃ P,
    System.Reachable (fun _ => 5000) (2 ^ 31) [1, 2, 3].toFinset (TDummyRsm.rsm []) P ∧
    ∃ (w : TWaiting) (applied seqno : ℕ) (reply : TCommandResponse) (d : TLogEntry),
      .answer false w applied seqno reply ∈ (P 1).events ∧ w.command.isWrite ∧
      (w.index, d) ∈ appliedOf (P 1).events ∧ w.entry ≠ some d := by
  let w : TWaiting :=
    { index := 2
      command := { flags := 1, cookie := 5, data := [65] }
      replyTo := some 7
      entry := some { term := 2, data := [65] } }
  obtain ⟨P, reach, answered, applied⟩ := System.reachable_of_rehearse [1, 2, 3] overwritten (by decide)
    (by decide) (fun P => .answer false w 2 0 { index := 2, cookie := 5 } ∈ (P 1).events ∧
      (2, { term := 3, data := [66] }) ∈ appliedOf (P 1).events) (by decide +kernel)
  exact ⟨P, reach, w, _, _, _, _, answered, by decide, applied, by decide⟩

end MiniRaft
