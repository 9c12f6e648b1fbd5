import MiniRaft.Cluster
import MiniRaft.Processor

/-!
# The calls of the event loop (`TRaftServer`)

`TRaftServer` makes the calls below, in any order as far as this model is concerned. Each call is characterised
once, by what it can do to the queues, the protocol and the state machine.
-/

namespace MiniRaft

inductive Request where
  | process (now : Time) (message : TMessage)
  | processTimeout (now : Time)
  | append (entry : TLogEntry)
  | onCommandRequest (command : TCommandRequest) (replyTo : Option ℕ)
  | onCommandResponse (response : TCommandResponse)
  | checkStateChange
  | processCommitted
  | processWaiting
  | cleanUp (client : ℕ)

namespace TRequestProcessor

variable {ρ : Type*}

/-- The constructor. -/
def new (raft : TRaft) (rsm : TRsm ρ) : TRequestProcessor ρ where
  raft := raft
  rsm := rsm
  nodes := raft.nodes

/-- The process is started again: the stored state is kept, the state machine is whatever it restores. -/
def restart (rsm : TRsm ρ) (p : TRequestProcessor ρ) : TRequestProcessor ρ :=
  { new p.raft.restart rsm with events := p.events }

def handle (delay : UInt32 → ℕ) (rsm : IRsm ρ) (p : TRequestProcessor ρ) :
    Request → Except Fault (TRequestProcessor ρ)
  | .process now message => .ok { p with raft := p.raft.process delay now message }
  | .processTimeout now => .ok { p with raft := p.raft.processTimeout delay now }
  | .append entry => .ok { p with raft := (p.raft.append entry).2 }
  | .onCommandRequest command replyTo => p.onCommandRequest rsm command replyTo
  | .onCommandResponse response => p.onCommandResponse response
  | .checkStateChange => p.checkStateChange rsm
  | .processCommitted => .ok (p.processCommitted rsm)
  | .processWaiting => p.processWaiting rsm
  | .cleanUp client => .ok (p.cleanUp client)

/-- Calls one after the other, up to the first that fails. -/
def handleAll (delay : UInt32 → ℕ) (rsm : IRsm ρ) (requests : List Request) (p : TRequestProcessor ρ) :
    Except Fault (TRequestProcessor ρ) := requests.foldlM (fun p request => p.handle delay rsm request) p

end TRequestProcessor

/-- An event that concerns neither the queues nor the state machine. -/
def TEvent.IsAside : TEvent → Prop
  | .respond .. | .forward .. => True
  | _ => False

variable {ρ : Type*} {rsm : IRsm ρ} {p p' : TRequestProcessor ρ} {command : TCommandRequest} {replyTo : Option ℕ}

/-- Nothing but bookkeeping for forwarded commands has changed. -/
structure Aside (p p' : TRequestProcessor ρ) : Prop where
  raft : p'.raft = p.raft
  rsm : p'.rsm = p.rsm
  waiting : p'.waiting = p.waiting
  strongWaiting : p'.strongWaiting = p.strongWaiting
  writeAnswers : p'.writeAnswers = p.writeAnswers
  events : ∃ es, p'.events = p.events ++ es ∧ ∀ e ∈ es, e.IsAside

theorem Aside.refl (p : TRequestProcessor ρ) : Aside p p := ⟨rfl, rfl, rfl, rfl, rfl, [], by simp, by simp⟩

theorem Aside.of_forward (h : p.forward command replyTo = .ok p') : Aside p p' := by
  unfold TRequestProcessor.forward at h
  dsimp only at h
  split at h
  · cases h; exact .refl p
  · split at h
    · cases h; exact ⟨rfl, rfl, rfl, rfl, rfl, _, rfl, by simp [TEvent.IsAside]⟩
    · split at h
      · cases h; exact ⟨rfl, rfl, rfl, rfl, rfl, [], by simp, by simp⟩
      · split at h
        · split at h
          · cases h
          · split at h
            · cases h
            · cases h; exact ⟨rfl, rfl, rfl, rfl, rfl, _, rfl, by simp [TEvent.IsAside]⟩
        · cases h

theorem Aside.of_onCommandResponse {response : TCommandResponse} (h : p.onCommandResponse response = .ok p') :
    Aside p p' := by
  unfold TRequestProcessor.onCommandResponse at h
  dsimp only at h
  split at h
  · cases h; exact .refl p
  · split at h
    · cases h
    · cases h; exact ⟨rfl, rfl, rfl, rfl, rfl, _, rfl, by simp [TEvent.IsAside]⟩

theorem Aside.of_cleanUp (client : ℕ) (p : TRequestProcessor ρ) : Aside p (p.cleanUp client) := by
  unfold TRequestProcessor.cleanUp
  split
  · exact .refl p
  · exact ⟨rfl, rfl, rfl, rfl, rfl, [], by simp, by simp⟩

/-- **What one command does.** -/
inductive Commanded (rsm : IRsm ρ) (command : TCommandRequest) (replyTo : Option ℕ) (p : TRequestProcessor ρ) :
    TRequestProcessor ρ → Prop where
  | aside {p' : TRequestProcessor ρ} (h : Aside p p') : Commanded rsm command replyTo p p'
  | read (kind : command.isWrite = false) (fits : ∀ w ∈ p.waiting.getLast?, w.index ≤ p.raft.getLastIndex) :
      Commanded rsm command replyTo p (p.enqueue { index := p.raft.getLastIndex, command, replyTo })
  | strong (kind : command.isWrite = false) (consistent : command.isConsistent) (leads : p.raft.stateName = .leader)
      (fits : ∀ w ∈ p.strongWaiting.getLast?,
        w.index ≤ p.raft.approveRead.2.getLastIndex ∧ w.seqno ≤ p.raft.approveRead.1) :
      Commanded rsm command replyTo p
        (TRequestProcessor.enqueueStrong
          { index := p.raft.approveRead.2.getLastIndex, seqno := p.raft.approveRead.1, command, replyTo }
          { p with raft := p.raft.approveRead.2 })
  | silent (kind : command.isWrite) (leads : p.raft.stateName = .leader) (deaf : replyTo = none) :
      Commanded rsm command replyTo p
        { p with rsm := (rsm.prepare command p.rsm).2, raft := (p.raft.append (rsm.prepare command p.rsm).1).2 }
  | write (kind : command.isWrite) (leads : p.raft.stateName = .leader) (heard : replyTo.isSome) :
      Commanded rsm command replyTo p
        (TRequestProcessor.enqueue
          { index := (p.raft.append (rsm.prepare command p.rsm).1).1, command, replyTo
            entry := some { (rsm.prepare command p.rsm).1 with term := p.raft.state.currentTerm } }
          { p with rsm := (rsm.prepare command p.rsm).2, raft := (p.raft.append (rsm.prepare command p.rsm).1).2 })

theorem Commanded.of_onCommandRequest (h : p.onCommandRequest rsm command replyTo = .ok p') :
    Commanded rsm command replyTo p p' := by
  unfold TRequestProcessor.onCommandRequest at h
  split at h
  · rename_i kind
    have kind : command.isWrite = false := by simpa using kind
    unfold TRequestProcessor.onReadRequest at h
    dsimp only at h
    rw [if_neg (by simp [kind])] at h
    split at h
    · split at h
      · rename_i fits
        cases h
        exact .read kind (by simpa [Option.all_eq_true] using fits)
      · cases h
    · rename_i stale
      split at h
      · exact .aside (.of_forward h)
      · rename_i leads
        have leads : p.raft.stateName = .leader := by simpa using leads
        split at h
        · rename_i fits
          cases h
          exact .strong kind (by by_contra c; exact stale (.inr ⟨c, leads⟩)) leads
            (by simpa [Option.all_eq_true] using fits)
        · cases h
  · rename_i kind
    have kind : command.isWrite = true := by simpa using kind
    unfold TRequestProcessor.onWriteRequest at h
    dsimp only at h
    rw [if_neg (by simp [kind])] at h
    split at h
    · rename_i leads
      split at h
      · rename_i heard
        split at h
        · cases h; exact .write kind leads heard
        · cases h
      · rename_i deaf
        cases h
        exact .silent kind leads (by simpa using deaf)
    · exact .aside (.of_forward h)

/-- **What answering one waiting request does.** -/
inductive Answered (rsm : IRsm ρ) (strong : Bool) (applied : ℕ) (w : TWaiting) (p : TRequestProcessor ρ) :
    TRequestProcessor ρ → Prop where
  | write (kind : w.command.isWrite) (weak : strong = false) (heard : w.replyTo.isSome) {answer : TAnswer}
      {rest : List TAnswer} (own : answer.index = w.index)
      (taken : p.writeAnswers.dropWhile (·.index < w.index) = answer :: rest) : Answered rsm strong applied w p
        ({ p with writeAnswers := rest }.record
          (.answer strong w applied p.raft.commitSeqno { answer.reply with cookie := w.command.cookie }))
  | read (kind : w.command.isWrite = false) (heard : w.replyTo.isSome) {reply : TCommandResponse}
      (some_ : (rsm.read w.command w.index p.rsm).1 = some reply) : Answered rsm strong applied w p
        ({ p with rsm := (rsm.read w.command w.index p.rsm).2 }.record
          (.answer strong w applied p.raft.commitSeqno { reply with cookie := w.command.cookie }))

theorem Answered.of_read {strong : Bool} {applied : ℕ} {w : TWaiting} (kind : w.command.isWrite = false)
    (h : (p.readAnswer rsm w).bind (fun (reply, p) => p.sendReply strong w applied reply) = .ok p') :
    Answered rsm strong applied w p p' := by
  unfold TRequestProcessor.readAnswer at h
  split at h
  · rename_i reply after got
    simp only [Except.bind, TRequestProcessor.sendReply] at h
    split at h
    · rename_i heard
      cases h
      have answered : Answered rsm strong applied w p _ := .read kind heard (by rw [got])
      rwa [got] at answered
    · cases h
  · cases h

theorem Answered.of_answer {applied : ℕ} {w : TWaiting} (h : p.answer rsm applied w = .ok p') :
    Answered rsm false applied w p p' := by
  unfold TRequestProcessor.answer at h
  split at h
  · rename_i kind
    unfold TRequestProcessor.takeAnswer at h
    split at h
    · cases h
    · rename_i answer rest taken
      split at h
      · rename_i own
        simp only [Except.bind, TRequestProcessor.sendReply] at h
        split at h
        · rename_i heard
          cases h
          exact .write kind rfl heard own taken
        · cases h
      · cases h
  · rename_i kind
    exact .of_read (by simpa using kind) h

theorem Answered.of_answerStrong {applied : ℕ} {w : TWaiting} (h : p.answerStrong rsm applied w = .ok p') :
    Answered rsm true applied w p p' := by
  unfold TRequestProcessor.answerStrong at h
  split at h
  · cases h
  · rename_i kind
    exact .of_read (by simpa using kind) h

/-- Answers to requests that satisfy `ok`, one after the other. -/
def Answers (rsm : IRsm ρ) (strong : Bool) (applied : ℕ) (ok : TWaiting → Prop) :
    TRequestProcessor ρ → TRequestProcessor ρ → Prop :=
  Relation.ReflTransGen fun p p' => ∃ w, ok w ∧ Answered rsm strong applied w p p'

theorem Answers.mono {strong : Bool} {applied : ℕ} {ok ok' : TWaiting → Prop} (le : ∀ w, ok w → ok' w)
    (h : Answers rsm strong applied ok p p') : Answers rsm strong applied ok' p p' := by
  induction h with
  | refl => exact .refl
  | tail _ step ih =>
    obtain ⟨w, member, answered⟩ := step
    exact .tail ih ⟨w, le w member, answered⟩

/-- What answering leaves alone. -/
structure Answers.Frame (p p' : TRequestProcessor ρ) : Prop where
  raft : p'.raft = p.raft
  waiting : p'.waiting = p.waiting
  strongWaiting : p'.strongWaiting = p.strongWaiting

theorem Answered.frame {strong : Bool} {applied : ℕ} {w : TWaiting} (h : Answered rsm strong applied w p p') :
    Answers.Frame p p' := by
  cases h <;> exact ⟨rfl, rfl, rfl⟩

theorem Answers.frame {strong : Bool} {applied : ℕ} {ok : TWaiting → Prop} (h : Answers rsm strong applied ok p p') :
    Answers.Frame p p' := by
  induction h with
  | refl => exact ⟨rfl, rfl, rfl⟩
  | tail _ step ih =>
    obtain ⟨w, -, answered⟩ := step
    have last := answered.frame
    exact ⟨last.raft.trans ih.raft, last.waiting.trans ih.waiting, last.strongWaiting.trans ih.strongWaiting⟩

theorem Except.bind_ok {α β : Type*} {x : Except Fault α} {f : α → Except Fault β} {b : β} (h : x.bind f = .ok b) :
    ∃ a, x = .ok a ∧ f a = .ok b := by
  cases x with
  | error fault => cases h
  | ok a => exact ⟨a, rfl, h⟩

theorem Answers.of_drain {strong : Bool} {applied : ℕ} {ready : TWaiting → Bool}
    {body : TWaiting → TRequestProcessor ρ → Except Fault (TRequestProcessor ρ)}
    (spec : ∀ {w p p'}, body w p = .ok p' → Answered rsm strong applied w p p') (q : List TWaiting) :
    ∀ {p p' : TRequestProcessor ρ} {rest : List TWaiting}, TRequestProcessor.drain ready body q p = .ok (rest, p') →
      Answers rsm strong applied (fun w => w ∈ q ∧ ready w) p p' ∧ rest <:+ q := by
  induction q with
  | nil => intro p p' rest h; cases h; exact ⟨.refl, List.suffix_rfl⟩
  | cons front q ih =>
    intro p p' rest h
    unfold TRequestProcessor.drain at h
    dsimp only at h
    split at h
    · rename_i now
      obtain ⟨p₁, first, later⟩ := Except.bind_ok h
      obtain ⟨answers, suffix⟩ := ih later
      have back := List.getLast_mem (List.cons_ne_nil front q)
      refine ⟨.head ⟨_, ⟨back, now⟩, spec first⟩ ?_, suffix.trans (List.suffix_cons ..)⟩
      exact answers.mono fun w ok => ⟨List.mem_cons_of_mem _ ok.1, ok.2⟩
    · cases h
      exact ⟨.refl, List.suffix_rfl⟩

/-- **What `ProcessWaiting` does**: it answers requests that are ready, and both queues get shorter. -/
theorem Answers.of_processWaiting (h : p.processWaiting rsm = .ok p') :
    ∃ p₁ p₂ rest strongRest,
      Answers rsm false p.rsm.lastAppliedIndex (fun w => w ∈ p.waiting ∧ w.index ≤ p.rsm.lastAppliedIndex) p p₁ ∧
      Answers rsm true p.rsm.lastAppliedIndex
        (fun w => w ∈ p.strongWaiting ∧ w.index ≤ p.rsm.lastAppliedIndex ∧ w.seqno ≤ p.raft.commitSeqno)
        { p₁ with waiting := rest } p₂ ∧
      rest <:+ p.waiting ∧ strongRest <:+ p.strongWaiting ∧ p' = { p₂ with strongWaiting := strongRest } := by
  obtain ⟨q, first, second⟩ := Except.bind_ok h
  obtain ⟨⟨rest, p₁⟩, drained, same⟩ := Except.bind_ok first
  cases same
  obtain ⟨⟨strongRest, p₂⟩, drained', same⟩ := Except.bind_ok second
  cases same
  obtain ⟨answers, suffix⟩ := of_drain Answered.of_answer _ drained
  obtain ⟨answers', suffix'⟩ := of_drain Answered.of_answerStrong _ drained'
  have frame := answers.frame
  refine ⟨p₁, p₂, rest, strongRest, answers.mono fun w ok => ?_, answers'.mono fun w ok => ?_, suffix,
    frame.strongWaiting ▸ suffix', rfl⟩
  · exact ⟨ok.1, by simpa using ok.2⟩
  · have ready : w.index ≤ p.rsm.lastAppliedIndex ∧ w.seqno ≤ p₁.raft.commitSeqno := by simpa using ok.2
    exact ⟨frame.strongWaiting ▸ ok.1, ready.1, frame.raft ▸ ready.2⟩

/-- Any number of commands, one after the other. -/
def Served (rsm : IRsm ρ) : TRequestProcessor ρ → TRequestProcessor ρ → Prop :=
  Relation.ReflTransGen fun p p' => ∃ command replyTo, Commanded rsm command replyTo p p'

theorem Served.of_foldlM (l : List TWaiting) :
    ∀ {p p' : TRequestProcessor ρ},
      l.foldlM (fun p w => p.onCommandRequest rsm w.command w.replyTo) p = Except.ok p' → Served rsm p p' := by
  induction l with
  | nil => intro p p' h; cases h; exact .refl
  | cons w l ih =>
    intro p p' h
    rw [List.foldlM_cons] at h
    cases first : p.onCommandRequest rsm w.command w.replyTo with
    | error fault => rw [first] at h; cases h
    | ok p₁ =>
      rw [first] at h
      exact .head ⟨_, _, .of_onCommandRequest first⟩ (ih h)

theorem Served.of_checkStateChange (h : p.checkStateChange rsm = .ok p') : Served rsm p p' := by
  unfold TRequestProcessor.checkStateChange at h
  split at h
  · cases h; exact .refl
  · split at h
    · cases h; exact .refl
    · have cleared : Aside p { p with waitingStateChange := [] } := ⟨rfl, rfl, rfl, rfl, rfl, [], by simp, by simp⟩
      exact .head ⟨default, none, .aside cleared⟩ (of_foldlM _ h)

/-- **What one call does.** -/
inductive Handled (delay : UInt32 → ℕ) (rsm : IRsm ρ) (p : TRequestProcessor ρ) :
    Request → TRequestProcessor ρ → Prop where
  | process (now : Time) (message : TMessage) :
      Handled delay rsm p (.process now message) { p with raft := p.raft.process delay now message }
  | processTimeout (now : Time) : Handled delay rsm p (.processTimeout now) { p with raft := p.raft.processTimeout delay now }
  | append (entry : TLogEntry) : Handled delay rsm p (.append entry) { p with raft := (p.raft.append entry).2 }
  | served {request : Request} {p' : TRequestProcessor ρ} (h : Served rsm p p') : Handled delay rsm p request p'
  | processCommitted : Handled delay rsm p .processCommitted (p.processCommitted rsm)
  | processWaiting {p' : TRequestProcessor ρ} (h : p.processWaiting rsm = .ok p') : Handled delay rsm p .processWaiting p'

theorem Handled.of_handle {delay : UInt32 → ℕ} {request : Request} (h : p.handle delay rsm request = .ok p') :
    Handled delay rsm p request p' := by
  cases request with
  | process now message => cases h; exact .process now message
  | processTimeout now => cases h; exact .processTimeout now
  | append entry => cases h; exact .append entry
  | onCommandRequest command replyTo => exact .served (.single ⟨_, _, .of_onCommandRequest h⟩)
  | onCommandResponse response => exact .served (.single ⟨default, none, .aside (.of_onCommandResponse h)⟩)
  | checkStateChange => exact .served (.of_checkStateChange h)
  | processCommitted => cases h; exact .processCommitted
  | processWaiting => exact .processWaiting h
  | cleanUp client => cases h; exact .served (.single ⟨default, none, .aside (.of_cleanUp client p)⟩)

end MiniRaft
