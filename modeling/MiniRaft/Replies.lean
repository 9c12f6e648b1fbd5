import MiniRaft.Applied

/-!
# Replies to waiting requests

Every reply that `ProcessWaiting` sends is one to a request that was waiting and ready, and it is what the state
machine said.
-/

namespace MiniRaft

variable {ρ : Type*} {rsm : IRsm ρ} {p p' : TRequestProcessor ρ} {command : TCommandRequest} {replyTo : Option ℕ}

/-- `Waiting` or `StrongWaiting`. -/
def TRequestProcessor.queue (strong : Bool) (p : TRequestProcessor ρ) : List TWaiting :=
  if strong then p.strongWaiting else p.waiting

/-- The request waits, and `ProcessWaiting` may answer it. -/
structure Due (p : TRequestProcessor ρ) (strong : Bool) (w : TWaiting) : Prop where
  waits : w ∈ p.queue strong
  index : w.index ≤ p.rsm.lastAppliedIndex
  seqno : strong → w.seqno ≤ p.raft.commitSeqno
  client : w.replyTo.isSome

/-- The reply is what the state machine said, with the cookie of the request: to a write out of `WriteAnswers`,
under its index, and to a read what `Read` returned for it. -/
def RepliesTo (rsm : IRsm ρ) (answers : List TAnswer) (w : TWaiting) (reply : TCommandResponse) : Prop :=
  ∃ r, reply = { r with cookie := w.command.cookie } ∧
    if w.command.isWrite then ∃ a ∈ answers, a.index = w.index ∧ a.reply = r
    else ∃ m, (rsm.read w.command w.index m).1 = some r

theorem Answered.replies {strong : Bool} {applied : ℕ} {w : TWaiting} (h : Answered rsm strong applied w p p') :
    w.replyTo.isSome ∧ ∃ reply, RepliesTo rsm p.writeAnswers w reply ∧
      p'.events = p.events ++ [.answer strong w applied p.raft.commitSeqno reply] := by
  cases h with
  | @write kind weak heard answer rest own taken =>
    have there : answer ∈ p.writeAnswers := (List.dropWhile_suffix _).subset (taken ▸ List.mem_cons_self ..)
    exact ⟨heard, _, ⟨answer.reply, rfl, by rw [if_pos kind]; exact ⟨answer, there, own, rfl⟩⟩, rfl⟩
  | @read kind heard reply some_ =>
    exact ⟨heard, _, ⟨reply, rfl, by rw [if_neg (by simp [kind])]; exact ⟨_, some_⟩⟩, rfl⟩

theorem RepliesTo.mono {answers answers' : List TAnswer} {w : TWaiting} {reply : TCommandResponse}
    (le : answers ⊆ answers') (h : RepliesTo rsm answers w reply) : RepliesTo rsm answers' w reply := by
  obtain ⟨r, same, source⟩ := h
  refine ⟨r, same, ?_⟩
  split
  · rename_i kind
    rw [if_pos kind] at source
    obtain ⟨a, there, own⟩ := source
    exact ⟨a, le there, own⟩
  · rename_i kind
    rwa [if_neg kind] at source

theorem Answers.replies {strong : Bool} {applied : ℕ} {ok : TWaiting → Prop} (h : Answers rsm strong applied ok p p') :
    ∃ es, p'.events = p.events ++ es ∧ ∀ e ∈ es, ∃ w reply, ok w ∧ w.replyTo.isSome ∧
      RepliesTo rsm p.writeAnswers w reply ∧ e = .answer strong w applied p.raft.commitSeqno reply := by
  induction h with
  | refl => exact ⟨[], by simp, nofun⟩
  | @tail p₁ p₂ first step ih =>
    obtain ⟨es, events, all⟩ := ih
    obtain ⟨w, fits, answered⟩ := step
    obtain ⟨heard, reply, replies, event⟩ := answered.replies
    refine ⟨es ++ [.answer strong w applied p₁.raft.commitSeqno reply], by rw [event, events, List.append_assoc], ?_⟩
    intro e member
    rcases List.mem_append.mp member with old | new
    · exact all e old
    · obtain rfl := List.mem_singleton.mp new
      exact ⟨w, reply, fits, heard, replies.mono (Quiet.of_answers first).answers.subset,
        by rw [(Answers.frame first).raft]⟩

/-- **The replies of one call.** -/
theorem Handled.replies {delay : UInt32 → ℕ} {request : Request} (h : Handled delay rsm p request p') :
    ∃ es, p'.events = p.events ++ es ∧ ∀ strong w applied seqno reply, .answer strong w applied seqno reply ∈ es →
      Due p strong w ∧ RepliesTo rsm p.writeAnswers w reply ∧ applied = p.rsm.lastAppliedIndex ∧
        seqno = p.raft.commitSeqno := by
  cases h with
  | process | processTimeout | append => exact ⟨[], by simp, nofun⟩
  | served h =>
    suffices ∃ es, p'.events = p.events ++ es ∧ ∀ strong w applied seqno reply,
        TEvent.answer strong w applied seqno reply ∉ es by
      obtain ⟨es, events, none⟩ := this
      exact ⟨es, events, fun strong w applied seqno reply member => absurd member (none _ _ _ _ _)⟩
    induction h with
    | refl => exact ⟨[], by simp, nofun⟩
    | tail _ step ih =>
      obtain ⟨es, events, none⟩ := ih
      obtain ⟨_, _, commanded⟩ := step
      cases commanded with
      | aside aside =>
        obtain ⟨fs, events', asides⟩ := aside.events
        refine ⟨es ++ fs, by rw [events', events, List.append_assoc], fun strong w applied seqno reply member => ?_⟩
        rcases List.mem_append.mp member with old | new
        · exact none _ _ _ _ _ old
        · exact asides _ new
      | silent => exact ⟨es, events, none⟩
      | read | strong | write =>
        refine ⟨es ++ [_], by rw [← List.append_assoc, ← events]; rfl, fun strong w applied seqno reply member => ?_⟩
        rcases List.mem_append.mp member with old | new
        · exact none _ _ _ _ _ old
        · cases List.mem_singleton.mp new
  | processCommitted =>
    obtain ⟨es, events, -, fits, -⟩ := (processCommitted_applies rsm p).1.events
    exact ⟨es, events, fun strong w applied seqno reply member => absurd (fits _ member) nofun⟩
  | processWaiting h =>
    obtain ⟨p₁, p₂, rest, strongRest, answers, answers', -, -, rfl⟩ := Answers.of_processWaiting h
    obtain ⟨es, events, all⟩ := answers.replies
    obtain ⟨fs, events', all'⟩ := answers'.replies
    refine ⟨es ++ fs, by rw [← List.append_assoc, ← events]; exact events', ?_⟩
    intro strong w applied seqno reply member
    rcases List.mem_append.mp member with weak | strong
    · obtain ⟨_, _, fits, heard, replies, same⟩ := all _ weak
      cases same
      exact ⟨⟨fits.1, fits.2, nofun, heard⟩, replies, rfl, rfl⟩
    · obtain ⟨_, _, fits, heard, replies, same⟩ := all' _ strong
      cases same
      have kept : p₁.raft = p.raft := answers.frame.raft
      refine ⟨⟨fits.1, fits.2.1, fun _ => fits.2.2, heard⟩, replies.mono ?_, rfl, congrArg _ kept⟩
      exact (Quiet.of_answers answers).answers.subset

end MiniRaft
