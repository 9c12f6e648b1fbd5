import MiniRaft.Applied
import MiniRaft.Forwarding

/-!
# Clients that have gone (`CleanUp`)

`CleanUp` removes a client from the two tables of forwarded commands. It does not look into the three queues, so that a
request that waits there when its client goes is answered later, or forwarded and noted again.
-/

namespace MiniRaft

/-- The event sends something to the client. -/
def TEvent.Reaches (client : ℕ) : TEvent → Prop
  | .answer _ request _ _ _ => request.replyTo = some client
  | .respond other _ => other = client
  | _ => False

/-- The call is a request with the client as `ReplyTo`. -/
def Request.Carries (client : ℕ) : Request → Prop
  | .onCommandRequest _ replyTo => replyTo = some client
  | _ => False

namespace TRequestProcessor

variable {ρ : Type*} {rsm : IRsm ρ} {p p' p'' : TRequestProcessor ρ} {client : ℕ}

/-- One of the queues has a request of the client. -/
def HasQueued (client : ℕ) (p : TRequestProcessor ρ) : Prop :=
  ∃ w ∈ p.waiting ++ p.strongWaiting ++ p.waitingStateChange, w.replyTo = some client

/-- The client is in neither table. -/
structure Unrouted (client : ℕ) (p : TRequestProcessor ρ) : Prop where
  clients : ∀ cookie, p.cookie2Client cookie ≠ some client
  cookies : p.client2Cookie client = none

/-- Every client but this one is in the tables as it was. -/
structure RoutesOthers (client : ℕ) (p p' : TRequestProcessor ρ) : Prop where
  clients : ∀ cookie other, other ≠ client → (p'.cookie2Client cookie = some other ↔ p.cookie2Client cookie = some other)
  cookies : ∀ other, other ≠ client → p'.client2Cookie other = p.client2Cookie other

/-- No cookie that is noted for the client leads to another one. -/
def Owns (client : ℕ) (p : TRequestProcessor ρ) : Prop :=
  ∀ cookies, p.client2Cookie client = some cookies → ∀ cookie ∈ cookies, ∀ other, other ≠ client →
    p.cookie2Client cookie ≠ some other

/-- Every cookie that leads to a client is noted for it. -/
def Noted (p : TRequestProcessor ρ) : Prop :=
  ∀ cookie client, p.cookie2Client cookie = some client →
    ∃ cookies, p.client2Cookie client = some cookies ∧ cookie ∈ cookies

/-- Nothing that is sent goes to a client outside `ok`. -/
def SendsTo (ok : ℕ → Prop) (p p' : TRequestProcessor ρ) : Prop :=
  ∃ es, p'.events = p.events ++ es ∧ ∀ e ∈ es, ∀ client, e.Reaches client → ok client

theorem SendsTo.trans {ok : ℕ → Prop} (first : SendsTo ok p p') (second : SendsTo ok p' p'') : SendsTo ok p p'' := by
  obtain ⟨es, events, fine⟩ := first
  obtain ⟨fs, events', fine'⟩ := second
  refine ⟨es ++ fs, by rw [events', events, List.append_assoc], fun e mem => ?_⟩
  cases List.mem_append.mp mem with
  | inl old => exact fine e old
  | inr new => exact fine' e new

theorem SendsTo.nothing {ok : ℕ → Prop} (events : p'.events = p.events) : SendsTo ok p p' :=
  ⟨[], by rw [events, List.append_nil], nofun⟩

theorem SendsTo.one {ok : ℕ → Prop} {e : TEvent} (events : p'.events = p.events ++ [e])
    (fine : ∀ client, e.Reaches client → ok client) : SendsTo ok p p' :=
  ⟨[e], events, fun f mem => by rw [List.mem_singleton.mp mem]; exact fine⟩

/-- **What happens to the clients**, step by step; `asks` are those that the call is made for. -/
inductive Move (asks : ℕ → Prop) (p : TRequestProcessor ρ) : TRequestProcessor ρ → Prop where
  /-- The tables are left alone. -/
  | queues {p' : TRequestProcessor ρ} (clients : p'.cookie2Client = p.cookie2Client)
      (cookies : p'.client2Cookie = p.client2Cookie) (queued : ∀ client, p'.HasQueued client → p.HasQueued client ∨ asks client)
      (sends : SendsTo (fun client => p.HasQueued client ∨ asks client) p p') : Move asks p p'
  /-- A command is forwarded. -/
  | note {p' : TRequestProcessor ρ} (cookie client : ℕ) (asked : asks client)
      (clients : p'.cookie2Client = Function.update p.cookie2Client cookie (some client))
      (cookies : p'.client2Cookie = Function.update p.client2Cookie client
        (some (insert cookie ((p.client2Cookie client).getD ∅))))
      (queued : ∀ client, p'.HasQueued client → p.HasQueued client) (sends : SendsTo (fun _ => False) p p') : Move asks p p'
  /-- A response comes for a command that was forwarded. -/
  | respond {p' : TRequestProcessor ρ} (cookie client : ℕ) (held : Finset ℕ) (found : p.cookie2Client cookie = some client)
      (here : p.client2Cookie client = some held)
      (clients : p'.cookie2Client = Function.update p.cookie2Client cookie none)
      (cookies : p'.client2Cookie = Function.update p.client2Cookie client
        (if held.erase cookie = ∅ then none else some (held.erase cookie)))
      (queued : ∀ client, p'.HasQueued client → p.HasQueued client) (sends : SendsTo (· = client) p p') : Move asks p p'
  | cleanUp (client : ℕ) : Move asks p (p.cleanUp client)

/-- Any number of these. -/
def Moves (asks : ℕ → Prop) : TRequestProcessor ρ → TRequestProcessor ρ → Prop := Relation.ReflTransGen (Move asks)

theorem hasQueued_of_same (waiting : p'.waiting = p.waiting) (strongWaiting : p'.strongWaiting = p.strongWaiting)
    (stateChange : p'.waitingStateChange = p.waitingStateChange) : p'.HasQueued client ↔ p.HasQueued client := by
  unfold HasQueued
  rw [waiting, strongWaiting, stateChange]

section

variable {asks : ℕ → Prop} {command : TCommandRequest} {replyTo : Option ℕ}

/-- Nothing but the protocol, the state machine and `WriteAnswers` has changed. -/
theorem Move.aside (clients : p'.cookie2Client = p.cookie2Client) (cookies : p'.client2Cookie = p.client2Cookie)
    (waiting : p'.waiting = p.waiting) (strongWaiting : p'.strongWaiting = p.strongWaiting)
    (stateChange : p'.waitingStateChange = p.waitingStateChange) (sends : SendsTo (fun _ => False) p p') :
    Move asks p p' := by
  apply Move.queues clients cookies
  · intro client queued
    exact .inl ((hasQueued_of_same waiting strongWaiting stateChange).mp queued)
  · obtain ⟨es, events, none_⟩ := sends
    exact ⟨es, events, fun e mem client reached => (none_ e mem client reached).elim⟩

/-- One request is queued. -/
theorem Move.queue {w : TWaiting} (asked : ∀ client, w.replyTo = some client → asks client)
    (clients : p'.cookie2Client = p.cookie2Client) (cookies : p'.client2Cookie = p.client2Cookie)
    (member : ∀ v ∈ p'.waiting ++ p'.strongWaiting ++ p'.waitingStateChange,
      v = w ∨ v ∈ p.waiting ++ p.strongWaiting ++ p.waitingStateChange)
    (sends : SendsTo (fun _ => False) p p') : Move asks p p' := by
  apply Move.queues clients cookies
  · rintro client ⟨v, mem, of_client⟩
    cases member v mem with
    | inl new => exact .inr (asked client (new ▸ of_client))
    | inr old => exact .inl ⟨v, old, of_client⟩
  · obtain ⟨es, events, none_⟩ := sends
    exact ⟨es, events, fun e mem client reached => (none_ e mem client reached).elim⟩

theorem Move.refl (p : TRequestProcessor ρ) : Move asks p p := .aside rfl rfl rfl rfl rfl (.nothing rfl)

theorem Move.of_forward (asked : ∀ client, replyTo = some client → asks client)
    (done : p.forward command replyTo = .ok p') : Move asks p p' := by
  unfold forward at done
  cases replyTo with
  | none =>
    cases done
    exact .refl p
  | some client =>
    dsimp only at done
    split at done
    · cases done
      refine Move.queues rfl rfl (fun _ => .inl) (.one rfl ?_)
      rintro _ rfl
      exact .inr (asked client rfl)
    split at done
    · cases done
      refine Move.queue asked rfl rfl (w := { index := 0, command, replyTo := some client }) ?_ (.nothing rfl)
      intro v mem
      simp only [List.mem_append, List.mem_singleton] at mem ⊢
      tauto
    split at done
    · split at done
      · cases done
      split at done
      · cases done
      cases done
      exact .note p.forwardCookie client (asked client rfl) rfl rfl (fun _ => id) (.one rfl fun _ => id)
    · cases done

/-- A request is queued after the protocol and the state machine have changed. -/
theorem Move.enqueue {q : TRequestProcessor ρ} {w : TWaiting} (asked : ∀ client, w.replyTo = some client → asks client)
    (same : { q with raft := p.raft, rsm := p.rsm } = p) : Move asks p (q.enqueue w) ∧ Move asks p (q.enqueueStrong w) := by
  rw [← same]
  constructor
  all_goals
    refine .queue asked rfl rfl (fun v mem => ?_) (.one rfl fun _ => id)
    simp only [TRequestProcessor.enqueue, enqueueStrong, record, List.mem_append, List.mem_singleton] at mem ⊢
    tauto

theorem Move.of_onCommandRequest (asked : ∀ client, replyTo = some client → asks client)
    (done : p.onCommandRequest rsm command replyTo = .ok p') : Move asks p p' := by
  unfold onCommandRequest at done
  split at done
  · unfold onReadRequest at done
    split at done
    · cases done
    split at done
    · split at done
      · cases done
        exact (Move.enqueue asked rfl).1
      · cases done
    split at done
    · exact of_forward asked done
    dsimp only at done
    split at done
    · cases done
      exact (Move.enqueue asked rfl).2
    · cases done
  · unfold onWriteRequest at done
    split at done
    · cases done
    split at done
    · dsimp only at done
      split at done
      · split at done
        · cases done
          exact (Move.enqueue asked rfl).1
        · cases done
      · cases done
        exact .aside rfl rfl rfl rfl rfl (.nothing rfl)
    · exact of_forward asked done

theorem Move.of_onCommandResponse {response : TCommandResponse} (done : p.onCommandResponse response = .ok p') :
    Move asks p p' := by
  unfold onCommandResponse at done
  split at done
  · cases done
    exact .refl p
  rename_i client found
  split at done
  · cases done
  rename_i held here
  cases done
  refine .respond response.cookie client held found here rfl rfl (fun _ => id) (.one rfl ?_)
  rintro _ rfl
  rfl

theorem Move.of_processCommitted (rsm : IRsm ρ) (p : TRequestProcessor ρ) : Moves asks p (p.processCommitted rsm) := by
  have applied (indices : List ℕ) : Moves asks p (indices.foldl (applyEntry rsm) p) := by
    refine List.foldlRecOn (motive := Moves asks p) indices _ .refl fun q moves i _ => moves.tail ?_
    unfold applyEntry
    dsimp only
    split
    · exact .aside rfl rfl rfl rfl rfl (.one rfl fun _ => id)
    · exact .aside rfl rfl rfl rfl rfl (.one rfl fun _ => id)
  exact (applied _).tail (.aside rfl rfl rfl rfl rfl (.nothing rfl))

/-- Requests leave the queues. -/
theorem Move.dequeue (clients : p'.cookie2Client = p.cookie2Client) (cookies : p'.client2Cookie = p.client2Cookie)
    (waiting : p'.waiting ⊆ p.waiting) (strongWaiting : p'.strongWaiting ⊆ p.strongWaiting)
    (stateChange : p'.waitingStateChange ⊆ p.waitingStateChange) (events : p'.events = p.events) : Move asks p p' := by
  apply Move.queues clients cookies _ (.nothing events)
  rintro client ⟨w, mem, of_client⟩
  refine .inl ⟨w, ?_, of_client⟩
  simp only [List.mem_append] at mem ⊢
  exact mem.imp (.imp (@waiting w) (@strongWaiting w)) (@stateChange w)

theorem Move.of_answered {strong : Bool} {applied : ℕ} {w : TWaiting}
    (asked : ∀ client, w.replyTo = some client → asks client) (answered : Answered rsm strong applied w p p') :
    Move asks p p' := by
  cases answered with
  | write => exact .queues rfl rfl (fun _ => .inl) (.one rfl fun client reached => .inr (asked client reached))
  | read => exact .queues rfl rfl (fun _ => .inl) (.one rfl fun client reached => .inr (asked client reached))

theorem Moves.of_answers {strong : Bool} {applied : ℕ} {ok : TWaiting → Prop}
    (asked : ∀ w, ok w → ∀ client, w.replyTo = some client → asks client)
    (answers : Answers rsm strong applied ok p p') : Moves asks p p' := by
  induction answers with
  | refl => exact .refl
  | tail _ last ih =>
    obtain ⟨w, fine, answered⟩ := last
    exact ih.tail (.of_answered (asked w fine) answered)

theorem Moves.of_processWaiting (queued : ∀ client, p.HasQueued client → asks client)
    (done : p.processWaiting rsm = .ok p') : Moves asks p p' := by
  obtain ⟨p₁, p₂, rest, strongRest, answers, answers', suffix, strongSuffix, rfl⟩ := Answers.of_processWaiting done
  have first : Moves asks p p₁ := by
    refine of_answers (fun w fine client of_client => queued client ⟨w, ?_, of_client⟩) answers
    exact List.mem_append_left _ (List.mem_append_left _ fine.1)
  have second : Moves asks { p₁ with waiting := rest } p₂ := by
    refine of_answers (fun w fine client of_client => queued client ⟨w, ?_, of_client⟩) answers'
    exact List.mem_append_left _ (List.mem_append_right _ fine.1)
  have taken : Move asks p₁ { p₁ with waiting := rest } :=
    .dequeue rfl rfl (answers.frame.waiting ▸ suffix.subset) (List.Subset.refl _) (List.Subset.refl _) rfl
  have strongTaken : Move asks p₂ { p₂ with strongWaiting := strongRest } := by
    have same : p₂.strongWaiting = p.strongWaiting :=
      answers'.frame.strongWaiting.trans answers.frame.strongWaiting
    exact .dequeue rfl rfl (List.Subset.refl _) (same ▸ strongSuffix.subset) (List.Subset.refl _) rfl
  exact ((first.tail taken).trans second).tail strongTaken

theorem Moves.of_foldlM (l : List TWaiting) (asked : ∀ w ∈ l, ∀ client, w.replyTo = some client → asks client) :
    ∀ {p p' : TRequestProcessor ρ},
      l.foldlM (fun p w => p.onCommandRequest rsm w.command w.replyTo) p = Except.ok p' → Moves asks p p' := by
  induction l with
  | nil =>
    intro p p' done
    cases done
    exact .refl
  | cons w l ih =>
    intro p p' done
    rw [List.foldlM_cons] at done
    obtain ⟨p₁, first, rest⟩ := Except.bind_ok done
    have here := Move.of_onCommandRequest (asked w (List.mem_cons_self ..)) first
    exact .head here (ih (fun v mem => asked v (List.mem_cons_of_mem _ mem)) rest)

theorem Moves.of_checkStateChange (queued : ∀ client, p.HasQueued client → asks client)
    (done : p.checkStateChange rsm = .ok p') : Moves asks p p' := by
  unfold checkStateChange at done
  split at done
  · cases done
    exact .refl
  split at done
  · cases done
    exact .refl
  have taken : Move asks p { p with waitingStateChange := [] } :=
    .dequeue rfl rfl (List.Subset.refl _) (List.Subset.refl _) (List.nil_subset _) rfl
  refine .head taken (of_foldlM _ (fun w mem client of_client => queued client ⟨w, ?_, of_client⟩) done)
  exact List.mem_append_right _ mem

/-- **Every call**, made for the clients that it or the queues have requests of. -/
theorem Moves.of_handle {delay : UInt32 → ℕ} {request : Request} (done : p.handle delay rsm request = .ok p') :
    Moves (fun client => p.HasQueued client ∨ request.Carries client) p p' := by
  cases request with
  | process | processTimeout | append =>
    cases done
    exact .single (.aside rfl rfl rfl rfl rfl (.nothing rfl))
  | onCommandRequest command replyTo => exact .single (.of_onCommandRequest (fun _ carries => .inr carries) done)
  | onCommandResponse response => exact .single (.of_onCommandResponse done)
  | checkStateChange => exact of_checkStateChange (fun _ => .inl) done
  | processCommitted =>
    cases done
    exact Move.of_processCommitted rsm p
  | processWaiting => exact of_processWaiting (fun _ => .inl) done
  | cleanUp client =>
    cases done
    exact .single (.cleanUp client)

/-! ## What the tables say -/

theorem Noted.cleanUp (noted : p.Noted) (client : ℕ) : (p.cleanUp client).Noted := by
  unfold TRequestProcessor.cleanUp
  cases here : p.client2Cookie client with
  | none => exact noted
  | some held =>
    intro cookie other found
    have kept : cookie ∉ held ∧ p.cookie2Client cookie = some other := by
      by_cases own : cookie ∈ held
      · simp [own] at found
      · exact ⟨own, by simpa [own] using found⟩
    obtain ⟨cookies, there, mem⟩ := noted cookie other kept.2
    have differs : other ≠ client := by
      rintro rfl
      rw [here] at there
      cases there
      exact kept.1 mem
    exact ⟨cookies, (Function.update_of_ne differs ..).trans there, mem⟩

theorem Noted.move (noted : p.Noted) (move : Move asks p p') : p'.Noted := by
  cases move with
  | queues clients cookies _ _ =>
    unfold Noted
    rw [clients, cookies]
    exact noted
  | note cookie client _ clients cookies _ _ =>
    intro k other found
    rw [clients] at found
    rw [cookies]
    by_cases new : k = cookie
    · subst new
      rw [Function.update_self] at found
      cases found
      exact ⟨_, Function.update_self .., Finset.mem_insert_self ..⟩
    · rw [Function.update_of_ne new] at found
      obtain ⟨held, here, mem⟩ := noted k other found
      by_cases same : other = client
      · subst same
        refine ⟨_, Function.update_self .., Finset.mem_insert_of_mem ?_⟩
        rw [here]
        exact mem
      · exact ⟨held, (Function.update_of_ne same ..).trans here, mem⟩
  | respond cookie client held _ here clients cookies _ _ =>
    intro k other found
    rw [clients] at found
    rw [cookies]
    by_cases gone : k = cookie
    · subst gone
      rw [Function.update_self] at found
      cases found
    · rw [Function.update_of_ne gone] at found
      obtain ⟨held', there, mem⟩ := noted k other found
      by_cases same : other = client
      · subst same
        obtain rfl : held = held' := Option.some.inj (here.symm.trans there)
        have left : k ∈ held.erase cookie := Finset.mem_erase.mpr ⟨gone, mem⟩
        refine ⟨held.erase cookie, ?_, left⟩
        rw [Function.update_self, if_neg (Finset.ne_empty_of_mem left)]
      · exact ⟨held', (Function.update_of_ne same ..).trans there, mem⟩
  | cleanUp client => exact noted.cleanUp client

/-- `CleanUp` takes the client out of both tables. -/
theorem Noted.unrouted (noted : p.Noted) (client : ℕ) : Unrouted client (p.cleanUp client) := by
  have after := noted.cleanUp client
  have cookies : (p.cleanUp client).client2Cookie client = none := by
    unfold TRequestProcessor.cleanUp
    cases here : p.client2Cookie client with
    | none => exact here
    | some held => exact Function.update_self ..
  refine ⟨fun cookie found => ?_, cookies⟩
  obtain ⟨held, there, -⟩ := after cookie client found
  rw [cookies] at there
  cases there

/-- **The other clients keep their routes** exactly where no cookie of this one leads to them. -/
theorem routesOthers_cleanUp_iff (client : ℕ) (p : TRequestProcessor ρ) :
    RoutesOthers client p (p.cleanUp client) ↔ p.Owns client := by
  unfold TRequestProcessor.cleanUp Owns
  cases here : p.client2Cookie client with
  | none => exact iff_of_true ⟨fun _ _ _ => Iff.rfl, fun _ _ => rfl⟩ nofun
  | some held =>
    constructor
    · rintro kept _ ⟨⟩ cookie own other differs found
      have := (kept.clients cookie other differs).mpr found
      simp [own] at this
    · intro owns
      refine ⟨fun cookie other differs => ?_, fun other differs => Function.update_of_ne differs ..⟩
      by_cases own : cookie ∈ held
      · simp [own, owns held rfl cookie own other differs]
      · simp [own]

/-! ## After the client has gone -/

/-- The client is in no table and no queue. -/
structure Gone (client : ℕ) (p : TRequestProcessor ρ) : Prop extends Unrouted client p where
  queued : ¬ p.HasQueued client

theorem hasQueued_cleanUp (client other : ℕ) (p : TRequestProcessor ρ) :
    (p.cleanUp client).HasQueued other ↔ p.HasQueued other := by
  unfold TRequestProcessor.cleanUp
  split <;> rfl

theorem SendsTo.avoids {ok : ℕ → Prop} (sends : SendsTo ok p p') (avoided : ¬ ok client) :
    SendsTo (· ≠ client) p p' := by
  obtain ⟨es, events, fine⟩ := sends
  exact ⟨es, events, fun e mem other reached same => avoided (same ▸ fine e mem other reached)⟩

/-- **One step.** A client that has gone stays away while nobody asks for it. -/
theorem Gone.move (gone : Gone client p) (move : Move asks p p') (others : ¬ asks client) :
    Gone client p' ∧ SendsTo (· ≠ client) p p' := by
  cases move with
  | queues clients cookies queued sends =>
    have quiet : ¬ (p.HasQueued client ∨ asks client) := not_or.mpr ⟨gone.queued, others⟩
    refine ⟨⟨⟨?_, ?_⟩, fun now => quiet (queued client now)⟩, sends.avoids quiet⟩
    · rw [clients]
      exact gone.clients
    · rw [cookies]
      exact gone.cookies
  | note cookie other asked clients cookies queued sends =>
    have differs : client ≠ other := fun same => others (same ▸ asked)
    refine ⟨⟨⟨fun k => ?_, ?_⟩, fun now => gone.queued (queued client now)⟩, sends.avoids fun absurd_ => absurd_⟩
    · rw [clients]
      by_cases new : k = cookie
      · subst new
        rw [Function.update_self]
        exact fun same => differs (Option.some.inj same).symm
      · rw [Function.update_of_ne new]
        exact gone.clients k
    · rw [cookies, Function.update_of_ne differs]
      exact gone.cookies
  | respond cookie other held found here clients cookies queued sends =>
    have differs : client ≠ other := by
      rintro rfl
      exact gone.clients cookie found
    refine ⟨⟨⟨fun k => ?_, ?_⟩, fun now => gone.queued (queued client now)⟩, sends.avoids differs⟩
    · rw [clients]
      by_cases same : k = cookie
      · subst same
        rw [Function.update_self]
        nofun
      · rw [Function.update_of_ne same]
        exact gone.clients k
    · rw [cookies, Function.update_of_ne differs]
      exact gone.cookies
  | cleanUp other =>
    have queued : ¬ (p.cleanUp other).HasQueued client := by
      rw [hasQueued_cleanUp]
      exact gone.queued
    unfold TRequestProcessor.cleanUp at queued ⊢
    split
    · exact ⟨gone, .nothing rfl⟩
    · rename_i held here
      rw [here] at queued
      refine ⟨⟨⟨fun k => ?_, ?_⟩, queued⟩, .nothing rfl⟩
      · dsimp only
        split
        · nofun
        · exact gone.clients k
      · have differs : client ≠ other := by
          rintro rfl
          rw [gone.cookies] at here
          cases here
        exact (Function.update_of_ne differs ..).trans gone.cookies

theorem Gone.moves (gone : Gone client p) (moves : Moves asks p p') (others : ¬ asks client) :
    Gone client p' ∧ SendsTo (· ≠ client) p p' := by
  induction moves with
  | refl => exact ⟨gone, .nothing rfl⟩
  | tail _ last ih =>
    obtain ⟨there, sends⟩ := ih
    obtain ⟨here, sends'⟩ := there.move last others
    exact ⟨here, sends.trans sends'⟩

/-- **A run** without requests of the client. -/
theorem Gone.run {delay : UInt32 → ℕ} (gone : Gone client p)
    (run : ServerRun delay rsm (fun request _ => ¬ request.Carries client) p p') :
    Gone client p' ∧ SendsTo (· ≠ client) p p' := by
  induction run with
  | refl => exact ⟨gone, .nothing rfl⟩
  | tail _ last ih =>
    obtain ⟨request, other, done⟩ := last
    obtain ⟨there, sends⟩ := ih
    obtain ⟨here, sends'⟩ := there.moves (.of_handle done) (not_or.mpr ⟨there.queued, other⟩)
    exact ⟨here, sends.trans sends'⟩

theorem Noted.moves (noted : p.Noted) (moves : Moves asks p p') : p'.Noted := by
  induction moves with
  | refl => exact noted
  | tail _ last ih => exact ih.move last

theorem Noted.run {delay : UInt32 → ℕ} {ok : Request → TRequestProcessor ρ → Prop} (noted : p.Noted)
    (run : ServerRun delay rsm ok p p') : p'.Noted := by
  induction run with
  | refl => exact noted
  | tail _ last ih =>
    obtain ⟨request, -, done⟩ := last
    exact ih.moves (.of_handle done)

end

end TRequestProcessor

section

open TRequestProcessor

variable {ρ : Type*}

/-- **Clients that have gone are forgotten.** In every run `CleanUp` takes the client out of both tables, and leaves the
others there as they were exactly where no cookie of the client leads to one of them. If none of the queues has a request
of the client, nothing is sent to it in any run after that in which it makes no request, and it stays out of the tables. -/
theorem client_forgotten (delay : UInt32 → ℕ) (rsm : IRsm ρ) (raft : TRaft) (start : TRsm ρ) (p : TRequestProcessor ρ)
    (run : ServerRun delay rsm (fun _ _ => True) (.new raft start) p) (client : ℕ) :
    Unrouted client (p.cleanUp client) ∧ (RoutesOthers client p (p.cleanUp client) ↔ p.Owns client) ∧
      (¬ p.HasQueued client → ∀ p', ServerRun delay rsm (fun request _ => ¬ request.Carries client) (p.cleanUp client) p' →
        Unrouted client p' ∧ SendsTo (· ≠ client) (p.cleanUp client) p') := by
  have noted : p.Noted := Noted.run (p := .new raft start) nofun run
  have unrouted := noted.unrouted client
  refine ⟨unrouted, routesOthers_cleanUp_iff client p, fun queued p' later => ?_⟩
  have gone : Gone client (p.cleanUp client) := ⟨unrouted, by rwa [hasQueued_cleanUp]⟩
  obtain ⟨there, sends⟩ := gone.run later
  exact ⟨there.toUnrouted, sends⟩

/-- A follower without a leader. -/
def lone : TRequestProcessor (List TLogEntry) := .new (TRaft.new (.ofLog 1 0 []) 1 [2]) { impl := [] }

/-- The server hears of its leader, and forwards a write of client 7 and one of client 8. -/
def forwarding : List Request :=
  [.process 0 (.appendEntriesRequest { src := 2, dst := 1, term := 2 } { leaderId := 2 }),
    .onCommandRequest { flags := 1, data := [65] } (some 7), .onCommandRequest { flags := 1, data := [66] } (some 8)]

/-- The responses to both writes. -/
def responses : List Request := [.onCommandResponse { cookie := 1 }, .onCommandResponse { cookie := 2 }]

/-- Client 7 goes before the responses come, and only client 8 gets one. -/
theorem client_forgotten_forwarded : ∃ p p',
    ServerRun (fun _ => 5000) (TDummyRsm.rsm []) (fun _ _ => True) lone p ∧ p.cookie2Client 1 = some 7 ∧
    ServerRun (fun _ => 5000) (TDummyRsm.rsm []) (fun request _ => ¬ request.Carries 7) (p.cleanUp 7) p' ∧
    p'.events = p.events ++ [.respond 8 { cookie := 2 }] ∧ RoutesOthers 7 p (p.cleanUp 7) ∧ Unrouted 7 p' ∧
    SendsTo (· ≠ 7) (p.cleanUp 7) p' := by
  obtain ⟨p, made, one, held, queued, rest⟩ := TRequestProcessor.exists_of_handleAll (fun _ => 5000) (TDummyRsm.rsm [])
    forwarding lone (fun p => p.cookie2Client 1 = some 7 ∧ p.client2Cookie 7 = some {1} ∧
      p.waiting ++ p.strongWaiting ++ p.waitingStateChange = [] ∧
      ((p.cleanUp 7).handleAll (fun _ => 5000) (TDummyRsm.rsm []) responses).toOption.any fun p' =>
        p'.events = p.events ++ [.respond 8 { cookie := 2 }]) (by decide +kernel)
  obtain ⟨p', made', sent⟩ := TRequestProcessor.exists_of_handleAll (fun _ => 5000) (TDummyRsm.rsm []) responses (p.cleanUp 7)
    (fun p' => p'.events = p.events ++ [.respond 8 { cookie := 2 }]) rest
  have run : ServerRun (fun _ => 5000) (TDummyRsm.rsm []) (fun _ _ => True) lone p := .of_handleAll (fun _ _ _ => trivial) made
  have run' : ServerRun (fun _ => 5000) (TDummyRsm.rsm []) (fun request _ => ¬ request.Carries 7) (p.cleanUp 7) p' :=
    .of_handleAll (by simp [responses, Request.Carries]) made'
  have owns : p.Owns 7 := by
    intro cookies here cookie member other differs found
    obtain rfl := Option.some.inj (held.symm.trans here)
    rw [Finset.mem_singleton.mp member, one] at found
    exact differs (Option.some.inj found).symm
  have none_ : ¬ p.HasQueued 7 := by
    rintro ⟨w, member, -⟩
    rw [queued] at member
    cases member
  obtain ⟨-, routes, silent⟩ := client_forgotten (fun _ => 5000) (TDummyRsm.rsm []) _ _ p run 7
  obtain ⟨unrouted, sends⟩ := silent none_ p' run'
  exact ⟨p, p', run, one, run', sent, routes.mpr owns, unrouted, sends⟩

/-- Client 7 has asked for a stale read. -/
def asked : TRequestProcessor (List TLogEntry) := lone.enqueue { index := 0, command := { flags := 2 }, replyTo := some 7 }

example : ServerRun (fun _ => 5000) (TDummyRsm.rsm []) (fun _ _ => True) lone asked :=
  .single ⟨.onCommandRequest { flags := 2 } (some 7), trivial, rfl⟩

/-- The read of a client that has gone is answered. -/
theorem client_forgotten_answered : ∃ p, ServerRun (fun _ => 5000) (TDummyRsm.rsm []) (fun request _ => ¬ request.Carries 7)
    (asked.cleanUp 7) p ∧ ¬ SendsTo (· ≠ 7) (asked.cleanUp 7) p := by
  refine ⟨_, .single ⟨.processWaiting, nofun, rfl⟩, ?_⟩
  rintro ⟨es, events, fine⟩
  have sent : es = _ := (List.append_cancel_left events).symm
  subst sent
  exact fine _ (List.mem_singleton_self _) 7 rfl rfl

end

end MiniRaft
