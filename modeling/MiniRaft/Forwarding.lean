import MiniRaft.Server

/-!
# Forwarded commands

A follower sends a command on to the leader under a cookie, and finds the client by it when the response comes. The
commands that are outstanding are kept as a ghost beside the processor: the cookie that was put on the command, and
the client that issued it.
-/

namespace MiniRaft

/-- A call that concerns forwarded commands; any other leaves their bookkeeping alone. -/
inductive ForwardCall where
  | forward (command : TCommandRequest) (replyTo : Option ℕ)
  | response (response : TCommandResponse)
  | cleanUp (client : ℕ)
  | other

structure Forwarding (ρ : Type*) where
  processor : TRequestProcessor ρ
  outstanding : List (ℕ × ℕ) := []

/-- The commands that went to a leader, by cookie and client. -/
def issued (replyTo : Option ℕ) (events : List TEvent) : List (ℕ × ℕ) :=
  events.filterMap fun
    | .forward _ command => replyTo.map (command.cookie, ·)
    | _ => none

/-- The command is one that `Forward` sends to the leader. -/
def TRequestProcessor.Sends {ρ : Type*} (command : TCommandRequest) (p : TRequestProcessor ρ) : Prop :=
  command.cookie = 0 ∧ p.raft.stateName = .follower ∧ p.raft.getLeaderId ≠ 0

/-- `Cookie2Client` and `Client2Cookie` are inverse to each other, and no client has an empty set of cookies. -/
structure TRequestProcessor.Inverse {ρ : Type*} (p : TRequestProcessor ρ) : Prop where
  inverse : ∀ cookie client, p.cookie2Client cookie = some client ↔
    ∃ cookies, p.client2Cookie client = some cookies ∧ cookie ∈ cookies
  nonempty : ∀ client, p.client2Cookie client ≠ some ∅

namespace Forwarding

variable {ρ : Type*}

/-- A command is outstanding from when it is forwarded until its response comes or its client is cleaned up. -/
inductive Step : Forwarding ρ → ForwardCall → Forwarding ρ → Prop where
  | forward {f : Forwarding ρ} {command : TCommandRequest} {replyTo : Option ℕ} {p' : TRequestProcessor ρ}
      (done : f.processor.forward command replyTo = .ok p') : Step f (.forward command replyTo)
        { processor := p'
          outstanding := f.outstanding ++ issued replyTo (p'.events.drop f.processor.events.length) }
  | response {f : Forwarding ρ} {response : TCommandResponse} {p' : TRequestProcessor ρ}
      (done : f.processor.onCommandResponse response = .ok p') : Step f (.response response)
        { processor := p'
          outstanding := f.outstanding.filter (·.1 ≠ response.cookie) }
  | cleanUp {f : Forwarding ρ} (client : ℕ) : Step f (.cleanUp client)
      { processor := f.processor.cleanUp client
        outstanding := f.outstanding.filter (·.2 ≠ client) }
  | other {f : Forwarding ρ} {p' : TRequestProcessor ρ} (cookie : p'.forwardCookie = f.processor.forwardCookie)
      (clients : p'.cookie2Client = f.processor.cookie2Client)
      (cookies : p'.client2Cookie = f.processor.client2Cookie) : Step f .other { f with processor := p' }

/-- A run whose calls satisfy `ok`, which sees the state before and after. -/
def Run (ok : Forwarding ρ → ForwardCall → Forwarding ρ → Prop) : Forwarding ρ → Forwarding ρ → Prop :=
  Relation.ReflTransGen fun f f' => ∃ call, ok f call f' ∧ Step f call f'

/-- A command that is sent to the leader finds a cookie that is neither 0 nor in use. -/
def Fresh (f : Forwarding ρ) : ForwardCall → Prop
  | .forward command (some _) => f.processor.Sends command →
      f.processor.forwardCookie ≠ 0 ∧ f.processor.cookie2Client f.processor.forwardCookie = none
  | _ => True

/-- **The law of forwarded commands.** No two outstanding commands carry the same cookie; a response to one of them is
sent to its client, and any other response is dropped; the two tables are inverse to each other. -/
structure Lawful (f : Forwarding ρ) : Prop where
  distinct : (f.outstanding.map (·.1)).Nodup
  answered : ∀ (response : TCommandResponse) (client : ℕ), (response.cookie, client) ∈ f.outstanding →
    ∃ p', f.processor.onCommandResponse response = .ok p' ∧
      p'.events = f.processor.events ++ [.respond client response]
  dropped : ∀ response : TCommandResponse, (∀ client, (response.cookie, client) ∉ f.outstanding) →
    f.processor.onCommandResponse response = .ok f.processor
  tables : f.processor.Inverse

/-- The same by the tables: `Cookie2Client` is the list of what is outstanding. -/
structure Exact (f : Forwarding ρ) : Prop where
  distinct : (f.outstanding.map (·.1)).Nodup
  key : ∀ cookie client, f.processor.cookie2Client cookie = some client ↔ (cookie, client) ∈ f.outstanding
  tables : f.processor.Inverse

variable {f f' : Forwarding ρ} {call : ForwardCall} {response : TCommandResponse} {client : ℕ}

/-- The response finds its client. -/
theorem respond (response : TCommandResponse) (tables : f.processor.Inverse)
    (found : f.processor.cookie2Client response.cookie = some client) :
    ∃ p', f.processor.onCommandResponse response = .ok p' ∧
      p'.events = f.processor.events ++ [.respond client response] := by
  obtain ⟨cookies, here, -⟩ := (tables.inverse ..).mp found
  unfold TRequestProcessor.onCommandResponse
  rw [found]
  dsimp only
  rw [here]
  exact ⟨_, rfl, rfl⟩

theorem drop_response (response : TCommandResponse) (unknown : f.processor.cookie2Client response.cookie = none) :
    f.processor.onCommandResponse response = .ok f.processor := by
  unfold TRequestProcessor.onCommandResponse
  rw [unknown]

theorem Exact.lawful (exact_ : f.Exact) : f.Lawful where
  distinct := exact_.distinct
  answered response client member := respond response exact_.tables ((exact_.key ..).mpr member)
  dropped response none_ := by
    apply drop_response
    rw [Option.eq_none_iff_forall_not_mem]
    exact fun client found => none_ client ((exact_.key ..).mp found)
  tables := exact_.tables

/-- What a response does tells what the table has. -/
theorem Lawful.exact (lawful : f.Lawful) : f.Exact where
  distinct := lawful.distinct
  key cookie client := by
    let response : TCommandResponse := { cookie }
    constructor
    · intro found
      obtain ⟨p', done, sent⟩ := respond response lawful.tables found
      by_contra missing
      by_cases other : ∃ client', (cookie, client') ∈ f.outstanding
      · obtain ⟨client', member⟩ := other
        obtain ⟨p'', done', sent'⟩ := lawful.answered response client' member
        obtain rfl : p' = p'' := by rw [done] at done'; exact Except.ok.inj done'
        rw [sent] at sent'
        obtain rfl : client = client' := by simpa using sent'
        exact missing member
      · have dropped := lawful.dropped response fun client' member => other ⟨client', member⟩
        obtain rfl : p' = f.processor := by rw [done] at dropped; exact Except.ok.inj dropped
        simp at sent
    · intro member
      obtain ⟨p', done, sent⟩ := lawful.answered response client member
      cases found : f.processor.cookie2Client cookie with
      | none =>
        have dropped := drop_response response found
        obtain rfl : p' = f.processor := by rw [done] at dropped; exact Except.ok.inj dropped
        simp at sent
      | some client' =>
        obtain ⟨p'', done', sent'⟩ := respond response lawful.tables found
        obtain rfl : p' = p'' := by rw [done] at done'; exact Except.ok.inj done'
        rw [sent] at sent'
        simpa using sent'.symm
  tables := lawful.tables

/-! ## The calls -/

/-- **What `Forward` does.** It sends the command to the leader and notes the client, or it leaves the tables alone. -/
theorem forward_cases {p p' : TRequestProcessor ρ} {command : TCommandRequest} {replyTo : Option ℕ}
    (done : p.forward command replyTo = .ok p') :
    (∃ client leader, replyTo = some client ∧ p.Sends command ∧
      p'.events = p.events ++ [.forward leader { command with cookie := max 1 p.forwardCookie }] ∧
      p'.forwardCookie = (p.forwardCookie + 1) % 2 ^ 32 ∧
      p'.cookie2Client = Function.update p.cookie2Client p.forwardCookie (some client) ∧
      p'.client2Cookie = Function.update p.client2Cookie client
        (some (insert p.forwardCookie ((p.client2Cookie client).getD ∅)))) ∨
    ((∀ client, replyTo = some client → ¬ p.Sends command) ∧ issued replyTo (p'.events.drop p.events.length) = [] ∧
      p'.forwardCookie = p.forwardCookie ∧ p'.cookie2Client = p.cookie2Client ∧ p'.client2Cookie = p.client2Cookie) := by
  unfold TRequestProcessor.forward at done
  cases replyTo with
  | none =>
    cases done
    exact .inr ⟨nofun, by simp [issued], rfl, rfl, rfl⟩
  | some client =>
    dsimp only at done
    split at done
    · rename_i forwarded
      cases done
      exact .inr ⟨fun _ _ sends => forwarded sends.1, by simp [issued, TRequestProcessor.record], rfl, rfl, rfl⟩
    · rename_i own
      split at done
      · rename_i waits
        cases done
        refine .inr ⟨fun _ _ sends => ?_, by simp [issued], rfl, rfl, rfl⟩
        rcases waits with candidate | unknown
        · rw [sends.2.1] at candidate
          cases candidate
        · exact sends.2.2 unknown
      · rename_i known
        rw [not_or] at known
        split at done
        · rename_i follows
          split at done
          · cases done
          · split at done
            · cases done
            · cases done
              exact .inl ⟨client, _, rfl, ⟨not_not.mp own, follows, known.2⟩, rfl, rfl, rfl, rfl⟩
        · cases done

/-- A cookie that is not in use is noted for a client. -/
theorem inverse_insert {p p' : TRequestProcessor ρ} (tables : p.Inverse) {k : ℕ} (free : p.cookie2Client k = none)
    (clients : p'.cookie2Client = Function.update p.cookie2Client k (some client))
    (cookies : p'.client2Cookie = Function.update p.client2Cookie client
      (some (insert k ((p.client2Cookie client).getD ∅)))) : p'.Inverse := by
  have held : ∀ cookie, cookie ∈ (p.client2Cookie client).getD ∅ ↔ p.cookie2Client cookie = some client := by
    intro cookie
    rw [tables.inverse]
    cases p.client2Cookie client <;> simp
  refine ⟨fun cookie x => ?_, fun x => ?_⟩
  · rw [clients, cookies]
    by_cases own : x = client
    · subst own
      simp only [Function.update_self, Option.some.injEq, exists_eq_left', Finset.mem_insert, held]
      by_cases new : cookie = k
      · simp [new]
      · simp [new]
    · rw [Function.update_of_ne own, ← tables.inverse]
      by_cases new : cookie = k
      · subst new
        simp [free, Ne.symm own]
      · rw [Function.update_of_ne new]
  · rw [cookies]
    by_cases own : x = client
    · subst own
      simp
    · rw [Function.update_of_ne own]
      exact tables.nonempty x

/-- A call that leaves the two tables alone. -/
theorem Exact.of_same {p' : TRequestProcessor ρ} (exact_ : f.Exact)
    (clients : p'.cookie2Client = f.processor.cookie2Client) (cookies : p'.client2Cookie = f.processor.client2Cookie) :
    Exact { f with processor := p' } := by
  refine ⟨exact_.distinct, fun cookie x => ?_, fun cookie x => ?_, fun x => ?_⟩
  · show p'.cookie2Client cookie = some x ↔ _
    rw [clients]
    exact exact_.key cookie x
  · show p'.cookie2Client cookie = some x ↔ ∃ cookies, p'.client2Cookie x = some cookies ∧ cookie ∈ cookies
    rw [clients, cookies]
    exact exact_.tables.inverse cookie x
  · show p'.client2Cookie x ≠ some ∅
    rw [cookies]
    exact exact_.tables.nonempty x

theorem Exact.of_forward {command : TCommandRequest} {replyTo : Option ℕ} (exact_ : f.Exact)
    (fresh : f.Fresh (.forward command replyTo)) (step : Step f (.forward command replyTo) f') : f'.Exact := by
  cases step with
  | @forward _ _ p' done =>
    rcases forward_cases done with ⟨client, leader, rfl, sends, events, -, clients, cookies⟩ | ⟨-, none_, -, clients, cookies⟩
    · obtain ⟨pos, free⟩ := fresh sends
      have wire : max 1 f.processor.forwardCookie = f.processor.forwardCookie := by omega
      have new : issued (some client) (p'.events.drop f.processor.events.length) =
          [(f.processor.forwardCookie, client)] := by
        rw [events, List.drop_left, wire]
        rfl
      rw [new]
      have unused : ∀ x, (f.processor.forwardCookie, x) ∉ f.outstanding := by
        intro x member
        rw [← exact_.key, free] at member
        cases member
      refine ⟨?_, fun cookie x => ?_, inverse_insert exact_.tables free clients cookies⟩
      · rw [List.map_append, List.nodup_append]
        refine ⟨exact_.distinct, List.nodup_singleton _, ?_⟩
        rintro _ old _ new rfl
        obtain ⟨⟨k, x⟩, member, rfl⟩ := List.mem_map.mp old
        obtain rfl : k = f.processor.forwardCookie := by simpa using new
        exact unused x member
      · change p'.cookie2Client cookie = some x ↔ _
        rw [clients, List.mem_append, ← exact_.key, List.mem_singleton, Prod.mk.injEq]
        by_cases own : cookie = f.processor.forwardCookie
        · subst own
          simp [free, eq_comm]
        · rw [Function.update_of_ne own]
          simp [own]
    · rw [none_, List.append_nil]
      exact exact_.of_same clients cookies

/-- A cookie is forgotten, and with its last cookie the client. -/
theorem inverse_erase {p p' : TRequestProcessor ρ} (tables : p.Inverse) {k : ℕ} {held : Finset ℕ}
    (here : p.client2Cookie client = some held) (own : k ∈ held)
    (clients : p'.cookie2Client = Function.update p.cookie2Client k none)
    (cookies : p'.client2Cookie = Function.update p.client2Cookie client
      (if held.erase k = ∅ then none else some (held.erase k))) : p'.Inverse := by
  have found := (tables.inverse k client).mpr ⟨held, here, own⟩
  refine ⟨fun cookie x => ?_, fun x => ?_⟩
  · rw [clients, cookies]
    by_cases same : x = client
    · subst same
      rw [Function.update_self]
      by_cases gone : cookie = k
      · subst gone
        rw [Function.update_self]
        split <;> simp
      · rw [Function.update_of_ne gone, tables.inverse, here]
        split
        · rename_i last
          have none_ := Finset.eq_empty_iff_forall_notMem.mp last cookie
          rw [Finset.mem_erase] at none_
          simpa using fun member => none_ ⟨gone, member⟩
        · simp [gone]
    · rw [Function.update_of_ne same, ← tables.inverse]
      by_cases gone : cookie = k
      · subst gone
        simp [found, Ne.symm same]
      · rw [Function.update_of_ne gone]
  · rw [cookies]
    by_cases same : x = client
    · subst same
      rw [Function.update_self]
      split
      · nofun
      · rename_i more
        simpa using more
    · rw [Function.update_of_ne same]
      exact tables.nonempty x

theorem Exact.of_response (exact_ : f.Exact) (step : Step f (.response response) f') : f'.Exact := by
  cases step with
  | @response _ p' done =>
    have distinct : ((f.outstanding.filter (·.1 ≠ response.cookie)).map (·.1)).Nodup :=
      exact_.distinct.sublist (List.filter_sublist.map _)
    cases found : f.processor.cookie2Client response.cookie with
    | none =>
      obtain rfl : f.processor = p' := by rw [drop_response response found] at done; exact Except.ok.inj done
      refine ⟨distinct, fun cookie x => ?_, exact_.tables⟩
      rw [List.mem_filter, ← exact_.key]
      refine (and_iff_left_of_imp fun known => ?_).symm
      rw [decide_eq_true_iff]
      rintro rfl
      rw [found] at known
      cases known
    | some client =>
      obtain ⟨held, here, own⟩ := (exact_.tables.inverse ..).mp found
      unfold TRequestProcessor.onCommandResponse at done
      rw [found] at done
      dsimp only at done
      rw [here] at done
      cases done
      refine ⟨distinct, fun cookie x => ?_, inverse_erase exact_.tables here own rfl rfl⟩
      rw [List.mem_filter, ← exact_.key, decide_eq_true_iff]
      change Function.update f.processor.cookie2Client response.cookie none cookie = some x ↔ _
      by_cases gone : cookie = response.cookie
      · subst gone
        simp
      · rw [Function.update_of_ne gone]
        exact (and_iff_left gone).symm

/-- All cookies of a client are forgotten. -/
theorem Exact.of_cleanUp (exact_ : f.Exact) (step : Step f (.cleanUp client) f') : f'.Exact := by
  cases step
  have distinct : ((f.outstanding.filter (·.2 ≠ client)).map (·.1)).Nodup :=
    exact_.distinct.sublist (List.filter_sublist.map _)
  have tables := exact_.tables
  have kept : ∀ cookie x, (cookie, x) ∈ f.outstanding.filter (·.2 ≠ client) ↔
      f.processor.cookie2Client cookie = some x ∧ x ≠ client := by
    intro cookie x
    rw [List.mem_filter, ← exact_.key, decide_eq_true_iff]
  unfold TRequestProcessor.cleanUp
  cases here : f.processor.client2Cookie client with
  | none =>
    refine ⟨distinct, fun cookie x => ?_, tables⟩
    rw [kept]
    refine (and_iff_left_of_imp fun known same => ?_).symm
    obtain ⟨held, some_, -⟩ := (tables.inverse ..).mp known
    rw [same, here] at some_
    cases some_
  | some held =>
    have own : ∀ cookie, cookie ∈ held ↔ f.processor.cookie2Client cookie = some client := by
      intro cookie
      rw [tables.inverse, here]
      simp
    have left : ∀ cookie x, (if cookie ∈ held then none else f.processor.cookie2Client cookie) = some x ↔
        f.processor.cookie2Client cookie = some x ∧ x ≠ client := by
      intro cookie x
      split
      · rename_i his
        rw [(own cookie).mp his]
        simp [eq_comm]
      · rename_i other
        refine (and_iff_left_of_imp fun known same => ?_).symm
        exact other ((own cookie).mpr (same ▸ known))
    refine ⟨distinct, fun cookie x => (left cookie x).trans (kept cookie x).symm, fun cookie x => ?_, fun x => ?_⟩
    · apply (left cookie x).trans
      by_cases same : x = client
      · simp [same]
      · simp [same, tables.inverse]
    · change Function.update f.processor.client2Cookie client none x ≠ some ∅
      by_cases same : x = client
      · simp [same]
      · rw [Function.update_of_ne same]
        exact tables.nonempty x

theorem Exact.of_other (exact_ : f.Exact) (step : Step f .other f') : f'.Exact := by
  cases step with
  | other cookie clients cookies =>
    exact exact_.of_same clients cookies

/-- **One call.** -/
theorem Exact.step (exact_ : f.Exact) (fresh : f.Fresh call) (step : Step f call f') : f'.Exact := by
  cases call with
  | forward command replyTo => exact exact_.of_forward fresh step
  | response response => exact exact_.of_response step
  | cleanUp client => exact exact_.of_cleanUp step
  | other => exact exact_.of_other step

/-- A command that is sent under the cookie 0, or under one in use, breaks the law. -/
theorem Exact.breach (exact_ : f.Exact) (step : Step f call f') (stale : ¬ f.Fresh call) : ¬ f'.Lawful := by
  intro lawful
  have exact' := lawful.exact
  cases step with
  | @forward command replyTo p' done =>
    rcases forward_cases done with ⟨client, leader, rfl, sends, events, -, clients, -⟩ | ⟨never, -⟩
    · have new : issued (some client) (p'.events.drop f.processor.events.length) =
          [(max 1 f.processor.forwardCookie, client)] := by
        rw [events, List.drop_left]
        rfl
      rw [new] at exact'
      -- the cookie on the command is one that was outstanding before
      have used : ∃ x, (max 1 f.processor.forwardCookie, x) ∈ f.outstanding := by
        rcases Nat.eq_zero_or_pos f.processor.forwardCookie with zero | pos
        · have found := (exact'.key 1 client).mpr (by simp [zero])
          rw [clients, zero, Function.update_of_ne one_ne_zero] at found
          exact ⟨client, by rw [zero]; exact (exact_.key 1 client).mp found⟩
        · cases taken : f.processor.cookie2Client f.processor.forwardCookie with
          | none => exact absurd (fun _ => ⟨by omega, taken⟩) stale
          | some x => exact ⟨x, by rw [Nat.max_eq_right pos]; exact (exact_.key ..).mp taken⟩
      obtain ⟨x, member⟩ := used
      have distinct := exact'.distinct
      rw [List.map_append, List.nodup_append] at distinct
      exact distinct.2.2 _ (List.mem_map_of_mem member) _ (List.mem_singleton_self _) rfl
    · apply stale
      cases replyTo with
      | none => trivial
      | some client => exact fun sends => absurd sends (never client rfl)
  | response | cleanUp | other => exact stale trivial

/-- Nothing is outstanding. -/
theorem exact_of_empty {p : TRequestProcessor ρ} (clients : p.cookie2Client = fun _ => none)
    (cookies : p.client2Cookie = fun _ => none) : Exact { processor := p } where
  distinct := List.nodup_nil
  key := by simp [clients]
  tables := ⟨by simp [clients, cookies], by simp [cookies]⟩

theorem Exact.run (exact_ : f.Exact) (run : Run (fun f call _ => f.Fresh call) f f') : f'.Exact := by
  induction run with
  | refl => exact exact_
  | tail _ last ih =>
    obtain ⟨call, fresh, step⟩ := last
    exact ih.step fresh step

end Forwarding

/-- **Forwarded replies reach their client.** The law holds after every run in which each command that is sent finds a
cookie that is neither 0 nor in use, and a call that does not keep to this breaks it. -/
theorem forwarded_replies {ρ : Type*} (raft : TRaft) (rsm : TRsm ρ) :
    (∀ f, Forwarding.Run (fun f call _ => f.Fresh call) { processor := .new raft rsm } f → f.Lawful) ∧
    ∀ (f f' : Forwarding ρ) (call : ForwardCall), f.Lawful → Forwarding.Step f call f' → (f'.Lawful ↔ f.Fresh call) := by
  refine ⟨fun f run => ((Forwarding.exact_of_empty rfl rfl).run run).lawful, fun f f' call lawful step => ⟨fun after => ?_, ?_⟩⟩
  · by_contra stale
    exact lawful.exact.breach step stale after
  · exact fun fresh => (lawful.exact.step fresh step).lawful

/-- Server 2 follows server 1, and will use the given cookie next. -/
def forwarder (cookie : ℕ) (events : List TEvent) : TRequestProcessor (List TLogEntry) :=
  { TRequestProcessor.new { id := 2, nodes := [1], state := .ofLog 1 0 [], volatileState := { leaderId := 1 } } { impl := [] } with
    forwardCookie := cookie
    events := events }

/-- Client 7 has sent a command. -/
def forwarded (cookie : ℕ) (events : List TEvent) : TRequestProcessor (List TLogEntry) :=
  { forwarder ((cookie + 1) % 2 ^ 32) (events ++ [.forward 1 { cookie := max 1 cookie }]) with
    cookie2Client := Function.update (fun _ => none) cookie (some 7)
    client2Cookie := Function.update (fun _ => none) 7 (some (insert cookie ∅)) }

theorem forwarder_forwards (cookie : ℕ) (events : List TEvent) : Forwarding.Step { processor := forwarder cookie events }
    (.forward {} (some 7)) { processor := forwarded cookie events, outstanding := [(max 1 cookie, 7)] } := by
  have done : (forwarder cookie events).forward {} (some 7) = .ok (forwarded cookie events) := rfl
  have step := Forwarding.Step.forward (f := { processor := forwarder cookie events }) done
  have sent : issued (some 7) ((forwarded cookie events).events.drop events.length) = [(max 1 cookie, 7)] := by
    change issued (some 7) ((events ++ _).drop _) = _
    rw [List.drop_left]
    rfl
  change Forwarding.Step _ _ { processor := _, outstanding := [] ++ issued (some 7) (List.drop events.length _) } at step
  rwa [sent] at step

/-- The response comes. -/
theorem forwarded_answered {cookie : ℕ} (pos : 1 ≤ cookie) (events : List TEvent) : ∃ events',
    Forwarding.Step { processor := forwarded cookie events, outstanding := [(max 1 cookie, 7)] } (.response { cookie })
      { processor := forwarder ((cookie + 1) % 2 ^ 32) events' } := by
  have clients : Function.update (Function.update (fun _ => none) cookie (some 7)) cookie none =
      fun _ : ℕ => (none : Option ℕ) := by
    rw [Function.update_idem, Function.update_eq_self]
  have last : (insert cookie (∅ : Finset ℕ)).erase cookie = ∅ := by simp
  have cookies : Function.update (Function.update (fun _ => none) 7 (some (insert cookie (∅ : Finset ℕ)))) 7 none =
      fun _ : ℕ => none := by
    rw [Function.update_idem, Function.update_eq_self]
  have done : (forwarded cookie events).onCommandResponse { cookie } = .ok (forwarder ((cookie + 1) % 2 ^ 32)
      (events ++ [.forward 1 { cookie := max 1 cookie }] ++ [.respond 7 { cookie }])) := by
    unfold TRequestProcessor.onCommandResponse forwarded TRequestProcessor.record
    simp only [Function.update_self, last, if_true, clients, cookies]
    rfl
  have step := Forwarding.Step.response
    (f := { processor := forwarded cookie events, outstanding := [(max 1 cookie, 7)] }) done
  rw [Nat.max_eq_right pos] at step ⊢
  have gone : [(cookie, 7)].filter (·.1 ≠ cookie) = [] := by simp
  exact ⟨_, gone ▸ step⟩

/-- One command after the other, each answered before the next. -/
theorem forwarder_rounds (n : ℕ) (bound : n < 2 ^ 32) : ∃ events, Forwarding.Run (fun _ _ f' => f'.outstanding.length ≤ 1)
    { processor := forwarder 1 [] } { processor := forwarder ((n + 1) % 2 ^ 32) events } := by
  induction n with
  | zero => exact ⟨[], .refl⟩
  | succ n ih =>
    obtain ⟨events, run⟩ := ih (by omega)
    rw [Nat.mod_eq_of_lt bound] at run
    obtain ⟨events', answered⟩ := forwarded_answered (Nat.le_add_left 1 n) events
    exact ⟨events', (run.tail ⟨_, le_rfl, forwarder_forwards (n + 1) events⟩).tail ⟨_, Nat.zero_le _, answered⟩⟩

/-- After `2 ^ 32 - 1` commands, never more than one of them outstanding, the next goes out under the cookie 1 and is noted
under 0. Its response is dropped. -/
theorem forwarded_replies_wrap : ∃ f : Forwarding (List TLogEntry),
    Forwarding.Run (fun _ _ f' => f'.outstanding.length ≤ 1) { processor := forwarder 1 [] } f ∧
    f.outstanding = [(1, 7)] ∧ f.processor.onCommandResponse { cookie := 1 } = .ok f.processor ∧ ¬ f.Lawful := by
  obtain ⟨events, run⟩ := forwarder_rounds (2 ^ 32 - 1) (by decide)
  have last := forwarder_forwards 0 events
  have dropped : (forwarded 0 events).onCommandResponse { cookie := 1 } = .ok (forwarded 0 events) := rfl
  refine ⟨_, run.tail ⟨_, le_rfl, last⟩, rfl, dropped, ?_⟩
  apply Forwarding.Exact.breach (Forwarding.exact_of_empty rfl rfl) last
  intro fresh
  exact (fresh ⟨rfl, rfl, Nat.one_ne_zero⟩).1 rfl

/-- The first command goes out under the cookie 1. -/
theorem forwarded_replies_first : ∃ f : Forwarding (List TLogEntry), f.outstanding = [(1, 7)] ∧ f.Lawful := by
  refine ⟨{ processor := forwarded 1 [], outstanding := [(1, 7)] }, rfl, ?_⟩
  apply (forwarded_replies (forwarder 1 []).raft { impl := [] }).1
  refine .single ⟨_, ?_, forwarder_forwards 1 []⟩
  exact fun _ => ⟨one_ne_zero, rfl⟩

end MiniRaft
