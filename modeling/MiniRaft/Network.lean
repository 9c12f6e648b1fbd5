import MiniRaft.Codec
import MiniRaft.Pings
import MiniRaft.Progress
import MiniRaft.Standing

/-!
# Servers that exchange bytes (`TRaftServer`)

A server reads messages off the connections that it has accepted and handles each by a round of calls. A peer writes what
its node was given, as often and in what order it likes; a client writes anything but messages of the protocol. Of what was
written any part may have arrived, in any pieces, and a connection may break at any time. A process may die between any two
calls, those of a round included, and is started again on the state that is saved by then. The responses that
`OutboundServe` reads are not followed back to where they were written.
-/

namespace MiniRaft

open Lib
open TMessageHolder (write writeAll)

namespace TInbound

/-- The branches of `InboundConnection`. -/
def request (now : Time) (client : ℕ) : TInbound → Request
  | .commandRequest command => .onCommandRequest command (some client)
  | .commandResponse response => .onCommandResponse response
  | .message body => .process now body

/-- What `InboundConnection` calls between one read and the next, `DrainNodes` apart. -/
def round (now now' : Time) (client : ℕ) (x : TInbound) : List Request :=
  [x.request now client, .processTimeout now', .checkStateChange, .processCommitted, .processWaiting]

end TInbound

/-- A connection that was accepted: the server at the far end, or none for a client, the bytes that were written there,
how many of them are read, and whether the far end may still write. -/
structure TConnection where
  peer : Option ℕ
  written : List UInt8 := []
  position : ℕ := 0
  alive : Bool := true

/-- The servers, and the connections that each has accepted, under the number of their `client` node. -/
structure Network (ρ : Type*) where
  servers : System ρ
  inbound : ℕ → ℕ → Option TConnection := fun _ _ => none
  accepted : ℕ → ℕ := fun _ => 0

namespace Network

variable {ρ : Type*}

def setConnection (d k : ℕ) (c : Option TConnection) (N : Network ρ) : Network ρ :=
  { N with inbound := Function.update N.inbound d (Function.update (N.inbound d) k c) }

def setServer (d : ℕ) (p : TRequestProcessor ρ) (N : Network ρ) : Network ρ :=
  { N with servers := Function.update N.servers d p }

/-- A process ends: what it had accepted is gone, and it writes no more to others. -/
def hangUp (d : ℕ) (N : Network ρ) : Network ρ :=
  { N with inbound := fun e k =>
      if e = d then none
      else (N.inbound e k).map fun c => if c.peer = some d then { c with alive := false } else c }

/-- Server `x` has given this message to its node for `d`: one of the protocol, or a command that it forwards. -/
inductive Gives (P : System ρ) (x d : ℕ) : TInbound → Prop where
  | message {m : TMessage} (sent : .send d m ∈ (P x).raft.effects) : Gives P x d (.message m)
  | command {command : TCommandRequest} (sent : .forward d command ∈ (P x).events) :
      Gives P x d (.commandRequest command)

/-- The next message that is read on a connection, and where it ends: some part of what was written has arrived, in some
pieces. A client asks for nothing of the protocol. -/
inductive Heard (c : TConnection) (message : TInbound) (position : ℕ) : Prop where
  | intro {s : Stream UInt8} (arrived : s.items <+: c.written) {m : TMessageHolder}
      (read : TMessageReader.read s (s.items.length + 1) c.position = .ok (m, position)) (cast : m.inbound? = some message)
      (client : c.peer = none → ∀ body, message = .message body → body = .other)

/-- One step, of a server or at the far end of a connection. The numbers in what a server writes fit their fields, and no
log reaches `lim` entries. -/
inductive Step (delay : UInt32 → ℕ) (lim : ℕ) (ids : Finset ℕ) (rsm : IRsm ρ) (N : Network ρ) : Network ρ → Prop where
  | accept {d : ℕ} (mem : d ∈ ids) (peer : Option ℕ) (known : ∀ x ∈ peer, x ∈ ids) :
      Step delay lim ids rsm N { N.setConnection d (N.accepted d) (some { peer }) with
        accepted := Function.update N.accepted d (N.accepted d + 1) }
  | write {d k x : ℕ} {c : TConnection} (here : N.inbound d k = some c) (peer : c.peer = some x) (alive : c.alive)
      {message : TInbound} (gives : Gives N.servers x d message) (fits : message.Fits) :
      Step delay lim ids rsm N (N.setConnection d k (some { c with written := c.written ++ write message.holder }))
  | clientWrite {d k : ℕ} {c : TConnection} (here : N.inbound d k = some c) (client : c.peer = none) (bytes : List UInt8) :
      Step delay lim ids rsm N (N.setConnection d k (some { c with written := c.written ++ bytes }))
  | receive {d k : ℕ} {c : TConnection} (mem : d ∈ ids) (here : N.inbound d k = some c) {message : TInbound}
      {position : ℕ} (heard : Heard c message position) (now now' : Time)
      {p : TRequestProcessor ρ} (done : (N.servers d).handleAll delay rsm (message.round now now' k) = .ok p)
      (room : p.raft.state.log.length < lim) :
      Step delay lim ids rsm N ((N.setServer d p).setConnection d k (some { c with position }))
  | close {d k : ℕ} {c : TConnection} (mem : d ∈ ids) (here : N.inbound d k = some c) :
      Step delay lim ids rsm N ((N.setServer d ((N.servers d).cleanUp k)).setConnection d k none)
  | idle {d : ℕ} (mem : d ∈ ids) (now : Time) {p : TRequestProcessor ρ}
      (done : (N.servers d).handle delay rsm (.processTimeout now) = .ok p) (room : p.raft.state.log.length < lim) :
      Step delay lim ids rsm N (N.setServer d p)
  | reply {d : ℕ} (mem : d ∈ ids) (response : TCommandResponse) {p : TRequestProcessor ρ}
      (done : (N.servers d).onCommandResponse response = .ok p) : Step delay lim ids rsm N (N.setServer d p)
  | restart {d : ℕ} (mem : d ∈ ids) (restored : TRsm ρ) :
      Step delay lim ids rsm N ((N.setServer d ((N.servers d).restart restored)).hangUp d)
  | die {d k : ℕ} {c : TConnection} (mem : d ∈ ids) (here : N.inbound d k = some c) {message : TInbound}
      {position : ℕ} (heard : Heard c message position) (now now' : Time)
      {calls : List Request} (first : calls <+: message.round now now' k)
      {p : TRequestProcessor ρ} (done : (N.servers d).handleAll delay rsm calls = .ok p)
      (room : p.raft.state.log.length < lim) (restored : TRsm ρ) :
      Step delay lim ids rsm N ((N.setServer d (p.restart restored)).hangUp d)

def Start (ids : Finset ℕ) (N : Network ρ) : Prop := System.Start ids N.servers ∧ ∀ d k, N.inbound d k = none

def Later (delay : UInt32 → ℕ) (lim : ℕ) (ids : Finset ℕ) (rsm : IRsm ρ) : Network ρ → Network ρ → Prop :=
  Relation.ReflTransGen (Step delay lim ids rsm)

def Reachable (delay : UInt32 → ℕ) (lim : ℕ) (ids : Finset ℕ) (rsm : IRsm ρ) (N : Network ρ) : Prop :=
  ∃ start, Start ids start ∧ Later delay lim ids rsm start N

/-- What was written on a connection to `d`: messages that the peer has given its node, of which the first are read. -/
def Faithful (ids : Finset ℕ) (P : System ρ) (d : ℕ) (c : TConnection) : Prop :=
  ∀ x ∈ c.peer, x ∈ ids ∧ ∃ read unread : List TInbound, c.written = writeAll ((read ++ unread).map TInbound.holder) ∧
    c.position = (writeAll (read.map TInbound.holder)).length ∧ ∀ m ∈ read ++ unread, m.Fits ∧ Gives P x d m

end Network

variable {ρ : Type*} {rsm : IRsm ρ} {p p' : TRequestProcessor ρ} {P P' : System ρ} {N N' : Network ρ}
  {delay : UInt32 → ℕ} {lim : ℕ} {ids : Finset ℕ} {d k x : ℕ} {c : TConnection}

/-! ## Rounds are steps of the system -/

theorem TRaft.Asked.path_log {r r' : TRaft} (path : Relation.ReflTransGen TRaft.Asked r r') :
    r.state.log <+: r'.state.log := by
  induction path with
  | refl => exact List.prefix_rfl
  | tail _ asked ih => exact ih.trans asked.log

/-- Only `Process` shortens a log. -/
theorem Handled.length_le {request : Request} (handled : Handled delay rsm p request p')
    (other : ∀ now m, request ≠ .process now m) : p.raft.state.log.length ≤ p'.raft.state.log.length := by
  rcases handled.raft with ⟨call, is_call, rfl⟩ | path
  · cases request with
    | process now m => exact absurd rfl (other now m)
    | processTimeout now =>
      cases is_call
      exact (p.raft.log_processTimeout now).length_le
    | append entry =>
      cases is_call
      exact (List.prefix_append ..).length_le
    | _ => cases is_call
  · exact (TRaft.Asked.path_log path).length_le

theorem TRequestProcessor.length_handleAll {requests : List Request} (others : ∀ r ∈ requests, ∀ now m, r ≠ .process now m)
    (done : p.handleAll delay rsm requests = .ok p') : p.raft.state.log.length ≤ p'.raft.state.log.length := by
  induction requests generalizing p with
  | nil =>
    cases done
    exact le_rfl
  | cons request requests ih =>
    obtain ⟨p₁, first, rest⟩ := handleAll_cons done
    rw [List.forall_mem_cons] at others
    exact ((Handled.of_handle first).length_le others.1).trans (ih others.2 rest)

/-- Calls that any server may get at any time. -/
def Request.Free : Request → Prop
  | .process .. | .append _ => False
  | _ => True

/-- **Calls one after the other are a run of the system**, where there is room at their end. -/
theorem System.later_of_handleAll {requests : List Request} (mem : d ∈ ids) (free : ∀ r ∈ requests, r.Free)
    (done : p.handleAll delay rsm requests = .ok p') (room : p'.raft.state.log.length < lim) :
    System.Later delay lim ids rsm (Function.update P d p) (Function.update P d p') := by
  induction requests generalizing p with
  | nil =>
    cases done
    exact .refl
  | cons request requests ih =>
    obtain ⟨p₁, first, rest⟩ := TRequestProcessor.handleAll_cons done
    rw [List.forall_mem_cons] at free
    have enabled : System.Enabled ids (Function.update P d p) d request := by
      cases request with
      | process => exact absurd free.1 id
      | append => exact absurd free.1 id
      | _ => trivial
    have fits : p₁.raft.state.log.length < lim := by
      refine (TRequestProcessor.length_handleAll (fun r here now m same => ?_) rest).trans_lt room
      exact (same ▸ free.2 r here : Request.Free (.process now m))
    have step : System.Step delay lim ids rsm (Function.update P d p) (.call d request)
        (Function.update (Function.update P d p) d p₁) :=
      .call mem request enabled (by rwa [Function.update_self]) fits
    rw [Function.update_idem] at step
    exact .head ⟨_, trivial, step⟩ (ih free.2 rest)

/-- A message that `Process` makes nothing of. -/
theorem TRaft.process_other {r : TRaft} (known : r.stateName ≠ .none) (now : Time) : r.process delay now .other = r := by
  show r.dispatch delay now .other = r
  unfold TRaft.dispatch
  cases name : r.stateName with
  | none => exact absurd name known
  | candidate => rfl
  | follower => rfl
  | leader => rfl

/-- **A round is a run of the system**, and so are the first calls of one, if its message is one that was sent, or nothing of
the protocol. -/
theorem System.later_of_round {message : TInbound} (mem : d ∈ ids) (known : (P d).raft.stateName ≠ .none)
    (sent : ∀ m, message = .message m → m = .other ∨ Cluster.Sent ids P.rafts d m) {now now' : Time} {calls : List Request}
    (begins : calls <+: message.round now now' k) (done : (P d).handleAll delay rsm calls = .ok p')
    (room : p'.raft.state.log.length < lim) : System.Later delay lim ids rsm P (Function.update P d p') := by
  cases calls with
  | nil =>
    cases done
    rw [Function.update_eq_self]
    exact .refl
  | cons call calls =>
    obtain ⟨rfl, others⟩ := List.cons_prefix_cons.mp begins
    obtain ⟨p₁, first, rest⟩ := TRequestProcessor.handleAll_cons done
    have free : ∀ r ∈ calls, r.Free := by
      have all : ∀ r ∈ [Request.processTimeout now', .checkStateChange, .processCommitted, .processWaiting], r.Free := by
        simp [Request.Free]
      exact fun r here => all r (others.subset here)
    have later : System.Later delay lim ids rsm (Function.update P d p₁) (Function.update P d p') :=
      System.later_of_handleAll mem free rest room
    by_cases ignored : message = .message .other
    · subst ignored
      have same : p₁ = P d := by
        cases first
        exact congrArg (fun r => { P d with raft := r }) (TRaft.process_other known now)
      rwa [same, Function.update_eq_self] at later
    · have enabled : System.Enabled ids P d (message.request now k) := by
        cases message with
        | message m =>
          rcases sent m rfl with rfl | sent
          · exact absurd rfl ignored
          · exact sent
        | _ => trivial
      have fits : p₁.raft.state.log.length < lim := by
        refine (TRequestProcessor.length_handleAll (fun r here now m same => ?_) rest).trans_lt room
        exact (same ▸ free r here : Request.Free (.process now m))
      exact .head ⟨_, trivial, .call mem _ enabled first fits⟩ later

/-! ## What is read -/

theorem not_cut (bytes : List UInt8) (ws : List ℕ) : ¬ Cut ⟨bytes, ∅⟩ ws := by
  rintro ⟨o, -, i, cut, -⟩
  exact absurd cut (Finset.notMem_empty i)

/-- Bytes begin with one message at most. -/
theorem TMessageHolder.Framed.unique {m m' : TMessageHolder} (framed : m.Framed) (framed' : m'.Framed) {rest rest' : List UInt8}
    (same : write m ++ rest = write m' ++ rest') : m = m' := by
  let s : Stream UInt8 := ⟨write m ++ rest, ∅⟩
  have deep : (write m).length ≤ s.items.length := by simp [s]
  have deep' : (write m').length ≤ s.items.length := by simp [s, same]
  have first := read_framed (s := s) framed (List.drop_zero) deep
  have second := read_framed (s := s) (p := 0) framed' ((List.drop_zero).trans same) deep'
  rw [if_neg (not_cut _ _)] at first second
  exact (Prod.mk.inj (Except.ok.inj (first.symm.trans second))).1

/-- **The next message on a connection is the next one that was written**, whatever has arrived, and in what pieces. -/
theorem read_next {s : Stream UInt8} {read unread : List TInbound} {m : TMessageHolder} {q depth : ℕ}
    (arrived : s.items <+: writeAll ((read ++ unread).map TInbound.holder)) (fits : ∀ x ∈ read ++ unread, x.Fits)
    (done : TMessageReader.read s depth (writeAll (read.map TInbound.holder)).length = .ok (m, q)) :
    ∃ x rest, unread = x :: rest ∧ m = x.holder ∧ q = (writeAll ((read ++ [x]).map TInbound.holder)).length := by
  have outcome := read_outcome s depth (writeAll (read.map TInbound.holder)).length
  rw [done] at outcome
  cases outcome with
  | @message m tail framed here whole =>
    have behind := arrived.drop (writeAll (read.map TInbound.holder)).length
    rw [here, List.map_append, writeAll_append, List.drop_left] at behind
    obtain ⟨beyond, all⟩ := behind
    rw [List.append_assoc] at all
    cases unread with
    | nil => exact absurd (List.append_eq_nil_iff.mp all).1 (write_ne_nil m)
    | cons x rest =>
      rw [List.map_cons, TMessageHolder.writeAll] at all
      have own : x.Fits := fits x (List.mem_append_right _ (List.mem_cons_self ..))
      obtain rfl := framed.unique (TInbound.wellFormed_holder own).framed all
      refine ⟨x, rest, rfl, rfl, ?_⟩
      rw [List.map_append, writeAll_append, List.length_append, List.map_singleton, TMessageHolder.writeAll,
        TMessageHolder.writeAll, List.append_nil]

/-! ## What was given stays given -/

theorem Handled.events {request : Request} (handled : Handled delay rsm p request p') : p.events <+: p'.events := by
  rcases handled.quiet with ⟨-, rfl⟩ | quiet
  · obtain ⟨es, events, -⟩ := (processCommitted_applies rsm p).1.events
    exact ⟨es, events.symm⟩
  · obtain ⟨es, events, -⟩ := quiet.events
    exact ⟨es, events.symm⟩

theorem Cluster.Later.grows {c c' : Cluster} (later : Cluster.Later delay lim ids c c') (x : ℕ) :
    (c x).effects <+: (c' x).effects := by
  induction later with
  | refl => exact List.prefix_rfl
  | tail _ step ih => exact ih.trans (step.grows x)

/-- The history of every server only grows. -/
structure System.Grows (P P' : System ρ) : Prop where
  effects : ∀ x, (P x).raft.effects <+: (P' x).raft.effects
  events : ∀ x, (P x).events <+: (P' x).events

theorem System.Grows.refl (P : System ρ) : System.Grows P P := ⟨fun _ => List.prefix_rfl, fun _ => List.prefix_rfl⟩

theorem System.Step.grows {label : System.Label} (st : System.Step delay lim ids rsm P label P') : System.Grows P P' where
  effects x := st.rafts.grows x
  events x := by
    rcases st.reacts x with idle | ⟨-, request, -, -, done⟩ | ⟨-, -, restored, restarted⟩
    · rw [idle]
    · exact (Handled.of_handle done).events
    · rw [restarted]
      exact List.prefix_rfl

theorem System.Later.grows (later : System.Later delay lim ids rsm P P') : System.Grows P P' := by
  induction later with
  | refl => exact .refl P
  | tail _ st ih =>
    obtain ⟨_, -, st⟩ := st
    have last := st.grows
    exact ⟨fun x => (ih.effects x).trans (last.effects x), fun x => (ih.events x).trans (last.events x)⟩

namespace Network

theorem Gives.mono {m : TInbound} (grows : System.Grows P P') (gives : Gives P x d m) : Gives P' x d m := by
  cases gives with
  | message sent => exact .message ((grows.effects x).subset sent)
  | command sent => exact .command ((grows.events x).subset sent)

theorem Faithful.mono (grows : System.Grows P P') (faithful : Faithful ids P d c) : Faithful ids P' d c := by
  intro x peer
  obtain ⟨mem, read, unread, written, position, given⟩ := faithful x peer
  exact ⟨mem, read, unread, written, position, fun m here => ⟨(given m here).1, (given m here).2.mono grows⟩⟩

theorem Faithful.opened (peer : Option ℕ) (known : ∀ x ∈ peer, x ∈ ids) : Faithful ids P d { peer } :=
  fun x same => ⟨known x same, [], [], rfl, rfl, List.forall_mem_nil _⟩

theorem Faithful.client (client : c.peer = none) : Faithful ids P d c := fun _ peer => nomatch client.symm.trans peer

theorem Faithful.write (faithful : Faithful ids P d c) (peer : c.peer = some x) {m : TInbound} (gives : Gives P x d m)
    (fits : m.Fits) : Faithful ids P d { c with written := c.written ++ m.holder.write } := by
  intro y same
  obtain rfl := Option.some.inj (peer.symm.trans same)
  obtain ⟨mem, read, unread, written, position, given⟩ := faithful x peer
  refine ⟨mem, read, unread ++ [m], ?_, position, ?_⟩
  · dsimp only
    rw [written, ← List.append_assoc read, @List.map_append _ _ _ _ [m], writeAll_append, List.map_singleton,
      TMessageHolder.writeAll, TMessageHolder.writeAll, List.append_nil]
  · rw [← List.append_assoc, List.forall_mem_append]
    exact ⟨given, List.forall_mem_singleton.mpr ⟨fits, gives⟩⟩

/-- **What is read off a connection of a peer** is a message that it was given, and the rest is still to come. -/
theorem Faithful.read (faithful : Faithful ids P d c) (peer : c.peer = some x) {message : TInbound} {q : ℕ}
    (heard : Heard c message q) : x ∈ ids ∧ Gives P x d message ∧ Faithful ids P d { c with position := q } := by
  obtain ⟨arrived, done, cast, -⟩ := heard
  obtain ⟨mem, read, unread, written, position, given⟩ := faithful x peer
  rw [written] at arrived
  rw [position] at done
  obtain ⟨y, rest, rfl, rfl, reached⟩ := read_next arrived (fun m here => (given m here).1) done
  obtain ⟨fits, gives⟩ := given y (List.mem_append_right _ (List.mem_cons_self ..))
  rw [TInbound.inbound_holder fits] at cast
  obtain rfl := Option.some.inj cast
  refine ⟨mem, gives, fun z same => ?_⟩
  obtain rfl := Option.some.inj (peer.symm.trans same)
  refine ⟨mem, read ++ [y], rest, ?_, reached, ?_⟩
  · rw [List.append_assoc]
    exact written
  · rw [List.append_assoc]
    exact given

/-! ## Down to the system -/

/-- The servers are those of a run of the system, and on every connection to one of them is what peers gave. -/
structure Sound (delay : UInt32 → ℕ) (lim : ℕ) (ids : Finset ℕ) (rsm : IRsm ρ) (N : Network ρ) : Prop where
  reach : System.Reachable delay lim ids rsm N.servers
  faithful : ∀ d k c, N.inbound d k = some c → Faithful ids N.servers d c

theorem setConnection_cases {c' : Option TConnection} {e l : ℕ} (here : (N.setConnection d k c').inbound e l = some c) :
    (e = d ∧ c' = some c) ∨ N.inbound e l = some c := by
  unfold setConnection at here
  dsimp only at here
  by_cases own : e = d
  · subst own
    rw [Function.update_self] at here
    by_cases same : l = k
    · subst same
      rw [Function.update_self] at here
      exact .inl ⟨rfl, here⟩
    · rw [Function.update_of_ne same] at here
      exact .inr here
  · rw [Function.update_of_ne own] at here
    exact .inr here

/-- One connection has changed, while the servers went on. -/
theorem Sound.connection (sound : Sound delay lim ids rsm N) (later : System.Later delay lim ids rsm N.servers N'.servers)
    {c' : Option TConnection} (inbound : N'.inbound = (N.setConnection d k c').inbound)
    (new : ∀ c ∈ c', Faithful ids N'.servers d c) : Sound delay lim ids rsm N' where
  reach := sound.reach.run later
  faithful e l c here := by
    rw [inbound] at here
    rcases setConnection_cases here with ⟨rfl, same⟩ | old
    · exact new c same
    · exact (sound.faithful e l c old).mono later.grows

/-- No connection has changed. -/
theorem Sound.servers (sound : Sound delay lim ids rsm N) {p : TRequestProcessor ρ}
    (later : System.Later delay lim ids rsm N.servers (Function.update N.servers d p)) :
    Sound delay lim ids rsm (N.setServer d p) where
  reach := sound.reach.run later
  faithful e l c here := (sound.faithful e l c here).mono later.grows

theorem Sound.room (pos : 0 < lim) (small : lim ≤ 2 ^ 63) (sound : Sound delay lim ids rsm N) (mem : d ∈ ids) :
    (N.servers d).raft.state.log.length < lim := by
  obtain ⟨h, agrees⟩ := sound.reach.rafts.agrees pos small
  exact (agrees.good mem).log_lt

/-- One call that any server may get at any time. -/
theorem later_of_free {request : Request} (mem : d ∈ ids) (free : request.Free)
    (done : (P d).handle delay rsm request = .ok p') (room : p'.raft.state.log.length < lim) :
    System.Later delay lim ids rsm P (Function.update P d p') := by
  have enabled : System.Enabled ids P d request := by
    cases request with
    | process => exact absurd free id
    | append => exact absurd free id
    | _ => trivial
  exact .single ⟨_, trivial, .call mem request enabled done room⟩

/-- The calls of a round, or the first of them, for a message that was read. -/
theorem Sound.round (pos : 0 < lim) (small : lim ≤ 2 ^ 63) (sound : Sound delay lim ids rsm N) (mem : d ∈ ids)
    (here : N.inbound d k = some c) {message : TInbound} {q : ℕ} (heard : Heard c message q) {now now' : Time}
    {calls : List Request}
    (begins : calls <+: message.round now now' k) (done : (N.servers d).handleAll delay rsm calls = .ok p)
    (room : p.raft.state.log.length < lim) :
    System.Later delay lim ids rsm N.servers (Function.update N.servers d p) := by
  have known := (sound.reach.rafts.standing pos small mem).peers.name
  refine System.later_of_round mem known (fun body same => ?_) begins done room
  cases peer : c.peer with
  | none =>
    obtain ⟨-, -, -, client⟩ := heard
    exact .inl (client peer body same)
  | some x =>
    obtain ⟨own, gives, -⟩ := (sound.faithful d k c here).read peer heard
    subst same
    cases gives with
    | message sent => exact .inr ⟨x, own, sent⟩

/-- The process is started again. -/
theorem Sound.restart (sound : Sound delay lim ids rsm N) (mem : d ∈ ids) (restored : TRsm ρ)
    (run : System.Later delay lim ids rsm N.servers (Function.update N.servers d p)) :
    System.Later delay lim ids rsm N.servers ((N.setServer d (p.restart restored)).hangUp d).servers ∧
      Sound delay lim ids rsm ((N.setServer d (p.restart restored)).hangUp d) := by
  have step : System.Step delay lim ids rsm (Function.update N.servers d p) (.restart d) _ := .restart mem restored
  rw [Function.update_self, Function.update_idem] at step
  have later : System.Later delay lim ids rsm N.servers (Function.update N.servers d (p.restart restored)) :=
    run.tail ⟨_, trivial, step⟩
  refine ⟨later, sound.reach.run later, fun e l c here => ?_⟩
  change (if e = d then none else _) = some c at here
  rw [Option.ite_none_left_eq_some, Option.map_eq_some_iff] at here
  obtain ⟨-, before, old, rfl⟩ := here
  have faithful := (sound.faithful e l before old).mono later.grows
  split
  · exact faithful
  · exact faithful

/-- **A step of the network is a run of the system.** -/
theorem Sound.step (pos : 0 < lim) (small : lim ≤ 2 ^ 63) (sound : Sound delay lim ids rsm N)
    (st : Step delay lim ids rsm N N') :
    System.Later delay lim ids rsm N.servers N'.servers ∧ Sound delay lim ids rsm N' := by
  cases st with
  | @accept d mem peer known =>
    exact ⟨.refl, sound.connection .refl rfl fun c same => Option.some.inj same ▸ .opened peer known⟩
  | @write d k x c here peer alive message gives fits =>
    exact ⟨.refl, sound.connection .refl rfl fun c' same =>
      Option.some.inj same ▸ (sound.faithful d k c here).write peer gives fits⟩
  | @clientWrite d k c here client bytes =>
    exact ⟨.refl, sound.connection .refl rfl fun c' same => Option.some.inj same ▸ .client client⟩
  | @receive d k c mem here message position heard now now' p done room =>
    have later := sound.round pos small mem here heard List.prefix_rfl done room
    refine ⟨later, sound.connection later rfl fun c' same => ?_⟩
    obtain rfl := Option.some.inj same
    rcases Option.eq_none_or_eq_some c.peer with none_ | ⟨x, peer⟩
    · exact .client none_
    · exact ((sound.faithful d k c here).read peer heard).2.2.mono later.grows
  | @close d k c mem here =>
    have aside := Aside.of_cleanUp k (N.servers d)
    have later : System.Later delay lim ids rsm N.servers (Function.update N.servers d ((N.servers d).cleanUp k)) := by
      refine later_of_free mem (show (Request.cleanUp k).Free from trivial) rfl ?_
      rw [aside.raft]
      exact sound.room pos small mem
    exact ⟨later, sound.connection later rfl nofun⟩
  | @idle d mem now p done room =>
    have later := later_of_free mem (show (Request.processTimeout now).Free from trivial) done room
    exact ⟨later, sound.servers later⟩
  | @reply d mem response p done =>
    have later : System.Later delay lim ids rsm N.servers (Function.update N.servers d p) := by
      refine later_of_free mem (show (Request.onCommandResponse response).Free from trivial) done ?_
      rw [(Aside.of_onCommandResponse done).raft]
      exact sound.room pos small mem
    exact ⟨later, sound.servers later⟩
  | @restart d mem restored =>
    exact sound.restart mem restored (by rw [Function.update_eq_self]; exact .refl)
  | @die d k c mem here message position heard now now' calls first p done room restored =>
    exact sound.restart mem restored (sound.round pos small mem here heard first done room)

theorem Reachable.sound (pos : 0 < lim) (small : lim ≤ 2 ^ 63) (reach : Reachable delay lim ids rsm N) :
    Sound delay lim ids rsm N := by
  obtain ⟨start, ⟨fresh, closed⟩, later⟩ := reach
  induction later with
  | refl =>
    refine ⟨⟨_, fresh, .refl⟩, fun d k c here => ?_⟩
    rw [closed] at here
    cases here
  | tail _ st ih => exact (ih.step pos small st).2

end Network

/-! ## Runs that are computed -/

/-- A part of a run that is written down. A server is told the time, accepts a connection, or reads what is written on one:
the `j`-th effect of the peer, or a command of a client. It may die after the first `n` calls. -/
inductive Hop where
  | idle (d : ℕ) (now : Time)
  | accept (d : ℕ) (peer : Option ℕ)
  | receive (d k : ℕ) (what : ℕ ⊕ TCommandRequest) (now : Time)
  | die (d k : ℕ) (what : ℕ ⊕ TCommandRequest) (n : ℕ) (now : Time)

namespace Network

/-- What may be written on a connection. -/
def spoken (N : Network ρ) (d : ℕ) (c : TConnection) : ℕ ⊕ TCommandRequest → Option TInbound
  | .inl j =>
    match c.peer with
    | none => none
    | some x =>
      match (N.servers x).raft.effects[j]? with
      | some (.send e m) => if e = d ∧ c.alive then some (.message m) else none
      | _ => none
  | .inr command => if c.peer = none then some (.commandRequest command) else none

/-- A message is written where nothing is unread. -/
def speak (ids : Finset ℕ) (d k : ℕ) (what : ℕ ⊕ TCommandRequest) (N : Network ρ) :
    Option (TInbound × TConnection × Network ρ) :=
  (N.inbound d k).bind fun c => (N.spoken d c what).bind fun message =>
    if d ∈ ids ∧ c.position = c.written.length ∧ message.Fits then
      some (message, { c with written := c.written ++ write message.holder },
        N.setConnection d k (some { c with written := c.written ++ write message.holder }))
    else none

/-- The network after a part of a run, if it is possible. -/
def hop (delay : UInt32 → ℕ) (lim : ℕ) (ids : Finset ℕ) (rsm : IRsm ρ) (init : ρ) : Hop → Network ρ → Option (Network ρ)
  | .idle d now, N =>
    if d ∈ ids ∧ ((N.servers d).raft.processTimeout delay now).state.log.length < lim then
      some (N.setServer d { N.servers d with raft := (N.servers d).raft.processTimeout delay now })
    else none
  | .accept d peer, N =>
    if d ∈ ids ∧ ∀ x ∈ peer, x ∈ ids then
      some { N.setConnection d (N.accepted d) (some { peer }) with
        accepted := Function.update N.accepted d (N.accepted d + 1) }
    else none
  | .receive d k what now, N => (N.speak ids d k what).bind fun (message, c, N) =>
      ((N.servers d).handleAll delay rsm (message.round now now k)).toOption.bind fun p =>
        if p.raft.state.log.length < lim then
          some ((N.setServer d p).setConnection d k (some { c with position := c.written.length }))
        else none
  | .die d k what n now, N => (N.speak ids d k what).bind fun (message, _, N) =>
      ((N.servers d).handleAll delay rsm ((message.round now now k).take n)).toOption.bind fun p =>
        if p.raft.state.log.length < lim then some ((N.setServer d (p.restart { impl := init })).hangUp d) else none

def play (delay : UInt32 → ℕ) (lim : ℕ) (ids : Finset ℕ) (rsm : IRsm ρ) (init : ρ) : List Hop → Network ρ → Option (Network ρ)
  | [], N => some N
  | h :: hops, N => (hop delay lim ids rsm init h N).bind (play delay lim ids rsm init hops)

/-- What is spoken is what the far end may write. -/
theorem step_of_spoken {what : ℕ ⊕ TCommandRequest} {message : TInbound} (here : N.inbound d k = some c)
    (said : N.spoken d c what = some message) (fits : message.Fits) :
    Step delay lim ids rsm N (N.setConnection d k (some { c with written := c.written ++ write message.holder })) ∧
      (c.peer = none → ∀ body, message = .message body → body = .other) := by
  cases what with
  | inl j =>
    unfold spoken at said
    dsimp only at said
    rcases Option.eq_none_or_eq_some c.peer with none_ | ⟨x, peer⟩
    · rw [none_] at said
      cases said
    rw [peer] at said
    dsimp only at said
    split at said
    next e m sent =>
      obtain ⟨⟨rfl, alive⟩, same⟩ := Option.ite_none_right_eq_some.mp said
      obtain rfl := Option.some.inj same
      exact ⟨.write here peer alive (.message (List.mem_of_getElem? sent)) fits, fun none_ => nomatch none_.symm.trans peer⟩
    next => cases said
  | inr command =>
    obtain ⟨client, same⟩ := Option.ite_none_right_eq_some.mp said
    obtain rfl := Option.some.inj same
    exact ⟨.clientWrite here client _, fun _ _ => nofun⟩

/-- What is spoken is the next message that is read. -/
theorem step_of_speak {what : ℕ ⊕ TCommandRequest} {message : TInbound} (spoke : N.speak ids d k what = some (message, c, N')) :
    Step delay lim ids rsm N N' ∧ d ∈ ids ∧ N'.inbound d k = some c ∧ Heard c message c.written.length := by
  obtain ⟨c₀, here, rest⟩ := Option.bind_eq_some_iff.mp spoke
  obtain ⟨message', said, rest⟩ := Option.bind_eq_some_iff.mp rest
  obtain ⟨⟨mem, all, fits⟩, same⟩ := Option.ite_none_right_eq_some.mp rest
  cases Option.some.inj same
  obtain ⟨step, client⟩ : Step delay lim ids rsm N _ ∧ _ := step_of_spoken here said fits
  have behind : (c₀.written ++ write message.holder).drop c₀.position = write message.holder ++ [] := by
    rw [all, List.drop_left, List.append_nil]
  have reads := read_framed (s := ⟨c₀.written ++ write message.holder, ∅⟩) (d := (c₀.written ++ write message.holder).length + 1)
    (TInbound.wellFormed_holder fits).framed behind (by rw [List.length_append]; omega)
  rw [if_neg (not_cut _ _), all, ← List.length_append] at reads
  refine ⟨step, mem, ?_, .intro (s := ⟨c₀.written ++ write message.holder, ∅⟩) List.prefix_rfl ?_
    (TInbound.inbound_holder fits) client⟩
  · unfold setConnection
    dsimp only
    rw [Function.update_self, Function.update_self]
  · rw [all]
    exact reads

theorem ok_of_toOption {e : Except Fault (TRequestProcessor ρ)} (some_ : e.toOption = some p) : e = .ok p := by
  cases e with
  | error fault => cases some_
  | ok p' =>
    cases some_
    rfl

/-- **What is written down is a run.** -/
theorem later_of_hop {init : ρ} {h : Hop} (hopped : hop delay lim ids rsm init h N = some N') : Later delay lim ids rsm N N' := by
  cases h with
  | idle d now =>
    obtain ⟨⟨mem, room⟩, same⟩ := Option.ite_none_right_eq_some.mp hopped
    exact .single (Option.some.inj same ▸ .idle mem now rfl room)
  | accept d peer =>
    obtain ⟨⟨mem, known⟩, same⟩ := Option.ite_none_right_eq_some.mp hopped
    exact .single (Option.some.inj same ▸ .accept mem peer known)
  | receive d k what now =>
    obtain ⟨⟨message, c, N₁⟩, spoke, rest⟩ := Option.bind_eq_some_iff.mp hopped
    obtain ⟨p, done, rest⟩ := Option.bind_eq_some_iff.mp rest
    obtain ⟨room, same⟩ := Option.ite_none_right_eq_some.mp rest
    obtain ⟨step, mem, here, heard⟩ := step_of_speak spoke
    exact .tail (.single step) (Option.some.inj same ▸ .receive mem here heard now now (ok_of_toOption done) room)
  | die d k what n now =>
    obtain ⟨⟨message, c, N₁⟩, spoke, rest⟩ := Option.bind_eq_some_iff.mp hopped
    obtain ⟨p, done, rest⟩ := Option.bind_eq_some_iff.mp rest
    obtain ⟨room, same⟩ := Option.ite_none_right_eq_some.mp rest
    obtain ⟨step, mem, here, heard⟩ := step_of_speak spoke
    exact .tail (.single step) (Option.some.inj same ▸
      .die mem here heard now now (List.take_prefix ..) (ok_of_toOption done) room _)

theorem later_of_play {init : ρ} {hops : List Hop} (played : play delay lim ids rsm init hops N = some N') :
    Later delay lim ids rsm N N' := by
  induction hops generalizing N with
  | nil => exact Option.some.inj played ▸ .refl
  | cons h hops ih =>
    obtain ⟨N₁, first, rest⟩ := Option.bind_eq_some_iff.mp played
    exact (later_of_hop first).trans (ih rest)

/-- A property of what is played is checked by playing it. -/
theorem reachable_of_play (ids : List ℕ) (hops : List Hop) (nodup : ids.Nodup) (zero : 0 ∉ ids)
    (φ : Network (List TLogEntry) → Prop) [DecidablePred φ]
    (played : (play (fun _ => 5000) (2 ^ 31) ids.toFinset (TDummyRsm.rsm []) [] hops
      { servers := System.fresh ids { impl := [] } }).any (φ ·)) :
    ∃ N, Reachable (fun _ => 5000) (2 ^ 31) ids.toFinset (TDummyRsm.rsm []) N ∧ φ N := by
  obtain ⟨N, played, holds⟩ := (Option.any_eq_true _ _).mp played
  exact ⟨N, ⟨_, ⟨System.fresh_start nodup zero _, fun _ _ => rfl⟩, later_of_play played⟩, by simpa using holds⟩

end Network

/-! ## The servers are safe -/

/-- **Servers that exchange bytes are safe.** However the bytes arrive, connections break and processes restart, also after
some calls of a round, the servers are in a state of the system of whole messages: a connection between servers holds
messages that the one gave its node for the other, read up to the end of one of them. So no two servers apply different
entries at one index. -/
theorem network_safe (delay : UInt32 → ℕ) (rsm : IRsm ρ) (ids : Finset ℕ) {N : Network ρ}
    (reach : Network.Reachable delay (2 ^ 31) ids rsm N) :
    System.Reachable delay (2 ^ 31) ids rsm N.servers ∧
    (∀ d k c, N.inbound d k = some c → Network.Faithful ids N.servers d c) ∧
    ∀ s ∈ ids, ∀ x ∈ ids, ∀ (i : ℕ) (d e : TLogEntry), (i, d) ∈ appliedOf (N.servers s).events →
      (i, e) ∈ appliedOf (N.servers x).events → d = e := by
  have sound := reach.sound (by decide) (by decide)
  obtain ⟨h, con⟩ := sound.reach.consistent (by decide) le_rfl
  refine ⟨sound.reach, sound.faithful, fun s mem x mem' i d e here here' => ?_⟩
  exact (con.settled s mem i d here).agree con.agrees.inv (con.settled x mem' i e here')

/-- Server 1 leads and takes a command of a client. Server 2 dies as soon as `Process` has stored it, and hears of the commit on
its next connection. -/
def twoLives : List Hop :=
  [.accept 2 (some 1), .accept 1 (some 2), .accept 1 none, .idle 1 1000000000, .receive 2 0 (.inl 1) 1000000000,
    .receive 1 0 (.inl 2) 1000000000, .receive 1 1 (.inr { flags := 1, cookie := 5, data := [65] }) 1000000000,
    .receive 2 0 (.inl 3) 1000000000, .receive 1 0 (.inl 3) 2000000000, .die 2 0 (.inl 5) 1 2000000000,
    .accept 2 (some 1), .accept 1 (some 2), .idle 1 5000000000, .receive 2 1 (.inl 6) 5000000000,
    .receive 1 2 (.inl 5) 5000000000, .idle 1 8000000000, .receive 2 1 (.inl 8) 8000000000]

/-- Both apply the entry of the client at index 2, and server 2 applies no other there. -/
theorem network_safe_applied : ∃ N : Network (List TLogEntry),
    System.Reachable (fun _ => 5000) (2 ^ 31) [1, 2, 3].toFinset (TDummyRsm.rsm []) N.servers ∧
    (∀ d k c, N.inbound d k = some c → Network.Faithful [1, 2, 3].toFinset N.servers d c) ∧
    (2, { term := 2, data := [65] }) ∈ appliedOf (N.servers 1).events ∧
    (2, { term := 2, data := [65] }) ∈ appliedOf (N.servers 2).events ∧
    ∀ e, (2, e) ∈ appliedOf (N.servers 2).events → e = { term := 2, data := [65] } := by
  obtain ⟨N, reach, one, two⟩ := Network.reachable_of_play [1, 2, 3] twoLives (by decide) (by decide)
    (fun N => (2, ({ term := 2, data := [65] } : TLogEntry)) ∈ appliedOf (N.servers 1).events ∧
      (2, ({ term := 2, data := [65] } : TLogEntry)) ∈ appliedOf (N.servers 2).events) (by decide +kernel)
  obtain ⟨system, faithful, agree⟩ := network_safe (fun _ => 5000) (TDummyRsm.rsm []) [1, 2, 3].toFinset reach
  exact ⟨N, system, faithful, one, two, fun e here => agree 2 (by decide) 1 (by decide) 2 e _ here one⟩

end MiniRaft
