import MiniRaft.Lib.Outbox
import MiniRaft.Node

/-!
# Order and boundaries of outgoing messages (`TNode`)

A node is an outbox: `Send` puts in, `DoDrain` takes out all that waits, and a message is finished when its last byte is taken
or lost with the rest of its batch when a write fails. Only the drainer that the handle leads to is ever at work, and it writes
to the connection that there is. After a failure a node with an address is on a new connection; one without goes on writing to
the old one, where a message may have been torn.
-/

namespace MiniRaft

open Lib TMessageHolder

/-! ## What a drainer leaves behind -/

mutual

theorem flatten_buffers : ∀ m : TMessageHolder, (buffers m).flatten = write m
  | .mk message payload => by rw [buffers, List.flatten_cons, flatten_buffersAll, write]

theorem flatten_buffersAll : ∀ ms : List TMessageHolder, (buffersAll ms).flatten = writeAll ms
  | [] => rfl
  | m :: ms => by rw [buffersAll, List.flatten_append, flatten_buffers, flatten_buffersAll, writeAll]

end

/-- The message that a frame is at. -/
def DoDrain.part (f : DoDrain) : Part := ⟨f.socket, f.message, f.taken, false⟩

/-- Some bytes of the message were taken, and not all. -/
def Part.Torn (p : Part) : Prop := p.bytes ≠ [] ∧ p.bytes ≠ write p.message

instance (p : Part) : Decidable p.Torn := inferInstanceAs (Decidable (_ ∧ _))

/-- The bytes of the messages on one connection. -/
def bytesOn (socket : ℕ) (parts : List Part) : List UInt8 := (parts.filter (·.socket = socket)).flatMap (·.bytes)

theorem bytesOn_append (socket : ℕ) (parts parts' : List Part) :
    bytesOn socket (parts ++ parts') = bytesOn socket parts ++ bytesOn socket parts' := by
  unfold bytesOn
  rw [List.filter_append, List.flatMap_append]

theorem bytesOn_singleton (socket : ℕ) (p : Part) : bytesOn socket [p] = if p.socket = socket then p.bytes else [] := by
  unfold bytesOn
  by_cases here : p.socket = socket <;> simp [here]

namespace Outgoing

variable {w : Outgoing} {f f' : DoDrain} {cur : Option DoDrain} {batch : List TMessageHolder} {handle : ℕ}

/-- The outbox that a node is, with what it has taken out and not begun or not ended. -/
def outbox (w : Outgoing) (batch : List TMessageHolder) : Outbox TMessageHolder where
  sent := w.sent
  queue := w.messages
  batch := batch
  out := w.parts.map fun p => (p.message, !p.failed)

/-- On its connection the node has torn no message. -/
def Clear (w : Outgoing) : Prop := ∀ p ∈ w.parts, p.Torn → p.socket ≠ w.socket

instance (w : Outgoing) : Decidable w.Clear := inferInstanceAs (Decidable (∀ _ ∈ _, _))

/-- What holds wherever the node is, with the drainer that is at work. -/
structure Settled (w : Outgoing) (cur : Option DoDrain) (batch : List TMessageHolder) : Prop where
  outbox : Outbox.Moves .empty (w.outbox batch)
  wire : ∀ socket, w.wire socket = bytesOn socket (w.parts ++ cur.toList.map DoDrain.part)
  whole : ∀ p ∈ w.parts, p.failed = false → p.bytes = write p.message
  begun : ∀ p ∈ w.parts, p.bytes <+: write p.message
  known : w.socket ≤ w.sockets ∧ ∀ p ∈ w.parts, p.socket ≤ w.sockets
  last : w.parts.Pairwise fun p q => p.Torn → p.socket ≠ q.socket
  given : w.address = false → w.connected = true

/-- **What holds between two calls of `WriteSome`**: the connection is clear where the node has an address or a drainer is at
work, a connector is at work only while it is not connected, and the drainer writes to the connection that there is. -/
structure Inv (w : Outgoing) (cur : Option DoDrain) (batch : List TMessageHolder) : Prop extends Settled w cur batch where
  clear : w.address = true ∨ cur.isSome = true → w.Clear
  alone : w.connects = [] ∨ w.connected = false ∧ ∃ handle at_, w.connects = [(handle, at_)] ∧ w.connector = some handle
  at_work : ∀ f, cur = some f → w.connected = true ∧ f.socket = w.socket ∧ batch = f.message :: f.tosend ∧
    f.taken ++ (f.buffer ++ f.buffers.flatten) = write f.message

theorem Inv.no_connects (inv : w.Inv cur batch) (connected : w.connected = true) : w.connects = [] := by
  apply inv.alone.resolve_right
  rintro ⟨not_connected, _⟩
  rw [connected] at not_connected
  cases not_connected

/-- **An attempt to connect** is on a connection that nothing was written to. -/
theorem Settled.attempt (settled : w.Settled none batch) (none_ : w.connects = []) (lost : w.connected = false)
    (mine : w.connector = some handle) : (w.attempt handle).Inv none batch where
  outbox := settled.outbox
  wire := settled.wire
  whole := settled.whole
  begun := settled.begun
  known := ⟨Nat.le_refl _, fun p mem => Nat.le_succ_of_le (settled.known.2 p mem)⟩
  last := settled.last
  given := settled.given
  clear := fun _ p mem _ => Nat.ne_of_lt (Nat.lt_succ_of_le (settled.known.2 p mem))
  alone := .inr ⟨lost, handle, .connecting, congrArg ((handle, DoConnect.connecting) :: ·) none_, mine⟩
  at_work := nofun

theorem Settled.connect (settled : w.Settled none batch) (address : w.address = true) (none_ : w.connects = []) :
    w.connect.Inv none batch := by
  have done : w.connectorDone = true := by
    unfold connectorDone
    rw [none_]
    rfl
  have start : (w.address && w.connectorDone) = true := by
    rw [address, done]
    rfl
  unfold Outgoing.connect
  rw [if_pos start]
  have idle : Settled { w with
      connected := false
      connector := some w.handles
      handles := w.handles + 1 } none batch := { settled with
    given := fun without => Bool.noConfusion (address.symm.trans without) }
  exact idle.attempt none_ rfl rfl

theorem Inv.connect (inv : w.Inv none batch) : w.connect.Inv none batch := by
  by_cases start : (w.address && w.connectorDone) = true
  · rw [Bool.and_eq_true] at start
    have none_ : w.connects = [] := by
      apply inv.alone.resolve_right
      rintro ⟨-, handle, at_, one, mine⟩
      have := start.2
      unfold connectorDone at this
      rw [one, mine] at this
      simp at this
    exact inv.toSettled.connect start.1 none_
  · unfold Outgoing.connect
    rwa [if_neg start]

theorem Inv.begin {m : TMessageHolder} {tosend : List TMessageHolder} (inv : w.Inv none (m :: tosend))
    (connected : w.connected = true) (clear : w.Clear) : w.Inv (some (w.begin m tosend)) (m :: tosend) := by
  refine { inv with
    wire := fun socket => ?_
    clear := fun _ => clear
    at_work := ?_ }
  · rw [inv.wire, bytesOn_append, bytesOn_append]
    congr 1
    show _ = bytesOn socket [(w.begin m tosend).part]
    rw [bytesOn_singleton]
    split <;> rfl
  · rintro f ⟨⟩
    refine ⟨connected, rfl, rfl, ?_⟩
    cases m with
    | mk message payload =>
      show [] ++ (message.bytes ++ (buffersAll payload).flatten) = write (.mk message payload)
      rw [flatten_buffersAll, List.nil_append, write]

/-- **The next message begins** where there is one; else all is written. -/
theorem Inv.next (inv : w.Inv none batch) (connected : w.connected = true) (clear : batch ++ w.messages ≠ [] → w.Clear) :
    ∃ batch', (w.next batch).1.Inv (w.next batch).2 batch' ∧ ((w.next batch).2 = none → batch' = []) := by
  cases batch with
  | cons m tosend => exact ⟨m :: tosend, inv.begin connected (clear nofun), nofun⟩
  | nil =>
    unfold Outgoing.next
    cases queue : w.messages with
    | nil => exact ⟨[], inv, fun _ => rfl⟩
    | cons m tosend =>
      have taken : Inv { w with messages := [] } none (m :: tosend) := { inv with
        outbox := by
          have := inv.outbox.tail (.take rfl)
          rwa [show (w.outbox []).queue = m :: tosend from queue] at this
        at_work := nofun }
      exact ⟨m :: tosend, taken.begin connected (clear (by rw [queue]; nofun)), nofun⟩

/-- **A buffer is written on**: what the frame has left is what is missing of the message. -/
theorem Inv.goes_on (inv : w.Inv (some f) batch) (n : ℕ) (socket : f'.socket = w.socket) (message : f'.message = f.message)
    (tosend : f'.tosend = f.tosend) (taken : f'.taken = f.taken ++ f.buffer.take (n + 1))
    (left : f'.buffer ++ f'.buffers.flatten = f.buffer.drop (n + 1) ++ f.buffers.flatten) :
    (w.take f.socket (f.buffer.take (n + 1))).Inv (some f') batch := by
  obtain ⟨connected, here, hand, whole⟩ := inv.at_work f rfl
  refine { inv with
    wire := fun c => ?_
    clear := fun _ => inv.clear (.inr rfl)
    at_work := ?_ }
  · have before := inv.wire c
    rw [bytesOn_append] at before ⊢
    change _ = _ ++ bytesOn c [f.part] at before
    show Function.update w.wire f.socket _ c = bytesOn c w.parts ++ bytesOn c [f'.part]
    rw [bytesOn_singleton] at before ⊢
    change _ = _ ++ (if f.socket = c then f.taken else []) at before
    show _ = _ ++ (if f'.socket = c then f'.taken else [])
    rw [socket, ← here, taken]
    by_cases at_c : f.socket = c
    · subst at_c
      rw [if_pos rfl] at before ⊢
      rw [Function.update_self, before, List.append_assoc]
    · rw [if_neg at_c] at before ⊢
      rw [Function.update_of_ne (Ne.symm at_c), before]
  · rintro f₁ ⟨⟩
    refine ⟨connected, socket, ?_, ?_⟩
    · rw [message, tosend, hand]
    · rw [taken, left, message, ← whole, List.append_assoc, ← List.append_assoc (f.buffer.take (n + 1)), List.take_append_drop]

/-- **The writing of a message ends**, with all of it written or with a failure. -/
theorem Inv.ended (inv : w.Inv (some f) batch) (failed : Bool) (whole : failed = false → f.taken = write f.message) :
    Settled (w.ended f f.taken failed) none (if failed then [] else f.tosend) := by
  obtain ⟨-, here, hand, all⟩ := inv.at_work f rfl
  have mem_parts {p : Part} (mem : p ∈ (w.ended f f.taken failed).parts) :
      p ∈ w.parts ∨ p = ⟨f.socket, f.message, f.taken, failed⟩ :=
    (List.mem_append.mp mem).imp_right List.mem_singleton.mp
  constructor
  · have out : (w.ended f f.taken failed).outbox (if failed then [] else f.tosend) = { w.outbox batch with
        batch := if failed then [] else f.tosend
        out := (w.outbox batch).out ++ [(f.message, !failed)] } := by
      unfold Outgoing.outbox Outgoing.ended
      rw [List.map_append]
      rfl
    rw [out]
    apply inv.outbox.tail
    cases failed with
    | false => exact .finish hand
    | true => exact .lose hand
  · intro c
    have before := inv.wire c
    show w.wire c = _
    rw [before]
    unfold Outgoing.ended
    rw [Option.toList_none, List.map_nil, List.append_nil, bytesOn_append, bytesOn_append]
    exact congrArg (_ ++ ·) ((bytesOn_singleton c f.part).trans (bytesOn_singleton c ⟨f.socket, f.message, f.taken, failed⟩).symm)
  · intro p mem fine
    rcases mem_parts mem with old | rfl
    · exact inv.whole p old fine
    · exact whole fine
  · intro p mem
    rcases mem_parts mem with old | rfl
    · exact inv.begun p old
    · exact ⟨_, all⟩
  · refine ⟨inv.known.1, fun p mem => ?_⟩
    rcases mem_parts mem with old | rfl
    · exact inv.known.2 p old
    · exact here ▸ inv.known.1
  · refine List.pairwise_append.mpr ⟨inv.last, List.pairwise_singleton _ _, fun p old q new torn => ?_⟩
    rw [List.mem_singleton.mp new]
    exact here ▸ inv.clear (.inr rfl) p old torn
  · exact inv.given

theorem Inv.took (inv : w.Inv (some f) batch) (n : ℕ) :
    ∃ batch', (w.took f n).1.Inv (w.took f n).2 batch' ∧ ((w.took f n).2 = none → batch' = []) := by
  unfold Outgoing.took
  cases left : f.buffer.drop (n + 1) with
  | cons b buffer =>
    exact ⟨batch, inv.goes_on n rfl rfl rfl rfl (by rw [left]), nofun⟩
  | nil =>
    cases more : f.buffers with
    | cons buffer buffers => exact ⟨batch, inv.goes_on n rfl rfl rfl rfl (by rw [left, more]; rfl), nofun⟩
    | nil =>
      let f' : DoDrain := { f with
        taken := f.taken ++ f.buffer.take (n + 1)
        buffer := []
        buffers := [] }
      obtain ⟨connected, here, hand, -⟩ := inv.at_work f rfl
      have last : (w.take f.socket (f.buffer.take (n + 1))).Inv (some f') batch :=
        inv.goes_on n here rfl rfl rfl (by rw [left, more])
      have whole := (last.at_work f' rfl).2.2.2
      rw [List.flatten_nil, List.append_nil, List.append_nil] at whole
      have settled := last.ended false fun _ => whole
      have clear : ((w.take f.socket (f.buffer.take (n + 1))).ended f f'.taken false).Clear := by
        intro p mem torn
        rcases List.mem_append.mp mem with old | new
        · exact inv.clear (.inr rfl) p old torn
        · rw [List.mem_singleton.mp new] at torn
          exact absurd whole torn.2
      have idle : ((w.take f.socket (f.buffer.take (n + 1))).ended f f'.taken false).Inv none f.tosend := { settled with
        clear := fun _ => clear
        alone := inv.alone
        at_work := nofun }
      exact idle.next connected fun _ => clear

theorem Inv.threw (inv : w.Inv (some f) batch) : (w.threw f).Inv none [] := by
  have settled := inv.ended true nofun
  have none_ := inv.no_connects (inv.at_work f rfl).1
  unfold Outgoing.threw
  cases address : w.address with
  | true => exact settled.connect address none_
  | false =>
    have stays : (w.ended f f.taken true).connect = w.ended f f.taken true := by
      unfold Outgoing.connect
      rw [show (w.ended f f.taken true).address = false from address]
      rfl
    rw [stays]
    exact { settled with
      clear := by
        rintro (with_ | ⟨⟨⟩⟩)
        change w.address = true at with_
        rw [address] at with_
        cases with_
      alone := .inl none_
      at_work := nofun }

/-- **The drainer runs** as far as the script goes. -/
theorem Inv.run (inv : w.Inv (some f) batch) (script : List WriteSome) :
    ∃ batch', (Outgoing.run script w f).1.Inv (Outgoing.run script w f).2 batch' ∧
      ((Outgoing.run script w f).2 = none → batch' = []) := by
  induction script generalizing w f batch with
  | nil => exact ⟨batch, inv, nofun⟩
  | cons result script ih =>
    cases result with
    | threw => exact ⟨[], inv.threw, fun _ => rfl⟩
    | took n =>
      obtain ⟨batch', taken, done⟩ := inv.took n
      unfold Outgoing.run
      generalize w.took f n = r at taken done
      obtain ⟨w', cur⟩ := r
      cases cur with
      | none => exact ⟨batch', taken, done⟩
      | some f' => exact ih taken

/-! ## What a drainer leaves alone -/

/-- The address, the frames and the handle of the drainer are the same, and nothing has come to an empty queue. -/
structure Keeps (w w' : Outgoing) : Prop where
  address : w'.address = w.address
  drains : w'.drains = w.drains
  drainer : w'.drainer = w.drainer
  messages : w.messages = [] → w'.messages = []

theorem Keeps.refl (w : Outgoing) : Keeps w w := ⟨rfl, rfl, rfl, id⟩

theorem Keeps.trans {w₁ w₂ w₃ : Outgoing} (first : Keeps w₁ w₂) (second : Keeps w₂ w₃) : Keeps w₁ w₃ :=
  ⟨second.address.trans first.address, second.drains.trans first.drains, second.drainer.trans first.drainer,
    fun none_ => second.messages (first.messages none_)⟩

theorem keeps_connect (w : Outgoing) : Keeps w w.connect := by
  unfold Outgoing.connect
  split
  · exact ⟨rfl, rfl, rfl, id⟩
  · exact .refl w

theorem keeps_next (w : Outgoing) (batch : List TMessageHolder) : Keeps w (w.next batch).1 := by
  cases batch with
  | cons m tosend => exact .refl w
  | nil =>
    unfold Outgoing.next
    cases w.messages with
    | nil => exact .refl w
    | cons m tosend => exact ⟨rfl, rfl, rfl, fun _ => rfl⟩

theorem keeps_took (w : Outgoing) (f : DoDrain) (n : ℕ) : Keeps w (w.took f n).1 := by
  unfold Outgoing.took
  dsimp only
  split
  · exact ⟨rfl, rfl, rfl, id⟩
  · exact ⟨rfl, rfl, rfl, id⟩
  · have written : Keeps w ((w.take f.socket (f.buffer.take (n + 1))).ended f (f.taken ++ f.buffer.take (n + 1)) false) :=
      ⟨rfl, rfl, rfl, id⟩
    exact written.trans (keeps_next _ f.tosend)

theorem keeps_run (script : List WriteSome) (w : Outgoing) (f : DoDrain) : Keeps w (Outgoing.run script w f).1 := by
  induction script generalizing w f with
  | nil => exact .refl w
  | cons result script ih =>
    cases result with
    | threw =>
      have failed : Keeps w (w.ended f f.taken true) := ⟨rfl, rfl, rfl, id⟩
      exact failed.trans (keeps_connect _)
    | took n =>
      have first := keeps_took w f n
      unfold Outgoing.run
      generalize w.took f n = r at first
      obtain ⟨w', cur⟩ := r
      cases cur with
      | none => exact first
      | some f' => exact first.trans (ih w' f')

/-! ## Every step -/

/-- **What holds after every step**: no drainer waits, or the one that the handle leads to. -/
inductive Good (w : Outgoing) : Prop where
  | idle (none_ : w.drains = []) (inv : w.Inv none [])
  | busy {handle : ℕ} {f : DoDrain} {batch : List TMessageHolder} (one : w.drains = [(handle, f)])
      (mine : w.drainer = some handle) (inv : w.Inv (some f) batch)

theorem good_new (address : Bool) : (new address).Good := by
  have settled : Settled (new address) none [] :=
    ⟨.refl, fun _ => rfl, nofun, nofun, ⟨Nat.le_refl 0, nofun⟩, List.Pairwise.nil, by rintro rfl; rfl⟩
  exact .idle rfl ⟨settled, fun _ => nofun, .inl rfl, nofun⟩

/-- A drainer that has run waits, or is done. -/
theorem Good.suspend {r : Outgoing × Option DoDrain} (inv : r.1.Inv r.2 batch) (done : r.2 = none → batch = [])
    (none_ : r.1.drains = []) (mine : r.1.drainer = some handle) : (Outgoing.suspend handle r).Good := by
  obtain ⟨w, cur⟩ := r
  cases cur with
  | none =>
    cases done rfl
    exact .idle none_ inv
  | some f => exact .busy (congrArg ((handle, f) :: ·) none_) mine { inv with }

theorem Good.send (good : w.Good) (m : TMessageHolder) : (w.send m).Good := by
  have put {cur : Option DoDrain} {batch : List TMessageHolder} (inv : w.Inv cur batch) : (w.send m).Inv cur batch :=
    { inv with outbox := inv.outbox.tail (.put m) }
  cases good with
  | idle none_ inv => exact .idle none_ (put inv)
  | busy one mine inv => exact .busy one mine (put inv)

/-- The drainer of a call is given its handle at the end, where nothing depends on it. -/
theorem doDrain_drainer (w : Outgoing) (script : List WriteSome) :
    { w.doDrain handle script with drainer := some handle } =
      Outgoing.suspend handle (match w.next [] with
        | (w, none) => ({ w with drainer := some handle }, none)
        | (w, some f) => ({ (Outgoing.run script w f).1 with drainer := some handle }, (Outgoing.run script w f).2)) := by
  unfold doDrain
  generalize w.next [] = r
  obtain ⟨w', cur⟩ := r
  cases cur with
  | none => rfl
  | some f =>
    dsimp only
    generalize Outgoing.run script w' f = r
    obtain ⟨w'', cur⟩ := r
    cases cur <;> rfl

/-- What the step asks of the node: `Drain` finds nothing to write, or a node with an address, or a clear connection. -/
def Minds (w : Outgoing) : Act → Prop
  | .drain _ => w.messages = [] ∨ w.address = true ∨ w.Clear
  | _ => True

theorem Good.drain (good : w.Good) {script : List WriteSome} (minds : w.Minds (.drain script)) : (w.drain script).Good := by
  unfold Outgoing.drain
  by_cases connected : w.connected = true
  swap
  · rw [if_neg connected]
    cases good with
    | idle none_ inv => exact .idle ((keeps_connect w).drains.trans none_) inv.connect
    | busy one mine inv => exact absurd (inv.at_work _ rfl).1 connected
  rw [if_pos connected]
  by_cases done : w.drainerDone = true
  swap
  · rwa [if_neg done]
  rw [if_pos done]
  cases good with
  | busy one mine inv =>
    unfold drainerDone at done
    rw [one, mine] at done
    simp at done
  | idle none_ inv =>
    let w₀ : Outgoing := { w with handles := w.handles + 1 }
    have inv₀ : w₀.Inv none [] := { inv with }
    have clear : [] ++ w₀.messages ≠ [] → w₀.Clear := by
      intro waits
      rcases minds with none_ | address | clear
      · exact absurd none_ waits
      · exact inv.clear (.inl address)
      · exact clear
    rw [doDrain_drainer w₀]
    obtain ⟨batch, begins, ended⟩ := inv₀.next connected clear
    have kept := keeps_next w₀ []
    generalize w₀.next [] = r at begins ended kept
    obtain ⟨w', cur⟩ := r
    cases cur with
    | none =>
      have begins' : Inv { w' with drainer := some w.handles } none batch := { begins with }
      exact Good.suspend begins' ended (kept.drains.trans none_) rfl
    | some f =>
      obtain ⟨batch', runs, past⟩ := begins.run script
      have kept' := kept.trans (keeps_run script w' f)
      have runs' : Inv { (Outgoing.run script w' f).1 with drainer := some w.handles } (Outgoing.run script w' f).2 batch' :=
        { runs with }
      exact Good.suspend runs' past (kept'.drains.trans none_) rfl

theorem Good.resume (good : w.Good) (handle : ℕ) (script : List WriteSome) : (w.resume handle script).Good := by
  unfold Outgoing.resume
  cases here : w.drains.lookup handle with
  | none => exact good
  | some f =>
    cases good with
    | idle none_ inv =>
      rw [none_] at here
      cases here
    | @busy own f' batch one mine inv =>
      rw [one, List.lookup_cons] at here
      by_cases same : handle = own
      · subst same
        rw [beq_self_eq_true] at here
        cases here
        have inv₀ : Inv { w with drains := w.drains.filter (·.1 ≠ handle) } (some f) batch := { inv with }
        obtain ⟨batch', runs, past⟩ := inv₀.run script
        have kept := keeps_run script { w with drains := w.drains.filter (·.1 ≠ handle) } f
        refine Good.suspend runs past (kept.drains.trans ?_) (kept.drainer.trans mine)
        show w.drains.filter (·.1 ≠ handle) = []
        rw [one]
        simp
      · rw [beq_false_of_ne same] at here
        cases here

/-- **A connector that waits** is the only one, and no drainer does. -/
theorem Good.waiting (good : w.Good) {at_ : DoConnect} (here : w.connects.lookup handle = some at_) :
    w.drains = [] ∧ w.Inv none [] ∧ w.connects = [(handle, at_)] ∧ w.connected = false ∧ w.connector = some handle := by
  have some_ : w.connects ≠ [] := by
    intro none_
    rw [none_] at here
    cases here
  cases good with
  | busy one mine inv => exact absurd (inv.no_connects (inv.at_work _ rfl).1) some_
  | idle none_ inv =>
    obtain ⟨lost, own, at_', one, mine⟩ := inv.alone.resolve_left some_
    rw [one, List.lookup_cons] at here
    by_cases same : handle = own
    · subst same
      rw [beq_self_eq_true] at here
      cases here
      exact ⟨none_, inv, one, lost, mine⟩
    · rw [beq_false_of_ne same] at here
      cases here

theorem Good.established (good : w.Good) (handle : ℕ) : (w.established handle).Good := by
  unfold Outgoing.established
  split
  next here =>
    obtain ⟨none_, inv, one, -, -⟩ := good.waiting here
    refine .idle none_ { inv with
      given := fun _ => rfl
      alone := .inl ?_
      at_work := nofun }
    show w.connects.filter (·.1 ≠ handle) = []
    rw [one]
    simp
  next => exact good

theorem Good.refused (good : w.Good) (handle : ℕ) : (w.refused handle).Good := by
  unfold Outgoing.refused
  split
  next here =>
    obtain ⟨none_, inv, one, lost, mine⟩ := good.waiting here
    refine .idle none_ { inv with
      alone := .inr ⟨lost, handle, .sleeping, ?_, mine⟩
      at_work := nofun }
    show (if w.connected then w.connects.filter (·.1 ≠ handle) else (handle, .sleeping) :: w.connects.filter (·.1 ≠ handle)) = _
    rw [one, lost]
    simp
  next => exact good

theorem Good.woken (good : w.Good) (handle : ℕ) : (w.woken handle).Good := by
  unfold Outgoing.woken
  split
  next here =>
    obtain ⟨none_, inv, one, lost, mine⟩ := good.waiting here
    have gone : w.connects.filter (·.1 ≠ handle) = [] := by
      rw [one]
      simp
    have settled : Settled { w with connects := w.connects.filter (·.1 ≠ handle) } none [] := { inv.toSettled with }
    dsimp only
    rw [if_neg (by rw [lost]; exact Bool.false_ne_true)]
    exact .idle none_ (settled.attempt gone lost mine)
  next => exact good

theorem Good.step (good : w.Good) {act : Act} (minds : w.Minds act) : (w.step act).Good := by
  cases act with
  | send m => exact good.send m
  | drain script => exact good.drain minds
  | resume handle script => exact good.resume handle script
  | connected handle => exact good.established handle
  | refused handle => exact good.refused handle
  | woken handle => exact good.woken handle

/-! ## Order and boundaries -/

/-- Every message whose writing has begun, in the order in which it has. -/
def begun (w : Outgoing) : List Part := w.parts ++ w.drains.map (·.2.part)

/-- The messages whose writing has not begun: those in `tosend`, and `Messages`. -/
def waiting (w : Outgoing) : List TMessageHolder := w.drains.flatMap (·.2.tosend) ++ w.messages

/-- **Outgoing messages keep their order and boundaries.** -/
structure Orderly (w : Outgoing) : Prop where
  /-- At most one drainer is at work. -/
  one : w.drains.length ≤ 1
  /-- What a connection took is what was written of messages one after the other. -/
  wire : ∀ socket, w.wire socket = bytesOn socket w.begun
  /-- Of no message something else is written. -/
  within : ∀ p ∈ w.begun, p.bytes <+: write p.message
  /-- Only one that is being written, or that a write failed in, is not whole. -/
  whole : ∀ p ∈ w.parts, p.failed = false → p.bytes = write p.message
  /-- Nothing follows a torn message on its connection. -/
  last : w.begun.Pairwise fun p q => p.Torn → p.socket ≠ q.socket
  /-- The messages begin in the order they were sent, each at most once. -/
  order : (w.begun.map (·.message) ++ w.waiting).Sublist w.sent
  /-- Without a failure none is missing. -/
  kept : (∀ p ∈ w.parts, p.failed = false) → w.begun.map (·.message) ++ w.waiting = w.sent
  /-- When `Drain` leaves the node connected with no drainer at work, nothing waits. -/
  drained : ∀ script, (w.drain script).connected = true → (w.drain script).drains = [] → (w.drain script).messages = []

/-- A call of `DoDrain` takes all that waits. -/
theorem messages_doDrain (w : Outgoing) (handle : ℕ) (script : List WriteSome) : (w.doDrain handle script).messages = [] := by
  have taken : (w.next []).1.messages = [] := by
    unfold Outgoing.next
    cases queue : w.messages with
    | nil => exact queue
    | cons m tosend => rfl
  unfold doDrain
  generalize w.next [] = r at taken
  obtain ⟨w', cur⟩ := r
  cases cur with
  | none => exact taken
  | some f =>
    have none_ := (keeps_run script w' f).messages taken
    dsimp only
    generalize Outgoing.run script w' f = r at none_
    obtain ⟨w'', cur⟩ := r
    cases cur <;> exact none_

theorem drain_drained (w : Outgoing) (script : List WriteSome) (connected : (w.drain script).connected = true)
    (none_ : (w.drain script).drains = []) : (w.drain script).messages = [] := by
  unfold Outgoing.drain at connected none_ ⊢
  by_cases before : w.connected = true
  · rw [if_pos before] at none_ ⊢
    by_cases done : w.drainerDone = true
    · rw [if_pos done]
      exact messages_doDrain _ _ script
    · rw [if_neg done] at none_
      unfold drainerDone at done
      rw [none_] at done
      exact absurd rfl done
  · rw [if_neg before] at connected
    unfold Outgoing.connect at connected
    split at connected
    · cases connected
    · exact absurd connected before

theorem Inv.orderly (inv : w.Inv cur batch) (frames : w.drains.map (·.2) = cur.toList)
    (hand : batch = cur.toList.map (·.message) ++ cur.toList.flatMap (·.tosend)) : w.Orderly := by
  have parts : w.drains.map (·.2.part) = cur.toList.map DoDrain.part := by
    rw [← frames, List.map_map]
    rfl
  have tosend : w.drains.flatMap (·.2.tosend) = cur.toList.flatMap (·.tosend) := by
    rw [← frames, List.flatMap_map]
  have at_hand : w.begun.map (·.message) ++ w.waiting = (w.outbox batch).all := by
    have out : (w.outbox batch).out.map Prod.fst = w.parts.map (·.message) := by
      show (w.parts.map fun p => (p.message, !p.failed)).map Prod.fst = _
      rw [List.map_map]
      rfl
    have mine : (cur.toList.map DoDrain.part).map (·.message) = cur.toList.map (·.message) := by
      rw [List.map_map]
      rfl
    unfold begun waiting Outbox.all
    rw [parts, tosend, out, List.map_append, mine, List.append_assoc, ← List.append_assoc (cur.toList.map _), ← hand]
    rfl
  have order := inv.outbox.inOrder
  have at_part : ∀ p ∈ w.drains.map (·.2.part), ∃ f, cur = some f ∧ p = f.part := by
    intro p mem
    rw [parts] at mem
    obtain ⟨f, here, rfl⟩ := List.mem_map.mp mem
    exact ⟨f, Option.mem_toList.mp here, rfl⟩
  have one : w.drains.length ≤ 1 := by
    rw [← List.length_map (·.2), frames]
    exact Option.length_toList_le
  constructor
  · exact one
  · intro socket
    rw [inv.wire, begun, parts]
  · intro p mem
    rcases List.mem_append.mp mem with past | at_work
    · exact inv.begun p past
    · obtain ⟨f, at_f, rfl⟩ := at_part p at_work
      exact ⟨_, (inv.at_work f at_f).2.2.2⟩
  · exact inv.whole
  · refine List.pairwise_append.mpr ⟨inv.last, ?_, fun p past q at_work torn => ?_⟩
    · cases cur with
      | none =>
        rw [parts]
        exact List.Pairwise.nil
      | some f =>
        rw [parts]
        exact List.pairwise_singleton _ _
    · obtain ⟨f, at_f, rfl⟩ := at_part q at_work
      show p.socket ≠ f.socket
      rw [(inv.at_work f at_f).2.1]
      exact inv.clear (.inr (by rw [at_f]; rfl)) p past torn
  · rw [at_hand]
    exact order.sublist
  · intro fine
    rw [at_hand]
    apply order.all_of_whole
    intro x mem
    obtain ⟨p, past, rfl⟩ := List.mem_map.mp mem
    show (!p.failed) = true
    rw [fine p past]
    rfl
  · exact w.drain_drained

theorem Good.orderly (good : w.Good) : w.Orderly := by
  cases good with
  | idle none_ inv => exact inv.orderly (by rw [none_]; rfl) rfl
  | @busy handle f batch one mine inv =>
    apply inv.orderly (by rw [one]; rfl)
    rw [(inv.at_work f rfl).2.2.1]
    simp

/-! ## Behind a torn message -/

/-- The messages that are begun where a drainer waits or is done. -/
def begunIn (r : Outgoing × Option DoDrain) : List Part := r.1.parts ++ r.2.toList.map DoDrain.part

theorem parts_connect (w : Outgoing) : w.connect.parts = w.parts := by
  unfold Outgoing.connect
  split <;> rfl

/-- Between two messages nothing is put down, and a frame that begins writes to the connection that there is. -/
theorem parts_next (w : Outgoing) (batch : List TMessageHolder) :
    (w.next batch).1.parts = w.parts ∧ (w.next batch).1.socket = w.socket ∧
      ∀ f, (w.next batch).2 = some f → f.socket = w.socket := by
  unfold Outgoing.next
  cases batch with
  | cons m tosend =>
    refine ⟨rfl, rfl, ?_⟩
    rintro f ⟨⟩
    rfl
  | nil =>
    cases w.messages with
    | nil => exact ⟨rfl, rfl, nofun⟩
    | cons m tosend =>
      refine ⟨rfl, rfl, ?_⟩
      rintro f ⟨⟩
      rfl

/-- The drainer goes on with its message, or has put it down. -/
theorem parts_took (w : Outgoing) (f : DoDrain) (n : ℕ) :
    ((w.took f n).1.parts = w.parts ∧ (w.took f n).2 ≠ none ∨
      ∃ p : Part, p.socket = f.socket ∧ (w.took f n).1.parts = w.parts ++ [p]) ∧
    (w.took f n).1.socket = w.socket ∧ ∀ f', (w.took f n).2 = some f' → f'.socket = w.socket := by
  unfold Outgoing.took
  dsimp only
  split
  · exact ⟨.inl ⟨rfl, nofun⟩, rfl, by rintro f' ⟨⟩; rfl⟩
  · exact ⟨.inl ⟨rfl, nofun⟩, rfl, by rintro f' ⟨⟩; rfl⟩
  · obtain ⟨parts, socket, begins⟩ :=
      parts_next ((w.take f.socket (f.buffer.take (n + 1))).ended f (f.taken ++ f.buffer.take (n + 1)) false) f.tosend
    exact ⟨.inr ⟨_, rfl, parts⟩, socket, begins⟩

/-- **What a drainer begins with is on the connection it began on.** -/
theorem begun_run (script : List WriteSome) {w : Outgoing} {f : DoDrain} (here : f.socket = w.socket) :
    ∃ p : Part, p.socket = w.socket ∧ w.parts ++ [p] <+: begunIn (Outgoing.run script w f) := by
  induction script generalizing f w with
  | nil => exact ⟨f.part, here, List.prefix_rfl⟩
  | cons result script ih =>
    cases result with
    | threw =>
      refine ⟨⟨f.socket, f.message, f.taken, true⟩, here, ?_⟩
      have same : (w.threw f).parts = w.parts ++ [⟨f.socket, f.message, f.taken, true⟩] := parts_connect _
      show _ <+: (w.threw f).parts ++ []
      rw [same]
      exact List.prefix_append ..
    | took n =>
      obtain ⟨took, stays, there⟩ := parts_took w f n
      unfold Outgoing.run
      generalize w.took f n = r at took stays there
      obtain ⟨w', cur⟩ := r
      cases cur with
      | none =>
        obtain ⟨p, at_p, same⟩ := took.resolve_left fun same => same.2 rfl
        exact ⟨p, at_p.trans here, same ▸ List.prefix_append ..⟩
      | some f' =>
        obtain ⟨p', at_p', begun⟩ := ih ((there f' rfl).trans stays.symm)
        rcases took with ⟨same, -⟩ | ⟨p, at_p, same⟩
        · exact ⟨p', at_p'.trans stays, same ▸ begun⟩
        · refine ⟨p, at_p.trans here, List.IsPrefix.trans ?_ begun⟩
          rw [same]
          exact List.prefix_append ..

theorem address_suspend (handle : ℕ) (r : Outgoing × Option DoDrain) : (Outgoing.suspend handle r).address = r.1.address := by
  obtain ⟨w, cur⟩ := r
  cases cur <;> rfl

theorem begun_suspend {r : Outgoing × Option DoDrain} (none_ : r.1.drains = []) :
    (Outgoing.suspend handle r).begun = begunIn r := by
  obtain ⟨w, cur⟩ := r
  change w.drains = [] at none_
  unfold Outgoing.suspend begun begunIn
  cases cur <;> simp [none_]

/-- A `DoDrain` that writes begins behind what was put down, on the connection that there is. -/
theorem begun_doDrain (w : Outgoing) (handle : ℕ) (script : List WriteSome) (none_ : w.drains = [])
    (waits : w.messages ≠ []) : ∃ p : Part, p.socket = w.socket ∧ w.parts ++ [p] <+: (w.doDrain handle script).begun := by
  obtain ⟨parts, socket, begins⟩ := w.parts_next []
  have kept := (keeps_next w []).drains
  have some_ : (w.next []).2 ≠ none := by
    unfold Outgoing.next
    cases queue : w.messages with
    | nil => exact absurd queue waits
    | cons m tosend => nofun
  unfold doDrain
  generalize w.next [] = r at parts socket begins kept some_
  obtain ⟨w', cur⟩ := r
  cases cur with
  | none => exact absurd rfl some_
  | some f =>
    dsimp only at parts socket begins kept ⊢
    have alone := (keeps_run script w' f).drains
    rw [begun_suspend (alone.trans (kept.trans none_)), ← parts, ← socket]
    exact begun_run script ((begins f rfl).trans socket.symm)

/-- A step that minds nothing lets a message begin behind a torn one. -/
theorem Good.minds_of_orderly (good : w.Good) {act : Act} (orderly : (w.step act).Orderly) : w.Minds act := by
  cases act with
  | drain script =>
    by_contra heedless
    unfold Minds at heedless
    push Not at heedless
    obtain ⟨waits, without, torn⟩ := heedless
    cases good with
    | busy one mine inv => exact torn (inv.clear (.inr rfl))
    | idle none_ inv =>
      have connected := inv.given (Bool.eq_false_of_not_eq_true without)
      have done : w.drainerDone = true := by
        unfold drainerDone
        rw [none_]
        rfl
      have last := orderly.last
      change (w.drain script).begun.Pairwise _ at last
      unfold Outgoing.drain at last
      rw [if_pos connected, if_pos done] at last
      obtain ⟨q, at_q, begun⟩ := begun_doDrain { w with handles := w.handles + 1 } w.handles script none_ waits
      replace last := List.Pairwise.sublist begun.sublist last
      apply torn
      intro p mem torn
      have apart := (List.pairwise_append.mp last).2.2 p mem q (List.mem_singleton_self q) torn
      rwa [at_q] at apart
  | _ => trivial

/-- Every step of the run minds. -/
def Careful : Outgoing → List Act → Prop
  | _, [] => True
  | w, act :: acts => w.Minds act ∧ Careful (w.step act) acts

theorem Good.careful_iff (good : w.Good) (acts : List Act) :
    (∀ w' ∈ acts.scanl Outgoing.step w, w'.Orderly) ↔ w.Careful acts := by
  induction acts generalizing w with
  | nil =>
    rw [List.scanl_nil]
    exact ⟨fun _ => trivial, fun _ w' mem => List.mem_singleton.mp mem ▸ good.orderly⟩
  | cons act acts ih =>
    rw [List.scanl_cons, List.forall_mem_cons]
    constructor
    · rintro ⟨-, later⟩
      have next : (w.step act).Orderly := by
        apply later
        cases acts <;> simp
      have minds := good.minds_of_orderly next
      exact ⟨minds, (ih (good.step minds)).mp later⟩
    · rintro ⟨minds, careful⟩
      exact ⟨good.orderly, (ih (good.step minds)).mpr careful⟩

theorem address_doDrain (w : Outgoing) (script : List WriteSome) : (w.doDrain handle script).address = w.address := by
  have kept := keeps_next w []
  unfold doDrain
  generalize w.next [] = r at kept
  obtain ⟨w', cur⟩ := r
  cases cur with
  | none => exact kept.address
  | some f => exact (address_suspend handle _).trans (kept.trans (keeps_run script w' f)).address

theorem address_step (w : Outgoing) (act : Act) : (w.step act).address = w.address := by
  cases act with
  | send m => rfl
  | drain script =>
    show (w.drain script).address = _
    unfold Outgoing.drain
    split
    · split
      · exact address_doDrain _ script
      · rfl
    · exact (keeps_connect w).address
  | resume handle script =>
    show (w.resume handle script).address = _
    unfold Outgoing.resume
    split
    · rfl
    · exact (address_suspend handle _).trans (keeps_run script _ _).address
  | connected handle =>
    show (w.established handle).address = _
    unfold Outgoing.established
    split <;> rfl
  | refused handle =>
    show (w.refused handle).address = _
    unfold Outgoing.refused
    split <;> rfl
  | woken handle =>
    show (w.woken handle).address = _
    unfold Outgoing.woken
    split
    · dsimp only
      split <;> rfl
    · rfl

/-- A node with an address minds whatever happens. -/
theorem careful_of_address (acts : List Act) (address : w.address = true) : w.Careful acts := by
  induction acts generalizing w with
  | nil => trivial
  | cons act acts ih =>
    refine ⟨?_, ih ((w.address_step act).trans address)⟩
    cases act with
    | drain script => exact .inr (.inl address)
    | _ => trivial

/-- **Outgoing messages keep their order and boundaries** in every state of a run, exactly where no `Drain` goes on behind a
torn message; a node with an address never does. -/
theorem outgoing_orderly (address : Bool) (acts : List Act) :
    ((∀ w ∈ acts.scanl Outgoing.step (new address), w.Orderly) ↔ (new address).Careful acts) ∧
      (new true).Careful acts :=
  ⟨(good_new address).careful_iff acts, careful_of_address acts rfl⟩

/-- A client's connection takes 4 bytes of a response, then a write throws; the next response goes behind them. -/
theorem outgoing_orderly_torn :
    let first : TMessageHolder := .mk { type := 9, value := [1, 0, 0, 0, 0, 0, 0, 0, 1, 0, 0, 0, 0, 0, 0, 0] } []
    let second : TMessageHolder := .mk { type := 9, value := [2, 0, 0, 0, 0, 0, 0, 0, 2, 0, 0, 0, 0, 0, 0, 0] } []
    let acts : List Act := [.send first, .drain [.took 3], .resume 0 [.threw], .send second, .drain [.took 23]]
    (acts.foldl Outgoing.step (new false)).wire 0 = (write first).take 4 ++ write second ∧
      ¬ (acts.foldl Outgoing.step (new false)).Orderly := by
  intro first second acts
  refine ⟨by decide +kernel, fun orderly => ?_⟩
  have apart : ¬ (acts.foldl Outgoing.step (new false)).begun.Pairwise fun p q => p.Torn → p.socket ≠ q.socket := by
    decide +kernel
  exact apart orderly.last

end Outgoing

end MiniRaft
