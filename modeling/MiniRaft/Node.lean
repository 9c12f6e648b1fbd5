import Mathlib.Logic.Function.Basic
import MiniRaft.Wire

/-!
# Outgoing messages (`TNode`)

A node sends on one connection at a time. `DoDrain` runs until a `WriteSome` has to wait or there is nothing more to write;
a script says what the calls of `WriteSome` before that come to. `DoConnect` waits in every attempt. The frames of the
coroutines are kept beside the node, as what the handles lead to, and what the connections took beside both.
-/

namespace MiniRaft

open TMessageHolder

namespace TMessageHolder

mutual

/-- What `TMessageWriter::Write` gives to `TByteWriter::Write`, one after the other. -/
def buffers : TMessageHolder → List (List UInt8)
  | .mk message payload => message.bytes :: buffersAll payload

def buffersAll : List TMessageHolder → List (List UInt8)
  | [] => []
  | m :: ms => buffers m ++ buffersAll ms

end

end TMessageHolder

/-- What a call of `WriteSome` comes to: it took up to `n + 1` bytes, or threw. -/
inductive WriteSome where
  | took (n : ℕ)
  | threw
  deriving DecidableEq, Repr

/-- `DoDrain` where it waits in `WriteSome`: for which connection, the message with the bytes of it that were taken, the rest of
the buffer, the buffers behind it, and what is left of `tosend`. -/
structure DoDrain where
  socket : ℕ
  message : TMessageHolder
  taken : List UInt8
  buffer : List UInt8
  buffers : List (List UInt8)
  tosend : List TMessageHolder

/-- `DoConnect` where it waits. -/
inductive DoConnect where
  | connecting
  | sleeping
  deriving DecidableEq, Repr

/-- A message whose writing has begun: on which connection, the bytes of it that were taken, and whether a write of it threw. -/
structure Part where
  socket : ℕ
  message : TMessageHolder
  bytes : List UInt8
  failed : Bool

/-- `TNode`; the connections are numbered, and `Socket` is the number of one. -/
structure TNode where
  address : Bool
  socket : ℕ
  connected : Bool
  drainer : Option ℕ
  connector : Option ℕ
  messages : List TMessageHolder

/-- The node among what it works with: the frames that its handles lead to, the numbers that are used up, what each connection
took, all that was sent, and the messages whose writing has ended. -/
structure Outgoing extends TNode where
  drains : List (ℕ × DoDrain)
  connects : List (ℕ × DoConnect)
  handles : ℕ
  sockets : ℕ
  wire : ℕ → List UInt8
  sent : List TMessageHolder
  parts : List Part

namespace Outgoing

/-- The two constructors: a node with an address connects, one without is given its connection. -/
def new (address : Bool) : Outgoing where
  address := address
  socket := 0
  connected := !address
  drainer := none
  connector := none
  messages := []
  drains := []
  connects := []
  handles := 0
  sockets := 0
  wire := fun _ => []
  sent := []
  parts := []

/-- `!Drainer || Drainer.done()`. -/
def drainerDone (w : Outgoing) : Bool := w.drains.all fun frame => w.drainer ≠ some frame.1

/-- `!Connector || Connector.done()`. -/
def connectorDone (w : Outgoing) : Bool := w.connects.all fun frame => w.connector ≠ some frame.1

/-- An attempt of `DoConnect`, as far as its `Connect`. -/
def attempt (w : Outgoing) (handle : ℕ) : Outgoing :=
  { w with
    socket := w.sockets + 1
    sockets := w.sockets + 1
    connects := (handle, .connecting) :: w.connects }

/-- `Connect`, with `DoConnect` until it waits. -/
def connect (w : Outgoing) : Outgoing :=
  if w.address && w.connectorDone then
    attempt { w with
      connected := false
      connector := some w.handles
      handles := w.handles + 1 } w.handles
  else w

/-- `DoDrain` at the first `WriteSome` of a message. -/
def begin (w : Outgoing) (m : TMessageHolder) (tosend : List TMessageHolder) : DoDrain where
  socket := w.socket
  message := m
  taken := []
  buffer := m.message.bytes
  buffers := buffersAll m.payload
  tosend := tosend

/-- The loops of `DoDrain`, from between two messages on: it waits in a `WriteSome` or is done. -/
def next (w : Outgoing) : List TMessageHolder → Outgoing × Option DoDrain
  | m :: tosend => (w, some (w.begin m tosend))
  | [] =>
    match w.messages with
    | [] => (w, none)
    | m :: tosend => ({ w with messages := [] }, some (w.begin m tosend))

/-- A connection takes bytes. -/
def take (w : Outgoing) (socket : ℕ) (bytes : List UInt8) : Outgoing :=
  { w with wire := Function.update w.wire socket (w.wire socket ++ bytes) }

/-- The writing of a message has ended. -/
def ended (w : Outgoing) (f : DoDrain) (taken : List UInt8) (failed : Bool) : Outgoing :=
  { w with parts := w.parts ++ [⟨f.socket, f.message, taken, failed⟩] }

/-- `WriteSome` took bytes: `DoDrain` goes on in the buffer, or in the next one, or with the next message. -/
def took (w : Outgoing) (f : DoDrain) (n : ℕ) : Outgoing × Option DoDrain :=
  let taken := f.taken ++ f.buffer.take (n + 1)
  let w := w.take f.socket (f.buffer.take (n + 1))
  match f.buffer.drop (n + 1), f.buffers with
  | b :: buffer, buffers => (w, some { f with
      socket := w.socket
      taken := taken
      buffer := b :: buffer
      buffers := buffers })
  | [], buffer :: buffers => (w, some { f with
      socket := w.socket
      taken := taken
      buffer := buffer
      buffers := buffers })
  | [], [] => (w.ended f taken false).next f.tosend

/-- `WriteSome` threw: the handler of `DoDrain`, whose `tosend` is gone. -/
def threw (w : Outgoing) (f : DoDrain) : Outgoing := (w.ended f f.taken true).connect

/-- `DoDrain` as far as the script goes. -/
def run : List WriteSome → Outgoing → DoDrain → Outgoing × Option DoDrain
  | [], w, f => (w, some f)
  | .threw :: _, w, f => (w.threw f, none)
  | .took n :: script, w, f =>
    match w.took f n with
    | (w, none) => (w, none)
    | (w, some f) => run script w f

/-- The frame stays, unless it has come to its end. -/
def suspend (handle : ℕ) : Outgoing × Option DoDrain → Outgoing
  | (w, none) => w
  | (w, some f) => { w with drains := (handle, f) :: w.drains }

/-- A call of `DoDrain`. -/
def doDrain (w : Outgoing) (handle : ℕ) (script : List WriteSome) : Outgoing :=
  match w.next [] with
  | (w, none) => w
  | (w, some f) => suspend handle (run script w f)

/-- `Drain`. -/
def drain (w : Outgoing) (script : List WriteSome) : Outgoing :=
  if w.connected then
    if w.drainerDone then
      { doDrain { w with handles := w.handles + 1 } w.handles script with drainer := some w.handles }
    else w
  else w.connect

/-- `Send`. -/
def send (w : Outgoing) (m : TMessageHolder) : Outgoing :=
  { w with
    messages := w.messages ++ [m]
    sent := w.sent ++ [m] }

/-- The `WriteSome` that a frame waits in comes to its end. -/
def resume (w : Outgoing) (handle : ℕ) (script : List WriteSome) : Outgoing :=
  match w.drains.lookup handle with
  | none => w
  | some f => suspend handle (run script { w with drains := w.drains.filter (·.1 ≠ handle) } f)

/-- The `Connect` that a frame waits in has connected. -/
def established (w : Outgoing) (handle : ℕ) : Outgoing :=
  match w.connects.lookup handle with
  | some .connecting => { w with
      connected := true
      connects := w.connects.filter (·.1 ≠ handle) }
  | _ => w

/-- The `Connect` that a frame waits in throws: `DoConnect` sleeps. -/
def refused (w : Outgoing) (handle : ℕ) : Outgoing :=
  match w.connects.lookup handle with
  | some .connecting =>
    let connects := w.connects.filter (·.1 ≠ handle)
    { w with connects := if w.connected then connects else (handle, .sleeping) :: connects }
  | _ => w

/-- The `Sleep` that a frame waits in is over: `DoConnect` makes its next attempt. -/
def woken (w : Outgoing) (handle : ℕ) : Outgoing :=
  match w.connects.lookup handle with
  | some .sleeping =>
    let w := { w with connects := w.connects.filter (·.1 ≠ handle) }
    if w.connected then w else w.attempt handle
  | _ => w

end Outgoing

/-- What can happen to a node. -/
inductive Act where
  | send (m : TMessageHolder)
  | drain (script : List WriteSome)
  | resume (handle : ℕ) (script : List WriteSome)
  | connected (handle : ℕ)
  | refused (handle : ℕ)
  | woken (handle : ℕ)

/-- One step; what a handle does not lead to does not happen. -/
def Outgoing.step (w : Outgoing) : Act → Outgoing
  | .send m => w.send m
  | .drain script => w.drain script
  | .resume handle script => w.resume handle script
  | .connected handle => w.established handle
  | .refused handle => w.refused handle
  | .woken handle => w.woken handle

end MiniRaft
