import Minotor.Support.Chan
import Minotor.Support.Runs
import Minotor.Transport.Udp
import Mathlib.Logic.Function.Basic

/-!
# Channel sockets

`transport/channel`, the transport within one process, and the traffic which
`internal/traffic` logs for it.  Any number of transports, sockets and calls of `Send`
and `Recv` share the counters of the process.

A call takes one step for each of its critical sections, atomic increments and channel
operations, so that calls interleave between them.  Which of the ready cases of a
`select` is taken is up to the action.
-/

namespace Minotor.Channel

open Minotor.Transport (Packet add)

/-- `math.MaxInt64`. -/
def maxInt64 : ℤ := 9223372036854775807

/-- The types of an item: `rcv` and `sent`. -/
inductive TypeStr where
  | rcv
  | sent
deriving DecidableEq

/-- `traffic.item`. -/
structure Item where
  relayedBy : String
  dest : String
  typeStr : TypeStr
  pkt : Packet
  globalCounter : ℕ
  typeCounter : ℕ
deriving DecidableEq

/-- `Transport`, with its traffic.  Channels are named by their places in a list. -/
structure Transport where
  incomings : String → Option ℕ
  traffic : List Item

/-- `NewTransport`. -/
def Transport.new : Transport := ⟨fun _ => none, []⟩

/-- `Socket`; the transport is named by its place. -/
structure Socket where
  transport : ℕ
  myAddr : String
  ins : List Packet
  outs : List Packet

inductive Error where
  | notListening (dest : String)
  /-- `transport.TimeoutError` -/
  | timeout (d : ℤ)
deriving DecidableEq

/-- Where a call of `Send` is. -/
inductive SendPoint where
  | lookup
  /-- the channel, the copy which is offered, the timeout and when it is over -/
  | select (c : ℕ) (offered : Packet) (timeout expires : ℤ)
  | addOut
  | count
  | log (relayedBy : String) (typeCounter : ℕ)
  | returned (err : Option Error)
  | panicked
deriving DecidableEq

/-- Where a call of `Recv` is. -/
inductive RecvPoint where
  | lookup
  /-- the channel, which is nil if the socket has none, and when the timeout is over -/
  | select (myChan : Option ℕ) (expires : ℤ)
  | count (pkt : Packet)
  | log (pkt : Packet) (relayedBy : String) (typeCounter : ℕ)
  | addIn (pkt : Packet)
  | returned (res : Except Error Packet)
  | panicked

/-- A call on a socket with its arguments. -/
inductive Call where
  | send (s : ℕ) (dest : String) (pkt : Packet) (timeout : ℤ) (point : SendPoint)
  | recv (s : ℕ) (timeout : ℤ) (point : RecvPoint)

structure State where
  now : ℤ
  /-- of the ports which were given out -/
  counter : UInt32
  sendCounter : ℕ
  recvCounter : ℕ
  globalCounter : ℕ
  chans : List (Chan Packet)
  transports : List Transport
  sockets : List Socket
  calls : List Call

inductive Action where
  | newTransport
  | createSocket (t : ℕ) (address : String)
  | close (s : ℕ)
  | send (s : ℕ) (dest : String) (pkt : Packet) (timeout : ℤ)
  | recv (s : ℕ) (timeout : ℤ)
  /-- a call takes its next step, other than by its timer -/
  | run (i : ℕ)
  /-- the timer of a call fires -/
  | expire (i : ℕ)
  | tick (d : ℕ)

/-- The port at the end of an address which asks for a free one. -/
def freePort : List Char := [':', '0']

/-- An address which asks for a free port. -/
def AsksForPort (address : String) : Prop := freePort.isSuffixOf address.toList = true

instance (address : String) : Decidable (AsksForPort address) :=
  inferInstanceAs (Decidable (_ = true))

/-- The address of a socket for an address which may end in port 0, and the counter. -/
def assign (counter : UInt32) (address : String) : UInt32 × String :=
  if AsksForPort address then
    let address := String.ofList (address.toList.take (address.length - 2))
    let port := counter + 1
    (port, address ++ ":" ++ toString port.toNat)
  else (counter, address)

namespace State

def empty : State where
  now := 0
  counter := 0
  sendCounter := 0
  recvCounter := 0
  globalCounter := 0
  chans := []
  transports := []
  sockets := []
  calls := []

/-- `CreateSocket`. -/
def createSocket (st : State) (t : ℕ) (address : String) : Option State :=
  st.transports[t]?.map fun tr =>
    let (counter, address) := assign st.counter address
    { st with
      counter := counter
      chans := st.chans ++ [Chan.make 100]
      transports := st.transports.set t
        { tr with incomings := Function.update tr.incomings address (some st.chans.length) }
      sockets := st.sockets ++ [⟨t, address, [], []⟩] }

/-- `Close`. -/
def close (st : State) (s : ℕ) : Option State := do
  let sock ← st.sockets[s]?
  let tr ← st.transports[sock.transport]?
  some { st with
    transports := st.transports.set sock.transport
      { tr with incomings := Function.update tr.incomings sock.myAddr none } }

/-- `addItem` of the traffic of a transport. -/
def addItem (st : State) (t : ℕ) (typeStr : TypeStr) (relayedBy dest : String) (pkt : Packet)
    (counter : ℕ) : Option State :=
  st.transports[t]?.map fun tr =>
    { st with
      globalCounter := st.globalCounter + 1
      transports := st.transports.set t
        { tr with traffic := tr.traffic ++
            [⟨relayedBy, dest, typeStr, pkt, st.globalCounter + 1, counter⟩] } }

/-- The next step of a call of `Send`. -/
def runSend (st : State) (s : ℕ) (dest : String) (pkt : Packet) (timeout : ℤ) :
    SendPoint → Option (State × SendPoint)
  | .lookup => do
      let sock ← st.sockets[s]?
      let tr ← st.transports[sock.transport]?
      match tr.incomings dest with
      | none => some (st, .returned (some (.notListening dest)))
      | some c =>
          let timeout := if timeout = 0 then maxInt64 else timeout
          match pkt.copy with
          | none => some (st, .panicked)
          | some offered => some (st, .select c offered timeout (st.now + timeout))
  | .select c offered _ _ => do
      let ch ← st.chans[c]?
      if h : ch.Ready then
        some ({ st with chans := st.chans.set c (ch.send offered h) }, .addOut)
      else none
  | .addOut => do
      let sock ← st.sockets[s]?
      match add sock.outs pkt with
      | none => some (st, .panicked)
      | some outs =>
          some ({ st with sockets := st.sockets.set s { sock with outs := outs } }, .count)
  | .count =>
      match pkt.header with
      | none => some (st, .panicked)
      | some h =>
          some ({ st with sendCounter := st.sendCounter + 1 },
            .log h.relayedBy (st.sendCounter + 1))
  | .log relayedBy n => do
      let sock ← st.sockets[s]?
      let st' ← st.addItem sock.transport .sent relayedBy dest pkt n
      some (st', .returned none)
  | .returned _ => none
  | .panicked => none

/-- The next step of a call of `Recv`. -/
def runRecv (st : State) (s : ℕ) (timeout : ℤ) : RecvPoint → Option (State × RecvPoint)
  | .lookup => do
      let sock ← st.sockets[s]?
      let tr ← st.transports[sock.transport]?
      some (st, .select (tr.incomings sock.myAddr) (st.now + timeout))
  | .select none _ => none
  | .select (some myChan) _ => do
      let ch ← st.chans[myChan]?
      match ch.recv with
      | none => none
      -- the zero value of a closed channel has no header
      | some (none, _) => some (st, .panicked)
      | some (some pkt, ch') => some ({ st with chans := st.chans.set myChan ch' }, .count pkt)
  | .count pkt =>
      match pkt.header with
      | none => some (st, .panicked)
      | some h =>
          some ({ st with recvCounter := st.recvCounter + 1 },
            .log pkt h.relayedBy (st.recvCounter + 1))
  | .log pkt relayedBy n => do
      let sock ← st.sockets[s]?
      let st' ← st.addItem sock.transport .rcv relayedBy sock.myAddr pkt n
      some (st', .addIn pkt)
  | .addIn pkt => do
      let sock ← st.sockets[s]?
      match add sock.ins pkt with
      | none => some (st, .panicked)
      | some ins =>
          some ({ st with sockets := st.sockets.set s { sock with ins := ins } },
            .returned (.ok pkt))
  | .returned _ => none
  | .panicked => none

/-- A call takes its next step. -/
def runCall (st : State) : Call → Option (State × Call)
  | .send s dest pkt timeout point =>
      (st.runSend s dest pkt timeout point).map fun (st', point') =>
        (st', .send s dest pkt timeout point')
  | .recv s timeout point =>
      (st.runRecv s timeout point).map fun (st', point') => (st', .recv s timeout point')

/-- The timer of a call fires. -/
def expireCall (st : State) : Call → Option Call
  | .send s dest pkt timeout (.select _ _ d expires) =>
      if expires ≤ st.now then
        some (.send s dest pkt timeout (.returned (some (.timeout d))))
      else none
  | .recv s timeout (.select _ expires) =>
      if expires ≤ st.now then some (.recv s timeout (.returned (.error (.timeout timeout))))
      else none
  | _ => none

/-- A new call on a socket. -/
def call (st : State) (s : ℕ) (c : Call) : Option State :=
  if s < st.sockets.length then some { st with calls := st.calls ++ [c] } else none

def next (st : State) : Action → Option State
  | .newTransport => some { st with transports := st.transports ++ [.new] }
  | .createSocket t address => st.createSocket t address
  | .close s => st.close s
  | .send s dest pkt timeout => st.call s (.send s dest pkt timeout .lookup)
  | .recv s timeout => st.call s (.recv s timeout .lookup)
  | .run i => do
      let c ← st.calls[i]?
      let (st', c') ← st.runCall c
      some { st' with calls := st'.calls.set i c' }
  | .expire i => do
      let c ← st.calls[i]?
      let c' ← st.expireCall c
      some { st with calls := st.calls.set i c' }
  | .tick d => some { st with now := st.now + d }

end State

/-- The transition system of channel sockets in one process. -/
def process : TransitionSystem State Action where
  init := .empty
  next := State.next

/-- `getAll`: copies of the packets; a nil pointer is a panic. -/
def getAll (data : List Packet) : Option (List Packet) := data.mapM Packet.copy

/-- A packet from one socket to another. -/
def samplePacket : Packet := ⟨some ⟨"1", 0, 0, "A", "A", "B"⟩, some ⟨"chat", some []⟩⟩

/-- Two sockets, one packet sent and received, one sent. -/
def sampleRun : List Action :=
  [.newTransport, .createSocket 0 "A", .createSocket 0 "B", .send 0 "B" samplePacket 0, .recv 1 5,
   .run 1, .run 0, .run 0, .run 1, .run 0, .run 1, .run 0, .run 1, .run 0, .run 1]

end Minotor.Channel
