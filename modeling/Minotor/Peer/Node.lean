import Minotor.Peer.Handler

/-!
# A peer and its goroutines

A peer runs one listener, which processes the rumors it receives one after the
other, and one goroutine for every call of `Tag`.  The atomic steps are the
sections under the handler lock, the single store and channel operations
between them, and the appending of an own rumor.  A broadcast appends the
message to the peer's own rumors and then processes it locally, in the
goroutine that broadcasts.

`history` records what the peer did; no function reads it.
-/

namespace Minotor

variable {P : Type*}

/-- What a goroutine is doing with a message. -/
inductive Job (P : Type*) where
  /-- hand a rumor to its handler -/
  | exec (r : Rumor P)
  /-- wait for room on the promise channel, holding the handler lock -/
  | send (v : PaxosValue)
  /-- marshal a promise for `source` -/
  | marshal (source : P) (draft : PromiseDraft)
  /-- broadcast a message -/
  | broadcast (msg : Message P)
deriving DecidableEq, Repr

/-- How a step of a job ends. -/
inductive Next (P : Type*) where
  | job (j : Job P)
  | done
  | failed (err : String)
deriving DecidableEq, Repr

/-- Entries of the history of a peer. -/
inductive Event (P : Type*) where
  /-- the `Tag` call `call` created `value` and the prepare message for it -/
  | prepared (call : ℕ) (msg : PaxosPrepareMessage P) (value : PaxosValue)
  | promised (source : P) (draft : PromiseDraft)
  | proposed (msg : PaxosProposeMessage)
  | accepted (msg : PaxosAcceptMessage)
  /-- a promise was counted in phase 1 -/
  | countedPromise (r : Rumor P) (msg : PaxosPromiseMessage)
  /-- the threshold of promises was reached with this choice -/
  | quorum (step id : ℕ) (value : PaxosValue)
  /-- an accept message of the current step was counted -/
  | countedAccept (r : Rumor P) (msg : PaxosAcceptMessage)
  /-- `respondToAcceptMsg` decided -/
  | decided (step : ℕ) (value : PaxosValue)
deriving DecidableEq, Repr

/-- The state of a peer that its goroutines share. -/
structure Node (P : Type*) where
  paxos : PaxosNode
  rumors : List (Message P)
  sequenceMap : P → ℕ
  run : Bool
  stopped : Bool
  history : List (Event P)

namespace Node

/-- A started peer with empty stores. -/
def new (conf : Configuration) : Node P where
  paxos := { handler := newPaxosHandler conf, storage := .new }
  rumors := []
  sequenceMap := fun _ => 0
  run := true
  stopped := false
  history := []

abbrev handler (n : Node P) : PaxosHandler := n.paxos.handler

abbrev storage (n : Node P) : Storage := n.paxos.storage

/-- The node after a handler-only operation. -/
def withHandler (n : Node P) (h : PaxosHandler) : Node P :=
  { n with paxos := { n.paxos with handler := h } }

def withPaxos (n : Node P) (px : PaxosNode) : Node P :=
  { n with paxos := px }

def record (n : Node P) (es : List (Event P)) : Node P :=
  { n with history := es ++ n.history }

/-- The node after its own rumor `msg` has been appended. -/
def append [DecidableEq P] (n : Node P) (self : P) (msg : Message P) : Node P :=
  { n with
    rumors := n.rumors ++ [msg]
    sequenceMap := Function.update n.sequenceMap self (n.rumors.length + 1) }

section

variable (n : Node P) (h : PaxosHandler) (px : PaxosNode) (es : List (Event P))

@[simp] theorem withHandler_paxos :
    (n.withHandler h).paxos = { n.paxos with handler := h } := rfl

@[simp] theorem withHandler_rumors : (n.withHandler h).rumors = n.rumors := rfl

@[simp] theorem withHandler_sequenceMap :
    (n.withHandler h).sequenceMap = n.sequenceMap := rfl

@[simp] theorem withHandler_history : (n.withHandler h).history = n.history := rfl

@[simp] theorem withPaxos_paxos : (n.withPaxos px).paxos = px := rfl

@[simp] theorem withPaxos_rumors : (n.withPaxos px).rumors = n.rumors := rfl

@[simp] theorem withPaxos_sequenceMap :
    (n.withPaxos px).sequenceMap = n.sequenceMap := rfl

@[simp] theorem withPaxos_history : (n.withPaxos px).history = n.history := rfl

@[simp] theorem record_paxos : (n.record es).paxos = n.paxos := rfl

@[simp] theorem record_rumors : (n.record es).rumors = n.rumors := rfl

@[simp] theorem record_sequenceMap : (n.record es).sequenceMap = n.sequenceMap := rfl

@[simp] theorem record_history : (n.record es).history = es ++ n.history := rfl

variable [DecidableEq P] (self : P) (msg : Message P)

@[simp] theorem append_paxos : (n.append self msg).paxos = n.paxos := rfl

@[simp] theorem append_rumors : (n.append self msg).rumors = n.rumors ++ [msg] := rfl

@[simp] theorem append_sequenceMap :
    (n.append self msg).sequenceMap =
      Function.update n.sequenceMap self (n.rumors.length + 1) := rfl

@[simp] theorem append_history : (n.append self msg).history = n.history := rfl

end

/-! ## Processing a message -/

/-- `ExecPaxosPrepareMessage`. -/
def execPaxosPrepareMessage (n : Node P) (msg : PaxosPrepareMessage P) :
    Node P × Next P :=
  match n.handler.respondToPrepareMsg msg with
  | (none, h) => (n.withHandler h, .done)
  | (some draft, h) =>
      ((n.withHandler h).record [.promised msg.source draft],
        .job (.marshal msg.source draft))

/-- `ExecPaxosProposeMessage`. -/
def execPaxosProposeMessage (n : Node P) (msg : PaxosProposeMessage) :
    Node P × Next P :=
  match n.handler.respondToProposeMsg msg with
  | (none, h) => (n.withHandler h, .done)
  | (some accept, h) =>
      ((n.withHandler h).record [.accepted accept],
        .job (.broadcast (.accept accept)))

/-- `ExecPaxosPromiseMessage`. -/
def execPaxosPromiseMessage (n : Node P) (r : Rumor P)
    (msg : PaxosPromiseMessage) : Node P × Next P :=
  let counted : Event P := .countedPromise r msg
  let quorum (v : PaxosValue) : Event P :=
    .quorum n.handler.step n.handler.paxosID v
  match n.handler.respondToPromiseMsg msg with
  | .ignored => (n, .done)
  | .counted h => ((n.withHandler h).record [counted], .done)
  | .chosen h v => ((n.withHandler h).record [quorum v, counted], .done)
  | .blocks h v => ((n.withHandler h).record [quorum v, counted], .job (.send v))
  | .panics h =>
      ((n.withHandler h).record [counted],
        .failed "failed to call handler: invalid memory address or nil pointer dereference")

/-- The entries for an accept message: it is counted, and it may decide. -/
def acceptEvents (n : Node P) (r : Rumor P) (msg : PaxosAcceptMessage)
    (tlc : Option TLCMessage) : List (Event P) :=
  if n.handler.step = msg.step then
    match tlc with
    | some _ => [.decided msg.step msg.value, .countedAccept r msg]
    | none => [.countedAccept r msg]
  else []

/-- `ExecPaxosAcceptMessage`. -/
def execPaxosAcceptMessage (sha256 : Bytes → Bytes) (conf : Configuration)
    (n : Node P) (r : Rumor P) (msg : PaxosAcceptMessage) : Node P × Next P :=
  match n.paxos.respondToAcceptMsg sha256 conf msg with
  | (none, px) => ((n.withPaxos px).record (n.acceptEvents r msg none), .done)
  | (some tlc, px) =>
      ((n.withPaxos px).record (n.acceptEvents r msg (some tlc)),
        .job (.broadcast (.tlc tlc)))

/-- `ExecTLCMessage`. -/
def execTLCMessage (conf : Configuration) (n : Node P) (msg : TLCMessage) :
    Node P × Next P :=
  match n.paxos.respondToTLCMsg conf msg with
  | (true, px) => (n.withPaxos px, .done)
  | (false, px) => (n.withPaxos px, .job (.broadcast (.tlc msg)))

variable [DecidableEq P]

/-- `ProcessPacket` on a rumor.  A promise for another peer is ignored by
`ExecPrivateMessage`; every other message needs the handler lock. -/
def processRumor (sha256 : Bytes → Bytes) (conf : Configuration) (self : P)
    (n : Node P) (r : Rumor P) : Option (Node P × Next P) :=
  match r.msg with
  | .promise recipient msg =>
      if recipient = self then
        if n.handler.locked then none else some (n.execPaxosPromiseMessage r msg)
      else some (n, .done)
  | .prepare msg =>
      if n.handler.locked then none else some (n.execPaxosPrepareMessage msg)
  | .propose msg =>
      if n.handler.locked then none else some (n.execPaxosProposeMessage msg)
  | .accept msg =>
      if n.handler.locked then none
      else some (n.execPaxosAcceptMessage sha256 conf r msg)
  | .tlc msg =>
      if n.handler.locked then none else some (n.execTLCMessage conf msg)

/-- One step of a job.  Marshalling reads the accepted value through the
pointer of the draft; a broadcast message is then processed locally. -/
def runJob (sha256 : Bytes → Bytes) (conf : Configuration) (self : P)
    (n : Node P) : Job P → Option (Node P × Next P)
  | .exec r => n.processRumor sha256 conf self r
  | .send v =>
      (n.handler.sendPromise v).map fun h =>
        (n.withHandler { h with locked := false }, .done)
  | .marshal source draft =>
      some (n, .job (.broadcast (.promise source
        { step := draft.step
          id := draft.id
          acceptedID := draft.acceptedID
          acceptedValue :=
            if draft.pointsToAccepted then some n.handler.acceptedValue else none })))
  | .broadcast msg =>
      some (n.append self msg,
        .job (.exec { origin := self, sequence := n.rumors.length + 1, msg := msg }))

end Node
end Minotor
