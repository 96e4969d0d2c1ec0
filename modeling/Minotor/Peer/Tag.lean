import Minotor.Peer.Node

/-!
# Calls of `Tag`

The control flow of `Tag`, `PaxosPhase1` and `PaxosPhase2` in
`peer/impl/datasharing.go`, with one program point before every operation on
shared state.  The recursive calls of `Tag` are in tail position and go back to
its first program point.
-/

namespace Minotor

variable {P : Type*}

/-- Program points of `Tag`.  `start` is `startingStep`; `prep` is the last
prepare message. -/
inductive TagPc (P : Type*) where
  /-- `storedName := store.Get(name)` -/
  | lookup
  /-- `store.Set(name, []byte(mh))` without other peers -/
  | setName
  /-- `n.paxosHandler.initPaxosInstance()` -/
  | initInstance
  /-- `<-instanceChannel` -/
  | awaitInstance (ch : ℕ)
  /-- `startingStep := n.paxosHandler.getStep()` -/
  | readStart
  /-- `step := n.paxosHandler.getStep()` -/
  | readStep (start : ℕ)
  /-- `storedName = store.Get(name)` after the step has changed -/
  | lookupAgain
  /-- `n.paxosHandler.createPrepareMessage(myAddr, proposedValue)` -/
  | prepare (start : ℕ)
  /-- `n.paxosHandler.getPromiseChannel()` -/
  | promiseChan (start : ℕ) (prep : PaxosPrepareMessage P)
  /-- `n.Broadcast(transportPrepareMsg)` -/
  | sendPrepare (start : ℕ) (prep : PaxosPrepareMessage P) (ch : ℕ) (job : Job P)
  /-- the select of `PaxosPhase1` -/
  | awaitPromise (start : ℕ) (prep : PaxosPrepareMessage P) (ch : ℕ)
  /-- `n.paxosHandler.nextID()` in `PaxosPhase1` -/
  | retryPrepare (start : ℕ)
  /-- `n.paxosHandler.createProposeMessage(value)` -/
  | propose (start : ℕ) (prep : PaxosPrepareMessage P) (value : PaxosValue)
  /-- `n.paxosHandler.getValueChannel()` -/
  | valueChan (start : ℕ) (msg : PaxosProposeMessage)
  /-- `n.Broadcast(transportProposeMsg)` -/
  | sendPropose (start : ℕ) (msg : PaxosProposeMessage) (ch : ℕ) (job : Job P)
  /-- the select of `PaxosPhase2` -/
  | awaitValue (start : ℕ) (ch : ℕ)
  /-- `n.paxosHandler.getFinalValue()` -/
  | readFinal (start : ℕ)
  /-- `n.paxosHandler.nextID()` in `PaxosPhase2` -/
  | retryPropose (start : ℕ)
  /-- `Tag` returned; `none` is a nil error -/
  | returned (err : Option String)
deriving DecidableEq, Repr

/-- A call of `Tag`. -/
structure TagCall (P : Type*) where
  name : String
  mh : String
  pc : TagPc P
deriving DecidableEq, Repr

/-- What the environment decides in a step of a call: the identifier drawn
from `xid.New`, or the ready branch which a select takes. -/
inductive Choice where
  | run
  | fresh (uniqID : String)
  | recv
  | tick
  | stop
deriving DecidableEq, Repr

namespace TagPc

/-- The message a call is processing, if it is in a broadcast. -/
def job? : TagPc P → Option (Job P)
  | .sendPrepare _ _ _ job => some job
  | .sendPropose _ _ _ job => some job
  | _ => none

/-- The program point with its broadcast replaced. -/
def withNext (pc : TagPc P) (next : Next P) : TagPc P :=
  match pc, next with
  | .sendPrepare start prep ch _, .job job => .sendPrepare start prep ch job
  | .sendPrepare start prep ch _, .done => .awaitPromise start prep ch
  | .sendPropose start msg ch _, .job job => .sendPropose start msg ch job
  | .sendPropose start _ ch _, .done => .awaitValue start ch
  | _, .failed err => .returned (some err)
  | pc, _ => pc

end TagPc

namespace TagCall

/-- The value matches the request of the call. -/
def Matches (call : TagCall P) (v : PaxosValue) : Prop :=
  v.filename = call.name ∧ v.metahash = call.mh

instance (call : TagCall P) (v : PaxosValue) : Decidable (call.Matches v) := by
  unfold Matches
  infer_instance

/-- One step of the call number `i` outside a broadcast.  A step on the
handler needs its lock. -/
def stepOwn (conf : Configuration) (self : P) (i : ℕ) (n : Node P)
    (call : TagCall P) (c : Choice) : Option (Node P × TagPc P) :=
  match call.pc, c with
  | .lookup, .run =>
      match n.storage.naming.get call.name with
      | some _ => some (n, .returned (some ("already existing name : " ++ call.name)))
      | none => some (n, if conf.totalPeers ≤ 1 then .setName else .initInstance)
  | .setName, .run =>
      some ({ n with paxos := { n.paxos with storage := { n.storage with
        naming := n.storage.naming.set call.name call.mh } } }, .returned none)
  | .initInstance, .run =>
      if n.handler.locked then none
      else
        match n.handler.initPaxosInstance with
        | (some ch, h) => some (n.withHandler h, .awaitInstance ch)
        | (none, h) => some (n.withHandler h, .readStart)
  | .awaitInstance ch, .recv =>
      if (n.handler.instanceChans ch).closed then some (n, .initInstance) else none
  | .readStart, .run =>
      if n.handler.locked then none else some (n, .readStep n.handler.step)
  | .readStep start, .run =>
      if n.handler.locked then none
      else some (n, if start ≠ n.handler.step then .lookupAgain else .prepare start)
  | .lookupAgain, .run =>
      match n.storage.naming.get call.name with
      | some _ => some (n, .returned none)
      | none => some (n, .lookup)
  | .prepare start, .fresh uniqID =>
      if n.handler.locked then none
      else
        let value : PaxosValue := ⟨uniqID, call.name, call.mh⟩
        let (msg, h) := n.handler.createPrepareMessage self value
        some ((n.withHandler h).record [.prepared i msg value], .promiseChan start msg)
  | .promiseChan start prep, .run =>
      if n.handler.locked then none
      else some (n, .sendPrepare start prep n.handler.promiseChannel
        (.broadcast (.prepare prep)))
  | .awaitPromise start prep ch, .recv =>
      match n.handler.recvPromise ch with
      | some (value, h) =>
          some (n.withHandler h,
            if value = .empty then .returned none else .propose start prep value)
      | none => none
  | .awaitPromise start _ _, .tick => some (n, .retryPrepare start)
  | .retryPrepare start, .run =>
      if n.handler.locked then none
      else some (n.withHandler n.handler.nextID, .prepare start)
  | .propose start _ value, .run =>
      if n.handler.locked then none
      else
        let msg := n.handler.createProposeMessage value
        some (n.record [.proposed msg], .valueChan start msg)
  | .valueChan start msg, .run =>
      if n.handler.locked then none
      else some (n, .sendPropose start msg n.handler.valueChannel
        (.broadcast (.propose msg)))
  | .awaitValue _ ch, .recv =>
      match n.handler.recvValue ch with
      | some (finalValue, h) =>
          some (n.withHandler h,
            if call.Matches finalValue then .returned none else .lookup)
      | none => none
  | .awaitValue start _, .tick => some (n, .readFinal start)
  | .readFinal start, .run =>
      if n.handler.locked then none
      else
        some (n,
          if n.handler.finalValue ≠ .empty then
            if call.Matches n.handler.finalValue then .returned none else .lookup
          else .retryPropose start)
  | .retryPropose start, .run =>
      if n.handler.locked then none
      else some (n.withHandler n.handler.nextID, .readStep start)
  | .awaitInstance _, .stop => if n.stopped then some (n, .returned none) else none
  | .awaitPromise _ _ _, .stop => if n.stopped then some (n, .returned none) else none
  | .awaitValue _ _, .stop => if n.stopped then some (n, .returned none) else none
  | _, _ => none

end TagCall
end Minotor
