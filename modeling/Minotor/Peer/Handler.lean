import Minotor.Storage
import Minotor.Support.Chan
import Mathlib.Logic.Function.Basic

/-!
# The Paxos handler of a peer

The functions of `peer/impl/paxosHandler.go`, each one atomic section under
the handler lock.  A channel is a reference into the cells of the channels the
handler has made; a reference held by a proposer stays valid after the handler
has moved on to a new channel.
-/

namespace Minotor

/-- What the handler reads of `peer.Configuration`. -/
structure Configuration where
  totalPeers : ℕ
  paxosThreshold : ℕ → ℕ
  paxosID : ℕ
  threshold_pos : ∀ n, 0 < paxosThreshold n

/-- `uint(conf.PaxosThreshold(conf.TotalPeers))`. -/
def Configuration.threshold (conf : Configuration) : ℕ :=
  conf.paxosThreshold conf.totalPeers

/-- The configuration in which a majority of the peers is needed. -/
def Configuration.majority (totalPeers paxosID : ℕ) : Configuration where
  totalPeers := totalPeers
  paxosThreshold n := n / 2 + 1
  paxosID := paxosID
  threshold_pos n := Nat.succ_pos (n / 2)

theorem Configuration.one_le_threshold (conf : Configuration) :
    1 ≤ conf.threshold :=
  conf.threshold_pos _

/-- `paxosPhase1` and `paxosPhase2`. -/
inductive Phase where
  | phase1
  | phase2
deriving DecidableEq, Repr

/-- `TLCMap`: the buffered TLC messages in order of arrival. -/
abbrev TLCMap := List TLCMessage

/-- `TLCMap[step]`. -/
def TLCMap.at (m : TLCMap) (step : ℕ) : List TLCMessage :=
  m.filter fun msg => msg.step = step

/-- A promise channel: one slot, never closed. -/
def Chan.IsPromiseChan (c : Chan PaxosValue) : Prop :=
  c.closed = false ∧ c.cap = 1

/-- `paxosHandler`.  `locked` is the handler lock between two atomic sections:
it is held only by a promise handler waiting for room on its channel.  The
current value and instance channels are as they were made. -/
structure PaxosHandler where
  locked : Bool
  running : Bool
  step : ℕ
  maxID : ℕ
  bestID : ℕ
  acceptedID : ℕ
  promises : ℕ
  currentPhase : Phase
  paxosID : ℕ
  nPeers : ℕ
  threshold : ℕ
  bestValue : PaxosValue
  acceptedValue : PaxosValue
  proposedValue : PaxosValue
  finalValue : PaxosValue
  acceptedValues : PaxosValue → ℕ
  tlcMap : TLCMap
  promiseChannel : ℕ
  valueChannel : ℕ
  instanceChannel : ℕ
  promiseChans : ℕ → Chan PaxosValue
  valueChans : ℕ → Chan PaxosValue
  instanceChans : ℕ → Chan Unit
  promiseChan : ∀ ch, (promiseChans ch).IsPromiseChan
  valueFresh : valueChans valueChannel = Chan.make 1
  instanceFresh : instanceChans instanceChannel = Chan.make 0

/-- A promise as `respondToPrepareMsg` returns it.  Its accepted value is a
pointer to the field of the handler, read when the promise is marshalled. -/
structure PromiseDraft where
  step : ℕ
  id : ℕ
  acceptedID : ℕ
  pointsToAccepted : Bool
deriving DecidableEq, Repr

/-- How `respondToPromiseMsg` ends: the promise is ignored or counted; with the
threshold reached the choice is sent, or waits for room on the channel; or the
missing accepted value is dereferenced. -/
inductive PromiseOutcome where
  | ignored
  | counted (h : PaxosHandler)
  | chosen (h : PaxosHandler) (v : PaxosValue)
  | blocks (h : PaxosHandler) (v : PaxosValue)
  | panics (h : PaxosHandler)

/-- `newPaxosHandler`. -/
def newPaxosHandler (conf : Configuration) : PaxosHandler where
  locked := false
  running := false
  step := 0
  maxID := 0
  bestID := 0
  acceptedID := 0
  promises := 0
  currentPhase := .phase1
  paxosID := conf.paxosID
  nPeers := conf.totalPeers
  threshold := conf.threshold
  bestValue := .empty
  acceptedValue := .empty
  proposedValue := .empty
  finalValue := .empty
  acceptedValues := fun _ => 0
  tlcMap := []
  promiseChannel := 0
  valueChannel := 0
  instanceChannel := 0
  promiseChans := fun _ => Chan.make 1
  valueChans := fun _ => Chan.make 1
  instanceChans := fun _ => Chan.make 0
  promiseChan := fun _ => ⟨rfl, rfl⟩
  valueFresh := rfl
  instanceFresh := rfl

namespace PaxosHandler

/-- `initPaxosInstance`: the channel to wait on, or `none` when the caller now
runs the instance. -/
def initPaxosInstance (h : PaxosHandler) : Option ℕ × PaxosHandler :=
  if h.running then (some h.instanceChannel, h)
  else (none, { h with running := true })

theorem valueReady (h : PaxosHandler) : (h.valueChans h.valueChannel).Ready := by
  rw [h.valueFresh]
  exact Chan.make_ready Nat.one_pos

theorem instanceOpen (h : PaxosHandler) :
    (h.instanceChans h.instanceChannel).closed = false := by
  rw [h.instanceFresh]
  rfl

/-- `clearInstance`.  The references of the new channels are the next unused
ones. -/
def clearInstance (conf : Configuration) (h : PaxosHandler) : PaxosHandler :=
  { h with
    running := false
    maxID := 0
    bestID := 0
    acceptedID := 0
    promises := 0
    currentPhase := .phase1
    paxosID := conf.paxosID
    nPeers := conf.totalPeers
    threshold := conf.threshold
    bestValue := .empty
    acceptedValue := .empty
    proposedValue := .empty
    acceptedValues := fun _ => 0
    tlcMap := []
    promiseChannel := h.promiseChannel + 1
    promiseChans := Function.update h.promiseChans (h.promiseChannel + 1) (Chan.make 1)
    valueChannel := h.valueChannel + 1
    valueChans :=
      Function.update
        (Function.update h.valueChans h.valueChannel
          (((h.valueChans h.valueChannel).send h.finalValue h.valueReady).close
            h.valueReady.1))
        (h.valueChannel + 1) (Chan.make 1)
    instanceChannel := h.instanceChannel + 1
    instanceChans :=
      Function.update
        (Function.update h.instanceChans h.instanceChannel
          ((h.instanceChans h.instanceChannel).close h.instanceOpen))
        (h.instanceChannel + 1) (Chan.make 0)
    promiseChan := by
      intro ch
      by_cases hch : ch = h.promiseChannel + 1
      · rw [hch, Function.update_self]
        exact ⟨rfl, rfl⟩
      · rw [Function.update_of_ne hch]
        exact h.promiseChan ch
    valueFresh := Function.update_self ..
    instanceFresh := Function.update_self .. }

/-- `nextID`. -/
def nextID (h : PaxosHandler) : PaxosHandler :=
  { h with paxosID := h.paxosID + h.nPeers }

/-- `createPrepareMessage`. -/
def createPrepareMessage {P : Type*} (h : PaxosHandler) (source : P)
    (value : PaxosValue) : PaxosPrepareMessage P × PaxosHandler :=
  ({ step := h.step, id := h.paxosID, source := source },
    { h with proposedValue := value, currentPhase := .phase1, promises := 0 })

/-- `createProposeMessage`. -/
def createProposeMessage (h : PaxosHandler) (value : PaxosValue) :
    PaxosProposeMessage :=
  { step := h.step, id := h.paxosID, value := value }

/-- `respondToPrepareMsg`. -/
def respondToPrepareMsg {P : Type*} (h : PaxosHandler)
    (msg : PaxosPrepareMessage P) : Option PromiseDraft × PaxosHandler :=
  if h.step ≠ msg.step then (none, h)
  else if msg.id ≤ 0 ∨ msg.id ≤ h.maxID then (none, h)
  else
    (some
      { step := h.step
        id := msg.id
        acceptedID := h.acceptedID
        pointsToAccepted := decide (h.acceptedValue ≠ .empty) },
      { h with running := true, maxID := msg.id })

/-- `respondToProposeMsg`. -/
def respondToProposeMsg (h : PaxosHandler) (msg : PaxosProposeMessage) :
    Option PaxosAcceptMessage × PaxosHandler :=
  if h.step ≠ msg.step then (none, h)
  else if msg.id ≠ h.maxID then (none, h)
  else
    (some { step := h.step, id := msg.id, value := msg.value },
      if h.acceptedValue = .empty then
        { h with running := true, acceptedID := msg.id, acceptedValue := msg.value }
      else { h with running := true })

/-- Replace the promise channel `ch` by `c`. -/
def setPromiseChan (h : PaxosHandler) (ch : ℕ) (c : Chan PaxosValue)
    (hc : c.IsPromiseChan) : PaxosHandler :=
  { h with
    promiseChans := Function.update h.promiseChans ch c
    promiseChan := by
      intro ch'
      by_cases hch : ch' = ch
      · rw [hch, Function.update_self]
        exact hc
      · rw [Function.update_of_ne hch]
        exact h.promiseChan ch' }

/-- `pH.promiseChannel <- v`, or `none` when the channel is full. -/
def sendPromise (h : PaxosHandler) (v : PaxosValue) : Option PaxosHandler :=
  if hready : (h.promiseChans h.promiseChannel).Ready then
    some (h.setPromiseChan h.promiseChannel
      ((h.promiseChans h.promiseChannel).send v hready)
      (h.promiseChan h.promiseChannel))
  else none

/-- The handler after `v` has been sent on the current promise channel. -/
def putPromise (h : PaxosHandler) (v : PaxosValue)
    (hready : (h.promiseChans h.promiseChannel).Ready) : PaxosHandler :=
  h.setPromiseChan h.promiseChannel ((h.promiseChans h.promiseChannel).send v hready)
    (h.promiseChan h.promiseChannel)

/-- `<-promiseChannel` by a proposer, or `none` when it waits. -/
def recvPromise (h : PaxosHandler) (ch : ℕ) : Option (PaxosValue × PaxosHandler) :=
  match hrecv : (h.promiseChans ch).recv with
  | some (some v, c) =>
      some (v, h.setPromiseChan ch c (by
        obtain ⟨-, hclosed, hcap⟩ := Chan.recv_value hrecv
        exact ⟨hclosed.trans (h.promiseChan ch).1, hcap.trans (h.promiseChan ch).2⟩))
  | _ => none

/-- `<-valueChannel` by a proposer, or `none` when it waits.  A drained closed
channel gives the zero value. -/
def recvValue (h : PaxosHandler) (ch : ℕ) : Option (PaxosValue × PaxosHandler) :=
  match hrecv : (h.valueChans ch).recv with
  | some (v, c) =>
      some (v.getD .empty,
        { h with
          valueChans := Function.update h.valueChans ch c
          valueFresh := by
            by_cases hch : h.valueChannel = ch
            · rw [← hch, h.valueFresh] at hrecv
              exact absurd hrecv nofun
            · rw [Function.update_of_ne hch]
              exact h.valueFresh })
  | none => none

/-- The value for phase 2: the best value reported, or one's own. -/
def choice (h : PaxosHandler) : PaxosValue :=
  if h.bestID ≠ 0 then h.bestValue else h.proposedValue

/-- The handler after a counted promise: one promise more, and the best value
replaced when the promise reports a larger accepted ID than `bestID`. -/
def countPromise (h : PaxosHandler) (msg : PaxosPromiseMessage)
    (v : PaxosValue) : PaxosHandler :=
  if msg.acceptedID > h.bestID then
    { h with promises := h.promises + 1, bestID := msg.id, bestValue := v }
  else { h with promises := h.promises + 1 }

/-- The end of `respondToPromiseMsg`: the choice is sent on the promise channel,
or the handler waits there with its lock. -/
def sendChoice (h : PaxosHandler) : PromiseOutcome :=
  match h.sendPromise h.choice with
  | some sent => .chosen sent h.choice
  | none => .blocks { h with locked := true } h.choice

/-- `respondToPromiseMsg`. -/
def respondToPromiseMsg (h : PaxosHandler) (msg : PaxosPromiseMessage) :
    PromiseOutcome :=
  if h.step ≠ msg.step then .ignored
  else if h.currentPhase ≠ .phase1 then .ignored
  else if msg.acceptedID > h.bestID ∧ msg.acceptedValue = none then
    .panics { h with promises := h.promises + 1, bestID := msg.id }
  else
    let h' := h.countPromise msg (msg.acceptedValue.getD .empty)
    if h'.threshold ≤ h'.promises then sendChoice { h' with currentPhase := .phase2 }
    else .counted h'

end PaxosHandler

/-! ## Blocks -/

/-- The part of a peer that the accept and TLC handlers work on. -/
structure PaxosNode where
  handler : PaxosHandler
  storage : Storage

/-- The block for a step, a value and the hash of the block before it. -/
def mkBlock (sha256 : Bytes → Bytes) (step : ℕ) (v : PaxosValue)
    (prevHash : Bytes) : BlockchainBlock where
  index := step
  hash := sha256 (stringBytes (toString step) ++ stringBytes v.uniqID ++
    stringBytes v.filename ++ stringBytes v.metahash ++ prevHash)
  value := v
  prevHash := prevHash

/-- `make([]byte, 32)`, the previous hash of the first block. -/
def zeroHash : Bytes := List.replicate 32 0

/-- The previous hash for the next block: what `LastBlockKey` holds, or 32 zero
bytes.  `storeBlock` leaves a hash under this key, never a block. -/
def Storage.lastBlock (s : Storage) : Bytes :=
  match s.blockchain.get lastBlockKey with
  | some (.hash h) => h
  | _ => zeroHash

/-- `storeBlock`. -/
def storeBlock (block : BlockchainBlock) (s : Storage) : Storage :=
  { s with
    blockchain :=
      (s.blockchain.set (hexEncode block.hash) (.block block)).set lastBlockKey
        (.hash block.hash)
    naming := s.naming.set block.value.filename block.value.metahash }

namespace PaxosNode

/-- `buildBlock`. -/
def buildBlock (sha256 : Bytes → Bytes) (n : PaxosNode) (v : PaxosValue) :
    BlockchainBlock × PaxosHandler :=
  (mkBlock sha256 n.handler.step v n.storage.lastBlock,
    { n.handler with finalValue := v })

/-- The loop of `catchUp`.  Every iteration uses up the buffered messages of
one step, so `fuel` may be the number of buffered messages. -/
def catchUpLoop : ℕ → PaxosNode → PaxosNode
  | 0, n => n
  | fuel + 1, n =>
      if n.handler.threshold ≤ (n.handler.tlcMap.at n.handler.step).length then
        match (n.handler.tlcMap.at n.handler.step)[n.handler.threshold - 1]? with
        | some msg =>
            catchUpLoop fuel
              { handler := { n.handler with step := n.handler.step + 1 }
                storage := storeBlock msg.block n.storage }
        | none => n
      else n

/-- `catchUp`. -/
def catchUp (n : PaxosNode) : PaxosNode :=
  n.catchUpLoop n.handler.tlcMap.length

/-- The end of a step: the block is stored, the step incremented, later steps
caught up with and the instance cleared. -/
def finishStep (conf : Configuration) (n : PaxosNode) (block : BlockchainBlock) :
    PaxosNode :=
  let n' := catchUp
    { handler := { n.handler with step := n.handler.step + 1 }
      storage := storeBlock block n.storage }
  { n' with handler := n'.handler.clearInstance conf }

/-- `respondToAcceptMsg`; `none` is the empty TLC message. -/
def respondToAcceptMsg (sha256 : Bytes → Bytes) (conf : Configuration)
    (n : PaxosNode) (msg : PaxosAcceptMessage) : Option TLCMessage × PaxosNode :=
  if n.handler.step ≠ msg.step then (none, n)
  else
    let h := { n.handler with
      running := true
      acceptedValues := Function.update n.handler.acceptedValues msg.value
        (n.handler.acceptedValues msg.value + 1) }
    if h.threshold ≤ h.acceptedValues msg.value then
      let (block, h) := buildBlock sha256 { n with handler := h } msg.value
      (some { step := h.step, block := block },
        finishStep conf { n with handler := h } block)
    else (none, { n with handler := h })

/-- `respondToTLCMsg`; `true` means that there is nothing to broadcast. -/
def respondToTLCMsg (conf : Configuration) (n : PaxosNode) (msg : TLCMessage) :
    Bool × PaxosNode :=
  if msg.step < n.handler.step then (true, n)
  else
    let h := { n.handler with tlcMap := n.handler.tlcMap ++ [msg] }
    if msg.step = h.step then
      let h := { h with running := true }
      if h.threshold ≤ (h.tlcMap.at h.step).length then
        (false,
          finishStep conf
            { n with handler := { h with finalValue := msg.block.value } } msg.block)
      else (true, { n with handler := h })
    else (true, { n with handler := h })

end PaxosNode
end Minotor
