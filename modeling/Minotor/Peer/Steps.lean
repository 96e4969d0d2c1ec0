import Minotor.Peer.CatchUp
import Minotor.Peer.Tag

/-!
# What a goroutine of a peer can do

The atomic steps of a job and of a `Tag` call as relations, one constructor for
each outcome with its guard and its effect.  `runJob_step` and `stepOwn_step`
say that the functions of the peer do nothing else; proofs about runs take
their cases from here and never unfold a handler.
-/

namespace Minotor

variable {P : Type*}

/-! ## Effects on the handler -/

namespace PaxosHandler

/-- The promise for a prepare message with this ID. -/
def draft (h : PaxosHandler) (id : ℕ) : PromiseDraft where
  step := h.step
  id := id
  acceptedID := h.acceptedID
  pointsToAccepted := decide (h.acceptedValue ≠ .empty)

/-- The handler after it has promised `id`. -/
def promised (h : PaxosHandler) (id : ℕ) : PaxosHandler :=
  { h with running := true, maxID := id }

/-- The handler after it has accepted `msg`.  Only the first value accepted in
a step is kept, with its ID. -/
def accepted (h : PaxosHandler) (msg : PaxosProposeMessage) : PaxosHandler :=
  { h with
    running := true
    acceptedID := if h.acceptedValue = .empty then msg.id else h.acceptedID
    acceptedValue := if h.acceptedValue = .empty then msg.value else h.acceptedValue }

theorem accepted_eq (h : PaxosHandler) (msg : PaxosProposeMessage) :
    h.accepted msg =
      if h.acceptedValue = .empty then
        { h with running := true, acceptedID := msg.id, acceptedValue := msg.value }
      else { h with running := true } := by
  unfold accepted
  split <;> rfl

/-- The handler after a counted promise of value `v`. -/
def counted (h : PaxosHandler) (msg : PaxosPromiseMessage) (v : PaxosValue) :
    PaxosHandler :=
  { h with
    promises := h.promises + 1
    bestID := if h.bestID < msg.acceptedID then msg.id else h.bestID
    bestValue := if h.bestID < msg.acceptedID then v else h.bestValue }

theorem countPromise_eq (h : PaxosHandler) (msg : PaxosPromiseMessage) (v : PaxosValue) :
    h.countPromise msg v = h.counted msg v := by
  unfold countPromise counted
  split <;> rfl

/-- The handler in phase 2. -/
def toPhase2 (h : PaxosHandler) : PaxosHandler :=
  { h with currentPhase := .phase2 }

section

variable {h : PaxosHandler} {msg : PaxosPromiseMessage}

theorem respondToPromiseMsg_panics (hstep : h.step = msg.step)
    (hphase : h.currentPhase = .phase1)
    (hpanic : h.bestID < msg.acceptedID ∧ msg.acceptedValue = none) :
    h.respondToPromiseMsg msg =
      .panics { h with promises := h.promises + 1, bestID := msg.id } := by
  rw [respondToPromiseMsg, if_neg (not_not.mpr hstep), if_neg (not_not.mpr hphase),
    if_pos hpanic]

theorem respondToPromiseMsg_below (hstep : h.step = msg.step)
    (hphase : h.currentPhase = .phase1)
    (hpanic : ¬ (h.bestID < msg.acceptedID ∧ msg.acceptedValue = none))
    (hbelow : ¬ h.threshold ≤ h.promises + 1) :
    h.respondToPromiseMsg msg = .counted (h.counted msg (msg.acceptedValue.getD .empty)) := by
  rw [respondToPromiseMsg, if_neg (not_not.mpr hstep), if_neg (not_not.mpr hphase),
    if_neg hpanic, countPromise_eq]
  exact if_neg hbelow

theorem respondToPromiseMsg_full (hstep : h.step = msg.step)
    (hphase : h.currentPhase = .phase1)
    (hpanic : ¬ (h.bestID < msg.acceptedID ∧ msg.acceptedValue = none))
    (hfull : h.threshold ≤ h.promises + 1) :
    h.respondToPromiseMsg msg =
      (h.counted msg (msg.acceptedValue.getD .empty)).toPhase2.sendChoice := by
  rw [respondToPromiseMsg, if_neg (not_not.mpr hstep), if_neg (not_not.mpr hphase),
    if_neg hpanic, countPromise_eq]
  exact if_pos hfull

end

theorem sendPromise_ready {h : PaxosHandler} (v : PaxosValue)
    (hready : (h.promiseChans h.promiseChannel).Ready) :
    h.sendPromise v = some (h.putPromise v hready) := by
  rw [sendPromise, dif_pos hready]
  rfl

theorem sendPromise_full {h : PaxosHandler} (v : PaxosValue)
    (hready : ¬ (h.promiseChans h.promiseChannel).Ready) : h.sendPromise v = none := by
  rw [sendPromise, dif_neg hready]

/-- A received promise value was waiting in the channel. -/
theorem recvPromise_eq {h h' : PaxosHandler} {ch : ℕ} {v : PaxosValue}
    (hrecv : h.recvPromise ch = some (v, h')) :
    ∃ c hc, (h.promiseChans ch).buf = v :: c.buf ∧ h' = h.setPromiseChan ch c hc := by
  unfold recvPromise at hrecv
  split at hrecv
  · next c hchan =>
      cases hrecv
      exact ⟨_, _, (Chan.recv_value hchan).1, rfl⟩
  · cases hrecv

/-- Receiving a final value changes only the value channels. -/
theorem recvValue_eq {h h' : PaxosHandler} {ch : ℕ} {v : PaxosValue}
    (hrecv : h.recvValue ch = some (v, h')) :
    ∃ cs hcs, h' = { h with valueChans := cs, valueFresh := hcs } := by
  unfold recvValue at hrecv
  split at hrecv
  · cases hrecv
    exact ⟨_, _, rfl⟩
  · cases hrecv

/-- The handler after an accept message of its step has been counted. -/
def countedAccept (h : PaxosHandler) (v : PaxosValue) : PaxosHandler :=
  { h with
    running := true
    acceptedValues := Function.update h.acceptedValues v (h.acceptedValues v + 1) }

/-- The handler after a TLC message has been buffered. -/
def buffered (h : PaxosHandler) (msg : TLCMessage) : PaxosHandler :=
  { h with
    running := if msg.step = h.step then true else h.running
    tlcMap := h.tlcMap ++ [msg] }

/-- The handler is configured, and stays so. -/
structure Configured (conf : Configuration) (h : PaxosHandler) : Prop where
  threshold : h.threshold = conf.threshold
  nPeers : h.nPeers = conf.totalPeers

end PaxosHandler

theorem PaxosNode.LeavesStep.step_lt {conf : Configuration} {n n' : PaxosNode}
    {m : TLCMap} {block : BlockchainBlock} {bs : List BlockchainBlock}
    (h : n.LeavesStep conf m block bs n') : n.handler.step < n'.handler.step := by
  rw [h.handler, PaxosHandler.advance_step]
  omega

theorem PaxosNode.LeavesStep.configured {conf : Configuration} {n n' : PaxosNode}
    {m : TLCMap} {block : BlockchainBlock} {bs : List BlockchainBlock}
    (h : n.LeavesStep conf m block bs n') : n'.handler.Configured conf := by
  rw [h.handler]
  exact ⟨rfl, rfl⟩

/-- The accept message for a propose message. -/
def PaxosProposeMessage.accept (msg : PaxosProposeMessage) : PaxosAcceptMessage :=
  ⟨msg.step, msg.id, msg.value⟩

/-- The promise marshalled from a draft. -/
def PromiseDraft.marshal (draft : PromiseDraft) (acceptedValue : PaxosValue) :
    PaxosPromiseMessage where
  step := draft.step
  id := draft.id
  acceptedID := draft.acceptedID
  acceptedValue := if draft.pointsToAccepted then some acceptedValue else none

/-! ## Jobs -/

namespace Node

/-- A node ignores a rumor: it is a promise for another peer, it is of another
step, or the handler has promised a larger ID or left phase 1. -/
def Ignores (self : P) (n : Node P) (r : Rumor P) : Prop :=
  match r.msg with
  | .prepare msg => n.handler.step ≠ msg.step ∨ msg.id ≤ n.handler.maxID
  | .promise recipient msg =>
      recipient ≠ self ∨ n.handler.step ≠ msg.step ∨ n.handler.currentPhase ≠ .phase1
  | .propose msg => n.handler.step ≠ msg.step ∨ msg.id ≠ n.handler.maxID
  | .accept msg => n.handler.step ≠ msg.step
  | .tlc msg => msg.step < n.handler.step

/-- The steps of a job. -/
inductive JobStep [DecidableEq P] (sha256 : Bytes → Bytes) (conf : Configuration)
    (self : P) (n : Node P) : Job P → Node P → Next P → Prop where
  | ignored (r : Rumor P) (hignores : n.Ignores self r) :
      JobStep sha256 conf self n (.exec r) n .done
  | promised (r : Rumor P) (msg : PaxosPrepareMessage P)
      (hmsg : r.msg = .prepare msg) (hlock : n.handler.locked = false)
      (hstep : n.handler.step = msg.step) (hid : n.handler.maxID < msg.id) :
      JobStep sha256 conf self n (.exec r)
        ((n.withHandler (n.handler.promised msg.id)).record
          [.promised msg.source (n.handler.draft msg.id)])
        (.job (.marshal msg.source (n.handler.draft msg.id)))
  | accepted (r : Rumor P) (msg : PaxosProposeMessage)
      (hmsg : r.msg = .propose msg) (hlock : n.handler.locked = false)
      (hstep : n.handler.step = msg.step) (hid : msg.id = n.handler.maxID) :
      JobStep sha256 conf self n (.exec r)
        ((n.withHandler (n.handler.accepted msg)).record [.accepted msg.accept])
        (.job (.broadcast (.accept msg.accept)))
  | counted (r : Rumor P) (msg : PaxosPromiseMessage)
      (hmsg : r.msg = .promise self msg) (hlock : n.handler.locked = false)
      (hstep : n.handler.step = msg.step) (hphase : n.handler.currentPhase = .phase1)
      (hvalue : n.handler.bestID < msg.acceptedID → msg.acceptedValue ≠ none)
      (hbelow : n.handler.promises + 1 < n.handler.threshold) :
      JobStep sha256 conf self n (.exec r)
        ((n.withHandler (n.handler.counted msg (msg.acceptedValue.getD .empty))).record
          [.countedPromise r msg])
        .done
  | chosen (r : Rumor P) (msg : PaxosPromiseMessage) (h : PaxosHandler)
      (hmsg : r.msg = .promise self msg) (hlock : n.handler.locked = false)
      (hstep : n.handler.step = msg.step) (hphase : n.handler.currentPhase = .phase1)
      (hvalue : n.handler.bestID < msg.acceptedID → msg.acceptedValue ≠ none)
      (hfull : n.handler.threshold ≤ n.handler.promises + 1)
      (hh : h = (n.handler.counted msg (msg.acceptedValue.getD .empty)).toPhase2)
      (hready : (h.promiseChans h.promiseChannel).Ready) :
      JobStep sha256 conf self n (.exec r)
        ((n.withHandler (h.putPromise h.choice hready)).record
          [.quorum n.handler.step n.handler.paxosID h.choice, .countedPromise r msg])
        .done
  | blocks (r : Rumor P) (msg : PaxosPromiseMessage) (h : PaxosHandler)
      (hmsg : r.msg = .promise self msg) (hlock : n.handler.locked = false)
      (hstep : n.handler.step = msg.step) (hphase : n.handler.currentPhase = .phase1)
      (hvalue : n.handler.bestID < msg.acceptedID → msg.acceptedValue ≠ none)
      (hfull : n.handler.threshold ≤ n.handler.promises + 1)
      (hh : h = (n.handler.counted msg (msg.acceptedValue.getD .empty)).toPhase2)
      (hready : ¬ (h.promiseChans h.promiseChannel).Ready) :
      JobStep sha256 conf self n (.exec r)
        ((n.withHandler { h with locked := true }).record
          [.quorum n.handler.step n.handler.paxosID h.choice, .countedPromise r msg])
        (.job (.send h.choice))
  | panics (r : Rumor P) (msg : PaxosPromiseMessage) (err : String)
      (hmsg : r.msg = .promise self msg) (hlock : n.handler.locked = false)
      (hstep : n.handler.step = msg.step) (hphase : n.handler.currentPhase = .phase1)
      (hid : n.handler.bestID < msg.acceptedID) (hvalue : msg.acceptedValue = none) :
      JobStep sha256 conf self n (.exec r)
        ((n.withHandler { n.handler with
          promises := n.handler.promises + 1
          bestID := msg.id }).record [.countedPromise r msg])
        (.failed err)
  | countedAccept (r : Rumor P) (msg : PaxosAcceptMessage)
      (hmsg : r.msg = .accept msg) (hlock : n.handler.locked = false)
      (hstep : n.handler.step = msg.step)
      (hbelow : n.handler.acceptedValues msg.value + 1 < n.handler.threshold) :
      JobStep sha256 conf self n (.exec r)
        ((n.withHandler (n.handler.countedAccept msg.value)).record
          [.countedAccept r msg])
        .done
  | decided (r : Rumor P) (msg : PaxosAcceptMessage) (block : BlockchainBlock)
      (bs : List BlockchainBlock) (px : PaxosNode)
      (hmsg : r.msg = .accept msg) (hlock : n.handler.locked = false)
      (hstep : n.handler.step = msg.step)
      (hfull : n.handler.threshold ≤ n.handler.acceptedValues msg.value + 1)
      (hblock : block = mkBlock sha256 n.handler.step msg.value n.storage.lastBlock)
      (hleave : n.paxos.LeavesStep conf n.handler.tlcMap block bs px) :
      JobStep sha256 conf self n (.exec r)
        ((n.withPaxos px).record [.decided msg.step msg.value, .countedAccept r msg])
        (.job (.broadcast (.tlc ⟨n.handler.step, block⟩)))
  | buffered (r : Rumor P) (msg : TLCMessage)
      (hmsg : r.msg = .tlc msg) (hlock : n.handler.locked = false)
      (hle : n.handler.step ≤ msg.step) :
      JobStep sha256 conf self n (.exec r)
        (n.withHandler (n.handler.buffered msg)) .done
  | finished (r : Rumor P) (msg : TLCMessage) (bs : List BlockchainBlock)
      (px : PaxosNode)
      (hmsg : r.msg = .tlc msg) (hlock : n.handler.locked = false)
      (hstep : msg.step = n.handler.step)
      (hfull : n.handler.threshold ≤
        ((n.handler.tlcMap ++ [msg] : TLCMap).at msg.step).length)
      (hleave : n.paxos.LeavesStep conf (n.handler.tlcMap ++ [msg]) msg.block bs px) :
      JobStep sha256 conf self n (.exec r) (n.withPaxos px)
        (.job (.broadcast (.tlc msg)))
  | sent (v : PaxosValue)
      (hready : (n.handler.promiseChans n.handler.promiseChannel).Ready) :
      JobStep sha256 conf self n (.send v)
        (n.withHandler { n.handler.putPromise v hready with locked := false }) .done
  | marshalled (source : P) (draft : PromiseDraft) :
      JobStep sha256 conf self n (.marshal source draft) n
        (.job (.broadcast
          (.promise source (draft.marshal n.handler.acceptedValue))))
  | broadcast (msg : Message P) :
      JobStep sha256 conf self n (.broadcast msg) (n.append self msg)
        (.job (.exec ⟨self, n.rumors.length + 1, msg⟩))

section

variable [DecidableEq P] {sha256 : Bytes → Bytes} {conf : Configuration} {self : P}
  {n : Node P}

theorem execPaxosPrepareMessage_step {r : Rumor P} {msg : PaxosPrepareMessage P}
    (hmsg : r.msg = .prepare msg) (hlock : n.handler.locked = false) :
    JobStep sha256 conf self n (.exec r) (n.execPaxosPrepareMessage msg).1
      (n.execPaxosPrepareMessage msg).2 := by
  unfold execPaxosPrepareMessage PaxosHandler.respondToPrepareMsg
  by_cases hstep : n.handler.step = msg.step
  · rw [if_neg (not_not.mpr hstep)]
    by_cases hid : msg.id ≤ 0 ∨ msg.id ≤ n.handler.maxID
    · rw [if_pos hid]
      exact .ignored r (by rw [Ignores, hmsg]; right; omega)
    · rw [if_neg hid]
      exact .promised r msg hmsg hlock hstep (by omega)
  · rw [if_pos hstep]
    exact .ignored r (by rw [Ignores, hmsg]; exact .inl hstep)

theorem execPaxosProposeMessage_step {r : Rumor P} {msg : PaxosProposeMessage}
    (hmsg : r.msg = .propose msg) (hlock : n.handler.locked = false) :
    JobStep sha256 conf self n (.exec r) (n.execPaxosProposeMessage msg).1
      (n.execPaxosProposeMessage msg).2 := by
  unfold execPaxosProposeMessage PaxosHandler.respondToProposeMsg
  by_cases hstep : n.handler.step = msg.step
  · rw [if_neg (not_not.mpr hstep)]
    by_cases hid : msg.id = n.handler.maxID
    · rw [if_neg (not_not.mpr hid), ← PaxosHandler.accepted_eq, hstep]
      exact .accepted r msg hmsg hlock hstep hid
    · rw [if_pos hid]
      exact .ignored r (by rw [Ignores, hmsg]; exact .inr hid)
  · rw [if_pos hstep]
    exact .ignored r (by rw [Ignores, hmsg]; exact .inl hstep)

theorem execPaxosPromiseMessage_step {r : Rumor P} {msg : PaxosPromiseMessage}
    (hmsg : r.msg = .promise self msg) (hlock : n.handler.locked = false) :
    JobStep sha256 conf self n (.exec r) (n.execPaxosPromiseMessage r msg).1
      (n.execPaxosPromiseMessage r msg).2 := by
  unfold execPaxosPromiseMessage
  by_cases hstep : n.handler.step = msg.step
  · by_cases hphase : n.handler.currentPhase = .phase1
    · by_cases hpanic : n.handler.bestID < msg.acceptedID ∧ msg.acceptedValue = none
      · rw [PaxosHandler.respondToPromiseMsg_panics hstep hphase hpanic]
        exact .panics r msg _ hmsg hlock hstep hphase hpanic.1 hpanic.2
      · have hvalue : n.handler.bestID < msg.acceptedID → msg.acceptedValue ≠ none :=
          fun hlt hnone => hpanic ⟨hlt, hnone⟩
        by_cases hfull : n.handler.threshold ≤ n.handler.promises + 1
        · rw [PaxosHandler.respondToPromiseMsg_full hstep hphase hpanic hfull]
          generalize hh : (n.handler.counted msg (msg.acceptedValue.getD .empty)).toPhase2 = h
          by_cases hready : (h.promiseChans h.promiseChannel).Ready
          · rw [PaxosHandler.sendChoice, PaxosHandler.sendPromise_ready _ hready]
            exact .chosen r msg h hmsg hlock hstep hphase hvalue hfull hh.symm hready
          · rw [PaxosHandler.sendChoice, PaxosHandler.sendPromise_full _ hready]
            exact .blocks r msg h hmsg hlock hstep hphase hvalue hfull hh.symm hready
        · rw [PaxosHandler.respondToPromiseMsg_below hstep hphase hpanic hfull]
          exact .counted r msg hmsg hlock hstep hphase hvalue (by omega)
    · rw [PaxosHandler.respondToPromiseMsg, if_neg (not_not.mpr hstep), if_pos hphase]
      exact .ignored r (by rw [Ignores, hmsg]; exact .inr (.inr hphase))
  · rw [PaxosHandler.respondToPromiseMsg, if_pos hstep]
    exact .ignored r (by rw [Ignores, hmsg]; exact .inr (.inl hstep))

theorem execPaxosAcceptMessage_step {r : Rumor P} {msg : PaxosAcceptMessage}
    (hmsg : r.msg = .accept msg) (hlock : n.handler.locked = false)
    (hT : 1 ≤ n.handler.threshold) :
    JobStep sha256 conf self n (.exec r)
      (n.execPaxosAcceptMessage sha256 conf r msg).1
      (n.execPaxosAcceptMessage sha256 conf r msg).2 := by
  unfold execPaxosAcceptMessage acceptEvents
  rcases n.paxos.respondToAcceptMsg_cases sha256 conf msg hT with
    ⟨hstep, heq⟩ | ⟨hstep, hbelow, heq⟩ | ⟨hstep, hfull, bs, px, hleave, heq⟩
  · simp only [heq, if_neg hstep]
    exact .ignored r (by rw [Ignores, hmsg]; exact hstep)
  · simp only [heq, if_pos hstep]
    exact .countedAccept r msg hmsg hlock hstep hbelow
  · simp only [heq, if_pos hstep]
    exact .decided r msg _ bs px hmsg hlock hstep hfull rfl hleave

theorem execTLCMessage_step {r : Rumor P} {msg : TLCMessage}
    (hmsg : r.msg = .tlc msg) (hlock : n.handler.locked = false)
    (hT : 1 ≤ n.handler.threshold) :
    JobStep sha256 conf self n (.exec r) (n.execTLCMessage conf msg).1
      (n.execTLCMessage conf msg).2 := by
  unfold execTLCMessage
  rcases n.paxos.respondToTLCMsg_cases conf msg hT with
    ⟨hlt, heq⟩ | ⟨hle, -, heq⟩ | ⟨hstep, hfull, bs, px, hleave, heq⟩
  · rw [heq]
    exact .ignored r (by rw [Ignores, hmsg]; exact hlt)
  · rw [heq]
    exact .buffered r msg hmsg hlock hle
  · rw [heq]
    exact .finished r msg bs px hmsg hlock hstep hfull hleave

/-- Processing a rumor is one of the cases above. -/
theorem processRumor_step {r : Rumor P} {n' : Node P} {next : Next P}
    (hT : 1 ≤ n.handler.threshold)
    (hrun : n.processRumor sha256 conf self r = some (n', next)) :
    JobStep sha256 conf self n (.exec r) n' next := by
  rw [processRumor] at hrun
  cases hmsg : r.msg with
  | promise recipient msg =>
      simp only [hmsg] at hrun
      by_cases hself : recipient = self
      · rw [hself] at hmsg
        rw [if_pos hself, Option.ite_none_left_eq_some, Option.some.injEq] at hrun
        have hstep : JobStep sha256 conf self n (.exec r) _ _ :=
          execPaxosPromiseMessage_step hmsg (Bool.eq_false_of_not_eq_true hrun.1)
        rwa [hrun.2] at hstep
      · rw [if_neg hself] at hrun
        cases hrun
        exact .ignored r (by rw [Ignores, hmsg]; exact .inl hself)
  | prepare msg =>
      simp only [hmsg, Option.ite_none_left_eq_some, Option.some.injEq] at hrun
      have hstep : JobStep sha256 conf self n (.exec r) _ _ :=
        execPaxosPrepareMessage_step hmsg (Bool.eq_false_of_not_eq_true hrun.1)
      rwa [hrun.2] at hstep
  | propose msg =>
      simp only [hmsg, Option.ite_none_left_eq_some, Option.some.injEq] at hrun
      have hstep : JobStep sha256 conf self n (.exec r) _ _ :=
        execPaxosProposeMessage_step hmsg (Bool.eq_false_of_not_eq_true hrun.1)
      rwa [hrun.2] at hstep
  | accept msg =>
      simp only [hmsg, Option.ite_none_left_eq_some, Option.some.injEq] at hrun
      have hstep : JobStep sha256 conf self n (.exec r) _ _ :=
        execPaxosAcceptMessage_step hmsg (Bool.eq_false_of_not_eq_true hrun.1) hT
      rwa [hrun.2] at hstep
  | tlc msg =>
      simp only [hmsg, Option.ite_none_left_eq_some, Option.some.injEq] at hrun
      have hstep : JobStep sha256 conf self n (.exec r) _ _ :=
        execTLCMessage_step hmsg (Bool.eq_false_of_not_eq_true hrun.1) hT
      rwa [hrun.2] at hstep

/-- A step of a job is one of the cases above. -/
theorem runJob_step {j : Job P} {n' : Node P} {next : Next P}
    (hT : 1 ≤ n.handler.threshold)
    (hrun : n.runJob sha256 conf self j = some (n', next)) :
    JobStep sha256 conf self n j n' next := by
  cases j with
  | exec r => exact processRumor_step hT hrun
  | send v =>
      rw [runJob, Option.map_eq_some_iff] at hrun
      obtain ⟨h, hsend, heq⟩ := hrun
      by_cases hready : (n.handler.promiseChans n.handler.promiseChannel).Ready
      · rw [PaxosHandler.sendPromise_ready v hready] at hsend
        cases hsend
        cases heq
        exact .sent v hready
      · rw [PaxosHandler.sendPromise_full v hready] at hsend
        cases hsend
  | marshal source draft =>
      cases hrun
      exact .marshalled source draft
  | broadcast msg =>
      cases hrun
      exact .broadcast msg

section

variable {j : Job P} {n' : Node P} {next : Next P}

/-- Rumors are only appended. -/
theorem JobStep.rumors_prefix (hstep : JobStep sha256 conf self n j n' next) :
    n.rumors <+: n'.rumors := by
  cases hstep with
  | broadcast msg => exact List.prefix_append _ _
  | _ => exact List.prefix_rfl

/-- The history only grows. -/
theorem JobStep.history_suffix (hstep : JobStep sha256 conf self n j n' next) :
    n.history <:+ n'.history := by
  cases hstep with
  | ignored => exact List.suffix_rfl
  | buffered => exact List.suffix_rfl
  | finished => exact List.suffix_rfl
  | sent => exact List.suffix_rfl
  | marshalled => exact List.suffix_rfl
  | broadcast => exact List.suffix_rfl
  | _ => exact List.suffix_append _ _

end

theorem JobStep.configured {j : Job P} {n' : Node P} {next : Next P}
    (h : n.handler.Configured conf) (hstep : JobStep sha256 conf self n j n' next) :
    n'.handler.Configured conf := by
  cases hstep with
  | decided _ _ _ _ _ _ _ _ _ _ hleave => exact hleave.configured
  | finished _ _ _ _ _ _ _ _ hleave => exact hleave.configured
  | chosen _ _ _ _ _ _ _ _ _ hh =>
      subst hh
      exact ⟨h.threshold, h.nPeers⟩
  | blocks _ _ _ _ _ _ _ _ _ hh =>
      subst hh
      exact ⟨h.threshold, h.nPeers⟩
  | _ => exact ⟨h.threshold, h.nPeers⟩

end

end Node

/-! ## Calls of `Tag` -/

/-- A program point which carries no message. -/
def TagPc.Plain : TagPc P → Prop
  | .promiseChan .. | .sendPrepare .. | .awaitPromise .. | .propose .. => False
  | .valueChan .. | .sendPropose .. | .awaitValue .. => False
  | _ => True

theorem TagPc.Plain.job? {pc : TagPc P} (h : pc.Plain) : pc.job? = none := by
  cases pc <;> first | rfl | exact h.elim

/-- The handler after `createPrepareMessage`. -/
def PaxosHandler.prepared (h : PaxosHandler) (value : PaxosValue) : PaxosHandler :=
  { h with proposedValue := value, currentPhase := .phase1, promises := 0 }

/-- The node after `store.Set(name, mh)` in its naming store. -/
def Node.setName (n : Node P) (name mh : String) : Node P :=
  n.withPaxos { n.paxos with storage := { n.storage with
    naming := n.storage.naming.set name mh } }

namespace TagCall

/-- The steps of a call which leave the node as it is and go to a program point
without a message. -/
inductive Quiet (conf : Configuration) (n : Node P) (call : TagCall P) :
    Choice → TagPc P → Prop where
  | nameTaken (value : String) (hpc : call.pc = .lookup)
      (hbound : n.storage.naming.get call.name = some value) :
      Quiet conf n call .run (.returned (some ("already existing name : " ++ call.name)))
  | alone (hpc : call.pc = .lookup) (hfree : n.storage.naming.get call.name = none)
      (halone : conf.totalPeers ≤ 1) : Quiet conf n call .run .setName
  | free (hpc : call.pc = .lookup) (hfree : n.storage.naming.get call.name = none)
      (hpeers : ¬ conf.totalPeers ≤ 1) : Quiet conf n call .run .initInstance
  | wait (hpc : call.pc = .initInstance) (hrunning : n.handler.running = true) :
      Quiet conf n call .run (.awaitInstance n.handler.instanceChannel)
  | wake (ch : ℕ) (hpc : call.pc = .awaitInstance ch)
      (hclosed : (n.handler.instanceChans ch).closed = true) :
      Quiet conf n call .recv .initInstance
  | start (hpc : call.pc = .readStart) :
      Quiet conf n call .run (.readStep n.handler.step)
  | sameStep (start : ℕ) (hpc : call.pc = .readStep start)
      (hstep : start = n.handler.step) : Quiet conf n call .run (.prepare start)
  | newStep (start : ℕ) (hpc : call.pc = .readStep start)
      (hstep : start ≠ n.handler.step) : Quiet conf n call .run .lookupAgain
  | boundSince (value : String) (hpc : call.pc = .lookupAgain)
      (hbound : n.storage.naming.get call.name = some value) :
      Quiet conf n call .run (.returned none)
  | freeStill (hpc : call.pc = .lookupAgain)
      (hfree : n.storage.naming.get call.name = none) : Quiet conf n call .run .lookup
  | tickPrepare (start : ℕ) (prep : PaxosPrepareMessage P) (ch : ℕ)
      (hpc : call.pc = .awaitPromise start prep ch) :
      Quiet conf n call .tick (.retryPrepare start)
  | tickPropose (start ch : ℕ) (hpc : call.pc = .awaitValue start ch) :
      Quiet conf n call .tick (.readFinal start)
  | decidedOwn (start : ℕ) (hpc : call.pc = .readFinal start)
      (hdecided : n.handler.finalValue ≠ .empty)
      (hmatches : call.Matches n.handler.finalValue) :
      Quiet conf n call .run (.returned none)
  | decidedOther (start : ℕ) (hpc : call.pc = .readFinal start)
      (hdecided : n.handler.finalValue ≠ .empty)
      (hmatches : ¬ call.Matches n.handler.finalValue) : Quiet conf n call .run .lookup
  | undecided (start : ℕ) (hpc : call.pc = .readFinal start)
      (hempty : n.handler.finalValue = .empty) :
      Quiet conf n call .run (.retryPropose start)
  | stop (hpc : (∃ ch, call.pc = .awaitInstance ch) ∨
        (∃ start prep ch, call.pc = .awaitPromise start prep ch) ∨
        ∃ start ch, call.pc = .awaitValue start ch)
      (hstopped : n.stopped = true) : Quiet conf n call .stop (.returned none)

/-- The steps of a call outside a broadcast. -/
inductive OwnStep (conf : Configuration) (self : P) (i : ℕ) (n : Node P)
    (call : TagCall P) : Choice → Node P → TagPc P → Prop where
  | quiet (c : Choice) (pc : TagPc P) (hquiet : Quiet conf n call c pc) :
      OwnStep conf self i n call c n pc
  | setName (hpc : call.pc = .setName) :
      OwnStep conf self i n call .run (n.setName call.name call.mh) (.returned none)
  | initInstance (hpc : call.pc = .initInstance) (hlock : n.handler.locked = false)
      (hidle : n.handler.running = false) :
      OwnStep conf self i n call .run
        (n.withHandler { n.handler with running := true }) .readStart
  | prepare (start : ℕ) (uniqID : String) (hpc : call.pc = .prepare start)
      (hlock : n.handler.locked = false) :
      OwnStep conf self i n call (.fresh uniqID)
        ((n.withHandler (n.handler.prepared ⟨uniqID, call.name, call.mh⟩)).record
          [.prepared i ⟨n.handler.step, n.handler.paxosID, self⟩
            ⟨uniqID, call.name, call.mh⟩])
        (.promiseChan start ⟨n.handler.step, n.handler.paxosID, self⟩)
  | promiseChan (start : ℕ) (prep : PaxosPrepareMessage P)
      (hpc : call.pc = .promiseChan start prep) (hlock : n.handler.locked = false) :
      OwnStep conf self i n call .run n
        (.sendPrepare start prep n.handler.promiseChannel (.broadcast (.prepare prep)))
  | recvPromise (start : ℕ) (prep : PaxosPrepareMessage P) (ch : ℕ)
      (value : PaxosValue) (h : PaxosHandler)
      (hpc : call.pc = .awaitPromise start prep ch)
      (hrecv : n.handler.recvPromise ch = some (value, h)) (pc : TagPc P)
      (hnext : pc = if value = .empty then .returned none else .propose start prep value) :
      OwnStep conf self i n call .recv (n.withHandler h) pc
  | retryPrepare (start : ℕ) (hpc : call.pc = .retryPrepare start)
      (hlock : n.handler.locked = false) :
      OwnStep conf self i n call .run (n.withHandler n.handler.nextID) (.prepare start)
  | propose (start : ℕ) (prep : PaxosPrepareMessage P) (value : PaxosValue)
      (hpc : call.pc = .propose start prep value) (hlock : n.handler.locked = false) :
      OwnStep conf self i n call .run
        (n.record [.proposed (n.handler.createProposeMessage value)])
        (.valueChan start (n.handler.createProposeMessage value))
  | valueChan (start : ℕ) (msg : PaxosProposeMessage)
      (hpc : call.pc = .valueChan start msg) (hlock : n.handler.locked = false) :
      OwnStep conf self i n call .run n
        (.sendPropose start msg n.handler.valueChannel (.broadcast (.propose msg)))
  | recvValue (start ch : ℕ) (finalValue : PaxosValue) (h : PaxosHandler)
      (hpc : call.pc = .awaitValue start ch)
      (hrecv : n.handler.recvValue ch = some (finalValue, h)) (pc : TagPc P)
      (hnext : pc = if call.Matches finalValue then .returned none else .lookup) :
      OwnStep conf self i n call .recv (n.withHandler h) pc
  | retryPropose (start : ℕ) (hpc : call.pc = .retryPropose start)
      (hlock : n.handler.locked = false) :
      OwnStep conf self i n call .run (n.withHandler n.handler.nextID) (.readStep start)

theorem Quiet.plain {conf : Configuration} {n : Node P} {call : TagCall P} {c : Choice}
    {pc : TagPc P} (h : Quiet conf n call c pc) : pc.Plain := by
  cases h <;> trivial

theorem Quiet.ne_fresh {conf : Configuration} {n : Node P} {call : TagCall P} {c : Choice}
    {pc : TagPc P} (h : Quiet conf n call c pc) (uniqID : String) :
    c ≠ .fresh uniqID := by
  cases h <;> nofun

/-- An own step of a call is one of the cases above. -/
theorem stepOwn_step {conf : Configuration} {self : P} {i : ℕ} {n n' : Node P}
    {call : TagCall P} {c : Choice} {pc : TagPc P}
    (hstep : call.stepOwn conf self i n c = some (n', pc)) :
    OwnStep conf self i n call c n' pc := by
  unfold stepOwn at hstep
  split at hstep
  · next hpc =>
      split at hstep
      · next value hbound =>
          cases hstep
          exact .quiet _ _ (.nameTaken value hpc hbound)
      · next hfree =>
          cases hstep
          by_cases halone : conf.totalPeers ≤ 1
          · rw [if_pos halone]
            exact .quiet _ _ (.alone hpc hfree halone)
          · rw [if_neg halone]
            exact .quiet _ _ (.free hpc hfree halone)
  · next hpc =>
      cases hstep
      exact .setName hpc
  · next hpc =>
      rw [Option.ite_none_left_eq_some] at hstep
      obtain ⟨hlock, hstep⟩ := hstep
      unfold PaxosHandler.initPaxosInstance at hstep
      by_cases hrunning : n.handler.running = true
      · rw [if_pos hrunning] at hstep
        cases hstep
        exact .quiet _ _ (.wait hpc hrunning)
      · rw [if_neg hrunning] at hstep
        cases hstep
        exact .initInstance hpc (Bool.eq_false_of_not_eq_true hlock)
          (Bool.eq_false_of_not_eq_true hrunning)
  · next ch hpc =>
      rw [Option.ite_none_right_eq_some] at hstep
      obtain ⟨hclosed, hstep⟩ := hstep
      cases hstep
      exact .quiet _ _ (.wake ch hpc hclosed)
  · next hpc =>
      rw [Option.ite_none_left_eq_some] at hstep
      obtain ⟨-, hstep⟩ := hstep
      cases hstep
      exact .quiet _ _ (.start hpc)
  · next start hpc =>
      rw [Option.ite_none_left_eq_some] at hstep
      obtain ⟨-, hstep⟩ := hstep
      cases hstep
      by_cases hnew : start ≠ n.handler.step
      · rw [if_pos hnew]
        exact .quiet _ _ (.newStep start hpc hnew)
      · rw [if_neg hnew]
        exact .quiet _ _ (.sameStep start hpc (not_not.mp hnew))
  · next hpc =>
      split at hstep
      · next value hbound =>
          cases hstep
          exact .quiet _ _ (.boundSince value hpc hbound)
      · next hfree =>
          cases hstep
          exact .quiet _ _ (.freeStill hpc hfree)
  · next start uniqID hpc =>
      rw [Option.ite_none_left_eq_some] at hstep
      obtain ⟨hlock, hstep⟩ := hstep
      cases hstep
      exact .prepare start uniqID hpc (Bool.eq_false_of_not_eq_true hlock)
  · next start prep hpc =>
      rw [Option.ite_none_left_eq_some] at hstep
      obtain ⟨hlock, hstep⟩ := hstep
      cases hstep
      exact .promiseChan start prep hpc (Bool.eq_false_of_not_eq_true hlock)
  · next start prep ch hpc =>
      split at hstep
      · next value h hrecv =>
          cases hstep
          exact .recvPromise start prep ch value h hpc hrecv _ rfl
      · cases hstep
  · next start prep ch hpc =>
      cases hstep
      exact .quiet _ _ (.tickPrepare start prep ch hpc)
  · next start hpc =>
      rw [Option.ite_none_left_eq_some] at hstep
      obtain ⟨hlock, hstep⟩ := hstep
      cases hstep
      exact .retryPrepare start hpc (Bool.eq_false_of_not_eq_true hlock)
  · next start prep value hpc =>
      rw [Option.ite_none_left_eq_some] at hstep
      obtain ⟨hlock, hstep⟩ := hstep
      cases hstep
      exact .propose start prep value hpc (Bool.eq_false_of_not_eq_true hlock)
  · next start msg hpc =>
      rw [Option.ite_none_left_eq_some] at hstep
      obtain ⟨hlock, hstep⟩ := hstep
      cases hstep
      exact .valueChan start msg hpc (Bool.eq_false_of_not_eq_true hlock)
  · next start ch hpc =>
      split at hstep
      · next finalValue h hrecv =>
          cases hstep
          exact .recvValue start ch finalValue h hpc hrecv _ rfl
      · cases hstep
  · next start ch hpc =>
      cases hstep
      exact .quiet _ _ (.tickPropose start ch hpc)
  · next start hpc =>
      rw [Option.ite_none_left_eq_some] at hstep
      obtain ⟨-, hstep⟩ := hstep
      cases hstep
      by_cases hdecided : n.handler.finalValue ≠ .empty
      · rw [if_pos hdecided]
        by_cases hmatches : call.Matches n.handler.finalValue
        · rw [if_pos hmatches]
          exact .quiet _ _ (.decidedOwn start hpc hdecided hmatches)
        · rw [if_neg hmatches]
          exact .quiet _ _ (.decidedOther start hpc hdecided hmatches)
      · rw [if_neg hdecided]
        exact .quiet _ _ (.undecided start hpc (not_not.mp hdecided))
  · next start hpc =>
      rw [Option.ite_none_left_eq_some] at hstep
      obtain ⟨hlock, hstep⟩ := hstep
      cases hstep
      exact .retryPropose start hpc (Bool.eq_false_of_not_eq_true hlock)
  · next ch hpc =>
      rw [Option.ite_none_right_eq_some] at hstep
      obtain ⟨hstopped, hstep⟩ := hstep
      cases hstep
      exact .quiet _ _ (.stop (.inl ⟨ch, hpc⟩) hstopped)
  · next start prep ch hpc =>
      rw [Option.ite_none_right_eq_some] at hstep
      obtain ⟨hstopped, hstep⟩ := hstep
      cases hstep
      exact .quiet _ _ (.stop (.inr (.inl ⟨start, prep, ch, hpc⟩)) hstopped)
  · next start ch hpc =>
      rw [Option.ite_none_right_eq_some] at hstep
      obtain ⟨hstopped, hstep⟩ := hstep
      cases hstep
      exact .quiet _ _ (.stop (.inr (.inr ⟨start, ch, hpc⟩)) hstopped)
  · cases hstep

section

variable {conf : Configuration} {self : P} {i : ℕ} {n n' : Node P} {call : TagCall P}
  {c : Choice} {pc : TagPc P}

/-- A call that has returned takes no step. -/
theorem OwnStep.ne_returned (hstep : OwnStep conf self i n call c n' pc)
    (err : Option String) : call.pc ≠ .returned err := by
  intro hpc
  cases hstep with
  | quiet _ _ hquiet =>
      cases hquiet with
      | stop hwaits =>
          rcases hwaits with ⟨ch, h⟩ | ⟨start, prep, ch, h⟩ | ⟨start, ch, h⟩
          · rw [hpc] at h
            cases h
          · rw [hpc] at h
            cases h
          · rw [hpc] at h
            cases h
      | _ => simp_all
  | _ => simp_all

/-- The one step at `createProposeMessage`. -/
theorem OwnStep.of_propose (hstep : OwnStep conf self i n call c n' pc) {start : ℕ}
    {prep : PaxosPrepareMessage P} {v : PaxosValue} (hpc : call.pc = .propose start prep v) :
    n' = n.record [.proposed (n.handler.createProposeMessage v)] ∧
      pc = .valueChan start (n.handler.createProposeMessage v) := by
  cases hstep with
  | quiet _ _ hquiet =>
      cases hquiet with
      | stop hwaits =>
          rcases hwaits with ⟨ch, h⟩ | ⟨start, prep, ch, h⟩ | ⟨start, ch, h⟩
          · rw [hpc] at h
            cases h
          · rw [hpc] at h
            cases h
          · rw [hpc] at h
            cases h
      | _ => simp_all
  | propose start' prep' v' hpc' =>
      rw [hpc] at hpc'
      cases hpc'
      exact ⟨rfl, rfl⟩
  | _ => simp_all

/-- Own steps neither end a step nor promise an ID. -/
theorem OwnStep.handler_eq (hstep : OwnStep conf self i n call c n' pc) :
    n'.handler.step = n.handler.step ∧ n'.handler.maxID = n.handler.maxID ∧
      (n.handler.running = true → n'.handler.running = true) := by
  cases hstep with
  | recvPromise _ _ _ _ _ _ hrecv =>
      obtain ⟨c, hc, -, rfl⟩ := PaxosHandler.recvPromise_eq hrecv
      exact ⟨rfl, rfl, fun hrunning => hrunning⟩
  | recvValue _ _ _ _ _ hrecv =>
      obtain ⟨cs, hcs, rfl⟩ := PaxosHandler.recvValue_eq hrecv
      exact ⟨rfl, rfl, fun hrunning => hrunning⟩
  | initInstance => exact ⟨rfl, rfl, fun _ => rfl⟩
  | _ => exact ⟨rfl, rfl, fun hrunning => hrunning⟩

end

theorem OwnStep.rumors_eq {conf : Configuration} {self : P} {i : ℕ} {n n' : Node P}
    {call : TagCall P} {c : Choice} {pc : TagPc P}
    (hstep : OwnStep conf self i n call c n' pc) : n'.rumors = n.rumors := by
  cases hstep <;> rfl

theorem OwnStep.history_suffix {conf : Configuration} {self : P} {i : ℕ} {n n' : Node P}
    {call : TagCall P} {c : Choice} {pc : TagPc P}
    (hstep : OwnStep conf self i n call c n' pc) : n.history <:+ n'.history := by
  cases hstep with
  | prepare => exact List.suffix_append _ _
  | propose => exact List.suffix_append _ _
  | _ => exact List.suffix_rfl

theorem OwnStep.configured {conf : Configuration} {self : P} {i : ℕ} {n n' : Node P}
    {call : TagCall P} {c : Choice} {pc : TagPc P} (h : n.handler.Configured conf)
    (hstep : OwnStep conf self i n call c n' pc) : n'.handler.Configured conf := by
  cases hstep with
  | recvPromise _ _ _ _ _ _ hrecv =>
      obtain ⟨c, hc, -, rfl⟩ := PaxosHandler.recvPromise_eq hrecv
      exact ⟨h.threshold, h.nPeers⟩
  | recvValue _ _ _ _ _ hrecv =>
      obtain ⟨cs, hcs, rfl⟩ := PaxosHandler.recvValue_eq hrecv
      exact ⟨h.threshold, h.nPeers⟩
  | _ => exact ⟨h.threshold, h.nPeers⟩

/-- With a fresh identifier a call prepares its value. -/
theorem OwnStep.prepares {conf : Configuration} {self : P} {i : ℕ} {n n' : Node P}
    {call : TagCall P} {uniqID : String} {pc : TagPc P}
    (hstep : OwnStep conf self i n call (.fresh uniqID) n' pc) :
    .prepared i ⟨n.handler.step, n.handler.paxosID, self⟩ ⟨uniqID, call.name, call.mh⟩ ∈
      n'.history := by
  cases hstep with
  | quiet _ _ hquiet => exact absurd rfl (hquiet.ne_fresh uniqID)
  | prepare => exact List.mem_cons_self

/-- A call starts the broadcast of its prepare or of its propose message and of
nothing else. -/
theorem OwnStep.broadcasts {conf : Configuration} {self : P} {i : ℕ} {n n' : Node P}
    {call : TagCall P} {c : Choice} {pc : TagPc P} {j : Job P}
    (hstep : OwnStep conf self i n call c n' pc) (hj : pc.job? = some j) :
    (∃ start prep, call.pc = .promiseChan start prep ∧ j = .broadcast (.prepare prep)) ∨
      ∃ start msg, call.pc = .valueChan start msg ∧ j = .broadcast (.propose msg) := by
  cases hstep with
  | quiet _ _ hquiet =>
      rw [hquiet.plain.job?] at hj
      cases hj
  | promiseChan start prep hpc =>
      cases hj
      exact .inl ⟨start, prep, hpc, rfl⟩
  | valueChan start msg hpc =>
      cases hj
      exact .inr ⟨start, msg, hpc, rfl⟩
  | recvPromise _ _ _ _ _ _ _ _ hnext =>
      subst hnext
      split at hj <;> cases hj
  | recvValue _ _ _ _ _ _ _ hnext =>
      subst hnext
      split at hj <;> cases hj
  | _ => cases hj

end TagCall
end Minotor
