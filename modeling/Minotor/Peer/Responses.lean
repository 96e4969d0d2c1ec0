import Minotor.Peer.Chain
import Minotor.Peer.Steps
import Minotor.Support.Service
import Mathlib.Data.List.ReduceOption

/-!
# Messages and responses

A peer as a service: a message comes in, and at most one message is returned or
broadcast for it.  Every response is logged together with the step which the
handler was at.  What a message can do is stated once as a relation, and the
facts about whole logs in the next modules are derived from it.
-/

namespace Minotor

/-- The handler of an instance in which nothing has happened yet. -/
structure PaxosHandler.Fresh (h : PaxosHandler) : Prop where
  maxID : h.maxID = 0
  bestID : h.bestID = 0
  acceptedID : h.acceptedID = 0
  bestValue : h.bestValue = .empty
  acceptedValue : h.acceptedValue = .empty
  promiseChan : h.promiseChans h.promiseChannel = Chan.make 1

theorem fresh_newPaxosHandler (conf : Configuration) : (newPaxosHandler conf).Fresh :=
  ⟨rfl, rfl, rfl, rfl, rfl, rfl⟩

/-- Every step begins with a fresh instance. -/
theorem PaxosNode.LeavesStep.fresh {conf : Configuration} {n n' : PaxosNode}
    {m : TLCMap} {block : BlockchainBlock} {bs : List BlockchainBlock}
    (h : n.LeavesStep conf m block bs n') : n'.handler.Fresh := by
  rw [h.handler]
  exact ⟨rfl, rfl, rfl, rfl, rfl, Function.update_self ..⟩

/-- What a peer returns or broadcasts for a message. -/
inductive Response where
  | promise (msg : PaxosPromiseMessage)
  | accept (msg : PaxosAcceptMessage)
  | tlc (msg : TLCMessage)
deriving DecidableEq, Repr

namespace PaxosNode

variable {P : Type*}

/-- A node started on given stores. -/
def start (conf : Configuration) (s : Storage) : PaxosNode :=
  { handler := newPaxosHandler conf, storage := s }

/-- One message is handled.  The accepted value of a promise is read through its
pointer before the next message. -/
def respond (sha256 : Bytes → Bytes) (conf : Configuration) (n : PaxosNode) :
    AcceptorMessage P → PaxosNode × Option Response
  | .prepare msg =>
      let (draft, h) := n.handler.respondToPrepareMsg msg
      ({ n with handler := h },
        draft.map fun draft => .promise (draft.marshal h.acceptedValue))
  | .propose msg =>
      let (accept, h) := n.handler.respondToProposeMsg msg
      ({ n with handler := h }, accept.map .accept)
  | .accept msg =>
      let (tlc, n') := n.respondToAcceptMsg sha256 conf msg
      (n', tlc.map .tlc)
  | .tlc msg =>
      let (broadcasted, n') := n.respondToTLCMsg conf msg
      (n', if broadcasted then none else some (.tlc msg))

theorem respond_fst (sha256 : Bytes → Bytes) (conf : Configuration) (n : PaxosNode)
    (msg : AcceptorMessage P) :
    (n.respond sha256 conf msg).1 = n.handle sha256 conf msg := by
  cases msg <;> rfl

/-- The node as a service whose responses are logged with the step. -/
def service (P : Type*) (sha256 : Bytes → Bytes) (conf : Configuration) :
    Service PaxosNode (AcceptorMessage P) (Option (ℕ × Response)) where
  call n msg :=
    ((n.respond sha256 conf msg).1,
      (n.respond sha256 conf msg).2.map fun r => (n.handler.step, r))

/-- The node after a sequence of messages. -/
abbrev after (sha256 : Bytes → Bytes) (conf : Configuration) (n : PaxosNode)
    (msgs : List (AcceptorMessage P)) : PaxosNode :=
  (service P sha256 conf).after n msgs

/-- The responses to a sequence of messages in order, each with the step it was
given in. -/
def log (sha256 : Bytes → Bytes) (conf : Configuration) (n : PaxosNode)
    (msgs : List (AcceptorMessage P)) : List (ℕ × Response) :=
  ((service P sha256 conf).answers n msgs).reduceOption

theorem after_append (sha256 : Bytes → Bytes) (conf : Configuration) (n : PaxosNode)
    (pre msgs : List (AcceptorMessage P)) :
    n.after sha256 conf (pre ++ msgs) = (n.after sha256 conf pre).after sha256 conf msgs :=
  Service.after_append ..

theorem after_eq_handleAll (sha256 : Bytes → Bytes) (conf : Configuration)
    (n : PaxosNode) (msgs : List (AcceptorMessage P)) :
    n.after sha256 conf msgs = n.handleAll sha256 conf msgs := by
  induction msgs generalizing n with
  | nil => rfl
  | cons msg msgs ih =>
      have hcall : ((service P sha256 conf).call n msg).1 = n.handle sha256 conf msg :=
        n.respond_fst sha256 conf msg
      rw [after, Service.after, hcall]
      exact ih (n.handle sha256 conf msg)

/-! ## What a message can do -/

/-- A node ignores a message: it is of another step or of a number which the
acceptor does not take. -/
def Ignores (n : PaxosNode) : AcceptorMessage P → Prop
  | .prepare msg => n.handler.step ≠ msg.step ∨ msg.id ≤ n.handler.maxID
  | .propose msg => n.handler.step ≠ msg.step ∨ msg.id ≠ n.handler.maxID
  | .accept msg => n.handler.step ≠ msg.step
  | .tlc msg => msg.step < n.handler.step

/-- The outcomes of a message, each with its guard, the response and the node
after it. -/
inductive Responds (sha256 : Bytes → Bytes) (conf : Configuration) (n : PaxosNode) :
    AcceptorMessage P → Option Response → PaxosNode → Prop where
  | ignored (msg : AcceptorMessage P) (hignores : n.Ignores msg) :
      Responds sha256 conf n msg none n
  | promised (msg : PaxosPrepareMessage P) (hstep : n.handler.step = msg.step)
      (hid : n.handler.maxID < msg.id) :
      Responds sha256 conf n (.prepare msg)
        (some (.promise ((n.handler.draft msg.id).marshal n.handler.acceptedValue)))
        { n with handler := n.handler.promised msg.id }
  | accepted (msg : PaxosProposeMessage) (hstep : n.handler.step = msg.step)
      (hid : msg.id = n.handler.maxID) :
      Responds sha256 conf n (.propose msg) (some (.accept msg.accept))
        { n with handler := n.handler.accepted msg }
  | countedAccept (msg : PaxosAcceptMessage) (hstep : n.handler.step = msg.step)
      (hbelow : n.handler.acceptedValues msg.value + 1 < n.handler.threshold) :
      Responds sha256 conf n (.accept msg) none
        { n with handler := n.handler.countedAccept msg.value }
  | buffered (msg : TLCMessage) (hle : n.handler.step ≤ msg.step)
      (hbelow : msg.step = n.handler.step →
        ((n.handler.tlcMap ++ [msg] : TLCMap).at msg.step).length < n.handler.threshold) :
      Responds sha256 conf n (.tlc msg) none
        { n with handler := n.handler.buffered msg }
  | decided (msg : PaxosAcceptMessage) (bs : List BlockchainBlock) (n' : PaxosNode)
      (hstep : n.handler.step = msg.step)
      (hfull : n.handler.threshold ≤ n.handler.acceptedValues msg.value + 1)
      (hleave : n.LeavesStep conf n.handler.tlcMap
        (mkBlock sha256 n.handler.step msg.value n.storage.lastBlock) bs n') :
      Responds sha256 conf n (.accept msg)
        (some (.tlc ⟨n.handler.step,
          mkBlock sha256 n.handler.step msg.value n.storage.lastBlock⟩)) n'
  | finished (msg : TLCMessage) (bs : List BlockchainBlock) (n' : PaxosNode)
      (hstep : msg.step = n.handler.step)
      (hfull : n.handler.threshold ≤
        ((n.handler.tlcMap ++ [msg] : TLCMap).at msg.step).length)
      (hleave : n.LeavesStep conf (n.handler.tlcMap ++ [msg]) msg.block bs n') :
      Responds sha256 conf n (.tlc msg) (some (.tlc msg)) n'

section

variable {sha256 : Bytes → Bytes} {conf : Configuration} {n n' : PaxosNode}

theorem respond_prepare (msg : PaxosPrepareMessage P) :
    Responds sha256 conf n (.prepare msg) (n.respond sha256 conf (.prepare msg)).2
      (n.respond sha256 conf (.prepare msg)).1 := by
  simp only [respond, PaxosHandler.respondToPrepareMsg]
  by_cases hstep : n.handler.step = msg.step
  · rw [if_neg (not_not.mpr hstep)]
    by_cases hid : msg.id ≤ 0 ∨ msg.id ≤ n.handler.maxID
    · rw [if_pos hid]
      exact .ignored _ (.inr (by omega))
    · rw [if_neg hid]
      exact .promised msg hstep (by omega)
  · rw [if_pos hstep]
    exact .ignored _ (.inl hstep)

theorem respond_propose (msg : PaxosProposeMessage) :
    Responds (P := P) sha256 conf n (.propose msg)
      (n.respond (P := P) sha256 conf (.propose msg)).2
      (n.respond (P := P) sha256 conf (.propose msg)).1 := by
  simp only [respond, PaxosHandler.respondToProposeMsg]
  by_cases hstep : n.handler.step = msg.step
  · rw [if_neg (not_not.mpr hstep)]
    by_cases hid : msg.id = n.handler.maxID
    · rw [if_neg (not_not.mpr hid), ← PaxosHandler.accepted_eq, hstep]
      exact .accepted msg hstep hid
    · rw [if_pos hid]
      exact .ignored _ (.inr hid)
  · rw [if_pos hstep]
    exact .ignored _ (.inl hstep)

/-- The response to a message is one of the outcomes above. -/
theorem respond_responds (hT : 1 ≤ n.handler.threshold) (msg : AcceptorMessage P) :
    Responds sha256 conf n msg (n.respond sha256 conf msg).2
      (n.respond sha256 conf msg).1 := by
  cases msg with
  | prepare msg => exact respond_prepare msg
  | propose msg => exact respond_propose msg
  | accept msg =>
      simp only [respond]
      rcases n.respondToAcceptMsg_cases sha256 conf msg hT with
        ⟨hstep, heq⟩ | ⟨hstep, hbelow, heq⟩ | ⟨hstep, hfull, bs, n', hleave, heq⟩
      · rw [heq]
        exact .ignored _ hstep
      · rw [heq]
        exact .countedAccept msg hstep hbelow
      · rw [heq]
        exact .decided msg bs n' hstep hfull hleave
  | tlc msg =>
      simp only [respond]
      rcases n.respondToTLCMsg_cases conf msg hT with
        ⟨hlt, heq⟩ | ⟨hle, hbelow, heq⟩ | ⟨hstep, hfull, bs, n', hleave, heq⟩
      · rw [heq]
        exact .ignored _ hlt
      · rw [heq]
        exact .buffered msg hle hbelow
      · rw [heq]
        exact .finished msg bs n' hstep hfull hleave

variable {msg : AcceptorMessage P} {o : Option Response}

/-- Only a TLC message is sent when a step is left, and a TLC message is sent
only then. -/
theorem Responds.leaves {t : TLCMessage}
    (h : Responds sha256 conf n msg (some (.tlc t)) n') :
    t.step = n.handler.step ∧ ∃ m bs, n.LeavesStep conf m t.block bs n' := by
  cases h with
  | decided msg bs n' hstep hfull hleave => exact ⟨rfl, _, bs, hleave⟩
  | finished msg bs n' hstep hfull hleave => exact ⟨hstep, _, bs, hleave⟩

/-- Without a TLC message the node stays at its step and stores nothing. -/
theorem Responds.stays (h : Responds sha256 conf n msg o n')
    (ho : ∀ t, o ≠ some (.tlc t)) :
    n'.handler.step = n.handler.step ∧ n'.handler.threshold = n.handler.threshold ∧
      n'.storage = n.storage := by
  cases h with
  | decided => exact absurd rfl (ho _)
  | finished => exact absurd rfl (ho _)
  | _ => exact ⟨rfl, rfl, rfl⟩

theorem Responds.threshold (h : Responds sha256 conf n msg o n')
    (hT : n.handler.threshold = conf.threshold) :
    n'.handler.threshold = conf.threshold := by
  by_cases ho : ∃ t, o = some (.tlc t)
  · obtain ⟨t, rfl⟩ := ho
    obtain ⟨-, m, bs, hleave⟩ := h.leaves
    exact hleave.configured.threshold
  · rw [(h.stays fun t ht => ho ⟨t, ht⟩).2.1, hT]

/-- The log of one more message. -/
theorem log_append_singleton (n : PaxosNode) (pre : List (AcceptorMessage P))
    (msg : AcceptorMessage P) :
    n.log sha256 conf (pre ++ [msg]) =
      n.log sha256 conf pre ++
        (((n.after sha256 conf pre).respond sha256 conf msg).2.map fun r =>
          ((n.after sha256 conf pre).handler.step, r)).toList := by
  rw [log, Service.answers_append, List.reduceOption_append]
  rfl

/-- Log rule: a relation between the log and the node which every message
preserves holds after every sequence of messages. -/
theorem log_invariant {I : List (ℕ × Response) → PaxosNode → Prop}
    (hstep : ∀ log n (msg : AcceptorMessage P) o n', Responds sha256 conf n msg o n' →
      I log n → I (log ++ (o.map fun r => (n.handler.step, r)).toList) n')
    (hT : n.handler.threshold = conf.threshold) (hinit : I [] n)
    (msgs : List (AcceptorMessage P)) :
    I (n.log sha256 conf msgs) (n.after sha256 conf msgs) := by
  have hcall : ∀ log n msg,
      (n.handler.threshold = conf.threshold ∧ I log.reduceOption n) →
      ((service P sha256 conf).call n msg).1.handler.threshold = conf.threshold ∧
        I (log ++ [((service P sha256 conf).call n msg).2]).reduceOption
          ((service P sha256 conf).call n msg).1 := by
    rintro log n msg ⟨hT, hI⟩
    have hresp : Responds sha256 conf n msg _ _ :=
      respond_responds (hT ▸ conf.one_le_threshold) msg
    refine ⟨hresp.threshold hT, ?_⟩
    rw [List.reduceOption_append, List.reduceOption_singleton]
    exact hstep log.reduceOption n msg _ _ hresp hI
  have hstart : n.handler.threshold = conf.threshold ∧
      I (List.reduceOption ([] : List (Option (ℕ × Response)))) n := ⟨hT, hinit⟩
  exact (Service.history_invariant
    (I := fun log n => n.handler.threshold = conf.threshold ∧ I log.reduceOption n)
    hcall hstart msgs).2

theorem after_threshold (hT : n.handler.threshold = conf.threshold)
    (msgs : List (AcceptorMessage P)) :
    (n.after sha256 conf msgs).handler.threshold = conf.threshold :=
  log_invariant (I := fun _ n => n.handler.threshold = conf.threshold)
    (fun _ _ _ _ _ hresp hT => hresp.threshold hT) hT hT msgs

end

end PaxosNode
end Minotor
