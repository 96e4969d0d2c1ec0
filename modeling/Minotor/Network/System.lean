import Minotor.Support.TransitionSystem
import Minotor.Peer.Tag

/-!
# A network of peers

Peers which run only the modelled code, as a transition system.  An action is
a new `Tag` call, a delivery of a rumor to the listener of a peer, one step of
a listener or of a call, or `Stop`.  `deliver` hands over any rumor of any
origin; the discipline of the rumor layer, which delivers the rumors of one
origin in sequence order and exactly once, is the guard `InOrder`.
-/

namespace Minotor

/-- A peer with its goroutines. -/
structure Peer (P : Type*) where
  node : Node P
  listener : Option (Job P)
  calls : List (TagCall P)

/-- The state of a network.  `xids` are the identifiers `xid.New` has given
out. -/
structure System (P : Type*) where
  peers : P → Peer P
  xids : List String

/-- Actions of a network. -/
inductive Action (P : Type*) where
  | tag (p : P) (name mh : String)
  | deliver (p origin : P) (sequence : ℕ)
  | listen (p : P)
  | call (p : P) (i : ℕ) (c : Choice)
  | stop (p : P)
deriving DecidableEq, Repr

namespace Peer

variable {P : Type*}

def new (conf : Configuration) : Peer P := ⟨.new conf, none, []⟩

/-- A goroutine of a peer: its listener or one of its calls. -/
inductive Thread where
  | listener
  | call (i : ℕ)
deriving DecidableEq, Repr

/-- The job of a goroutine. -/
def job? (peer : Peer P) : Thread → Option (Job P)
  | .listener => peer.listener
  | .call i => peer.calls[i]?.bind fun call => call.pc.job?

/-- The program point of call `i` is moved. -/
def movePc (peer : Peer P) (n : Node P) (i : ℕ) (f : TagPc P → TagPc P) : Peer P :=
  { peer with
    node := n
    calls := peer.calls.modify i fun call => { call with pc := f call.pc } }

/-- A goroutine after a step of its job.  An error ends the listening routine
of the peer, or the call. -/
def afterJob (peer : Peer P) : Thread → Node P → Next P → Peer P
  | .listener, n, .job j => { peer with node := n, listener := some j }
  | .listener, n, .done => { peer with node := n, listener := none }
  | .listener, n, .failed _ =>
      { peer with node := { n with run := false }, listener := none }
  | .call i, n, next => peer.movePc n i fun pc => pc.withNext next

variable [DecidableEq P]

/-- A step of the listener. -/
def listen (sha256 : Bytes → Bytes) (conf : Configuration) (self : P)
    (peer : Peer P) : Option (Peer P) :=
  peer.listener.bind fun job =>
    (peer.node.runJob sha256 conf self job).map fun (n, next) =>
      peer.afterJob .listener n next

/-- A step of a call: of its broadcast, if it is in one, or of its own. -/
def stepCall (sha256 : Bytes → Bytes) (conf : Configuration) (self : P)
    (peer : Peer P) (i : ℕ) (c : Choice) : Option (Peer P) :=
  peer.calls[i]?.bind fun call =>
    match call.pc.job? with
    | some job =>
        if c = .run then
          (peer.node.runJob sha256 conf self job).map fun (n, next) =>
            peer.afterJob (.call i) n next
        else none
    | none =>
        (call.stepOwn conf self i peer.node c).map fun (n, pc) =>
          peer.movePc n i fun _ => pc

end Peer

namespace System

variable {P : Type*} [DecidableEq P]

/-- All peers started, nothing sent. -/
def initial (conf : P → Configuration) : System P where
  peers := fun p => .new (conf p)
  xids := []

def setPeer (st : System P) (p : P) (peer : Peer P) : System P :=
  { st with peers := Function.update st.peers p peer }

/-- The identifier drawn in an action is not empty and not given out before. -/
def FreshIn (st : System P) : Choice → Prop
  | .fresh uniqID => uniqID ≠ "" ∧ uniqID ∉ st.xids
  | _ => True

instance (st : System P) (c : Choice) : Decidable (st.FreshIn c) := by
  unfold FreshIn
  split <;> infer_instance

def drawn : Choice → List String
  | .fresh uniqID => [uniqID]
  | _ => []

/-- The listener receives a rumor.  `processRumors` advances the sequence map
when the rumor is the next one of its origin. -/
def receive (peer : Peer P) (r : Rumor P) : Peer P :=
  { peer with
    listener := some (.exec r)
    node := { peer.node with
      sequenceMap :=
        if r.sequence = peer.node.sequenceMap r.origin + 1 then
          Function.update peer.node.sequenceMap r.origin r.sequence
        else peer.node.sequenceMap } }

/-- One action. -/
def next (sha256 : Bytes → Bytes) (conf : P → Configuration) (st : System P) :
    Action P → Option (System P)
  | .tag p name mh =>
      some (st.setPeer p { st.peers p with
        calls := (st.peers p).calls ++ [⟨name, mh, .lookup⟩] })
  | .deliver p origin sequence =>
      if (st.peers p).node.run = true ∧ (st.peers p).listener = none ∧
          0 < sequence then
        ((st.peers origin).node.rumors[sequence - 1]?).map fun msg =>
          st.setPeer p (receive (st.peers p) ⟨origin, sequence, msg⟩)
      else none
  | .listen p =>
      ((st.peers p).listen sha256 (conf p) p).map (st.setPeer p)
  | .call p i c =>
      if st.FreshIn c then
        ((st.peers p).stepCall sha256 (conf p) p i c).map fun peer =>
          { st.setPeer p peer with xids := drawn c ++ st.xids }
      else none
  | .stop p =>
      some (st.setPeer p { st.peers p with
        node := { (st.peers p).node with stopped := true, run := false } })

/-- The discipline of the rumor layer: a peer receives rumors of other peers,
those of one origin in sequence order and each exactly once. -/
def InOrder (st : System P) : Action P → Prop
  | .deliver p origin sequence =>
      origin ≠ p ∧ sequence = (st.peers p).node.sequenceMap origin + 1
  | _ => True

instance (st : System P) (a : Action P) : Decidable (st.InOrder a) := by
  unfold InOrder
  split <;> infer_instance

end System

/-- The configuration of `n` peers with the IDs 1 to `n` of which a majority is
needed. -/
def majorityNetwork (n : ℕ) (p : Fin n) : Configuration :=
  .majority n (p + 1)

/-- The transition system of a network. -/
def network {P : Type*} [DecidableEq P] (sha256 : Bytes → Bytes)
    (conf : P → Configuration) : TransitionSystem (System P) (Action P) where
  init := .initial conf
  next := System.next sha256 conf

/-! ## Schedules

Pieces of the schedules of concrete runs. -/

namespace Action

variable {P : Type*}

/-- Steps of a call which leave nothing open. -/
def steps (p : P) (i k : ℕ) : List (Action P) :=
  List.replicate k (.call p i .run)

def listens (p : P) (k : ℕ) : List (Action P) :=
  List.replicate k (.listen p)

/-- A rumor is delivered and processed. -/
def handles (p origin : P) (sequence k : ℕ) : List (Action P) :=
  .deliver p origin sequence :: listens p k

/-- A call which finds its name free and no instance running goes on to the
select of phase 1.  Its peer promises to itself on the way. -/
def opens (p : P) (i : ℕ) (uniqID : String) : List (Action P) :=
  steps p i 4 ++ .call p i (.fresh uniqID) :: steps p i 6

/-- The ticker of phase 1 starts the next round. -/
def retries (p : P) (i : ℕ) (uniqID : String) : List (Action P) :=
  .call p i .tick :: steps p i 1 ++ .call p i (.fresh uniqID) :: steps p i 6

/-- Of two peers, peer 0 tags a name and decides with the accepts of both. -/
def tagRun : List (Action (Fin 2)) :=
  .tag 0 "file" "meta" :: opens 0 0 "id" ++ handles 1 0 1 4 ++ handles 1 0 2 1 ++
    handles 0 1 1 1 ++ .call 0 0 .recv :: steps 0 0 6 ++ handles 1 0 3 3 ++
    handles 0 1 2 3

end Action
end Minotor
