import Minotor.Gossip.OwnRumors
import Minotor.Network.Steps

/-!
# Peers over the rumor layer

Both halves of a node in one system: the peers of a network, and the rumor layer which carries
their messages.  A job which broadcasts calls `Broadcast` of its node, and the job of a listener
is the handler of the rumor which the listening routine of its node has accepted.  A peer
gets nothing but what the packets of the rumor layer bring, and these may be lost, delayed and
overtaken.

The messages of the peers have no embedded status message.  The local processing of packets
which a node has sent to itself is left out: a node which is not its own peer gets none.
-/

namespace Minotor

variable {P M : Type*}

/-- The step runs no handler and is not part of one. -/
def Gossip.Action.runsNoHandler : Gossip.Action P M → Bool
  | .addPeer _ _ | .createChannel _ _ | .waitAck _ _ | .finish _ _ | .drop _
  | .closeAcks _ => true
  | .broadcast _ _ _ | .deliver _ _ | .handlerReturns _ _ | .execStatus _ _ _ _
  | .stop _ => false

/-- The message which a job broadcasts in its next step. -/
def Job.broadcast? : Job P → Option (Message P)
  | .broadcast msg => some msg
  | _ => none

/-- Whether the step of a job has ended its handler, with an error or without. -/
def Next.returned? : Next P → Option Bool
  | .job _ => none
  | .done => some false
  | .failed _ => some true

/-- The peers of a network over their nodes. -/
structure Stack (P : Type*) where
  net : Gossip.Network P (Message P)
  system : System P
  /-- the handler in the listening routine has returned, with an error or without -/
  returned : P → Option Bool

inductive StackAction (P : Type*) where
  | gossip (a : Gossip.Action P (Message P))
  | antiEntropy (p : P) (shuffle : List P)
  /-- a packet arrives at its listening routine -/
  | deliver (i : ℕ) (c : Gossip.Choices P)
  /-- the listening routine goes on after a handler -/
  | handlerReturns (p : P)
  /-- a step of a peer, with the neighbours if it broadcasts -/
  | peer (a : Action P) (shuffle : List P)

variable [DecidableEq P]

/-- How a step of the listener ends its handler. -/
def Peer.returned? (sha256 : Bytes → Bytes) (conf : Configuration) (self : P) (peer : Peer P) :
    Option Bool :=
  peer.listener.bind fun job =>
    (peer.node.runJob sha256 conf self job).bind fun (_, next) => next.returned?

/-- The handler of the rumor starts which the node has accepted. -/
def Peer.start (peer : Peer P) (n : Gossip.Node P (Message P)) : Peer P :=
  match n.handling with
  | [] => peer
  | r :: _ => System.receive peer ⟨r.origin, r.sequence, r.msg⟩

namespace Stack

/-- What the rumor layer does in a step of a peer. -/
def follow (st : Stack P) (a : Action P) (shuffle : List P) :
    Option (Gossip.Network P (Message P)) :=
  match a with
  | .tag _ _ _ => some st.net
  | .deliver _ _ _ => none
  | .stop p => st.net.next (.stop p)
  | .listen p => broadcast p .listener
  | .call p i _ => broadcast p (.call i)
where
  /-- `Broadcast`, if the job of a goroutine calls it -/
  broadcast (p : P) (t : Peer.Thread) : Option (Gossip.Network P (Message P)) :=
    match ((st.system.peers p).job? t).bind Job.broadcast? with
    | none => some st.net
    | some msg => st.net.next (.broadcast p msg shuffle)

/-- One action. -/
def next (sha256 : Bytes → Bytes) (conf : P → Configuration) (st : Stack P) :
    StackAction P → Option (Stack P)
  | .gossip a =>
      if a.runsNoHandler then (st.net.next a).map fun net => { st with net := net } else none
  | .antiEntropy p shuffle =>
      (st.net.antiEntropy p shuffle).map fun net => { st with net := net }
  | .deliver i c =>
      st.net.packets[i]?.bind fun pkt =>
        let p := pkt.header.destination
        (st.net.next (.deliver i c)).map fun net =>
          { st with
            net := net
            system := st.system.setPeer p ((st.system.peers p).start (net.nodes p)) }
  | .handlerReturns p =>
      (st.returned p).bind fun err =>
        (st.net.next (.handlerReturns p err)).map fun net =>
          { net := net
            system := st.system.setPeer p ((st.system.peers p).start (net.nodes p))
            returned := Function.update st.returned p none }
  | .peer a shuffle =>
      (st.follow a shuffle).bind fun net =>
        (System.next sha256 conf st.system a).map fun system =>
          { net := net
            system := system
            returned :=
              match a with
              | .listen p => Function.update st.returned p
                  ((st.system.peers p).returned? sha256 (conf p) p)
              | _ => st.returned }

/-- The action of the network of peers which an action is, if it is one. -/
def action? (st : Stack P) : StackAction P → Option (Action P)
  | .gossip _ => none
  | .antiEntropy _ _ => none
  | .deliver i c =>
      st.net.packets[i]?.bind fun pkt => delivery pkt.header.destination (.deliver i c)
  | .handlerReturns p =>
      (st.returned p).bind fun err => delivery p (.handlerReturns p err)
  | .peer a _ => some a
where
  /-- the rumor which a node accepts in a step is delivered -/
  delivery (p : P) (a : Gossip.Action P (Message P)) : Option (Action P) :=
    (st.net.next a).bind fun net =>
      (net.nodes p).handling.head?.map fun r => .deliver p r.origin r.sequence

/-- `AddPeer` of a node does not get the node itself, and no peer is stopped while its listening
routine works on a packet. -/
def Regular (st : Stack P) : StackAction P → Prop
  | .gossip (.addPeer p addr) => p ∉ addr
  | .peer (.stop p) _ => (st.net.nodes p).listener.isNone
  | _ => True

instance (st : Stack P) (a : StackAction P) : Decidable (st.Regular a) :=
  match a with
  | .gossip (.addPeer p addr) => inferInstanceAs (Decidable (p ∉ addr))
  | .peer (.stop p) _ => inferInstanceAs (Decidable ((st.net.nodes p).listener.isNone = true))
  | .gossip (.broadcast _ _ _) | .gossip (.createChannel _ _) | .gossip (.waitAck _ _)
  | .gossip (.deliver _ _) | .gossip (.handlerReturns _ _) | .gossip (.finish _ _)
  | .gossip (.execStatus _ _ _ _) | .gossip (.drop _) | .gossip (.stop _)
  | .gossip (.closeAcks _) | .antiEntropy _ _ | .deliver _ _ | .handlerReturns _
  | .peer (.tag _ _ _) _ | .peer (.deliver _ _ _) _ | .peer (.listen _) _
  | .peer (.call _ _ _) _ => isTrue trivial

end Stack

/-- The transition system of peers over the rumor layer. -/
def stack (sha256 : Bytes → Bytes) (conf : P → Configuration) :
    TransitionSystem (Stack P) (StackAction P) where
  init := ⟨.initial, .initial conf, fun _ => none⟩
  next := Stack.next sha256 conf

/-! ## Schedules -/

namespace StackAction

/-- Steps of peers. -/
def peers (shuffle : List P) (acts : List (Action P)) : List (StackAction P) :=
  acts.map (.peer · shuffle)

/-- Packet `i` is delivered to `p`, its rumor is processed in `k` steps, and the packet is
acknowledged. -/
def handles (p : P) (i : ℕ) (order shuffle : List P) (k : ℕ) : List (StackAction P) :=
  .deliver i ⟨order, false, shuffle⟩ :: peers shuffle (Action.listens p k) ++
    [.handlerReturns p, .gossip (.finish p shuffle)]

/-- Of two peers, peer 0 tags a name, and both decide.  Nothing but the rumors arrives. -/
def tagRun : List (StackAction (Fin 2)) :=
  .gossip (.addPeer 0 [1]) :: .gossip (.addPeer 1 [0]) ::
    peers [1] (.tag 0 "file" "meta" :: Action.opens 0 0 "id") ++
    handles 1 0 [] [0] 4 ++ handles 1 0 [0, 1] [0] 1 ++ handles 0 0 [0] [1] 1 ++
    peers [1] (.call 0 0 .recv :: Action.steps 0 0 6) ++
    handles 1 3 [0, 1] [0] 3 ++ handles 0 4 [0, 1] [1] 3 ++ handles 1 3 [0, 1] [0] 3

end StackAction
end Minotor
