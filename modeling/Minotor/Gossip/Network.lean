import Minotor.Gossip.RumorsHandler
import Minotor.Gossip.RoutingTable

/-!
# A network of gossiping nodes

Nodes which exchange rumors, status messages and acknowledgements, from
`callbacks.go`, `messaging.go` and `service.go`.  A node has one listening
routine, which works on one packet at a time, any number of callers of
`Broadcast` and `AddPeer`, and one `waitAck` routine for every packet it waits
for.  The atomic steps are the sections under one of the locks with the sends
that follow them.

The handler of an embedded message is outside the model: while it runs, every
other action may happen, and it returns with an error or without.  The handler
of an embedded status message is the action `execStatus`.  Random choices and
the iteration orders of maps are parameters of the actions.
-/

namespace Minotor.Gossip

variable {P M : Type*}

/-- `transport.Header`. -/
structure Header (P : Type*) where
  packetID : ℕ
  source : P
  relayedBy : P
  destination : P
deriving DecidableEq, Repr

/-- The messages of the rumor layer. -/
inductive Message (P M : Type*) where
  | rumors (rumors : List (Rumor P M))
  | status (status : SequenceMap P)
  | ack (ackedPacketID : ℕ) (status : SequenceMap P)

/-- `transport.Packet`. -/
structure Packet (P M : Type*) where
  header : Header P
  msg : Message P M

/-- A `waitAck` routine. -/
structure WaitAck (P M : Type*) where
  pkt : Packet P M
  neighbours : List P
  sentRumorNeighbours : List P
  /-- the routine has created its channel -/
  waiting : Bool

/-- A call of `ExecRumorsMessage` in the listening routine. -/
structure ExecRumors (P M : Type*) where
  header : Header P
  rumors : List (Rumor P M)
  pc : ProcessRumors P M

/-- The state of a node. -/
structure Node (P M : Type*) where
  run : Bool
  routingTable : NodeRT P
  rumorsHandler : RumorsHandler P M
  /-- the keys of `acksHandler`: the channels which are open -/
  acksHandler : List ℕ
  waits : List (WaitAck P M)
  listener : Option (ExecRumors P M)

/-- The choices in the handling of a status message: the order in which the
rumors map is visited, whether mongering continues, and the shuffle of the
neighbours. -/
structure Choices (P : Type*) where
  order : List P
  continueMongering : Bool
  shuffle : List P
deriving DecidableEq, Repr

/-- The state of a network.  `nextID` numbers the packets. -/
structure Network (P M : Type*) where
  nodes : P → Node P M
  packets : List (Packet P M)
  nextID : ℕ

inductive Action (P M : Type*) where
  | addPeer (p : P) (addr : List P)
  | broadcast (p : P) (msg : M) (shuffle : List P)
  /-- a `waitAck` routine creates its channel -/
  | createChannel (p : P) (i : ℕ)
  /-- a turn of the loop of a `waitAck` routine -/
  | waitAck (p : P) (i : ℕ)
  /-- a packet arrives and its handler starts -/
  | deliver (i : ℕ) (c : Choices P)
  /-- the handler of an accepted rumor returns -/
  | handlerReturns (p : P) (err : Bool)
  /-- `ExecRumorsMessage` acknowledges the packet and passes it on -/
  | finish (p : P) (shuffle : List P)
  /-- the handler of an embedded status message from `source` runs -/
  | execStatus (p source : P) (status : SequenceMap P) (c : Choices P)
  | drop (i : ℕ)
  | stop (p : P)
  /-- `Stop` closes the channels of the `waitAck` routines -/
  | closeAcks (p : P)

variable [DecidableEq P]

/-- The choice in `searchNeighbourAndSndPkt`. -/
def searchNeighbour (neighbours sentRumorNeighbours : List P) : Option P :=
  neighbours.find? (· ∉ sentRumorNeighbours)

theorem searchNeighbour_eq_some {neighbours sentRumorNeighbours : List P} {dest : P}
    (h : searchNeighbour neighbours sentRumorNeighbours = some dest) :
    dest ∈ neighbours ∧ dest ∉ sentRumorNeighbours := by
  unfold searchNeighbour at h
  exact ⟨List.mem_of_find?_eq_some h, by simpa using List.find?_some h⟩

namespace Node

/-- `NewPeersterNode`, started. -/
def new (myAddr : P) : Node P M where
  run := true
  routingTable := NodeRT.new.addEntry myAddr myAddr
  rumorsHandler := .new
  acksHandler := []
  waits := []
  listener := none

/-- `shuffle` is a result of `getNeighbours`. -/
def Shuffles (n : Node P M) (shuffle : List P) : Prop :=
  shuffle.Perm n.routingTable.neighbours

/-- The choices are possible for this node. -/
def Allows (n : Node P M) (c : Choices P) : Prop :=
  c.order.Perm n.rumorsHandler.rumors.keys ∧ n.Shuffles c.shuffle

instance (n : Node P M) (shuffle : List P) : Decidable (n.Shuffles shuffle) :=
  inferInstanceAs (Decidable (List.Perm _ _))

instance (n : Node P M) (c : Choices P) : Decidable (n.Allows c) :=
  inferInstanceAs (Decidable (_ ∧ _))

/-- `Broadcast` up to the local processing of the rumor: the node and the
packet which it sends, if it has a neighbour. -/
def broadcast (myAddr : P) (n : Node P M) (id : ℕ) (msg : M) (shuffle : List P) :
    Node P M × List (Packet P M) :=
  let (rumors, rH) := n.rumorsHandler.createRumorsMsg myAddr msg
  match searchNeighbour shuffle [] with
  | none => ({ n with rumorsHandler := rH }, [])
  | some dest =>
      let pkt : Packet P M := ⟨⟨id, myAddr, myAddr, dest⟩, .rumors rumors⟩
      ({ n with
        rumorsHandler := rH
        waits := n.waits ++ [⟨pkt, shuffle, [dest], false⟩] }, [pkt])

/-- `createChannel` in `waitAck`. -/
def createChannel (n : Node P M) (i : ℕ) : Option (Node P M) :=
  n.waits[i]?.bind fun w =>
    if w.waiting then none
    else some { n with
      acksHandler := w.pkt.header.packetID :: n.acksHandler
      waits := n.waits.set i { w with waiting := true } }

/-- A turn of the loop of `waitAck`: the routine ends when its channel is
closed or no neighbour is left, otherwise it sends the packet again. -/
def waitAck (n : Node P M) (i : ℕ) : Option (Node P M × List (Packet P M)) :=
  n.waits[i]?.bind fun w =>
    if w.waiting = false then none
    else if w.pkt.header.packetID ∉ n.acksHandler then
      some ({ n with waits := n.waits.eraseIdx i }, [])
    else
      match searchNeighbour w.neighbours w.sentRumorNeighbours with
      | none => some ({ n with waits := n.waits.eraseIdx i }, [])
      | some dest =>
          let pkt := { w.pkt with header := { w.pkt.header with destination := dest } }
          some ({ n with
            waits := n.waits.set i { w with
              pkt := pkt
              sentRumorNeighbours := dest :: w.sentRumorNeighbours } }, [pkt])

/-- The listening routine enters `processRumors` with the lock.  The relay of
an accepted rumor is entered into the routing table. -/
def processRumors (n : Node P M) (header : Header P) (rumors : List (Rumor P M))
    (processedRumor : Bool) (rest : List (Rumor P M)) : Node P M :=
  let (pc, rH) := n.rumorsHandler.processRumors processedRumor rest
  { n with
    rumorsHandler := rH
    routingTable :=
      match pc with
      | .handling m _ => n.routingTable.updateRT m.origin header.relayedBy
      | .returned _ => n.routingTable
    listener := some ⟨header, rumors, pc⟩ }

/-- The handler of an accepted rumor returns; an error ends the listening
routine. -/
def handlerReturns (n : Node P M) (err : Bool) : Option (Node P M) :=
  match n.listener with
  | some ⟨header, rumors, .handling _ rest⟩ =>
      some (if err then { n with run := false, listener := none }
        else n.processRumors header rumors true rest)
  | _ => none

/-- `sendBackAck`. -/
def sendBackAck (myAddr : P) (n : Node P M) (id : ℕ) (header : Header P) : Packet P M :=
  ⟨⟨id, myAddr, myAddr, header.source⟩,
    .ack header.packetID n.rumorsHandler.getSequenceMap⟩

/-- The end of `ExecRumorsMessage`: the packets it sends. -/
def finish (myAddr : P) (n : Node P M) (id : ℕ) (shuffle : List P) :
    Option (Node P M × List (Packet P M)) :=
  match n.listener with
  | some ⟨header, rumors, .returned discoveredRumor⟩ =>
      let ack := n.sendBackAck myAddr id header
      let relayed : List (Packet P M) :=
        if discoveredRumor then
          match searchNeighbour shuffle [header.source, header.relayedBy] with
          | none => []
          | some dest =>
              [⟨{ header with relayedBy := myAddr, destination := dest }, .rumors rumors⟩]
        else []
      some ({ n with listener := none }, ack :: relayed)
  | _ => none

/-- `ExecStatusMessage` for a status from `source`: the packets it sends, or
`none` if it panics. -/
def execStatusMessage (myAddr : P) (n : Node P M) (id : ℕ) (source : P)
    (status : SequenceMap P) (c : Choices P) : Option (List (Packet P M)) :=
  (n.rumorsHandler.getRemoteMissingRumors status c.order).map fun remoteMissingRumors =>
    let localMissingRumors := n.rumorsHandler.isLocalMissingRumors status
    let mine : Message P M := .status n.rumorsHandler.getSequenceMap
    let asked : List (Packet P M) :=
      if localMissingRumors then [⟨⟨id, myAddr, myAddr, source⟩, mine⟩] else []
    let answer : List (Packet P M) :=
      if remoteMissingRumors ≠ [] then
        [⟨⟨id + 1, myAddr, myAddr, source⟩, .rumors remoteMissingRumors⟩]
      else []
    let mongering : List (Packet P M) :=
      if !localMissingRumors ∧ remoteMissingRumors = [] ∧ c.continueMongering then
        match searchNeighbour c.shuffle [source] with
        | none => []
        | some dest => [⟨⟨id + 2, myAddr, myAddr, dest⟩, mine⟩]
      else []
    asked ++ answer ++ mongering

/-- The handler of a status message in the listening routine. -/
def handleStatus (myAddr : P) (n : Node P M) (id : ℕ) (source : P)
    (status : SequenceMap P) (c : Choices P) : Node P M × List (Packet P M) :=
  match n.execStatusMessage myAddr id source status c with
  | none => ({ n with run := false }, [])
  | some packets => (n, packets)

/-- A packet for this node arrives at its listening routine.  A rumors message
from the node itself is processed locally. -/
def receive (myAddr : P) (n : Node P M) (id : ℕ) (pkt : Packet P M) (c : Choices P) :
    Node P M × List (Packet P M) :=
  match pkt.msg with
  | .rumors rumors =>
      if pkt.header.source = pkt.header.destination then (n, [])
      else (n.processRumors pkt.header rumors false rumors, [])
  | .status status => n.handleStatus myAddr id pkt.header.source status c
  | .ack _ status =>
      handleStatus myAddr { n with acksHandler := n.acksHandler.erase pkt.header.packetID }
        id pkt.header.source status c

/-! ### What the operations do -/

section

variable {n n' : Node P M} {myAddr : P} {id i : ℕ} {sent : List (Packet P M)}

omit [DecidableEq P] in
theorem createChannel_eq (hn : n.createChannel i = some n') :
    ∃ w, n.waits[i]? = some w ∧
      n' = { n with
        acksHandler := w.pkt.header.packetID :: n.acksHandler
        waits := n.waits.set i { w with waiting := true } } := by
  unfold createChannel at hn
  obtain ⟨w, hw, hn⟩ := Option.bind_eq_some_iff.mp hn
  split at hn
  · cases hn
  · exact ⟨w, hw, (Option.some.inj hn).symm⟩

/-- A turn of `waitAck` ends the routine, or sends its packet to another neighbour. -/
theorem waitAck_cases (hn : n.waitAck i = some (n', sent)) :
    ∃ w, n.waits[i]? = some w ∧
      ((n' = { n with waits := n.waits.eraseIdx i } ∧ sent = []) ∨
        ∃ dest pkt, w.pkt.header.packetID ∈ n.acksHandler ∧
          searchNeighbour w.neighbours w.sentRumorNeighbours = some dest ∧
          pkt = { w.pkt with header := { w.pkt.header with destination := dest } } ∧
          n' = { n with
            waits := n.waits.set i { w with
              pkt := pkt
              sentRumorNeighbours := dest :: w.sentRumorNeighbours } } ∧
          sent = [pkt]) := by
  unfold waitAck at hn
  obtain ⟨w, hw, hn⟩ := Option.bind_eq_some_iff.mp hn
  refine ⟨w, hw, ?_⟩
  split at hn
  · cases hn
  · split at hn
    · obtain ⟨rfl, rfl⟩ := Prod.mk.inj (Option.some.inj hn)
      exact .inl ⟨rfl, rfl⟩
    · next hopen =>
        split at hn
        · obtain ⟨rfl, rfl⟩ := Prod.mk.inj (Option.some.inj hn)
          exact .inl ⟨rfl, rfl⟩
        · next dest hdest =>
            obtain ⟨rfl, rfl⟩ := Prod.mk.inj (Option.some.inj hn)
            exact .inr ⟨dest, _, not_not.mp hopen, hdest, rfl, rfl, rfl⟩

theorem handlerReturns_cases {err : Bool} (hn : n.handlerReturns err = some n') :
    ∃ header rumors m rest, n.listener = some ⟨header, rumors, .handling m rest⟩ ∧
      ((err = true ∧ n' = { n with run := false, listener := none }) ∨
        err = false ∧ n' = n.processRumors header rumors true rest) := by
  unfold handlerReturns at hn
  split at hn
  · next header rumors m rest hlistener =>
      refine ⟨header, rumors, m, rest, hlistener, ?_⟩
      obtain rfl := Option.some.inj hn
      cases err with
      | true => exact .inl ⟨rfl, rfl⟩
      | false => exact .inr ⟨rfl, rfl⟩
  · cases hn

/-- After its rumors, a packet is acknowledged, and passed on if it had a new one. -/
theorem finish_cases {shuffle : List P} (hn : n.finish myAddr id shuffle = some (n', sent)) :
    ∃ header rumors discovered, n.listener = some ⟨header, rumors, .returned discovered⟩ ∧
      n' = { n with listener := none } ∧ n.sendBackAck myAddr id header ∈ sent ∧
      ∀ pkt ∈ sent, pkt = n.sendBackAck myAddr id header ∨
        ∃ dest, discovered = true ∧
          searchNeighbour shuffle [header.source, header.relayedBy] = some dest ∧
          pkt = ⟨{ header with relayedBy := myAddr, destination := dest }, .rumors rumors⟩ := by
  unfold finish at hn
  split at hn
  · next header rumors discovered hlistener =>
      obtain ⟨rfl, rfl⟩ := Prod.mk.inj (Option.some.inj hn)
      refine ⟨header, rumors, discovered, hlistener, rfl, List.mem_cons_self, ?_⟩
      intro pkt hpkt
      rcases List.mem_cons.mp hpkt with rfl | hpkt
      · exact .inl rfl
      · right
        split at hpkt
        · next hdiscovered =>
            split at hpkt
            · exact absurd hpkt List.not_mem_nil
            · next dest hdest =>
                exact ⟨dest, hdiscovered, hdest, List.mem_singleton.mp hpkt⟩
        · exact absurd hpkt List.not_mem_nil
  · cases hn

/-- A status is answered by a status, by missing rumors, or passed on. -/
theorem mem_execStatusMessage {source : P} {status : SequenceMap P} {c : Choices P}
    (hn : n.execStatusMessage myAddr id source status c = some sent) :
    ∃ missing, n.rumorsHandler.getRemoteMissingRumors status c.order = some missing ∧
      ∀ pkt ∈ sent,
        pkt = ⟨⟨id, myAddr, myAddr, source⟩, .status n.rumorsHandler.getSequenceMap⟩ ∨
        (missing ≠ [] ∧ pkt = ⟨⟨id + 1, myAddr, myAddr, source⟩, .rumors missing⟩) ∨
        ∃ dest, searchNeighbour c.shuffle [source] = some dest ∧
          pkt = ⟨⟨id + 2, myAddr, myAddr, dest⟩, .status n.rumorsHandler.getSequenceMap⟩ := by
  unfold execStatusMessage at hn
  obtain ⟨missing, hmissing, rfl⟩ := Option.map_eq_some_iff.mp hn
  refine ⟨missing, hmissing, fun pkt hpkt => ?_⟩
  simp only [List.mem_append] at hpkt
  rcases hpkt with (hpkt | hpkt) | hpkt
  · split at hpkt
    · exact .inl (List.mem_singleton.mp hpkt)
    · exact absurd hpkt List.not_mem_nil
  · split at hpkt
    · next hne => exact .inr (.inl ⟨hne, List.mem_singleton.mp hpkt⟩)
    · exact absurd hpkt List.not_mem_nil
  · split at hpkt
    · split at hpkt
      · exact absurd hpkt List.not_mem_nil
      · next dest hdest => exact .inr (.inr ⟨dest, hdest, List.mem_singleton.mp hpkt⟩)
    · exact absurd hpkt List.not_mem_nil

end

end Node

namespace Network

/-- All nodes started, nothing sent. -/
def initial : Network P M := ⟨fun p => .new p, [], 0⟩

/-- Node `p` changes and sends packets. -/
def put (st : Network P M) (p : P) (n : Node P M) (sent : List (Packet P M)) :
    Network P M where
  nodes := Function.update st.nodes p n
  packets := st.packets ++ sent
  nextID := st.nextID + 3

/-- One action. -/
def next (st : Network P M) : Action P M → Option (Network P M)
  | .addPeer p addr =>
      some (st.put p { st.nodes p with
        routingTable := (st.nodes p).routingTable.addEntries addr } [])
  | .broadcast p msg shuffle =>
      if (st.nodes p).Shuffles shuffle then
        let (n, sent) := (st.nodes p).broadcast p st.nextID msg shuffle
        some (st.put p n sent)
      else none
  | .createChannel p i => ((st.nodes p).createChannel i).map fun n => st.put p n []
  | .waitAck p i => ((st.nodes p).waitAck i).map fun (n, sent) => st.put p n sent
  | .deliver i c =>
      st.packets[i]?.bind fun pkt =>
        let p := pkt.header.destination
        if (st.nodes p).run ∧ (st.nodes p).listener.isNone ∧ (st.nodes p).Allows c then
          let (n, sent) := (st.nodes p).receive p st.nextID pkt c
          some (put { st with packets := st.packets.eraseIdx i } p n sent)
        else none
  | .handlerReturns p err =>
      ((st.nodes p).handlerReturns err).map fun n => st.put p n []
  | .finish p shuffle =>
      if (st.nodes p).Shuffles shuffle then
        ((st.nodes p).finish p st.nextID shuffle).map fun (n, sent) => st.put p n sent
      else none
  | .execStatus p source status c =>
      if (st.nodes p).Allows c then
        ((st.nodes p).execStatusMessage p st.nextID source status c).map fun sent =>
          st.put p (st.nodes p) sent
      else none
  | .drop i => st.packets[i]?.map fun _ => { st with packets := st.packets.eraseIdx i }
  | .stop p => some (st.put p { st.nodes p with run := false } [])
  | .closeAcks p =>
      if (st.nodes p).run then none
      else some (st.put p { st.nodes p with acksHandler := [] } [])

/-- The steps of a network. -/
inductive Step (st : Network P M) : Action P M → Network P M → Prop where
  | addPeer (p : P) (addr : List P) :
      Step st (.addPeer p addr) (st.put p { st.nodes p with
        routingTable := (st.nodes p).routingTable.addEntries addr } [])
  | broadcast (p : P) (msg : M) (shuffle : List P)
      (hshuffle : (st.nodes p).Shuffles shuffle) :
      Step st (.broadcast p msg shuffle)
        (st.put p ((st.nodes p).broadcast p st.nextID msg shuffle).1
          ((st.nodes p).broadcast p st.nextID msg shuffle).2)
  | createChannel (p : P) (i : ℕ) (n : Node P M)
      (hn : (st.nodes p).createChannel i = some n) :
      Step st (.createChannel p i) (st.put p n [])
  | waitAck (p : P) (i : ℕ) (n : Node P M) (sent : List (Packet P M))
      (hn : (st.nodes p).waitAck i = some (n, sent)) :
      Step st (.waitAck p i) (st.put p n sent)
  | deliver (i : ℕ) (c : Choices P) (pkt : Packet P M) (hpkt : st.packets[i]? = some pkt)
      (hrun : (st.nodes pkt.header.destination).run = true)
      (hidle : (st.nodes pkt.header.destination).listener = none)
      (hallows : (st.nodes pkt.header.destination).Allows c) :
      Step st (.deliver i c)
        (put { st with packets := st.packets.eraseIdx i } pkt.header.destination
          ((st.nodes pkt.header.destination).receive pkt.header.destination st.nextID pkt c).1
          ((st.nodes pkt.header.destination).receive pkt.header.destination st.nextID pkt c).2)
  | handlerReturns (p : P) (err : Bool) (n : Node P M)
      (hn : (st.nodes p).handlerReturns err = some n) :
      Step st (.handlerReturns p err) (st.put p n [])
  | finish (p : P) (shuffle : List P) (n : Node P M) (sent : List (Packet P M))
      (hshuffle : (st.nodes p).Shuffles shuffle)
      (hn : (st.nodes p).finish p st.nextID shuffle = some (n, sent)) :
      Step st (.finish p shuffle) (st.put p n sent)
  | execStatus (p source : P) (status : SequenceMap P) (c : Choices P)
      (sent : List (Packet P M)) (hallows : (st.nodes p).Allows c)
      (hsent : (st.nodes p).execStatusMessage p st.nextID source status c = some sent) :
      Step st (.execStatus p source status c) (st.put p (st.nodes p) sent)
  | drop (i : ℕ) (pkt : Packet P M) (hpkt : st.packets[i]? = some pkt) :
      Step st (.drop i) { st with packets := st.packets.eraseIdx i }
  | stop (p : P) : Step st (.stop p) (st.put p { st.nodes p with run := false } [])
  | closeAcks (p : P) (hstopped : (st.nodes p).run = false) :
      Step st (.closeAcks p) (st.put p { st.nodes p with acksHandler := [] } [])

theorem step_of_next {st st' : Network P M} {a : Action P M} (hnext : st.next a = some st') :
    st.Step a st' := by
  cases a with
  | addPeer p addr =>
      obtain rfl := Option.some.inj hnext
      exact .addPeer p addr
  | broadcast p msg shuffle =>
      simp only [next, Option.ite_none_right_eq_some] at hnext
      obtain ⟨hshuffle, heq⟩ := hnext
      obtain rfl := Option.some.inj heq
      exact .broadcast p msg shuffle hshuffle
  | createChannel p i =>
      obtain ⟨n, hn, rfl⟩ := Option.map_eq_some_iff.mp hnext
      exact .createChannel p i n hn
  | waitAck p i =>
      obtain ⟨⟨n, sent⟩, hn, rfl⟩ := Option.map_eq_some_iff.mp hnext
      exact .waitAck p i n sent hn
  | deliver i c =>
      obtain ⟨pkt, hpkt, hnext⟩ := Option.bind_eq_some_iff.mp hnext
      simp only [Option.ite_none_right_eq_some] at hnext
      obtain ⟨⟨hrun, hidle, hallows⟩, heq⟩ := hnext
      obtain rfl := Option.some.inj heq
      exact .deliver i c pkt hpkt hrun (Option.isNone_iff_eq_none.mp hidle) hallows
  | handlerReturns p err =>
      obtain ⟨n, hn, rfl⟩ := Option.map_eq_some_iff.mp hnext
      exact .handlerReturns p err n hn
  | finish p shuffle =>
      simp only [next, Option.ite_none_right_eq_some, Option.map_eq_some_iff] at hnext
      obtain ⟨hshuffle, ⟨n, sent⟩, hn, rfl⟩ := hnext
      exact .finish p shuffle n sent hshuffle hn
  | execStatus p source status c =>
      simp only [next, Option.ite_none_right_eq_some, Option.map_eq_some_iff] at hnext
      obtain ⟨hallows, sent, hsent, rfl⟩ := hnext
      exact .execStatus p source status c sent hallows hsent
  | drop i =>
      obtain ⟨pkt, hpkt, rfl⟩ := Option.map_eq_some_iff.mp hnext
      exact .drop i pkt hpkt
  | stop p =>
      obtain rfl := Option.some.inj hnext
      exact .stop p
  | closeAcks p =>
      simp only [next, Option.ite_none_left_eq_some] at hnext
      obtain ⟨hstopped, heq⟩ := hnext
      obtain rfl := Option.some.inj heq
      exact .closeAcks p (Bool.not_eq_true _ ▸ hstopped)

end Network

/-- The transition system of a network which starts in `init`. -/
def gossipFrom (init : Network P M) : TransitionSystem (Network P M) (Action P M) where
  init := init
  next := Network.next

/-- The transition system of a network of new nodes. -/
def gossip : TransitionSystem (Network P M) (Action P M) := gossipFrom .initial

end Minotor.Gossip
