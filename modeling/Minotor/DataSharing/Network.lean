import Minotor.DataSharing.Node
import Minotor.Support.TransitionSystem

/-!
# A network of data-sharing nodes

Nodes with any number of calls of `Upload`, `Download`, `SearchAll` and
`SearchFirst`, each with one listening routine.  Packets may be delayed,
reordered, lost and duplicated.  The rest of a node may write its routing table
and its naming store at any time.  A failing send, the random provider, the
shuffle of the neighbours and the order of `ForEach` are parameters of the
actions; `forge` puts a data reply on the network which no node has sent.
-/

namespace Minotor.DataSharing

open Minotor.Gossip (NodeRT)

/-- What happens at one node without a packet. -/
inductive Call (P : Type*) where
  | upload
  | uploadRead (i : ℕ) (r : Read)
  | download (metahash : Bytes)
  | downloadStep (i : ℕ)
  | downloadRequest (i : ℕ) (randomPeer : P) (ok : Bool)
  | downloadTick (i : ℕ) (ok : Bool)
  | searchAll (pattern : Bytes) (budget : UInt64) (neighbours : List P)
  | searchAllSend (i : ℕ) (ok : Bool)
  | retrieve (i : ℕ) (filenames : List Bytes)
  | searchFirst (pattern : Bytes) (conf : ExpandingRing) (order : List Bytes)
      (neighbours : List P)
  | searchFirstSend (i : ℕ) (ok : Bool)
  | searchFirstRecv (i : ℕ)
  | searchFirstTick (i : ℕ) (neighbours : List P)
  /-- the listening routine sends the next request which it forwards -/
  | forward (ok : Bool)
  | updateCatalog (key : Bytes) (peer : P)
  | setRoutingTable (routingTable : NodeRT P)
  | setName (name metahash : Bytes)
  | stop

inductive Action (P : Type*) where
  | call (p : P) (c : Call P)
  /-- a packet arrives and its handler runs -/
  | deliver (k : ℕ) (order : List Bytes) (neighbours : List P) (ok : Bool)
  | duplicate (k : ℕ)
  | drop (k : ℕ)
  | forge (dest : P) (header : Header P) (requestID : ℕ) (key : Bytes) (value : Option Bytes)

/-- The state of a network.  `sent` has every packet which a node has handed to
a socket; `nextID` is the next request ID. -/
structure Network (P : Type*) where
  nodes : P → Node P
  packets : List (Packet P)
  sent : List (Packet P)
  nextID : ℕ

variable {P : Type*} [DecidableEq P]

namespace Node

/-- `neighbours` is a result of `getNeighbours`. -/
def Shuffles (n : Node P) (neighbours : List P) : Prop :=
  neighbours.Perm n.routingTable.neighbours

/-- `ForEach` may visit the naming store in this order. -/
def Visits (n : Node P) (order : List Bytes) : Prop := order.Perm n.naming.keys

instance (n : Node P) (neighbours : List P) : Decidable (n.Shuffles neighbours) :=
  inferInstanceAs (Decidable (List.Perm _ _))

instance (n : Node P) (order : List Bytes) : Decidable (n.Visits order) :=
  inferInstanceAs (Decidable (List.Perm _ _))

/-- One turn of the loop of an upload. -/
def uploadRead (conf : Conf P) (n : Node P) (i : ℕ) (r : Read) : Option (Node P) :=
  match n.uploads[i]? with
  | some (.reading metafile chunkList) =>
      let st : UploadState := ⟨n.blobs, metafile, chunkList⟩
      match r.err with
      | some .eof =>
          let (outcome, blobs) := finishUpload conf.sha256 st
          some { n with blobs := blobs, uploads := n.uploads.set i (.ended outcome) }
      | some (.other text) =>
          some { n with uploads := n.uploads.set i (.ended (.error text)) }
      | none =>
          let st := uploadChunk conf.sha256 st r.data
          some { n with
            blobs := st.store
            uploads := n.uploads.set i (.reading st.metafile st.chunkList) }
  | _ => none

/-- Call `i` of `Download` goes on. -/
def setDownload (n : Node P) (i : ℕ) (d : Download P) (pc : DownloadPC P) : Node P :=
  { n with downloads := n.downloads.set i { d with pc := pc } }

/-- `SearchAll` up to its first send. -/
def searchAll (myAddr : P) (n : Node P) (id : ℕ) (pattern : Bytes) (budget : UInt64)
    (neighbours : List P) : Node P :=
  { n with
    store := n.store.insert id []
    searchAlls := n.searchAlls ++
      [⟨id, pattern, budget,
        .sending (sendSearchReq neighbours id budget pattern myAddr)⟩] }

/-- `SearchAll` sends its next request; after an error it returns no name. -/
def searchAllSend (myAddr : P) (n : Node P) (i : ℕ) (ok : Bool) :
    Option (Node P × List (Packet P)) :=
  match n.searchAlls[i]? with
  | some ⟨id, pattern, budget, .sending (r :: rest)⟩ =>
      if ok then
        some ({ n with
          searchAlls := n.searchAlls.set i ⟨id, pattern, budget, .sending rest⟩ },
          [r.packet myAddr])
      else
        some ({ n with
          searchAlls := n.searchAlls.set i ⟨id, pattern, budget, .returned []⟩ }, [])
  | _ => none

/-- `SearchAll` after its timeout. -/
def retrieve (conf : Conf P) (n : Node P) (i : ℕ) (filenames : List Bytes) :
    Option (Node P) :=
  match n.searchAlls[i]? with
  | some ⟨id, pattern, budget, .sending []⟩ =>
      (conf.compile pattern).bind fun matchString =>
        if filenames.Perm (n.retrieveFilenames id matchString) then
          some { n with
            store := n.store.erase id
            searchAlls := n.searchAlls.set i ⟨id, pattern, budget, .returned filenames⟩ }
        else none
  | _ => none

/-- `SearchFirst` up to its first send. -/
def searchFirst (conf : Conf P) (myAddr : P) (n : Node P) (id : ℕ) (pattern : Bytes)
    (ring : ExpandingRing) (order : List Bytes) (neighbours : List P) : Option (Node P) :=
  (conf.compile pattern).map fun matchString =>
    let name := n.localFullyKnowsFile matchString order
    if name ≠ [] then
      { n with
        searchFirsts := n.searchFirsts ++
          [⟨id, pattern, ring, ring.initial, 1, none, .returned name⟩] }
    else
      { n with
        searchsHandler := id :: n.searchsHandler
        searchFirsts := n.searchFirsts ++
          [⟨id, pattern, ring, ring.initial, 1, none,
            .sending (sendSearchReq neighbours id ring.initial pattern myAddr)⟩] }

/-- Call `i` of `SearchFirst` returns and deletes its channel. -/
def returnSearchFirst (n : Node P) (i : ℕ) (s : SearchFirst P) (name : Bytes) : Node P :=
  { n with
    searchsHandler := n.searchsHandler.erase s.requestID
    searchFirsts := n.searchFirsts.set i { s with pc := .returned name } }

/-- `SearchFirst` sends its next request. -/
def searchFirstSend (myAddr : P) (n : Node P) (i : ℕ) (ok : Bool) :
    Option (Node P × List (Packet P)) :=
  n.searchFirsts[i]?.bind fun s =>
    match s.pc with
    | .sending (r :: rest) =>
        if ok then
          some ({ n with
            searchFirsts := n.searchFirsts.set i { s with pc := .sending rest } },
            [r.packet myAddr])
        else some (n.returnSearchFirst i s [], [])
    | _ => none

/-- `SearchFirst` receives from its channel, or finds it closed. -/
def searchFirstRecv (n : Node P) (i : ℕ) : Option (Node P) :=
  n.searchFirsts[i]?.bind fun s =>
    match s.pc with
    | .sending [] =>
        match s.channel with
        | some filename => some (n.returnSearchFirst i s filename)
        | none =>
            if s.requestID ∈ n.searchsHandler then none
            else some (n.returnSearchFirst i s [])
    | _ => none

/-- The ticker of `SearchFirst` fires. -/
def searchFirstTick (myAddr : P) (n : Node P) (i : ℕ) (neighbours : List P) :
    Option (Node P) :=
  n.searchFirsts[i]?.bind fun s =>
    match s.pc with
    | .sending [] =>
        if s.conf.retry ≤ s.trials then some (n.returnSearchFirst i s [])
        else
          let budget := s.budget * s.conf.factor
          some { n with
            searchFirsts := n.searchFirsts.set i { s with
              budget := budget
              trials := s.trials + 1
              pc := .sending
                (sendSearchReq neighbours s.requestID budget s.pattern myAddr) } }
    | _ => none

/-- The listening routine forwards the next search request. -/
def forward (myAddr : P) (n : Node P) (ok : Bool) : Option (Node P × List (Packet P)) :=
  match n.forwards with
  | [] => none
  | r :: rest =>
      if ok then some ({ n with forwards := rest }, [r.packet myAddr])
      else some ({ n with forwards := [], run := false }, [])

/-- One step of a node which no packet causes. -/
def call (conf : Conf P) (myAddr : P) (id : ℕ) (n : Node P) :
    Call P → Option (Node P × List (Packet P))
  | .upload => some ({ n with uploads := n.uploads ++ [.reading [] []] }, [])
  | .uploadRead i r => (n.uploadRead conf i r).map fun n => (n, [])
  | .download metahash =>
      some ({ n with downloads := n.downloads ++ [⟨metahash, .get .metafile metahash⟩] }, [])
  | .downloadStep i =>
      n.downloads[i]?.bind fun d =>
        (n.downloadStep d.pc).map fun pc => (n.setDownload i d pc, [])
  | .downloadRequest i randomPeer ok =>
      n.downloads[i]?.bind fun d =>
        (n.downloadRequest myAddr id randomPeer ok d.pc).map fun (pc, channels, sent) =>
          ({ n.setDownload i d pc with requestsHandler := channels }, sent)
  | .downloadTick i ok =>
      n.downloads[i]?.bind fun d =>
        (downloadTick conf myAddr ok d.pc).map fun (pc, sent) => (n.setDownload i d pc, sent)
  | .searchAll pattern budget neighbours =>
      if n.Shuffles neighbours then
        some (n.searchAll myAddr id pattern budget neighbours, [])
      else none
  | .searchAllSend i ok => n.searchAllSend myAddr i ok
  | .retrieve i filenames => (n.retrieve conf i filenames).map fun n => (n, [])
  | .searchFirst pattern ring order neighbours =>
      if n.Visits order ∧ n.Shuffles neighbours then
        (n.searchFirst conf myAddr id pattern ring order neighbours).map fun n => (n, [])
      else none
  | .searchFirstSend i ok => n.searchFirstSend myAddr i ok
  | .searchFirstRecv i => (n.searchFirstRecv i).map fun n => (n, [])
  | .searchFirstTick i neighbours =>
      if n.Shuffles neighbours then
        (n.searchFirstTick myAddr i neighbours).map fun n => (n, [])
      else none
  | .forward ok => n.forward myAddr ok
  | .updateCatalog key peer => some ({ n with catalog := addEntry n.catalog key peer }, [])
  | .setRoutingTable routingTable => some ({ n with routingTable := routingTable }, [])
  | .setName name metahash => some ({ n with naming := n.naming.set name metahash }, [])
  | .stop => some ({ n with run := false, requestsHandler := [], searchsHandler := [] }, [])

/-- An error in the listening routine ends it. -/
def fail (n : Node P) : Node P := { n with run := false }

/-- A packet for this node arrives at its listening routine. -/
def handle (conf : Conf P) (myAddr : P) (n : Node P) (header : Header P) (order : List Bytes)
    (neighbours : List P) (ok : Bool) : Message P → Node P × List (Packet P)
  | .dataRequest requestID key =>
      match n.execDataRequestMessage myAddr header requestID key with
      | none => (n.fail, [])
      | some reply => if ok then (n, [reply]) else (n.fail, [])
  | .dataReply requestID key value => (n.execDataReplyMessage requestID key value, [])
  | .searchReply requestID responses =>
      (n.execSearchReplyMessage requestID responses header.source, [])
  | .searchRequest requestID origin pattern budget =>
      match n.execSearchRequestMessage conf myAddr header requestID origin pattern budget
          order neighbours with
      | none => (n.fail, [])
      | some (reply, requests) =>
          if ok then ({ n with forwards := requests }, [reply]) else (n.fail, [])

/-- The body of `listeningRoutine`: a packet for another node is relayed. -/
def receive (conf : Conf P) (myAddr : P) (n : Node P) (pkt : Packet P) (order : List Bytes)
    (neighbours : List P) (ok : Bool) : Node P × List (Packet P) :=
  if pkt.header.destination = myAddr then
    n.handle conf myAddr pkt.header order neighbours ok pkt.msg
  else if ok then
    (n, [⟨pkt.header.destination, { pkt.header with relayedBy := myAddr }, pkt.msg⟩])
  else (n.fail, [])

/-- The listening routine waits for a packet. -/
def Listens (n : Node P) : Prop := n.run = true ∧ n.forwards = []

instance (n : Node P) : Decidable n.Listens :=
  inferInstanceAs (Decidable (_ ∧ _))

end Node

namespace Network

/-- Node `p` changes and sends packets. -/
def put (st : Network P) (p : P) (n : Node P) (sent : List (Packet P)) : Network P where
  nodes := Function.update st.nodes p n
  packets := st.packets ++ sent
  sent := st.sent ++ sent
  nextID := st.nextID + 1

/-- One action. -/
def next (conf : Conf P) (st : Network P) : Action P → Option (Network P)
  | .call p c =>
      ((st.nodes p).call conf p st.nextID c).map fun (n, sent) => st.put p n sent
  | .deliver k order neighbours ok =>
      st.packets[k]?.bind fun pkt =>
        let p := pkt.dest
        let n := st.nodes p
        if n.Listens ∧ n.Visits order ∧ n.Shuffles neighbours then
          let (n, sent) := n.receive conf p pkt order neighbours ok
          some (put { st with packets := st.packets.eraseIdx k } p n sent)
        else none
  | .duplicate k =>
      st.packets[k]?.map fun pkt => { st with packets := st.packets ++ [pkt] }
  | .drop k => st.packets[k]?.map fun _ => { st with packets := st.packets.eraseIdx k }
  | .forge dest header requestID key value =>
      some { st with packets := st.packets ++ [⟨dest, header, .dataReply requestID key value⟩] }

end Network

/-- The transition system of a network with the given storage and tables. -/
def dataSharing (conf : Conf P) (setup : P → Setup P) :
    TransitionSystem (Network P) (Action P) where
  init := ⟨fun p => (setup p).start, [], [], 0⟩
  next := Network.next conf

end Minotor.DataSharing
