import Minotor.DataSharing.Files
import Minotor.Gossip.RoutingTable

/-!
# A data-sharing node

Downloads, searches and the handlers of their messages, from `datasharing.go`,
`callbacks.go`, `catalog.go`, `store.go` and `channelsHandler.go`.  Calls run
next to the listening routine, so they are kept as routines which go on in
steps; a step is one access to a shared structure, or one send.  The handlers
of the listening routine are functions of the node and the packet.
-/

namespace Minotor.DataSharing

open Minotor.Gossip (NodeRT)

variable {P : Type*}

/-! ## Messages -/

/-- `transport.Header`. -/
structure Header (P : Type*) where
  source : P
  relayedBy : P
  destination : P
deriving DecidableEq

/-- `types.FileInfo`; a missing chunk is `none`. -/
structure FileInfo where
  name : Bytes
  metahash : Bytes
  chunks : List (Option Bytes)
deriving DecidableEq

/-- The messages of the data-sharing layer. -/
inductive Message (P : Type*) where
  | dataRequest (requestID : ℕ) (key : Bytes)
  | dataReply (requestID : ℕ) (key : Bytes) (value : Option Bytes)
  | searchRequest (requestID : ℕ) (origin : P) (pattern : Bytes) (budget : UInt64)
  | searchReply (requestID : ℕ) (responses : List FileInfo)
deriving DecidableEq

/-- A packet on its way to the socket `dest`. -/
structure Packet (P : Type*) where
  dest : P
  header : Header P
  msg : Message P
deriving DecidableEq

/-! ## The state of a node -/

/-- The errors of `Download`. -/
inductive DownloadError (P : Type*) where
  | notFound (metahash : Bytes)
  | noRoute (peer : P)
  | tooManyTrials (requestID : ℕ)
  | send
deriving DecidableEq

/-- What `Download` does with the blob it waits for. -/
inductive Goal where
  | metafile
  | chunk (data : Bytes) (rest : List Bytes)
deriving DecidableEq

/-- Where a call of `Download` stands. -/
inductive DownloadPC (P : Type*) where
  /-- before `store.Get` -/
  | get (goal : Goal) (key : Bytes)
  /-- before the choice of a provider in `getDataFromRemotePeer` -/
  | request (goal : Goal) (key : Bytes)
  /-- in the select on the request channel and the ticker -/
  | wait (goal : Goal) (key : Bytes) (requestID : ℕ) (randomPeer peerAddr : P) (trials : ℕ)
  /-- before the last `store.Get` of `getDataFromRemotePeer` -/
  | read (goal : Goal) (key : Bytes)
  | returned (result : Except (DownloadError P) Bytes)
deriving DecidableEq

/-- A call of `Download`. -/
structure Download (P : Type*) where
  metahash : Bytes
  pc : DownloadPC P
deriving DecidableEq

/-- A call of `Upload`: its variables, or its outcome. -/
inductive Uploading where
  | reading (metafile chunkList : Bytes)
  | ended (outcome : Outcome)
deriving DecidableEq

/-- A search request which a node has still to send to a neighbour. -/
structure SearchReq (P : Type*) where
  neighbour : P
  requestID : ℕ
  origin : P
  pattern : Bytes
  budget : UInt64
deriving DecidableEq

/-- Where a call of `SearchAll` or `SearchFirst` stands: it sends the rest of
its requests and then waits, or it has returned `α`. -/
inductive SearchPC (P α : Type*) where
  | sending (rest : List (SearchReq P))
  | returned (result : α)
deriving DecidableEq

/-- A call of `SearchAll`. -/
structure SearchAll (P : Type*) where
  requestID : ℕ
  pattern : Bytes
  budget : UInt64
  pc : SearchPC P (List Bytes)
deriving DecidableEq

/-- `peer.ExpandingRing`. -/
structure ExpandingRing where
  initial : UInt64
  factor : UInt64
  retry : UInt64
deriving DecidableEq

/-- A call of `SearchFirst`.  `channel` is the name which a reply has sent on
the search channel. -/
structure SearchFirst (P : Type*) where
  requestID : ℕ
  pattern : Bytes
  conf : ExpandingRing
  budget : UInt64
  trials : UInt64
  channel : Option Bytes
  pc : SearchPC P Bytes
deriving DecidableEq

/-- What the data-sharing layer uses of the configurations and of the standard
library. -/
structure Conf (P : Type*) where
  sha256 : Bytes → Bytes
  /-- `BackoffDataRequest.Retry` of each node -/
  retry : P → ℕ
  /-- `regexp.Compile` and `MatchString` -/
  compile : Bytes → Option (Bytes → Bool)

/-- The state of a node. -/
structure Node (P : Type*) where
  run : Bool
  blobs : ByteStore
  naming : ByteStore
  catalog : List (Bytes × P)
  routingTable : NodeRT P
  /-- the keys of `requestsHandler`: the channels which are open -/
  requestsHandler : List ℕ
  /-- the keys of `searchsHandler` -/
  searchsHandler : List ℕ
  /-- the names found for each open `SearchAll` -/
  store : AList fun _ : ℕ => List Bytes
  uploads : List Uploading
  downloads : List (Download P)
  searchAlls : List (SearchAll P)
  searchFirsts : List (SearchFirst P)
  /-- the requests which the listening routine has still to forward -/
  forwards : List (SearchReq P)

/-- The storage and the tables of a node before its first call. -/
structure Setup (P : Type*) where
  blobs : ByteStore
  naming : ByteStore
  catalog : List (Bytes × P)
  routingTable : NodeRT P

/-- A started node without calls. -/
def Setup.start (s : Setup P) : Node P where
  run := true
  blobs := s.blobs
  naming := s.naming
  catalog := s.catalog
  routingTable := s.routingTable
  requestsHandler := []
  searchsHandler := []
  store := ∅
  uploads := []
  downloads := []
  searchAlls := []
  searchFirsts := []
  forwards := []

/-! ## The catalog and the request store -/

section Catalog

variable [DecidableEq P]

/-- `addEntry` of `catalog.go`. -/
def addEntry (catalog : List (Bytes × P)) (key : Bytes) (addr : P) : List (Bytes × P) :=
  if (key, addr) ∈ catalog then catalog else catalog ++ [(key, addr)]

/-- `getAddr` of `catalog.go`; `[]` is `nil`. -/
def getAddr (catalog : List (Bytes × P)) (key : Bytes) : List P :=
  (catalog.filter (·.1 = key)).map (·.2)

end Catalog

/-- `addEntry` of `store.go`. -/
def addFilename (store : AList fun _ : ℕ => List Bytes) (requestID : ℕ)
    (filename : Bytes) : AList fun _ : ℕ => List Bytes :=
  match store.lookup requestID with
  | none => store
  | some filenames => store.insert requestID (filename :: filenames)

/-! ## Sending search requests -/

/-- One pass of the loop of `sendSearchReq` which deals out the budget. -/
def dealRound : List ℕ → ℕ → List ℕ × ℕ
  | [], budg => ([], budg)
  | share :: distribution, 0 => (share :: distribution, 0)
  | share :: distribution, budg + 1 =>
      let (dealt, left) := dealRound distribution budg
      ((share + 1) :: dealt, left)

/-- Passes until the budget is dealt out; every pass deals at least one. -/
def deal : ℕ → List ℕ → ℕ → List ℕ
  | 0, distribution, _ => distribution
  | fuel + 1, distribution, budg =>
      if budg = 0 then distribution
      else
        let (dealt, left) := dealRound distribution budg
        deal fuel dealt left

/-- The distribution of the budget over the neighbours. -/
def distribution (nbNeighbours budg : ℕ) : List ℕ :=
  deal budg (List.replicate nbNeighbours 0) budg

/-- `sendSearchReq`: the requests in the order in which they are sent. -/
def sendSearchReq (neighbours : List P) (id : ℕ) (budg : UInt64) (pattern : Bytes) (org : P) :
    List (SearchReq P) :=
  if neighbours.length = 0 then []
  else
    (neighbours.zip (distribution neighbours.length budg.toNat)).filterMap fun (addr, share) =>
      if 0 < share then some ⟨addr, id, org, pattern, UInt64.ofNat share⟩ else none

/-- The packet of a search request. -/
def SearchReq.packet (myAddr : P) (r : SearchReq P) : Packet P :=
  ⟨r.neighbour, ⟨myAddr, myAddr, r.neighbour⟩,
    .searchRequest r.requestID r.origin r.pattern r.budget⟩

/-- The packet with the request of `getDataFromRemotePeer`. -/
def dataRequestPkt (myAddr randomPeer peerAddr : P) (requestID : ℕ) (key : Bytes) :
    Packet P :=
  ⟨peerAddr, ⟨myAddr, myAddr, randomPeer⟩, .dataRequest requestID key⟩

namespace Node

/-! ## Downloads -/

/-- The loop of `Download` goes on with its rest. -/
def nextChunk (data : Bytes) : List Bytes → DownloadPC P
  | [] => .returned (.ok data)
  | chunkSlice :: rest => .get (.chunk data rest) chunkSlice

/-- The call of `Download` has its blob. -/
def deliver (val : Bytes) : Goal → DownloadPC P
  | .metafile => nextChunk [] (fields val)
  | .chunk data rest => nextChunk (data ++ val) rest

/-- A step of a call of `Download` which only reads the store or its
channel. -/
def downloadStep (n : Node P) : DownloadPC P → Option (DownloadPC P)
  | .get goal key =>
      match n.blobs.get key with
      | some val => some (deliver val goal)
      | none => some (.request goal key)
  | .wait goal key requestID _ _ _ =>
      if requestID ∈ n.requestsHandler then none else some (.read goal key)
  | .read goal key =>
      match n.blobs.get key with
      | some val => some (deliver val goal)
      | none => some (.returned (.error (.notFound key)))
  | _ => none

/-- The ticker fires in `getDataFromRemotePeer`. -/
def downloadTick (conf : Conf P) (myAddr : P) (ok : Bool) :
    DownloadPC P → Option (DownloadPC P × List (Packet P))
  | .wait goal key requestID randomPeer peerAddr trials =>
      if conf.retry myAddr < trials then some (.returned (.error (.tooManyTrials requestID)), [])
      else if ok then
        some (.wait goal key requestID randomPeer peerAddr (trials + 1),
          [dataRequestPkt myAddr randomPeer peerAddr requestID key])
      else some (.returned (.error .send), [])
  | _ => none

variable [DecidableEq P]

/-- `getDataFromRemotePeer` up to its loop, with a peer of the catalog. -/
def downloadRequest (myAddr : P) (n : Node P) (id : ℕ) (randomPeer : P) (ok : Bool) :
    DownloadPC P → Option (DownloadPC P × List ℕ × List (Packet P))
  | .request goal key =>
      let peers := getAddr n.catalog key
      if peers = [] then some (.returned (.error (.notFound key)), n.requestsHandler, [])
      else if randomPeer ∉ peers then none
      else
        match n.routingTable.getAddr randomPeer with
        | none => some (.returned (.error (.noRoute randomPeer)), n.requestsHandler, [])
        | some peerAddr =>
            if ok then
              some (.wait goal key id randomPeer peerAddr 1, id :: n.requestsHandler,
                [dataRequestPkt myAddr randomPeer peerAddr id key])
            else some (.returned (.error .send), id :: n.requestsHandler, [])
  | _ => none

/-! ## Searches -/

/-- `localFullyKnowsFile`, with the keys in the order of `ForEach`. -/
def localFullyKnowsFile (n : Node P) (matchString : Bytes → Bool) : List Bytes → Bytes
  | [] => []
  | key :: rest =>
      if matchString key = false then []
      else
        match (n.naming.get key).bind n.blobs.get with
        | none => localFullyKnowsFile n matchString rest
        | some metafile =>
            if (metafile.splitOn 0x0a).all fun c => (n.blobs.get c).isSome then key
            else localFullyKnowsFile n matchString rest

/-- The names which `retrieveFilenames` collects. -/
def retrieveFilenames (n : Node P) (requestID : ℕ) (matchString : Bytes → Bool) :
    List Bytes :=
  (n.naming.keys.filter matchString ++ (n.store.lookup requestID).getD []).dedup

/-! ## Handlers -/

/-- `ExecDataReplyMessage`. -/
def execDataReplyMessage (n : Node P) (requestID : ℕ) (key : Bytes)
    (value : Option Bytes) : Node P :=
  let blobs :=
    match value with
    | none => n.blobs
    | some val => n.blobs.set key val
  { n with blobs := blobs, requestsHandler := n.requestsHandler.erase requestID }

/-- `ExecDataRequestMessage`; `none` when `Unicast` finds no route. -/
def execDataRequestMessage (myAddr : P) (n : Node P) (header : Header P) (requestID : ℕ)
    (key : Bytes) : Option (Packet P) :=
  (n.routingTable.getAddr header.source).map fun addr =>
    ⟨addr, ⟨myAddr, myAddr, header.source⟩, .dataReply requestID key (n.blobs.get key)⟩

/-- `updateStoreAndCatalog`. -/
def updateStoreAndCatalog (n : Node P) (requestID : ℕ) (res : FileInfo) (source : P) :
    Node P :=
  { n with
    store := addFilename n.store requestID res.name
    catalog := addEntry n.catalog res.metahash source
    naming := n.naming.set res.name res.metahash }

/-- The loop over the chunks of a response in `ExecSearchReplyMessage`. -/
def addChunks (source : P) (catalog : List (Bytes × P)) (chunks : List (Option Bytes)) :
    List (Bytes × P) :=
  chunks.foldl (fun catalog chunk =>
    match chunk with
    | some key => addEntry catalog key source
    | none => catalog) catalog

/-- The loop over the chunks of a response in `checkAvailabilityAndTrigger`,
with its result `noMissingChunk`. -/
def addChunksUntilMissing (source : P) (catalog : List (Bytes × P)) :
    List (Option Bytes) → List (Bytes × P) × Bool
  | [] => (catalog, true)
  | none :: _ => (catalog, false)
  | some key :: rest => addChunksUntilMissing source (addEntry catalog key source) rest

/-- The body of the loop of `ExecSearchReplyMessage`. -/
def execResponse (requestID : ℕ) (source : P) (n : Node P) (res : FileInfo) : Node P :=
  let n := n.updateStoreAndCatalog requestID res source
  { n with catalog := addChunks source n.catalog res.chunks }

/-- The body of the loop of `checkAvailabilityAndTrigger`, on the node and the
file found. -/
def checkResponse (requestID : ℕ) (source : P) (s : Node P × Option Bytes) (res : FileInfo) :
    Node P × Option Bytes :=
  let n := s.1.updateStoreAndCatalog requestID res source
  let (catalog, noMissingChunk) := addChunksUntilMissing source n.catalog res.chunks
  ({ n with catalog := catalog },
    if noMissingChunk ∧ s.2.isNone then some res.name else s.2)

/-- `triggerChannel` of the search channels. -/
def triggerChannel (n : Node P) (requestID : ℕ) (filename : Bytes) : Node P :=
  { n with
    searchsHandler := n.searchsHandler.erase requestID
    searchFirsts := n.searchFirsts.map fun s =>
      if s.requestID = requestID then { s with channel := some filename } else s }

/-- `checkAvailabilityAndTrigger`. -/
def checkAvailabilityAndTrigger (n : Node P) (requestID : ℕ) (responses : List FileInfo)
    (source : P) : Node P :=
  if requestID ∈ n.searchsHandler then
    match responses.foldl (checkResponse requestID source) (n, none) with
    | (n, none) => n
    | (n, some filename) => n.triggerChannel requestID filename
  else n

/-- `ExecSearchReplyMessage`. -/
def execSearchReplyMessage (n : Node P) (requestID : ℕ) (responses : List FileInfo)
    (source : P) : Node P :=
  (responses.foldl (execResponse requestID source) n).checkAvailabilityAndTrigger
    requestID responses source

/-- The response for one file in `sendReplyMsg`. -/
def fileInfo (n : Node P) (filename metahash : Bytes) : FileInfo where
  name := filename
  metahash := metahash
  chunks := (((n.blobs.get metahash).getD []).splitOn 0x0a).map fun chunkHexEncoded =>
    (n.blobs.get chunkHexEncoded).map fun _ => chunkHexEncoded

/-- `sendReplyMsg`. -/
def sendReplyMsg (myAddr : P) (n : Node P) (requestID : ℕ) (origin dest : P)
    (files : List (Bytes × Bytes)) : Packet P :=
  ⟨dest, ⟨myAddr, myAddr, origin⟩,
    .searchReply requestID (files.map fun (f, m) => n.fileInfo f m)⟩

/-- The files which `ExecSearchRequestMessage` finds, with the names in the
order of `ForEach`. -/
def knownFiles (n : Node P) (matchString : Bytes → Bool) (order : List Bytes) :
    List (Bytes × Bytes) :=
  order.filterMap fun key =>
    if matchString key then
      (n.naming.get key).bind fun val => (n.blobs.get val).map fun _ => (key, val)
    else none

/-- The neighbours to whom `ExecSearchRequestMessage` forwards a request. -/
def forwardTo (source origin : P) (neighbours : List P) : List P :=
  neighbours.filter fun addr => addr ≠ source ∧ addr ≠ origin

/-- `ExecSearchRequestMessage`: its reply and the requests it forwards, or
`none` if `MustCompile` panics. -/
def execSearchRequestMessage (conf : Conf P) (myAddr : P) (n : Node P) (header : Header P)
    (requestID : ℕ) (origin : P) (pattern : Bytes) (budget : UInt64)
    (order : List Bytes) (neighbours : List P) : Option (Packet P × List (SearchReq P)) :=
  (conf.compile pattern).map fun matchString =>
    (n.sendReplyMsg myAddr requestID origin header.relayedBy (n.knownFiles matchString order),
      sendSearchReq (forwardTo header.source origin neighbours) requestID (budget - 1)
        pattern origin)

end Node

end Minotor.DataSharing
