import Minotor.Support.Json.Codec
import Minotor.Transport.Packet

/-!
# Messages on the wire

The message types of `types/`, with the fields which are written, their names and the JSON
of their values; `MarshalMessage` and `UnmarshalMessage` of a registry, and `GetMessage` of
the global registry.  Slices, maps and pointers may be nil.
-/

namespace Minotor.Wire

open Json (Codec Fields)
open Json.Codec (StringMap)

/-! ## Embedded messages and values -/

/-- `transport.Message`, as a field of another message. -/
def transportMessage : Codec Transport.Message :=
  .record (.cons "Type" .string (.cons "Payload" .raw .nil (by decide)) (by decide))
    { toFun := fun m => (m.type, m.payload, ())
      invFun := fun v => ⟨v.1, v.2.1⟩
      left_inv := fun _ => rfl
      right_inv := fun _ => rfl }

def embeddedMessage : Codec (Option Transport.Message) :=
  .ptr transportMessage fun _ => Codec.record_ne_null _ _ _

structure PaxosValue where
  uniqID : String
  filename : String
  metahash : String
deriving DecidableEq

def paxosValue : Codec PaxosValue :=
  .record (.cons "UniqID" .string (.cons "Filename" .string (.cons "Metahash" .string .nil
      (by decide)) (by decide)) (by decide))
    { toFun := fun m => (m.uniqID, m.filename, m.metahash, ())
      invFun := fun v => ⟨v.1, v.2.1, v.2.2.1⟩
      left_inv := fun _ => rfl
      right_inv := fun _ => rfl }

structure BlockchainBlock where
  index : UInt64
  hash : Option Bytes
  value : PaxosValue
  prevHash : Option Bytes
deriving DecidableEq

/-- `Marshal` and `Unmarshal` of a block. -/
def blockchainBlock : Codec BlockchainBlock :=
  .record (.cons "Index" .uint64 (.cons "Hash" .bytes (.cons "Value" paxosValue
      (.cons "PrevHash" .bytes .nil (by decide)) (by decide)) (by decide)) (by decide))
    { toFun := fun m => (m.index, m.hash, m.value, m.prevHash, ())
      invFun := fun v => ⟨v.1, v.2.1, v.2.2.1, v.2.2.2.1⟩
      left_inv := fun _ => rfl
      right_inv := fun _ => rfl }

/-! ## Messaging -/

structure ChatMessage where
  message : String
deriving DecidableEq

def chatMessage : Codec ChatMessage :=
  .record (.cons "Message" .string .nil (by decide))
    { toFun := fun m => (m.message, ())
      invFun := fun v => ⟨v.1⟩
      left_inv := fun _ => rfl
      right_inv := fun _ => rfl }

structure Rumor where
  origin : String
  sequence : UInt64
  msg : Option Transport.Message
deriving DecidableEq

def rumor : Codec Rumor :=
  .record (.cons "Origin" .string (.cons "Sequence" .uint64 (.cons "Msg" embeddedMessage .nil
      (by decide)) (by decide)) (by decide))
    { toFun := fun m => (m.origin, m.sequence, m.msg, ())
      invFun := fun v => ⟨v.1, v.2.1, v.2.2.1⟩
      left_inv := fun _ => rfl
      right_inv := fun _ => rfl }

structure RumorsMessage where
  rumors : Option (List Rumor)
deriving DecidableEq

def rumorsMessage : Codec RumorsMessage :=
  .record (.cons "Rumors" (.slice rumor) .nil (by decide))
    { toFun := fun m => (m.rumors, ())
      invFun := fun v => ⟨v.1⟩
      left_inv := fun _ => rfl
      right_inv := fun _ => rfl }

abbrev StatusMessage := Option (StringMap UInt64)

def statusMessage : Codec StatusMessage := .map .uint64

structure AckMessage where
  ackedPacketID : String
  status : StatusMessage
deriving DecidableEq

def ackMessage : Codec AckMessage :=
  .record (.cons "AckedPacketID" .string (.cons "Status" statusMessage .nil (by decide))
      (by decide))
    { toFun := fun m => (m.ackedPacketID, m.status, ())
      invFun := fun v => ⟨v.1, v.2.1⟩
      left_inv := fun _ => rfl
      right_inv := fun _ => rfl }

structure EmptyMessage where
deriving DecidableEq

def noFields (α : Type) (unit : α ≃ Unit) : Codec α := .record .nil unit

def emptyMessage : Codec EmptyMessage :=
  noFields EmptyMessage
    { toFun := fun _ => ()
      invFun := fun _ => ⟨⟩
      left_inv := fun _ => rfl
      right_inv := fun _ => rfl }

structure PrivateMessage where
  recipients : Option (StringMap Unit)
  msg : Option Transport.Message
deriving DecidableEq

def privateMessage : Codec PrivateMessage :=
  .record (.cons "Recipients" (.map (noFields Unit (.refl Unit))) (.cons "Msg" embeddedMessage .nil
      (by decide)) (by decide))
    { toFun := fun m => (m.recipients, m.msg, ())
      invFun := fun v => ⟨v.1, v.2.1⟩
      left_inv := fun _ => rfl
      right_inv := fun _ => rfl }

/-! ## Data sharing -/

structure DataRequestMessage where
  requestID : String
  key : String
deriving DecidableEq

def dataRequestMessage : Codec DataRequestMessage :=
  .record (.cons "RequestID" .string (.cons "Key" .string .nil (by decide)) (by decide))
    { toFun := fun m => (m.requestID, m.key, ())
      invFun := fun v => ⟨v.1, v.2.1⟩
      left_inv := fun _ => rfl
      right_inv := fun _ => rfl }

structure DataReplyMessage where
  requestID : String
  key : String
  value : Option Bytes
deriving DecidableEq

def dataReplyMessage : Codec DataReplyMessage :=
  .record (.cons "RequestID" .string (.cons "Key" .string (.cons "Value" .bytes .nil
      (by decide)) (by decide)) (by decide))
    { toFun := fun m => (m.requestID, m.key, m.value, ())
      invFun := fun v => ⟨v.1, v.2.1, v.2.2.1⟩
      left_inv := fun _ => rfl
      right_inv := fun _ => rfl }

structure SearchRequestMessage where
  requestID : String
  origin : String
  pattern : String
  budget : UInt64
deriving DecidableEq

def searchRequestMessage : Codec SearchRequestMessage :=
  .record (.cons "RequestID" .string (.cons "Origin" .string (.cons "Pattern" .string
      (.cons "Budget" .uint64 .nil (by decide)) (by decide)) (by decide)) (by decide))
    { toFun := fun m => (m.requestID, m.origin, m.pattern, m.budget, ())
      invFun := fun v => ⟨v.1, v.2.1, v.2.2.1, v.2.2.2.1⟩
      left_inv := fun _ => rfl
      right_inv := fun _ => rfl }

structure FileInfo where
  name : String
  metahash : String
  chunks : Option (List (Option Bytes))
deriving DecidableEq

def fileInfo : Codec FileInfo :=
  .record (.cons "Name" .string (.cons "Metahash" .string (.cons "Chunks" (.slice .bytes) .nil
      (by decide)) (by decide)) (by decide))
    { toFun := fun m => (m.name, m.metahash, m.chunks, ())
      invFun := fun v => ⟨v.1, v.2.1, v.2.2.1⟩
      left_inv := fun _ => rfl
      right_inv := fun _ => rfl }

structure SearchReplyMessage where
  requestID : String
  responses : Option (List FileInfo)
deriving DecidableEq

def searchReplyMessage : Codec SearchReplyMessage :=
  .record (.cons "RequestID" .string (.cons "Responses" (.slice fileInfo) .nil (by decide))
      (by decide))
    { toFun := fun m => (m.requestID, m.responses, ())
      invFun := fun v => ⟨v.1, v.2.1⟩
      left_inv := fun _ => rfl
      right_inv := fun _ => rfl }

/-! ## Consensus -/

structure PaxosPrepareMessage where
  step : UInt64
  id : UInt64
  source : String
deriving DecidableEq

def paxosPrepareMessage : Codec PaxosPrepareMessage :=
  .record (.cons "Step" .uint64 (.cons "ID" .uint64 (.cons "Source" .string .nil
      (by decide)) (by decide)) (by decide))
    { toFun := fun m => (m.step, m.id, m.source, ())
      invFun := fun v => ⟨v.1, v.2.1, v.2.2.1⟩
      left_inv := fun _ => rfl
      right_inv := fun _ => rfl }

structure PaxosPromiseMessage where
  step : UInt64
  id : UInt64
  acceptedID : UInt64
  acceptedValue : Option PaxosValue
deriving DecidableEq

def paxosPromiseMessage : Codec PaxosPromiseMessage :=
  .record (.cons "Step" .uint64 (.cons "ID" .uint64 (.cons "AcceptedID" .uint64
      (.cons "AcceptedValue" (.ptr paxosValue fun _ => Codec.record_ne_null _ _ _) .nil
      (by decide)) (by decide)) (by decide)) (by decide))
    { toFun := fun m => (m.step, m.id, m.acceptedID, m.acceptedValue, ())
      invFun := fun v => ⟨v.1, v.2.1, v.2.2.1, v.2.2.2.1⟩
      left_inv := fun _ => rfl
      right_inv := fun _ => rfl }

/-- `PaxosProposeMessage` and `PaxosAcceptMessage`, which have the same fields. -/
structure PaxosBallotMessage where
  step : UInt64
  id : UInt64
  value : PaxosValue
deriving DecidableEq

def paxosBallotMessage : Codec PaxosBallotMessage :=
  .record (.cons "Step" .uint64 (.cons "ID" .uint64 (.cons "Value" paxosValue .nil
      (by decide)) (by decide)) (by decide))
    { toFun := fun m => (m.step, m.id, m.value, ())
      invFun := fun v => ⟨v.1, v.2.1, v.2.2.1⟩
      left_inv := fun _ => rfl
      right_inv := fun _ => rfl }

abbrev PaxosProposeMessage := PaxosBallotMessage

abbrev PaxosAcceptMessage := PaxosBallotMessage

structure TLCMessage where
  step : UInt64
  block : BlockchainBlock
deriving DecidableEq

def tlcMessage : Codec TLCMessage :=
  .record (.cons "Step" .uint64 (.cons "Block" blockchainBlock .nil (by decide)) (by decide))
    { toFun := fun m => (m.step, m.block, ())
      invFun := fun v => ⟨v.1, v.2.1⟩
      left_inv := fun _ => rfl
      right_inv := fun _ => rfl }

/-! ## The social network -/

structure PublicationMessage where
  id : String
  author : String
  content : String
deriving DecidableEq

def publicationMessage : Codec PublicationMessage :=
  .record (.cons "ID" .string (.cons "Author" .string (.cons "Content" .string .nil
      (by decide)) (by decide)) (by decide))
    { toFun := fun m => (m.id, m.author, m.content, ())
      invFun := fun v => ⟨v.1, v.2.1, v.2.2.1⟩
      left_inv := fun _ => rfl
      right_inv := fun _ => rfl }

structure FollowRequest where
  requestID : String
  source : String
deriving DecidableEq

def followRequest : Codec FollowRequest :=
  .record (.cons "RequestID" .string (.cons "Source" .string .nil (by decide)) (by decide))
    { toFun := fun m => (m.requestID, m.source, ())
      invFun := fun v => ⟨v.1, v.2.1⟩
      left_inv := fun _ => rfl
      right_inv := fun _ => rfl }

structure FollowResponse where
  requestID : String
deriving DecidableEq

def followResponse : Codec FollowResponse :=
  .record (.cons "RequestID" .string .nil (by decide))
    { toFun := fun m => (m.requestID, ())
      invFun := fun v => ⟨v.1⟩
      left_inv := fun _ => rfl
      right_inv := fun _ => rfl }

structure BinaryPublicationMessage where
  message : Option PublicationMessage
  truthValue : Bool
deriving DecidableEq

def binaryPublicationMessage : Codec BinaryPublicationMessage :=
  .record (.cons "Message" (.ptr publicationMessage fun _ => Codec.record_ne_null _ _ _)
      (.cons "TruthValue" .bool .nil (by decide)) (by decide))
    { toFun := fun m => (m.message, m.truthValue, ())
      invFun := fun v => ⟨v.1, v.2.1⟩
      left_inv := fun _ => rfl
      right_inv := fun _ => rfl }

/-! ## Messages -/

/-- The types which implement `types.Message`. -/
inductive MessageType where
  | chatMessage
  | rumorsMessage
  | ackMessage
  | statusMessage
  | emptyMessage
  | privateMessage
  | dataRequestMessage
  | dataReplyMessage
  | searchRequestMessage
  | searchReplyMessage
  | paxosPrepareMessage
  | paxosPromiseMessage
  | paxosProposeMessage
  | paxosAcceptMessage
  | tlcMessage
  | publicationMessage
  | followRequest
  | followResponse
  | binaryPublicationMessage
deriving DecidableEq

namespace MessageType

/-- `Name`. -/
def name : MessageType → String
  | chatMessage => "chat"
  | rumorsMessage => "rumor"
  | ackMessage => "ack"
  | statusMessage => "status"
  | emptyMessage => "empty"
  | privateMessage => "private"
  | dataRequestMessage => "datarequest"
  | dataReplyMessage => "datareply"
  | searchRequestMessage => "searchrequest"
  | searchReplyMessage => "searchreply"
  | paxosPrepareMessage => "paxosprepare"
  | paxosPromiseMessage => "paxospromise"
  | paxosProposeMessage => "paxospropose"
  | paxosAcceptMessage => "paxosaccept"
  | tlcMessage => "tlc"
  | publicationMessage => "publicationmessage"
  | followRequest => "followrequest"
  | followResponse => "followresponse"
  | binaryPublicationMessage => "binarypublication"

def Content : MessageType → Type
  | chatMessage => ChatMessage
  | rumorsMessage => RumorsMessage
  | ackMessage => AckMessage
  | statusMessage => StatusMessage
  | emptyMessage => EmptyMessage
  | privateMessage => PrivateMessage
  | dataRequestMessage => DataRequestMessage
  | dataReplyMessage => DataReplyMessage
  | searchRequestMessage => SearchRequestMessage
  | searchReplyMessage => SearchReplyMessage
  | paxosPrepareMessage => PaxosPrepareMessage
  | paxosPromiseMessage => PaxosPromiseMessage
  | paxosProposeMessage => PaxosProposeMessage
  | paxosAcceptMessage => PaxosAcceptMessage
  | tlcMessage => TLCMessage
  | publicationMessage => PublicationMessage
  | followRequest => FollowRequest
  | followResponse => FollowResponse
  | binaryPublicationMessage => BinaryPublicationMessage

def codec : (t : MessageType) → Codec t.Content
  | chatMessage => Wire.chatMessage
  | rumorsMessage => Wire.rumorsMessage
  | ackMessage => Wire.ackMessage
  | statusMessage => Wire.statusMessage
  | emptyMessage => Wire.emptyMessage
  | privateMessage => Wire.privateMessage
  | dataRequestMessage => Wire.dataRequestMessage
  | dataReplyMessage => Wire.dataReplyMessage
  | searchRequestMessage => Wire.searchRequestMessage
  | searchReplyMessage => Wire.searchReplyMessage
  | paxosPrepareMessage => Wire.paxosPrepareMessage
  | paxosPromiseMessage => Wire.paxosPromiseMessage
  | paxosProposeMessage => Wire.paxosBallotMessage
  | paxosAcceptMessage => Wire.paxosBallotMessage
  | tlcMessage => Wire.tlcMessage
  | publicationMessage => Wire.publicationMessage
  | followRequest => Wire.followRequest
  | followResponse => Wire.followResponse
  | binaryPublicationMessage => Wire.binaryPublicationMessage

/-- `NewEmpty`; an empty status is not nil. -/
def newEmpty : (t : MessageType) → t.Content
  | statusMessage => some ∅
  | t => t.codec.zero

/-- All types of messages. -/
def all : List MessageType :=
  [chatMessage, rumorsMessage, ackMessage, statusMessage, emptyMessage, privateMessage,
    dataRequestMessage, dataReplyMessage, searchRequestMessage, searchReplyMessage,
    paxosPrepareMessage, paxosPromiseMessage, paxosProposeMessage, paxosAcceptMessage, tlcMessage,
    publicationMessage, followRequest, followResponse, binaryPublicationMessage]

theorem mem_all (t : MessageType) : t ∈ all := by
  cases t <;> decide

theorem name_injective : Function.Injective name := by
  have hall : ∀ s ∈ all, ∀ t ∈ all, s.name = t.name → s = t := by decide +kernel
  intro s t
  exact hall s (mem_all s) t (mem_all t)

end MessageType

/-- A message with its type. -/
structure Message where
  type : MessageType
  content : type.Content

/-- `MarshalMessage`. -/
def marshalMessage (m : Message) : Except String Transport.Message :=
  match m.type.codec.marshal m.content with
  | none => .error
      "failed to marshal: json: error calling MarshalJSON for type json.RawMessage"
  | some payload => .ok ⟨m.type.name, some payload⟩

/-- `UnmarshalMessage` into a variable of a type; the type which the message names is not
looked at. -/
def unmarshalMessage (transpMsg : Transport.Message) (t : MessageType) (msg : t.Content) :
    Except String t.Content :=
  match Json.parse (transpMsg.payload.getD []) with
  | none => .error "invalid JSON"
  | some j =>
      match t.codec.decode msg j with
      | none => .error "json: cannot unmarshal into Go value"
      | some content => .ok content

/-- `globalRegistry`: the messages under their names. -/
structure GlobalRegistry where
  messages : String → Option MessageType
  named : ∀ name t, messages name = some t → t.name = name

namespace GlobalRegistry

def empty : GlobalRegistry where
  messages _ := none
  named _ _ h := absurd h (Option.some_ne_none _).symm

/-- `Add`. -/
def add (r : GlobalRegistry) (m : MessageType) : GlobalRegistry where
  messages := Function.update r.messages m.name (some m)
  named name t h := by
    rw [Function.update_apply] at h
    split at h
    · next hname =>
        cases h
        exact hname.symm
    · exact r.named name t h

/-- `init`. -/
def init : GlobalRegistry :=
  (((((empty.add .chatMessage).add .ackMessage).add .emptyMessage).add .statusMessage).add
    .rumorsMessage).add .privateMessage

/-- `GetMessage`; it is nil if the payload is null. -/
def getMessage (r : GlobalRegistry) (transpMsg : Transport.Message) :
    Except String (Option Message) :=
  match r.messages transpMsg.type with
  | none => .error s!"message not registered: {transpMsg.type}"
  | some m =>
      match Json.parse (transpMsg.payload.getD []) with
      | none => .error "failed to unmarshal payload: invalid JSON"
      | some .null => .ok none
      | some j =>
          match m.codec.decode m.newEmpty j with
          | none => .error "failed to unmarshal payload: json: cannot unmarshal into Go value"
          | some content => .ok (some ⟨m, content⟩)

end GlobalRegistry

end Minotor.Wire
