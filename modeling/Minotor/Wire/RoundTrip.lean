import Minotor.Wire.Messages
import Minotor.Transport.Network

/-!
# Messages are read back

A message which is marshalled is read back as it was, if the messages embedded in it were
marshalled as well.  What arrives over UDP is read as the message which was sent.
-/

namespace Minotor.Wire

open Json (Codec)
open Transport (Encoding SameContent)

/-- The payload is one which `MarshalMessage` makes. -/
def Canonical (m : Transport.Message) : Prop := ∃ j : Json, m.payload = some j.print

namespace Message

/-- The messages which are embedded in a message. -/
def embedded : Message → List Transport.Message
  | ⟨.rumorsMessage, m⟩ => (RumorsMessage.rumors m |>.getD []).filterMap Rumor.msg
  | ⟨.privateMessage, m⟩ => (PrivateMessage.msg m).toList
  | _ => []

def Canonical (m : Message) : Prop := ∀ e ∈ m.embedded, Wire.Canonical e

/-- A nil status, the only message which is written as null. -/
def isNil : Message → Bool
  | ⟨.statusMessage, none⟩ => true
  | _ => false

end Message

/-! ## One message -/

theorem canonical_embeddedMessage {m : Option Transport.Message} (h : ∀ e ∈ m, Canonical e) :
    embeddedMessage.Canonical m := fun e he => ⟨trivial, h e he, trivial⟩

/-- Only embedded messages may be written in more than one way. -/
theorem canonical_codec {m : Message} (h : m.Canonical) : m.type.codec.Canonical m.content := by
  obtain ⟨t, m⟩ := m
  cases t with
  | rumorsMessage =>
      refine ⟨?_, trivial⟩
      intro rumors hrumors r hr
      refine ⟨trivial, trivial, canonical_embeddedMessage fun e he => h e ?_, trivial⟩
      refine List.mem_filterMap.mpr ⟨r, ?_, he⟩
      rw [show RumorsMessage.rumors m = some rumors from hrumors]
      exact hr
  | privateMessage =>
      refine ⟨fun _ _ _ _ _ => trivial, canonical_embeddedMessage fun e he => h e ?_, trivial⟩
      exact Option.mem_toList.mpr he
  | statusMessage => exact fun _ _ _ _ _ => trivial
  | chatMessage => exact ⟨trivial, trivial⟩
  | ackMessage => exact ⟨trivial, fun _ _ _ _ _ => trivial, trivial⟩
  | emptyMessage => exact trivial
  | dataRequestMessage => exact ⟨trivial, trivial, trivial⟩
  | dataReplyMessage => exact ⟨trivial, trivial, trivial, trivial⟩
  | searchRequestMessage => exact ⟨trivial, trivial, trivial, trivial, trivial⟩
  | searchReplyMessage =>
      exact ⟨trivial, fun _ _ _ _ => ⟨trivial, trivial, fun _ _ _ _ => trivial, trivial⟩, trivial⟩
  | paxosPrepareMessage => exact ⟨trivial, trivial, trivial, trivial⟩
  | paxosPromiseMessage =>
      exact ⟨trivial, trivial, trivial, fun _ _ => ⟨trivial, trivial, trivial, trivial⟩, trivial⟩
  | paxosProposeMessage =>
      exact ⟨trivial, trivial, ⟨trivial, trivial, trivial, trivial⟩, trivial⟩
  | paxosAcceptMessage =>
      exact ⟨trivial, trivial, ⟨trivial, trivial, trivial, trivial⟩, trivial⟩
  | tlcMessage =>
      exact ⟨trivial, ⟨trivial, trivial, ⟨trivial, trivial, trivial, trivial⟩, trivial, trivial⟩,
        trivial⟩
  | publicationMessage => exact ⟨trivial, trivial, trivial, trivial⟩
  | followRequest => exact ⟨trivial, trivial, trivial⟩
  | followResponse => exact ⟨trivial, trivial⟩
  | binaryPublicationMessage =>
      exact ⟨fun _ _ => ⟨trivial, trivial, trivial, trivial⟩, trivial, trivial⟩

/-- Only a nil status is written as null. -/
theorem encode_eq_null_iff {m : Message} {j : Json} (h : m.type.codec.encode m.content = some j) :
    j = .null ↔ m.isNil = true := by
  obtain ⟨t, m⟩ := m
  cases t with
  | statusMessage =>
      cases m with
      | none =>
          cases h
          exact iff_of_true rfl rfl
      | some entries =>
          obtain ⟨fs, -, rfl⟩ := Option.map_eq_some_iff.mp h
          exact iff_of_false Json.noConfusion Bool.false_ne_true
  | _ =>
      refine iff_of_false ?_ Bool.false_ne_true
      rintro rfl
      exact Codec.record_ne_null _ _ _ h

/-- What is not null is read into a new message as into a zero value. -/
theorem decode_newEmpty (t : MessageType) {j : Json} (h : j ≠ .null) :
    t.codec.decode t.newEmpty j = t.codec.decode t.codec.zero j := by
  cases t with
  | statusMessage =>
      cases j with
      | null => exact absurd rfl h
      | _ => rfl
  | _ => rfl

theorem getMessage_of_parse {r : GlobalRegistry} {transpMsg : Transport.Message} {m : Message}
    {j : Json} (hregistered : r.messages transpMsg.type = some m.type)
    (hparse : Json.parse (transpMsg.payload.getD []) = some j) (hnull : j ≠ .null)
    (hdecode : m.type.codec.decode m.type.codec.zero j = some m.content) :
    r.getMessage transpMsg = .ok (some m) := by
  rw [← decode_newEmpty m.type hnull] at hdecode
  simp only [GlobalRegistry.getMessage, hregistered, hparse]
  cases j with
  | null => exact absurd rfl hnull
  | _ => simp only [hdecode]

/-- What `MarshalMessage` makes of a message. -/
theorem marshalMessage_spec {m : Message} (h : m.Canonical) :
    ∃ j : Json, marshalMessage m = .ok ⟨m.type.name, some j.print⟩ ∧
      m.type.codec.decode m.type.codec.zero j = some m.content ∧
      (j = .null ↔ m.isNil = true) := by
  obtain ⟨j, hencode, hdecode⟩ := m.type.codec.decode_encode (canonical_codec h)
  refine ⟨j, ?_, hdecode, encode_eq_null_iff hencode⟩
  simp only [marshalMessage, Codec.marshal, hencode, Option.map_some]

/-- What is registered stays registered, whatever is added. -/
theorem messages_add {r : GlobalRegistry} {t s : MessageType}
    (h : r.messages t.name = some t) : (r.add s).messages t.name = some t := by
  rw [GlobalRegistry.add]
  dsimp only
  rw [Function.update_apply]
  split
  · next hname => rw [MessageType.name_injective hname]
  · exact h

theorem messages_add_self (r : GlobalRegistry) (t : MessageType) :
    (r.add t).messages t.name = some t :=
  Function.update_self ..

/-- The same JSON value is read as the same message. -/
theorem getMessage_of_sameContent {r : GlobalRegistry} {pkt pkt' : Transport.Packet} {m : Message}
    {transpMsg : Transport.Message} (h : m.Canonical) (hnil : m.isNil = false)
    (hregistered : r.messages m.type.name = some m.type)
    (hmarshal : marshalMessage m = .ok transpMsg) (hmsg : pkt.msg = some transpMsg)
    (hsame : SameContent pkt pkt') :
    ∃ msg, pkt'.msg = some msg ∧ msg.type = m.type.name ∧ r.getMessage msg = .ok (some m) := by
  obtain ⟨j, heq, hdecode, hnull⟩ := marshalMessage_spec h
  cases hmarshal.symm.trans heq
  have hne : j ≠ .null := by
    rw [Ne, hnull, hnil]
    exact Bool.false_ne_true
  have hcontent := hsame.2
  rw [hmsg, Option.map_some, Option.map_eq_some_iff] at hcontent
  obtain ⟨⟨type, payload⟩, hmsg', hcontent⟩ := hcontent
  obtain ⟨htype, hvalue⟩ := Prod.mk.inj hcontent
  have hvalue' : Transport.Message.value ⟨type, payload⟩ = some j :=
    hvalue.trans (Json.parse_print j)
  cases payload with
  | none =>
      cases hvalue'
      exact absurd rfl hne
  | some payload =>
      refine ⟨_, hmsg', htype, getMessage_of_parse ?_ hvalue' hne hdecode⟩
      rw [show type = m.type.name from htype]
      exact hregistered

theorem getMessage_copy (r : GlobalRegistry) (m : Transport.Message) :
    r.getMessage m.copy = r.getMessage m := rfl

theorem copy_eq_some {pkt q : Transport.Packet} (h : pkt.copy = some q) :
    q.header = pkt.header ∧ q.msg = pkt.msg.map Transport.Message.copy := by
  obtain ⟨_ | header, _ | msg⟩ := pkt
  · cases h
  · cases h
  · cases h
  · cases h
    exact ⟨rfl, rfl⟩

end Minotor.Wire
