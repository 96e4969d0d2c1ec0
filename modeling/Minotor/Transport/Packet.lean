import Minotor.Support.Json

/-!
# Packets on the wire

`transport.Packet` with `Copy`, and what `Marshal` and `Unmarshal` rely on in
`encoding/json`: a packet which is encoded is decoded with the same header, the same
type and the same JSON value as its payload, and an encoded packet whose end is cut
off is rejected.

The encoding with the names of the fields in `transport/mod.go` has these properties.
-/

namespace Minotor.Transport

/-- `transport.Header`. -/
structure Header where
  packetID : String
  ttl : UInt64
  timestamp : Int64
  source : String
  relayedBy : String
  destination : String
deriving DecidableEq

/-- `transport.Message`; the payload is `none` for a nil slice. -/
structure Message where
  type : String
  payload : Option Bytes
deriving DecidableEq

/-- `transport.Packet`; `none` stands for a nil pointer. -/
structure Packet where
  header : Option Header
  msg : Option Message
deriving DecidableEq

/-- `Copy` of a header. -/
def Header.copy (h : Header) : Header := h

/-- `Copy` of a message; a nil payload becomes an empty one. -/
def Message.copy (m : Message) : Message where
  type := m.type
  payload := some ([] ++ m.payload.getD [])

/-- `Copy` of a packet; a nil pointer is a panic. -/
def Packet.copy (p : Packet) : Option Packet :=
  match p.header, p.msg with
  | some h, some m => some ⟨some h.copy, some m.copy⟩
  | _, _ => none

/-- The JSON value of a payload, which is null for a nil slice. -/
def Message.value (m : Message) : Option Json :=
  match m.payload with
  | none => some .null
  | some payload => Json.parse payload

/-- The same header, message type and JSON payload. -/
def SameContent (p p' : Packet) : Prop :=
  p'.header = p.header ∧
    p'.msg.map (fun m => (m.type, m.value)) = p.msg.map fun m => (m.type, m.value)

/-- `json.Marshal` of a packet, and `json.Unmarshal` into an empty packet, with the packet
which is left there and the error. -/
structure Encoding where
  marshal : Packet → Except String Bytes
  unmarshal : Bytes → Packet × Option String
  /-- what is encoded is decoded -/
  decodes : ∀ p bytes, marshal p = .ok bytes →
    ∃ p', unmarshal bytes = (p', none) ∧ SameContent p p'
  /-- a part of an object is no object -/
  rejects_prefix : ∀ p bytes n, marshal p = .ok bytes → n < bytes.length →
    (unmarshal (bytes.take n)).2 ≠ none

/-! ## The encoding -/

def string (s : String) : Json := .str (stringBytes s)

def Header.toJson (h : Header) : Json :=
  .obj [(stringBytes "PacketID", string h.packetID),
    (stringBytes "TTL", .num (.ofNat h.ttl.toNat)),
    (stringBytes "Timestamp", .num (.ofInt h.timestamp.toInt)),
    (stringBytes "Source", string h.source),
    (stringBytes "RelayedBy", string h.relayedBy),
    (stringBytes "Destination", string h.destination)]

def Message.toJson (m : Message) (payload : Json) : Json :=
  .obj [(stringBytes "Type", string m.type), (stringBytes "Payload", payload)]

def messageJson : Option Message → Option Json
  | none => some .null
  | some m => m.value.map m.toJson

def Packet.fields (p : Packet) (msg : Json) : List (Bytes × Json) :=
  [(stringBytes "Header", (p.header.map Header.toJson).getD .null), (stringBytes "Msg", msg)]

/-- `Marshal`. -/
def marshal (p : Packet) : Except String Bytes :=
  match messageJson p.msg with
  | none => .error "json: error calling MarshalJSON for type json.RawMessage"
  | some msg => .ok (Json.obj (p.fields msg)).print

/-- The last value with a name. -/
def field (fields : List (Bytes × Json)) (name : String) : Option Json :=
  fields.reverse.lookup (stringBytes name)

def asString : Option Json → Option String
  | none => some ""
  | some .null => some ""
  | some (.str s) => String.fromUTF8? s.toByteArray
  | _ => none

def asUInt64 : Option Json → Option UInt64
  | none => some 0
  | some .null => some 0
  | some (.num n) =>
      n.toNat?.bind fun k => if k < UInt64.size then some (UInt64.ofNat k) else none
  | _ => none

def asInt64 : Option Json → Option Int64
  | none => some 0
  | some .null => some 0
  | some (.num n) =>
      n.toInt?.bind fun i =>
        if Int64.minValue.toInt ≤ i ∧ i ≤ Int64.maxValue.toInt then some (Int64.ofInt i) else none
  | _ => none

def asHeader : Option Json → Option (Option Header)
  | none => some none
  | some .null => some none
  | some (.obj fields) => do
      let packetID ← asString (field fields "PacketID")
      let ttl ← asUInt64 (field fields "TTL")
      let timestamp ← asInt64 (field fields "Timestamp")
      let source ← asString (field fields "Source")
      let relayedBy ← asString (field fields "RelayedBy")
      let destination ← asString (field fields "Destination")
      return some { packetID, ttl, timestamp, source, relayedBy, destination }
  | _ => none

def asMessage : Option Json → Option (Option Message)
  | none => some none
  | some .null => some none
  | some (.obj fields) => do
      let type ← asString (field fields "Type")
      return some { type, payload := (field fields "Payload").map Json.print }
  | _ => none

def asPacket : Json → Option Packet
  | .null => some ⟨none, none⟩
  | .obj fields => do
      let header ← asHeader (field fields "Header")
      let msg ← asMessage (field fields "Msg")
      return { header, msg }
  | _ => none

/-- `Unmarshal` into an empty packet. -/
def unmarshal (bytes : Bytes) : Packet × Option String :=
  match Json.parse bytes with
  | none => (⟨none, none⟩, some "invalid JSON")
  | some v =>
      match asPacket v with
      | none => (⟨none, none⟩, some "json: cannot unmarshal into Go value")
      | some p => (p, none)

theorem asString_string (s : String) : asString (some (string s)) = some s := by
  have hbytes : (stringBytes s).toByteArray = s.toByteArray := by
    apply ByteArray.ext
    rw [List.data_toByteArray, stringBytes_eq, Array.toArray_toList]
  change String.fromUTF8? (stringBytes s).toByteArray = some s
  rw [hbytes, String.fromUTF8?, dif_pos s.isValidUTF8]
  rfl

theorem asUInt64_ofNat (n : UInt64) : asUInt64 (some (.num (.ofNat n.toNat))) = some n := by
  simp only [asUInt64, Json.Number.toNat?_ofNat, Option.bind_some]
  rw [if_pos n.toNat_lt, UInt64.ofNat_toNat]

theorem asInt64_ofInt (i : Int64) : asInt64 (some (.num (.ofInt i.toInt))) = some i := by
  simp only [asInt64, Json.Number.toInt?_ofInt, Option.bind_some]
  rw [if_pos ⟨i.minValue_le_toInt, i.toInt_le⟩, Int64.ofInt_toInt]

theorem stringBytes_beq (s t : String) : (stringBytes s == stringBytes t) = (s == t) := by
  rw [Bool.eq_iff_iff, beq_iff_eq, beq_iff_eq, stringBytes_injective.eq_iff]

theorem asHeader_toJson (h : Header) : asHeader (some h.toJson) = some (some h) := by
  simp only [asHeader, Header.toJson]
  simp [field, List.lookup_cons, stringBytes_beq, asString_string, asUInt64_ofNat, asInt64_ofInt]

/-- A message is decoded with its type and the JSON value of its payload. -/
theorem asMessage_messageJson {m : Option Message} {v : Json} (h : messageJson m = some v) :
    ∃ m', asMessage (some v) = some m' ∧
      m'.map (fun m => (m.type, m.value)) = m.map fun m => (m.type, m.value) := by
  cases m with
  | none =>
      obtain rfl := Option.some.inj h
      exact ⟨none, rfl, rfl⟩
  | some m =>
      obtain ⟨payload, hvalue, rfl⟩ := Option.map_eq_some_iff.mp h
      have hprint : Message.value ⟨m.type, some payload.print⟩ = some payload :=
        Json.parse_print payload
      refine ⟨some ⟨m.type, some payload.print⟩, ?_, ?_⟩
      · simp only [asMessage, Message.toJson]
        simp [field, List.lookup_cons, stringBytes_beq, asString_string]
      · simp [hvalue, hprint]

theorem marshal_eq_ok {p : Packet} {bytes : Bytes} (h : marshal p = .ok bytes) :
    ∃ msg, messageJson p.msg = some msg ∧ bytes = (Json.obj (p.fields msg)).print := by
  rw [marshal] at h
  split at h
  · cases h
  · next msg hmsg =>
      cases h
      exact ⟨msg, hmsg, rfl⟩

theorem asPacket_fields {p : Packet} {msg : Json} {msg' : Option Message}
    (h : asMessage (some msg) = some msg') :
    asPacket (.obj (p.fields msg)) = some ⟨p.header, msg'⟩ := by
  have hheader : asHeader (some ((p.header.map Header.toJson).getD .null)) = some p.header := by
    cases hp : p.header with
    | none => rfl
    | some header => exact asHeader_toJson header
  simp only [asPacket, Packet.fields]
  simp [field, List.lookup_cons, stringBytes_beq, hheader, h]

/-- `encoding/json` on packets. -/
def jsonEncoding : Encoding where
  marshal := marshal
  unmarshal := unmarshal
  decodes p bytes h := by
    obtain ⟨msg, hmsg, rfl⟩ := marshal_eq_ok h
    obtain ⟨msg', hmessage, hcontent⟩ := asMessage_messageJson hmsg
    refine ⟨⟨p.header, msg'⟩, ?_, rfl, hcontent⟩
    simp only [unmarshal, Json.parse_print, asPacket_fields hmessage]
  rejects_prefix p bytes n h hn := by
    obtain ⟨msg, -, rfl⟩ := marshal_eq_ok h
    simp only [unmarshal, Json.parse_take _ hn]
    exact Option.some_ne_none _

end Minotor.Transport
