import Minotor.Transport.Packet

/-!
# UDP sockets

`Send` and `Recv` of `transport/udp`.  The connection below a socket is a parameter
of each call: which deadlines it takes, how it resolves names, which datagrams it
writes and which datagram it reads.  A datagram is read into a buffer, and what does
not fit is lost.  The lock of a socket is only ever taken for reading and is left out.
-/

namespace Minotor.Transport

variable {A : Type*}

/-- `buffSize`. -/
def buffSize : ℕ := 65000

/-- The errors of a connection. -/
inductive ConnError where
  /-- `os.ErrDeadlineExceeded` -/
  | deadlineExceeded
  | other (err : String)

inductive Error where
  /-- `transport.TimeoutError` -/
  | timeout (d : ℤ)
  | other (err : String)

/-- What a call of `Send` meets below the socket. -/
structure SendConn (A : Type*) where
  setWriteDeadline : Option ℤ → Option String
  resolveUDPAddr : String → Except String A
  writeToUDP : Bytes → A → Option ConnError

/-- What a call of `Recv` meets below the socket, with the datagram which arrives. -/
structure RecvConn where
  setReadDeadline : Option ℤ → Option String
  datagram : Except ConnError Bytes

/-- `udp.Socket`, with the packets received and sent. -/
structure Socket where
  ins : List Packet
  outs : List Packet

/-- How a call on a socket ends. -/
inductive Result (α : Type*) where
  | returned (res : α) (err : Option Error) (s : Socket)
  /-- a nil pointer in a packet which is copied -/
  | panicked

/-- The deadline for a timeout, after which there is none if it is 0. -/
def deadline (timeout : ℤ) : Option ℤ := if timeout = 0 then none else some timeout

def SendConn.setSendTimeout (c : SendConn A) (timeout : ℤ) : Option String :=
  c.setWriteDeadline (deadline timeout)

def RecvConn.setRecvTimeout (c : RecvConn) (timeout : ℤ) : Option String :=
  c.setReadDeadline (deadline timeout)

/-- An exceeded deadline is a timeout. -/
def ConnError.toError (timeout : ℤ) : ConnError → Error
  | .deadlineExceeded => .timeout timeout
  | .other err => .other err

def SendConn.sendUDPPacket (c : SendConn A) (msg : Bytes) (addr : A) (timeout : ℤ) :
    Option Error :=
  (c.writeToUDP msg addr).map (ConnError.toError timeout)

/-- `ReadFromUDP` into a buffer of the given size. -/
def RecvConn.readFromUDP (c : RecvConn) (size : ℕ) : Except ConnError Bytes :=
  c.datagram.map fun datagram => datagram.take size

def RecvConn.receiveUDPPacket (c : RecvConn) (size : ℕ) (timeout : ℤ) : Except Error Bytes :=
  (c.readFromUDP size).mapError (ConnError.toError timeout)

/-- `add` of `packets`. -/
def add (data : List Packet) (pkt : Packet) : Option (List Packet) :=
  pkt.copy.map fun pkt => data ++ [pkt]

namespace Socket

variable (enc : Encoding) (s : Socket)

/-- `Send`, with the datagram which is written. -/
def send (c : SendConn A) (dest : String) (pkt : Packet) (timeout : ℤ) :
    Option (A × Bytes) × Result Unit :=
  match c.setSendTimeout timeout with
  | some err => (none, .returned () (some (.other err)) s)
  | none =>
      match c.resolveUDPAddr dest with
      | .error err => (none, .returned () (some (.other err)) s)
      | .ok addr =>
          match enc.marshal pkt with
          | .error err => (none, .returned () (some (.other err)) s)
          | .ok msg =>
              match c.sendUDPPacket msg addr timeout with
              | some err => (none, .returned () (some err) s)
              | none =>
                  match add s.outs pkt with
                  | none => (some (addr, msg), .panicked)
                  | some outs => (some (addr, msg), .returned () none { s with outs := outs })

/-- `Recv`. -/
def recv (c : RecvConn) (timeout : ℤ) : Result Packet :=
  match c.setRecvTimeout timeout with
  | some err => .returned ⟨none, none⟩ (some (.other err)) s
  | none =>
      match c.receiveUDPPacket buffSize timeout with
      | .error err => .returned ⟨none, none⟩ (some err) s
      | .ok buff =>
          match enc.unmarshal buff with
          | (pkt, some err) => .returned pkt (some (.other err)) s
          | (pkt, none) =>
              match add s.ins pkt with
              | none => .panicked
              | some ins => .returned pkt none { s with ins := ins }

end Socket

/-- The datagram arrives, and the connection is open. -/
structure RecvConn.Delivers (c : RecvConn) (datagram : Bytes) : Prop where
  setReadDeadline : ∀ t, c.setReadDeadline t = none
  datagram : c.datagram = .ok datagram

variable {enc : Encoding} {s s' t : Socket} {pkt : Packet}

/-! ## Sending -/

theorem add_of_copy_eq_none {data : List Packet} (h : pkt.copy = none) : add data pkt = none := by
  rw [add, h]
  rfl

theorem add_of_copy_eq_some {data : List Packet} {p : Packet} (h : pkt.copy = some p) :
    add data pkt = some (data ++ [p]) := by
  rw [add, h]
  rfl

theorem add_isSome_iff {data : List Packet} :
    (add data pkt).isSome ↔ pkt.header.isSome ∧ pkt.msg.isSome := by
  obtain ⟨_ | header, _ | msg⟩ := pkt <;> simp [add, Packet.copy]

/-- What is written and what is kept when `Send` returns no error. -/
structure Sent (enc : Encoding) (c : SendConn A) (s : Socket) (dest : String) (pkt : Packet)
    (timeout : ℤ) (addr : A) (datagram : Bytes) (s' : Socket) : Prop where
  deadline : c.setSendTimeout timeout = none
  resolved : c.resolveUDPAddr dest = .ok addr
  marshal : enc.marshal pkt = .ok datagram
  written : c.writeToUDP datagram addr = none
  outs : add s.outs pkt = some s'.outs
  ins : s'.ins = s.ins

theorem send_eq_iff {c : SendConn A} {dest : String} {timeout : ℤ} {written : Option (A × Bytes)} :
    s.send enc c dest pkt timeout = (written, .returned () none s') ↔
      ∃ addr datagram, written = some (addr, datagram) ∧
        Sent enc c s dest pkt timeout addr datagram s' := by
  constructor
  · intro h
    unfold Socket.send at h
    split at h
    · cases h
    · next hdeadline =>
        split at h
        · cases h
        · next addr haddr =>
            split at h
            · cases h
            · next msg hmsg =>
                split at h
                · cases h
                · next hwrite =>
                    split at h
                    · cases h
                    · next outs houts =>
                        cases h
                        exact ⟨addr, msg, rfl, hdeadline, haddr, hmsg,
                          Option.map_eq_none_iff.mp hwrite, houts, rfl⟩
  · rintro ⟨addr, datagram, rfl, hsent⟩
    have hwrite : c.sendUDPPacket datagram addr timeout = none :=
      Option.map_eq_none_iff.mpr hsent.written
    simp only [Socket.send, hsent.deadline, hsent.resolved, hsent.marshal, hwrite, hsent.outs]
    rw [← hsent.ins]

/-! ## Receiving -/

theorem receiveUDPPacket_of_delivers {c : RecvConn} {datagram : Bytes}
    (h : c.Delivers datagram) (size : ℕ) (timeout : ℤ) :
    c.receiveUDPPacket size timeout = .ok (datagram.take size) := by
  rw [RecvConn.receiveUDPPacket, RecvConn.readFromUDP, h.datagram]
  rfl

/-- What is read is the front of a datagram. -/
theorem datagram_of_receiveUDPPacket {c : RecvConn} {size : ℕ} {timeout : ℤ} {buff : Bytes}
    (h : c.receiveUDPPacket size timeout = .ok buff) :
    ∃ datagram, c.datagram = .ok datagram ∧ datagram.take size = buff := by
  rw [RecvConn.receiveUDPPacket, RecvConn.readFromUDP] at h
  cases hdatagram : c.datagram with
  | error err =>
      rw [hdatagram] at h
      cases h
  | ok datagram =>
      rw [hdatagram] at h
      cases h
      exact ⟨datagram, rfl, rfl⟩

/-- A datagram which fits into the buffer is received. -/
theorem recv_of_length_le (t : Socket) (timeout : ℤ) {c : RecvConn} {datagram : Bytes}
    (hmarshal : enc.marshal pkt = .ok datagram) (hheader : pkt.header.isSome)
    (hmsg : pkt.msg.isSome) (hdelivers : c.Delivers datagram)
    (hle : datagram.length ≤ buffSize) :
    ∃ pkt' ins, t.recv enc c timeout = .returned pkt' none { t with ins := ins } ∧
      add t.ins pkt' = some ins ∧ SameContent pkt pkt' := by
  obtain ⟨pkt', hunmarshal, hsame⟩ := enc.decodes pkt datagram hmarshal
  have hsome : (add t.ins pkt').isSome := by
    rw [add_isSome_iff, hsame.1]
    refine ⟨hheader, ?_⟩
    rw [← Option.isSome_map (f := fun m : Message => (m.type, m.value)), hsame.2, Option.isSome_map]
    exact hmsg
  obtain ⟨ins, hins⟩ := Option.isSome_iff_exists.mp hsome
  refine ⟨pkt', ins, ?_, hins, hsame⟩
  have hopen : c.setRecvTimeout timeout = none := hdelivers.setReadDeadline _
  simp only [Socket.recv, hopen, receiveUDPPacket_of_delivers hdelivers,
    List.take_of_length_le hle, hunmarshal, hins]

/-- A longer one is not: its end is lost, and the rest cannot be decoded. -/
theorem recv_of_lt_length (t : Socket) (timeout : ℤ) {c : RecvConn} {datagram : Bytes}
    (hmarshal : enc.marshal pkt = .ok datagram) (hdelivers : c.Delivers datagram)
    (hlt : buffSize < datagram.length) :
    ∃ pkt' err, t.recv enc c timeout = .returned pkt' (some (.other err)) t := by
  have hrejects := enc.rejects_prefix pkt datagram buffSize hmarshal hlt
  have hopen : c.setRecvTimeout timeout = none := hdelivers.setReadDeadline _
  cases hunmarshal : enc.unmarshal (datagram.take buffSize) with
  | mk pkt' err =>
      rw [hunmarshal] at hrejects
      obtain ⟨err, rfl⟩ := Option.ne_none_iff_exists'.mp hrejects
      refine ⟨pkt', err, ?_⟩
      simp only [Socket.recv, hopen, receiveUDPPacket_of_delivers hdelivers, hunmarshal]

/-- A packet for which `Send` returns no error is received with the same header, message
type and JSON payload exactly if its encoding fits into the buffer of `Recv`. -/
theorem received_iff {c : SendConn A} {c' : RecvConn} {dest : String} {timeout timeout' : ℤ}
    {addr : A} {datagram : Bytes}
    (hsend : s.send enc c dest pkt timeout = (some (addr, datagram), .returned () none s'))
    (hdelivers : c'.Delivers datagram) :
    (∃ pkt' t', t.recv enc c' timeout' = .returned pkt' none t' ∧ SameContent pkt pkt') ↔
      ∃ msg, enc.marshal pkt = .ok msg ∧ msg.length ≤ buffSize := by
  obtain ⟨_, _, heq, hsent⟩ := send_eq_iff.mp hsend
  cases heq
  constructor
  · rintro ⟨pkt', t', hrecv, -⟩
    refine ⟨datagram, hsent.marshal, ?_⟩
    by_contra hlt
    obtain ⟨pkt'', err, hfails⟩ := recv_of_lt_length t timeout' hsent.marshal hdelivers
      (Nat.lt_of_not_le hlt)
    rw [hrecv] at hfails
    cases hfails
  · rintro ⟨msg, hmsg, hle⟩
    obtain rfl : datagram = msg := by
      have heq := hsent.marshal.symm.trans hmsg
      cases heq
      rfl
    have hsome : (add s.outs pkt).isSome := by
      rw [hsent.outs]
      rfl
    obtain ⟨hheader, hmsg'⟩ := add_isSome_iff.mp hsome
    obtain ⟨pkt', ins, hrecv, -, hsame⟩ := recv_of_length_le t timeout' hmsg hheader hmsg'
      hdelivers hle
    exact ⟨pkt', _, hrecv, hsame⟩

/-- `NewUDP` and `CreateSocket`. -/
def Socket.new : Socket := ⟨[], []⟩

/-- The largest datagram which `WriteToUDP` takes. -/
def maxDatagram : ℕ := 65507

/-- An open connection to one address. -/
def openConn : SendConn Unit where
  setWriteDeadline _ := none
  resolveUDPAddr _ := .ok ()
  writeToUDP msg _ := if msg.length ≤ maxDatagram then none else some (.other "message too long")

/-- An open connection on which a datagram arrives. -/
def arriving (datagram : Bytes) : RecvConn where
  setReadDeadline _ := none
  datagram := .ok datagram

/-- The header of a packet between two local addresses. -/
def localHeader : Header where
  packetID := "c0"
  ttl := 1
  timestamp := 0
  source := "127.0.0.1:1"
  relayedBy := "127.0.0.1:1"
  destination := "127.0.0.1:2"

/-- A chat message of `n` letters, sent to one node. -/
def chat (n : ℕ) : Packet where
  header := some localHeader
  msg := some ⟨"chat",
    some (Json.obj [(stringBytes "Message", .str (List.replicate n 0x61))]).print⟩

theorem length_printString_replicate (n : ℕ) :
    (Json.printString (List.replicate n 0x61)).length = n + 2 := by
  have hescape : (List.replicate n (0x61 : UInt8)).flatMap Json.escape = List.replicate n 0x61 := by
    induction n with
    | zero => rfl
    | succ n ih =>
        rw [List.replicate_succ, List.flatMap_cons, ih]
        rfl
  rw [Json.printString, hescape, List.length_cons, List.length_append, List.length_replicate,
    List.length_singleton]

/-- The length of its encoding. -/
theorem marshal_chat (n : ℕ) :
    ∃ datagram, marshal (chat n) = .ok datagram ∧ datagram.length = n + 174 := by
  let text : Json := .obj [(stringBytes "Message", .str (List.replicate n 0x61))]
  have hmsg : messageJson (chat n).msg = some (.obj [(stringBytes "Type", string "chat"),
      (stringBytes "Payload", text)]) := by
    simp only [messageJson, chat, Message.value, Json.parse_print]
    rfl
  have hheader : localHeader.toJson.print.length = 116 := by decide +kernel
  have htype : (string "chat").print.length = 6 := by decide +kernel
  have hnames : (Json.printString (stringBytes "Header")).length = 8 ∧
      (Json.printString (stringBytes "Msg")).length = 5 ∧
      (Json.printString (stringBytes "Type")).length = 6 ∧
      (Json.printString (stringBytes "Payload")).length = 9 ∧
      (Json.printString (stringBytes "Message")).length = 9 := by
    decide +kernel
  obtain ⟨h₁, h₂, h₃, h₄, h₅⟩ := hnames
  have htext : text.print.length = n + 14 := by
    simp only [text, Json.print, Json.printFields, List.intercalate_singleton, List.length_cons,
      List.length_append, h₅, length_printString_replicate, List.length_nil]
    omega
  refine ⟨_, by rw [marshal, hmsg], ?_⟩
  simp only [chat, Packet.fields, Option.map_some, Option.getD_some, Json.print, Json.printFields,
    List.intercalate_cons_cons, List.intercalate_singleton, List.length_cons,
    List.length_append, List.length_nil, h₁, h₂, h₃, h₄, htext, hheader, htype]
  omega

/-- A chat message of up to 65333 letters can be sent. -/
theorem send_chat {n : ℕ} (hn : n + 174 ≤ maxDatagram) :
    ∃ datagram s', Socket.new.send jsonEncoding openConn "127.0.0.1:2" (chat n) 0 =
        (some ((), datagram), .returned () none s') ∧
      jsonEncoding.marshal (chat n) = .ok datagram ∧ datagram.length = n + 174 := by
  obtain ⟨datagram, hmarshal, hlength⟩ := marshal_chat n
  obtain ⟨outs, houts⟩ : ∃ outs, add [] (chat n) = some outs := ⟨_, rfl⟩
  refine ⟨datagram, ⟨[], outs⟩, ?_, hmarshal, hlength⟩
  apply send_eq_iff.mpr
  refine ⟨(), datagram, rfl, rfl, rfl, hmarshal, ?_, houts, rfl⟩
  exact if_pos (hlength.trans_le hn)

theorem received_of_chat :
    ∃ datagram, marshal (chat 5) = .ok datagram ∧
      ∃ pkt' t', Socket.new.recv jsonEncoding (arriving datagram) 0 = .returned pkt' none t' ∧
        SameContent (chat 5) pkt' := by
  obtain ⟨datagram, s', hsend, hmarshal, hlength⟩ := send_chat (n := 5) (by decide)
  refine ⟨datagram, hmarshal, (received_iff hsend ⟨fun _ => rfl, rfl⟩).mpr ⟨datagram, hmarshal, ?_⟩⟩
  rw [hlength]
  decide

/-- A chat message of 65000 letters is sent and not received. -/
theorem sent_not_received :
    ∃ datagram s', Socket.new.send jsonEncoding openConn "127.0.0.1:2" (chat 65000) 0 =
        (some ((), datagram), .returned () none s') ∧
      ∀ (c : RecvConn) (t : Socket) (timeout : ℤ), c.Delivers datagram →
        ∃ pkt' err, t.recv jsonEncoding c timeout = .returned pkt' (some (.other err)) t := by
  obtain ⟨datagram, s', hsend, hmarshal, hlength⟩ := send_chat (n := 65000) (by decide)
  refine ⟨datagram, s', hsend, fun c t timeout hdelivers => ?_⟩
  apply recv_of_lt_length t timeout hmarshal hdelivers
  rw [hlength]
  decide

end Minotor.Transport
