import Minotor.Messaging.Relaying
import Minotor.DataSharing.Node

/-!
# The listening routine

The loop which receives the packets of a node, from `service.go`, with the
registry to which it hands them, from `registry/standard` and
`registry/global.go`.

The state of the node is an arbitrary type, and so are the messages.  A
handler, a send and the notification handlers depend on the state and on an
arbitrary `ω`: the choices of the runtime and what the other goroutines do in
the meantime.
-/

namespace Minotor.Messaging

variable {P M σ ω : Type*}

/-- How a call ends. -/
inductive Outcome (σ : Type*) where
  | returned (err : Option String) (s : σ)
  | panicked (res : String) (s : σ)
  | blocked

/-- `registry.Exec`. -/
abbrev Exec (P M σ ω : Type*) := M → Packet P → ω → σ → Outcome σ

/-! ## The registry -/

/-- `globalRegistry`: how a payload is read, for each registered type. -/
structure GlobalRegistry (M : Type*) where
  messages : String → Option (List UInt8 → Except String M)

/-- `GetMessage` of the global registry. -/
def GlobalRegistry.getMessage (r : GlobalRegistry M) (transpMsg : TransportMessage) :
    Except String M :=
  match r.messages transpMsg.type with
  | none => .error s!"message not registered: {transpMsg.type}"
  | some unmarshal =>
      match unmarshal transpMsg.payload with
      | .error err => .error s!"failed to unmarshal payload: {err}"
      | .ok msg => .ok msg

/-- `standard.Registry`.  `execAll` runs the notification handlers and tells
if they are done after twenty seconds. -/
structure Registry (P M σ ω : Type*) where
  globalRegistry : GlobalRegistry M
  handlers : String → Option (Exec P M σ ω)
  execAll : M → Packet P → ω → σ → σ × Bool

/-- `ProcessPacket`; it never panics. -/
def Registry.processPacket (r : Registry P M σ ω) (pkt : Packet P) (w : ω) (s : σ) :
    Outcome σ :=
  match r.globalRegistry.getMessage pkt.msg with
  | .error err => .returned (some s!"failed to get message: {err}") s
  | .ok msg =>
      match r.handlers pkt.msg.type with
      | none => .returned (some s!"handler not found for {pkt.msg.type}") s
      | some h =>
          match h msg pkt w s with
          | .blocked => .blocked
          | .returned (some err) s => .returned (some s!"failed to call handler: {err}") s
          | .panicked res s => .returned (some s!"failed to call handler: {res}") s
          | .returned none s =>
              match r.execAll msg pkt w s with
              | (s, true) => .returned none s
              | (s, false) => .returned (some "notification handlers took too long") s

/-! ## The routine -/

/-- `transport.Socket`. -/
structure Socket (P σ ω : Type*) where
  getAddress : P
  send : Sent P → ω → σ → Outcome σ

/-- What the listening routine uses of a node. -/
structure Listener (P M σ ω : Type*) where
  soc : Socket P σ ω
  reg : Registry P M σ ω

/-- What the listening routine does with a packet. -/
inductive Done (P : Type*) where
  | handed (pkt : Packet P)
  | relayed (s : Sent P)
deriving DecidableEq

/-- What happens while the routine listens. -/
inductive Event (P σ ω : Type*) where
  | received (pkt : Packet P) (w : ω)
  /-- `Recv` returns with a timeout -/
  | timedOut
  /-- `Recv` returns with another error -/
  | failed (err : String)
  /-- another goroutine changes the state of the node -/
  | elsewhere (change : σ → σ)

def Event.IsReceived (e : Event P σ ω) : Prop :=
  ∃ pkt w, e = .received pkt w

namespace Listener

variable [DecidableEq P]

/-- The branch of `listeningRoutine` which a packet takes. -/
def act (n : Listener P M σ ω) (pkt : Packet P) : Done P :=
  if pkt.header.destination = n.soc.getAddress then .handed pkt
  else .relayed (relay n.soc.getAddress pkt)

/-- The call in that branch. -/
def process (n : Listener P M σ ω) (pkt : Packet P) (w : ω) (s : σ) : Outcome σ :=
  if pkt.header.destination = n.soc.getAddress then n.reg.processPacket pkt w s
  else n.soc.send (relay n.soc.getAddress pkt) w s

/-- `listeningRoutine`: what it does with the packets it receives.  An error
sets `run` to 0, so the loop is left. -/
def listeningRoutine (n : Listener P M σ ω) : σ → List (Event P σ ω) → List (Done P)
  | _, [] => []
  | s, .timedOut :: es => n.listeningRoutine s es
  | s, .elsewhere change :: es => n.listeningRoutine (change s) es
  | _, .failed _ :: _ => []
  | s, .received pkt w :: es =>
      n.act pkt ::
        match n.process pkt w s with
        | .returned none s => n.listeningRoutine s es
        | _ => []

/-- Every packet is handed to the registry or relayed, once and in order of
arrival. -/
def serveAll (n : Listener P M σ ω) (es : List (Event P σ ω)) : List (Done P) :=
  es.filterMap fun e =>
    match e with
    | .received pkt _ => some (n.act pkt)
    | _ => none

/-! ## When the routine goes on -/

/-- Nothing goes wrong with a packet: its relay can be sent, or its message is
registered and well formed and has a handler which returns without an error,
and then the notification handlers are done in time. -/
def Untroubled (n : Listener P M σ ω) (pkt : Packet P) (w : ω) (s s' : σ) : Prop :=
  if pkt.header.destination = n.soc.getAddress then
    ∃ msg h s₁, n.reg.globalRegistry.getMessage pkt.msg = .ok msg ∧
      n.reg.handlers pkt.msg.type = some h ∧ h msg pkt w s = .returned none s₁ ∧
      n.reg.execAll msg pkt w s₁ = (s', true)
  else n.soc.send (relay n.soc.getAddress pkt) w s = .returned none s'

/-- Nothing goes wrong with a packet, nor with `Recv`, before the last packet. -/
def Smooth (n : Listener P M σ ω) : σ → List (Event P σ ω) → Prop
  | _, [] => True
  | s, .timedOut :: es => n.Smooth s es
  | s, .elsewhere change :: es => n.Smooth (change s) es
  | _, .failed _ :: es => ∀ e ∈ es, ¬e.IsReceived
  | s, .received pkt w :: es =>
      (∀ e ∈ es, ¬e.IsReceived) ∨ ∃ s', n.Untroubled pkt w s s' ∧ n.Smooth s' es

end Listener

/-- Packets are processed without an error exactly if nothing goes wrong. -/
theorem Registry.processPacket_eq_none_iff {r : Registry P M σ ω} {pkt : Packet P} {w : ω}
    {s s' : σ} :
    r.processPacket pkt w s = .returned none s' ↔
      ∃ msg h s₁, r.globalRegistry.getMessage pkt.msg = .ok msg ∧
        r.handlers pkt.msg.type = some h ∧ h msg pkt w s = .returned none s₁ ∧
        r.execAll msg pkt w s₁ = (s', true) := by
  constructor
  · intro hok
    unfold processPacket at hok
    split at hok
    · simp only [Outcome.returned.injEq, reduceCtorEq, false_and] at hok
    · next msg hmsg =>
      split at hok
      · simp only [Outcome.returned.injEq, reduceCtorEq, false_and] at hok
      · next h hh =>
        split at hok
        · simp only [reduceCtorEq] at hok
        · simp only [Outcome.returned.injEq, reduceCtorEq, false_and] at hok
        · simp only [Outcome.returned.injEq, reduceCtorEq, false_and] at hok
        · next s₁ hs₁ =>
          split at hok
          · next s₂ hs₂ =>
            simp only [Outcome.returned.injEq, true_and] at hok
            exact ⟨msg, h, s₁, hmsg, hh, hs₁, hok ▸ hs₂⟩
          · simp only [Outcome.returned.injEq, reduceCtorEq, false_and] at hok
  · rintro ⟨msg, h, s₁, hmsg, hh, hs₁, hs'⟩
    simp only [processPacket, hmsg, hh, hs₁, hs']

namespace Listener

variable [DecidableEq P] {n : Listener P M σ ω} {s : σ} {es : List (Event P σ ω)}

theorem process_eq_none_iff {pkt : Packet P} {w : ω} {s' : σ} :
    n.process pkt w s = .returned none s' ↔ n.Untroubled pkt w s s' := by
  unfold process Untroubled
  split
  · exact Registry.processPacket_eq_none_iff
  · exact Iff.rfl

theorem serveAll_eq_nil_iff (n : Listener P M σ ω) (es : List (Event P σ ω)) :
    n.serveAll es = [] ↔ ∀ e ∈ es, ¬e.IsReceived := by
  unfold serveAll
  rw [List.filterMap_eq_nil_iff]
  apply forall₂_congr
  intro e _
  cases e with
  | received pkt w =>
      apply iff_of_false
      · exact Option.some_ne_none _
      · intro hnone
        exact hnone ⟨pkt, w, rfl⟩
  | timedOut => exact iff_of_true rfl (by rintro ⟨_, _, ⟨⟩⟩)
  | failed err => exact iff_of_true rfl (by rintro ⟨_, _, ⟨⟩⟩)
  | elsewhere change => exact iff_of_true rfl (by rintro ⟨_, _, ⟨⟩⟩)

theorem smooth_of_no_packet (n : Listener P M σ ω) (s : σ)
    (hes : ∀ e ∈ es, ¬e.IsReceived) : n.Smooth s es := by
  induction es generalizing s with
  | nil => trivial
  | cons e es ih =>
      have htail : ∀ e ∈ es, ¬e.IsReceived := fun e he => hes e (List.mem_cons_of_mem _ he)
      cases e with
      | received pkt w => exact .inl htail
      | timedOut => exact ih s htail
      | failed err => exact htail
      | elsewhere change => exact ih (change s) htail

/-- The listening routine serves every packet exactly if nothing goes wrong
before the last one. -/
theorem serves_all_iff (n : Listener P M σ ω) (s : σ) (es : List (Event P σ ω)) :
    n.listeningRoutine s es = n.serveAll es ↔ n.Smooth s es := by
  induction es generalizing s with
  | nil => exact iff_of_true rfl trivial
  | cons e es ih =>
      cases e with
      | timedOut => exact ih s
      | elsewhere change => exact ih (change s)
      | failed err =>
          change [] = n.serveAll es ↔ _
          rw [eq_comm]
          exact n.serveAll_eq_nil_iff es
      | received pkt w =>
          change n.act pkt :: _ = n.act pkt :: n.serveAll es ↔ _
          rw [List.cons_inj_right]
          split
          · next s' hs' =>
            -- the loop goes on from `s'`
            rw [ih s']
            constructor
            · intro hsmooth
              exact .inr ⟨s', process_eq_none_iff.mp hs', hsmooth⟩
            · rintro (hnone | ⟨s'', hs'', hsmooth⟩)
              · exact n.smooth_of_no_packet s' hnone
              · have heq := hs'.symm.trans (process_eq_none_iff.mpr hs'')
                rw [Outcome.returned.injEq] at heq
                rw [heq.2]
                exact hsmooth
          · next hother =>
            -- the loop is left
            rw [eq_comm, serveAll_eq_nil_iff]
            constructor
            · exact .inl
            · rintro (hnone | ⟨s', hs', _⟩)
              · exact hnone
              · exact absurd (process_eq_none_iff.mpr hs') (hother s')

/-- After a packet with which something goes wrong, no packet is served any
more. -/
theorem silenced {pkt : Packet P} {w : ω} (hwrong : ∀ s', ¬n.Untroubled pkt w s s')
    (es : List (Event P σ ω)) :
    n.listeningRoutine s (.received pkt w :: es) = [n.act pkt] := by
  rw [listeningRoutine]
  split
  · next s' hs' => exact absurd (process_eq_none_iff.mp hs') (hwrong s')
  · rfl

/-- In particular after a packet for another node to which it cannot be sent. -/
theorem silenced_of_relay {pkt : Packet P} {w : ω} {err : String} {s' : σ}
    (hdest : pkt.header.destination ≠ n.soc.getAddress)
    (hsend : n.soc.send (relay n.soc.getAddress pkt) w s = .returned (some err) s')
    (es : List (Event P σ ω)) :
    n.listeningRoutine s (.received pkt w :: es) = [.relayed (relay n.soc.getAddress pkt)] := by
  rw [n.silenced _ es, act, if_neg hdest]
  intro s'' hs''
  rw [Untroubled, if_neg hdest, hsend, Outcome.returned.injEq] at hs''
  exact absurd hs''.1 (Option.some_ne_none err)

end Listener

/-! ## Data requests -/

/-- `types.DataRequestMessage`. -/
structure DataRequestMessage where
  requestID : String
  key : Bytes

/-- `types.DataReplyMessage`. -/
structure DataReplyMessage where
  requestID : String
  key : Bytes
  value : Option Bytes

/-- `ExecDataRequestMessage`, with `MarshalMessage` for its reply. -/
def execDataRequestMessage [DecidableEq P] [ToString P]
    (soc : Socket P (DataSharing.Node P) ω)
    (marshalMessage : DataReplyMessage → Except String TransportMessage) :
    Exec P DataRequestMessage (DataSharing.Node P) ω :=
  fun dataRequestMsg pkt w n =>
    let metafile := n.blobs.get dataRequestMsg.key
    match marshalMessage ⟨dataRequestMsg.requestID, dataRequestMsg.key, metafile⟩ with
    | .error err => .returned (some err) n
    | .ok repMsg =>
        match unicast n.routingTable soc.getAddress pkt.header.source repMsg with
        | .error err => .returned (some err) n
        | .ok s => soc.send s w n

/-- After a data request from a peer without an entry in the routing table, no
packet is served any more. -/
theorem data_request_silences [DecidableEq P] [ToString P]
    {n : Listener P DataRequestMessage (DataSharing.Node P) ω}
    {marshalMessage : DataReplyMessage → Except String TransportMessage}
    {pkt : Packet P} {w : ω} {s : DataSharing.Node P} {msg : DataRequestMessage}
    (hdest : pkt.header.destination = n.soc.getAddress)
    (hmsg : n.reg.globalRegistry.getMessage pkt.msg = .ok msg)
    (hhandler : n.reg.handlers pkt.msg.type =
      some (execDataRequestMessage n.soc marshalMessage))
    (hroute : s.routingTable.getAddr pkt.header.source = none)
    (es : List (Event P (DataSharing.Node P) ω)) :
    n.listeningRoutine s (.received pkt w :: es) = [.handed pkt] := by
  have herr : ∃ err, execDataRequestMessage n.soc marshalMessage msg pkt w s =
      .returned (some err) s := by
    unfold execDataRequestMessage unicast
    simp only [hroute]
    split
    · exact ⟨_, rfl⟩
    · exact ⟨_, rfl⟩
  obtain ⟨err, herr⟩ := herr
  rw [n.silenced _ es, Listener.act, if_pos hdest]
  intro s' hs'
  rw [Listener.Untroubled, if_pos hdest] at hs'
  obtain ⟨msg', h, s₁, hmsg', hh, hs₁, _⟩ := hs'
  obtain rfl := Except.ok.inj (hmsg.symm.trans hmsg')
  obtain rfl := Option.some.inj (hhandler.symm.trans hh)
  rw [herr, Outcome.returned.injEq] at hs₁
  exact absurd hs₁.1 (Option.some_ne_none err)

/-- A node which answers data requests and knows a route to peer 2 only. -/
def answering : Listener ℕ DataRequestMessage (DataSharing.Node ℕ) Unit :=
  let soc : Socket ℕ (DataSharing.Node ℕ) Unit :=
    ⟨0, fun _ _ s => .returned none s⟩
  let unmarshal : List UInt8 → Except String DataRequestMessage :=
    fun payload => .ok ⟨"request", payload⟩
  let marshal : DataReplyMessage → Except String TransportMessage :=
    fun msg => .ok ⟨"datareply", msg.key⟩
  { soc := soc
    reg :=
      { globalRegistry :=
          ⟨fun type => if type = "datarequest" then some unmarshal else none⟩
        handlers := fun type =>
          if type = "datarequest" then some (execDataRequestMessage soc marshal) else none
        execAll := fun _ _ _ s => (s, true) } }

/-- The node does not serve the request of peer 2 after one of peer 1, to
which it has no route. -/
theorem second_request_unserved :
    let s : DataSharing.Node ℕ :=
      DataSharing.Setup.start ⟨.empty, .empty, [], Gossip.NodeRT.new.addEntry 2 2⟩
    let request (p : ℕ) : Packet ℕ := ⟨.new p p 0 1, ⟨"datarequest", []⟩⟩
    let es : List (Event ℕ (DataSharing.Node ℕ) Unit) :=
      [.received (request 1) (), .received (request 2) ()]
    answering.listeningRoutine s es = [.handed (request 1)] ∧
      answering.serveAll es = [.handed (request 1), .handed (request 2)] := by
  intro s request es
  have hroute : s.routingTable.getAddr (request 1).header.source = none := by decide
  exact ⟨data_request_silences rfl rfl rfl hroute _, rfl⟩

end Minotor.Messaging
