import Minotor.Gossip.RoutingTable
import Minotor.Support.Trajectory
import Mathlib.Data.Fin.Basic

/-!
# Relaying

The way of a unicast packet through a network, from `messaging.go`,
`service.go` and `transport/mod.go`.  Every peer listens, and the routing
tables are arbitrary; they may contradict each other or contain cycles.

`relayed` is the relaying of `listeningRoutine`, which sends a packet straight
to its destination.  `relayedByTable` is relaying as the comments on
`Header.TTL` describe it, with the relay's own routing table.
-/

namespace Minotor.Messaging

open Minotor.Gossip (NodeRT)

variable {P : Type*}

/-- `transport.Header`. -/
structure Header (P : Type*) where
  ttl : ℕ
  source : P
  relayedBy : P
  destination : P
deriving DecidableEq

/-- `NewHeader`. -/
def Header.new (source relay destination : P) (ttl : ℕ) : Header P where
  ttl := if ttl = 0 then UInt64.size - 1 else ttl
  source := source
  relayedBy := relay
  destination := destination

/-- `transport.Message`. -/
structure TransportMessage where
  type : String
  payload : List UInt8
deriving DecidableEq

/-- `transport.Packet`. -/
structure Packet (P : Type*) where
  header : Header P
  msg : TransportMessage
deriving DecidableEq

/-- A packet on its way to the socket `dest`. -/
structure Sent (P : Type*) where
  dest : P
  pkt : Packet P
deriving DecidableEq

/-! ## Sending and relaying -/

variable [DecidableEq P]

/-- `Unicast`. -/
def unicast [ToString P] (routingTable : NodeRT P) (myAddr dest : P)
    (msg : TransportMessage) : Except String (Sent P) :=
  match routingTable.getAddr dest with
  | none => .error s!"forwarding address not found: {dest}"
  | some addr => .ok ⟨addr, ⟨.new myAddr myAddr dest 1, msg⟩⟩

/-- What `listeningRoutine` of `myAddr` sends for a packet with another
destination. -/
def relay (myAddr : P) (pkt : Packet P) : Sent P :=
  ⟨pkt.header.destination, { pkt with header := { pkt.header with relayedBy := myAddr } }⟩

/-- What the peer that receives a packet sends on. -/
def relayed (s : Sent P) : Option (Sent P) :=
  if s.pkt.header.destination = s.dest then none else some (relay s.dest s.pkt)

/-- What the peer that receives a packet sends on if it uses its own routing
table and counts down the time to live. -/
def relayedByTable (tables : P → NodeRT P) (s : Sent P) : Option (Sent P) :=
  if s.pkt.header.destination = s.dest ∨ s.pkt.header.ttl = 0 then none
  else
    ((tables s.dest).getAddr s.pkt.header.destination).map fun addr =>
      ⟨addr, { s.pkt with
        header := { s.pkt.header with
          relayedBy := s.dest
          ttl := s.pkt.header.ttl - 1 } }⟩

/-- The peers relay the packet along their routing tables: what they send is
what they would send if they used them. -/
def FollowsTables (tables : P → NodeRT P) (s : Sent P) : Prop :=
  ∃ path, Trajectory relayed s path ∧ Trajectory (relayedByTable tables) s path

/-! ## The way of a packet -/

variable {tables : P → NodeRT P} {s t : Sent P}

theorem relayed_eq_some (h : relayed s = some t) :
    s.pkt.header.destination ≠ s.dest ∧ t = relay s.dest s.pkt := by
  unfold relayed at h
  split at h
  · cases h
  · next hne => exact ⟨hne, (Option.some.inj h).symm⟩

/-- What a relay sends has arrived. -/
theorem relayed_relay (myAddr : P) (pkt : Packet P) : relayed (relay myAddr pkt) = none :=
  if_pos rfl

/-- Every packet comes to its end, after one relay at most. -/
theorem exists_relayed (s : Sent P) :
    ∃ path, Trajectory relayed s path ∧ path.length ≤ 1 := by
  cases hs : relayed s with
  | none => exact ⟨[], .stops hs, Nat.zero_le 1⟩
  | some t =>
      obtain ⟨_, rfl⟩ := relayed_eq_some hs
      exact ⟨_, .moves hs (.stops (relayed_relay _ _)), le_rfl⟩

theorem relayedByTable_eq_some (h : relayedByTable tables s = some t) :
    t.pkt.header.ttl + 1 = s.pkt.header.ttl ∧
      (tables s.dest).getAddr s.pkt.header.destination = some t.dest := by
  unfold relayedByTable at h
  split at h
  · cases h
  · next hne =>
      rw [not_or] at hne
      obtain ⟨addr, haddr, rfl⟩ := Option.map_eq_some_iff.mp h
      exact ⟨Nat.sub_add_cancel (Nat.pos_of_ne_zero hne.2), haddr⟩

theorem ttl_lt_of_relayedByTable (tables : P → NodeRT P) (s t : Sent P)
    (h : relayedByTable tables s = some t) : t.pkt.header.ttl < s.pkt.header.ttl := by
  have httl := (relayedByTable_eq_some h).1
  omega

/-- Along the routing tables every packet comes to its end, even if they
contain a cycle. -/
theorem exists_relayedByTable (tables : P → NodeRT P) (s : Sent P) :
    ∃ path, Trajectory (relayedByTable tables) s path := by
  obtain ⟨path, hpath, _⟩ :=
    Trajectory.exists_of_measure _ (ttl_lt_of_relayedByTable tables) s
  exact ⟨path, hpath⟩

/-- No packet is relayed more often than its time to live. -/
theorem length_le_ttl {path : List (Sent P)}
    (h : Trajectory (relayedByTable tables) s path) : path.length ≤ s.pkt.header.ttl :=
  h.length_le_of_measure _ (ttl_lt_of_relayedByTable tables)

/-- Only a packet without relays follows the tables: the first relay does not
count down the time to live, whatever its table says. -/
theorem followsTables_iff (tables : P → NodeRT P) (s : Sent P) :
    FollowsTables tables s ↔ s.pkt.header.destination = s.dest := by
  constructor
  · rintro ⟨path, hcode, htable⟩
    by_contra hne
    obtain ⟨_, rfl⟩ := hcode.exists_of_moves (if_neg hne)
    cases htable with
    | moves hsome =>
        have httl := (relayedByTable_eq_some hsome).1
        exact absurd httl (Nat.succ_ne_self _)
  · intro heq
    exact ⟨[], .stops (if_pos heq), .stops (if_pos (.inl heq))⟩

theorem unicast_eq_ok [ToString P] {routingTable : NodeRT P} {myAddr dest : P}
    {msg : TransportMessage} {s : Sent P} :
    unicast routingTable myAddr dest msg = .ok s ↔
      routingTable.getAddr dest = some s.dest ∧
        s.pkt = ⟨.new myAddr myAddr dest 1, msg⟩ := by
  unfold unicast
  cases routingTable.getAddr dest with
  | none => simp only [reduceCtorEq, false_and]
  | some addr =>
      constructor
      · intro h
        cases h
        exact ⟨rfl, rfl⟩
      · rintro ⟨haddr, hpkt⟩
        cases haddr
        rw [← hpkt]

/-- The packets of `Unicast` follow the routing tables exactly if the first
table has no entry for the destination or leads straight to it. -/
theorem unicast_follows_iff [ToString P] (tables : P → NodeRT P) (a d : P)
    (msg : TransportMessage) :
    (∀ s, unicast (tables a) a d msg = .ok s → FollowsTables tables s) ↔
      (tables a).getAddr d = none ∨ (tables a).getAddr d = some d := by
  constructor
  · intro h
    cases haddr : (tables a).getAddr d with
    | none => exact .inl rfl
    | some addr =>
        have hs := h ⟨addr, ⟨.new a a d 1, msg⟩⟩ (unicast_eq_ok.mpr ⟨haddr, rfl⟩)
        have hd : d = addr := (followsTables_iff tables _).mp hs
        exact .inr (congrArg some hd.symm)
  · intro h s hs
    obtain ⟨haddr, hpkt⟩ := unicast_eq_ok.mp hs
    rw [followsTables_iff, hpkt]
    rcases h with h | h
    · exact absurd (h.symm.trans haddr) (Option.some_ne_none _).symm
    · exact Option.some.inj (h.symm.trans haddr)

/-- Four peers in a line: each knows only the next one on the way to the last. -/
def line (p : Fin 4) : NodeRT (Fin 4) := NodeRT.new.addEntry 3 (p + 1)

/-- The second peer of the line sends a packet for the last one straight to
it, past the third. -/
theorem relays_past_table :
    ∃ s, unicast (line 0) 0 3 ⟨"chat", []⟩ = .ok s ∧ ¬FollowsTables line s ∧
      (relayed s).map (·.dest) = some 3 ∧
      (relayedByTable line s).map (·.dest) = some 2 := by
  refine ⟨⟨1, ⟨.new 0 0 3 1, ⟨"chat", []⟩⟩⟩, by decide, ?_, by decide, by decide⟩
  rw [followsTables_iff]
  decide

end Minotor.Messaging
