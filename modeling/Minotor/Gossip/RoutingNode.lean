import Minotor.Gossip.Network
import Minotor.Support.Runs

/-!
# The routing of one node

One node whose routing table is changed by `AddPeer`, by `SetRoutingEntry` and
by the rumors it accepts, whatever it receives.  While the handler of an
accepted rumor runs, all other operations may happen, and it may process rumors
itself.

The documentation of the peer promises that the neighbours are the nodes to
which the table has a direct entry, and that the table leads from the node to
itself.  Each operation keeps these promises only under a condition.
-/

namespace Minotor.Gossip

variable {P M : Type*}

/-- The part of a node which its routing depends on. -/
structure RoutingNode (P M : Type*) where
  routingTable : NodeRT P
  rumorsHandler : RumorsHandler P M
  /-- of every call of `processRumors` in a handler, innermost first, the relay
  of its packet and the rumors which it has not looked at -/
  calls : List (P × List (Rumor P M))

inductive RoutingAction (P M : Type*) where
  | addPeer (addr : List P)
  | setRoutingEntry (origin : P) (relayAddr : Option P)
  | broadcast (msg : M)
  /-- a `RumorsMessage` is handled -/
  | receive (header : Header P) (rumors : List (Rumor P M))
  /-- the innermost handler of a rumor returns, with an error or without -/
  | handlerReturns (err : Bool)
deriving DecidableEq

variable [DecidableEq P]

namespace RoutingNode

/-- `NewPeersterNode`. -/
def new (myAddr : P) : RoutingNode P M where
  routingTable := NodeRT.new.setRoutingEntry myAddr (some myAddr)
  rumorsHandler := .new
  calls := []

/-- A call of `processRumors` takes the lock and runs until it gives it up. -/
def enter (n : RoutingNode P M) (outer : List (P × List (Rumor P M))) (relayedBy : P)
    (rumors : List (Rumor P M)) : RoutingNode P M :=
  match n.rumorsHandler.processRumors false rumors with
  | (.handling m rest, rH) =>
      ⟨n.routingTable.updateRT m.origin relayedBy, rH, (relayedBy, rest) :: outer⟩
  | (.returned _, rH) => ⟨n.routingTable, rH, outer⟩

/-- One action of the node `myAddr`.  `SetRoutingEntry` is called for other nodes
only. -/
def next (myAddr : P) (n : RoutingNode P M) : RoutingAction P M → Option (RoutingNode P M)
  | .addPeer addr => some { n with routingTable := n.routingTable.addEntries addr }
  | .setRoutingEntry origin relayAddr =>
      if origin = myAddr then none
      else some { n with routingTable := n.routingTable.setRoutingEntry origin relayAddr }
  | .broadcast msg =>
      some { n with rumorsHandler := (n.rumorsHandler.createRumorsMsg myAddr msg).2 }
  | .receive header rumors =>
      if header.source = header.destination then some n
      else some (n.enter n.calls header.relayedBy rumors)
  | .handlerReturns err =>
      match n.calls with
      | [] => none
      | (relayedBy, rest) :: outer =>
          if err then some { n with calls := outer } else some (n.enter outer relayedBy rest)

/-- The rumor which is accepted in an action, and the relay of its packet. -/
def accepts (n : RoutingNode P M) : RoutingAction P M → Option (Rumor P M × P)
  | .receive header rumors =>
      if header.source = header.destination then none
      else (rumors.find? n.rumorsHandler.IsNext).map fun m => (m, header.relayedBy)
  | .handlerReturns false =>
      n.calls.head?.bind fun (relayedBy, rest) =>
        (rest.find? n.rumorsHandler.IsNext).map fun m => (m, relayedBy)
  | _ => none

end RoutingNode

/-- The operations on the routing of the node `myAddr`. -/
def routing (myAddr : P) : TransitionSystem (RoutingNode P M) (RoutingAction P M) where
  init := .new myAddr
  next := RoutingNode.next myAddr

namespace RoutingNode

variable {myAddr : P} {n n' : RoutingNode P M}

theorem routingTable_enter (n : RoutingNode P M) (outer : List (P × List (Rumor P M)))
    (relayedBy : P) (rumors : List (Rumor P M)) :
    (n.enter outer relayedBy rumors).routingTable =
      match rumors.find? n.rumorsHandler.IsNext with
      | some m => n.routingTable.updateRT m.origin relayedBy
      | none => n.routingTable := by
  unfold enter
  rcases n.rumorsHandler.processRumors_cases false rumors with
    ⟨skipped, m, rest, rfl, hskip, hm, heq⟩ | ⟨hskip, heq⟩
  · have hfind : (skipped ++ m :: rest).find? n.rumorsHandler.IsNext = some m := by
      rw [List.find?_append, List.find?_eq_none.mpr fun r hr => by simpa using hskip r hr,
        Option.none_or, List.find?_cons_of_pos (by simpa using hm)]
    rw [heq, hfind]
  · have hfind : rumors.find? n.rumorsHandler.IsNext = none :=
      List.find?_eq_none.mpr fun r hr => by simpa using hskip r hr
    rw [heq, hfind]

/-- The routing table after a rumor is accepted in the action. -/
def accepting (n : RoutingNode P M) (a : RoutingAction P M) : NodeRT P :=
  match n.accepts a with
  | some (m, relayedBy) => n.routingTable.updateRT m.origin relayedBy
  | none => n.routingTable

/-- What an action does to the routing table. -/
inductive Routes (myAddr : P) (n : RoutingNode P M) : RoutingAction P M → NodeRT P → Prop where
  | addPeer (addr : List P) : Routes myAddr n (.addPeer addr) (n.routingTable.addEntries addr)
  | setRoutingEntry (origin : P) (relayAddr : Option P) (h : origin ≠ myAddr) :
      Routes myAddr n (.setRoutingEntry origin relayAddr)
        (n.routingTable.setRoutingEntry origin relayAddr)
  | broadcast (msg : M) : Routes myAddr n (.broadcast msg) n.routingTable
  | receive (header : Header P) (rumors : List (Rumor P M)) :
      Routes myAddr n (.receive header rumors) (n.accepting (.receive header rumors))
  | handlerReturns (err : Bool) :
      Routes myAddr n (.handlerReturns err) (n.accepting (.handlerReturns err))

theorem routes_next {a : RoutingAction P M} (h : next myAddr n a = some n') :
    Routes myAddr n a n'.routingTable := by
  cases a with
  | addPeer addr =>
      obtain rfl := Option.some.inj h
      exact .addPeer addr
  | setRoutingEntry origin relayAddr =>
      simp only [next] at h
      by_cases ho : origin = myAddr
      · rw [if_pos ho] at h
        cases h
      · rw [if_neg ho] at h
        obtain rfl := Option.some.inj h
        exact .setRoutingEntry origin relayAddr ho
  | broadcast msg =>
      obtain rfl := Option.some.inj h
      exact .broadcast msg
  | receive header rumors =>
      have heq : n'.routingTable = n.accepting (.receive header rumors) := by
        simp only [next] at h
        simp only [accepting, accepts]
        by_cases hheader : header.source = header.destination
        · rw [if_pos hheader] at h ⊢
          obtain rfl := Option.some.inj h
          rfl
        · rw [if_neg hheader] at h ⊢
          obtain rfl := Option.some.inj h
          rw [routingTable_enter]
          cases rumors.find? n.rumorsHandler.IsNext with
          | some m => rfl
          | none => rfl
      rw [heq]
      exact .receive header rumors
  | handlerReturns err =>
      have heq : n'.routingTable = n.accepting (.handlerReturns err) := by
        simp only [next] at h
        simp only [accepting, accepts]
        cases hcalls : n.calls with
        | nil =>
            rw [hcalls] at h
            cases h
        | cons call outer =>
            obtain ⟨relayedBy, rest⟩ := call
            rw [hcalls] at h
            cases err with
            | true =>
                obtain rfl := Option.some.inj h
                rfl
            | false =>
                obtain rfl := Option.some.inj h
                rw [routingTable_enter, List.head?_cons, Option.bind_some]
                cases rest.find? n.rumorsHandler.IsNext with
                | some m => rfl
                | none => rfl
      rw [heq]
      exact .handlerReturns err

end RoutingNode
end Minotor.Gossip
