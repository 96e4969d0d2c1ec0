import Minotor.Gossip.RoutingNode

/-!
# The neighbours and the self route

The neighbours mirror the routing table as long as every operation updates the
two alike.  `AddPeer` adds neighbours without a check, `SetRoutingEntry` changes
the table only, and a node which gets a rumor of its own from itself becomes its
own neighbour.  The table leads from the node to itself until the node accepts,
through another node, a rumor with its own address as origin.
-/

namespace Minotor.Gossip

variable {P M : Type*} [DecidableEq P]

namespace NodeRT

/-- The neighbours are the other nodes to which the table has a direct entry. -/
structure Mirrors (myAddr : P) (nRT : NodeRT P) : Prop where
  nodup : nRT.neighbours.Nodup
  mem_iff : ∀ a, a ∈ nRT.neighbours ↔ a ≠ myAddr ∧ nRT.getAddr a = some a

variable {myAddr : P} {nRT : NodeRT P}

theorem Mirrors.notMem (h : nRT.Mirrors myAddr) : myAddr ∉ nRT.neighbours :=
  fun hmem => ((h.mem_iff myAddr).mp hmem).1 rfl

theorem Mirrors.addEntries_iff (h : nRT.Mirrors myAddr) (addr : List P) :
    (nRT.addEntries addr).Mirrors myAddr ↔
      addr.Nodup ∧ ∀ a ∈ addr, a ≠ myAddr ∧ a ∉ nRT.neighbours := by
  constructor
  · intro h'
    have hnodup := h'.nodup
    rw [neighbours_addEntries, List.nodup_append] at hnodup
    refine ⟨hnodup.2.1, fun a ha => ⟨?_, fun hmem => hnodup.2.2 a hmem a ha rfl⟩⟩
    have hmem : a ∈ (nRT.addEntries addr).neighbours := by
      rw [neighbours_addEntries]
      exact List.mem_append_right _ ha
    exact ((h'.mem_iff a).mp hmem).1
  · rintro ⟨hnodup, hnew⟩
    constructor
    · rw [neighbours_addEntries, List.nodup_append]
      refine ⟨h.nodup, hnodup, ?_⟩
      rintro a hmem _ ha rfl
      exact (hnew a ha).2 hmem
    · intro a
      rw [neighbours_addEntries, List.mem_append, getAddr_addEntries]
      by_cases ha : a ∈ addr
      · rw [if_pos ha]
        exact iff_of_true (.inr ha) ⟨(hnew a ha).1, rfl⟩
      · rw [if_neg ha, or_iff_left ha]
        exact h.mem_iff a

theorem Mirrors.setRoutingEntry_iff (h : nRT.Mirrors myAddr) {origin : P}
    (ho : origin ≠ myAddr) (relayAddr : Option P) :
    (nRT.setRoutingEntry origin relayAddr).Mirrors myAddr ↔
      (origin ∈ nRT.neighbours ↔ relayAddr = some origin) := by
  constructor
  · intro h'
    have hmem := h'.mem_iff origin
    rw [neighbours_setRoutingEntry, getAddr_setRoutingEntry, if_pos rfl,
      and_iff_right ho] at hmem
    exact hmem
  · intro hmem
    constructor
    · rw [neighbours_setRoutingEntry]
      exact h.nodup
    · intro a
      rw [neighbours_setRoutingEntry, getAddr_setRoutingEntry]
      by_cases ha : a = origin
      · rw [if_pos ha, ha, and_iff_right ho]
        exact hmem
      · rw [if_neg ha]
        exact h.mem_iff a

theorem Mirrors.updateRT_iff (h : nRT.Mirrors myAddr) (source relay : P) :
    (nRT.updateRT source relay).Mirrors myAddr ↔ ¬(source = myAddr ∧ relay = myAddr) := by
  constructor
  · rintro h' ⟨rfl, rfl⟩
    apply h'.notMem
    rw [neighbours_updateRT, if_pos ⟨rfl, h.notMem⟩]
    exact List.mem_append_right _ (List.mem_singleton.mpr rfl)
  · intro hself
    by_cases hsource : source ∈ nRT.neighbours
    · have heq : nRT.updateRT source relay = nRT := if_pos hsource
      rw [heq]
      exact h
    · constructor
      · rw [neighbours_updateRT]
        split
        · exact h.nodup.append (List.nodup_singleton _) (by simpa using hsource)
        · exact h.nodup
      · intro a
        have hget := nRT.getAddr_updateRT source relay a
        have hmem : a ∈ (nRT.updateRT source relay).neighbours ↔
            a ∈ nRT.neighbours ∨ a = source ∧ source = relay := by
          rw [neighbours_updateRT]
          by_cases hrelay : source = relay
          · rw [if_pos ⟨hrelay, hsource⟩, List.mem_append, List.mem_singleton,
              and_iff_left hrelay]
          · rw [if_neg fun hand => hrelay hand.1, or_iff_left fun hand => hrelay hand.2]
        rw [hget, hmem]
        by_cases ha : a = source
        · subst ha
          rw [if_pos ⟨rfl, hsource⟩, or_iff_right hsource, Option.some.injEq]
          constructor
          · rintro ⟨-, rfl⟩
            exact ⟨fun heq => hself ⟨heq, heq⟩, rfl⟩
          · rintro ⟨-, rfl⟩
            exact ⟨rfl, rfl⟩
        · rw [if_neg fun hand => ha hand.1, or_iff_left fun hand => ha hand.1]
          exact h.mem_iff a

end NodeRT

namespace RoutingNode

/-- The action keeps the neighbours and the table alike. -/
def Restores (myAddr : P) (n : RoutingNode P M) (a : RoutingAction P M) : Prop :=
  match a with
  | .addPeer addr => addr.Nodup ∧ ∀ k ∈ addr, k ≠ myAddr ∧ k ∉ n.routingTable.neighbours
  | .setRoutingEntry origin relayAddr =>
      origin ∈ n.routingTable.neighbours ↔ relayAddr = some origin
  | a => ∀ m relayedBy, n.accepts a = some (m, relayedBy) →
      ¬(m.origin = myAddr ∧ relayedBy = myAddr)

/-- A rumor with the address of the node as origin is accepted from the node
itself, or after it has become its own neighbour. -/
def KeepsSelfRoute (myAddr : P) (n : RoutingNode P M) (a : RoutingAction P M) : Prop :=
  ∀ m relayedBy, n.accepts a = some (m, relayedBy) → m.origin = myAddr →
    relayedBy = myAddr ∨ myAddr ∈ n.routingTable.neighbours

variable {myAddr : P} {n n' : RoutingNode P M} {a : RoutingAction P M}

theorem mirrors_accepting_iff (h : n.routingTable.Mirrors myAddr) :
    (n.accepting a).Mirrors myAddr ↔
      ∀ m relayedBy, n.accepts a = some (m, relayedBy) →
        ¬(m.origin = myAddr ∧ relayedBy = myAddr) := by
  unfold accepting
  cases haccepts : n.accepts a with
  | none => exact iff_of_true h fun _ _ heq => by cases heq
  | some accepted =>
      obtain ⟨m, relayedBy⟩ := accepted
      refine (h.updateRT_iff m.origin relayedBy).trans ⟨?_, fun hall => hall m relayedBy rfl⟩
      intro hself m' relayedBy' heq
      cases heq
      exact hself

theorem mirrors_next_iff (h : n.routingTable.Mirrors myAddr)
    (hnext : next myAddr n a = some n') :
    n'.routingTable.Mirrors myAddr ↔ n.Restores myAddr a := by
  have hroutes := routes_next hnext
  generalize n'.routingTable = nRT at hroutes ⊢
  cases hroutes with
  | addPeer addr => exact h.addEntries_iff addr
  | setRoutingEntry origin relayAddr ho => exact h.setRoutingEntry_iff ho relayAddr
  | broadcast msg => exact iff_of_true h fun _ _ heq => by cases heq
  | receive header rumors => exact mirrors_accepting_iff h
  | handlerReturns err => exact mirrors_accepting_iff h

theorem selfRoute_next_iff (h : n.routingTable.getAddr myAddr = some myAddr)
    (hnext : next myAddr n a = some n') :
    n'.routingTable.getAddr myAddr = some myAddr ↔ n.KeepsSelfRoute myAddr a := by
  have haccepting : (n.accepting a).getAddr myAddr = some myAddr ↔
      n.KeepsSelfRoute myAddr a := by
    unfold accepting KeepsSelfRoute
    cases haccepts : n.accepts a with
    | none => exact iff_of_true h fun _ _ heq => by cases heq
    | some accepted =>
        obtain ⟨m, relayedBy⟩ := accepted
        simp only [NodeRT.getAddr_updateRT]
        constructor
        · intro hself m' relayedBy' heq horigin
          cases heq
          by_cases hmem : m.origin ∈ n.routingTable.neighbours
          · exact .inr (horigin ▸ hmem)
          · rw [if_pos ⟨horigin.symm, hmem⟩] at hself
            exact .inl (Option.some.inj hself)
        · intro hkeeps
          by_cases hif : myAddr = m.origin ∧ m.origin ∉ n.routingTable.neighbours
          · obtain ⟨horigin, hmem⟩ := hif
            rw [if_pos ⟨horigin, hmem⟩]
            rcases hkeeps m relayedBy rfl horigin.symm with hrelay | hself
            · rw [hrelay]
            · exact absurd (horigin ▸ hself) hmem
          · rw [if_neg hif]
            exact h
  have hroutes := routes_next hnext
  generalize n'.routingTable = nRT at hroutes ⊢
  cases hroutes with
  | addPeer addr =>
      refine iff_of_true ?_ fun _ _ heq => by cases heq
      rw [NodeRT.getAddr_addEntries, h, ite_self]
  | setRoutingEntry origin relayAddr ho =>
      refine iff_of_true ?_ fun _ _ heq => by cases heq
      rw [NodeRT.getAddr_setRoutingEntry, if_neg fun heq => ho heq.symm]
      exact h
  | broadcast msg => exact iff_of_true h fun _ _ heq => by cases heq
  | receive header rumors => exact haccepting
  | handlerReturns err => exact haccepting

end RoutingNode

variable (M) in
theorem mirrors_new (myAddr : P) :
    (RoutingNode.new myAddr : RoutingNode P M).routingTable.Mirrors myAddr where
  nodup := List.nodup_nil
  mem_iff a := by
    refine iff_of_false List.not_mem_nil ?_
    rintro ⟨hne, hget⟩
    have hnone : (NodeRT.new.setRoutingEntry myAddr (some myAddr)).getAddr a = none := by
      rw [NodeRT.getAddr_setRoutingEntry, if_neg hne]
      rfl
    cases hnone.symm.trans hget

/-- In every run from the start, the neighbours mirror the routing table in
every state exactly if every step keeps the two alike. -/
theorem neighbours_mirror_iff (myAddr : P) (acts : List (RoutingAction P M)) :
    (routing myAddr).Always (fun n => n.routingTable.Mirrors myAddr) (.new myAddr) acts ↔
      (routing myAddr).Along (RoutingNode.Restores myAddr) (.new myAddr) acts :=
  TransitionSystem.always_iff_along
    (fun _ _ _ _ h hnext => RoutingNode.mirrors_next_iff h hnext) .init (mirrors_new M myAddr)

/-- Adding a known peer makes it a neighbour twice. -/
theorem neighbour_added_twice :
    ¬(routing (P := ℕ) (M := Unit) 0).Always (fun n => n.routingTable.Mirrors 0) (.new 0)
      [.addPeer [1], .addPeer [1]] := by
  rintro ⟨-, hfirst⟩
  obtain ⟨-, hsecond⟩ := hfirst _ rfl
  have hnodup := (hsecond _ rfl).head.nodup
  exact absurd hnodup (by decide)

/-- In every run from the start, the table leads from the node to itself in
every state exactly if every rumor with its own address as origin is accepted
from the node itself or after it has become its own neighbour. -/
theorem self_route_iff (myAddr : P) (acts : List (RoutingAction P M)) :
    (routing myAddr).Always (fun n => n.routingTable.getAddr myAddr = some myAddr)
        (.new myAddr) acts ↔
      (routing myAddr).Along (RoutingNode.KeepsSelfRoute myAddr) (.new myAddr) acts := by
  apply TransitionSystem.always_iff_along
  · exact fun _ _ _ _ h hnext => RoutingNode.selfRoute_next_iff h hnext
  · exact .init
  · exact AList.lookup_insert ∅

/-- A rumor of a previous life of the node leads it to the node that relays it. -/
theorem self_route_lost :
    ¬(routing (P := ℕ) (M := Unit) 0).Always
      (fun n => n.routingTable.getAddr 0 = some 0) (.new 0)
      [.receive ⟨0, 1, 1, 0⟩ [⟨0, 1, ()⟩]] := by
  rintro ⟨-, hfirst⟩
  have hroute := (hfirst _ rfl).head
  exact absurd hroute (by decide)

end Minotor.Gossip
