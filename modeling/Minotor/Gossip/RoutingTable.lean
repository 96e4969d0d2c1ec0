import Mathlib.Data.List.AList

/-!
# The routing table

The routing table and the neighbours of a node, from `nodeRT.go`.
-/

namespace Minotor.Gossip

/-- `nodeRT`. -/
structure NodeRT (P : Type*) where
  routingTable : AList fun _ : P => P
  neighbours : List P

namespace NodeRT

variable {P : Type*}

/-- `newNodeRT`. -/
def new : NodeRT P := ⟨∅, []⟩

variable [DecidableEq P]

/-- `addEntry`. -/
def addEntry (nRT : NodeRT P) (k v : P) : NodeRT P :=
  { nRT with routingTable := nRT.routingTable.insert k v }

/-- One turn of the loop of `addEntries`. -/
def addNeighbour (nRT : NodeRT P) (k : P) : NodeRT P where
  routingTable := nRT.routingTable.insert k k
  neighbours := nRT.neighbours ++ [k]

/-- `addEntries`. -/
def addEntries (nRT : NodeRT P) (addr : List P) : NodeRT P :=
  addr.foldl addNeighbour nRT

/-- `getAddr`. -/
def getAddr (nRT : NodeRT P) (dest : P) : Option P := nRT.routingTable.lookup dest

/-- `delete`. -/
def delete (nRT : NodeRT P) (key : P) : NodeRT P :=
  { nRT with routingTable := nRT.routingTable.erase key }

/-- `SetRoutingEntry`; `none` is the empty address. -/
def setRoutingEntry (nRT : NodeRT P) (origin : P) (relayAddr : Option P) : NodeRT P :=
  match relayAddr with
  | some relayAddr => nRT.addEntry origin relayAddr
  | none => nRT.delete origin

/-- `updateRT`. -/
def updateRT (nRT : NodeRT P) (source relay : P) : NodeRT P :=
  if source ∈ nRT.neighbours then nRT
  else
    { routingTable := nRT.routingTable.insert source relay
      neighbours :=
        if source = relay then nRT.neighbours ++ [source] else nRT.neighbours }

variable (nRT : NodeRT P)

theorem getAddr_addEntry (k v dest : P) :
    (nRT.addEntry k v).getAddr dest = if dest = k then some v else nRT.getAddr dest := by
  unfold addEntry getAddr
  split
  · next h => rw [h, AList.lookup_insert]
  · next h => exact AList.lookup_insert_ne h

theorem getAddr_setRoutingEntry (origin : P) (relayAddr : Option P) (dest : P) :
    (nRT.setRoutingEntry origin relayAddr).getAddr dest =
      if dest = origin then relayAddr else nRT.getAddr dest := by
  cases relayAddr with
  | some relayAddr => exact getAddr_addEntry nRT origin relayAddr dest
  | none =>
      change (nRT.routingTable.erase origin).lookup dest =
        if dest = origin then none else nRT.routingTable.lookup dest
      by_cases h : dest = origin
      · rw [if_pos h, h, AList.lookup_erase]
      · rw [if_neg h, AList.lookup_erase_ne h]

theorem getAddr_addNeighbour (k dest : P) :
    (nRT.addNeighbour k).getAddr dest =
      if dest = k then some dest else nRT.getAddr dest := by
  unfold addNeighbour getAddr
  split
  · next h => rw [h, AList.lookup_insert]
  · next h => exact AList.lookup_insert_ne h

@[simp] theorem neighbours_addEntries (addr : List P) :
    (nRT.addEntries addr).neighbours = nRT.neighbours ++ addr := by
  unfold addEntries
  induction addr generalizing nRT with
  | nil => exact (List.append_nil _).symm
  | cons k addr ih =>
      rw [List.foldl_cons, ih, addNeighbour, List.append_assoc, List.singleton_append]

theorem getAddr_addEntries (addr : List P) (dest : P) :
    (nRT.addEntries addr).getAddr dest =
      if dest ∈ addr then some dest else nRT.getAddr dest := by
  unfold addEntries
  induction addr generalizing nRT with
  | nil => rfl
  | cons k addr ih =>
      rw [List.foldl_cons, ih, getAddr_addNeighbour]
      by_cases haddr : dest ∈ addr
      · rw [if_pos haddr, if_pos (List.mem_cons_of_mem k haddr)]
      · rw [if_neg haddr]
        by_cases hk : dest = k
        · rw [if_pos hk, if_pos (hk ▸ List.mem_cons_self)]
        · rw [if_neg hk, if_neg]
          rw [List.mem_cons, not_or]
          exact ⟨hk, haddr⟩

theorem getAddr_updateRT (source relay dest : P) :
    (nRT.updateRT source relay).getAddr dest =
      if dest = source ∧ source ∉ nRT.neighbours then some relay
      else nRT.getAddr dest := by
  unfold updateRT
  by_cases hsource : source ∈ nRT.neighbours
  · rw [if_pos hsource, if_neg fun h => h.2 hsource]
  · rw [if_neg hsource]
    change (nRT.routingTable.insert source relay).lookup dest = _
    by_cases hdest : dest = source
    · rw [if_pos ⟨hdest, hsource⟩, hdest]
      exact AList.lookup_insert _
    · rw [if_neg fun h => hdest h.1]
      exact AList.lookup_insert_ne hdest

theorem neighbours_setRoutingEntry (origin : P) (relayAddr : Option P) :
    (nRT.setRoutingEntry origin relayAddr).neighbours = nRT.neighbours := by
  cases relayAddr with
  | some relayAddr => rfl
  | none => rfl

theorem neighbours_updateRT (source relay : P) :
    (nRT.updateRT source relay).neighbours =
      if source = relay ∧ source ∉ nRT.neighbours then nRT.neighbours ++ [source]
      else nRT.neighbours := by
  unfold updateRT
  by_cases hsource : source ∈ nRT.neighbours
  · rw [if_pos hsource, if_neg fun h => h.2 hsource]
  · rw [if_neg hsource]
    by_cases hrelay : source = relay
    · rw [if_pos hrelay, if_pos ⟨hrelay, hsource⟩]
    · rw [if_neg hrelay, if_neg fun h => hrelay h.1]

theorem mem_neighbours_updateRT {source relay k : P}
    (hk : k ∈ (nRT.updateRT source relay).neighbours) :
    k ∈ nRT.neighbours ∨ source ∉ nRT.neighbours ∧ k = source ∧ source = relay := by
  unfold updateRT at hk
  by_cases hsource : source ∈ nRT.neighbours
  · rw [if_pos hsource] at hk
    exact .inl hk
  · rw [if_neg hsource] at hk
    simp only at hk
    by_cases hrelay : source = relay
    · rw [if_pos hrelay, List.mem_append, List.mem_singleton] at hk
      rcases hk with hk | hk
      · exact .inl hk
      · exact .inr ⟨hsource, hk, hrelay⟩
    · rw [if_neg hrelay] at hk
      exact .inl hk

end NodeRT
end Minotor.Gossip
