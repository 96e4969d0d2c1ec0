import Minotor.Gossip.Steps
import Minotor.Support.NextHop

/-!
# Routes learned from rumors

An entry of a routing table which was learned from a rumor points to a node
that has processed at least as many rumors of the origin.  The number of
processed rumors can only grow along a route, and a node that takes a new
entry had processed fewer, so it is on no route of the new next hop.
-/

namespace Minotor.Gossip.Network

variable {P M : Type*} [DecidableEq P]

/-- The entry for `o` in the routing table of `p`. -/
def nextHop (st : Network P M) (o p : P) : Option P :=
  (st.nodes p).routingTable.getAddr o

/-- What rumors have told the routing tables. -/
structure Learned (st : Network P M) : Prop where
  /-- nobody knows more rumors of a node than the node itself -/
  bounded : ∀ p o, st.know p o ≤ st.know o o
  own : ∀ p, (st.nextHop p p).isSome
  neighbours : ∀ p, ∀ k ∈ (st.nodes p).routingTable.neighbours, st.nextHop k p = some k
  known : ∀ p o, 0 < st.know p o → (st.nextHop o p).isSome
  hops : ∀ p o y, p ≠ o → st.nextHop o p = some y → y ≠ o →
    0 < st.know p o ∧ st.know p o ≤ st.know y o
  routed : ∀ o, Routed (st.nextHop o) o

variable {st st' : Network P M} {p : P} {n : Node P M}

/-- The rumor which a node accepts is not its own, since nobody knows more of
its rumors than the node itself. -/
theorem Learned.origin_ne (h : st.Learned) {relay : P} {m : Rumor P M}
    (hknown : m.sequence ≤ st.know relay m.origin)
    (hnext : (st.nodes p).rumorsHandler.IsNext m) : m.origin ≠ p := by
  rintro rfl
  have hsucc : m.sequence = st.know m.origin m.origin + 1 := hnext
  have hle := h.bounded relay m.origin
  omega

section

variable (hnodes : st'.nodes = Function.update st.nodes p n)

include hnodes

theorem nextHop_self (o : P) : st'.nextHop o p = n.routingTable.getAddr o := by
  unfold nextHop
  rw [hnodes, Function.update_self]

theorem nextHop_of_ne (o : P) {q : P} (hq : q ≠ p) : st'.nextHop o q = st.nextHop o q := by
  unfold nextHop
  rw [hnodes, Function.update_of_ne hq]

theorem know_self (o : P) : st'.know p o = n.know o := by
  rw [know_eq_update hnodes, Function.update_self]

theorem know_of_ne (o : P) {q : P} (hq : q ≠ p) : st'.know q o = st.know q o := by
  rw [know_eq_update hnodes, Function.update_of_ne hq]

/-- Only the knowledge and the table of `p` have to be looked at. -/
theorem Learned.of_update (h : st.Learned)
    (hle : ∀ o, st.know p o ≤ n.know o)
    (hbounded : ∀ o, n.know o ≤ st'.know o o)
    (hown : (n.routingTable.getAddr p).isSome)
    (hneighbours : ∀ k ∈ n.routingTable.neighbours, n.routingTable.getAddr k = some k)
    (hknown : ∀ o, 0 < n.know o → (n.routingTable.getAddr o).isSome)
    (hhops : ∀ o y, p ≠ o → n.routingTable.getAddr o = some y → y ≠ o →
      0 < n.know o ∧ n.know o ≤ st'.know y o)
    (hrouted : ∀ o, Routed (st'.nextHop o) o) : st'.Learned := by
  have hgrow : ∀ q o, st.know q o ≤ st'.know q o := by
    intro q o
    by_cases hq : q = p
    · rw [hq, know_self hnodes]
      exact hle o
    · rw [know_of_ne hnodes o hq]
  constructor
  · intro q o
    by_cases hq : q = p
    · rw [hq, know_self hnodes]
      exact hbounded o
    · rw [know_of_ne hnodes o hq]
      exact (h.bounded q o).trans (hgrow o o)
  · intro q
    by_cases hq : q = p
    · rw [hq, nextHop_self hnodes]
      exact hown
    · rw [nextHop_of_ne hnodes q hq]
      exact h.own q
  · intro q k hk
    by_cases hq : q = p
    · rw [hq, hnodes, Function.update_self] at hk
      rw [hq, nextHop_self hnodes]
      exact hneighbours k hk
    · rw [hnodes, Function.update_of_ne hq] at hk
      rw [nextHop_of_ne hnodes k hq]
      exact h.neighbours q k hk
  · intro q o hpos
    by_cases hq : q = p
    · rw [hq, know_self hnodes] at hpos
      rw [hq, nextHop_self hnodes]
      exact hknown o hpos
    · rw [know_of_ne hnodes o hq] at hpos
      rw [nextHop_of_ne hnodes o hq]
      exact h.known q o hpos
  · intro q o y hqo hhop hyo
    by_cases hq : q = p
    · rw [hq] at hqo
      rw [hq, nextHop_self hnodes] at hhop
      rw [hq, know_self hnodes]
      exact hhops o y hqo hhop hyo
    · rw [nextHop_of_ne hnodes o hq] at hhop
      rw [know_of_ne hnodes o hq]
      obtain ⟨hpos, hle'⟩ := h.hops q o y hqo hhop hyo
      exact ⟨hpos, hle'.trans (hgrow y o)⟩
  · exact hrouted

/-- The next hops are the same if the table of `p` is. -/
theorem nextHop_eq_of_table (hrt : n.routingTable = (st.nodes p).routingTable) (o : P) :
    st'.nextHop o = st.nextHop o := by
  funext q
  by_cases hq : q = p
  · rw [hq, nextHop_self hnodes, hrt]
    rfl
  · exact nextHop_of_ne hnodes o hq

/-- `AddPeer` makes direct entries. -/
theorem Learned.addPeer (h : st.Learned) (addr : List P)
    (hrt : n.routingTable = (st.nodes p).routingTable.addEntries addr)
    (hrH : n.rumorsHandler = (st.nodes p).rumorsHandler) : st'.Learned := by
  have hknow : n.know = st.know p := by
    unfold Network.know Node.know
    rw [hrH]
  have hsame : ∀ q o, st'.know q o = st.know q o := by
    intro q o
    by_cases hq : q = p
    · rw [hq, know_self hnodes, hknow]
    · exact know_of_ne hnodes o hq
  have hget : ∀ o, n.routingTable.getAddr o = if o ∈ addr then some o else st.nextHop o p := by
    intro o
    rw [hrt, NodeRT.getAddr_addEntries]
    rfl
  have hsome : ∀ o, (st.nextHop o p).isSome → (n.routingTable.getAddr o).isSome := by
    intro o ho
    rw [hget]
    split
    · rfl
    · exact ho
  apply h.of_update hnodes
  · intro o
    rw [hknow]
  · intro o
    rw [hknow, hsame]
    exact h.bounded p o
  · exact hsome p (h.own p)
  · intro k hk
    rw [hrt, NodeRT.neighbours_addEntries, List.mem_append] at hk
    rw [hget]
    split
    · rfl
    · next hkaddr => exact h.neighbours p k (hk.resolve_right hkaddr)
  · intro o hpos
    rw [hknow] at hpos
    exact hsome o (h.known p o hpos)
  · intro o y hpo hhop hyo
    rw [hget] at hhop
    split at hhop
    · exact absurd (Option.some.inj hhop).symm hyo
    · rw [hknow, hsame]
      exact h.hops p o y hpo hhop hyo
  · intro o
    by_cases haddr : o ∈ addr
    · apply (h.routed o).update_direct (z := p)
      · exact fun q hq => nextHop_of_ne hnodes o hq
      · rw [nextHop_self hnodes, hget, if_pos haddr]
    · have heq : st'.nextHop o = st.nextHop o := by
        funext q
        by_cases hq : q = p
        · rw [hq, nextHop_self hnodes, hget, if_neg haddr]
        · exact nextHop_of_ne hnodes o hq
      rw [heq]
      exact h.routed o

/-- An own rumor leaves the table as it is. -/
theorem Learned.created (h : st.Learned) {msg : M}
    (hrt : n.routingTable = (st.nodes p).routingTable)
    (hrH : n.rumorsHandler = ((st.nodes p).rumorsHandler.createRumorsMsg p msg).2) :
    st'.Learned := by
  have hknow : ∀ o, n.know o = if o = p then st.know p p + 1 else st.know p o := by
    intro o
    unfold Node.know
    rw [hrH, RumorsHandler.createRumorsMsg_snd, RumorsHandler.put_sequence]
    rfl
  apply h.of_update hnodes
  · intro o
    rw [hknow]
    split
    · next ho =>
        rw [ho]
        exact Nat.le_succ _
    · exact le_rfl
  · intro o
    by_cases ho : o = p
    · rw [ho, know_self hnodes]
    · rw [hknow, if_neg ho, know_of_ne hnodes o ho]
      exact h.bounded p o
  · rw [hrt]
    exact h.own p
  · rw [hrt]
    exact h.neighbours p
  · intro o hpos
    rw [hrt]
    by_cases ho : o = p
    · rw [ho]
      exact h.own p
    · rw [hknow, if_neg ho] at hpos
      exact h.known p o hpos
  · intro o y hpo hhop hyo
    rw [hrt] at hhop
    rw [hknow, if_neg (Ne.symm hpo)]
    obtain ⟨hpos, hle⟩ := h.hops p o y hpo hhop hyo
    refine ⟨hpos, hle.trans ?_⟩
    by_cases hy : y = p
    · rw [hy, know_self hnodes, hknow, if_neg (Ne.symm hpo)]
    · rw [know_of_ne hnodes o hy]
  · intro o
    rw [nextHop_eq_of_table hnodes hrt]
    exact h.routed o

/-- The routes to the origin of an accepted rumor, whose relay becomes the
next hop.  Every node on the route of the relay knows more than `p`. -/
theorem Learned.routed_relay (h : st.Learned) {relay o : P} {k : ℕ} (hop : o ≠ p)
    (hless : st.know p o < k) (hrelay : k ≤ st.know relay o)
    (hnew : n.routingTable.getAddr o = some relay) : Routed (st'.nextHop o) o := by
  have hother : ∀ q, q ≠ p → st'.nextHop o q = st.nextHop o q :=
    fun q hq => nextHop_of_ne hnodes o hq
  have hnew' : st'.nextHop o p = some relay := by
    rw [nextHop_self hnodes, hnew]
  by_cases hdirect : relay = o
  · exact (h.routed o).update_direct hother (hdirect ▸ hnew')
  · have hpos : 0 < st.know relay o := by omega
    obtain ⟨path, hpath⟩ := h.routed o relay (h.known relay o hpos)
    apply (h.routed o).update hother hnew' (Ne.symm hop) hpath
    intro hmem
    have hmore := hpath.forall_mem (R := fun q => k ≤ st.know q o) hrelay
      (fun y z hyo hyz hzo hy => hy.trans (h.hops y o z hyo hyz hzo).2)
      p hmem (Ne.symm hop)
    omega

/-- A rumor of another node makes its relay the next hop. -/
theorem Learned.accepted (h : st.Learned) {m : Rumor P M} {relay : P}
    (hnext : (st.nodes p).rumorsHandler.IsNext m) (hrelay : m.sequence ≤ st.know relay m.origin)
    (hrt : n.routingTable = (st.nodes p).routingTable.updateRT m.origin relay)
    (hrH : n.rumorsHandler = (st.nodes p).rumorsHandler.put m) : st'.Learned := by
  have hsucc : m.sequence = st.know p m.origin + 1 := hnext
  have hknow : ∀ o, n.know o = if o = m.origin then m.sequence else st.know p o := by
    intro o
    unfold Node.know
    rw [hrH, RumorsHandler.put_sequence]
    rfl
  have hget : ∀ o, n.routingTable.getAddr o =
      if o = m.origin ∧ m.origin ∉ (st.nodes p).routingTable.neighbours then some relay
      else st.nextHop o p := by
    intro o
    rw [hrt, NodeRT.getAddr_updateRT]
    rfl
  -- the relay and the origin know more than `p`
  have hrelayp : relay ≠ p := by
    rintro rfl
    omega
  have hop : m.origin ≠ p := h.origin_ne hrelay hnext
  have hsome : ∀ o, (st.nextHop o p).isSome → (n.routingTable.getAddr o).isSome := by
    intro o ho
    rw [hget]
    split
    · rfl
    · exact ho
  apply h.of_update hnodes
  · intro o
    rw [hknow]
    split
    · next ho =>
        rw [ho]
        omega
    · exact le_rfl
  · intro o
    rw [hknow]
    split
    · next ho =>
        rw [ho, know_of_ne hnodes _ hop]
        exact hrelay.trans (h.bounded relay m.origin)
    · next ho =>
        by_cases hoq : o = p
        · rw [hoq, know_self hnodes, hknow, if_neg (Ne.symm hop)]
        · rw [know_of_ne hnodes o hoq]
          exact h.bounded p o
  · exact hsome p (h.own p)
  · intro k hk
    rw [hrt] at hk
    rw [hget]
    rcases NodeRT.mem_neighbours_updateRT _ hk with hk | ⟨hnot, rfl, hdirect⟩
    · rw [if_neg]
      · exact h.neighbours p k hk
      · rintro ⟨rfl, hnot⟩
        exact hnot hk
    · rw [if_pos ⟨rfl, hnot⟩, hdirect]
  · intro o hpos
    by_cases ho : o = m.origin
    · by_cases hnb : m.origin ∈ (st.nodes p).routingTable.neighbours
      · apply hsome
        rw [ho, h.neighbours p _ hnb]
        rfl
      · rw [hget, if_pos ⟨ho, hnb⟩]
        rfl
    · rw [hknow, if_neg ho] at hpos
      exact hsome o (h.known p o hpos)
  · intro o y hpo hhop hyo
    rw [hget] at hhop
    split at hhop
    · next hcond =>
        obtain rfl := Option.some.inj hhop
        rw [hknow, if_pos hcond.1, know_of_ne hnodes o hrelayp, hcond.1]
        exact ⟨by omega, hrelay⟩
    · next hcond =>
        have ho : o ≠ m.origin := by
          rintro rfl
          have hnb := not_not.mp fun hnot => hcond ⟨rfl, hnot⟩
          rw [h.neighbours p _ hnb] at hhop
          exact hyo (Option.some.inj hhop).symm
        obtain ⟨hpos, hle⟩ := h.hops p o y hpo hhop hyo
        rw [hknow, if_neg ho]
        refine ⟨hpos, hle.trans ?_⟩
        by_cases hy : y = p
        · rw [hy, know_self hnodes, hknow, if_neg ho]
        · rw [know_of_ne hnodes o hy]
  · intro o
    by_cases hcond : o = m.origin ∧ m.origin ∉ (st.nodes p).routingTable.neighbours
    · obtain ⟨rfl, hnb⟩ := hcond
      apply h.routed_relay hnodes hop (k := m.sequence) (by omega) hrelay
      rw [hget, if_pos ⟨rfl, hnb⟩]
    · have heq : st'.nextHop o = st.nextHop o := by
        funext q
        by_cases hq : q = p
        · rw [hq, nextHop_self hnodes, hget, if_neg hcond]
        · exact nextHop_of_ne hnodes o hq
      rw [heq]
      exact h.routed o

end

theorem Learned.step (h : st.Learned) (hsound : st.Sound) {a : Action P M}
    (hnext : st.next a = some st') : st'.Learned := by
  obtain ⟨p, n, sent, hnodes, htakes, _⟩ := hsound.next hnext
  cases htakes.updates with
  | keeps hrt hrH =>
      -- adding no peer
      exact h.addPeer hnodes [] hrt hrH
  | addPeer addr hrt hrH => exact h.addPeer hnodes addr hrt hrH
  | created msg hrt hrH => exact h.created hnodes hrt hrH
  | accepted m relay hm hrelay hrt hrH => exact h.accepted hnodes hm hrelay hrt hrH

theorem learned_initial : (initial : Network P M).Learned := by
  have hhop : ∀ o p : P, (initial : Network P M).nextHop o p =
      if o = p then some p else none := by
    intro o p
    exact NodeRT.getAddr_addEntry _ _ _ _
  constructor
  · exact fun p o => le_rfl
  · intro p
    rw [hhop, if_pos rfl]
    rfl
  · exact fun p k hk => absurd hk List.not_mem_nil
  · exact fun p o hpos => absurd hpos (Nat.lt_irrefl 0)
  · intro p o y hpo hy _
    rw [hhop, if_neg (Ne.symm hpo)] at hy
    cases hy
  · intro o p hp
    rw [hhop] at hp
    split at hp
    · next ho =>
        rw [ho]
        exact ⟨_, .arrived⟩
    · cases hp

theorem learned_of_reachable (h : gossip.Reachable st) : st.Learned := by
  apply h.invariant
  · exact learned_initial
  · intro st st' a hst hlearned _ hnext
    exact hlearned.step (sound_of_reachable hst) hnext

end Minotor.Gossip.Network

namespace Minotor.Gossip

variable {P M : Type*} [DecidableEq P]

/-- In every run, following the routing tables from a node with an entry for
an origin leads to the origin, through nodes which all have an entry for it
and without visiting one of them twice. -/
theorem routes_loop_free {st : Network P M} (h : gossip.Reachable st) {x o : P}
    (hentry : (st.nextHop o x).isSome) :
    ∃ path, Route (st.nextHop o) o x path ∧ path.Nodup ∧
      ∀ y ∈ path, (st.nextHop o y).isSome := by
  have hlearned := Network.learned_of_reachable h
  obtain ⟨path, hpath⟩ := hlearned.routed o x hentry
  refine ⟨path, hpath, hpath.nodup, ?_⟩
  induction hpath with
  | arrived =>
      intro y hy
      rw [List.mem_singleton.mp hy]
      exact hlearned.own o
  | @hop x z path hne hnext hroute ih =>
      intro y hy
      rcases List.mem_cons.mp hy with rfl | hy
      · exact hentry
      · have hz : (st.nextHop o z).isSome := by
          cases hroute with
          | arrived => exact hlearned.own o
          | hop _ hz => exact Option.isSome_of_eq_some hz
        exact ih hz y hy

/-- Node 1 passes a rumor of node 0 on to node 2, which has no other peer. -/
theorem routes_loop_free_of_line :
    ∃ st : Network (Fin 3) Unit, gossip.Reachable st ∧ st.nextHop 0 2 = some 1 ∧
      ∃ path, Route (st.nextHop 0) 0 2 path ∧ path.Nodup ∧
        ∀ y ∈ path, (st.nextHop 0 y).isSome := by
  obtain ⟨st, hst, hhop⟩ := TransitionSystem.exists_of_replay
    (S := gossip (P := Fin 3) (M := Unit)) (fun _ _ => True)
    [.addPeer 0 [1], .addPeer 1 [0, 2], .addPeer 2 [1], .broadcast 0 () [1],
      .deliver 0 ⟨[], false, [0, 2]⟩, .handlerReturns 1 false, .finish 1 [0, 2],
      .deliver 1 ⟨[], false, [1]⟩]
    (fun st => st.nextHop 0 2 = some 1) (by decide +kernel)
  exact ⟨st, hst, hhop, routes_loop_free hst (Option.isSome_of_eq_some hhop)⟩

end Minotor.Gossip
