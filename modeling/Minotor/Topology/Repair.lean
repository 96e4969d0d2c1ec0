import Minotor.Gossip.AntiEntropy
import Minotor.Support.Runs
import Minotor.Topology.Generate

/-!
# Networks with a generated topology

Polypus and the tests connect their nodes by `Generate` and then let them gossip.  Nodes only
learn new neighbours, so the network stays connected whatever happens, and the tickers of the
nodes can always repair what has been lost.
-/

namespace Minotor.Topology

open Gossip

variable {P M : Type*} [DecidableEq P]

/-- The calls of `AddPeer` after one more action. -/
def recordAddPeer (_ : Processing P M) (a : ProcessingAction P M) (calls : List (P × List P)) :
    List (P × List P) :=
  match a with
  | .step (.addPeer p addr) => calls ++ [(p, addr)]
  | _ => calls

/-- Gossiping nodes with the calls of `AddPeer` so far. -/
def peering : TransitionSystem (Processing P M × List (P × List P)) (ProcessingAction P M) :=
  processing.withHistory [] recordAddPeer

variable {st st' : Processing P M} {calls : List (P × List P)}

/-- The neighbours of a call are in the routing table. -/
def Added (st : Processing P M) (calls : List (P × List P)) : Prop :=
  ∀ c ∈ calls, c.2 ⊆ (st.net.nodes c.1).routingTable.neighbours

theorem Added.step (h : Added st calls) (hst : st.net.Faithful) {a : ProcessingAction P M}
    (hnext : st.next a = some st') : Added st' (recordAddPeer st a calls) := by
  have hkept : Added st' calls := fun c hc =>
    List.Subset.trans (h c hc) (Processing.neighbours_next hst hnext c.1)
  unfold recordAddPeer
  split
  · next p addr =>
      intro c hc
      rcases List.mem_append.mp hc with hc | hc
      · exact hkept c hc
      · obtain rfl := List.mem_singleton.mp hc
        simp only [Processing.next, Option.ite_none_right_eq_some] at hnext
        obtain ⟨-, hnext⟩ := hnext
        obtain rfl := Option.some.inj hnext
        change addr ⊆ (Function.update st.net.nodes p _ p).routingTable.neighbours
        rw [Function.update_self, NodeRT.neighbours_addEntries]
        exact List.subset_append_right _ _
  · exact hkept

theorem added_of_reachable {C : Processing P M → ProcessingAction P M → Prop}
    (h : (peering (P := P) (M := M)).ReachableUnder (fun s a => C s.1 a) (st, calls)) :
    Added st calls := by
  apply h.invariant (I := fun s => Added s.1 s.2)
  · exact fun c hc => absurd hc List.not_mem_nil
  · intro s s' a hs hadded _ hnext
    obtain ⟨hstep, hrecord⟩ := TransitionSystem.withHistory_next.mp hnext
    rw [hrecord]
    exact hadded.step (Processing.faithful_of_reachable hs.forget) hstep

/-- The neighbours which `Generate` has chosen connect the nodes. -/
theorem le_topology {s : Locals P} (h : Added st calls)
    (hcalls : ∀ e ∈ s.peersNeighboors.entries, (e.1, e.2) ∈ calls) :
    s.graph ≤ st.net.topology := by
  have hmem : ∀ {p q}, q ∈ s.neighboors p → q ∈ (st.net.nodes p).routingTable.neighbours := by
    intro p q hq
    unfold Locals.neighboors at hq
    cases hlookup : s.peersNeighboors.lookup p with
    | none =>
        rw [hlookup] at hq
        exact absurd hq List.not_mem_nil
    | some l =>
        rw [hlookup] at hq
        exact h (p, l) (hcalls ⟨p, l⟩ (AList.mem_lookup_iff.mp hlookup)) hq
  intro p q
  simp only [Locals.graph, Network.topology, SimpleGraph.fromRel_adj]
  rintro ⟨hne, hq | hp⟩
  · exact ⟨hne, .inl (hmem hq)⟩
  · exact ⟨hne, .inr (hmem hp)⟩

/-- Once all peers have been added which `Generate` has chosen, a network can repair itself
whatever happens next, as long as its nodes run: every node can get every rumor and run the
handlers of the rumors of the others, in their order and once. -/
theorem generated_network_repairs [Finite P] {F : Type*} [LinearOrder F] {g : Graph F} {half : F}
    {float64 : ℕ → F} {fuel : ℕ} {peers : List P} {s : Locals P} (hnodup : peers.Nodup)
    (hall : ∀ p, p ∈ peers) (hs : generate g half float64 fuel peers = some s)
    (h : (peering (P := P) (M := M)).ReachableUnder (fun _ a => ∀ p, a.Apart p) (st, calls))
    (hcalls : ∀ e ∈ s.peersNeighboors.entries, (e.1, e.2) ∈ calls)
    (hrun : ∀ p, (st.net.nodes p).run = true) :
    ∃ st', processing.LeadsTo (fun _ a => a.Repairs) st st' ∧ st'.Repaired st.net.own ∧
      ∀ p o, o ≠ p → st'.processed p o = st.net.own o := by
  have hst : (processing (P := P) (M := M)).ReachableUnder (fun _ a => ∀ p, a.Apart p) st :=
    TransitionSystem.ReachableUnder.forget (C := fun _ a => ∀ p, ProcessingAction.Apart p a) h
  have hadded := added_of_reachable (C := fun _ a => ∀ p, ProcessingAction.Apart p a) h
  have hle := le_topology hadded hcalls
  have hjoined := joined_of_generate hnodup hs
  have hconnected : st.net.topology.Preconnected := fun p q =>
    (hjoined.reachable p (hall p) q (hall q)).mono hle
  obtain ⟨st', hrepairs, hrepaired⟩ :=
    Processing.exists_repaired (Processing.faithful_of_reachable hst) hrun hconnected
  refine ⟨st', hrepairs, hrepaired, fun p o ho => ?_⟩
  exact hrepaired.processed hrepairs (hst.mono fun _ _ ha => ha p) ho

/-- Node 1 gets node 0 as its neighbour, and the packet with its rumor is lost. -/
theorem generated_network_repairs_of_two :
    ∃ (st st' : Processing (Fin 2) Unit) (s : Locals (Fin 2)),
      generate (F := ℕ) ⟨1⟩ 5 (fun _ => 0) 1 [0, 1] = some s ∧ s.neighboors 1 = [0] ∧
      processing.Reachable st ∧ st.net.packets = [] ∧
      processing.LeadsTo (fun _ a => a.Repairs) st st' ∧ st'.processed 0 1 = [⟨1, 1, ()⟩] := by
  obtain ⟨s, hs, hneighboors, hentries⟩ : ∃ s,
      generate (P := Fin 2) (F := ℕ) ⟨1⟩ 5 (fun _ => 0) 1 [0, 1] = some s ∧
        s.neighboors 1 = [0] ∧ s.peersNeighboors.entries = [⟨1, [0]⟩] := ⟨_, rfl, rfl, rfl⟩
  obtain ⟨⟨st, calls⟩, hst, hcalls, hnil, hrun, hown⟩ := TransitionSystem.exists_of_replay
    (S := peering (P := Fin 2) (M := Unit)) (fun _ a => a.addsOthers = true)
    [.step (.addPeer 1 [0]), .step (.broadcast 1 () [0]), .step (.drop 0)]
    (fun s => s.2 = [(1, [0])] ∧ s.1.net.packets.isEmpty = true ∧
      (∀ p, (s.1.net.nodes p).run = true) ∧ s.1.net.own 1 = [⟨1, 1, ()⟩]) (by decide +kernel)
  have hapart := hst.mono fun _ a ha p => a.apart_of_addsOthers ha p
  have hcalled : ∀ e ∈ s.peersNeighboors.entries, (e.1, e.2) ∈ calls := by
    rw [hentries, show calls = [(1, [0])] from hcalls]
    intro e he
    obtain rfl := List.mem_singleton.mp he
    exact List.mem_cons_self
  obtain ⟨st', hlead, -, hprocessed⟩ := generated_network_repairs (by decide) (by decide) hs
    hapart hcalled hrun
  have hreach : processing.Reachable st :=
    TransitionSystem.ReachableUnder.of_history (hapart.mono fun _ _ _ => trivial)
  refine ⟨st, st', s, hs, hneighboors, hreach, List.isEmpty_iff.mp hnil, hlead, ?_⟩
  rw [hprocessed 0 1 (by decide), hown]

end Minotor.Topology
