import Minotor.Network.Agreement
import Minotor.Stack.Refinement

/-!
# Replication over the rumor layer

What holds of the network of peers holds with the rumor layer below it.  Peers count nothing
but what has been broadcast, and nothing twice, however the packets travel.  Under the guard of
agreement the stores of all peers are those of one log of created values.
-/

namespace Minotor

variable {P : Type*} [DecidableEq P]

/-! ## What is counted -/

namespace Stack

variable {sha256 : Bytes → Bytes} {conf : P → Configuration} {st : Stack P}

/-- A rumor of a peer is stored by its node. -/
theorem Coupled.mem_own (h : st.Coupled) {r : Rumor P} (hr : st.system.Authentic r) :
    ⟨r.origin, r.sequence, r.msg⟩ ∈ st.net.own r.origin := by
  obtain ⟨hpos, hmsg⟩ := hr
  rw [(h.peers r.origin).rumors, List.getElem?_map, Option.map_eq_some_iff] at hmsg
  obtain ⟨m, hm, hmsg⟩ := hmsg
  obtain ⟨horigin, hsequence⟩ := (h.faithful.sound.nodes r.origin).inOrder.getElem? hm
  have heq : (⟨r.origin, r.sequence, r.msg⟩ : Gossip.Rumor P (Message P)) = m := by
    rw [← horigin, ← hmsg, ← Nat.sub_add_cancel hpos, ← hsequence]
  rw [heq]
  exact List.mem_of_getElem? hm

end Stack

namespace System

variable {sha256 : Bytes → Bytes} {conf : P → Configuration} {C : System P → Action P → Prop}
  {st : System P}

/-- A decided value was created: a quorum has accepted it. -/
theorem created_of_decided (hC : ∀ st a, C st a → st.SingleBallot a)
    (h : (network sha256 conf).ReachableUnder C st) {p : P} {step : ℕ} {v : PaxosValue}
    (hdecided : .decided step v ∈ (st.peers p).node.history) : st.Created v := by
  obtain ⟨id, Q, hcard, hQ⟩ :=
    (countsAccepts_of_reachable hC h p).quorum (noForgery_of_reachable h) hdecided
  obtain ⟨q, hq⟩ : Q.Nonempty := by
    rw [← Finset.card_pos]
    exact (conf p).one_le_threshold.trans hcard
  exact ((carriesCreated_of_reachable h).nodes q).rumors _ (hQ q hq)

/-- All peers have stored the first blocks of one chain of created values. -/
theorem exists_log [Fintype P] (hconf : ByMajority conf)
    (hC : ∀ st a, C st a → st.CleanBallots a)
    (h : (network sha256 conf).ReachableUnder C st) :
    ∃ v : ℕ → PaxosValue, ∀ p,
      (st.peers p).node.storage = chainStorage sha256 v (st.peers p).node.handler.step ∧
        ∀ i < (st.peers p).node.handler.step, st.Created (v i) := by
  obtain ⟨v, hv⟩ := exists_decides hconf hC h
  have hchain := onChain_of_reachable hconf.two_le_totalPeers h hv
  refine ⟨v, fun p => ⟨(hchain.nodes p).follows.storage, fun i hi => ?_⟩⟩
  obtain ⟨q, w, hw⟩ := (hchain.nodes p).decided i hi
  rw [hv q i w hw]
  exact created_of_decided (fun st a hCa => (hC st a hCa).singleBallot) h hw

end System

end Minotor
