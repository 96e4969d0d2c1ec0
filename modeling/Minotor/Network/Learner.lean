import Minotor.Network.Delivery
import Minotor.Network.Guards

/-!
# Learner quorums

The accept counter is keyed by the value alone.  As long as no accept is counted
together with one of another ID or with an earlier one of the same peer, the
counter is the number of distinct peers that accepted the value under one ID,
and a decision has a quorum behind it.
-/

namespace Minotor

variable {P : Type*}

/-- The counters of a node count the accepts in its history: those of its step,
under one ID and of distinct peers, and a threshold of them for every
decision. -/
structure Node.CountsAccepts (conf : Configuration) (n : Node P) : Prop where
  count : ∀ v, n.handler.acceptedValues v = (n.acceptsFor n.handler.step v).length
  later : ∀ step v, n.handler.step < step → n.acceptsFor step v = []
  single : ∀ step v, (n.acceptsFor step v).Pairwise
    fun x y => y.2.id = x.2.id ∧ y.1.origin ≠ x.1.origin
  decided : ∀ e ∈ n.history, ∀ step v, e = .decided step v →
    conf.threshold ≤ (n.acceptsFor step v).length

namespace Node

theorem acceptsFor_record (n : Node P) (es : List (Event P)) (step : ℕ) (v : PaxosValue) :
    (n.record es).acceptsFor step v =
      es.filterMap (Event.acceptFor? step v) ++ n.acceptsFor step v := by
  simp [acceptsFor]

variable [DecidableEq P] {sha256 : Bytes → Bytes} {conf : Configuration} {self : P}
  {n n' : Node P}

omit [DecidableEq P] in
/-- The accepts for a step and a value after `msg` has been counted. -/
theorem acceptsFor_countedAccept (r : Rumor P) (msg : PaxosAcceptMessage) (step : ℕ)
    (v : PaxosValue) :
    [Event.countedAccept r msg].filterMap (Event.acceptFor? step v) =
      if msg.step = step ∧ msg.value = v then [(r, msg)] else [] := by
  by_cases h : msg.step = step ∧ msg.value = v
  · simp [Event.acceptFor?, h]
  · simp [Event.acceptFor?, h]

/-- Counting one more accept under the guard. -/
theorem CountsAccepts.single_cons (h : n.CountsAccepts conf) {r : Rumor P}
    {msg : PaxosAcceptMessage} (hmsg : r.msg = .accept msg)
    (hstep : n.handler.step = msg.step) (hguard : n.SingleBallot (.exec r))
    (step : ℕ) (v : PaxosValue) :
    ([Event.countedAccept r msg].filterMap (Event.acceptFor? step v) ++
      n.acceptsFor step v).Pairwise fun x y => y.2.id = x.2.id ∧ y.1.origin ≠ x.1.origin := by
  rw [acceptsFor_countedAccept]
  split
  · next hfor =>
      obtain ⟨origin, sequence, m⟩ := r
      cases hmsg
      obtain ⟨rfl, rfl⟩ := hfor
      exact List.pairwise_cons.mpr ⟨hguard hstep, h.single _ _⟩
  · exact h.single step v

/-- A job step keeps the counts if an accept is only counted with accepts of the
same ID from other peers. -/
theorem JobStep.countsAccepts {j : Job P} {next : Next P}
    (h : n.CountsAccepts conf) (hconf : n.handler.Configured conf)
    (hguard : n.SingleBallot j) (hjob : JobStep sha256 conf self n j n' next) :
    n'.CountsAccepts conf := by
  cases hjob with
  | chosen r msg h' _ _ _ _ _ _ hh =>
      subst hh
      refine ⟨h.count, h.later, h.single, ?_⟩
      refine List.forall_mem_cons.mpr ⟨?_, List.forall_mem_cons.mpr ⟨?_, h.decided⟩⟩
      · rintro step v ⟨⟩
      · rintro step v ⟨⟩
  | blocks r msg h' _ _ _ _ _ _ hh =>
      subst hh
      refine ⟨h.count, h.later, h.single, ?_⟩
      refine List.forall_mem_cons.mpr ⟨?_, List.forall_mem_cons.mpr ⟨?_, h.decided⟩⟩
      · rintro step v ⟨⟩
      · rintro step v ⟨⟩
  | countedAccept r msg hmsg hlock hstep hbelow =>
      refine ⟨?_, ?_, ?_, ?_⟩
      · intro v
        rw [acceptsFor_record, acceptsFor_countedAccept]
        change Function.update n.handler.acceptedValues msg.value _ v =
          (_ ++ n.acceptsFor n.handler.step v).length
        by_cases hv : v = msg.value
        · subst hv
          rw [Function.update_self, h.count, if_pos ⟨hstep.symm, rfl⟩]
          simp
        · rw [Function.update_of_ne hv, h.count, if_neg fun hfor => hv hfor.2.symm]
          simp
      · intro step v hlt
        change n.handler.step < step at hlt
        rw [acceptsFor_record, acceptsFor_countedAccept, if_neg fun hfor => by omega]
        exact h.later step v hlt
      · intro step v
        rw [acceptsFor_record]
        exact h.single_cons hmsg hstep hguard step v
      · refine List.forall_mem_cons.mpr ⟨by rintro step v ⟨⟩, fun e he step v hdecided => ?_⟩
        rw [acceptsFor_record, List.length_append]
        exact (h.decided e he step v hdecided).trans (Nat.le_add_left _ _)
  | decided r msg block bs px hmsg hlock hstep hfull hblock hleave =>
      have hsplit : ∀ step v,
          ((n.withPaxos px).record [.decided msg.step msg.value, .countedAccept r msg]).acceptsFor
            step v =
          [Event.countedAccept r msg].filterMap (Event.acceptFor? step v) ++
            n.acceptsFor step v := by
        intro step v
        rw [acceptsFor_record]
        rfl
      have hnew : px.handler.step = n.handler.step + 1 + bs.length := by
        rw [hleave.handler, PaxosHandler.advance_step]
      have hlater : ∀ step v, n.handler.step < step →
          [Event.countedAccept r msg].filterMap (Event.acceptFor? step v) ++
            n.acceptsFor step v = [] := by
        intro step v hlt
        rw [acceptsFor_countedAccept, if_neg fun hfor => by omega, h.later step v hlt]
        rfl
      refine ⟨?_, ?_, ?_, ?_⟩
      · intro v
        rw [hsplit, Node.handler, record_paxos, withPaxos_paxos, hlater _ v (by omega),
          hleave.handler]
        rfl
      · intro step v hlt
        change px.handler.step < step at hlt
        rw [hsplit, hlater step v (by omega)]
      · intro step v
        rw [hsplit]
        exact h.single_cons hmsg hstep hguard step v
      · refine List.forall_mem_cons.mpr ⟨?_, List.forall_mem_cons.mpr ⟨?_, ?_⟩⟩
        · rintro step v ⟨⟩
          rw [hsplit, acceptsFor_countedAccept, if_pos ⟨rfl, rfl⟩, ← hstep,
            List.length_append, ← h.count, List.length_singleton, Nat.add_comm,
            ← hconf.threshold]
          exact hfull
        · rintro step v ⟨⟩
        · intro e he step v hdecided
          rw [hsplit, List.length_append]
          exact (h.decided e he step v hdecided).trans (Nat.le_add_left _ _)
  | finished r msg bs px hmsg hlock hstep hfull hleave =>
      have hnew : px.handler.step = n.handler.step + 1 + bs.length := by
        rw [hleave.handler, PaxosHandler.advance_step]
      refine ⟨?_, ?_, h.single, h.decided⟩
      · intro v
        change px.handler.acceptedValues v = (n.acceptsFor px.handler.step v).length
        rw [h.later _ v (by omega), hleave.handler]
        rfl
      · intro step v hlt
        change px.handler.step < step at hlt
        exact h.later step v (by omega)
  | _ =>
      refine ⟨h.count, h.later, h.single, ?_⟩
      first
        | exact h.decided
        | exact List.forall_mem_cons.mpr ⟨by rintro step v ⟨⟩, h.decided⟩

end Node

/-- An own step of a call counts nothing. -/
theorem TagCall.OwnStep.countsAccepts {conf : Configuration} {self : P} {i : ℕ}
    {n n' : Node P} {call : TagCall P} {c : Choice} {pc : TagPc P}
    (h : n.CountsAccepts conf) (hown : call.OwnStep conf self i n c n' pc) :
    n'.CountsAccepts conf := by
  cases hown with
  | prepare =>
      exact ⟨h.count, h.later, h.single, List.forall_mem_cons.mpr ⟨nofun, h.decided⟩⟩
  | propose =>
      exact ⟨h.count, h.later, h.single, List.forall_mem_cons.mpr ⟨nofun, h.decided⟩⟩
  | recvPromise _ _ _ _ _ _ hrecv =>
      obtain ⟨c, hc, -, rfl⟩ := PaxosHandler.recvPromise_eq hrecv
      exact ⟨h.count, h.later, h.single, h.decided⟩
  | recvValue _ _ _ _ _ hrecv =>
      obtain ⟨cs, hcs, rfl⟩ := PaxosHandler.recvValue_eq hrecv
      exact ⟨h.count, h.later, h.single, h.decided⟩
  | _ => exact ⟨h.count, h.later, h.single, h.decided⟩

section

variable [DecidableEq P] {sha256 : Bytes → Bytes} {conf : P → Configuration}
  {st st' : System P}

/-- Accepts counted under one ID and of distinct peers form a quorum. -/
theorem Node.CountsAccepts.quorum {p : P} (hforge : st.NoForgery)
    (h : (st.peers p).node.CountsAccepts (conf p)) {step : ℕ} {v : PaxosValue}
    (hdecided : .decided step v ∈ (st.peers p).node.history) :
    ∃ id, ∃ Q : Finset P, (conf p).threshold ≤ Q.card ∧
      ∀ q ∈ Q, .accept ⟨step, id, v⟩ ∈ (st.peers q).node.rumors := by
  have hlength := h.decided _ hdecided step v rfl
  have hsingle := h.single step v
  have hmem : ∀ x ∈ (st.peers p).node.acceptsFor step v,
      .accept x.2 ∈ (st.peers x.1.origin).node.rumors ∧ x.2.step = step ∧ x.2.value = v := by
    intro x hx
    obtain ⟨e, he, hfor⟩ := List.mem_filterMap.mp hx
    cases e with
    | countedAccept r msg =>
        rw [Event.acceptFor?, Option.ite_none_right_eq_some, Option.some.injEq] at hfor
        obtain ⟨hfor, rfl⟩ := hfor
        obtain ⟨hr, hmsg⟩ := hforge.events p _ he
        exact ⟨hmsg ▸ hr.mem, hfor⟩
    | _ => cases hfor
  cases haccepts : (st.peers p).node.acceptsFor step v with
  | nil =>
      have := (conf p).one_le_threshold
      rw [haccepts, List.length_nil] at hlength
      omega
  | cons x rest =>
      rw [haccepts] at hlength hsingle hmem
      have hnodup : ((x :: rest).map fun y => y.1.origin).Nodup := by
        rw [List.nodup_iff_pairwise_ne, List.pairwise_map]
        exact hsingle.imp fun hxy => Ne.symm hxy.2
      refine ⟨x.2.id, ((x :: rest).map fun y => y.1.origin).toFinset, ?_, ?_⟩
      · rw [List.toFinset_card_of_nodup hnodup, List.length_map]
        exact hlength
      · intro q hq
        rw [List.mem_toFinset, List.mem_map] at hq
        obtain ⟨y, hy, rfl⟩ := hq
        have hid : y.2.id = x.2.id := by
          rcases List.mem_cons.mp hy with rfl | hrest
          · rfl
          · exact ((List.pairwise_cons.mp hsingle).1 y hrest).1
        obtain ⟨hrumor, hstep, hv⟩ := hmem y hy
        rwa [← hid, ← hstep, ← hv]

theorem countsAccepts_of_reachable {C : System P → Action P → Prop}
    (hC : ∀ st a, C st a → st.SingleBallot a)
    (h : (network sha256 conf).ReachableUnder C st) (p : P) :
    (st.peers p).node.CountsAccepts (conf p) := by
  revert p
  refine network_invariant (I := fun st => ∀ p, (st.peers p).node.CountsAccepts (conf p))
    (fun p => ⟨fun _ => rfl, fun _ _ _ => rfl, fun _ _ => .nil, nofun⟩) ?_ h
  intro st st' a hst hI hCa hstep
  have hguard := hC st a hCa
  have hconf := configured_of_reachable hst
  refine hstep.forall_node (I := fun p n => n.CountsAccepts (conf p)) hI ?_ ?_ ?_
  · intro p n n' hpaxos _ hhistory hn
    obtain ⟨hcount, hlater, hsingle, hdec⟩ := hn
    refine ⟨?_, ?_, ?_, ?_⟩ <;>
      simpa only [Node.handler, Node.acceptsFor, hpaxos, hhistory]
  · intro p t j n next ha hj _ hjob
    exact hjob.countsAccepts (hI p) (hconf p) (hguard.of_job ha hj)
  · intro p i c call n pc _ _ _ _ hown
    exact hown.countsAccepts (hI p)

/-- In every run in which no accept is counted together with one of another ID
or with an earlier one of the same peer, every decision has a quorum of peers
which accepted the value under one ID. -/
theorem learner_quorum (sha256 : Bytes → Bytes) (conf : P → Configuration)
    (st : System P) (h : (network sha256 conf).ReachableUnder System.SingleBallot st)
    (p : P) (step : ℕ) (v : PaxosValue)
    (hdecided : .decided step v ∈ (st.peers p).node.history) :
    ∃ id, ∃ Q : Finset P, (conf p).threshold ≤ Q.card ∧
      ∀ q ∈ Q, .accept ⟨step, id, v⟩ ∈ (st.peers q).node.rumors :=
  (countsAccepts_of_reachable (fun _ _ hCa => hCa) h p).quorum
    (System.noForgery_of_reachable h) hdecided

end

theorem learner_quorum_of_tagRun :
    ∃ st, (network sha256 (majorityNetwork 2)).ReachableUnder System.SingleBallot st ∧
      ∃ id, ∃ Q : Finset (Fin 2), (majorityNetwork 2 0).threshold ≤ Q.card ∧
        ∀ q ∈ Q, .accept ⟨0, id, ⟨"id", "file", "meta"⟩⟩ ∈ (st.peers q).node.rumors := by
  obtain ⟨st, hst, hdecided⟩ := TransitionSystem.exists_of_replay
    (S := network sha256 (majorityNetwork 2)) System.SingleBallot Action.tagRun
    (fun st => .decided 0 ⟨"id", "file", "meta"⟩ ∈ (st.peers 0).node.history)
    (by decide +kernel)
  exact ⟨st, hst, learner_quorum _ _ st hst 0 0 _ hdecided⟩

/-- Peer 1 has promised ID 2 to itself and rejects the first proposal.  Peer 0
proposes its accepted value again under ID 3, counts its own accepts of the IDs
1 and 3 and decides, while peer 1 has accepted nothing. -/
theorem learner_without_quorum :
    ∃ st, (network sha256 (majorityNetwork 2)).ReachableUnder System.InOrder st ∧
      ∃ v, .decided 0 v ∈ (st.peers 0).node.history ∧
        ¬ ∃ id, ∃ Q : Finset (Fin 2), (majorityNetwork 2 0).threshold ≤ Q.card ∧
          ∀ q ∈ Q, .accept ⟨0, id, v⟩ ∈ (st.peers q).node.rumors := by
  obtain ⟨st, hst, hdecided, hnone⟩ := TransitionSystem.exists_of_replay
    (S := network sha256 (majorityNetwork 2)) System.InOrder
    (.tag 0 "file" "meta" :: .tag 1 "file" "other" :: Action.steps 1 0 4 ++
      Action.opens 0 0 "id" ++ Action.handles 1 0 1 4 ++
      .call 1 0 (.fresh "id'") :: Action.steps 1 0 6 ++ Action.handles 1 0 2 1 ++
      Action.handles 0 1 1 1 ++ .call 0 0 .recv :: Action.steps 0 0 6 ++
      Action.handles 1 0 3 1 ++ Action.handles 1 0 4 1 ++
      .call 0 0 .tick :: Action.steps 0 0 3 ++ .call 0 0 (.fresh "id''") ::
      Action.steps 0 0 6 ++ Action.handles 1 0 5 4 ++ Action.handles 1 0 6 1 ++
      Action.handles 0 1 2 1 ++ Action.handles 0 1 3 1 ++ Action.handles 0 1 4 1 ++
      .call 0 0 .recv :: Action.steps 0 0 6)
    (fun st => .decided 0 ⟨"id", "file", "meta"⟩ ∈ (st.peers 0).node.history ∧
      ∀ msg ∈ (st.peers 1).node.rumors, ¬ msg.IsAccept) (by decide +kernel)
  refine ⟨st, hst, _, hdecided, ?_⟩
  rintro ⟨id, Q, hcard, hQ⟩
  have hsub : Q ⊆ {0} := by
    intro q hq
    rw [Finset.mem_singleton]
    by_contra hne
    obtain rfl : q = 1 := by omega
    exact hnone _ (hQ 1 hq) trivial
  have := hcard.trans (Finset.card_le_card hsub)
  exact absurd this (by decide)

end Minotor
