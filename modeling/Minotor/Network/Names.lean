import Minotor.Network.Agreement

/-!
# Uniqueness of names

A value that is decided in a step was created in this step.  If its peer had the
name unbound at that moment, the name is not that of an earlier block, so no
block of the chain binds a name again.
-/

namespace Minotor

variable {P : Type*}

/-! ## Names of a chain -/

/-- The names of the values below `k` are distinct. -/
def DistinctNames (v : ℕ → PaxosValue) (k : ℕ) : Prop :=
  ∀ i j, i < j → j < k → (v i).filename ≠ (v j).filename

section

variable {sha256 : Bytes → Bytes} {v : ℕ → PaxosValue}

theorem naming_chainStorage_succ (k : ℕ) (name : String) :
    (chainStorage sha256 v (k + 1)).naming.get name =
      if name = (v k).filename then some (v k).metahash
      else (chainStorage sha256 v k).naming.get name := by
  rw [chainStorage_succ, storeBlock, Store.get_set, chainBlock_value]

/-- Only the values of a chain bind names in its stores. -/
theorem naming_chainStorage {k : ℕ} {name mh : String}
    (h : (chainStorage sha256 v k).naming.get name = some mh) :
    ∃ i < k, (v i).filename = name ∧ (v i).metahash = mh := by
  induction k with
  | zero => cases h
  | succ k ih =>
      rw [naming_chainStorage_succ] at h
      split at h
      · next hname =>
          cases h
          exact ⟨k, Nat.lt_succ_self k, hname.symm, rfl⟩
      · obtain ⟨i, hi, hvalue⟩ := ih h
        exact ⟨i, Nat.lt_succ_of_lt hi, hvalue⟩

theorem filename_ne_of_free {k : ℕ} {name : String}
    (h : (chainStorage sha256 v k).naming.get name = none) :
    ∀ i < k, (v i).filename ≠ name := by
  induction k with
  | zero => exact fun i hi => absurd hi (Nat.not_lt_zero i)
  | succ k ih =>
      rw [naming_chainStorage_succ] at h
      split at h
      · cases h
      · next hname =>
          intro i hi
          rcases Nat.lt_succ_iff_lt_or_eq.mp hi with hlt | rfl
          · exact ih h i hlt
          · exact Ne.symm hname

/-- With distinct names, every value of the chain is bound as it is. -/
theorem naming_of_distinct {k : ℕ} (hdistinct : DistinctNames v k) {i : ℕ} (hi : i < k) :
    (chainStorage sha256 v k).naming.get (v i).filename = some (v i).metahash := by
  induction k with
  | zero => exact absurd hi (Nat.not_lt_zero i)
  | succ k ih =>
      rw [naming_chainStorage_succ]
      rcases Nat.lt_succ_iff_lt_or_eq.mp hi with hlt | rfl
      · rw [if_neg (hdistinct i k hlt (Nat.lt_succ_self k))]
        apply ih _ hlt
        exact fun i j hij hj => hdistinct i j hij (Nat.lt_succ_of_lt hj)
      · rw [if_pos rfl]

end

/-! ## Values are created in their step -/

/-- What a peer chooses or would choose satisfies `R` in its step. -/
structure Node.ChoosesIn (R : ℕ → PaxosValue → Prop) (n : Node P) : Prop where
  best : n.handler.bestID ≠ 0 → R n.handler.step n.handler.bestValue
  proposed : ∀ id, n.preparesFor n.handler.step id ≠ [] →
    R n.handler.step n.handler.proposedValue
  quorum : ∀ step id v, .quorum step id v ∈ n.history → R step v

namespace Node

section

variable {R R' : ℕ → PaxosValue → Prop} {n n' : Node P}

theorem ChoosesIn.mono (h : n.ChoosesIn R) (hR : ∀ step v, R step v → R' step v) :
    n.ChoosesIn R' where
  best hne := hR _ _ (h.best hne)
  proposed id hne := hR _ _ (h.proposed id hne)
  quorum step id v hmem := hR _ _ (h.quorum step id v hmem)

theorem ChoosesIn.frame (h : n.ChoosesIn R)
    (hstep : n'.handler.step = n.handler.step)
    (hbestID : n'.handler.bestID = n.handler.bestID)
    (hbestValue : n'.handler.bestValue = n.handler.bestValue)
    (hproposed : n'.handler.proposedValue = n.handler.proposedValue)
    (hprepares : ∀ id, n'.preparesFor n.handler.step id = n.preparesFor n.handler.step id)
    (hquorum : ∀ step id v, .quorum step id v ∈ n'.history → .quorum step id v ∈ n.history) :
    n'.ChoosesIn R := by
  constructor
  · rw [hstep, hbestID, hbestValue]
    exact h.best
  · intro id
    rw [hstep, hproposed, hprepares]
    exact h.proposed id
  · intro step id v hmem
    exact h.quorum step id v (hquorum step id v hmem)

/-- In a later step nothing is chosen yet. -/
theorem ChoosesIn.leave (h : n.ChoosesIn R) (haccounts : n.Accounts)
    (hlt : n.handler.step < n'.handler.step) (hbestID : n'.handler.bestID = 0)
    (hprepares : ∀ step id, n'.preparesFor step id = n.preparesFor step id)
    (hquorum : ∀ step id v, .quorum step id v ∈ n'.history → .quorum step id v ∈ n.history) :
    n'.ChoosesIn R := by
  constructor
  · intro hne
    exact absurd hbestID hne
  · intro id hne
    rw [hprepares] at hne
    have hle := (haccounts.of_preparesFor hne).1
    omega
  · intro step id v hmem
    exact h.quorum step id v (hquorum step id v hmem)

/-- A counted promise may replace the best value by one which it reports. -/
theorem ChoosesIn.count (h : n.ChoosesIn R) {msg : PaxosPromiseMessage}
    (hvalue : 0 < msg.acceptedID → ∃ v, msg.acceptedValue = some v ∧ R n.handler.step v) :
    (n.withHandler (n.handler.counted msg (msg.acceptedValue.getD .empty))).ChoosesIn R := by
  constructor
  · intro hne
    change (if _ then _ else _) ≠ 0 at hne
    change R n.handler.step (if _ then _ else _)
    split
    · next hbetter =>
        obtain ⟨v, hv, hR⟩ := hvalue (by omega)
        rw [hv]
        exact hR
    · next hbetter =>
        rw [if_neg hbetter] at hne
        exact h.best hne
  · exact h.proposed
  · exact h.quorum

/-- The choice of a round which was prepared. -/
theorem ChoosesIn.choice (h : n.ChoosesIn R) {id : ℕ}
    (hprepared : n.preparesFor n.handler.step id ≠ []) : R n.handler.step n.handler.choice := by
  unfold PaxosHandler.choice
  split
  · next hbest => exact h.best hbest
  · exact h.proposed id hprepared

variable [DecidableEq P] {sha256 : Bytes → Bytes} {conf : Configuration} {self : P}

/-- A job step chooses what was created in its step. -/
theorem JobStep.choosesIn {j : Job P} {next : Next P} (h : n.ChoosesIn R)
    (haccounts : n.Accounts)
    (hvalue : ∀ r msg, j = .exec r → r.msg = .promise self msg → 0 < msg.acceptedID →
      ∃ v, msg.acceptedValue = some v ∧ R msg.step v)
    (hprepared : ∀ r msg, j = .exec r → r.msg = .promise self msg →
      n.preparesFor msg.step msg.id ≠ [])
    (hjob : n.JobStep sha256 conf self j n' next) : n'.ChoosesIn R := by
  have hcount : ∀ {r : Rumor P} {msg : PaxosPromiseMessage}, j = .exec r →
      r.msg = .promise self msg → n.handler.step = msg.step →
      (n.withHandler (n.handler.counted msg (msg.acceptedValue.getD .empty))).ChoosesIn R ∧
        n.preparesFor n.handler.step msg.id ≠ [] := by
    intro r msg hj hmsg hstep
    have hv := hvalue r msg hj hmsg
    have hne := hprepared r msg hj hmsg
    rw [← hstep] at hv hne
    exact ⟨h.count hv, hne⟩
  have hold : ∀ {es : List (Event P)}, (∀ step id v, .quorum step id v ∉ es) →
      ∀ step id v, .quorum step id v ∈ es ++ n.history → .quorum step id v ∈ n.history := by
    intro es hes step id v hmem
    exact (List.mem_append.mp hmem).resolve_left (hes step id v)
  -- after a quorum the choice of the round is recorded
  have hchosen : ∀ {r : Rumor P} {msg : PaxosPromiseMessage} {h' : PaxosHandler},
      j = .exec r → r.msg = .promise self msg → n.handler.step = msg.step →
      h' = (n.handler.counted msg (msg.acceptedValue.getD .empty)).toPhase2 →
      ∀ step id v, .quorum step id v ∈ Event.quorum n.handler.step n.handler.paxosID h'.choice ::
        .countedPromise r msg :: n.history → R step v := by
    intro r msg h' hj hmsg hstep hh step id v hmem
    obtain ⟨hcounted, hne⟩ := hcount hj hmsg hstep
    rcases List.mem_cons.mp hmem with heq | hmem
    · cases heq
      subst hh
      exact hcounted.choice hne
    · rcases List.mem_cons.mp hmem with heq | hmem
      · cases heq
      · exact h.quorum step id v hmem
  cases hjob with
  | counted r msg hmsg hlock hstep =>
      exact (hcount rfl hmsg hstep).1.frame rfl rfl rfl rfl (fun _ => rfl) (hold (by simp))
  | chosen r msg h' hmsg hlock hstep hphase _ _ hh =>
      have hcounted := (hcount rfl hmsg hstep).1
      have hquorum := hchosen rfl hmsg hstep hh
      subst hh
      exact ⟨hcounted.best, hcounted.proposed, hquorum⟩
  | blocks r msg h' hmsg hlock hstep hphase _ _ hh =>
      have hcounted := (hcount rfl hmsg hstep).1
      have hquorum := hchosen rfl hmsg hstep hh
      subst hh
      exact ⟨hcounted.best, hcounted.proposed, hquorum⟩
  | panics r msg err hmsg hlock hstep hphase hid hnone =>
      obtain ⟨v, hv, -⟩ := hvalue r msg rfl hmsg (by omega)
      rw [hnone] at hv
      cases hv
  | decided r msg block bs px hmsg hlock hstep hfull hblock hleave =>
      refine h.leave haccounts hleave.step_lt ?_ (fun _ _ => rfl) (hold (by simp))
      change px.handler.bestID = 0
      rw [hleave.handler]
      rfl
  | finished r msg bs px hmsg hlock hstep hfull hleave =>
      refine h.leave haccounts hleave.step_lt ?_ (fun _ _ => rfl) (fun _ _ _ hmem => hmem)
      change px.handler.bestID = 0
      rw [hleave.handler]
      rfl
  | promised => exact h.frame rfl rfl rfl rfl (fun _ => rfl) (hold (by simp))
  | accepted => exact h.frame rfl rfl rfl rfl (fun _ => rfl) (hold (by simp))
  | countedAccept => exact h.frame rfl rfl rfl rfl (fun _ => rfl) (hold (by simp))
  | _ => exact h.frame rfl rfl rfl rfl (fun _ => rfl) (fun _ _ _ hmem => hmem)

end

end Node

theorem TagCall.OwnStep.choosesIn {R : ℕ → PaxosValue → Prop} {conf : Configuration}
    {self : P} {i : ℕ} {n n' : Node P} {call : TagCall P} {c : Choice} {pc : TagPc P}
    (h : n.ChoosesIn R)
    (hnew : ∀ uniqID, c = .fresh uniqID → R n.handler.step ⟨uniqID, call.name, call.mh⟩)
    (hown : call.OwnStep conf self i n c n' pc) : n'.ChoosesIn R := by
  have hquorum : ∀ step id v, .quorum step id v ∈ n'.history →
      .quorum step id v ∈ n.history := fun _ _ _ hmem => hown.of_quorum hmem
  cases hown with
  | prepare start uniqID =>
      constructor
      · exact h.best
      · intro id _
        exact hnew uniqID rfl
      · intro step id v hmem
        exact h.quorum step id v (hquorum step id v hmem)
  | recvPromise _ _ _ _ _ _ hrecv =>
      obtain ⟨c, hc, -, rfl⟩ := PaxosHandler.recvPromise_eq hrecv
      exact h.frame rfl rfl rfl rfl (fun _ => rfl) hquorum
  | recvValue _ _ _ _ _ hrecv =>
      obtain ⟨cs, hcs, rfl⟩ := PaxosHandler.recvValue_eq hrecv
      exact h.frame rfl rfl rfl rfl (fun _ => rfl) hquorum
  | _ => exact h.frame rfl rfl rfl rfl (fun _ => rfl) hquorum

/-! ## Names in a network -/

/-- The values which a node created have names that differ from those of the
earlier steps. -/
def Node.CreatesNew (v : ℕ → PaxosValue) (n : Node P) : Prop :=
  ∀ i msg w, .prepared i msg w ∈ n.history → ∀ k < msg.step, (v k).filename ≠ w.filename

namespace System

/-- The value was created in this step. -/
def CreatedIn (st : System P) (step : ℕ) (v : PaxosValue) : Prop :=
  ∃ p i msg, .prepared i msg v ∈ (st.peers p).node.history ∧ msg.step = step

section

variable [DecidableEq P] {sha256 : Bytes → Bytes} {conf : P → Configuration}
  {C : System P → Action P → Prop} {st st' : System P} {a : Action P}

theorem CreatedIn.step {step : ℕ} {v : PaxosValue} (h : st.CreatedIn step v)
    (hstep : Step sha256 conf st a st') : st'.CreatedIn step v := by
  obtain ⟨p, i, msg, hmem, hmsg⟩ := h
  exact ⟨p, i, msg, (hstep.history_suffix p).subset hmem, hmsg⟩

omit [DecidableEq P] in
/-- What is proposed in a step was chosen, and so created, in this step. -/
theorem CreatedIn.of_proposed {id step : ℕ} {v : PaxosValue} (hbehind : st.QuorumsBehind conf)
    (hchooses : ∀ p, (st.peers p).node.ChoosesIn st.CreatedIn)
    (h : st.Proposed step id v) : st.CreatedIn step v := by
  obtain ⟨p, hp⟩ := h
  have hmem : v ∈ (st.peers p).node.quorumsFor step id := hbehind.proposed p _ hp _ rfl
  exact (hchooses p).quorum step id v (Node.mem_quorumsFor.mp hmem)

theorem choosesIn_of_reachable (hC : ∀ st a, C st a → st.CleanBallots a)
    (h : (network sha256 conf).ReachableUnder C st) (p : P) :
    (st.peers p).node.ChoosesIn st.CreatedIn := by
  revert p
  refine network_invariant (I := fun st => ∀ p, (st.peers p).node.ChoosesIn st.CreatedIn)
    ?_ ?_ h
  · exact fun p => ⟨fun hne => absurd rfl hne, fun id hne => absurd rfl hne, nofun⟩
  · intro st st' a hst hI hCa hstep
    have hforge := noForgery_of_reachable hst
    have hprov := provenance_of_reachable hst
    have htruly : st.ReportsTruly := reportsTruly_of_reachable
      (fun st a hCa => (hC st a hCa).liveMarshal) hst
    have hbehind := quorumsBehind_of_reachable
      (fun st a hCa => (hC st a hCa).cleanRounds) hst
    have hnodes : ∀ p, (st.peers p).node.ChoosesIn st'.CreatedIn :=
      fun p => (hI p).mono fun _ _ hcreated => hcreated.step hstep
    refine hstep.forall_node (I := fun _ n => n.ChoosesIn st'.CreatedIn) hnodes ?_ ?_ ?_
    · intro p n n' hpaxos _ hhistory hn
      apply hn.frame
      · rw [Node.handler, hpaxos]
      · rw [Node.handler, hpaxos]
      · rw [Node.handler, hpaxos]
      · rw [Node.handler, hpaxos]
      · intro id
        rw [Node.preparesFor, Node.preparesFor, hhistory]
      · rw [hhistory]
        exact fun _ _ _ hmem => hmem
    · intro p t j n next _ hj _ hjob
      apply hjob.choosesIn (hnodes p) (hprov.accounts p)
      · rintro r msg rfl hmsg hpos
        obtain ⟨v, hv, hproposed⟩ := (htruly.sound hprov (hforge.jobs p t _ hj) hmsg).value hpos
        exact ⟨v, hv, (CreatedIn.of_proposed hbehind hI hproposed).step hstep⟩
      · rintro r msg rfl hmsg
        exact hprov.preparesFor_ne_nil (hforge.jobs p t _ hj) hmsg
    · intro p i c call n pc _ _ _ hnode hown
      apply hown.choosesIn (hnodes p)
      rintro uniqID rfl
      have hmem := hown.prepares
      rw [← hnode] at hmem
      exact ⟨p, i, _, hmem, rfl⟩

/-- Every created value has a new name. -/
theorem createsNew_of_reachable (hpeers : ∀ p, 2 ≤ (conf p).totalPeers)
    (hC : ∀ st a, C st a → st.NameFree a)
    (h : (network sha256 conf).ReachableUnder C st) {v : ℕ → PaxosValue} (hv : st.Decides v)
    (p : P) : (st.peers p).node.CreatesNew v := by
  revert hv p
  refine network_invariant
    (I := fun st => st.Decides v → ∀ p, (st.peers p).node.CreatesNew v) ?_ ?_ h
  · exact fun _ p i msg w hmem => absurd hmem List.not_mem_nil
  · intro st st' a hst hI hCa hstep hv
    have hnodes := hI (hv.of_step hstep)
    have hchain := onChain_of_reachable hpeers hst (hv.of_step hstep)
    refine hstep.forall_node (I := fun _ n => n.CreatesNew v) hnodes ?_ ?_ ?_
    · intro p n n' _ _ hhistory hn
      rwa [Node.CreatesNew, hhistory]
    · intro p t j n next _ _ _ hjob i msg w hmem
      exact hnodes p i msg w (hjob.of_prepared hmem)
    · intro p i c call n pc ha hcall _ _ hown
      subst ha
      intro k msg w hmem
      rcases hown.of_prepared hmem with hold | ⟨hpc, hstep, hname⟩
      · exact hnodes p k msg w hold
      · -- the name is free in the stores of the chain up to the step
        have hfree := (hC _ _ hCa).of_call hcall hpc
        rw [Node.storage, (hchain.nodes p).follows.storage] at hfree
        rw [hstep, hname]
        exact filename_ne_of_free hfree

/-- The names of the decided values are distinct. -/
theorem distinctNames_of_reachable [Fintype P] (hconf : ByMajority conf)
    (hC : ∀ st a, C st a → st.CleanNames a)
    (h : (network sha256 conf).ReachableUnder C st) {v : ℕ → PaxosValue} (hv : st.Decides v)
    (p : P) : DistinctNames v (st.peers p).node.handler.step := by
  have hclean : ∀ st a, C st a → st.CleanBallots a := fun st a hCa => (hC st a hCa).cleanBallots
  have hprov := provenance_of_reachable h
  have hchain := onChain_of_reachable hconf.two_le_totalPeers h hv
  intro i j hij hj
  obtain ⟨q, w, hdecided⟩ := (hchain.nodes p).decided j hj
  obtain ⟨id, Q, hcard, hQ⟩ := (countsAccepts_of_reachable
    (fun st a hCa => (hclean st a hCa).singleBallot) h q).quorum (noForgery_of_reachable h)
    hdecided
  obtain ⟨r, hr⟩ : Q.Nonempty := Finset.card_pos.mp ((conf q).one_le_threshold.trans hcard)
  have hproposed : st.Proposed j id w := hprov.events r _ (hprov.rumors r _ (hQ r hr))
  obtain ⟨s, k, msg, hprepared, rfl⟩ := CreatedIn.of_proposed
    (quorumsBehind_of_reachable (fun st a hCa => (hclean st a hCa).cleanRounds) h)
    (choosesIn_of_reachable hclean h) hproposed
  rw [hv q _ w hdecided]
  exact createsNew_of_reachable hconf.two_le_totalPeers
    (fun st a hCa => (hC st a hCa).nameFree) h hv s k msg w hprepared i hij

/-- Steps to a later state keep the history and do not go back. -/
theorem later_of_leadsTo (h : (network sha256 conf).ReachableUnder C st)
    (hlater : (network sha256 conf).LeadsTo C st st') (p : P) :
    (st.peers p).node.history ⊆ (st'.peers p).node.history ∧
      (st.peers p).node.handler.step ≤ (st'.peers p).node.handler.step := by
  refine h.leadsTo_rel
    (R := fun st st' => (st.peers p).node.history ⊆ (st'.peers p).node.history ∧
      (st.peers p).node.handler.step ≤ (st'.peers p).node.handler.step) ?_ ?_ ?_ hlater
  · exact fun st => ⟨List.Subset.refl _, le_rfl⟩
  · exact fun s t u hst htu => ⟨List.Subset.trans hst.1 htu.1, hst.2.trans htu.2⟩
  · intro s t a hs _ hnext
    have hstep := step_of_next (configured_of_reachable hs) hnext
    exact ⟨(hstep.history_suffix p).subset, (hstep.older p).step_le⟩

end

end System

/-- In every run under the guards, no two stored blocks of a peer have one name,
and a bound name keeps its metahash in every later state. -/
theorem names_unique [Fintype P] [DecidableEq P] (sha256 : Bytes → Bytes)
    (conf : P → Configuration) (hconf : ByMajority conf) (st : System P)
    (h : (network sha256 conf).ReachableUnder System.CleanNames st) (p : P) :
    (∀ b b', (st.peers p).node.storage.HasBlock b → (st.peers p).node.storage.HasBlock b' →
      b.value.filename = b'.value.filename → b = b') ∧
    ∀ st', (network sha256 conf).LeadsTo System.CleanNames st st' → ∀ name mh,
      (st.peers p).node.storage.naming.get name = some mh →
        (st'.peers p).node.storage.naming.get name = some mh := by
  have hclean : ∀ (st : System P) a, st.CleanNames a → st.CleanBallots a :=
    fun _ _ hCa => hCa.cleanBallots
  constructor
  · intro b b' hb hb' hname
    obtain ⟨v, hv⟩ := System.exists_decides hconf hclean h
    have hdistinct := System.distinctNames_of_reachable hconf (fun _ _ hCa => hCa) h hv p
    have hchain := System.onChain_of_reachable hconf.two_le_totalPeers h hv
    rw [Node.storage, (hchain.nodes p).follows.storage] at hb hb'
    obtain ⟨i, hi, rfl⟩ := hasBlock_chainStorage hb
    obtain ⟨j, hj, rfl⟩ := hasBlock_chainStorage hb'
    rw [chainBlock_value, chainBlock_value] at hname
    rcases lt_trichotomy i j with hlt | rfl | hgt
    · exact absurd hname (hdistinct i j hlt hj)
    · rfl
    · exact absurd hname.symm (hdistinct j i hgt hi)
  · intro st' hlater name mh hget
    have h' := h.leadsTo hlater
    obtain ⟨v, hv'⟩ := System.exists_decides hconf hclean h'
    have hv : st.Decides v := fun q step w hw =>
      hv' q step w ((System.later_of_leadsTo h hlater q).1 hw)
    have hdistinct := System.distinctNames_of_reachable hconf (fun _ _ hCa => hCa) h' hv' p
    have hchain := System.onChain_of_reachable hconf.two_le_totalPeers h hv
    have hchain' := System.onChain_of_reachable hconf.two_le_totalPeers h' hv'
    rw [Node.storage, (hchain.nodes p).follows.storage] at hget
    obtain ⟨i, hi, rfl, rfl⟩ := naming_chainStorage hget
    rw [Node.storage, (hchain'.nodes p).follows.storage]
    exact naming_of_distinct hdistinct (hi.trans_le (System.later_of_leadsTo h hlater p).2)

/-- Peer 0 still maps its name after peer 1 has decided, too. -/
theorem names_unique_of_tagRun :
    ∃ st st', (network sha256 (majorityNetwork 2)).ReachableUnder System.CleanNames st ∧
      (network sha256 (majorityNetwork 2)).LeadsTo System.CleanNames st st' ∧
      (st'.peers 0).node.storage.naming.get "file" = some "meta" := by
  obtain ⟨st, st', hst, hlater, hget⟩ := TransitionSystem.exists_of_replay_twice
    (S := network sha256 (majorityNetwork 2)) System.CleanNames Action.tagRun
    (Action.handles 1 0 4 3)
    (fun st _ => (st.peers 0).node.storage.naming.get "file" = some "meta")
    (by decide +kernel)
  exact ⟨st, st', hst, hlater,
    (names_unique sha256 _ (byMajority_majority le_rfl) st hst 0).2 st' hlater _ _ hget⟩

/-- A peer has two calls for one name.  The second one waits for the instance of
the first and then proposes in the next step without looking up the name again. -/
theorem names_repeat :
    ∃ st, (network sha256 (majorityNetwork 2)).ReachableUnder System.InOrder st ∧
      (st.peers 0).node.storage.naming.get "file" = some "other" ∧
      ∃ b b', (st.peers 0).node.storage.HasBlock b ∧ (st.peers 0).node.storage.HasBlock b' ∧
        b.value.filename = b'.value.filename ∧ b.value.metahash ≠ b'.value.metahash := by
  obtain ⟨st, hst, hget, hb, hb'⟩ := TransitionSystem.exists_of_replay
    (S := network sha256 (majorityNetwork 2)) System.InOrder
    (.tag 0 "file" "meta" :: .tag 0 "file" "other" :: Action.opens 0 0 "id" ++
      Action.steps 0 1 2 ++ Action.handles 1 0 1 4 ++ Action.handles 1 0 2 1 ++
      Action.handles 0 1 1 1 ++ .call 0 0 .recv :: Action.steps 0 0 6 ++
      Action.handles 1 0 3 3 ++ Action.handles 0 1 2 3 ++ Action.handles 1 0 4 3 ++
      .call 0 1 .recv :: Action.steps 0 1 3 ++ .call 0 1 (.fresh "id'") ::
      Action.steps 0 1 6 ++ Action.handles 1 0 5 1 ++ Action.handles 1 0 6 4 ++
      Action.handles 0 1 3 1 ++ Action.handles 0 1 4 1 ++ .call 0 1 .recv ::
      Action.steps 0 1 6 ++ Action.handles 1 0 7 1 ++ Action.handles 1 0 8 3 ++
      Action.handles 0 1 5 3)
    (fun st => (st.peers 0).node.storage.naming.get "file" = some "other" ∧
      (st.peers 0).node.storage.HasBlock
        (mkBlock sha256 0 ⟨"id", "file", "meta"⟩ zeroHash) ∧
      (st.peers 0).node.storage.HasBlock
        (mkBlock sha256 1 ⟨"id'", "file", "other"⟩
          (mkBlock sha256 0 ⟨"id", "file", "meta"⟩ zeroHash).hash)) (by decide +kernel)
  exact ⟨st, hst, hget, _, _, hb, hb', rfl, by decide⟩

end Minotor
