import Minotor.Network.Proposer
import Minotor.Network.ProposalNumber
import Minotor.Network.Reports

/-!
# What proposers choose

The best value of a proposer covers the promises of its round: every report it
has counted has a proposal of the best value at the reported ID or above, as
long as no report is passed over for an older one.  So the choice of a quorum is
backed by the promises of its members.
-/

namespace Minotor

variable {P : Type*}

/-- The value has a proposal at the reported ID or above and below `id`, if
anything is reported. -/
def CoversReport (R : ℕ → PaxosValue → Prop) (v : PaxosValue) (reported id : ℕ) : Prop :=
  0 < reported → ∃ k, reported ≤ k ∧ k < id ∧ R k v

/-- A promise reports a smaller ID, with a value proposed under it. -/
structure PaxosPromiseMessage.Sound (R : ℕ → ℕ → PaxosValue → Prop)
    (msg : PaxosPromiseMessage) : Prop where
  below : msg.acceptedID < msg.id
  value : 0 < msg.acceptedID → ∃ v, msg.acceptedValue = some v ∧ R msg.step msg.acceptedID v

namespace Node

/-- The best value covers what the promises of the current round report. -/
structure BestCovers (R : ℕ → ℕ → PaxosValue → Prop) (n : Node P) : Prop where
  found : ∀ msg ∈ n.reports n.handler.step, msg.id = n.handler.paxosID →
    0 < msg.acceptedID → n.handler.bestID ≠ 0
  covers : ∀ msg ∈ n.reports n.handler.step, msg.id = n.handler.paxosID →
    CoversReport (R n.handler.step) n.handler.bestValue msg.acceptedID msg.id
  newest : ∀ msg ∈ n.reports n.handler.step, msg.id = n.handler.paxosID →
    n.handler.bestID = n.handler.paxosID ∨ msg.acceptedID ≤ n.handler.bestID

theorem mem_reports {n : Node P} {step : ℕ} {msg : PaxosPromiseMessage} :
    msg ∈ n.reports step ↔ ∃ r, .countedPromise r msg ∈ n.history ∧ msg.step = step := by
  rw [reports, List.mem_filterMap]
  constructor
  · rintro ⟨e, he, hfor⟩
    cases e with
    | countedPromise r m =>
        rw [Event.reportIn?, Option.ite_none_right_eq_some, Option.some.injEq] at hfor
        obtain ⟨hstep, rfl⟩ := hfor
        exact ⟨r, he, hstep⟩
    | _ => cases hfor
  · rintro ⟨r, he, hstep⟩
    exact ⟨_, he, by rw [Event.reportIn?, if_pos hstep]⟩

section

variable {R R' : ℕ → ℕ → PaxosValue → Prop} {n n' : Node P}

theorem BestCovers.mono (h : n.BestCovers R) (hR : ∀ s k v, R s k v → R' s k v) :
    n.BestCovers R' := by
  refine ⟨h.found, fun msg hmsg hid hpos => ?_, h.newest⟩
  obtain ⟨k, hle, hlt, hk⟩ := h.covers msg hmsg hid hpos
  exact ⟨k, hle, hlt, hR _ _ _ hk⟩

theorem BestCovers.of_none
    (hnone : ∀ msg ∈ n.reports n.handler.step, msg.id ≠ n.handler.paxosID) :
    n.BestCovers R where
  found msg hmsg hid := absurd hid (hnone msg hmsg)
  covers msg hmsg hid := absurd hid (hnone msg hmsg)
  newest msg hmsg hid := absurd hid (hnone msg hmsg)

/-- In a later step nothing is reported yet. -/
theorem BestCovers.leave (haccounts : n.Accounts) (hlt : n.handler.step < n'.handler.step)
    (hreports : n'.reports n'.handler.step = n.reports n'.handler.step) :
    n'.BestCovers R := by
  apply BestCovers.of_none
  rw [hreports]
  intro msg hmsg
  obtain ⟨r, hevent, hstep⟩ := mem_reports.mp hmsg
  have hle : msg.step ≤ n.handler.step := (haccounts _ hevent).1
  omega

/-- One more promise of the round is counted.  Its report replaces the best value,
or the best value covers it. -/
theorem BestCovers.count (h : n.BestCovers R) {msg : PaxosPromiseMessage}
    (hreports : ∀ m ∈ n.reports n.handler.step, m.Sound R ∧ m.id ≤ n.handler.paxosID)
    (hsound : msg.Sound R) (hstep : n.handler.step = msg.step)
    (hid : msg.id = n.handler.paxosID)
    (hnewest : 0 < msg.acceptedID → msg.acceptedID ≤ n.handler.bestID →
      ∃ best ∈ msg :: n.reports n.handler.step,
        best.acceptedValue = some n.handler.bestValue ∧ msg.acceptedID ≤ best.acceptedID)
    (hstep' : n'.handler.step = n.handler.step)
    (hpaxosID' : n'.handler.paxosID = n.handler.paxosID)
    (hbestID' : n'.handler.bestID =
      if n.handler.bestID < msg.acceptedID then msg.id else n.handler.bestID)
    (hbestValue' : n'.handler.bestValue =
      if n.handler.bestID < msg.acceptedID then msg.acceptedValue.getD .empty
      else n.handler.bestValue)
    (hreports' : n'.reports n.handler.step = msg :: n.reports n.handler.step) :
    n'.BestCovers R := by
  have hbelow := hsound.below
  by_cases hbetter : n.handler.bestID < msg.acceptedID
  · rw [if_pos hbetter] at hbestID' hbestValue'
    obtain ⟨v, hv, hproposed⟩ := hsound.value (by omega)
    rw [hv, Option.getD_some] at hbestValue'
    rw [← hstep] at hproposed
    constructor
    · intro m _ _ _
      omega
    · rw [hstep', hpaxosID', hbestValue', hreports']
      intro m hm hmid hpos
      refine ⟨msg.acceptedID, ?_, by omega, hproposed⟩
      -- nothing counted in this round before reports a larger ID
      rcases List.mem_cons.mp hm with rfl | hm
      · exact le_rfl
      · rcases h.newest m hm hmid with heq | hle
        · omega
        · omega
    · rw [hpaxosID', hbestID']
      exact fun m _ _ => .inl hid
  · rw [if_neg hbetter] at hbestID' hbestValue'
    constructor
    · rw [hstep', hpaxosID', hbestID', hreports']
      intro m hm hmid hpos
      rcases List.mem_cons.mp hm with rfl | hm
      · omega
      · exact h.found m hm hmid hpos
    · rw [hstep', hpaxosID', hbestValue', hreports']
      intro m hm hmid
      rcases List.mem_cons.mp hm with rfl | hm
      · intro hpos
        obtain ⟨best, hmem, hvalue, hle⟩ := hnewest hpos (Nat.not_lt.mp hbetter)
        have hbest : best.Sound R ∧ best.id ≤ n.handler.paxosID ∧
            best.step = n.handler.step := by
          rcases List.mem_cons.mp hmem with rfl | hmem
          · exact ⟨hsound, hid.le, hstep.symm⟩
          · obtain ⟨r, -, hbeststep⟩ := mem_reports.mp hmem
            exact ⟨(hreports best hmem).1, (hreports best hmem).2, hbeststep⟩
        obtain ⟨hbestsound, hbestid, hbeststep⟩ := hbest
        obtain ⟨v, hv, hproposed⟩ := hbestsound.value (by omega)
        rw [hvalue, Option.some.injEq] at hv
        rw [hbeststep, ← hv] at hproposed
        have hbestbelow := hbestsound.below
        exact ⟨best.acceptedID, hle, by omega, hproposed⟩
      · exact h.covers m hm hmid
    · rw [hstep', hpaxosID', hbestID', hreports']
      intro m hm hmid
      rcases List.mem_cons.mp hm with rfl | hm
      · exact .inr (Nat.not_lt.mp hbetter)
      · exact h.newest m hm hmid

/-- What keeps the round, the best value and the reports keeps them covered. -/
theorem BestCovers.frame (h : n.BestCovers R)
    (hstep : n'.handler.step = n.handler.step)
    (hpaxosID : n'.handler.paxosID = n.handler.paxosID)
    (hbestID : n'.handler.bestID = n.handler.bestID)
    (hbestValue : n'.handler.bestValue = n.handler.bestValue)
    (hreports : n'.reports n.handler.step = n.reports n.handler.step) :
    n'.BestCovers R := by
  constructor
  · rw [hstep, hpaxosID, hbestID, hreports]
    exact h.found
  · rw [hstep, hpaxosID, hbestValue, hreports]
    exact h.covers
  · rw [hstep, hpaxosID, hbestID, hreports]
    exact h.newest

theorem reports_record_counted (n : Node P) {r : Rumor P} {msg : PaxosPromiseMessage}
    (hstep : n.handler.step = msg.step) :
    (n.record [.countedPromise r msg]).reports n.handler.step =
      msg :: n.reports n.handler.step := by
  simp [reports, Event.reportIn?, hstep]

variable [DecidableEq P] {sha256 : Bytes → Bytes} {conf : Configuration} {self : P}

theorem JobStep.bestCovers {j : Job P} {next : Next P} (h : n.BestCovers R)
    (haccounts : n.Accounts)
    (hreports : ∀ m ∈ n.reports n.handler.step, m.Sound R ∧ m.id ≤ n.handler.paxosID)
    (hsound : ∀ r msg, j = .exec r → r.msg = .promise self msg → msg.Sound R)
    (hround : n.OwnRound self j) (hnewest : n.KeepsNewest self j)
    (hjob : n.JobStep sha256 conf self j n' next) : n'.BestCovers R := by
  -- what the guards say of a promise that is counted
  have hcount : ∀ {r : Rumor P} {msg : PaxosPromiseMessage}, j = .exec r →
      r.msg = .promise self msg → n.handler.step = msg.step →
      n.handler.currentPhase = .phase1 → msg.id = n.handler.paxosID ∧
        (0 < msg.acceptedID → msg.acceptedID ≤ n.handler.bestID →
          ∃ best ∈ msg :: n.reports n.handler.step,
            best.acceptedValue = some n.handler.bestValue ∧
              msg.acceptedID ≤ best.acceptedID) := by
    intro r msg hj hmsg hstep hphase
    subst hj
    obtain ⟨origin, sequence, m⟩ := r
    cases hmsg
    exact ⟨hround rfl hstep hphase, hnewest rfl hstep hphase⟩
  cases hjob with
  | counted r msg hmsg hlock hstep hphase =>
      obtain ⟨hid, hkeeps⟩ := hcount rfl hmsg hstep hphase
      exact h.count hreports (hsound r msg rfl hmsg) hstep hid hkeeps rfl rfl rfl rfl
        (reports_record_counted n hstep)
  | chosen r msg h' hmsg hlock hstep hphase _ _ hh =>
      obtain ⟨hid, hkeeps⟩ := hcount rfl hmsg hstep hphase
      subst hh
      exact h.count hreports (hsound r msg rfl hmsg) hstep hid hkeeps rfl rfl rfl rfl
        (reports_record_counted n hstep)
  | blocks r msg h' hmsg hlock hstep hphase _ _ hh =>
      obtain ⟨hid, hkeeps⟩ := hcount rfl hmsg hstep hphase
      subst hh
      exact h.count hreports (hsound r msg rfl hmsg) hstep hid hkeeps rfl rfl rfl rfl
        (reports_record_counted n hstep)
  | panics r msg err hmsg hlock hstep hphase hid hvalue =>
      obtain ⟨v, hv, -⟩ := (hsound r msg rfl hmsg).value (by omega)
      rw [hvalue] at hv
      cases hv
  | decided r msg block bs px hmsg hlock hstep hfull hblock hleave =>
      exact BestCovers.leave haccounts hleave.step_lt rfl
  | finished r msg bs px hmsg hlock hstep hfull hleave =>
      exact BestCovers.leave haccounts hleave.step_lt rfl
  | _ => exact h.frame rfl rfl rfl rfl rfl

/-- A job step records the choice of the current round. -/
theorem JobStep.of_quorum {j : Job P} {next : Next P}
    (hjob : n.JobStep sha256 conf self j n' next) {step id : ℕ} {v : PaxosValue}
    (hmem : .quorum step id v ∈ n'.history) :
    .quorum step id v ∈ n.history ∨
      step = n'.handler.step ∧ id = n'.handler.paxosID ∧ v = n'.handler.choice := by
  cases hjob with
  | chosen r msg h' _ _ _ _ _ _ hh =>
      subst hh
      rcases List.mem_cons.mp hmem with heq | hmem
      · cases heq
        exact .inr ⟨rfl, rfl, rfl⟩
      · rcases List.mem_cons.mp hmem with heq | hmem
        · cases heq
        · exact .inl hmem
  | blocks r msg h' _ _ _ _ _ _ hh =>
      subst hh
      rcases List.mem_cons.mp hmem with heq | hmem
      · cases heq
        exact .inr ⟨rfl, rfl, rfl⟩
      · rcases List.mem_cons.mp hmem with heq | hmem
        · cases heq
        · exact .inl hmem
  | _ =>
      left
      simpa using hmem

end

end Node

section

variable {R : ℕ → ℕ → PaxosValue → Prop} {conf : Configuration} {self : P} {i : ℕ}
  {n n' : Node P} {call : TagCall P} {c : Choice} {pc : TagPc P}

theorem TagCall.OwnStep.bestCovers (h : n.BestCovers R)
    (hreports : ∀ m ∈ n.reports n.handler.step, m.id ≤ n.handler.paxosID)
    (hpeers : 0 < n.handler.nPeers) (hown : call.OwnStep conf self i n c n' pc) :
    n'.BestCovers R := by
  -- no promise for the next ID has been counted
  have hnext : (n.withHandler n.handler.nextID).BestCovers R := by
    apply Node.BestCovers.of_none
    intro msg hmsg
    have hle := hreports msg hmsg
    change msg.id ≠ n.handler.paxosID + n.handler.nPeers
    omega
  cases hown with
  | retryPrepare => exact hnext
  | retryPropose => exact hnext
  | recvPromise _ _ _ _ _ _ hrecv =>
      obtain ⟨c, hc, -, rfl⟩ := PaxosHandler.recvPromise_eq hrecv
      exact h.frame rfl rfl rfl rfl rfl
  | recvValue _ _ _ _ _ hrecv =>
      obtain ⟨cs, hcs, rfl⟩ := PaxosHandler.recvValue_eq hrecv
      exact h.frame rfl rfl rfl rfl rfl
  | _ => exact h.frame rfl rfl rfl rfl rfl

theorem TagCall.OwnStep.of_quorum (hown : call.OwnStep conf self i n c n' pc)
    {step id : ℕ} {v : PaxosValue} (hmem : .quorum step id v ∈ n'.history) :
    .quorum step id v ∈ n.history := by
  cases hown with
  | prepare =>
      rcases List.mem_cons.mp hmem with heq | hmem
      · cases heq
      · exact hmem
  | propose =>
      rcases List.mem_cons.mp hmem with heq | hmem
      · cases heq
      · exact hmem
  | _ => exact hmem

end

/-! ## Choices in a network -/

namespace System

/-- A peer has proposed the value under this ID in this step. -/
def Proposed (st : System P) (step id : ℕ) (v : PaxosValue) : Prop :=
  ∃ q, .proposed ⟨step, id, v⟩ ∈ (st.peers q).node.history

/-- Every choice covers the reports of a threshold of peers. -/
def ChoicesBacked (conf : P → Configuration) (st : System P) : Prop :=
  ∀ p step id v, .quorum step id v ∈ (st.peers p).node.history →
    ∃ Q : Finset P, (conf p).threshold ≤ Q.card ∧ ∀ q ∈ Q, ∃ draft,
      .promised p draft ∈ (st.peers q).node.history ∧ draft.step = step ∧ draft.id = id ∧
        CoversReport (st.Proposed step) v draft.acceptedID id

section

variable {st : System P} {p : P}

/-- A promise which is processed is sound. -/
theorem ReportsTruly.sound (htruly : st.ReportsTruly) (hprov : st.Provenance)
    {r : Rumor P} {msg : PaxosPromiseMessage} (hr : st.Authentic r)
    (hmsg : r.msg = .promise p msg) : msg.Sound st.Proposed := by
  have hvouched := htruly.vouches hr hmsg
  refine ⟨hvouched.below, fun hpos => ?_⟩
  obtain ⟨v, hv, -, hevent⟩ := hvouched.accepted hpos
  exact ⟨v, hv, hprov.events r.origin _ hevent⟩

/-- Counted promises are sound and not of a later round. -/
theorem ReportsTruly.reports (htruly : st.ReportsTruly) (hforge : st.NoForgery)
    (hprov : st.Provenance) (p : P) :
    ∀ m ∈ (st.peers p).node.reports (st.peers p).node.handler.step,
      m.Sound st.Proposed ∧ m.id ≤ (st.peers p).node.handler.paxosID := by
  intro m hm
  obtain ⟨r, hevent, hstep⟩ := Node.mem_reports.mp hm
  obtain ⟨hr, hmsg⟩ := hforge.events p _ hevent
  have hprepared := hprov.preparesFor_ne_nil hr hmsg
  exact ⟨htruly.sound hprov hr hmsg, ((hprov.accounts p).of_preparesFor hprepared).2 hstep⟩

/-- A choice made in the current round covers the counted promises of the round. -/
theorem covers_choice {msg : PaxosPromiseMessage} {step id : ℕ}
    (hcovers : (st.peers p).node.BestCovers st.Proposed)
    (hstep : step = (st.peers p).node.handler.step)
    (hid : id = (st.peers p).node.handler.paxosID)
    (hmsg : msg ∈ (st.peers p).node.reports step) (hmsgid : msg.id = id) :
    CoversReport (st.Proposed step) (st.peers p).node.handler.choice msg.acceptedID id := by
  subst hstep hid
  intro hpos
  have hfound := hcovers.found msg hmsg hmsgid hpos
  rw [PaxosHandler.choice, if_pos hfound, ← hmsgid]
  exact hcovers.covers msg hmsg hmsgid hpos

end

variable [DecidableEq P] {sha256 : Bytes → Bytes} {conf : P → Configuration}
  {st st' : System P} {a : Action P}

theorem Proposed.step {step id : ℕ} {v : PaxosValue} (h : st.Proposed step id v)
    (hstep : Step sha256 conf st a st') : st'.Proposed step id v := by
  obtain ⟨q, hq⟩ := h
  exact ⟨q, (hstep.history_suffix q).subset hq⟩

theorem ChoicesBacked.step (h : st.ChoicesBacked conf) (hforge : st'.NoForgery)
    (hprov : st'.Provenance) (honce : ∀ p, (st'.peers p).CountsOnce p)
    (hpromises : ∀ p, (st'.peers p).PromisesOnce) (hbehind : st'.QuorumsBehind conf)
    (hcovers : ∀ p, (st'.peers p).node.BestCovers st'.Proposed)
    (hstep : Step sha256 conf st a st') : st'.ChoicesBacked conf := by
  intro p step id v hquorum
  have hnew : .quorum step id v ∈ (st.peers p).node.history ∨
      step = (st'.peers p).node.handler.step ∧ id = (st'.peers p).node.handler.paxosID ∧
        v = (st'.peers p).node.handler.choice := by
    revert hquorum
    refine hstep.forall_node (I := fun p n => .quorum step id v ∈ n.history →
      .quorum step id v ∈ (st.peers p).node.history ∨
        step = n.handler.step ∧ id = n.handler.paxosID ∧ v = n.handler.choice) ?_ ?_ ?_ ?_ p
    · exact fun p hmem => .inl hmem
    · intro p n n' hpaxos _ hhistory hn
      rw [hhistory, Node.handler, hpaxos]
      exact hn
    · intro p t j n next _ _ _ hjob
      exact hjob.of_quorum
    · intro p i c call n pc _ _ _ _ hown hmem
      exact .inl (hown.of_quorum hmem)
  rcases hnew with hold | ⟨hcurrent, hid, hchoice⟩
  · obtain ⟨Q, hcard, hQ⟩ := h p step id v hold
    refine ⟨Q, hcard, fun q hq => ?_⟩
    obtain ⟨draft, hdraft, hdraftstep, hdraftid, hcover⟩ := hQ q hq
    refine ⟨draft, (hstep.history_suffix q).subset hdraft, hdraftstep, hdraftid, ?_⟩
    intro hpos
    obtain ⟨k, hle, hlt, hk⟩ := hcover hpos
    exact ⟨k, hle, hlt, hk.step hstep⟩
  · obtain ⟨Q, hcard, hQ⟩ := exists_promises hforge (honce p) hpromises (hbehind.counts p)
      (Node.mem_quorumsFor.mpr hquorum)
    refine ⟨Q, hcard, fun q hq => ?_⟩
    obtain ⟨x, hx, rfl⟩ := hQ q hq
    obtain ⟨hrumor, hxstep, hxid⟩ := hforge.of_promisesFor hx
    obtain ⟨draft, w, hdraft, hmarshal⟩ := hprov.rumors x.1.origin _ hrumor
    have hreport : x.2 ∈ (st'.peers p).node.reports step := by
      obtain ⟨e, he, hfor⟩ := List.mem_filterMap.mp hx
      obtain ⟨rfl, hestep, -⟩ := mem_promisesFor hfor
      exact Node.mem_reports.mpr ⟨x.1, he, hestep⟩
    have hcover := covers_choice (hcovers p) hcurrent hid hreport hxid
    rw [hmarshal] at hxstep hxid hcover
    rw [hchoice]
    exact ⟨draft, hdraft, hxstep, hxid, hcover⟩

end System

section

variable [DecidableEq P] {sha256 : Bytes → Bytes} {conf : P → Configuration}
  {C : System P → Action P → Prop} {st : System P}

theorem bestCovers_of_reachable {n : ℕ} (hnumbered : Numbered n conf)
    (hC : ∀ st a, C st a → st.CleanBallots a)
    (h : (network sha256 conf).ReachableUnder C st) (p : P) :
    (st.peers p).node.BestCovers st.Proposed := by
  revert p
  refine network_invariant (I := fun st => ∀ p, (st.peers p).node.BestCovers st.Proposed)
    ?_ ?_ h
  · intro p
    apply Node.BestCovers.of_none
    exact fun msg hmsg => absurd hmsg List.not_mem_nil
  · intro st st' a hst hI hCa hstep
    have hclean := hC st a hCa
    have hforge := System.noForgery_of_reachable hst
    have hprov := System.provenance_of_reachable hst
    have htruly : st.ReportsTruly := reportsTruly_of_reachable
      (fun st a hCa => (hC st a hCa).liveMarshal) hst
    have hnode : ∀ p, (st'.peers p).node.BestCovers st.Proposed := by
      refine hstep.forall_node (I := fun _ n => n.BestCovers st.Proposed) hI ?_ ?_ ?_
      · intro p n n' hpaxos _ hhistory hn
        apply hn.frame
        · rw [Node.handler, hpaxos]
        · rw [Node.handler, hpaxos]
        · rw [Node.handler, hpaxos]
        · rw [Node.handler, hpaxos]
        · rw [Node.reports, Node.reports, hhistory]
      · intro p t j n next ha hj _ hjob
        apply hjob.bestCovers (hI p) (hprov.accounts p) (htruly.reports hforge hprov p)
        · rintro r msg rfl hmsg
          exact htruly.sound hprov (hforge.jobs p t _ hj) hmsg
        · exact hclean.cleanRounds.ownRound.of_job ha hj
        · exact hclean.keepsNewest.of_job ha hj
      · intro p i c call n pc _ _ _ _ hown
        apply hown.bestCovers (hI p)
        · exact fun m hm => (htruly.reports hforge hprov p m hm).2
        · rw [(configured_of_reachable hst p).nPeers, hnumbered.totalPeers]
          exact (hnumbered.pos p).trans (hnumbered.le p)
    intro p
    exact (hnode p).mono fun _ _ _ hproposed => hproposed.step hstep

theorem choicesBacked_of_reachable {n : ℕ} (hnumbered : Numbered n conf)
    (hC : ∀ st a, C st a → st.CleanBallots a)
    (h : (network sha256 conf).ReachableUnder C st) : st.ChoicesBacked conf := by
  refine h.invariant (fun p step id v hmem => absurd hmem List.not_mem_nil) ?_
  intro st st' a hst hI hCa hnext
  have hst' := hst.step hCa hnext
  have hrounds : ∀ st a, C st a → st.CleanRounds a := fun st a hCa => (hC st a hCa).cleanRounds
  exact hI.step (System.noForgery_of_reachable hst') (System.provenance_of_reachable hst')
    (countsOnce_of_reachable (fun st a hCa => (hrounds st a hCa).inOrder) hst')
    (promisesOnce_of_reachable hst') (quorumsBehind_of_reachable hrounds hst')
    (bestCovers_of_reachable hnumbered hC hst')
    (System.step_of_next (configured_of_reachable hst) hnext)

end
end Minotor
