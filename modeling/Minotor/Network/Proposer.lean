import Minotor.Network.ExactlyOnce
import Minotor.Network.PromiseChannel

/-!
# Proposer quorums

A proposer that counts only promises of its round, starts a round with an empty
promise channel and proposes in the round it prepared has, for every proposal,
promises of a threshold of distinct peers for its step and ID.
-/

namespace Minotor

variable {P : Type*}

/-! ## Rounds in the history -/

namespace Event

/-- The counted promise for this step and ID. -/
def promiseFor? (step id : ℕ) : Event P → Option (Rumor P × PaxosPromiseMessage)
  | .countedPromise r msg => if msg.step = step ∧ msg.id = id then some (r, msg) else none
  | _ => none

/-- The choice of a quorum for this step and ID. -/
def quorumFor? (step id : ℕ) : Event P → Option PaxosValue
  | .quorum s i v => if s = step ∧ i = id then some v else none
  | _ => none

/-- The value prepared for this step and ID. -/
def prepareFor? (step id : ℕ) : Event P → Option PaxosValue
  | .prepared _ msg v => if msg.step = step ∧ msg.id = id then some v else none
  | _ => none

end Event

namespace Node

def promisesFor (n : Node P) (step id : ℕ) : List (Rumor P × PaxosPromiseMessage) :=
  n.history.filterMap (Event.promiseFor? step id)

def quorumsFor (n : Node P) (step id : ℕ) : List PaxosValue :=
  n.history.filterMap (Event.quorumFor? step id)

def preparesFor (n : Node P) (step id : ℕ) : List PaxosValue :=
  n.history.filterMap (Event.prepareFor? step id)

theorem Prepared.preparesFor_ne_nil {self : P} {n : Node P} {msg : PaxosPrepareMessage P}
    (h : n.Prepared self msg) : n.preparesFor msg.step msg.id ≠ [] := by
  obtain ⟨-, i, v, hevent⟩ := h
  have hmem : v ∈ n.preparesFor msg.step msg.id :=
    List.mem_filterMap.mpr ⟨_, hevent, by simp [Event.prepareFor?]⟩
  exact List.ne_nil_of_mem hmem

/-- A node has prepared no later step, and in its step no larger ID. -/
theorem Accounts.of_preparesFor {n : Node P} (h : n.Accounts) {step id : ℕ}
    (hne : n.preparesFor step id ≠ []) :
    step ≤ n.handler.step ∧ (step = n.handler.step → id ≤ n.handler.paxosID) := by
  obtain ⟨v, hv⟩ := List.exists_mem_of_ne_nil _ hne
  obtain ⟨e, he, hfor⟩ := List.mem_filterMap.mp hv
  cases e with
  | prepared i msg w =>
      rw [Event.prepareFor?, Option.ite_none_right_eq_some] at hfor
      obtain ⟨⟨rfl, rfl⟩, -⟩ := hfor
      exact h _ he
  | _ => cases hfor

theorem mem_quorumsFor {n : Node P} {step id : ℕ} {v : PaxosValue} :
    v ∈ n.quorumsFor step id ↔ .quorum step id v ∈ n.history := by
  rw [quorumsFor, List.mem_filterMap]
  constructor
  · rintro ⟨e, he, hfor⟩
    cases e with
    | quorum s i w =>
        rw [Event.quorumFor?, Option.ite_none_right_eq_some, Option.some.injEq] at hfor
        obtain ⟨⟨rfl, rfl⟩, rfl⟩ := hfor
        exact he
    | _ => cases hfor
  · intro he
    exact ⟨_, he, by rw [Event.quorumFor?, if_pos ⟨rfl, rfl⟩]⟩

theorem quorumsFor_mono {n n' : Node P} (hsub : n.history ⊆ n'.history) {step id : ℕ}
    {v : PaxosValue} (hv : v ∈ n.quorumsFor step id) : v ∈ n'.quorumsFor step id := by
  obtain ⟨e, he, hfor⟩ := List.mem_filterMap.mp hv
  exact List.mem_filterMap.mpr ⟨e, hsub he, hfor⟩

/-- Every quorum in the history has its threshold of promises, and the promise
counter of the current round counts promises not used by a quorum yet. -/
structure CountsPromises (conf : Configuration) (n : Node P) : Prop where
  quorum : ∀ step id,
    conf.threshold * (n.quorumsFor step id).length ≤ (n.promisesFor step id).length
  current : n.preparesFor n.handler.step n.handler.paxosID ≠ [] →
    n.handler.currentPhase = .phase1 →
    conf.threshold * (n.quorumsFor n.handler.step n.handler.paxosID).length +
      n.handler.promises ≤ (n.promisesFor n.handler.step n.handler.paxosID).length

section

variable {sha256 : Bytes → Bytes} {conf : Configuration} {self : P} {n n' : Node P}

theorem promisesFor_record (n : Node P) (es : List (Event P)) (step id : ℕ) :
    (n.record es).promisesFor step id =
      es.filterMap (Event.promiseFor? step id) ++ n.promisesFor step id := by
  simp [promisesFor]

/-- The counts when one more promise of the current round is counted. -/
theorem promisesFor_counted {r : Rumor P} {msg : PaxosPromiseMessage}
    (hstep : n.handler.step = msg.step) (hid : msg.id = n.handler.paxosID) (step id : ℕ) :
    (n.promisesFor step id).length ≤
        ((n.record [.countedPromise r msg]).promisesFor step id).length ∧
      ((n.record [.countedPromise r msg]).promisesFor n.handler.step
        n.handler.paxosID).length =
          (n.promisesFor n.handler.step n.handler.paxosID).length + 1 := by
  constructor
  · rw [promisesFor_record, List.length_append]
    exact Nat.le_add_left _ _
  · rw [promisesFor_record, List.length_append]
    simp [Event.promiseFor?, hstep, hid, Nat.add_comm]

/-- In a later step nothing is prepared yet. -/
theorem CountsPromises.leave (h : n.CountsPromises conf) (haccounts : n.Accounts)
    {px : PaxosNode} (hlt : n.handler.step < px.handler.step) :
    (n.withPaxos px).CountsPromises conf where
  quorum := h.quorum
  current := by
    intro hprepared
    have hle := (haccounts.of_preparesFor hprepared).1
    exact absurd hle (Nat.not_le.mpr hlt)

/-- A promise of the round is counted. -/
theorem CountsPromises.count (h : n.CountsPromises conf) {r : Rumor P}
    {msg : PaxosPromiseMessage} (hstep : n.handler.step = msg.step)
    (hid : msg.id = n.handler.paxosID)
    (hprepared : n.preparesFor n.handler.step n.handler.paxosID ≠ [])
    (hphase : n.handler.currentPhase = .phase1) {h' : PaxosHandler}
    (hstep' : h'.step = n.handler.step) (hid' : h'.paxosID = n.handler.paxosID)
    (hpromises : h'.promises = n.handler.promises + 1) :
    ((n.withHandler h').record [.countedPromise r msg]).CountsPromises conf where
  quorum step id := (h.quorum step id).trans (promisesFor_counted hstep hid step id).1
  current := by
    intro _ _
    have hcurrent := h.current hprepared hphase
    have heq := (promisesFor_counted (r := r) hstep hid 0 0).2
    change conf.threshold * (n.quorumsFor h'.step h'.paxosID).length + h'.promises ≤
      ((n.record [.countedPromise r msg]).promisesFor h'.step h'.paxosID).length
    rw [hstep', hid', hpromises]
    omega

/-- A quorum uses the promises counted in its round. -/
theorem CountsPromises.choose (h : n.CountsPromises conf) (hconf : n.handler.Configured conf)
    {r : Rumor P} {msg : PaxosPromiseMessage} {v : PaxosValue}
    (hstep : n.handler.step = msg.step) (hid : msg.id = n.handler.paxosID)
    (hprepared : n.preparesFor n.handler.step n.handler.paxosID ≠ [])
    (hphase : n.handler.currentPhase = .phase1)
    (hfull : n.handler.threshold ≤ n.handler.promises + 1) {h' : PaxosHandler}
    (hphase' : h'.currentPhase = .phase2) :
    ((n.withHandler h').record
      [.quorum n.handler.step n.handler.paxosID v, .countedPromise r msg]).CountsPromises
      conf where
  quorum := by
    intro step id
    obtain ⟨hle, heq⟩ := promisesFor_counted (r := r) hstep hid step id
    change conf.threshold * ((Event.quorum n.handler.step n.handler.paxosID v ::
      n.history).filterMap (Event.quorumFor? step id)).length ≤
      ((n.record [.countedPromise r msg]).promisesFor step id).length
    by_cases hround : n.handler.step = step ∧ n.handler.paxosID = id
    · obtain ⟨rfl, rfl⟩ := hround
      have hcurrent := h.current hprepared hphase
      rw [hconf.threshold] at hfull
      rw [heq, List.filterMap_cons_some (b := v) (by simp [Event.quorumFor?]),
        List.length_cons, Nat.mul_succ]
      change conf.threshold * (n.quorumsFor _ _).length + _ ≤ _
      omega
    · rw [List.filterMap_cons_none (by simp [Event.quorumFor?, hround])]
      exact (h.quorum step id).trans hle
  current := by
    intro _ hphase
    change h'.currentPhase = .phase1 at hphase
    rw [hphase'] at hphase
    cases hphase

variable [DecidableEq P]

/-- A job step keeps the counts if only promises of the current round are
counted. -/
theorem JobStep.countsPromises {j : Job P} {next : Next P} (h : n.CountsPromises conf)
    (hconf : n.handler.Configured conf) (haccounts : n.Accounts)
    (hround : n.OwnRound self j)
    (hprepared : ∀ r msg, j = .exec r → r.msg = .promise self msg →
      n.preparesFor msg.step msg.id ≠ [])
    (hjob : n.JobStep sha256 conf self j n' next) : n'.CountsPromises conf := by
  have hcounts : ∀ {r : Rumor P} {msg : PaxosPromiseMessage}, j = .exec r →
      r.msg = .promise self msg → n.handler.step = msg.step →
      n.handler.currentPhase = .phase1 → msg.id = n.handler.paxosID ∧
        n.preparesFor n.handler.step n.handler.paxosID ≠ [] := by
    intro r msg hj hmsg hstep hphase
    have hne := hprepared r msg hj hmsg
    subst hj
    obtain ⟨origin, sequence, m⟩ := r
    cases hmsg
    have hid : msg.id = n.handler.paxosID := hround rfl hstep hphase
    rw [← hstep, hid] at hne
    exact ⟨hid, hne⟩
  cases hjob with
  | counted r msg hmsg hlock hstep hphase =>
      obtain ⟨hid, hne⟩ := hcounts rfl hmsg hstep hphase
      exact h.count hstep hid hne hphase rfl rfl rfl
  | panics r msg err hmsg hlock hstep hphase =>
      obtain ⟨hid, hne⟩ := hcounts rfl hmsg hstep hphase
      exact h.count hstep hid hne hphase rfl rfl rfl
  | chosen r msg h' hmsg hlock hstep hphase _ hfull hh =>
      obtain ⟨hid, hne⟩ := hcounts rfl hmsg hstep hphase
      subst hh
      exact h.choose hconf hstep hid hne hphase hfull rfl
  | blocks r msg h' hmsg hlock hstep hphase _ hfull hh =>
      obtain ⟨hid, hne⟩ := hcounts rfl hmsg hstep hphase
      subst hh
      exact h.choose hconf hstep hid hne hphase hfull rfl
  | decided r msg block bs px hmsg hlock hstep hfull hblock hleave =>
      have hleft := h.leave haccounts hleave.step_lt
      exact ⟨hleft.quorum, hleft.current⟩
  | finished r msg bs px hmsg hlock hstep hfull hleave =>
      exact h.leave haccounts hleave.step_lt
  | _ => exact ⟨h.quorum, h.current⟩

end

/-! ## The channel of a round -/

/-- The values waiting in the promise channel are choices of the current round. -/
def Backed (n : Node P) : Prop :=
  ∀ v ∈ (n.handler.promiseChans n.handler.promiseChannel).buf,
    v ∈ n.quorumsFor n.handler.step n.handler.paxosID

/-- While the round of a call is the current one, its channel is the current one
and holds choices of the round, and what it is about to propose is one. -/
def OnTrack (n : Node P) : TagPc P → Prop
  | .promiseChan _ prep => n.Live prep → n.Backed
  | .sendPrepare _ prep ch _ =>
      n.Live prep → ch = n.handler.promiseChannel ∧ n.Backed
  | .awaitPromise _ prep ch =>
      n.Live prep → ch = n.handler.promiseChannel ∧ n.Backed
  | .propose _ prep v => n.Live prep → v ∈ n.quorumsFor n.handler.step n.handler.paxosID
  | _ => True

/-- A step which keeps the step and the ID of the handler keeps its channel, and
what waits there backed. -/
structure KeepsRound (n n' : Node P) : Prop where
  channel : n'.handler.promiseChannel = n.handler.promiseChannel
  backed : n.Backed → n'.Backed

/-- A call stays on track while other goroutines move. -/
theorem OnTrack.other {n n' : Node P} {self : P} {pc : TagPc P} (h : n.OnTrack pc)
    (hissued : n.IssuedCall self pc) (haccounts : n.Accounts)
    (hle : n.handler.Older n'.handler) (hsub : n.history ⊆ n'.history)
    (hkeeps : n'.handler.step = n.handler.step → n'.handler.paxosID = n.handler.paxosID →
      n.KeepsRound n') : n'.OnTrack pc := by
  -- a round that is current now was current before: its step and ID are not larger
  have hlive : ∀ {prep : PaxosPrepareMessage P}, n.Prepared self prep → n'.Live prep →
      n.Live prep ∧ n'.handler.step = n.handler.step ∧
        n'.handler.paxosID = n.handler.paxosID := by
    intro prep hprep hlive
    obtain ⟨hstep, hid⟩ := haccounts.of_preparesFor hprep.preparesFor_ne_nil
    obtain ⟨hstep', hid'⟩ := hlive
    rcases hle with hlt | ⟨heq, hpaxosID, -⟩
    · omega
    · have := hid (by omega)
      exact ⟨⟨by omega, by omega⟩, by omega, by omega⟩
  cases pc with
  | promiseChan start prep =>
      intro hprep
      obtain ⟨hold, hstep, hid⟩ := hlive hissued hprep
      exact (hkeeps hstep hid).backed (h hold)
  | sendPrepare start prep ch job =>
      intro hprep
      obtain ⟨hold, hstep, hid⟩ := hlive hissued hprep
      obtain ⟨hch, hbacked⟩ := h hold
      have hkeep := hkeeps hstep hid
      exact ⟨hch.trans hkeep.channel.symm, hkeep.backed hbacked⟩
  | awaitPromise start prep ch =>
      intro hprep
      obtain ⟨hold, hstep, hid⟩ := hlive hissued hprep
      obtain ⟨hch, hbacked⟩ := h hold
      have hkeep := hkeeps hstep hid
      exact ⟨hch.trans hkeep.channel.symm, hkeep.backed hbacked⟩
  | propose start prep v =>
      intro hprep
      obtain ⟨hold, hstep, hid⟩ := hlive hissued hprep
      rw [hstep, hid]
      exact quorumsFor_mono hsub (h hold)
  | _ => trivial

theorem OnTrack.withNext {n : Node P} {pc : TagPc P} (h : n.OnTrack pc) {j : Job P}
    (hj : pc.job? = some j) (next : Next P) : n.OnTrack (pc.withNext next) := by
  cases pc with
  | sendPrepare start prep ch job => cases next <;> first | exact h | trivial
  | sendPropose start msg ch job => cases next <;> trivial
  | _ => cases hj

theorem OnTrack.plain {n : Node P} {pc : TagPc P} (h : pc.Plain) : n.OnTrack pc := by
  cases pc <;> trivial

section

variable [DecidableEq P] {sha256 : Bytes → Bytes} {conf : Configuration} {self : P}
  {n n' : Node P}

omit [DecidableEq P] in
/-- A value sent on the current channel by a quorum of the round is backed. -/
theorem Backed.put {h' : PaxosHandler} {v : PaxosValue} {es : List (Event P)}
    (h : n.Backed) (hstep : h'.step = n.handler.step)
    (hid : h'.paxosID = n.handler.paxosID)
    (hchannel : h'.promiseChannel = n.handler.promiseChannel)
    (hchans : h'.promiseChans = n.handler.promiseChans)
    (hready : (h'.promiseChans h'.promiseChannel).Ready)
    (hv : .quorum n.handler.step n.handler.paxosID v ∈ es) :
    ((n.withHandler (h'.putPromise v hready)).record es).Backed := by
  intro w hw
  change w ∈ (Function.update h'.promiseChans h'.promiseChannel
    ((h'.promiseChans h'.promiseChannel).send v hready) h'.promiseChannel).buf at hw
  rw [Function.update_self, Chan.send_buf, List.mem_append, List.mem_singleton] at hw
  change w ∈ ((n.withHandler (h'.putPromise v hready)).record es).quorumsFor h'.step h'.paxosID
  rw [hstep, hid]
  rcases hw with hw | rfl
  · rw [hchannel, hchans] at hw
    exact quorumsFor_mono (List.subset_append_right _ _) (h w hw)
  · exact List.mem_filterMap.mpr
      ⟨_, List.mem_append_left _ hv, by simp [Event.quorumFor?]⟩

theorem JobStep.keepsRound {j : Job P} {next : Next P} (hsend : ∀ v, j ≠ .send v)
    (hunblocked : n.handler.Unblocked)
    (hjob : n.JobStep sha256 conf self j n' next)
    (hstep : n'.handler.step = n.handler.step) : n.KeepsRound n' := by
  cases hjob with
  | chosen r msg h' _ _ _ _ _ _ hh hready =>
      subst hh
      exact ⟨rfl, fun hbacked => hbacked.put rfl rfl rfl rfl hready List.mem_cons_self⟩
  | blocks r msg h' _ _ _ hphase _ _ hh hready =>
      subst hh
      exact absurd (hunblocked.ready hphase) hready
  | decided r msg block bs px _ _ _ _ _ hleave =>
      exact absurd hstep.symm (Nat.ne_of_lt hleave.step_lt)
  | finished r msg bs px _ _ _ _ hleave =>
      exact absurd hstep.symm (Nat.ne_of_lt hleave.step_lt)
  | sent v => exact absurd rfl (hsend v)
  | _ => exact ⟨rfl, fun hbacked => hbacked⟩

end

end Node

namespace TagCall

variable {conf : Configuration} {self : P} {n n' : Node P} {i : ℕ} {call : TagCall P}
  {c : Choice} {pc : TagPc P}

/-- An own step of a call keeps the counts. -/
theorem OwnStep.countsPromises (h : n.CountsPromises conf) (haccounts : n.Accounts)
    (hown : call.OwnStep conf self i n c n' pc) : n'.CountsPromises conf := by
  -- a larger ID is not prepared yet; with no peers the ID stays the same
  have hnext : (n.withHandler n.handler.nextID).CountsPromises conf := by
    refine ⟨h.quorum, fun hprepared => ?_⟩
    have hle := (haccounts.of_preparesFor hprepared).2 rfl
    have hsame : n.handler.paxosID + n.handler.nPeers = n.handler.paxosID := by
      change n.handler.paxosID + n.handler.nPeers ≤ n.handler.paxosID at hle
      omega
    change n.preparesFor n.handler.step (n.handler.paxosID + n.handler.nPeers) ≠ [] at hprepared
    change _ → conf.threshold *
      (n.quorumsFor n.handler.step (n.handler.paxosID + n.handler.nPeers)).length + _ ≤
      (n.promisesFor n.handler.step (n.handler.paxosID + n.handler.nPeers)).length
    rw [hsame] at hprepared ⊢
    exact h.current hprepared
  cases hown with
  | prepare start uniqID =>
      refine ⟨h.quorum, fun _ _ => ?_⟩
      exact h.quorum n.handler.step n.handler.paxosID
  | retryPrepare => exact hnext
  | retryPropose => exact hnext
  | recvPromise _ _ _ _ _ _ hrecv =>
      obtain ⟨c, hc, -, rfl⟩ := PaxosHandler.recvPromise_eq hrecv
      exact ⟨h.quorum, h.current⟩
  | recvValue _ _ _ _ _ hrecv =>
      obtain ⟨cs, hcs, rfl⟩ := PaxosHandler.recvValue_eq hrecv
      exact ⟨h.quorum, h.current⟩
  | _ => exact ⟨h.quorum, h.current⟩

theorem OwnStep.keepsRound (hown : call.OwnStep conf self i n c n' pc)
    (hid : n'.handler.paxosID = n.handler.paxosID) : n.KeepsRound n' := by
  have hnext : (n.withHandler n.handler.nextID).handler.paxosID = n.handler.paxosID →
      n.KeepsRound (n.withHandler n.handler.nextID) := by
    intro hid
    refine ⟨rfl, fun hbacked v hv => ?_⟩
    rw [hid]
    exact hbacked v hv
  cases hown with
  | retryPrepare => exact hnext hid
  | retryPropose => exact hnext hid
  | recvPromise start prep ch value h' _ hrecv =>
      obtain ⟨c, hc, hbuf, rfl⟩ := PaxosHandler.recvPromise_eq hrecv
      refine ⟨rfl, fun hbacked v hv => ?_⟩
      change v ∈ (Function.update n.handler.promiseChans ch c n.handler.promiseChannel).buf at hv
      by_cases hch : n.handler.promiseChannel = ch
      · rw [hch, Function.update_self] at hv
        refine hbacked v ?_
        rw [hch, hbuf]
        exact List.mem_cons_of_mem _ hv
      · rw [Function.update_of_ne hch] at hv
        exact hbacked v hv
  | recvValue _ _ _ _ _ hrecv =>
      obtain ⟨cs, hcs, rfl⟩ := PaxosHandler.recvValue_eq hrecv
      exact ⟨rfl, fun hbacked => hbacked⟩
  | _ => exact ⟨rfl, fun hbacked => hbacked⟩

/-- An own step keeps its call on track if a round starts with an empty
channel. -/
theorem OwnStep.onTrack (h : n.OnTrack call.pc)
    (hfresh : call.pc.AtPrepare →
      (n.handler.promiseChans n.handler.promiseChannel).buf = [])
    (hown : call.OwnStep conf self i n c n' pc) : n'.OnTrack pc := by
  cases hown with
  | quiet _ _ hquiet => exact Node.OnTrack.plain hquiet.plain
  | prepare start uniqID hpc =>
      intro _ v hv
      have hempty := hfresh (by rw [hpc]; trivial)
      change v ∈ (n.handler.promiseChans n.handler.promiseChannel).buf at hv
      rw [hempty] at hv
      cases hv
  | promiseChan start prep hpc =>
      rw [hpc] at h
      exact fun hlive => ⟨rfl, h hlive⟩
  | recvPromise start prep ch value h' hpc hrecv _ hnext =>
      obtain ⟨c, hc, hbuf, rfl⟩ := PaxosHandler.recvPromise_eq hrecv
      rw [hnext]
      split
      · trivial
      · rw [hpc] at h
        intro hlive
        obtain ⟨hch, hbacked⟩ := h hlive
        refine hbacked value ?_
        rw [← hch, hbuf]
        exact List.mem_cons_self
  | recvValue _ _ _ _ _ _ _ hnext =>
      rw [hnext]
      split <;> trivial
  | _ => trivial

end TagCall

/-! ## Proposals in a network -/

/-- Every peer counts the promises of its rounds, every call is on track and every
proposal is the choice of a quorum. -/
structure System.QuorumsBehind (conf : P → Configuration) (st : System P) : Prop where
  counts : ∀ p, (st.peers p).node.CountsPromises (conf p)
  calls : ∀ p (i : ℕ) call, (st.peers p).calls[i]? = some call →
    (st.peers p).node.OnTrack call.pc
  proposed : ∀ p, ∀ e ∈ (st.peers p).node.history, ∀ msg, e = .proposed msg →
    msg.value ∈ (st.peers p).node.quorumsFor msg.step msg.id

namespace System

section

variable {conf : P → Configuration} {st : System P} {p : P}

/-- A promise which a peer processes answers a prepare message of the peer. -/
theorem Provenance.preparesFor_ne_nil (hprov : st.Provenance) {r : Rumor P}
    {msg : PaxosPromiseMessage} (hr : st.Authentic r) (hmsg : r.msg = .promise p msg) :
    (st.peers p).node.preparesFor msg.step msg.id ≠ [] := by
  have hissued := hprov.rumors r.origin r.msg hr.mem
  rw [hmsg] at hissued
  obtain ⟨draft, v, hevent, rfl⟩ := hissued
  have hprepared : (st.peers p).node.Prepared p ⟨draft.step, draft.id, p⟩ :=
    hprov.events r.origin _ hevent
  exact hprepared.preparesFor_ne_nil

theorem mem_promisesFor {step id : ℕ} {x : Rumor P × PaxosPromiseMessage}
    {e : Event P} (hx : e.promiseFor? step id = some x) :
    e = .countedPromise x.1 x.2 ∧ x.2.step = step ∧ x.2.id = id := by
  cases e with
  | countedPromise r msg =>
      rw [Event.promiseFor?, Option.ite_none_right_eq_some, Option.some.injEq] at hx
      obtain ⟨hfor, rfl⟩ := hx
      exact ⟨rfl, hfor⟩
  | _ => cases hx

/-- The promises counted for a step and an ID come from distinct peers. -/
theorem nodup_promisesFor (hforge : st.NoForgery) (honce : (st.peers p).CountsOnce p)
    (hpromises : ∀ q, (st.peers q).PromisesOnce) (step id : ℕ) :
    (((st.peers p).node.promisesFor step id).map fun x => x.1.origin).Nodup := by
  have hnodup := honce.single.nodup
  rw [Node.countedRumors, List.nodup_iff_pairwise_ne, List.pairwise_filterMap] at hnodup
  rw [List.nodup_iff_pairwise_ne, List.pairwise_map, Node.promisesFor,
    List.pairwise_filterMap]
  refine hnodup.imp_of_mem ?_
  intro e e' he he' hne x hx y hy horigin
  obtain ⟨rfl, hstep, hid⟩ := mem_promisesFor hx
  obtain ⟨rfl, hstep', hid'⟩ := mem_promisesFor hy
  obtain ⟨⟨hpos, hrumor⟩, hmsg⟩ := hforge.events p _ he
  obtain ⟨⟨hpos', hrumor'⟩, hmsg'⟩ := hforge.events p _ he'
  rw [hmsg] at hrumor
  rw [hmsg', ← horigin] at hrumor'
  have hplace : x.1.sequence - 1 = y.1.sequence - 1 := by
    refine eq_of_nodup_filterMap (hpromises x.1.origin).nodup hrumor hrumor'
      (x := (step, id)) ?_ ?_
    · rw [Message.promiseID, hstep, hid]
    · rw [Message.promiseID, hstep', hid']
  exact hne _ rfl _ rfl (Prod.ext horigin (by dsimp only; omega))

/-- A choice of a quorum has counted promises of a threshold of distinct peers. -/
theorem exists_promises [DecidableEq P] (hforge : st.NoForgery)
    (honce : (st.peers p).CountsOnce p) (hpromises : ∀ q, (st.peers q).PromisesOnce)
    (hcounts : (st.peers p).node.CountsPromises (conf p)) {step id : ℕ} {v : PaxosValue}
    (hv : v ∈ (st.peers p).node.quorumsFor step id) :
    ∃ Q : Finset P, (conf p).threshold ≤ Q.card ∧
      ∀ q ∈ Q, ∃ x ∈ (st.peers p).node.promisesFor step id, x.1.origin = q := by
  refine ⟨(((st.peers p).node.promisesFor step id).map fun x => x.1.origin).toFinset,
    ?_, ?_⟩
  · rw [List.toFinset_card_of_nodup (nodup_promisesFor hforge honce hpromises step id),
      List.length_map]
    have hpos := List.length_pos_of_mem hv
    calc (conf p).threshold
        ≤ (conf p).threshold * ((st.peers p).node.quorumsFor step id).length :=
          Nat.le_mul_of_pos_right _ hpos
      _ ≤ ((st.peers p).node.promisesFor step id).length := hcounts.quorum step id
  · intro q hq
    rwa [List.mem_toFinset, List.mem_map] at hq

/-- A counted promise is a rumor of its origin. -/
theorem NoForgery.of_promisesFor (hforge : st.NoForgery) {step id : ℕ}
    {x : Rumor P × PaxosPromiseMessage} (hx : x ∈ (st.peers p).node.promisesFor step id) :
    .promise p x.2 ∈ (st.peers x.1.origin).node.rumors ∧ x.2.step = step ∧ x.2.id = id := by
  obtain ⟨e, he, hfor⟩ := List.mem_filterMap.mp hx
  obtain ⟨rfl, hstep, hid⟩ := mem_promisesFor hfor
  obtain ⟨hr, hmsg⟩ := hforge.events p _ he
  exact ⟨hmsg ▸ hr.mem, hstep, hid⟩

end

variable [DecidableEq P] {sha256 : Bytes → Bytes} {conf : P → Configuration}
  {st st' : System P} {a : Action P}

theorem QuorumsBehind.step (h : st.QuorumsBehind conf) (hconf : st.Configured conf)
    (hforge : st.NoForgery) (hprov : st.Provenance) (hwaits : st.NeverWaits)
    (hguard : st.CleanRounds a) (hstep : Step sha256 conf st a st') :
    st'.QuorumsBehind conf where
  counts := by
    refine hstep.forall_node (I := fun p n => n.CountsPromises (conf p)) h.counts ?_ ?_ ?_
    · intro p n n' hpaxos _ hhistory hn
      obtain ⟨hquorum, hcurrent⟩ := hn
      refine ⟨?_, ?_⟩ <;>
        simpa only [Node.handler, Node.quorumsFor, Node.promisesFor, Node.preparesFor,
          hpaxos, hhistory]
    · intro p t j n next ha hj _ hjob
      refine hjob.countsPromises (h.counts p) (hconf p) (hprov.accounts p)
        (hguard.ownRound.of_job ha hj) ?_
      rintro r msg rfl hmsg
      exact hprov.preparesFor_ne_nil (hforge.jobs p t _ hj) hmsg
    · intro p i c call n pc _ _ _ _ hown
      exact hown.countsPromises (h.counts p) (hprov.accounts p)
  calls := by
    have hkeeps : ∀ p, (st'.peers p).node.handler.step = (st.peers p).node.handler.step →
        (st'.peers p).node.handler.paxosID = (st.peers p).node.handler.paxosID →
        (st.peers p).node.KeepsRound (st'.peers p).node := by
      refine hstep.forall_node (I := fun p n =>
        n.handler.step = (st.peers p).node.handler.step →
        n.handler.paxosID = (st.peers p).node.handler.paxosID →
        (st.peers p).node.KeepsRound n) ?_ ?_ ?_ ?_
      · exact fun p _ _ => ⟨rfl, fun hbacked => hbacked⟩
      · intro p n n' hpaxos _ hhistory hn hstep hid
        rw [Node.handler, hpaxos] at hstep hid
        obtain ⟨hchannel, hbacked⟩ := hn hstep hid
        refine ⟨?_, ?_⟩
        · rwa [Node.handler, hpaxos]
        · simpa only [Node.Backed, Node.handler, Node.quorumsFor, hpaxos, hhistory]
            using hbacked
      · intro p t j n next _ hj _ hjob hstep _
        exact hjob.keepsRound (hwaits.noSend p t j hj) (hwaits.unblocked p) hstep
      · intro p i c call n pc _ _ _ _ hown _ hid
        exact hown.keepsRound hid
    refine hstep.forall_call (M := fun p call => (st'.peers p).node.OnTrack call.pc)
      (K := fun p call => (st.peers p).node.OnTrack call.pc ∧
        (st.peers p).node.IssuedCall p call.pc)
      (fun p i call hcall => ⟨h.calls p i call hcall, hprov.calls p i call hcall⟩)
      ?_ (fun _ _ _ => trivial) ?_ ?_
    · intro p call hcall
      exact hcall.1.other hcall.2 (hprov.accounts p) (hstep.older p)
        (hstep.history_suffix p).subset (hkeeps p)
    · intro p i call j n next _ _ hj hcall _ _
      exact (hcall.1.other hcall.2 (hprov.accounts p) (hstep.older p)
        (hstep.history_suffix p).subset (hkeeps p)).withNext hj next
    · intro p i c call n pc ha hcall hold _ hnode hown
      subst ha
      rw [hnode]
      exact hown.onTrack hold.1 (hguard.freshChannel.of_call hcall)
  proposed := by
    refine hstep.forall_node (I := fun _ n => ∀ e ∈ n.history, ∀ msg, e = .proposed msg →
      msg.value ∈ n.quorumsFor msg.step msg.id) h.proposed ?_ ?_ ?_
    · intro p n n' _ _ hhistory hn
      simpa only [Node.quorumsFor, hhistory] using hn
    · rintro p t j n next _ _ _ hjob _ he msg rfl
      exact Node.quorumsFor_mono hjob.history_suffix.subset
        (h.proposed p _ (hjob.of_proposed he) msg rfl)
    · rintro p i c call n pc ha hcall _ _ hown _ he msg rfl
      subst ha
      have hold : .proposed msg ∈ (st.peers p).node.history →
          msg.value ∈ n.quorumsFor msg.step msg.id := fun hmem =>
        Node.quorumsFor_mono hown.history_suffix.subset (h.proposed p _ hmem msg rfl)
      cases hown with
      | prepare =>
          rcases List.mem_cons.mp he with heq | hmem
          · cases heq
          · exact hold hmem
      | propose start prep value hpc =>
          rcases List.mem_cons.mp he with heq | hmem
          · -- the call proposes in the round it is on track for
            cases heq
            have hlive := hguard.sameRound.of_call hcall
            have htrack := h.calls p i call hcall
            rw [hpc] at hlive htrack
            exact htrack hlive
          · exact hold hmem
      | _ => exact hold he

end System

section

variable [DecidableEq P] {sha256 : Bytes → Bytes} {conf : P → Configuration}
  {C : System P → Action P → Prop} {st : System P}

theorem quorumsBehind_of_reachable (hC : ∀ st a, C st a → st.CleanRounds a)
    (h : (network sha256 conf).ReachableUnder C st) : st.QuorumsBehind conf := by
  refine network_invariant ?_ ?_ h
  · refine ⟨fun p => ⟨fun _ _ => le_rfl, fun hne => absurd rfl hne⟩, nofun, nofun⟩
  · intro st st' a hst hI hCa hstep
    exact hI.step (configured_of_reachable hst) (System.noForgery_of_reachable hst)
      (System.provenance_of_reachable hst)
      (neverWaits_of_reachable (fun st a hCa => (hC st a hCa).freshChannel) hst)
      (hC st a hCa) hstep

end

/-- In every run with in-order delivery in which only promises of the current
round are counted, rounds start with an empty promise channel and a call
proposes in the round it prepared, a threshold of distinct peers has promised
the step and the ID of every broadcast proposal. -/
theorem proposer_quorum [DecidableEq P] (sha256 : Bytes → Bytes)
    (conf : P → Configuration) (st : System P)
    (h : (network sha256 conf).ReachableUnder System.CleanRounds st) (p : P)
    (msg : PaxosProposeMessage) (hmsg : .propose msg ∈ (st.peers p).node.rumors) :
    ∃ Q : Finset P, (conf p).threshold ≤ Q.card ∧ ∀ q ∈ Q, ∃ promise,
      .promise p promise ∈ (st.peers q).node.rumors ∧
        promise.step = msg.step ∧ promise.id = msg.id := by
  have hbehind := quorumsBehind_of_reachable (fun _ _ hCa => hCa) h
  have hproposed : .proposed msg ∈ (st.peers p).node.history :=
    (System.provenance_of_reachable h).rumors p _ hmsg
  have hforge := System.noForgery_of_reachable h
  obtain ⟨Q, hcard, hQ⟩ := System.exists_promises hforge
    (countsOnce_of_reachable (fun _ _ hCa => hCa.inOrder) h p)
    (promisesOnce_of_reachable h) (hbehind.counts p)
    (hbehind.proposed p _ hproposed msg rfl)
  refine ⟨Q, hcard, fun q hq => ?_⟩
  obtain ⟨x, hx, rfl⟩ := hQ q hq
  exact ⟨x.2, hforge.of_promisesFor hx⟩

theorem proposer_quorum_of_tagRun :
    ∃ st, (network sha256 (majorityNetwork 2)).ReachableUnder System.CleanRounds st ∧
      ∃ Q : Finset (Fin 2), (majorityNetwork 2 0).threshold ≤ Q.card ∧ ∀ q ∈ Q, ∃ promise,
        .promise 0 promise ∈ (st.peers q).node.rumors ∧
          promise.step = 0 ∧ promise.id = 1 := by
  obtain ⟨st, hst, hmsg⟩ := TransitionSystem.exists_of_replay
    (S := network sha256 (majorityNetwork 2)) System.CleanRounds Action.tagRun
    (fun st => .propose ⟨0, 1, ⟨"id", "file", "meta"⟩⟩ ∈ (st.peers 0).node.rumors)
    (by decide +kernel)
  exact ⟨st, hst, proposer_quorum _ _ st hst 0 _ hmsg⟩

/-- A promise for ID 1 arrives after the ticker has started the round of ID 3 and
is counted as a second promise for it; peer 1 has not promised ID 3. -/
theorem proposer_without_quorum :
    ∃ st, (network sha256 (majorityNetwork 2)).ReachableUnder System.InOrder st ∧
      ∃ msg, .propose msg ∈ (st.peers 0).node.rumors ∧
        ¬ ∃ Q : Finset (Fin 2), (majorityNetwork 2 0).threshold ≤ Q.card ∧
          ∀ q ∈ Q, ∃ promise, .promise 0 promise ∈ (st.peers q).node.rumors ∧
            promise.step = msg.step ∧ promise.id = msg.id := by
  obtain ⟨st, hst, hmsg, hone⟩ := TransitionSystem.exists_of_replay
    (S := network sha256 (majorityNetwork 2)) System.InOrder
    (.tag 0 "file" "meta" :: Action.opens 0 0 "id" ++ Action.handles 1 0 1 4 ++
      Action.retries 0 0 "id'" ++ Action.handles 0 1 1 1 ++
      .call 0 0 .recv :: Action.steps 0 0 3)
    (fun st => .propose ⟨0, 3, ⟨"id'", "file", "meta"⟩⟩ ∈ (st.peers 0).node.rumors ∧
      (st.peers 1).node.rumors = [.promise 0 ⟨0, 1, 0, none⟩]) (by decide +kernel)
  refine ⟨st, hst, _, hmsg, ?_⟩
  rintro ⟨Q, hcard, hQ⟩
  have hsub : Q ⊆ {0} := by
    intro q hq
    rw [Finset.mem_singleton]
    by_contra hne
    obtain rfl : q = 1 := by omega
    obtain ⟨promise, hpromise, -, hid⟩ := hQ 1 hq
    rw [hone, List.mem_singleton] at hpromise
    cases hpromise
    cases hid
  have := hcard.trans (Finset.card_le_card hsub)
  exact absurd this (by decide)

end Minotor
