import Minotor.Network.Provenance
import Minotor.Network.Guards

/-!
# One value per proposal number

The IDs of different peers differ modulo the number of peers.  A peer with one
`Tag` call at a time proposes an ID at most once in a step, as long as no step
change falls between the two phases of a call: after a proposal the next one
needs a larger ID or an instance of a later step.
-/

namespace Minotor

variable {P : Type*}

/-! ## Own IDs -/

/-- The peers have the distinct IDs 1 to `n`, and all count `n` peers. -/
structure Numbered (n : ℕ) (conf : P → Configuration) : Prop where
  totalPeers : ∀ p, (conf p).totalPeers = n
  injective : ∀ p q, (conf p).paxosID = (conf q).paxosID → p = q
  pos : ∀ p, 1 ≤ (conf p).paxosID
  le : ∀ p, (conf p).paxosID ≤ n

theorem numbered_majority (n : ℕ) : Numbered n (majorityNetwork n) where
  totalPeers _ := rfl
  injective _ _ h := Fin.ext (Nat.succ_injective h)
  pos p := Nat.succ_pos p
  le p := p.isLt

/-- The ID is one which `nextID` reaches from the ID of the configuration. -/
def Configuration.OwnID (conf : Configuration) (id : ℕ) : Prop :=
  ∃ k, id = conf.paxosID + k * conf.totalPeers

theorem Configuration.OwnID.next {conf : Configuration} {id : ℕ} (h : conf.OwnID id) :
    conf.OwnID (id + conf.totalPeers) := by
  obtain ⟨k, rfl⟩ := h
  exact ⟨k + 1, by rw [Nat.add_mul, Nat.one_mul, Nat.add_assoc]⟩

/-- No ID belongs to two peers. -/
theorem Numbered.eq_of_ownID {n : ℕ} {conf : P → Configuration} (h : Numbered n conf)
    {p q : P} {id : ℕ} (hp : (conf p).OwnID id) (hq : (conf q).OwnID id) : p = q := by
  obtain ⟨k, hk⟩ := hp
  obtain ⟨l, hl⟩ := hq
  rw [h.totalPeers] at hk hl
  -- one less than the configured ID is the remainder of one less than the ID
  have hrem : ∀ {a k : ℕ}, 1 ≤ a → a ≤ n → id = a + k * n → (id - 1) % n = a - 1 := by
    intro a k hpos hle hid
    rw [hid, show a + k * n - 1 = a - 1 + k * n by omega, Nat.add_mul_mod_self_right]
    exact Nat.mod_eq_of_lt (by omega)
  have hrem_p := hrem (h.pos p) (h.le p) hk
  have hrem_q := hrem (h.pos q) (h.le q) hl
  have hpos_p := h.pos p
  have hpos_q := h.pos q
  exact h.injective p q (by omega)

/-- The ID of a prepare or a propose message is one's own. -/
def Event.OwnID (conf : Configuration) : Event P → Prop
  | .prepared _ msg _ => conf.OwnID msg.id
  | .proposed msg => conf.OwnID msg.id
  | _ => True

/-- A node uses only its own IDs. -/
structure Node.OwnIDs (conf : Configuration) (n : Node P) : Prop where
  paxosID : conf.OwnID n.handler.paxosID
  events : ∀ e ∈ n.history, e.OwnID conf

section

variable [DecidableEq P] {sha256 : Bytes → Bytes} {conf : Configuration} {self : P}
  {n n' : Node P}

theorem Node.JobStep.ownIDs {j : Job P} {next : Next P} (h : n.OwnIDs conf)
    (hjob : n.JobStep sha256 conf self j n' next) : n'.OwnIDs conf := by
  have hadvance : ∀ {m : TLCMap} {block : BlockchainBlock} {bs : List BlockchainBlock}
      {px : PaxosNode}, n.paxos.LeavesStep conf m block bs px →
      conf.OwnID px.handler.paxosID := by
    intro m block bs px hleave
    rw [hleave.handler]
    exact ⟨0, by simp⟩
  cases hjob with
  | promised => exact ⟨h.paxosID, List.forall_mem_cons.mpr ⟨trivial, h.events⟩⟩
  | accepted => exact ⟨h.paxosID, List.forall_mem_cons.mpr ⟨trivial, h.events⟩⟩
  | counted => exact ⟨h.paxosID, List.forall_mem_cons.mpr ⟨trivial, h.events⟩⟩
  | chosen r msg h' _ _ _ _ _ _ hh =>
      subst hh
      exact ⟨h.paxosID, List.forall_mem_cons.mpr
        ⟨trivial, List.forall_mem_cons.mpr ⟨trivial, h.events⟩⟩⟩
  | blocks r msg h' _ _ _ _ _ _ hh =>
      subst hh
      exact ⟨h.paxosID, List.forall_mem_cons.mpr
        ⟨trivial, List.forall_mem_cons.mpr ⟨trivial, h.events⟩⟩⟩
  | panics => exact ⟨h.paxosID, List.forall_mem_cons.mpr ⟨trivial, h.events⟩⟩
  | countedAccept => exact ⟨h.paxosID, List.forall_mem_cons.mpr ⟨trivial, h.events⟩⟩
  | decided _ _ _ _ _ _ _ _ _ _ hleave =>
      exact ⟨hadvance hleave, List.forall_mem_cons.mpr
        ⟨trivial, List.forall_mem_cons.mpr ⟨trivial, h.events⟩⟩⟩
  | finished _ _ _ _ _ _ _ _ hleave => exact ⟨hadvance hleave, h.events⟩
  | _ => exact ⟨h.paxosID, h.events⟩

omit [DecidableEq P] in
theorem TagCall.OwnStep.ownIDs {i : ℕ} {call : TagCall P} {c : Choice} {pc : TagPc P}
    (h : n.OwnIDs conf) (hconf : n.handler.Configured conf)
    (hown : call.OwnStep conf self i n c n' pc) : n'.OwnIDs conf := by
  have hnext : conf.OwnID n.handler.nextID.paxosID := by
    change conf.OwnID (n.handler.paxosID + n.handler.nPeers)
    rw [hconf.nPeers]
    exact h.paxosID.next
  cases hown with
  | prepare => exact ⟨h.paxosID, List.forall_mem_cons.mpr ⟨h.paxosID, h.events⟩⟩
  | propose => exact ⟨h.paxosID, List.forall_mem_cons.mpr ⟨h.paxosID, h.events⟩⟩
  | retryPrepare => exact ⟨hnext, h.events⟩
  | retryPropose => exact ⟨hnext, h.events⟩
  | recvPromise _ _ _ _ _ _ hrecv =>
      obtain ⟨c, hc, -, rfl⟩ := PaxosHandler.recvPromise_eq hrecv
      exact ⟨h.paxosID, h.events⟩
  | recvValue _ _ _ _ _ hrecv =>
      obtain ⟨cs, hcs, rfl⟩ := PaxosHandler.recvValue_eq hrecv
      exact ⟨h.paxosID, h.events⟩
  | _ => exact ⟨h.paxosID, h.events⟩

end

theorem ownIDs_of_reachable [DecidableEq P] {sha256 : Bytes → Bytes}
    {conf : P → Configuration} {C : System P → Action P → Prop} {st : System P}
    (h : (network sha256 conf).ReachableUnder C st) (p : P) :
    (st.peers p).node.OwnIDs (conf p) := by
  revert p
  refine network_invariant (I := fun st => ∀ p, (st.peers p).node.OwnIDs (conf p)) ?_ ?_ h
  · exact fun p => ⟨⟨0, by simp [System.initial, Peer.new, Node.new, newPaxosHandler]⟩, nofun⟩
  · intro st st' a hst hI _ hstep
    refine hstep.forall_node (I := fun p n => n.OwnIDs (conf p)) hI ?_ ?_ ?_
    · intro p n n' hpaxos _ hhistory hn
      refine ⟨?_, ?_⟩
      · rw [Node.handler, hpaxos]
        exact hn.paxosID
      · rw [hhistory]
        exact hn.events
    · intro p t j n next _ _ _ hjob
      exact hjob.ownIDs (hI p)
    · intro p i c call n pc _ _ _ _ hown
      exact hown.ownIDs (hI p) (configured_of_reachable hst p)

/-! ## One proposal for an ID -/

/-- Nothing was proposed with the current ID in the current step. -/
def Node.Unproposed (n : Node P) : Prop :=
  ∀ msg, .proposed msg ∈ n.history → msg.step = n.handler.step →
    msg.id < n.handler.paxosID

theorem TagPc.IsReturned.exists_eq {pc : TagPc P} (h : pc.IsReturned) :
    ∃ err, pc = .returned err := by
  cases pc with
  | returned err => exact ⟨err, rfl⟩
  | _ => exact h.elim

/-- The program points of a call between the start of its instance and its
proposal. -/
def TagPc.BeforePropose : TagPc P → Prop
  | .readStart | .readStep _ | .lookupAgain | .prepare _ | .promiseChan _ _ => True
  | .sendPrepare .. | .awaitPromise .. | .retryPrepare _ | .propose .. => True
  | _ => False

theorem TagPc.BeforePropose.of_withNext {pc : TagPc P} {next : Next P} {j : Job P}
    (h : (pc.withNext next).BeforePropose) (hj : pc.job? = some j) : pc.BeforePropose := by
  cases pc with
  | sendPrepare start prep ch job => trivial
  | sendPropose start msg ch job => cases next <;> exact h.elim
  | _ => cases hj

/-- After its prepare message has been processed in the current step, the
instance of a call is running. -/
def Node.Underway (self : P) (n : Node P) : TagPc P → Prop
  | .sendPrepare _ prep _ job =>
      job = .broadcast (.prepare prep) ∨ (∃ k, job = .exec ⟨self, k, .prepare prep⟩) ∨
        (prep.step = n.handler.step → n.handler.running = true)
  | .awaitPromise _ prep _ => prep.step = n.handler.step → n.handler.running = true
  | .propose _ prep _ => prep.step = n.handler.step → n.handler.running = true
  | _ => True

/-- A peer proposes an ID once in a step: a proposal keeps the instance running,
and the call which runs an instance has nothing proposed yet. -/
structure Peer.ProposesOnce (p : P) (peer : Peer P) : Prop where
  idle : peer.node.handler.running = false → peer.node.Unproposed
  promised : peer.node.handler.maxID ≠ 0 → peer.node.handler.running = true
  before : ∀ (i : ℕ) call, peer.calls[i]? = some call → call.pc.BeforePropose →
    peer.node.Unproposed
  underway : ∀ (i : ℕ) call, peer.calls[i]? = some call → peer.node.Underway p call.pc
  single : ∀ (i k : ℕ) call call', peer.calls[i]? = some call →
    peer.calls[k]? = some call' → ¬ call.pc.IsReturned → ¬ call'.pc.IsReturned → i = k
  once : ∀ msg msg', .proposed msg ∈ peer.node.history →
    .proposed msg' ∈ peer.node.history → msg.step = msg'.step → msg.id = msg'.id →
    msg = msg'

section

variable {n n' : Node P} {self : P}

/-- Nothing is proposed by moving to a larger ID or a later step. -/
theorem Node.Unproposed.mono (h : n.Unproposed) (haccounts : n.Accounts)
    (hle : n.handler.Older n'.handler)
    (hproposed : ∀ msg, .proposed msg ∈ n'.history → .proposed msg ∈ n.history) :
    n'.Unproposed := by
  intro msg hmsg hstep
  have hold := hproposed msg hmsg
  have hupto : msg.step ≤ n.handler.step := (haccounts _ hold).1
  rcases hle with hlt | ⟨heq, hid, -⟩
  · omega
  · exact (h msg hold (hstep.trans heq.symm)).trans_le hid

/-- After `nextID` nothing is proposed with the new ID. -/
theorem Node.Accounts.unproposed_nextID (h : n.Accounts) (hpos : 0 < n.handler.nPeers) :
    (n.withHandler n.handler.nextID).Unproposed := by
  intro msg hmsg hstep
  have hle : msg.id ≤ n.handler.paxosID := (h _ hmsg).2 hstep
  change msg.id < n.handler.paxosID + n.handler.nPeers
  omega

/-- In a later step nothing is proposed yet. -/
theorem Node.Accounts.unproposed_later (h : n.Accounts)
    (hlt : n.handler.step < n'.handler.step)
    (hproposed : ∀ msg, .proposed msg ∈ n'.history → .proposed msg ∈ n.history) :
    n'.Unproposed := by
  intro msg hmsg hstep
  have hupto : msg.step ≤ n.handler.step := (h _ (hproposed msg hmsg)).1
  omega

/-- If an instance runs in the step of a prepare message, it still does while the
step lasts. -/
theorem Node.Prepared.running {prep : PaxosPrepareMessage P} (hprep : n.Prepared self prep)
    (haccounts : n.Accounts) (hle : n.handler.step ≤ n'.handler.step)
    (hrunning : n'.handler.step = n.handler.step → n.handler.running = true →
      n'.handler.running = true)
    (h : prep.step = n.handler.step → n.handler.running = true)
    (hstep : prep.step = n'.handler.step) : n'.handler.running = true := by
  obtain ⟨-, i, v, hevent⟩ := hprep
  have hupto : prep.step ≤ n.handler.step := (haccounts _ hevent).1
  exact hrunning (by omega) (h (by omega))

/-- A call stays underway while the instance of its step runs. -/
theorem Node.Underway.mono {pc : TagPc P} (h : n.Underway self pc)
    (hprep : n.IssuedCall self pc) (haccounts : n.Accounts)
    (hle : n.handler.step ≤ n'.handler.step)
    (hrunning : n'.handler.step = n.handler.step → n.handler.running = true →
      n'.handler.running = true) : n'.Underway self pc := by
  cases pc with
  | sendPrepare start prep ch job =>
      rcases h with hjob | hjob | hold
      · exact .inl hjob
      · exact .inr (.inl hjob)
      · exact .inr (.inr (Node.Prepared.running hprep haccounts hle hrunning hold))
  | awaitPromise start prep ch => exact Node.Prepared.running hprep haccounts hle hrunning h
  | propose start prep v => exact Node.Prepared.running hprep haccounts hle hrunning h
  | _ => trivial

/-- Nodes which differ in their flags at most. -/
theorem Node.Unproposed.congr (h : n.Unproposed) (hpaxos : n'.paxos = n.paxos)
    (hhistory : n'.history = n.history) : n'.Unproposed := by
  simpa only [Node.Unproposed, Node.handler, hpaxos, hhistory] using h

theorem Node.Underway.congr {pc : TagPc P} (h : n.Underway self pc)
    (hpaxos : n'.paxos = n.paxos) : n'.Underway self pc := by
  cases pc with
  | sendPrepare start prep ch job => simpa only [Node.Underway, Node.handler, hpaxos] using h
  | awaitPromise start prep ch => simpa only [Node.Underway, Node.handler, hpaxos] using h
  | propose start prep v => simpa only [Node.Underway, Node.handler, hpaxos] using h
  | _ => trivial

end

section

variable [DecidableEq P] {sha256 : Bytes → Bytes} {conf : Configuration} {self : P}
  {n n' : Node P}

theorem Node.JobStep.running {j : Job P} {next : Next P}
    (hjob : n.JobStep sha256 conf self j n' next)
    (hstep : n'.handler.step = n.handler.step) (hrunning : n.handler.running = true) :
    n'.handler.running = true := by
  cases hjob with
  | chosen r msg h' _ _ _ _ _ _ hh =>
      subst hh
      exact hrunning
  | blocks r msg h' _ _ _ _ _ _ hh =>
      subst hh
      exact hrunning
  | decided r msg block bs px _ _ _ _ _ hleave =>
      exact absurd hstep.symm (Nat.ne_of_lt hleave.step_lt)
  | finished r msg bs px _ _ _ _ hleave =>
      exact absurd hstep.symm (Nat.ne_of_lt hleave.step_lt)
  | promised => rfl
  | accepted => rfl
  | countedAccept => rfl
  | buffered r msg =>
      change (if _ then _ else _) = true
      split
      · rfl
      · exact hrunning
  | _ => exact hrunning

/-- A promised ID keeps the instance running. -/
theorem Node.JobStep.promised_running {j : Job P} {next : Next P}
    (h : n.handler.maxID ≠ 0 → n.handler.running = true)
    (hjob : n.JobStep sha256 conf self j n' next) (hmax : n'.handler.maxID ≠ 0) :
    n'.handler.running = true := by
  have hleft : ∀ {m : TLCMap} {block : BlockchainBlock} {bs : List BlockchainBlock}
      {px : PaxosNode}, n.paxos.LeavesStep conf m block bs px → px.handler.maxID = 0 := by
    intro m block bs px hleave
    rw [hleave.handler]
    rfl
  cases hjob with
  | chosen r msg h' _ _ _ _ _ _ hh =>
      subst hh
      exact h hmax
  | blocks r msg h' _ _ _ _ _ _ hh =>
      subst hh
      exact h hmax
  | decided _ _ _ _ _ _ _ _ _ _ hleave => exact absurd (hleft hleave) hmax
  | finished _ _ _ _ _ _ _ _ hleave => exact absurd (hleft hleave) hmax
  | promised => rfl
  | accepted => rfl
  | countedAccept => rfl
  | buffered r msg =>
      change (if _ then _ else _) = true
      split
      · rfl
      · exact h hmax
  | _ => exact h hmax

/-- Processing one's own prepare message leaves its instance running. -/
theorem Node.JobStep.underway {j : Job P} {next : Next P} {pc : TagPc P}
    (h : n.Underway self pc) (hprep : n.IssuedCall self pc) (haccounts : n.Accounts)
    (hpos : ∀ prep, n.Prepared self prep → 1 ≤ prep.id)
    (hmax : n.handler.maxID ≠ 0 → n.handler.running = true)
    (hj : pc.job? = some j) (hjob : n.JobStep sha256 conf self j n' next) :
    n'.Underway self (pc.withNext next) := by
  cases pc with
  | sendPrepare start prep ch job =>
      cases hj
      rcases h with rfl | ⟨k, rfl⟩ | hrunning
      · -- the message is appended to the own rumors
        cases hjob with
        | broadcast msg => exact .inr (.inl ⟨_, rfl⟩)
      · -- and then processed
        cases hjob with
        | ignored r hignores =>
            rcases hignores with hstep | hid
            · exact fun heq => absurd heq.symm hstep
            · intro _
              have := hpos prep hprep
              exact hmax (by omega)
        | promised r msg hmsg => exact .inr (.inr fun _ => rfl)
        | accepted r msg hmsg => cases hmsg
        | counted r msg hmsg => cases hmsg
        | chosen r msg h' hmsg => cases hmsg
        | blocks r msg h' hmsg => cases hmsg
        | panics r msg err hmsg => cases hmsg
        | countedAccept r msg hmsg => cases hmsg
        | decided r msg block bs px hmsg => cases hmsg
        | buffered r msg hmsg => cases hmsg
        | finished r msg bs px hmsg => cases hmsg
      · have hnew : prep.step = n'.handler.step → n'.handler.running = true :=
          Node.Prepared.running hprep haccounts hjob.older.step_le hjob.running hrunning
        cases next with
        | job j' => exact .inr (.inr hnew)
        | done => exact hnew
        | failed err => trivial
  | sendPropose start msg ch job => cases next <;> trivial
  | _ => cases hj

/-- A job step keeps the peer proposing once. -/
theorem Peer.ProposesOnce.job {peer : Peer P} (h : peer.ProposesOnce self)
    (haccounts : peer.node.Accounts)
    (hissued : ∀ (i : ℕ) call, peer.calls[i]? = some call →
      peer.node.IssuedCall self call.pc)
    (hpos : ∀ prep, peer.node.Prepared self prep → 1 ≤ prep.id)
    {t : Peer.Thread} {j : Job P} {next : Next P} (hj : peer.job? t = some j)
    (hjob : peer.node.JobStep sha256 conf self j n next) :
    (peer.afterJob t n next).ProposesOnce self := by
  have hagrees := Peer.afterJob_agrees peer n t next
  have hproposed : ∀ msg, .proposed msg ∈ n.history → .proposed msg ∈ peer.node.history :=
    fun msg hmsg => hjob.of_proposed hmsg
  have hmono : peer.node.Unproposed → (peer.afterJob t n next).node.Unproposed := fun hnone =>
    (hnone.mono haccounts hjob.older hproposed).congr hagrees.paxos hagrees.history
  have hcalljob : ∀ {i : ℕ} {call : TagCall P}, peer.calls[i]? = some call → t = .call i →
      call.pc.job? = some j := by
    rintro i call hcall rfl
    rw [Peer.job?, hcall] at hj
    exact hj
  have hreturned : ∀ {i : ℕ} {call : TagCall P},
      (peer.afterJob t n next).calls[i]? = some call → ¬ call.pc.IsReturned →
      ∃ old, peer.calls[i]? = some old ∧ ¬ old.pc.IsReturned := by
    intro i call hcall hcurrent
    obtain ⟨old, hold, rfl⟩ := Peer.getElem?_afterJob hcall
    refine ⟨old, hold, fun hret => ?_⟩
    split at hcurrent
    · next ht =>
        have holdjob := hcalljob hold ht
        obtain ⟨err, hpc⟩ := hret.exists_eq
        rw [hpc] at holdjob
        cases holdjob
    · exact hcurrent hret
  refine ⟨?_, ?_, ?_, ?_, ?_, ?_⟩
  · intro hidle
    rw [Node.handler, hagrees.paxos] at hidle
    rcases hjob.older with hlt | ⟨heq, -⟩
    · exact (haccounts.unproposed_later hlt hproposed).congr hagrees.paxos hagrees.history
    · refine hmono (h.idle (Bool.eq_false_of_not_eq_true fun hrunning => ?_))
      have := hjob.running heq.symm hrunning
      rw [Node.handler, hidle] at this
      cases this
  · intro hmax
    rw [Node.handler, hagrees.paxos] at hmax ⊢
    exact hjob.promised_running h.promised hmax
  · intro i call hcall hbefore
    obtain ⟨old, hold, rfl⟩ := Peer.getElem?_afterJob hcall
    split at hbefore
    · next ht => exact hmono (h.before i old hold (hbefore.of_withNext (hcalljob hold ht)))
    · exact hmono (h.before i old hold hbefore)
  · intro i call hcall
    obtain ⟨old, hold, rfl⟩ := Peer.getElem?_afterJob hcall
    split
    · next ht =>
        exact (Node.JobStep.underway (h.underway i old hold) (hissued i old hold) haccounts
          hpos h.promised (hcalljob hold ht) hjob).congr hagrees.paxos
    · exact ((h.underway i old hold).mono (hissued i old hold) haccounts
        hjob.older.step_le hjob.running).congr hagrees.paxos
  · intro i k call call' hcall hcall' hcurrent hcurrent'
    obtain ⟨old, hold, hnot⟩ := hreturned hcall hcurrent
    obtain ⟨old', hold', hnot'⟩ := hreturned hcall' hcurrent'
    exact h.single i k old old' hold hold' hnot hnot'
  · intro msg msg' hmsg hmsg'
    rw [hagrees.history] at hmsg hmsg'
    exact h.once msg msg' (hproposed msg hmsg) (hproposed msg' hmsg')

omit [DecidableEq P] in
/-- Only `createProposeMessage` records a proposal. -/
theorem TagCall.OwnStep.of_proposed {i : ℕ} {call : TagCall P} {c : Choice}
    {pc : TagPc P} (hown : call.OwnStep conf self i n c n' pc)
    (hpc : ∀ start prep v, call.pc ≠ .propose start prep v) {msg : PaxosProposeMessage}
    (hmem : .proposed msg ∈ n'.history) : .proposed msg ∈ n.history := by
  cases hown with
  | prepare start uniqID =>
      rcases List.mem_cons.mp hmem with heq | hmem
      · cases heq
      · exact hmem
  | propose start prep v h => exact absurd h (hpc start prep v)
  | _ => exact hmem

omit [DecidableEq P] in
/-- A call is before its proposal with nothing proposed yet. -/
theorem TagCall.OwnStep.before {i : ℕ} {call : TagCall P} {c : Choice} {pc : TagPc P}
    (hown : call.OwnStep conf self i n c n' pc) (haccounts : n.Accounts)
    (hpeers : 0 < n.handler.nPeers) (hidle : n.handler.running = false → n.Unproposed)
    (hbefore : call.pc.BeforePropose → n.Unproposed)
    (hpc : ∀ start prep v, call.pc ≠ .propose start prep v) (h : pc.BeforePropose) :
    n'.Unproposed := by
  have hmono : n.Unproposed → n'.Unproposed := fun hnone =>
    hnone.mono haccounts hown.older fun _ hmsg => hown.of_proposed hpc hmsg
  cases hown with
  | quiet _ _ hquiet =>
      cases hquiet with
      | start hpc => exact hmono (hbefore (by rw [hpc]; trivial))
      | sameStep start hpc => exact hmono (hbefore (by rw [hpc]; trivial))
      | newStep start hpc => exact hmono (hbefore (by rw [hpc]; trivial))
      | tickPrepare start prep ch hpc => exact hmono (hbefore (by rw [hpc]; trivial))
      | _ => exact h.elim
  | initInstance _ _ hrunning => exact hmono (hidle hrunning)
  | prepare start uniqID hpc => exact hmono (hbefore (by rw [hpc]; trivial))
  | promiseChan start prep hpc => exact hmono (hbefore (by rw [hpc]; trivial))
  | recvPromise start prep ch value h' hpc => exact hmono (hbefore (by rw [hpc]; trivial))
  | retryPrepare start hpc => exact hmono (hbefore (by rw [hpc]; trivial))
  | retryPropose => exact haccounts.unproposed_nextID hpeers
  | recvValue _ _ _ _ _ _ _ hnext =>
      rw [hnext] at h
      split at h <;> exact h.elim
  | propose => exact h.elim
  | valueChan => exact h.elim
  | setName => exact h.elim

omit [DecidableEq P] in
theorem TagCall.OwnStep.underway {i : ℕ} {call : TagCall P} {c : Choice} {pc : TagPc P}
    (hown : call.OwnStep conf self i n c n' pc) (h : n.Underway self call.pc) :
    n'.Underway self pc := by
  cases hown with
  | quiet _ _ hquiet => cases hquiet <;> trivial
  | promiseChan => exact .inl rfl
  | recvPromise start prep ch value h' hpc hrecv _ hnext =>
      obtain ⟨c, hc, -, rfl⟩ := PaxosHandler.recvPromise_eq hrecv
      rw [hpc] at h
      rw [hnext]
      split
      · trivial
      · exact h
  | recvValue _ _ _ _ _ _ _ hnext =>
      rw [hnext]
      split <;> trivial
  | _ => trivial

omit [DecidableEq P] in
theorem TagCall.OwnStep.not_isReturned {i : ℕ} {call : TagCall P} {c : Choice}
    {pc : TagPc P} (hown : call.OwnStep conf self i n c n' pc) : ¬ call.pc.IsReturned := by
  intro hret
  obtain ⟨err, hpc⟩ := hret.exists_eq
  exact hown.ne_returned err hpc

omit [DecidableEq P] in
/-- While a call runs, the others have returned. -/
theorem Peer.ProposesOnce.others_returned {peer : Peer P} (h : peer.ProposesOnce self)
    {i : ℕ} {call : TagCall P} (hcall : peer.calls[i]? = some call)
    (hactive : ¬ call.pc.IsReturned) {k : ℕ} {other : TagCall P}
    (hother : peer.calls[k]? = some other) (hne : k ≠ i) : other.pc.IsReturned := by
  by_contra hnot
  exact hne (h.single k i other call hother hcall hnot hactive)

omit [DecidableEq P] in
/-- After a step of the running call it is still the only one which may run. -/
theorem Peer.ProposesOnce.single_movePc {peer : Peer P} (h : peer.ProposesOnce self)
    {i : ℕ} {call : TagCall P} (hcall : peer.calls[i]? = some call)
    (hactive : ¬ call.pc.IsReturned) (n : Node P) (pc : TagPc P) {k l : ℕ}
    {x y : TagCall P} (hx : (peer.movePc n i fun _ => pc).calls[k]? = some x)
    (hy : (peer.movePc n i fun _ => pc).calls[l]? = some y) (hnot : ¬ x.pc.IsReturned)
    (hnot' : ¬ y.pc.IsReturned) : k = l := by
  have hi : ∀ {m : ℕ} {z : TagCall P},
      (peer.movePc n i fun _ => pc).calls[m]? = some z → ¬ z.pc.IsReturned → m = i := by
    intro m z hz hcurrent
    by_contra hne
    obtain ⟨old, hold, rfl⟩ := Peer.getElem?_movePc hz
    rw [if_neg hne] at hcurrent
    exact hcurrent (h.others_returned hcall hactive hold hne)
  rw [hi hx hnot, hi hy hnot']

omit [DecidableEq P] in
/-- A proposal with the current ID and step differs from the older ones, which
have smaller IDs. -/
theorem Node.Unproposed.once_cons {n : Node P} (hnone : n.Unproposed)
    (honce : ∀ msg msg', .proposed msg ∈ n.history → .proposed msg' ∈ n.history →
      msg.step = msg'.step → msg.id = msg'.id → msg = msg')
    {new : PaxosProposeMessage} (hstep : new.step = n.handler.step)
    (hid : new.id = n.handler.paxosID) :
    ∀ msg msg', .proposed msg ∈ Event.proposed new :: n.history →
      .proposed msg' ∈ Event.proposed new :: n.history →
      msg.step = msg'.step → msg.id = msg'.id → msg = msg' := by
  have hnew : ∀ msg, .proposed msg ∈ n.history → msg.step = new.step → msg.id ≠ new.id := by
    intro msg hmsg hsteps hids
    have hlt := hnone msg hmsg (hsteps.trans hstep)
    rw [hids, hid] at hlt
    exact Nat.lt_irrefl _ hlt
  intro msg msg' hmsg hmsg' hsteps hids
  rcases List.mem_cons.mp hmsg with heq | hold
  · rcases List.mem_cons.mp hmsg' with heq' | hold'
    · cases heq
      cases heq'
      rfl
    · cases heq
      exact absurd hids.symm (hnew msg' hold' hsteps.symm)
  · rcases List.mem_cons.mp hmsg' with heq' | hold'
    · cases heq'
      exact absurd hids (hnew msg hold hsteps)
    · exact honce msg msg' hold hold' hsteps hids

omit [DecidableEq P] in
/-- An own step of a call keeps the peer proposing once if a call proposes in the
step it prepared. -/
theorem Peer.ProposesOnce.own {peer : Peer P} (h : peer.ProposesOnce self)
    (haccounts : peer.node.Accounts) (hpeers : 0 < peer.node.handler.nPeers)
    (hissued : ∀ (i : ℕ) call, peer.calls[i]? = some call →
      peer.node.IssuedCall self call.pc)
    {i : ℕ} {call : TagCall P} {c : Choice} {pc : TagPc P}
    (hcall : peer.calls[i]? = some call) (hsame : peer.node.SameStep call.pc)
    (hown : call.OwnStep conf self i peer.node c n pc) :
    (peer.movePc n i fun _ => pc).ProposesOnce self := by
  have hactive : ¬ call.pc.IsReturned := hown.not_isReturned
  have hsingle : ∀ (k l : ℕ) (x y : TagCall P),
      (peer.movePc n i fun _ => pc).calls[k]? = some x →
      (peer.movePc n i fun _ => pc).calls[l]? = some y →
      ¬ x.pc.IsReturned → ¬ y.pc.IsReturned → k = l :=
    fun _ _ _ _ hx hy => h.single_movePc hcall hactive n pc hx hy
  have hunderway : ∀ (k : ℕ) x, (peer.movePc n i fun _ => pc).calls[k]? = some x →
      n.Underway self x.pc := by
    intro k x hx
    obtain ⟨old, hold, rfl⟩ := Peer.getElem?_movePc hx
    split
    · next hk =>
        subst hk
        rw [hcall] at hold
        cases hold
        exact hown.underway (h.underway k call hcall)
    · exact (h.underway k old hold).mono (hissued k old hold) haccounts hown.older.step_le
        fun _ => hown.handler_eq.2.2
  obtain ⟨hstep, hmaxID, hrunning⟩ := hown.handler_eq
  by_cases hpropose : ∃ start prep v, call.pc = .propose start prep v
  · obtain ⟨start, prep, v, hpc⟩ := hpropose
    have hnone := h.before i call hcall (by rw [hpc]; trivial)
    have hcurrent : peer.node.handler.running = true := by
      have hlive := h.underway i call hcall
      rw [hpc] at hlive hsame
      exact hlive hsame
    obtain ⟨rfl, rfl⟩ := hown.of_propose hpc
    refine ⟨?_, ?_, ?_, hunderway, hsingle, ?_⟩
    · intro hidle
      change peer.node.handler.running = false at hidle
      rw [hcurrent] at hidle
      cases hidle
    · exact fun _ => hcurrent
    · intro k x hx hbefore
      obtain ⟨old, hold, rfl⟩ := Peer.getElem?_movePc hx
      split at hbefore
      · exact hbefore.elim
      · next hne =>
          obtain ⟨err, hpc⟩ := (h.others_returned hcall hactive hold hne).exists_eq
          rw [hpc] at hbefore
          exact hbefore.elim
    · exact hnone.once_cons h.once rfl rfl
  · have hne : ∀ start prep v, call.pc ≠ .propose start prep v :=
      fun start prep v hpc => hpropose ⟨start, prep, v, hpc⟩
    refine ⟨?_, ?_, ?_, hunderway, hsingle, ?_⟩
    · intro hidle
      refine (h.idle (Bool.eq_false_of_not_eq_true fun hold => ?_)).mono haccounts
        hown.older fun _ hmsg => hown.of_proposed hne hmsg
      have := hrunning hold
      rw [Peer.movePc_node] at hidle
      rw [hidle] at this
      cases this
    · intro hmax
      rw [Peer.movePc_node, hmaxID] at hmax
      exact hrunning (h.promised hmax)
    · intro k x hx hbefore
      obtain ⟨old, hold, rfl⟩ := Peer.getElem?_movePc hx
      split at hbefore
      · exact hown.before haccounts hpeers h.idle (h.before i call hcall) hne hbefore
      · exact (h.before k old hold hbefore).mono haccounts hown.older
          fun _ hmsg => hown.of_proposed hne hmsg
    · intro msg msg' hmsg hmsg'
      exact h.once msg msg' (hown.of_proposed hne hmsg) (hown.of_proposed hne hmsg')

omit [DecidableEq P] in
/-- A new call is made when the earlier ones have returned. -/
theorem Peer.ProposesOnce.tag {peer : Peer P} (h : peer.ProposesOnce self)
    (hreturned : ∀ call ∈ peer.calls, call.pc.IsReturned) (name mh : String) :
    Peer.ProposesOnce self
      { peer with calls := peer.calls ++ [⟨name, mh, .lookup⟩] } := by
  have hnew : ∀ {i : ℕ} {call : TagCall P},
      (peer.calls ++ [⟨name, mh, .lookup⟩])[i]? = some call →
      peer.calls[i]? = some call ∨ i = peer.calls.length ∧ call = ⟨name, mh, .lookup⟩ := by
    intro i call hcall
    rw [List.getElem?_append] at hcall
    split at hcall
    · exact .inl hcall
    · rw [List.getElem?_singleton] at hcall
      split at hcall
      · cases hcall
        exact .inr ⟨by omega, rfl⟩
      · cases hcall
  have hlast : ∀ {i : ℕ} {call : TagCall P},
      (peer.calls ++ [⟨name, mh, .lookup⟩])[i]? = some call → ¬ call.pc.IsReturned →
      i = peer.calls.length := by
    intro i call hcall hcurrent
    rcases hnew hcall with hold | ⟨hi, -⟩
    · exact absurd (hreturned call (List.mem_of_getElem? hold)) hcurrent
    · exact hi
  refine ⟨h.idle, h.promised, ?_, ?_, ?_, h.once⟩
  · intro i call hcall hbefore
    rcases hnew hcall with hold | ⟨-, rfl⟩
    · exact h.before i call hold hbefore
    · exact hbefore.elim
  · intro i call hcall
    rcases hnew hcall with hold | ⟨-, rfl⟩
    · exact h.underway i call hold
    · trivial
  · intro i k call call' hcall hcall' hcurrent hcurrent'
    rw [hlast hcall hcurrent, hlast hcall' hcurrent']

end

section

variable [DecidableEq P] {sha256 : Bytes → Bytes} {conf : P → Configuration}
  {C : System P → Action P → Prop} {st : System P}

theorem proposesOnce_of_reachable {n : ℕ} (hnumbered : Numbered n conf)
    (hC : ∀ st a, C st a → st.OneCall a ∧ st.SameStep a)
    (h : (network sha256 conf).ReachableUnder C st) (p : P) :
    (st.peers p).ProposesOnce p := by
  revert p
  refine network_invariant (I := fun st => ∀ p, (st.peers p).ProposesOnce p) ?_ ?_ h
  · intro p
    refine ⟨?_, fun hne => absurd rfl hne, ?_, ?_, ?_, ?_⟩
    · exact fun _ msg hmsg => absurd hmsg List.not_mem_nil
    · exact fun i call hcall => nomatch hcall
    · exact fun i call hcall => nomatch hcall
    · exact fun i k call call' hcall => nomatch hcall
    · exact fun msg msg' hmsg => absurd hmsg List.not_mem_nil
  · intro st st' a hst hI hCa hstep
    obtain ⟨hone, hsame⟩ := hC st a hCa
    have hprov := System.provenance_of_reachable hst
    refine hstep.forall_peer hI ?_ ?_ ?_ ?_ ?_
    · intro p name mh ha
      subst ha
      exact (hI p).tag hone name mh
    · intro p origin sequence msg _ _ _ _
      have hp := hI p
      exact ⟨hp.idle, hp.promised, hp.before, hp.underway, hp.single, hp.once⟩
    · intro p t j n next _ hj _ hjob
      refine (hI p).job (hprov.accounts p) (hprov.calls p) ?_ hj hjob
      rintro prep ⟨-, i, v, hevent⟩
      obtain ⟨k, hk⟩ := (ownIDs_of_reachable hst p).events _ hevent
      have := hnumbered.pos p
      omega
    · intro p i c call n pc ha hcall _ _ _ hown
      subst ha
      refine (hI p).own (hprov.accounts p) ?_ (hprov.calls p) hcall (hsame.of_call hcall) hown
      rw [(configured_of_reachable hst p).nPeers, hnumbered.totalPeers]
      exact (hnumbered.pos p).trans (hnumbered.le p)
    · intro p _
      have hp := hI p
      exact ⟨hp.idle, hp.promised, hp.before, hp.underway, hp.single, hp.once⟩

end

/-- In every run in which a peer has one `Tag` call at a time and a call proposes
in the step it prepared, two proposals with one step and ID carry one value. -/
theorem one_value_per_number [DecidableEq P] (sha256 : Bytes → Bytes) (n : ℕ)
    (conf : P → Configuration) (hnumbered : Numbered n conf) (st : System P)
    (h : (network sha256 conf).ReachableUnder
      (fun st a => st.OneCall a ∧ st.SameStep a) st)
    (p q : P) (msg msg' : PaxosProposeMessage)
    (hmsg : .propose msg ∈ (st.peers p).node.rumors)
    (hmsg' : .propose msg' ∈ (st.peers q).node.rumors)
    (hstep : msg.step = msg'.step) (hid : msg.id = msg'.id) : msg.value = msg'.value := by
  have hprov := System.provenance_of_reachable h
  have hproposed : .proposed msg ∈ (st.peers p).node.history := hprov.rumors p _ hmsg
  have hproposed' : .proposed msg' ∈ (st.peers q).node.history := hprov.rumors q _ hmsg'
  have howner : (conf p).OwnID msg.id := (ownIDs_of_reachable h p).events _ hproposed
  have howner' : (conf q).OwnID msg'.id := (ownIDs_of_reachable h q).events _ hproposed'
  rw [← hid] at howner'
  have hpeer := hnumbered.eq_of_ownID howner howner'
  subst hpeer
  have honce := (proposesOnce_of_reachable hnumbered (fun _ _ hCa => hCa) h p).once
  rw [honce msg msg' hproposed hproposed' hstep hid]

theorem one_value_per_number_of_tagRun :
    ∃ st, (network sha256 (majorityNetwork 2)).ReachableUnder
        (fun st a => st.OneCall a ∧ st.SameStep a) st ∧
      ∀ p msg, .propose msg ∈ (st.peers p).node.rumors → msg.step = 0 → msg.id = 1 →
        msg.value = ⟨"id", "file", "meta"⟩ := by
  obtain ⟨st, hst, hmsg⟩ := TransitionSystem.exists_of_replay
    (S := network sha256 (majorityNetwork 2))
    (fun st a => st.OneCall a ∧ st.SameStep a) Action.tagRun
    (fun st => .propose ⟨0, 1, ⟨"id", "file", "meta"⟩⟩ ∈ (st.peers 0).node.rumors)
    (by decide +kernel)
  exact ⟨st, hst, fun p msg hmsg' hstep hid =>
    one_value_per_number _ 2 _ (numbered_majority 2) st hst p 0 msg _ hmsg' hmsg hstep hid⟩

/-- Peer 0 has its quorum for ID 1 of step 0 when the value of peer 1 is decided
in that step.  It proposes its value with ID 1 of step 1, starts again, and
proposes its new value with the same step and ID. -/
theorem two_values_for_number :
    ∃ st, (network sha256 (majorityNetwork 2)).ReachableUnder
        (fun st a => st.OneCall a ∧ st.InOrder a) st ∧
      ∃ msg msg', .propose msg ∈ (st.peers 0).node.rumors ∧
        .propose msg' ∈ (st.peers 0).node.rumors ∧ msg.step = msg'.step ∧
        msg.id = msg'.id ∧ msg.value ≠ msg'.value := by
  obtain ⟨st, hst, hmsg, hmsg'⟩ := TransitionSystem.exists_of_replay
    (S := network sha256 (majorityNetwork 2))
    (fun st a => st.OneCall a ∧ st.InOrder a)
    (.tag 0 "file" "meta" :: .tag 1 "name" "other" :: Action.steps 1 0 4 ++
      Action.opens 0 0 "id" ++ Action.handles 1 0 1 4 ++ Action.handles 0 1 1 1 ++
      .call 0 0 .recv :: .call 1 0 (.fresh "id'") :: Action.steps 1 0 6 ++
      Action.handles 0 1 2 4 ++ Action.handles 0 1 3 1 ++ Action.handles 1 0 2 1 ++
      Action.handles 1 0 3 1 ++ .call 1 0 .recv :: Action.steps 1 0 6 ++
      Action.handles 0 1 4 3 ++ Action.handles 0 1 5 3 ++ Action.steps 0 0 4 ++
      .call 0 0 .tick :: Action.steps 0 0 5 ++ .call 0 0 (.fresh "id''") ::
      Action.steps 0 0 6 ++ Action.handles 1 0 4 3 ++ Action.handles 1 0 5 1 ++
      Action.handles 1 0 6 1 ++ Action.handles 1 0 7 4 ++ Action.handles 0 1 6 1 ++
      Action.handles 0 1 7 1 ++ .call 0 0 .recv :: Action.steps 0 0 3)
    (fun st => .propose ⟨1, 1, ⟨"id", "file", "meta"⟩⟩ ∈ (st.peers 0).node.rumors ∧
      .propose ⟨1, 1, ⟨"id''", "file", "meta"⟩⟩ ∈ (st.peers 0).node.rumors)
    (by decide +kernel)
  exact ⟨st, hst, _, _, hmsg, hmsg', rfl, rfl, by decide⟩

end Minotor
