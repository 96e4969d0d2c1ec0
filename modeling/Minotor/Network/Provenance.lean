import Minotor.Network.Delivery
import Minotor.Network.Guards

/-!
# Provenance

The history of a peer accounts for what it sends: every message among its
rumors, and every message one of its goroutines is about to send, goes back to
an event of its history, and a promise or an acceptance goes back to an event
of the proposer.  Within a step the IDs of these events are bounded by the
counters of the handler.
-/

namespace Minotor

variable {P : Type*}

/-! ## Events and counters -/

/-- A handler in the same step with counters at least as large, or in a later
step. -/
def PaxosHandler.Older (h h' : PaxosHandler) : Prop :=
  h.step < h'.step ∨
    h.step = h'.step ∧ h.paxosID ≤ h'.paxosID ∧ h.maxID ≤ h'.maxID

theorem PaxosHandler.Older.step_le {h h' : PaxosHandler} (hle : h.Older h') :
    h.step ≤ h'.step := by
  rcases hle with hlt | ⟨heq, -⟩
  · exact hlt.le
  · exact heq.le

namespace Event

def step : Event P → ℕ
  | .prepared _ msg _ => msg.step
  | .promised _ draft => draft.step
  | .proposed msg => msg.step
  | .accepted msg => msg.step
  | .countedPromise _ msg => msg.step
  | .quorum step _ _ => step
  | .countedAccept _ msg => msg.step
  | .decided step _ => step

/-- The ID of an event is within the counter which it was taken from or
compared with. -/
def Within (h : PaxosHandler) : Event P → Prop
  | .prepared _ msg _ => msg.id ≤ h.paxosID
  | .promised _ draft => draft.id ≤ h.maxID
  | .proposed msg => msg.id ≤ h.paxosID
  | .accepted msg => msg.id ≤ h.maxID
  | _ => True

/-- The event is of an earlier step, or of this one and within its counters. -/
def UpTo (h : PaxosHandler) (e : Event P) : Prop :=
  e.step ≤ h.step ∧ (e.step = h.step → e.Within h)

theorem UpTo.mono {h h' : PaxosHandler} {e : Event P} (he : e.UpTo h)
    (hle : h.Older h') : e.UpTo h' := by
  refine ⟨he.1.trans hle.step_le, fun hstep => ?_⟩
  rcases hle with hlt | ⟨heq, hpaxosID, hmaxID⟩
  · have := he.1
    omega
  · have hwithin := he.2 (hstep.trans heq.symm)
    cases e with
    | prepared i msg v => exact le_trans hwithin hpaxosID
    | promised q draft => exact le_trans hwithin hmaxID
    | proposed msg => exact le_trans hwithin hpaxosID
    | accepted msg => exact le_trans hwithin hmaxID
    | _ => trivial

end Event

/-- The history of a node does not run ahead of its handler. -/
def Node.Accounts (n : Node P) : Prop :=
  ∀ e ∈ n.history, e.UpTo n.handler

section

variable [DecidableEq P] {sha256 : Bytes → Bytes} {conf : Configuration} {self : P}
  {n n' : Node P}

theorem Node.JobStep.older {j : Job P} {next : Next P}
    (hjob : n.JobStep sha256 conf self j n' next) : n.handler.Older n'.handler := by
  cases hjob with
  | promised r msg hmsg hlock hstep hid => exact .inr ⟨rfl, le_rfl, hid.le⟩
  | chosen r msg h' _ _ _ _ _ _ hh =>
      subst hh
      exact .inr ⟨rfl, le_rfl, le_rfl⟩
  | blocks r msg h' _ _ _ _ _ _ hh =>
      subst hh
      exact .inr ⟨rfl, le_rfl, le_rfl⟩
  | decided r msg block bs px _ _ _ _ _ hleave => exact .inl hleave.step_lt
  | finished r msg bs px _ _ _ _ hleave => exact .inl hleave.step_lt
  | _ => exact .inr ⟨rfl, le_rfl, le_rfl⟩

omit [DecidableEq P] in
theorem TagCall.OwnStep.older {i : ℕ} {call : TagCall P} {c : Choice} {pc : TagPc P}
    (hown : call.OwnStep conf self i n c n' pc) : n.handler.Older n'.handler := by
  cases hown with
  | recvPromise _ _ _ _ _ _ hrecv =>
      obtain ⟨c, hc, -, rfl⟩ := PaxosHandler.recvPromise_eq hrecv
      exact .inr ⟨rfl, le_rfl, le_rfl⟩
  | recvValue _ _ _ _ _ hrecv =>
      obtain ⟨cs, hcs, rfl⟩ := PaxosHandler.recvValue_eq hrecv
      exact .inr ⟨rfl, le_rfl, le_rfl⟩
  | retryPrepare => exact .inr ⟨rfl, Nat.le_add_right _ _, le_rfl⟩
  | retryPropose => exact .inr ⟨rfl, Nat.le_add_right _ _, le_rfl⟩
  | _ => exact .inr ⟨rfl, le_rfl, le_rfl⟩

theorem Node.JobStep.accounts {j : Job P} {next : Next P} (h : n.Accounts)
    (hjob : n.JobStep sha256 conf self j n' next) : n'.Accounts := by
  have hold : ∀ e ∈ n.history, e.UpTo n'.handler :=
    fun e he => (h e he).mono hjob.older
  have hstep := hjob.older.step_le
  cases hjob with
  | promised r msg => exact List.forall_mem_cons.mpr ⟨⟨le_rfl, fun _ => le_rfl⟩, hold⟩
  | accepted r msg _ _ heq hid =>
      exact List.forall_mem_cons.mpr ⟨⟨heq.ge, fun _ => hid.le⟩, hold⟩
  | counted r msg _ _ heq =>
      exact List.forall_mem_cons.mpr ⟨⟨heq.ge, fun _ => trivial⟩, hold⟩
  | chosen r msg h' _ _ heq _ _ _ hh =>
      subst hh
      refine List.forall_mem_cons.mpr ⟨⟨le_rfl, fun _ => trivial⟩, ?_⟩
      exact List.forall_mem_cons.mpr ⟨⟨heq.ge, fun _ => trivial⟩, hold⟩
  | blocks r msg h' _ _ heq _ _ _ hh =>
      subst hh
      refine List.forall_mem_cons.mpr ⟨⟨le_rfl, fun _ => trivial⟩, ?_⟩
      exact List.forall_mem_cons.mpr ⟨⟨heq.ge, fun _ => trivial⟩, hold⟩
  | panics r msg _ _ _ heq =>
      exact List.forall_mem_cons.mpr ⟨⟨heq.ge, fun _ => trivial⟩, hold⟩
  | countedAccept r msg _ _ heq =>
      exact List.forall_mem_cons.mpr ⟨⟨heq.ge, fun _ => trivial⟩, hold⟩
  | decided r msg block bs px _ _ heq =>
      refine List.forall_mem_cons.mpr ⟨⟨heq.ge.trans hstep, fun _ => trivial⟩, ?_⟩
      exact List.forall_mem_cons.mpr ⟨⟨heq.ge.trans hstep, fun _ => trivial⟩, hold⟩
  | _ => exact hold

/-- A job step records no proposal. -/
theorem Node.JobStep.of_proposed {j : Job P} {next : Next P}
    (hjob : n.JobStep sha256 conf self j n' next) {msg : PaxosProposeMessage}
    (hmem : .proposed msg ∈ n'.history) : .proposed msg ∈ n.history := by
  cases hjob <;> simpa using hmem

/-- A job step records no prepare message. -/
theorem Node.JobStep.of_prepared {j : Job P} {next : Next P}
    (hjob : n.JobStep sha256 conf self j n' next) {i : ℕ} {msg : PaxosPrepareMessage P}
    {v : PaxosValue} (hmem : .prepared i msg v ∈ n'.history) :
    .prepared i msg v ∈ n.history := by
  cases hjob <;> simpa using hmem

omit [DecidableEq P] in
/-- Only `createPrepareMessage` records a prepare message, of its step and for the
name of its call. -/
theorem TagCall.OwnStep.of_prepared {i k : ℕ} {call : TagCall P} {c : Choice}
    {pc : TagPc P} (hown : call.OwnStep conf self i n c n' pc)
    {msg : PaxosPrepareMessage P} {v : PaxosValue} (hmem : .prepared k msg v ∈ n'.history) :
    .prepared k msg v ∈ n.history ∨
      call.pc.AtPrepare ∧ msg.step = n.handler.step ∧ v.filename = call.name := by
  cases hown with
  | prepare start uniqID hpc =>
      rcases List.mem_cons.mp hmem with heq | hmem
      · cases heq
        exact .inr ⟨by rw [hpc]; trivial, rfl, rfl⟩
      · exact .inl hmem
  | propose =>
      rcases List.mem_cons.mp hmem with heq | hmem
      · cases heq
      · exact .inl hmem
  | _ => exact .inl hmem

omit [DecidableEq P] in
theorem TagCall.OwnStep.accounts {i : ℕ} {call : TagCall P} {c : Choice} {pc : TagPc P}
    (h : n.Accounts) (hown : call.OwnStep conf self i n c n' pc) : n'.Accounts := by
  have hold : ∀ e ∈ n.history, e.UpTo n'.handler :=
    fun e he => (h e he).mono hown.older
  cases hown with
  | prepare => exact List.forall_mem_cons.mpr ⟨⟨le_rfl, fun _ => le_rfl⟩, hold⟩
  | propose => exact List.forall_mem_cons.mpr ⟨⟨le_rfl, fun _ => le_rfl⟩, hold⟩
  | _ => exact hold

end

/-! ## Issued messages -/

/-- An event of the history behind a prepare message. -/
def Node.Prepared (self : P) (n : Node P) (msg : PaxosPrepareMessage P) : Prop :=
  msg.source = self ∧ ∃ i v, .prepared i msg v ∈ n.history

/-- An event of the history behind a message. -/
def Node.Issued (self : P) (n : Node P) : Message P → Prop
  | .prepare msg => n.Prepared self msg
  | .promise q msg => ∃ draft v, .promised q draft ∈ n.history ∧ msg = draft.marshal v
  | .propose msg => .proposed msg ∈ n.history
  | .accept msg => .accepted msg ∈ n.history
  | .tlc _ => True

def Node.IssuedJob (self : P) (n : Node P) : Job P → Prop
  | .broadcast msg => n.Issued self msg
  | .marshal q draft => .promised q draft ∈ n.history
  | _ => True

/-- An event of the history behind the message at a program point. -/
def Node.IssuedCall (self : P) (n : Node P) : TagPc P → Prop
  | .promiseChan _ prep => n.Prepared self prep
  | .sendPrepare _ prep _ _ => n.Prepared self prep
  | .awaitPromise _ prep _ => n.Prepared self prep
  | .propose _ prep _ => n.Prepared self prep
  | .valueChan _ msg => .proposed msg ∈ n.history
  | _ => True

section

variable {self : P} {n n' : Node P}

theorem Node.Prepared.mono {msg : PaxosPrepareMessage P} (h : n.Prepared self msg)
    (hsub : n.history ⊆ n'.history) : n'.Prepared self msg := by
  obtain ⟨hsource, i, v, hevent⟩ := h
  exact ⟨hsource, i, v, hsub hevent⟩

theorem Node.Issued.mono {msg : Message P} (h : n.Issued self msg)
    (hsub : n.history ⊆ n'.history) : n'.Issued self msg := by
  cases msg with
  | prepare msg => exact Node.Prepared.mono h hsub
  | promise q msg =>
      obtain ⟨draft, v, hevent, hmsg⟩ := h
      exact ⟨draft, v, hsub hevent, hmsg⟩
  | propose msg => exact hsub h
  | accept msg => exact hsub h
  | tlc msg => trivial

theorem Node.IssuedJob.mono {j : Job P} (h : n.IssuedJob self j)
    (hsub : n.history ⊆ n'.history) : n'.IssuedJob self j := by
  cases j with
  | broadcast msg => exact Node.Issued.mono h hsub
  | marshal q draft => exact hsub h
  | _ => trivial

theorem Node.IssuedCall.mono {pc : TagPc P} (h : n.IssuedCall self pc)
    (hsub : n.history ⊆ n'.history) : n'.IssuedCall self pc := by
  cases pc with
  | promiseChan start prep => exact Node.Prepared.mono h hsub
  | sendPrepare start prep ch job => exact Node.Prepared.mono h hsub
  | awaitPromise start prep ch => exact Node.Prepared.mono h hsub
  | propose start prep v => exact Node.Prepared.mono h hsub
  | valueChan start msg => exact hsub h
  | _ => trivial

theorem TagPc.Plain.issuedCall {pc : TagPc P} (h : pc.Plain) : n.IssuedCall self pc := by
  cases pc <;> trivial

/-- A broadcast keeps the message of its program point. -/
theorem Node.IssuedCall.withNext {pc : TagPc P} (h : n.IssuedCall self pc) {j : Job P}
    (hj : pc.job? = some j) (next : Next P) : n.IssuedCall self (pc.withNext next) := by
  cases pc with
  | sendPrepare start prep ch job => cases next <;> first | exact h | trivial
  | sendPropose start msg ch job => cases next <;> trivial
  | _ => cases hj

variable [DecidableEq P] {sha256 : Bytes → Bytes} {conf : Configuration}

/-- A job step issues what it goes on with, and its rumors. -/
theorem Node.JobStep.issued {j : Job P} {next : Next P}
    (hj : n.IssuedJob self j) (h : ∀ msg ∈ n.rumors, n.Issued self msg)
    (hjob : n.JobStep sha256 conf self j n' next) :
    (∀ msg ∈ n'.rumors, n'.Issued self msg) ∧
      ∀ j', next = .job j' → n'.IssuedJob self j' := by
  have hold : ∀ msg ∈ n.rumors, n'.Issued self msg :=
    fun msg hmsg => (h msg hmsg).mono hjob.history_suffix.subset
  cases hjob with
  | promised r msg =>
      refine ⟨hold, ?_⟩
      rintro j' ⟨⟩
      exact List.mem_cons_self
  | accepted r msg =>
      refine ⟨hold, ?_⟩
      rintro j' ⟨⟩
      exact List.mem_cons_self
  | blocks r msg =>
      refine ⟨hold, ?_⟩
      rintro j' ⟨⟩
      trivial
  | decided r msg =>
      refine ⟨hold, ?_⟩
      rintro j' ⟨⟩
      trivial
  | finished r msg =>
      refine ⟨hold, ?_⟩
      rintro j' ⟨⟩
      trivial
  | marshalled q draft =>
      refine ⟨hold, ?_⟩
      rintro j' ⟨⟩
      exact ⟨draft, _, hj, rfl⟩
  | broadcast msg =>
      refine ⟨?_, ?_⟩
      · exact List.forall_mem_append.mpr ⟨hold, List.forall_mem_singleton.mpr hj⟩
      · rintro j' ⟨⟩
        trivial
  | _ => exact ⟨hold, nofun⟩

omit [DecidableEq P] in
theorem TagCall.OwnStep.issued {i : ℕ} {call : TagCall P} {c : Choice} {pc : TagPc P}
    (hpc : n.IssuedCall self call.pc) (hown : call.OwnStep conf self i n c n' pc) :
    n'.IssuedCall self pc ∧ ∀ j, pc.job? = some j → n'.IssuedJob self j := by
  have hjobs : ∀ j, pc.job? = some j → n'.IssuedJob self j := by
    intro j hj
    have hsub := hown.history_suffix.subset
    rcases hown.broadcasts hj with ⟨_, _, hcall, rfl⟩ | ⟨_, _, hcall, rfl⟩
    · rw [hcall] at hpc
      exact Node.Prepared.mono hpc hsub
    · rw [hcall] at hpc
      exact hsub hpc
  cases hown with
  | quiet _ _ hquiet => exact ⟨hquiet.plain.issuedCall, hjobs⟩
  | prepare start uniqID => exact ⟨⟨rfl, i, _, List.mem_cons_self⟩, hjobs⟩
  | promiseChan start prep hcall =>
      rw [hcall] at hpc
      exact ⟨hpc, hjobs⟩
  | recvPromise start prep ch value h' hcall _ _ hnext =>
      rw [hcall] at hpc
      refine ⟨?_, hjobs⟩
      rw [hnext]
      split
      · trivial
      · exact hpc
  | propose => exact ⟨List.mem_cons_self, hjobs⟩
  | recvValue _ _ _ _ _ _ _ hnext =>
      refine ⟨?_, hjobs⟩
      rw [hnext]
      split <;> trivial
  | _ => exact ⟨trivial, hjobs⟩

end

/-! ## Provenance in a network -/

/-- The event of a proposer behind a promise or an acceptance. -/
def System.Founded (st : System P) : Event P → Prop
  | .promised q draft => (st.peers q).node.Prepared q ⟨draft.step, draft.id, q⟩
  | .accepted msg => ∃ q, .proposed ⟨msg.step, msg.id, msg.value⟩ ∈ (st.peers q).node.history
  | _ => True

structure System.Provenance (st : System P) : Prop where
  accounts : ∀ p, (st.peers p).node.Accounts
  rumors : ∀ p, ∀ msg ∈ (st.peers p).node.rumors, (st.peers p).node.Issued p msg
  jobs : ∀ p t j, (st.peers p).job? t = some j → (st.peers p).node.IssuedJob p j
  calls : ∀ p (i : ℕ) call, (st.peers p).calls[i]? = some call →
    (st.peers p).node.IssuedCall p call.pc
  events : ∀ p, ∀ e ∈ (st.peers p).node.history, st.Founded e

namespace System

variable [DecidableEq P] {sha256 : Bytes → Bytes} {conf : P → Configuration}
  {st st' : System P} {a : Action P}

theorem Founded.step {e : Event P} (h : st.Founded e) (hstep : Step sha256 conf st a st') :
    st'.Founded e := by
  cases e with
  | promised q draft => exact Node.Prepared.mono h (hstep.history_suffix q).subset
  | accepted msg =>
      obtain ⟨q, hq⟩ := h
      exact ⟨q, (hstep.history_suffix q).subset hq⟩
  | _ => trivial

/-- The events which a job step records are founded. -/
theorem Founded.jobStep {conf : Configuration} {p : P} {n n' : Node P} {j : Job P}
    {next : Next P} (hrumors : ∀ q, ∀ msg ∈ (st.peers q).node.rumors,
      (st.peers q).node.Issued q msg)
    (hj : st.AuthenticJob j) (h : ∀ e ∈ n.history, st.Founded e)
    (hjob : n.JobStep sha256 conf p j n' next) : ∀ e ∈ n'.history, st.Founded e := by
  cases hjob with
  | promised r msg hmsg hlock hstep =>
      refine List.forall_mem_cons.mpr ⟨?_, h⟩
      have hissued := hrumors r.origin r.msg (System.Authentic.mem hj)
      rw [hmsg] at hissued
      obtain ⟨step, id, source⟩ := msg
      obtain ⟨hsource, i, v, hevent⟩ := hissued
      dsimp only at hstep hsource
      subst hstep hsource
      exact ⟨rfl, i, v, hevent⟩
  | accepted r msg hmsg =>
      refine List.forall_mem_cons.mpr ⟨?_, h⟩
      have hissued := hrumors r.origin r.msg (System.Authentic.mem hj)
      rw [hmsg] at hissued
      exact ⟨r.origin, hissued⟩
  | counted => exact List.forall_mem_cons.mpr ⟨trivial, h⟩
  | chosen =>
      exact List.forall_mem_cons.mpr ⟨trivial, List.forall_mem_cons.mpr ⟨trivial, h⟩⟩
  | blocks =>
      exact List.forall_mem_cons.mpr ⟨trivial, List.forall_mem_cons.mpr ⟨trivial, h⟩⟩
  | panics => exact List.forall_mem_cons.mpr ⟨trivial, h⟩
  | countedAccept => exact List.forall_mem_cons.mpr ⟨trivial, h⟩
  | decided =>
      exact List.forall_mem_cons.mpr ⟨trivial, List.forall_mem_cons.mpr ⟨trivial, h⟩⟩
  | _ => exact h

theorem Step.older (hstep : Step sha256 conf st a st') (p : P) :
    (st.peers p).node.handler.Older (st'.peers p).node.handler := by
  refine hstep.forall_node
    (I := fun p n => (st.peers p).node.handler.Older n.handler) ?_ ?_ ?_ ?_ p
  · exact fun _ => .inr ⟨rfl, le_rfl, le_rfl⟩
  · intro p n n' hpaxos _ _ hn
    rwa [Node.handler, Node.handler, hpaxos]
  · intro p t j n next _ _ _ hjob
    exact hjob.older
  · intro p i c call n pc _ _ _ _ hown
    exact hown.older

theorem Provenance.step (h : st.Provenance) (hforge : st.NoForgery)
    (hstep : Step sha256 conf st a st') : st'.Provenance where
  accounts := by
    refine hstep.forall_node (I := fun _ n => n.Accounts) h.accounts ?_ ?_ ?_
    · intro p n n' hpaxos _ hhistory hn
      rw [Node.Accounts, Node.handler, hpaxos, hhistory]
      exact hn
    · intro p t j n next _ _ _ hjob
      exact hjob.accounts (h.accounts p)
    · intro p i c call n pc _ _ _ _ hown
      exact hown.accounts (h.accounts p)
  rumors := by
    refine hstep.forall_node (I := fun p n => ∀ msg ∈ n.rumors, n.Issued p msg)
      h.rumors ?_ ?_ ?_
    · intro p n n' _ hrumors hhistory hn
      rw [hrumors]
      exact fun msg hmsg => (hn msg hmsg).mono (by rw [hhistory]; exact List.Subset.refl _)
    · intro p t j n next _ hj _ hjob
      exact (hjob.issued (h.jobs p t j hj) (h.rumors p)).1
    · intro p i c call n pc _ _ _ _ hown
      rw [hown.rumors_eq]
      exact fun msg hmsg => (h.rumors p msg hmsg).mono hown.history_suffix.subset
  jobs := by
    refine hstep.forall_job (L := fun p j => (st'.peers p).node.IssuedJob p j) h.jobs
      (fun p j hj => hj.mono (hstep.history_suffix p).subset) ?_ ?_ ?_
    · intro p origin sequence msg _ _ _
      trivial
    · intro p t j n j' _ hj hnode hjob
      refine ((hjob.issued (h.jobs p t j hj) (h.rumors p)).2 j' rfl).mono ?_
      rw [hnode.history]
      exact List.Subset.refl _
    · intro p i c call n pc j' _ hcall _ hnode hown hj'
      rw [hnode]
      exact (hown.issued (h.calls p i call hcall)).2 j' hj'
  calls := by
    refine hstep.forall_call (M := fun p call => (st'.peers p).node.IssuedCall p call.pc)
      (K := fun p call => (st.peers p).node.IssuedCall p call.pc) h.calls
      (fun p call hpc => hpc.mono (hstep.history_suffix p).subset)
      (fun _ _ _ => trivial) ?_ ?_
    · intro p i call j n next _ _ hj hpc _ _
      exact (hpc.mono (hstep.history_suffix p).subset).withNext hj next
    · intro p i c call n pc _ _ hpc _ hnode hown
      rw [hnode]
      exact (hown.issued hpc).1
  events := by
    have hevents : ∀ p, ∀ e ∈ (st'.peers p).node.history, st'.Founded e := by
      refine hstep.forall_node (I := fun _ n => ∀ e ∈ n.history, st'.Founded e)
        (fun p e he => (h.events p e he).step hstep) ?_ ?_ ?_
      · intro p n n' _ _ hhistory hn
        rwa [hhistory]
      · intro p t j n next _ hj _ hjob e he
        exact (Founded.jobStep h.rumors (hforge.jobs p t j hj) (h.events p) hjob e he).step
          hstep
      · intro p i c call n pc _ _ _ _ hown
        have hold : ∀ e ∈ (st.peers p).node.history, st'.Founded e :=
          fun e he => (h.events p e he).step hstep
        cases hown with
        | prepare => exact List.forall_mem_cons.mpr ⟨trivial, hold⟩
        | propose => exact List.forall_mem_cons.mpr ⟨trivial, hold⟩
        | _ => exact hold
    exact hevents

theorem provenance_of_reachable {C : System P → Action P → Prop}
    (h : (network sha256 conf).ReachableUnder C st) : st.Provenance := by
  refine network_invariant ?_
    (fun _ _ _ hst hI _ hstep => hI.step (noForgery_of_reachable hst) hstep) h
  refine ⟨fun _ => by exact nofun, fun _ => by exact nofun, fun p t j hj => ?_,
    fun _ => by exact nofun, fun _ => by exact nofun⟩
  cases t <;> cases hj

end System
end Minotor
