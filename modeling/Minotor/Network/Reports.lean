import Minotor.Network.Provenance
import Minotor.Network.Validity

/-!
# Reports of acceptors

A promise reports what its sender has accepted.  As long as every promise is
marshalled in its step, the report is an acceptance of the sender.  If moreover
every promise is made with the largest accepted ID of its step recorded, the
sender accepts nothing between the reported ID and the promised one.
-/

namespace Minotor

variable {P : Type*}

/-- A promise reports nothing, or a proposal which the node accepted, with a
smaller ID than the promised one. -/
structure Node.Vouches (n : Node P) (msg : PaxosPromiseMessage) : Prop where
  below : msg.acceptedID < msg.id
  accepted : 0 < msg.acceptedID → ∃ v, msg.acceptedValue = some v ∧ v ≠ .empty ∧
    .accepted ⟨msg.step, msg.acceptedID, v⟩ ∈ n.history

def Node.VouchesMessage (n : Node P) : Message P → Prop
  | .promise _ msg => n.Vouches msg
  | _ => True

def Node.VouchesJob (n : Node P) : Job P → Prop
  | .broadcast msg => n.VouchesMessage msg
  | _ => True

/-- The event is a promise or an acceptance. -/
def Event.ofAcceptor : Event P → Bool
  | .promised _ _ => true
  | .accepted _ => true
  | _ => false

/-- What a node has promised and accepted. -/
def Node.answers (n : Node P) : List (Event P) :=
  n.history.filter Event.ofAcceptor

/-- The accepted ID and value of the handler are those of an acceptance, and the
promises of the node tell of them. -/
structure Node.ReportsTruly (n : Node P) : Prop where
  recorded : 0 < n.handler.acceptedID → n.handler.acceptedValue ≠ .empty ∧
    .accepted ⟨n.handler.step, n.handler.acceptedID, n.handler.acceptedValue⟩ ∈ n.history
  current : ∀ q draft, .promised q draft ∈ n.history → draft.step = n.handler.step →
    0 < draft.acceptedID →
      draft.acceptedID = n.handler.acceptedID ∧ draft.pointsToAccepted = true
  below : ∀ q draft, .promised q draft ∈ n.history → draft.acceptedID < draft.id
  rumors : ∀ msg ∈ n.rumors, n.VouchesMessage msg

namespace Node

section

variable {n n' : Node P}

theorem VouchesMessage.mono {msg : Message P} (h : n.VouchesMessage msg)
    (hsub : n.history ⊆ n'.history) : n'.VouchesMessage msg := by
  cases msg with
  | promise q msg =>
      refine ⟨h.below, fun hpos => ?_⟩
      obtain ⟨v, hv, hne, hevent⟩ := h.accepted hpos
      exact ⟨v, hv, hne, hsub hevent⟩
  | _ => trivial

theorem VouchesJob.mono {j : Job P} (h : n.VouchesJob j) (hsub : n.history ⊆ n'.history) :
    n'.VouchesJob j := by
  cases j with
  | broadcast msg => exact VouchesMessage.mono h hsub
  | _ => trivial

theorem mem_answers {e : Event P} (he : e.ofAcceptor = true) :
    e ∈ n.answers ↔ e ∈ n.history := by
  rw [answers, List.mem_filter, and_iff_left he]

theorem mem_history_of_answers (hanswers : n'.answers = n.answers) {e : Event P}
    (he : e.ofAcceptor = true) (hmem : e ∈ n'.history) : e ∈ n.history := by
  rwa [← mem_answers he, ← hanswers, mem_answers he]

/-- What neither promises nor accepts, and keeps the accepted value, keeps the
reports true. -/
theorem ReportsTruly.frame (h : n.ReportsTruly)
    (hstep : n'.handler.step = n.handler.step)
    (hid : n'.handler.acceptedID = n.handler.acceptedID)
    (hvalue : n'.handler.acceptedValue = n.handler.acceptedValue)
    (hsub : n.history ⊆ n'.history) (hanswers : n'.answers = n.answers)
    (hrumors : n'.rumors = n.rumors) : n'.ReportsTruly := by
  constructor
  · rw [hstep, hid, hvalue]
    intro hpos
    obtain ⟨hne, hevent⟩ := h.recorded hpos
    exact ⟨hne, hsub hevent⟩
  · rw [hstep, hid]
    intro q draft hdraft
    exact h.current q draft (mem_history_of_answers hanswers rfl hdraft)
  · intro q draft hdraft
    exact h.below q draft (mem_history_of_answers hanswers rfl hdraft)
  · rw [hrumors]
    intro msg hmsg
    exact (h.rumors msg hmsg).mono hsub

/-- In a later step nothing is accepted yet. -/
theorem ReportsTruly.leave (h : n.ReportsTruly) (haccounts : n.Accounts)
    (hlt : n.handler.step < n'.handler.step) (hid : n'.handler.acceptedID = 0)
    (hsub : n.history ⊆ n'.history) (hanswers : n'.answers = n.answers)
    (hrumors : n'.rumors = n.rumors) : n'.ReportsTruly := by
  constructor
  · intro hpos
    omega
  · intro q draft hdraft hstep
    have hle : draft.step ≤ n.handler.step :=
      (haccounts _ (mem_history_of_answers hanswers rfl hdraft)).1
    omega
  · intro q draft hdraft
    exact h.below q draft (mem_history_of_answers hanswers rfl hdraft)
  · rw [hrumors]
    intro msg hmsg
    exact (h.rumors msg hmsg).mono hsub

/-- A promise is made with the recorded acceptance. -/
theorem ReportsTruly.promise (h : n.ReportsTruly) (haccounts : n.Accounts) {source : P}
    {id : ℕ} (hid : n.handler.maxID < id) :
    ((n.withHandler (n.handler.promised id)).record
      [.promised source (n.handler.draft id)]).ReportsTruly := by
  have hpromised : ∀ {q draft}, .promised q draft ∈
      Event.promised source (n.handler.draft id) :: n.history →
      draft = n.handler.draft id ∨ .promised q draft ∈ n.history := by
    intro q draft hmem
    rcases List.mem_cons.mp hmem with heq | hmem
    · cases heq
      exact .inl rfl
    · exact .inr hmem
  constructor
  · intro hpos
    obtain ⟨hne, hevent⟩ := h.recorded hpos
    exact ⟨hne, List.mem_cons_of_mem _ hevent⟩
  · intro q draft hmem hstep hpos
    rcases hpromised hmem with rfl | hmem
    · exact ⟨rfl, decide_eq_true (h.recorded hpos).1⟩
    · exact h.current q draft hmem hstep hpos
  · intro q draft hmem
    rcases hpromised hmem with rfl | hmem
    · change n.handler.acceptedID < id
      rcases Nat.eq_zero_or_pos n.handler.acceptedID with hzero | hpos
      · omega
      · have hle : n.handler.acceptedID ≤ n.handler.maxID :=
          (haccounts _ (h.recorded hpos).2).2 rfl
        omega
    · exact h.below q draft hmem
  · intro msg hmsg
    exact (h.rumors msg hmsg).mono (List.subset_cons_self _ _)

/-- An acceptance of a proposal with the promised ID. -/
theorem ReportsTruly.accept (h : n.ReportsTruly) {msg : PaxosProposeMessage}
    (hstep : n.handler.step = msg.step) (hvalue : msg.value ≠ .empty) :
    ((n.withHandler (n.handler.accepted msg)).record [.accepted msg.accept]).ReportsTruly := by
  have hpromised : ∀ {q draft}, .promised q draft ∈
      Event.accepted msg.accept :: n.history → .promised q draft ∈ n.history := by
    intro q draft hmem
    rcases List.mem_cons.mp hmem with heq | hmem
    · cases heq
    · exact hmem
  constructor
  · change 0 < (n.handler.accepted msg).acceptedID →
      (n.handler.accepted msg).acceptedValue ≠ .empty ∧
        .accepted ⟨n.handler.step, (n.handler.accepted msg).acceptedID,
          (n.handler.accepted msg).acceptedValue⟩ ∈ .accepted msg.accept :: n.history
    by_cases hempty : n.handler.acceptedValue = .empty
    · simp only [PaxosHandler.accepted, if_pos hempty, hstep]
      exact fun _ => ⟨hvalue, List.mem_cons_self⟩
    · simp only [PaxosHandler.accepted, if_neg hempty]
      intro hpos
      exact ⟨hempty, List.mem_cons_of_mem _ (h.recorded hpos).2⟩
  · intro q draft hmem hdraft hpos
    obtain ⟨heq, hpoints⟩ := h.current q draft (hpromised hmem) hdraft hpos
    refine ⟨?_, hpoints⟩
    change _ = if _ then _ else _
    rw [if_neg (h.recorded (heq ▸ hpos)).1]
    exact heq
  · intro q draft hmem
    exact h.below q draft (hpromised hmem)
  · intro m hm
    exact (h.rumors m hm).mono (List.subset_cons_self _ _)

/-- What is marshalled in the step of the promise reports the acceptance it was
made with. -/
theorem ReportsTruly.marshal (h : n.ReportsTruly) {q : P} {draft : PromiseDraft}
    (hdraft : .promised q draft ∈ n.history) (hstep : draft.step = n.handler.step) :
    n.Vouches (draft.marshal n.handler.acceptedValue) := by
  refine ⟨h.below q draft hdraft, fun hpos => ?_⟩
  obtain ⟨hid, hpoints⟩ := h.current q draft hdraft hstep hpos
  obtain ⟨hne, hevent⟩ := h.recorded (hid ▸ hpos)
  refine ⟨n.handler.acceptedValue, if_pos hpoints, hne, ?_⟩
  change .accepted ⟨draft.step, draft.acceptedID, _⟩ ∈ n.history
  rw [hstep, hid]
  exact hevent

variable [DecidableEq P] {sha256 : Bytes → Bytes} {conf : Configuration} {self : P}

/-- A job step keeps the reports true if promises are marshalled in their step. -/
theorem JobStep.reportsTruly {j : Job P} {next : Next P} (h : n.ReportsTruly)
    (haccounts : n.Accounts) (hissued : n.IssuedJob self j) (hj : n.VouchesJob j)
    (hvalue : ∀ r msg, j = .exec r → r.msg = .propose msg → msg.value ≠ .empty)
    (hlive : n.LiveMarshal j)
    (hjob : n.JobStep sha256 conf self j n' next) :
    n'.ReportsTruly ∧ ∀ j', next = .job j' → n'.VouchesJob j' := by
  have hsub := hjob.history_suffix.subset
  cases hjob with
  | promised r msg hmsg hlock hstep hid =>
      refine ⟨h.promise haccounts hid, ?_⟩
      rintro j' ⟨⟩
      trivial
  | accepted r msg hmsg hlock hstep hid =>
      refine ⟨h.accept hstep (hvalue r msg rfl hmsg), ?_⟩
      rintro j' ⟨⟩
      trivial
  | chosen r msg h' _ _ _ _ _ _ hh =>
      subst hh
      exact ⟨h.frame rfl rfl rfl hsub rfl rfl, nofun⟩
  | blocks r msg h' _ _ _ _ _ _ hh =>
      subst hh
      constructor
      · exact h.frame rfl rfl rfl hsub rfl rfl
      · rintro j' ⟨⟩
        trivial
  | decided r msg block bs px hmsg hlock hstep hfull hblock hleave =>
      constructor
      · refine h.leave haccounts hleave.step_lt ?_ hsub rfl rfl
        change px.handler.acceptedID = 0
        rw [hleave.handler]
        rfl
      · rintro j' ⟨⟩
        trivial
  | finished r msg bs px hmsg hlock hstep hfull hleave =>
      constructor
      · refine h.leave haccounts hleave.step_lt ?_ hsub rfl rfl
        change px.handler.acceptedID = 0
        rw [hleave.handler]
        rfl
      · rintro j' ⟨⟩
        trivial
  | marshalled q draft =>
      refine ⟨h, ?_⟩
      rintro j' ⟨⟩
      exact h.marshal hissued hlive
  | broadcast msg =>
      constructor
      · constructor
        · exact h.recorded
        · exact h.current
        · exact h.below
        · intro m hm
          have hold : n.VouchesMessage m := by
            rcases List.mem_append.mp hm with hm | hm
            · exact h.rumors m hm
            · rw [List.mem_singleton.mp hm]
              exact hj
          exact hold.mono hsub
      · rintro j' ⟨⟩
        trivial
  | _ =>
      exact ⟨h.frame rfl rfl rfl hsub rfl rfl, nofun⟩

end

end Node

theorem TagCall.OwnStep.reportsTruly {conf : Configuration} {self : P} {i : ℕ}
    {n n' : Node P} {call : TagCall P} {c : Choice} {pc : TagPc P}
    (h : n.ReportsTruly) (hown : call.OwnStep conf self i n c n' pc) : n'.ReportsTruly := by
  have hsub := hown.history_suffix.subset
  cases hown with
  | recvPromise _ _ _ _ _ _ hrecv =>
      obtain ⟨c, hc, -, rfl⟩ := PaxosHandler.recvPromise_eq hrecv
      exact h.frame rfl rfl rfl hsub rfl rfl
  | recvValue _ _ _ _ _ hrecv =>
      obtain ⟨cs, hcs, rfl⟩ := PaxosHandler.recvValue_eq hrecv
      exact h.frame rfl rfl rfl hsub rfl rfl
  | _ => exact h.frame rfl rfl rfl hsub rfl rfl

/-! ## Reports in a network -/

/-- Every promise in the network is vouched for by its sender. -/
structure System.ReportsTruly (st : System P) : Prop where
  nodes : ∀ p, (st.peers p).node.ReportsTruly
  jobs : ∀ p t j, (st.peers p).job? t = some j → (st.peers p).node.VouchesJob j

/-- A promise which is processed is vouched for. -/
theorem System.ReportsTruly.vouches {st : System P} (h : st.ReportsTruly) {r : Rumor P}
    (hr : st.Authentic r) {q : P} {msg : PaxosPromiseMessage} (hmsg : r.msg = .promise q msg) :
    (st.peers r.origin).node.Vouches msg := by
  have hvouched := (h.nodes r.origin).rumors r.msg hr.mem
  rwa [hmsg] at hvouched

section

variable [DecidableEq P] {sha256 : Bytes → Bytes} {conf : P → Configuration}
  {C : System P → Action P → Prop} {st st' : System P} {a : Action P}

theorem System.ReportsTruly.step (h : st.ReportsTruly) (hprov : st.Provenance)
    (hcarries : st.CarriesCreated) (hlive : st.LiveMarshal a)
    (hstep : Step sha256 conf st a st') : st'.ReportsTruly := by
  -- what a proposal in process carries has been created
  have hvalue : ∀ p t j, (st.peers p).job? t = some j → ∀ r msg, j = .exec r →
      r.msg = .propose msg → msg.value ≠ .empty := by
    rintro p t j hj r msg rfl hmsg
    have hcreated := hcarries.jobs p t _ hj
    rw [Job.Carries, hmsg] at hcreated
    exact System.Created.ne_empty hcreated
  constructor
  · refine hstep.forall_node (I := fun _ n => n.ReportsTruly) h.nodes ?_ ?_ ?_
    · intro p n n' hpaxos hrumors hhistory hn
      apply hn.frame
      · rw [Node.handler, hpaxos]
      · rw [Node.handler, hpaxos]
      · rw [Node.handler, hpaxos]
      · rw [hhistory]
        exact List.Subset.refl _
      · rw [Node.answers, Node.answers, hhistory]
      · exact hrumors
    · intro p t j n next ha hj _ hjob
      exact (hjob.reportsTruly (h.nodes p) (hprov.accounts p) (hprov.jobs p t j hj)
        (h.jobs p t j hj) (hvalue p t j hj) (hlive.of_job ha hj)).1
    · intro p i c call n pc _ _ _ _ hown
      exact hown.reportsTruly (h.nodes p)
  · refine hstep.forall_job (J := fun p => (st.peers p).node.VouchesJob)
      (L := fun p => (st'.peers p).node.VouchesJob) h.jobs ?_ ?_ ?_ ?_
    · intro p j hj
      exact hj.mono (hstep.history_suffix p).subset
    · intro p origin sequence msg _ _ _
      trivial
    · intro p t j n j' ha hj hagrees hjob
      have hvouched := (hjob.reportsTruly (h.nodes p) (hprov.accounts p)
        (hprov.jobs p t j hj) (h.jobs p t j hj) (hvalue p t j hj) (hlive.of_job ha hj)).2 j'
        rfl
      apply hvouched.mono
      rw [hagrees.history]
      exact List.Subset.refl _
    · intro p i c call n pc j' _ _ _ _ hown hj'
      rcases hown.broadcasts hj' with ⟨_, _, _, rfl⟩ | ⟨_, _, _, rfl⟩
      · trivial
      · trivial

theorem reportsTruly_of_reachable (hC : ∀ st a, C st a → st.LiveMarshal a)
    (h : (network sha256 conf).ReachableUnder C st) : st.ReportsTruly := by
  refine network_invariant ?_ ?_ h
  · constructor
    · intro p
      constructor
      · intro hpos
        exact absurd hpos (Nat.lt_irrefl 0)
      · exact fun q draft hmem => absurd hmem List.not_mem_nil
      · exact fun q draft hmem => absurd hmem List.not_mem_nil
      · exact fun msg hmsg => absurd hmsg List.not_mem_nil
    · intro p t j hj
      cases t <;> cases hj
  · intro st st' a hst hI hCa hstep
    exact hI.step (System.provenance_of_reachable hst)
      (System.carriesCreated_of_reachable hst) (hC st a hCa) hstep

end

/-! ## Kept promises -/

/-- The node accepts nothing between the ID which a promise of it reports and the
promised one. -/
def Node.KeepsPromises (n : Node P) : Prop :=
  ∀ q draft msg, .promised q draft ∈ n.history → .accepted msg ∈ n.history →
    msg.step = draft.step → msg.id ≤ draft.acceptedID ∨ draft.id ≤ msg.id

section

variable {n n' : Node P}

theorem Node.KeepsPromises.frame (h : n.KeepsPromises) (hanswers : n'.answers = n.answers) :
    n'.KeepsPromises := by
  intro q draft msg hdraft hmsg
  exact h q draft msg (Node.mem_history_of_answers hanswers rfl hdraft)
    (Node.mem_history_of_answers hanswers rfl hmsg)

variable [DecidableEq P] {sha256 : Bytes → Bytes} {conf : Configuration} {self : P}

/-- A job step keeps the promises: a new one reports the largest accepted ID, and
an accepted ID is the last one promised. -/
theorem Node.JobStep.keepsPromises {j : Job P} {next : Next P} (h : n.KeepsPromises)
    (haccounts : n.Accounts) (htrue : n.TrueReport j)
    (hjob : n.JobStep sha256 conf self j n' next) : n'.KeepsPromises := by
  cases hjob with
  | promised r msg hmsg hlock hstep hid =>
      obtain ⟨origin, sequence, m⟩ := r
      cases hmsg
      intro q draft accept hdraft haccept hsame
      have haccept := (List.mem_cons.mp haccept).resolve_left nofun
      rcases List.mem_cons.mp hdraft with heq | hdraft
      · cases heq
        left
        apply htrue hstep hid
        exact List.mem_filterMap.mpr ⟨_, haccept, if_pos hsame⟩
      · exact h q draft accept hdraft haccept hsame
  | accepted r msg hmsg hlock hstep hid =>
      intro q draft accept hdraft haccept hsame
      have hdraft := (List.mem_cons.mp hdraft).resolve_left nofun
      rcases List.mem_cons.mp haccept with heq | haccept
      · cases heq
        right
        change draft.id ≤ msg.id
        rw [hid]
        exact (haccounts _ hdraft).2 (hsame.symm.trans hstep.symm)
      · exact h q draft accept hdraft haccept hsame
  | _ => exact h.frame rfl

end

theorem TagCall.OwnStep.keepsPromises {conf : Configuration} {self : P} {i : ℕ}
    {n n' : Node P} {call : TagCall P} {c : Choice} {pc : TagPc P}
    (h : n.KeepsPromises) (hown : call.OwnStep conf self i n c n' pc) : n'.KeepsPromises := by
  cases hown <;> exact h.frame rfl

theorem keepsPromises_of_reachable [DecidableEq P] {sha256 : Bytes → Bytes}
    {conf : P → Configuration} {C : System P → Action P → Prop} {st : System P}
    (hC : ∀ st a, C st a → st.TrueReport a)
    (h : (network sha256 conf).ReachableUnder C st) (p : P) :
    (st.peers p).node.KeepsPromises := by
  revert p
  refine network_invariant (I := fun st => ∀ p, (st.peers p).node.KeepsPromises) ?_ ?_ h
  · exact fun p q draft msg hdraft => absurd hdraft List.not_mem_nil
  · intro st st' a hst hI hCa hstep
    have hprov := System.provenance_of_reachable hst
    refine hstep.forall_node (I := fun _ n => n.KeepsPromises) hI ?_ ?_ ?_
    · intro p n n' _ _ hhistory hn
      apply hn.frame
      rw [Node.answers, Node.answers, hhistory]
    · intro p t j n next ha hj _ hjob
      exact hjob.keepsPromises (hI p) (hprov.accounts p) ((hC st a hCa).of_job ha hj)
    · intro p i c call n pc _ _ _ _ hown
      exact hown.keepsPromises (hI p)

end Minotor
