import Minotor.Network.Guards

/-!
# Validity

Every value that a peer stores, proposes or accepts was created by a peer for
one of its `Tag` calls.  A predicate on values is carried through every field,
message and channel which holds one; the fields which are reset or not yet set
hold the empty value, and a proposer never proposes that.
-/

namespace Minotor

variable {P : Type*}

/-! ## Carrying a property of values -/

/-- The value has the property unless it is empty. -/
def PaxosValue.Maybe (C : PaxosValue → Prop) (v : PaxosValue) : Prop :=
  v = .empty ∨ C v

theorem PaxosValue.Maybe.mono {C D : PaxosValue → Prop} (hCD : ∀ v, C v → D v)
    {v : PaxosValue} (h : v.Maybe C) : v.Maybe D :=
  h.imp_right (hCD v)

/-- The values in a message have the property. -/
def Message.Carries (C : PaxosValue → Prop) : Message P → Prop
  | .prepare _ => True
  | .promise _ msg => ∀ v ∈ msg.acceptedValue, v.Maybe C
  | .propose msg => C msg.value
  | .accept msg => C msg.value
  | .tlc msg => C msg.block.value

def Job.Carries (C : PaxosValue → Prop) : Job P → Prop
  | .exec r => r.msg.Carries C
  | .send v => v.Maybe C
  | .marshal _ _ => True
  | .broadcast msg => msg.Carries C

/-- What a call is about to propose has the property. -/
def TagPc.Carries (C : PaxosValue → Prop) : TagPc P → Prop
  | .propose _ _ v => C v
  | .valueChan _ msg => C msg.value
  | _ => True

structure PaxosHandler.Carries (C : PaxosValue → Prop) (h : PaxosHandler) : Prop where
  proposed : h.proposedValue.Maybe C
  best : h.bestValue.Maybe C
  accepted : h.acceptedValue.Maybe C
  promised : ∀ ch, ∀ v ∈ (h.promiseChans ch).buf, v.Maybe C
  buffered : ∀ msg ∈ h.tlcMap, C msg.block.value

structure Node.Carries (C : PaxosValue → Prop) (n : Node P) : Prop where
  handler : n.handler.Carries C
  blocks : ∀ b, n.storage.HasBlock b → C b.value
  rumors : ∀ msg ∈ n.rumors, msg.Carries C

section

variable {C D : PaxosValue → Prop}

theorem Message.Carries.mono (hCD : ∀ v, C v → D v) {msg : Message P}
    (h : msg.Carries C) : msg.Carries D := by
  cases msg with
  | prepare msg => trivial
  | promise recipient msg => exact fun v hv => (h v hv).mono hCD
  | propose msg => exact hCD _ h
  | accept msg => exact hCD _ h
  | tlc msg => exact hCD _ h

theorem Job.Carries.mono (hCD : ∀ v, C v → D v) {j : Job P} (h : j.Carries C) :
    j.Carries D := by
  cases j with
  | exec r => exact Message.Carries.mono hCD h
  | send v => exact PaxosValue.Maybe.mono hCD h
  | marshal source draft => trivial
  | broadcast msg => exact Message.Carries.mono hCD h

theorem TagPc.Carries.mono (hCD : ∀ v, C v → D v) {pc : TagPc P} (h : pc.Carries C) :
    pc.Carries D := by
  cases pc with
  | propose start prep v => exact hCD _ h
  | valueChan start msg => exact hCD _ h
  | _ => trivial

theorem TagPc.Plain.carries {pc : TagPc P} (h : pc.Plain) : pc.Carries C := by
  cases pc <;> trivial

theorem PaxosHandler.Carries.mono (hCD : ∀ v, C v → D v) {h : PaxosHandler}
    (hh : h.Carries C) : h.Carries D where
  proposed := hh.proposed.mono hCD
  best := hh.best.mono hCD
  accepted := hh.accepted.mono hCD
  promised ch v hv := (hh.promised ch v hv).mono hCD
  buffered msg hmsg := hCD _ (hh.buffered msg hmsg)

theorem Node.Carries.mono (hCD : ∀ v, C v → D v) {n : Node P} (h : n.Carries C) :
    n.Carries D where
  handler := h.handler.mono hCD
  blocks b hb := hCD _ (h.blocks b hb)
  rumors msg hmsg := (h.rumors msg hmsg).mono hCD

/-! ## Operations on the handler -/

namespace PaxosHandler

variable {h : PaxosHandler}

theorem Carries.choice (hh : h.Carries C) : h.choice.Maybe C := by
  unfold PaxosHandler.choice
  split
  · exact hh.best
  · exact hh.proposed

theorem Carries.accept (hh : h.Carries C) {msg : PaxosProposeMessage} (hmsg : C msg.value) :
    (h.accepted msg).Carries C where
  proposed := hh.proposed
  best := hh.best
  accepted := by
    change PaxosValue.Maybe C (if _ then _ else _)
    split
    · exact .inr hmsg
    · exact hh.accepted
  promised := hh.promised
  buffered := hh.buffered

theorem Carries.counted (hh : h.Carries C) (msg : PaxosPromiseMessage) {v : PaxosValue}
    (hv : v.Maybe C) : (h.counted msg v).Carries C where
  proposed := hh.proposed
  best := by
    change PaxosValue.Maybe C (if _ then _ else _)
    split
    · exact hv
    · exact hh.best
  accepted := hh.accepted
  promised := hh.promised
  buffered := hh.buffered

theorem Carries.toPhase2 (hh : h.Carries C) : h.toPhase2.Carries C :=
  ⟨hh.proposed, hh.best, hh.accepted, hh.promised, hh.buffered⟩

theorem Carries.setPromiseChan (hh : h.Carries C) {ch : ℕ} {c : Chan PaxosValue}
    (hc : c.IsPromiseChan) (hbuf : ∀ v ∈ c.buf, v.Maybe C) :
    (h.setPromiseChan ch c hc).Carries C where
  proposed := hh.proposed
  best := hh.best
  accepted := hh.accepted
  promised := by
    intro ch' v hv
    change v ∈ (Function.update h.promiseChans ch c ch').buf at hv
    by_cases hch : ch' = ch
    · rw [hch, Function.update_self] at hv
      exact hbuf v hv
    · rw [Function.update_of_ne hch] at hv
      exact hh.promised ch' v hv
  buffered := hh.buffered

theorem Carries.putPromise (hh : h.Carries C) {v : PaxosValue} (hv : v.Maybe C)
    (hready : (h.promiseChans h.promiseChannel).Ready) :
    (h.putPromise v hready).Carries C := by
  refine hh.setPromiseChan _ fun w hw => ?_
  rw [Chan.send_buf, List.mem_append, List.mem_singleton] at hw
  rcases hw with hw | rfl
  · exact hh.promised _ w hw
  · exact hv

theorem Carries.advance (hh : h.Carries C) (conf : Configuration) (step : ℕ)
    (v : PaxosValue) : (h.advance conf step v).Carries C where
  proposed := .inl rfl
  best := .inl rfl
  accepted := .inl rfl
  promised := by
    intro ch w hw
    rw [advance_promiseChans] at hw
    by_cases hch : ch = h.promiseChannel + 1
    · rw [hch, Function.update_self, Chan.make_buf] at hw
      cases hw
    · rw [Function.update_of_ne hch] at hw
      exact hh.promised ch w hw
  buffered := nofun

end PaxosHandler

theorem hasBlock_storeBlock {b b' : BlockchainBlock} {s : Storage}
    (h : (storeBlock b s).HasBlock b') : b' = b ∨ s.HasBlock b' := by
  obtain ⟨key, hkey⟩ := Store.mem_values_iff.mp h
  rw [storeBlock, Store.get_set] at hkey
  split at hkey
  · cases hkey
  · rw [Store.get_set] at hkey
    split at hkey
    · cases hkey
      exact .inl rfl
    · exact .inr (Store.mem_values_iff.mpr ⟨key, hkey⟩)

theorem hasBlock_storeBlocks {bs : List BlockchainBlock} {b : BlockchainBlock} :
    ∀ {s : Storage}, (storeBlocks bs s).HasBlock b → b ∈ bs ∨ s.HasBlock b := by
  induction bs with
  | nil => exact fun h => .inr h
  | cons b' bs ih =>
      intro s h
      rcases ih h with hmem | hold
      · exact .inl (List.mem_cons_of_mem _ hmem)
      · rcases hasBlock_storeBlock hold with rfl | hold
        · exact .inl List.mem_cons_self
        · exact .inr hold

/-- The blocks caught up with come from the buffer. -/
theorem CaughtUp.mem {m : TLCMap} {threshold step : ℕ} {bs : List BlockchainBlock}
    (h : CaughtUp m threshold step bs) {b : BlockchainBlock} (hb : b ∈ bs) :
    ∃ msg ∈ m, msg.block = b := by
  obtain ⟨i, hi⟩ := List.mem_iff_getElem?.mp hb
  obtain ⟨msg, hmsg, hblock⟩ := h.buffered i b hi
  exact ⟨msg, (TLCMap.mem_at.mp hmsg).1, hblock⟩

/-- Leaving a step stores blocks of the property. -/
theorem Node.Carries.leavesStep {n : Node P} (h : n.Carries C) {conf : Configuration}
    {m : TLCMap} {block : BlockchainBlock} {bs : List BlockchainBlock} {px : PaxosNode}
    (hm : ∀ msg ∈ m, C msg.block.value) (hblock : C block.value)
    (hleave : n.paxos.LeavesStep conf m block bs px) : (n.withPaxos px).Carries C where
  handler := by
    rw [Node.handler, withPaxos_paxos, hleave.handler]
    exact h.handler.advance _ _ _
  blocks := by
    intro b hb
    rw [Node.storage, withPaxos_paxos, hleave.storage] at hb
    rcases hasBlock_storeBlocks hb with hmem | hold
    · rcases List.mem_cons.mp hmem with rfl | hmem
      · exact hblock
      · obtain ⟨msg, hmsg, rfl⟩ := hleave.caughtUp.mem hmem
        exact hm msg hmsg
    · exact h.blocks b hold
  rumors := h.rumors

/-! ## Steps -/

variable [DecidableEq P] {sha256 : Bytes → Bytes} {conf : Configuration} {self : P}
  {n n' : Node P}

/-- A job step carries the property from its message into the node and into the
job it goes on with. -/
theorem Node.JobStep.carries {j : Job P} {next : Next P} (h : n.Carries C)
    (hj : j.Carries C) (hjob : n.JobStep sha256 conf self j n' next) :
    n'.Carries C ∧ ∀ j', next = .job j' → j'.Carries C := by
  have hpromise : ∀ {r : Rumor P} {msg : PaxosPromiseMessage},
      r.msg = .promise self msg → r.msg.Carries C →
      (msg.acceptedValue.getD .empty).Maybe C := by
    intro r msg hmsg hr
    rw [hmsg] at hr
    cases hvalue : msg.acceptedValue with
    | none => exact .inl rfl
    | some v => exact hr v hvalue
  cases hjob with
  | ignored => exact ⟨h, nofun⟩
  | promised r msg hmsg hlock hstep hid =>
      have hh := h.handler
      refine ⟨⟨⟨hh.proposed, hh.best, hh.accepted, hh.promised, hh.buffered⟩, h.blocks,
        h.rumors⟩, ?_⟩
      rintro j' ⟨⟩
      trivial
  | accepted r msg hmsg hlock hstep hid =>
      have hvalue : C msg.value := by
        rwa [Job.Carries, hmsg] at hj
      refine ⟨⟨h.handler.accept hvalue, h.blocks, h.rumors⟩, ?_⟩
      rintro j' ⟨⟩
      exact hvalue
  | counted r msg hmsg =>
      exact ⟨⟨h.handler.counted msg (hpromise hmsg hj), h.blocks, h.rumors⟩, nofun⟩
  | chosen r msg h' hmsg _ _ _ _ _ hh hready =>
      have hphase : h'.Carries C := by
        subst hh
        exact (h.handler.counted msg (hpromise hmsg hj)).toPhase2
      exact ⟨⟨hphase.putPromise hphase.choice hready, h.blocks, h.rumors⟩, nofun⟩
  | blocks r msg h' hmsg _ _ _ _ _ hh hready =>
      have hphase : h'.Carries C := by
        subst hh
        exact (h.handler.counted msg (hpromise hmsg hj)).toPhase2
      refine ⟨⟨⟨hphase.proposed, hphase.best, hphase.accepted, hphase.promised,
        hphase.buffered⟩, h.blocks, h.rumors⟩, ?_⟩
      rintro j' ⟨⟩
      exact hphase.choice
  | panics r msg err hmsg =>
      have hh := h.handler
      exact ⟨⟨⟨hh.proposed, hh.best, hh.accepted, hh.promised, hh.buffered⟩, h.blocks,
        h.rumors⟩, nofun⟩
  | countedAccept r msg hmsg =>
      have hh := h.handler
      exact ⟨⟨⟨hh.proposed, hh.best, hh.accepted, hh.promised, hh.buffered⟩, h.blocks,
        h.rumors⟩, nofun⟩
  | decided r msg block bs px hmsg hlock hstep hfull hblock hleave =>
      have hvalue : C block.value := by
        rw [Job.Carries, hmsg] at hj
        rw [hblock]
        exact hj
      have hleft := h.leavesStep h.handler.buffered hvalue hleave
      refine ⟨⟨hleft.handler, hleft.blocks, hleft.rumors⟩, ?_⟩
      rintro j' ⟨⟩
      exact hvalue
  | buffered r msg hmsg hlock hle =>
      have hh := h.handler
      have hvalue : C msg.block.value := by
        rwa [Job.Carries, hmsg] at hj
      refine ⟨⟨⟨hh.proposed, hh.best, hh.accepted, hh.promised, ?_⟩, h.blocks,
        h.rumors⟩, nofun⟩
      exact List.forall_mem_append.mpr ⟨hh.buffered, List.forall_mem_singleton.mpr hvalue⟩
  | finished r msg bs px hmsg hlock hstep hfull hleave =>
      have hvalue : C msg.block.value := by
        rwa [Job.Carries, hmsg] at hj
      refine ⟨h.leavesStep ?_ hvalue hleave, ?_⟩
      · exact List.forall_mem_append.mpr
          ⟨h.handler.buffered, List.forall_mem_singleton.mpr hvalue⟩
      · rintro j' ⟨⟩
        exact hvalue
  | sent v hready =>
      have hh := h.handler.putPromise hj hready
      exact ⟨⟨⟨hh.proposed, hh.best, hh.accepted, hh.promised, hh.buffered⟩, h.blocks,
        h.rumors⟩, nofun⟩
  | marshalled source draft =>
      refine ⟨h, ?_⟩
      rintro j' ⟨⟩
      intro v hv
      -- the pointer is read now: the value may have been reset to empty meanwhile
      change v ∈ (if _ then _ else _) at hv
      split at hv
      · cases hv
        exact h.handler.accepted
      · cases hv
  | broadcast msg =>
      refine ⟨⟨h.handler, h.blocks, ?_⟩, ?_⟩
      · exact List.forall_mem_append.mpr ⟨h.rumors, List.forall_mem_singleton.mpr hj⟩
      · rintro j' ⟨⟩
        exact hj

omit [DecidableEq P] in
/-- An own step of a call carries the property: the value it creates has it by
assumption, and an empty choice is not proposed. -/
theorem TagCall.OwnStep.carries {i : ℕ} {call : TagCall P} {c : Choice} {pc : TagPc P}
    (h : n.Carries C) (hpc : call.pc.Carries C)
    (hnew : ∀ uniqID, c = .fresh uniqID → C ⟨uniqID, call.name, call.mh⟩)
    (hown : call.OwnStep conf self i n c n' pc) :
    n'.Carries C ∧ pc.Carries C ∧ ∀ j, pc.job? = some j → j.Carries C := by
  have hh := h.handler
  have hjobs : ∀ j, pc.job? = some j → j.Carries C := by
    intro j hj
    rcases hown.broadcasts hj with ⟨_, _, _, rfl⟩ | ⟨_, _, hcall, rfl⟩
    · trivial
    · rw [hcall] at hpc
      exact hpc
  cases hown with
  | quiet _ _ hquiet => exact ⟨h, hquiet.plain.carries, hjobs⟩
  | setName => exact ⟨⟨hh, h.blocks, h.rumors⟩, trivial, hjobs⟩
  | initInstance =>
      exact ⟨⟨⟨hh.proposed, hh.best, hh.accepted, hh.promised, hh.buffered⟩, h.blocks,
        h.rumors⟩, trivial, hjobs⟩
  | prepare start uniqID =>
      exact ⟨⟨⟨.inr (hnew uniqID rfl), hh.best, hh.accepted, hh.promised, hh.buffered⟩,
        h.blocks, h.rumors⟩, trivial, hjobs⟩
  | promiseChan => exact ⟨h, trivial, hjobs⟩
  | recvPromise start prep ch value h' _ hrecv _ hnext =>
      obtain ⟨c, hc, hbuf, rfl⟩ := PaxosHandler.recvPromise_eq hrecv
      have hwaiting := hh.promised ch
      rw [hbuf, List.forall_mem_cons] at hwaiting
      refine ⟨⟨hh.setPromiseChan hc hwaiting.2, h.blocks, h.rumors⟩, ?_, hjobs⟩
      rw [hnext]
      split
      · trivial
      · next hne => exact hwaiting.1.resolve_left hne
  | retryPrepare =>
      exact ⟨⟨⟨hh.proposed, hh.best, hh.accepted, hh.promised, hh.buffered⟩, h.blocks,
        h.rumors⟩, trivial, hjobs⟩
  | propose start prep value hcall =>
      rw [hcall] at hpc
      exact ⟨⟨hh, h.blocks, h.rumors⟩, hpc, hjobs⟩
  | valueChan => exact ⟨h, trivial, hjobs⟩
  | recvValue start ch finalValue h' _ hrecv _ hnext =>
      obtain ⟨cs, hcs, rfl⟩ := PaxosHandler.recvValue_eq hrecv
      refine ⟨⟨⟨hh.proposed, hh.best, hh.accepted, hh.promised, hh.buffered⟩, h.blocks,
        h.rumors⟩, ?_, hjobs⟩
      rw [hnext]
      split <;> trivial
  | retryPropose =>
      exact ⟨⟨⟨hh.proposed, hh.best, hh.accepted, hh.promised, hh.buffered⟩, h.blocks,
        h.rumors⟩, trivial, hjobs⟩

end

/-! ## Created values -/

namespace System

/-- A peer created the value in phase 1 for one of its `Tag` calls, with the
name and the metahash of the call and an identifier of its own. -/
def Created (st : System P) (v : PaxosValue) : Prop :=
  ∃ p i msg call, .prepared i msg v ∈ (st.peers p).node.history ∧
    (st.peers p).calls[i]? = some call ∧ call.Matches v ∧ v.uniqID ≠ ""

theorem Created.ne_empty {st : System P} {v : PaxosValue} (h : st.Created v) :
    v ≠ .empty := by
  obtain ⟨p, i, msg, call, -, -, -, huniqID⟩ := h
  exact PaxosValue.ne_empty_of_uniqID huniqID

/-- Only created values are around. -/
structure CarriesCreated (st : System P) : Prop where
  nodes : ∀ p, (st.peers p).node.Carries st.Created
  jobs : ∀ p t j, (st.peers p).job? t = some j → j.Carries st.Created
  calls : ∀ p (i : ℕ) call, (st.peers p).calls[i]? = some call →
    call.pc.Carries st.Created

variable [DecidableEq P] {sha256 : Bytes → Bytes} {conf : P → Configuration}
  {st st' : System P} {a : Action P}

theorem Created.step {v : PaxosValue} (h : st.Created v)
    (hstep : Step sha256 conf st a st') : st'.Created v := by
  obtain ⟨p, i, msg, call, hevent, hcall, hmatches, huniqID⟩ := h
  obtain ⟨call', hcall', hname, hmh⟩ := hstep.exists_call hcall
  refine ⟨p, i, msg, call', (hstep.history_suffix p).subset hevent, hcall', ?_, huniqID⟩
  exact ⟨hmatches.1.trans hname.symm, hmatches.2.trans hmh.symm⟩

/-- The value a call creates is created. -/
theorem created_of_prepare {p : P} {i : ℕ} {call : TagCall P} {uniqID : String}
    {n : Node P} {pc : TagPc P} (hcall : (st.peers p).calls[i]? = some call)
    (hstep : Step sha256 conf st a st') (huniqID : uniqID ≠ "")
    (hnode : (st'.peers p).node = n)
    (hown : call.OwnStep (conf p) p i (st.peers p).node (.fresh uniqID) n pc) :
    st'.Created ⟨uniqID, call.name, call.mh⟩ := by
  obtain ⟨call', hcall', hname, hmh⟩ := hstep.exists_call hcall
  have hmsg := hown.prepares
  rw [← hnode] at hmsg
  exact ⟨p, i, _, call', hmsg, hcall', ⟨hname.symm, hmh.symm⟩, huniqID⟩

theorem CarriesCreated.step (h : st.CarriesCreated) (hstep : Step sha256 conf st a st') :
    st'.CarriesCreated := by
  have hmono : ∀ v, st.Created v → st'.Created v := fun v hv => hv.step hstep
  have hnodes p := (h.nodes p).mono hmono
  have hnew : ∀ {p i c} {call : TagCall P} {n pc},
      (st.peers p).calls[i]? = some call → st.FreshIn c → (st'.peers p).node = n →
      call.OwnStep (conf p) p i (st.peers p).node c n pc →
      ∀ uniqID, c = .fresh uniqID → st'.Created ⟨uniqID, call.name, call.mh⟩ := by
    intro p i c call n pc hcall hfresh hnode hown uniqID hc
    subst hc
    exact created_of_prepare hcall hstep hfresh.1 hnode hown
  refine ⟨?_, ?_, ?_⟩
  · refine hstep.forall_node (I := fun _ n => n.Carries st'.Created) hnodes ?_ ?_ ?_
    · intro p n n' hpaxos hrumors _ hn
      refine ⟨?_, ?_, ?_⟩
      · rw [Node.handler, hpaxos]
        exact hn.handler
      · rw [Node.storage, hpaxos]
        exact hn.blocks
      · rw [hrumors]
        exact hn.rumors
    · intro p t j n next _ hj _ hjob
      exact (hjob.carries (hnodes p) ((h.jobs p t j hj).mono hmono)).1
    · intro p i c call n pc _ hcall hfresh hnode hown
      exact (hown.carries (hnodes p) ((h.calls p i call hcall).mono hmono)
        (hnew hcall hfresh hnode hown)).1
  · refine hstep.forall_job h.jobs (fun _ _ hj => hj.mono hmono) ?_ ?_ ?_
    · intro p origin sequence msg _ _ hmsg
      exact (hnodes origin).rumors msg (List.mem_of_getElem? hmsg)
    · intro p t j n j' _ hj _ hjob
      exact (hjob.carries (hnodes p) ((h.jobs p t j hj).mono hmono)).2 j' rfl
    · intro p i c call n pc j' _ hcall hfresh hnode hown hj'
      exact (hown.carries (hnodes p) ((h.calls p i call hcall).mono hmono)
        (hnew hcall hfresh hnode hown)).2.2 j' hj'
  · refine hstep.forall_call (K := fun _ call => call.pc.Carries st.Created) h.calls
      (fun _ _ hpc => hpc.mono hmono) (fun _ _ _ => trivial) ?_ ?_
    · intro p i call j n next _ _ hj _ _ _
      cases hpc : call.pc with
      | sendPrepare => cases next <;> trivial
      | sendPropose => cases next <;> trivial
      | _ =>
          rw [hpc] at hj
          cases hj
    · intro p i c call n pc _ hcall hpc hfresh hnode hown
      exact (hown.carries (hnodes p) (hpc.mono hmono)
        (hnew hcall hfresh hnode hown)).2.1

theorem carriesCreated_of_reachable {C : System P → Action P → Prop}
    (h : (network sha256 conf).ReachableUnder C st) : st.CarriesCreated := by
  refine network_invariant ?_ (fun _ _ _ _ hI _ hstep => hI.step hstep) h
  refine ⟨fun p => ⟨⟨.inl rfl, .inl rfl, .inl rfl, nofun, nofun⟩, ?_, nofun⟩, ?_, nofun⟩
  · intro b hb
    obtain ⟨key, hkey⟩ := Store.mem_values_iff.mp hb
    cases hkey
  · intro p t j hj
    cases t <;> cases hj

end System

/-- Every value in a stored block was created for a `Tag` call, and the empty
value is never stored, proposed or accepted. -/
theorem only_created_values {P : Type*} [DecidableEq P] (sha256 : Bytes → Bytes)
    (conf : P → Configuration) (st : System P) (h : (network sha256 conf).Reachable st)
    (p : P) :
    (∀ b, (st.peers p).node.storage.HasBlock b →
      st.Created b.value ∧ b.value ≠ .empty) ∧
    (∀ msg, .propose msg ∈ (st.peers p).node.rumors → msg.value ≠ .empty) ∧
    (∀ msg, .accept msg ∈ (st.peers p).node.rumors → msg.value ≠ .empty) := by
  have hnode := (System.carriesCreated_of_reachable h).nodes p
  refine ⟨fun b hb => ?_, fun msg hmsg => ?_, fun msg hmsg => ?_⟩
  · exact ⟨hnode.blocks b hb, (hnode.blocks b hb).ne_empty⟩
  · exact System.Created.ne_empty (hnode.rumors _ hmsg)
  · exact System.Created.ne_empty (hnode.rumors _ hmsg)

theorem only_created_values_of_tagRun :
    ∃ st, (network sha256 (majorityNetwork 2)).Reachable st ∧
      ∃ b, (st.peers 0).node.storage.HasBlock b ∧ st.Created b.value := by
  obtain ⟨st, hst, hblock⟩ := TransitionSystem.exists_of_replay
    (S := network sha256 (majorityNetwork 2)) (fun _ _ => True) Action.tagRun
    (fun st => (st.peers 0).node.storage.HasBlock
      (mkBlock sha256 0 ⟨"id", "file", "meta"⟩ zeroHash)) (by decide +kernel)
  exact ⟨st, hst, _, hblock, ((only_created_values _ _ st hst 0).1 _ hblock).1⟩

end Minotor
