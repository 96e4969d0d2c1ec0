import Minotor.Peer.Steps
import Minotor.Network.System

/-!
# Steps of a network

One action changes one peer: a job step or an own step of one of its
goroutines, a new call, a received rumor or `Stop`.  The other goroutines of
the peer keep their jobs and program points.
-/

namespace Minotor

variable {P : Type*}

/-- The goroutine which an action moves. -/
def Action.thread? : Action P → Option (P × Peer.Thread)
  | .listen p => some (p, .listener)
  | .call p i _ => some (p, .call i)
  | _ => none

/-- The job with which a step of a job ends. -/
def Next.job? : Next P → Option (Job P)
  | .job j => some j
  | _ => none

/-- A step of a broadcast goes on with its job or ends at a plain point or at
the select after the broadcast. -/
theorem TagPc.job?_withNext {pc : TagPc P} {j : Job P} (hj : pc.job? = some j)
    (next : Next P) : (pc.withNext next).job? = next.job? := by
  cases pc <;> cases next <;> first | rfl | cases hj

/-- Two nodes which differ in their flags at most. -/
structure Node.Agrees (n n' : Node P) : Prop where
  paxos : n'.paxos = n.paxos
  rumors : n'.rumors = n.rumors
  sequenceMap : n'.sequenceMap = n.sequenceMap
  history : n'.history = n.history

namespace Peer

section

variable (peer : Peer P) (n : Node P)

@[simp] theorem movePc_node (i : ℕ) (f : TagPc P → TagPc P) :
    (peer.movePc n i f).node = n := rfl

variable (t : Thread) (next : Next P)

theorem afterJob_agrees : n.Agrees (peer.afterJob t n next).node := by
  cases t <;> cases next <;> exact ⟨rfl, rfl, rfl, rfl⟩

end

variable {peer : Peer P} {n : Node P} {t : Thread} {j : Job P}

/-- A call after the program point of call `i` has moved. -/
theorem getElem?_movePc {i k : ℕ} {f : TagPc P → TagPc P} {call : TagCall P}
    (hcall : (peer.movePc n i f).calls[k]? = some call) :
    ∃ old, peer.calls[k]? = some old ∧
      call = if k = i then { old with pc := f old.pc } else old := by
  rw [movePc, List.getElem?_modify, Option.map_eq_map, Option.map_eq_some_iff] at hcall
  obtain ⟨old, hold, rfl⟩ := hcall
  refine ⟨old, hold, ?_⟩
  by_cases hk : i = k
  · rw [if_pos hk, if_pos hk.symm]
  · rw [if_neg hk, if_neg (Ne.symm hk)]

theorem job?_movePc {i : ℕ} {f : TagPc P → TagPc P} {call : TagCall P}
    (hcall : peer.calls[i]? = some call) (t : Thread) :
    (peer.movePc n i f).job? t =
      if t = .call i then (f call.pc).job? else peer.job? t := by
  cases t with
  | listener => rfl
  | call k =>
      by_cases hk : k = i
      · subst hk
        simp [job?, movePc, hcall]
      · have hk' : ¬ i = k := Ne.symm hk
        simp [job?, movePc, hk, hk']

/-- The jobs after a step of the job of `t`. -/
theorem job?_afterJob (hj : peer.job? t = some j) (next : Next P) (t' : Thread) :
    (peer.afterJob t n next).job? t' = if t' = t then next.job? else peer.job? t' := by
  cases t with
  | listener =>
      cases t' with
      | listener => cases next <;> rfl
      | call k => cases next <;> rfl
  | call i =>
      rw [job?, Option.bind_eq_some_iff] at hj
      obtain ⟨call, hcall, hpc⟩ := hj
      rw [afterJob, job?_movePc hcall, TagPc.job?_withNext hpc]

/-- A call after a step of the job of `t`. -/
theorem getElem?_afterJob {next : Next P} {k : ℕ} {call : TagCall P}
    (hcall : (peer.afterJob t n next).calls[k]? = some call) :
    ∃ old, peer.calls[k]? = some old ∧
      call = if t = .call k then { old with pc := old.pc.withNext next } else old := by
  cases t with
  | listener =>
      refine ⟨call, ?_, rfl⟩
      cases next <;> exact hcall
  | call i =>
      obtain ⟨old, hold, heq⟩ := getElem?_movePc hcall
      refine ⟨old, hold, ?_⟩
      rw [heq]
      by_cases hk : k = i
      · rw [if_pos hk, if_pos (by rw [hk])]
      · rw [if_neg hk, if_neg]
        rintro ⟨⟩
        exact hk rfl

theorem exists_movePc {i k : ℕ} {f : TagPc P → TagPc P} {call : TagCall P}
    (hcall : peer.calls[k]? = some call) :
    ∃ call', (peer.movePc n i f).calls[k]? = some call' ∧ call'.name = call.name ∧
      call'.mh = call.mh := by
  rw [movePc, List.getElem?_modify, hcall]
  by_cases hk : i = k
  · exact ⟨{ call with pc := f call.pc }, by simp [hk], rfl, rfl⟩
  · exact ⟨call, by simp [hk], rfl, rfl⟩

theorem exists_afterJob {next : Next P} {k : ℕ} {call : TagCall P}
    (hcall : peer.calls[k]? = some call) :
    ∃ call', (peer.afterJob t n next).calls[k]? = some call' ∧ call'.name = call.name ∧
      call'.mh = call.mh := by
  cases t with
  | listener =>
      refine ⟨call, ?_, rfl, rfl⟩
      cases next <;> exact hcall
  | call i => exact exists_movePc hcall

/-- A new call has no job. -/
theorem job?_append (peer : Peer P) (name mh : String) (t : Thread) :
    ({ peer with calls := peer.calls ++ [⟨name, mh, .lookup⟩] } : Peer P).job? t =
      peer.job? t := by
  cases t with
  | listener => rfl
  | call k =>
      simp only [job?]
      rcases lt_trichotomy k peer.calls.length with hlt | heq | hgt
      · rw [List.getElem?_append_left hlt]
      · rw [List.getElem?_append_right heq.ge, heq]
        simp [TagPc.job?]
      · rw [List.getElem?_eq_none (by rw [List.length_append, List.length_singleton]; omega),
          List.getElem?_eq_none hgt.le]

end Peer

namespace System

variable [DecidableEq P]

@[simp] theorem setPeer_self (st : System P) (p : P) (peer : Peer P) :
    (st.setPeer p peer).peers p = peer :=
  Function.update_self ..

theorem setPeer_of_ne (st : System P) {p q : P} (peer : Peer P) (h : q ≠ p) :
    (st.setPeer p peer).peers q = st.peers q :=
  Function.update_of_ne h ..

/-- The steps of a network. -/
inductive Step (sha256 : Bytes → Bytes) (conf : P → Configuration) (st : System P) :
    Action P → System P → Prop where
  | tag (p : P) (name mh : String) :
      Step sha256 conf st (.tag p name mh)
        (st.setPeer p { st.peers p with
          calls := (st.peers p).calls ++ [⟨name, mh, .lookup⟩] })
  | deliver (p origin : P) (sequence : ℕ) (msg : Message P)
      (hidle : (st.peers p).listener = none) (hpos : 0 < sequence)
      (hmsg : (st.peers origin).node.rumors[sequence - 1]? = some msg) :
      Step sha256 conf st (.deliver p origin sequence)
        (st.setPeer p (receive (st.peers p) ⟨origin, sequence, msg⟩))
  | job (a : Action P) (p : P) (t : Peer.Thread) (j : Job P) (n : Node P)
      (next : Next P) (ha : a.thread? = some (p, t))
      (hjob : (st.peers p).job? t = some j)
      (hstep : (st.peers p).node.JobStep sha256 (conf p) p j n next) :
      Step sha256 conf st a (st.setPeer p ((st.peers p).afterJob t n next))
  | own (p : P) (i : ℕ) (c : Choice) (call : TagCall P) (n : Node P) (pc : TagPc P)
      (hcall : (st.peers p).calls[i]? = some call) (hjob : call.pc.job? = none)
      (hfresh : st.FreshIn c)
      (hown : call.stepOwn (conf p) p i (st.peers p).node c = some (n, pc))
      (hstep : call.OwnStep (conf p) p i (st.peers p).node c n pc) :
      Step sha256 conf st (.call p i c)
        { st.setPeer p ((st.peers p).movePc n i fun _ => pc) with
          xids := drawn c ++ st.xids }
  | stop (p : P) :
      Step sha256 conf st (.stop p)
        (st.setPeer p { st.peers p with
          node := { (st.peers p).node with stopped := true, run := false } })

/-- The handlers are configured. -/
def Configured (conf : P → Configuration) (st : System P) : Prop :=
  ∀ p, (st.peers p).node.handler.Configured (conf p)

variable {sha256 : Bytes → Bytes} {conf : P → Configuration} {st st' : System P}
  {a : Action P}

/-- An action of the network is one of the steps above. -/
theorem step_of_next (hconf : st.Configured conf)
    (hnext : next sha256 conf st a = some st') : Step sha256 conf st a st' := by
  have hT : ∀ p, 1 ≤ (st.peers p).node.handler.threshold := by
    intro p
    rw [(hconf p).threshold]
    exact (conf p).one_le_threshold
  cases a with
  | tag p name mh =>
      cases hnext
      exact .tag p name mh
  | deliver p origin sequence =>
      rw [next, Option.ite_none_right_eq_some, Option.map_eq_some_iff] at hnext
      obtain ⟨⟨-, hidle, hpos⟩, msg, hmsg, rfl⟩ := hnext
      exact .deliver p origin sequence msg hidle hpos hmsg
  | listen p =>
      rw [next, Option.map_eq_some_iff] at hnext
      obtain ⟨peer, hlisten, rfl⟩ := hnext
      rw [Peer.listen, Option.bind_eq_some_iff] at hlisten
      obtain ⟨j, hj, hrun⟩ := hlisten
      rw [Option.map_eq_some_iff] at hrun
      obtain ⟨⟨n, nxt⟩, hrun, rfl⟩ := hrun
      exact .job _ p .listener j n nxt rfl hj (Node.runJob_step (hT p) hrun)
  | call p i c =>
      rw [next, Option.ite_none_right_eq_some, Option.map_eq_some_iff] at hnext
      obtain ⟨hfresh, peer, hcall, rfl⟩ := hnext
      rw [Peer.stepCall, Option.bind_eq_some_iff] at hcall
      obtain ⟨call, hcall, hrun⟩ := hcall
      cases hj : call.pc.job? with
      | none =>
          simp only [hj, Option.map_eq_some_iff] at hrun
          obtain ⟨⟨n, pc⟩, hstep, rfl⟩ := hrun
          exact .own p i c call n pc hcall hj hfresh hstep (TagCall.stepOwn_step hstep)
      | some j =>
          simp only [hj, Option.ite_none_right_eq_some, Option.map_eq_some_iff] at hrun
          obtain ⟨rfl, ⟨n, nxt⟩, hrun, rfl⟩ := hrun
          refine .job _ p (.call i) j n nxt rfl ?_ (Node.runJob_step (hT p) hrun)
          rw [Peer.job?, hcall]
          exact hj
  | stop p =>
      cases hnext
      exact .stop p

/-- A property of peers holds after a step if the peers have it before and the
peer that takes the step has it after. -/
theorem Step.forall_peer {I : P → Peer P → Prop} (hsame : ∀ p, I p (st.peers p))
    (hstep : Step sha256 conf st a st')
    (htag : ∀ p name mh, a = .tag p name mh →
      I p { st.peers p with calls := (st.peers p).calls ++ [⟨name, mh, .lookup⟩] })
    (hdeliver : ∀ p origin sequence msg, a = .deliver p origin sequence →
      (st.peers p).listener = none → 0 < sequence →
      (st.peers origin).node.rumors[sequence - 1]? = some msg →
      I p (receive (st.peers p) ⟨origin, sequence, msg⟩))
    (hjob : ∀ p t j n next, a.thread? = some (p, t) → (st.peers p).job? t = some j →
      st'.peers p = (st.peers p).afterJob t n next →
      (st.peers p).node.JobStep sha256 (conf p) p j n next →
      I p ((st.peers p).afterJob t n next))
    (hown : ∀ p i c (call : TagCall P) n pc, a = .call p i c →
      (st.peers p).calls[i]? = some call → call.pc.job? = none → st.FreshIn c →
      st'.peers p = (st.peers p).movePc n i (fun _ => pc) →
      call.OwnStep (conf p) p i (st.peers p).node c n pc →
      I p ((st.peers p).movePc n i fun _ => pc))
    (hstop : ∀ p, a = .stop p →
      I p { st.peers p with
        node := { (st.peers p).node with stopped := true, run := false } }) :
    ∀ p, I p (st'.peers p) := by
  have hupdate : ∀ {p : P} {peer : Peer P}, I p peer →
      ∀ q, I q ((st.setPeer p peer).peers q) := by
    intro p peer hp q
    by_cases hq : q = p
    · subst hq
      rwa [setPeer_self]
    · rw [setPeer_of_ne _ _ hq]
      exact hsame q
  cases hstep with
  | tag p name mh => exact hupdate (htag p name mh rfl)
  | deliver p origin sequence msg hidle hpos hmsg =>
      exact hupdate (hdeliver p origin sequence msg rfl hidle hpos hmsg)
  | job a p t j n next ha hj hstep =>
      exact hupdate (hjob p t j n next ha hj (setPeer_self ..) hstep)
  | own p i c call n pc hcall hj hfresh _ hstep =>
      exact hupdate (hown p i c call n pc rfl hcall hj hfresh (setPeer_self ..) hstep)
  | stop p => exact hupdate (hstop p rfl)

/-- A property of the shared states of all peers which holds after every job step
and every own step of a peer, and is blind to its flags and its sequence map,
holds after every step. -/
theorem Step.forall_node {I : P → Node P → Prop} (h : ∀ p, I p (st.peers p).node)
    (hstep : Step sha256 conf st a st')
    (hflags : ∀ p n n', n'.paxos = n.paxos → n'.rumors = n.rumors →
      n'.history = n.history → I p n → I p n')
    (hjob : ∀ p t j n next, a.thread? = some (p, t) → (st.peers p).job? t = some j →
      n.Agrees (st'.peers p).node → (st.peers p).node.JobStep sha256 (conf p) p j n next →
      I p n)
    (hown : ∀ p i c (call : TagCall P) n pc, a = .call p i c →
      (st.peers p).calls[i]? = some call → st.FreshIn c → (st'.peers p).node = n →
      call.OwnStep (conf p) p i (st.peers p).node c n pc → I p n) :
    ∀ p, I p (st'.peers p).node := by
  refine hstep.forall_peer (I := fun p peer => I p peer.node) h ?_ ?_ ?_ ?_ ?_
  · intro p name mh _
    exact h p
  · intro p origin sequence msg _ _ _ _
    exact hflags p (st.peers p).node _ rfl rfl rfl (h p)
  · intro p t j n next ha hj hpeer hstep
    have hagrees := Peer.afterJob_agrees (st.peers p) n t next
    refine hflags p n _ hagrees.paxos hagrees.rumors hagrees.history
      (hjob p t j n next ha hj ?_ hstep)
    rwa [hpeer]
  · intro p i c call n pc ha hcall _ hfresh hpeer hstep
    exact hown p i c call n pc ha hcall hfresh (by rw [hpeer]; rfl) hstep
  · intro p _
    exact hflags p (st.peers p).node _ rfl rfl rfl (h p)

/-- A property of all jobs is kept if the jobs which a step creates have it. -/
theorem Step.forall_job {J L : P → Job P → Prop}
    (h : ∀ p t j, (st.peers p).job? t = some j → J p j)
    (hstep : Step sha256 conf st a st') (hmono : ∀ p j, J p j → L p j)
    (hdeliver : ∀ p origin sequence msg, a = .deliver p origin sequence → 0 < sequence →
      (st.peers origin).node.rumors[sequence - 1]? = some msg →
      L p (.exec ⟨origin, sequence, msg⟩))
    (hjob : ∀ p t j n j', a.thread? = some (p, t) → (st.peers p).job? t = some j →
      n.Agrees (st'.peers p).node →
      (st.peers p).node.JobStep sha256 (conf p) p j n (.job j') → L p j')
    (hown : ∀ p i c (call : TagCall P) n pc j', a = .call p i c →
      (st.peers p).calls[i]? = some call → st.FreshIn c → (st'.peers p).node = n →
      call.OwnStep (conf p) p i (st.peers p).node c n pc → pc.job? = some j' → L p j') :
    ∀ p t j, (st'.peers p).job? t = some j → L p j := by
  have hold : ∀ p t j, (st.peers p).job? t = some j → L p j :=
    fun p t j hj => hmono p j (h p t j hj)
  refine hstep.forall_peer
    (I := fun p peer => ∀ t j, peer.job? t = some j → L p j) hold ?_ ?_ ?_ ?_ ?_
  · intro p name mh _ t j hj
    rw [Peer.job?_append] at hj
    exact hold p t j hj
  · intro p origin sequence msg ha _ hpos hmsg t j hj
    cases t with
    | listener =>
        cases hj
        exact hdeliver p origin sequence msg ha hpos hmsg
    | call k => exact hold p (.call k) j hj
  · intro p t j n next ha hj hpeer hstep t' j' hj'
    rw [Peer.job?_afterJob hj] at hj'
    split at hj'
    · cases next with
      | job j'' =>
          cases hj'
          refine hjob p t j n j' ha hj ?_ hstep
          rw [hpeer]
          exact Peer.afterJob_agrees ..
      | done => cases hj'
      | failed err => cases hj'
    · exact hold p t' j' hj'
  · intro p i c call n pc ha hcall _ hfresh hpeer hstep t' j' hj'
    rw [Peer.job?_movePc hcall] at hj'
    split at hj'
    · exact hown p i c call n pc j' ha hcall hfresh (by rw [hpeer]; rfl) hstep hj'
    · exact hold p t' j' hj'
  · intro p _ t j hj
    cases t with
    | listener => exact hold p .listener j hj
    | call k => exact hold p (.call k) j hj

/-- A property of all calls is kept if new calls have it and the steps of a call
keep it. -/
theorem Step.forall_call {K M : P → TagCall P → Prop}
    (h : ∀ p (i : ℕ) call, (st.peers p).calls[i]? = some call → K p call)
    (hstep : Step sha256 conf st a st') (hmono : ∀ p call, K p call → M p call)
    (htag : ∀ p name mh, M p ⟨name, mh, .lookup⟩)
    (hjob : ∀ p i (call : TagCall P) j n next, a.thread? = some (p, .call i) →
      (st.peers p).calls[i]? = some call → call.pc.job? = some j → K p call →
      n.Agrees (st'.peers p).node → (st.peers p).node.JobStep sha256 (conf p) p j n next →
      M p { call with pc := call.pc.withNext next })
    (hown : ∀ p i c (call : TagCall P) n pc, a = .call p i c →
      (st.peers p).calls[i]? = some call → K p call → st.FreshIn c →
      (st'.peers p).node = n → call.OwnStep (conf p) p i (st.peers p).node c n pc →
      M p { call with pc := pc }) :
    ∀ p (i : ℕ) call, (st'.peers p).calls[i]? = some call → M p call := by
  have hold : ∀ p (i : ℕ) call, (st.peers p).calls[i]? = some call → M p call :=
    fun p i call hcall => hmono p call (h p i call hcall)
  refine hstep.forall_peer
    (I := fun p peer => ∀ (i : ℕ) call, peer.calls[i]? = some call → M p call) hold
    ?_ ?_ ?_ ?_ ?_
  · intro p name mh _ i call hcall
    rw [List.getElem?_append] at hcall
    split at hcall
    · exact hold p i call hcall
    · rw [List.getElem?_singleton] at hcall
      split at hcall
      · cases hcall
        exact htag p name mh
      · cases hcall
  · intro p origin sequence msg _ _ _ _
    exact hold p
  · intro p t j n next ha hj hpeer hstep i call hcall
    obtain ⟨old, hcall', rfl⟩ := Peer.getElem?_afterJob hcall
    split
    · next ht =>
        subst ht
        rw [Peer.job?, hcall'] at hj
        refine hjob p i old j n next ha hcall' hj (h p i old hcall') ?_ hstep
        rw [hpeer]
        exact Peer.afterJob_agrees ..
    · exact hold p i old hcall'
  · intro p i c call n pc ha hcall _ hfresh hpeer hstep k call' hcall'
    obtain ⟨old, hcallk, rfl⟩ := Peer.getElem?_movePc hcall'
    split
    · next hk =>
        subst hk
        rw [hcall] at hcallk
        cases hcallk
        exact hown p k c call n pc ha hcall (h p k call hcall) hfresh (by rw [hpeer]; rfl)
          hstep
    · exact hold p k old hcallk
  · intro p _
    exact hold p

/-- Calls stay, with their name and metahash. -/
theorem Step.exists_call {p : P} {i : ℕ} {call : TagCall P}
    (hcall : (st.peers p).calls[i]? = some call) (hstep : Step sha256 conf st a st') :
    ∃ call', (st'.peers p).calls[i]? = some call' ∧ call'.name = call.name ∧
      call'.mh = call.mh := by
  refine hstep.forall_peer (I := fun q peer => ∀ call,
    (st.peers q).calls[i]? = some call → ∃ call', peer.calls[i]? = some call' ∧
      call'.name = call.name ∧ call'.mh = call.mh) ?_ ?_ ?_ ?_ ?_ ?_ p call hcall
  · intro q call hcall
    exact ⟨call, hcall, rfl, rfl⟩
  · intro q name mh _ call hcall
    obtain ⟨hlt, -⟩ := List.getElem?_eq_some_iff.mp hcall
    exact ⟨call, by rw [List.getElem?_append_left hlt, hcall], rfl, rfl⟩
  · intro q origin sequence msg _ _ _ _ call hcall
    exact ⟨call, hcall, rfl, rfl⟩
  · intro q t j n next _ _ _ _ call hcall
    exact Peer.exists_afterJob hcall
  · intro q k c _ n pc _ _ _ _ _ _ call hcall
    exact Peer.exists_movePc hcall
  · intro q _ call hcall
    exact ⟨call, hcall, rfl, rfl⟩

theorem Step.rumors_prefix (hstep : Step sha256 conf st a st') (p : P) :
    (st.peers p).node.rumors <+: (st'.peers p).node.rumors := by
  refine hstep.forall_node (I := fun p n => (st.peers p).node.rumors <+: n.rumors)
    (fun _ => List.prefix_rfl) ?_ ?_ ?_ p
  · intro p n n' _ hrumors _ hn
    rwa [hrumors]
  · intro p t j n next _ _ _ hjob
    exact hjob.rumors_prefix
  · intro p i c call n pc _ _ _ _ hown
    rw [hown.rumors_eq]

theorem Step.history_suffix (hstep : Step sha256 conf st a st') (p : P) :
    (st.peers p).node.history <:+ (st'.peers p).node.history := by
  refine hstep.forall_node (I := fun p n => (st.peers p).node.history <:+ n.history)
    (fun _ => List.suffix_rfl) ?_ ?_ ?_ p
  · intro p n n' _ _ hhistory hn
    rwa [hhistory]
  · intro p t j n next _ _ _ hjob
    exact hjob.history_suffix
  · intro p i c call n pc _ _ _ _ hown
    exact hown.history_suffix

theorem Configured.step (h : st.Configured conf) (hstep : Step sha256 conf st a st') :
    st'.Configured conf := by
  refine hstep.forall_node (I := fun p n => n.handler.Configured (conf p)) h ?_ ?_ ?_
  · intro p n n' hpaxos _ _ hn
    rwa [Node.handler, hpaxos]
  · intro p t j n next _ _ _ hjob
    exact hjob.configured (h p)
  · intro p i c call n pc _ _ _ _ hown
    exact hown.configured (h p)

end System

section

variable [DecidableEq P] {sha256 : Bytes → Bytes} {conf : P → Configuration}
  {C : System P → Action P → Prop} {st : System P}

theorem configured_of_reachable (h : (network sha256 conf).ReachableUnder C st) :
    st.Configured conf := by
  refine h.invariant (fun p => ⟨rfl, rfl⟩) fun st st' a _ hconf _ hnext => ?_
  exact hconf.step (System.step_of_next hconf hnext)

/-- Invariant rule for guarded runs of a network. -/
theorem network_invariant {I : System P → Prop} (hinit : I (.initial conf))
    (hstep : ∀ st st' a, (network sha256 conf).ReachableUnder C st → I st → C st a →
      System.Step sha256 conf st a st' → I st')
    (h : (network sha256 conf).ReachableUnder C st) : I st := by
  refine h.invariant hinit fun st st' a hst hI hC hnext => ?_
  exact hstep st st' a hst hI hC
    (System.step_of_next (configured_of_reachable hst) hnext)

end
end Minotor
