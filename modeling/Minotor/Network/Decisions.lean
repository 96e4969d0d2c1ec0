import Minotor.Network.Validity
import Minotor.Peer.Chain

/-!
# The chain of decisions

In every run, if no two decisions of one step differ, then all peers follow the
one chain of the decided values: the stores of a peer at step `k` are those of
the chain up to `k`, and every TLC message carries the block of its step.
-/

namespace Minotor

variable {P : Type*}

section

variable {sha256 : Bytes → Bytes} {v : ℕ → PaxosValue}

theorem chainBlock_index (i : ℕ) : (chainBlock sha256 v i).index = i := by
  cases i <;> rfl

/-- The stores of a chain hold no other blocks. -/
theorem hasBlock_chainStorage {k : ℕ} {b : BlockchainBlock}
    (h : (chainStorage sha256 v k).HasBlock b) : ∃ i < k, b = chainBlock sha256 v i := by
  induction k with
  | zero =>
      obtain ⟨key, hkey⟩ := Store.mem_values_iff.mp h
      cases hkey
  | succ k ih =>
      rw [chainStorage_succ] at h
      rcases hasBlock_storeBlock h with rfl | hold
      · exact ⟨k, Nat.lt_succ_self k, rfl⟩
      · obtain ⟨i, hi, hb⟩ := ih hold
        exact ⟨i, Nat.lt_succ_of_lt hi, hb⟩

end

/-! ## One peer -/

/-- A TLC message carries the block of its step, and its step is decided. -/
def Message.OnChain (sha256 : Bytes → Bytes) (v : ℕ → PaxosValue) (D : ℕ → Prop) :
    Message P → Prop
  | .tlc msg => msg.block = chainBlock sha256 v msg.step ∧ D msg.step
  | _ => True

def Job.OnChain (sha256 : Bytes → Bytes) (v : ℕ → PaxosValue) (D : ℕ → Prop) :
    Job P → Prop
  | .exec r => r.msg.OnChain sha256 v D
  | .broadcast msg => msg.OnChain sha256 v D
  | _ => True

/-- A peer follows the chain, through decided steps only. -/
structure Node.OnChain (sha256 : Bytes → Bytes) (conf : Configuration)
    (v : ℕ → PaxosValue) (D : ℕ → Prop) (n : Node P) : Prop where
  follows : FollowsChain sha256 conf v n.paxos
  decided : ∀ k < n.handler.step, D k
  buffered : ∀ msg ∈ n.handler.tlcMap, D msg.step
  rumors : ∀ msg ∈ n.rumors, msg.OnChain sha256 v D

section

variable {sha256 : Bytes → Bytes} {v : ℕ → PaxosValue} {D D' : ℕ → Prop}

theorem Message.OnChain.mono (hD : ∀ k, D k → D' k) {msg : Message P}
    (h : msg.OnChain sha256 v D) : msg.OnChain sha256 v D' := by
  cases msg with
  | tlc msg => exact ⟨h.1, hD _ h.2⟩
  | _ => trivial

theorem Job.OnChain.mono (hD : ∀ k, D k → D' k) {j : Job P}
    (h : j.OnChain sha256 v D) : j.OnChain sha256 v D' := by
  cases j with
  | exec r => exact Message.OnChain.mono hD h
  | broadcast msg => exact Message.OnChain.mono hD h
  | _ => trivial

theorem Node.OnChain.mono (hD : ∀ k, D k → D' k) {conf : Configuration} {n : Node P}
    (h : n.OnChain sha256 conf v D) : n.OnChain sha256 conf v D' where
  follows := h.follows
  decided k hk := hD k (h.decided k hk)
  buffered msg hmsg := hD _ (h.buffered msg hmsg)
  rumors msg hmsg := (h.rumors msg hmsg).mono hD

variable {conf : Configuration} {self : P} {n n' : Node P}

/-- What keeps the step, the buffer, the stores and the rumors stays on the
chain. -/
theorem Node.OnChain.frame (h : n.OnChain sha256 conf v D)
    (hthreshold : n'.handler.threshold = n.handler.threshold)
    (hstep : n'.handler.step = n.handler.step)
    (htlcMap : n'.handler.tlcMap = n.handler.tlcMap) (hstorage : n'.storage = n.storage)
    (hrumors : n'.rumors = n.rumors) : n'.OnChain sha256 conf v D := by
  constructor
  · constructor
    · exact hthreshold.trans h.follows.threshold
    · change n'.storage = chainStorage sha256 v n'.handler.step
      rw [hstorage, hstep]
      exact h.follows.storage
    · change ∀ msg ∈ n'.handler.tlcMap, msg.block = chainBlock sha256 v msg.step
      rw [htlcMap]
      exact h.follows.buffered
  · rw [hstep]
    exact h.decided
  · rw [htlcMap]
    exact h.buffered
  · rw [hrumors]
    exact h.rumors

/-- Leaving a decided step with its block stays on the chain. -/
theorem Node.OnChain.leavesStep (h : n.OnChain sha256 conf v D) {m : TLCMap}
    {bs : List BlockchainBlock} {px : PaxosNode}
    (hm : ∀ msg ∈ m, msg.block = chainBlock sha256 v msg.step ∧ D msg.step)
    (hdecided : D n.handler.step)
    (hleave : n.paxos.LeavesStep conf m (chainBlock sha256 v n.handler.step) bs px) :
    (n.withPaxos px).OnChain sha256 conf v D where
  follows := h.follows.leavesStep (fun msg hmsg => (hm msg hmsg).1) hleave
  decided := by
    intro k hk
    change k < px.handler.step at hk
    rw [hleave.handler, PaxosHandler.advance_step] at hk
    rcases lt_trichotomy k n.handler.step with hlt | rfl | hgt
    · exact h.decided k hlt
    · exact hdecided
    · -- a step caught up with has a buffered message
      obtain ⟨i, rfl⟩ : ∃ i, k = n.handler.step + 1 + i := ⟨k - (n.handler.step + 1), by omega⟩
      have hi : i < bs.length := by
        change n.handler.step + 1 + i < n.handler.step + 1 + bs.length at hk
        omega
      obtain ⟨msg, hmsg, -⟩ := hleave.caughtUp.buffered i bs[i] (List.getElem?_eq_getElem hi)
      rw [TLCMap.mem_at] at hmsg
      have hD := (hm msg hmsg.1).2
      rwa [hmsg.2] at hD
  buffered := by
    change ∀ msg ∈ px.handler.tlcMap, D msg.step
    rw [hleave.handler, PaxosHandler.advance_tlcMap]
    exact fun msg hmsg => absurd hmsg List.not_mem_nil
  rumors := h.rumors

variable [DecidableEq P]

/-- A job step stays on the chain of values which its decision, if it makes one,
agrees with. -/
theorem Node.JobStep.onChain {j : Job P} {next : Next P} (h : n.OnChain sha256 conf v D)
    (hj : j.OnChain sha256 v D)
    (hnew : ∀ step w, .decided step w ∈ n'.history → v step = w ∧ D step)
    (hjob : n.JobStep sha256 conf self j n' next) :
    n'.OnChain sha256 conf v D ∧ ∀ j', next = .job j' → j'.OnChain sha256 v D := by
  have hold : ∀ msg ∈ n.handler.tlcMap,
      msg.block = chainBlock sha256 v msg.step ∧ D msg.step :=
    fun msg hmsg => ⟨h.follows.buffered msg hmsg, h.buffered msg hmsg⟩
  have hbuffer : ∀ {r : Rumor P} {msg : TLCMessage}, j = .exec r → r.msg = .tlc msg →
      ∀ x ∈ n.handler.tlcMap ++ [msg], x.block = chainBlock sha256 v x.step ∧ D x.step := by
    intro r msg hr hmsg
    rw [hr, Job.OnChain, hmsg] at hj
    exact List.forall_mem_append.mpr ⟨hold, List.forall_mem_singleton.mpr hj⟩
  cases hjob with
  | promised r msg =>
      refine ⟨h.frame rfl rfl rfl rfl rfl, ?_⟩
      rintro j' ⟨⟩
      trivial
  | accepted r msg =>
      refine ⟨h.frame rfl rfl rfl rfl rfl, ?_⟩
      rintro j' ⟨⟩
      trivial
  | chosen r msg h' _ _ _ _ _ _ hh =>
      subst hh
      refine ⟨h.frame rfl rfl rfl rfl rfl, ?_⟩
      rintro j' ⟨⟩
  | blocks r msg h' _ _ _ _ _ _ hh =>
      subst hh
      refine ⟨h.frame rfl rfl rfl rfl rfl, ?_⟩
      rintro j' ⟨⟩
      trivial
  | decided r msg block bs px hmsg hlock hstep hfull hblock hleave =>
      obtain ⟨hvalue, hdecided⟩ := hnew msg.step msg.value List.mem_cons_self
      rw [← hstep] at hvalue hdecided
      have hchain : block = chainBlock sha256 v n.handler.step := by
        rw [hblock, ← hvalue, Node.storage, h.follows.storage, mkBlock_chainStorage]
      subst hchain
      have hleft := h.leavesStep hold hdecided hleave
      refine ⟨hleft.frame rfl rfl rfl rfl rfl, ?_⟩
      rintro j' ⟨⟩
      exact ⟨rfl, hdecided⟩
  | buffered r msg hmsg =>
      have hbuffered := hbuffer rfl hmsg
      constructor
      · constructor
        · exact ⟨h.follows.threshold, h.follows.storage, fun x hx => (hbuffered x hx).1⟩
        · exact h.decided
        · exact fun x hx => (hbuffered x hx).2
        · exact h.rumors
      · rintro j' ⟨⟩
  | finished r msg bs px hmsg hlock hstep hfull hleave =>
      have hr : msg.block = chainBlock sha256 v msg.step ∧ D msg.step := by
        rwa [Job.OnChain, hmsg] at hj
      have hbuffered := hbuffer rfl hmsg
      obtain ⟨hblock, hdecided⟩ := hr
      rw [hstep] at hblock hdecided
      rw [hblock] at hleave
      refine ⟨h.leavesStep hbuffered hdecided hleave, ?_⟩
      rintro j' ⟨⟩
      exact hbuffered msg (List.mem_append_right _ (List.mem_singleton_self msg))
  | marshalled q draft =>
      refine ⟨h, ?_⟩
      rintro j' ⟨⟩
      trivial
  | broadcast msg =>
      constructor
      · constructor
        · exact h.follows
        · exact h.decided
        · exact h.buffered
        · exact List.forall_mem_append.mpr ⟨h.rumors, List.forall_mem_singleton.mpr hj⟩
      · rintro j' ⟨⟩
        exact hj
  | _ =>
      refine ⟨h.frame rfl rfl rfl rfl rfl, ?_⟩
      rintro j' ⟨⟩

end

/-- An own step of a call stays on the chain, unless it binds a name without
consensus. -/
theorem TagCall.OwnStep.onChain {sha256 : Bytes → Bytes} {conf : Configuration}
    {v : ℕ → PaxosValue} {D : ℕ → Prop} {self : P} {i : ℕ} {n n' : Node P}
    {call : TagCall P} {c : Choice} {pc : TagPc P} (h : n.OnChain sha256 conf v D)
    (hpc : call.pc ≠ .setName) (hown : call.OwnStep conf self i n c n' pc) :
    n'.OnChain sha256 conf v D := by
  cases hown with
  | setName hset => exact absurd hset hpc
  | recvPromise _ _ _ _ _ _ hrecv =>
      obtain ⟨c, hc, -, rfl⟩ := PaxosHandler.recvPromise_eq hrecv
      exact h.frame rfl rfl rfl rfl rfl
  | recvValue _ _ _ _ _ hrecv =>
      obtain ⟨cs, hcs, rfl⟩ := PaxosHandler.recvValue_eq hrecv
      exact h.frame rfl rfl rfl rfl rfl
  | _ => exact h.frame rfl rfl rfl rfl rfl

/-! ## The network -/

namespace System

/-- Some peer has decided in this step. -/
def Decided (st : System P) (step : ℕ) : Prop :=
  ∃ p w, .decided step w ∈ (st.peers p).node.history

/-- The values `v` are those decided, wherever a step is decided. -/
def Decides (st : System P) (v : ℕ → PaxosValue) : Prop :=
  ∀ p step w, .decided step w ∈ (st.peers p).node.history → v step = w

/-- All peers follow the chain of `v`. -/
structure OnChain (sha256 : Bytes → Bytes) (conf : P → Configuration)
    (v : ℕ → PaxosValue) (st : System P) : Prop where
  nodes : ∀ p, (st.peers p).node.OnChain sha256 (conf p) v st.Decided
  jobs : ∀ p t j, (st.peers p).job? t = some j → j.OnChain sha256 v st.Decided

variable [DecidableEq P] {sha256 : Bytes → Bytes} {conf : P → Configuration}
  {C : System P → Action P → Prop} {st st' : System P} {a : Action P} {v : ℕ → PaxosValue}

theorem Decided.step {step : ℕ} (h : st.Decided step) (hstep : Step sha256 conf st a st') :
    st'.Decided step := by
  obtain ⟨p, w, hmem⟩ := h
  exact ⟨p, w, (hstep.history_suffix p).subset hmem⟩

theorem Decides.of_step (h : st'.Decides v) (hstep : Step sha256 conf st a st') :
    st.Decides v := by
  intro p step w hmem
  exact h p step w ((hstep.history_suffix p).subset hmem)

theorem OnChain.step (h : st.OnChain sha256 conf v)
    (hset : ∀ p (i : ℕ) call, (st.peers p).calls[i]? = some call → call.pc ≠ .setName)
    (hv : st'.Decides v) (hstep : Step sha256 conf st a st') :
    st'.OnChain sha256 conf v := by
  have hmono : ∀ k, st.Decided k → st'.Decided k := fun k hk => hk.step hstep
  have hnew : ∀ {p : P} {n : Node P}, n.Agrees (st'.peers p).node → ∀ step w,
      .decided step w ∈ n.history → v step = w ∧ st'.Decided step := by
    intro p n hagrees step w hmem
    rw [← hagrees.history] at hmem
    exact ⟨hv p step w hmem, p, w, hmem⟩
  have hnodes p := (h.nodes p).mono hmono
  constructor
  · refine hstep.forall_node
      (I := fun p n => n.OnChain sha256 (conf p) v st'.Decided) hnodes ?_ ?_ ?_
    · intro p n n' hpaxos hrumors _ hn
      apply hn.frame
      · rw [Node.handler, hpaxos]
      · rw [Node.handler, hpaxos]
      · rw [Node.handler, hpaxos]
      · rw [Node.storage, hpaxos]
      · exact hrumors
    · intro p t j n next _ hj hagrees hjob
      exact (hjob.onChain (hnodes p) ((h.jobs p t j hj).mono hmono) (hnew hagrees)).1
    · intro p i c call n pc _ hcall _ _ hown
      exact hown.onChain (hnodes p) (hset p i call hcall)
  · refine hstep.forall_job h.jobs (fun _ _ hj => hj.mono hmono) ?_ ?_ ?_
    · intro p origin sequence msg _ _ hmsg
      exact (hnodes origin).rumors msg (List.mem_of_getElem? hmsg)
    · intro p t j n j' _ hj hagrees hjob
      exact (hjob.onChain (hnodes p) ((h.jobs p t j hj).mono hmono) (hnew hagrees)).2 j' rfl
    · intro p i c call n pc j' _ _ _ _ hown hj'
      rcases hown.broadcasts hj' with ⟨_, _, _, rfl⟩ | ⟨_, _, _, rfl⟩
      · trivial
      · trivial

/-- With other peers, no call binds its name without consensus. -/
theorem ne_setName_of_reachable (hpeers : ∀ p, 2 ≤ (conf p).totalPeers)
    (h : (network sha256 conf).ReachableUnder C st) :
    ∀ p (i : ℕ) call, (st.peers p).calls[i]? = some call → call.pc ≠ .setName := by
  refine network_invariant (I := fun st => ∀ p (i : ℕ) call,
    (st.peers p).calls[i]? = some call → call.pc ≠ .setName) ?_ ?_ h
  · exact fun p i call hcall => nomatch hcall
  · intro st st' a _ hI _ hstep
    refine hstep.forall_call (K := fun _ call => call.pc ≠ .setName) hI
      (fun _ _ hpc => hpc) (fun _ _ _ => nofun) ?_ ?_
    · intro p i call j n next _ _ hj _ _ _
      cases hpc : call.pc with
      | sendPrepare => cases next <;> nofun
      | sendPropose => cases next <;> nofun
      | _ =>
          rw [hpc] at hj
          cases hj
    · intro p i c call n pc _ _ _ _ _ hown
      have htotal := hpeers p
      cases hown with
      | quiet _ _ hquiet =>
          cases hquiet with
          | alone _ _ halone => omega
          | _ => nofun
      | recvPromise _ _ _ _ _ _ _ _ hnext =>
          rw [hnext]
          split <;> nofun
      | recvValue _ _ _ _ _ _ _ hnext =>
          rw [hnext]
          split <;> nofun
      | _ => nofun

/-- In every run all peers follow the chain of the decided values. -/
theorem onChain_of_reachable (hpeers : ∀ p, 2 ≤ (conf p).totalPeers)
    (h : (network sha256 conf).ReachableUnder C st) (hv : st.Decides v) :
    st.OnChain sha256 conf v := by
  revert hv
  refine network_invariant (I := fun st => st.Decides v → st.OnChain sha256 conf v) ?_ ?_ h
  · intro _
    constructor
    · intro p
      exact ⟨followsChain_new sha256 (conf p) v, nofun, nofun, nofun⟩
    · intro p t j hj
      cases t <;> cases hj
  · intro st st' a hst hI _ hstep hv
    exact (hI (hv.of_step hstep)).step (ne_setName_of_reachable hpeers hst) hv hstep

end System
end Minotor
