import Minotor.Network.Guards

/-!
# The promise channel

The promise handler sends on a channel with one slot while it holds the handler
lock.  A round which starts with an empty channel finds it empty when its
promises reach the threshold; a round which starts while the value of an
earlier round is still in the channel may find it full and block.
-/

namespace Minotor

variable {P : Type*}

/-- Nobody waits with the handler lock, and in phase 1 the promise channel is
empty. -/
structure PaxosHandler.Unblocked (h : PaxosHandler) : Prop where
  unlocked : h.locked = false
  empty : h.currentPhase = .phase1 → (h.promiseChans h.promiseChannel).buf = []

namespace PaxosHandler

variable {h : PaxosHandler}

theorem Unblocked.ready (hh : h.Unblocked) (hphase : h.currentPhase = .phase1) :
    (h.promiseChans h.promiseChannel).Ready := by
  have hchan := h.promiseChan h.promiseChannel
  refine ⟨hchan.1, ?_⟩
  rw [hh.empty hphase, hchan.2]
  exact Nat.one_pos

theorem unblocked_advance {conf : Configuration} {step : ℕ} {v : PaxosValue}
    (hlock : h.locked = false) : (h.advance conf step v).Unblocked := by
  refine ⟨hlock, fun _ => ?_⟩
  rw [advance_promiseChannel, advance_promiseChans, Function.update_self, Chan.make_buf]

/-- Taking a value out of a channel leaves the current channel empty if it
was. -/
theorem Unblocked.recvPromise (hh : h.Unblocked) {ch : ℕ} {v : PaxosValue}
    {h' : PaxosHandler} (hrecv : h.recvPromise ch = some (v, h')) : h'.Unblocked := by
  obtain ⟨c, hc, hbuf, rfl⟩ := recvPromise_eq hrecv
  refine ⟨hh.unlocked, fun hphase => ?_⟩
  have hempty := hh.empty hphase
  change (Function.update h.promiseChans ch c h.promiseChannel).buf = []
  by_cases hch : h.promiseChannel = ch
  · rw [hch, hbuf] at hempty
    cases hempty
  · rw [Function.update_of_ne hch]
    exact hempty

end PaxosHandler

section

variable [DecidableEq P] {sha256 : Bytes → Bytes} {conf : P → Configuration}

/-- A job step keeps the handler unblocked and never starts to wait. -/
theorem Node.JobStep.unblocked {conf : Configuration} {self : P} {n n' : Node P}
    {j : Job P} {next : Next P} (h : n.handler.Unblocked) (hj : ∀ v, j ≠ .send v)
    (hstep : n.JobStep sha256 conf self j n' next) :
    n'.handler.Unblocked ∧ ∀ v, next ≠ .job (.send v) := by
  cases hstep with
  | chosen r msg h' _ _ _ _ _ _ hh =>
      subst hh
      refine ⟨⟨h.unlocked, ?_⟩, ?_⟩
      · rintro ⟨⟩
      · rintro _ ⟨⟩
  | blocks r msg h' _ _ _ hphase _ _ hh hready =>
      subst hh
      exact absurd (h.ready hphase) hready
  | decided _ _ _ _ _ _ _ _ _ _ hleave =>
      constructor
      · rw [Node.handler, Node.record_paxos, Node.withPaxos_paxos, hleave.handler]
        exact PaxosHandler.unblocked_advance h.unlocked
      · rintro _ ⟨⟩
  | finished _ _ _ _ _ _ _ _ hleave =>
      constructor
      · rw [Node.handler, Node.withPaxos_paxos, hleave.handler]
        exact PaxosHandler.unblocked_advance h.unlocked
      · rintro _ ⟨⟩
  | sent v => exact absurd rfl (hj v)
  | _ =>
      refine ⟨⟨h.unlocked, h.empty⟩, ?_⟩
      rintro _ ⟨⟩

omit [DecidableEq P] in
/-- An own step of a call keeps the handler unblocked if a new round finds the
channel empty. -/
theorem TagCall.OwnStep.unblocked {conf : Configuration} {self : P} {i : ℕ}
    {n n' : Node P} {call : TagCall P} {c : Choice} {pc : TagPc P}
    (h : n.handler.Unblocked)
    (hfresh : call.pc.AtPrepare →
      (n.handler.promiseChans n.handler.promiseChannel).buf = [])
    (hstep : call.OwnStep conf self i n c n' pc) : n'.handler.Unblocked := by
  cases hstep with
  | prepare start uniqID hpc hlock =>
      refine ⟨h.unlocked, fun _ => hfresh ?_⟩
      rw [hpc]
      trivial
  | recvPromise _ _ _ _ _ _ hrecv => exact h.recvPromise hrecv
  | recvValue _ _ _ _ _ hrecv =>
      obtain ⟨cs, hcs, rfl⟩ := PaxosHandler.recvValue_eq hrecv
      exact ⟨h.unlocked, h.empty⟩
  | _ => exact ⟨h.unlocked, h.empty⟩

/-- Every handler is unblocked and no goroutine waits for room on a promise
channel. -/
structure System.NeverWaits (st : System P) : Prop where
  unblocked : ∀ p, (st.peers p).node.handler.Unblocked
  noSend : ∀ p t j, (st.peers p).job? t = some j → ∀ v, j ≠ .send v

theorem System.NeverWaits.step {st st' : System P} {a : Action P} (h : st.NeverWaits)
    (hfresh : st.FreshChannel a) (hstep : System.Step sha256 conf st a st') :
    st'.NeverWaits where
  unblocked := by
    refine hstep.forall_node (I := fun _ n => n.handler.Unblocked) h.unblocked ?_ ?_ ?_
    · intro p n n' hpaxos _ _ hn
      rwa [Node.handler, hpaxos]
    · intro p t j n next _ hj _ hjob
      exact (hjob.unblocked (h.unblocked p) (h.noSend p t j hj)).1
    · intro p i c call n pc ha hcall _ _ hown
      subst ha
      exact hown.unblocked (h.unblocked p) (hfresh.of_call hcall)
  noSend := by
    refine hstep.forall_job (J := fun _ j => ∀ v, j ≠ .send v) h.noSend
      (fun _ _ hj => hj) ?_ ?_ ?_
    · rintro p origin sequence msg _ _ _ v ⟨⟩
    · intro p t j n j' _ hj _ hjob v hv
      exact (hjob.unblocked (h.unblocked p) (h.noSend p t j hj)).2 v (hv ▸ rfl)
    · intro p i c call n pc j' _ _ _ _ hown hj' v hv
      subst hv
      rcases hown.broadcasts hj' with ⟨_, _, _, heq⟩ | ⟨_, _, _, heq⟩
      · cases heq
      · cases heq

theorem neverWaits_of_reachable {C : System P → Action P → Prop} {st : System P}
    (hC : ∀ st a, C st a → st.FreshChannel a)
    (h : (network sha256 conf).ReachableUnder C st) : st.NeverWaits := by
  refine network_invariant ?_ (fun st _ a _ hI hCa hstep => hI.step (hC st a hCa) hstep) h
  refine ⟨fun _ => ⟨rfl, fun _ => rfl⟩, ?_⟩
  intro p t j hj
  cases t <;> cases hj

/-- In every run in which each round starts with an empty promise channel, no
promise handler ever waits for room on its channel. -/
theorem promise_handler_never_blocks (sha256 : Bytes → Bytes)
    (conf : P → Configuration) (st : System P)
    (h : (network sha256 conf).ReachableUnder System.FreshChannel st) (p : P)
    (t : Peer.Thread) (v : PaxosValue) : (st.peers p).job? t ≠ some (.send v) := by
  have hwaits : st.NeverWaits := neverWaits_of_reachable (fun _ _ hCa => hCa) h
  intro hj
  exact hwaits.noSend p t _ hj v rfl

end

/-- A call of `Tag` runs through both phases to its decision. -/
theorem promise_handler_never_blocks_of_decision :
    ∃ st, (network sha256 (majorityNetwork 2)).ReachableUnder System.FreshChannel st ∧
      (st.peers 0).node.handler.step = 1 ∧
      ∀ p t v, (st.peers p).job? t ≠ some (.send v) := by
  obtain ⟨st, hst, hstep⟩ := TransitionSystem.exists_of_replay
    (S := network sha256 (majorityNetwork 2)) System.FreshChannel Action.tagRun
    (fun st => (st.peers 0).node.handler.step = 1) (by decide +kernel)
  exact ⟨st, hst, hstep, fun p t v => promise_handler_never_blocks _ _ st hst p t v⟩

/-- The ticker of phase 1 fires while the choice of the round waits in the
channel, and the promises of the next round reach the threshold. -/
theorem promise_handler_blocks :
    ∃ st, (network sha256 (majorityNetwork 2)).ReachableUnder System.InOrder st ∧
      ∃ v, (st.peers 0).job? .listener = some (.send v) := by
  obtain ⟨st, hst, hjob⟩ := TransitionSystem.exists_of_replay
    (S := network sha256 (majorityNetwork 2)) System.InOrder
    (.tag 0 "file" "meta" :: Action.opens 0 0 "id" ++ Action.handles 1 0 1 4 ++
      Action.handles 1 0 2 1 ++ Action.handles 0 1 1 1 ++ Action.retries 0 0 "id'" ++
      Action.handles 1 0 3 4 ++ Action.handles 0 1 2 1)
    (fun st => (st.peers 0).job? .listener = some (.send ⟨"id'", "file", "meta"⟩))
    (by decide +kernel)
  exact ⟨st, hst, _, hjob⟩

end Minotor
