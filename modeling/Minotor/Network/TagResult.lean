import Minotor.Network.Decisions

/-!
# What a successful `Tag` means

A call of `Tag` returns nil at five program points.  Where it has seen its own
value decided, the naming store binds the name as it was asked to, as long as no
stored block binds the name again.  The other points return nil whatever the
name is bound to: after the second lookup, and after the zero value of a promise
channel or of a drained value channel.
-/

namespace Minotor

variable {P : Type*}

/-! ## Blocks which bind names once -/

/-- Values whose blocks are stored one after the other, none of which binds a
name to another metahash than it has. -/
def Store.BindsOnce (naming : Store String) : List PaxosValue → Prop
  | [] => True
  | v :: vs =>
      (∀ mh ∈ naming.get v.filename, mh = v.metahash) ∧
        (naming.set v.filename v.metahash).BindsOnce vs

instance Store.decidableBindsOnce (naming : Store String) (vs : List PaxosValue) :
    Decidable (naming.BindsOnce vs) := by
  induction vs generalizing naming with
  | nil => exact isTrue trivial
  | cons v vs ih => exact @instDecidableAnd _ _ _ (ih _)

/-- The storage binds the filename of the value to its metahash. -/
def Storage.Binds (s : Storage) (v : PaxosValue) : Prop :=
  s.naming.get v.filename = some v.metahash

theorem Storage.Binds.storeBlock {s : Storage} {b : BlockchainBlock} {v : PaxosValue}
    (h : s.Binds v) (honce : ∀ mh ∈ s.naming.get b.value.filename, mh = b.value.metahash) :
    (storeBlock b s).Binds v := by
  rw [Binds, Minotor.storeBlock, Store.get_set]
  split
  · next hname =>
      rw [Binds, hname] at h
      rw [honce _ h]
  · exact h

theorem Storage.binds_storeBlock (s : Storage) (b : BlockchainBlock) :
    (Minotor.storeBlock b s).Binds b.value := by
  rw [Binds, Minotor.storeBlock, Store.get_set, if_pos rfl]

theorem Storage.Binds.storeBlocks {s : Storage} {bs : List BlockchainBlock} {v : PaxosValue}
    (h : s.Binds v) (honce : s.naming.BindsOnce (bs.map (·.value))) :
    (storeBlocks bs s).Binds v := by
  induction bs generalizing s with
  | nil => exact h
  | cons b bs ih => exact ih (h.storeBlock honce.1) honce.2

/-- The values of the blocks which a job is about to store. -/
def Node.storedValues (n : Node P) : Job P → List PaxosValue
  | .exec ⟨_, _, .accept msg⟩ =>
      if n.handler.step = msg.step ∧
          n.handler.threshold ≤ n.handler.acceptedValues msg.value + 1 then
        msg.value :: (n.handler.tlcMap.blocksFrom n.handler.threshold
          n.handler.tlcMap.length (n.handler.step + 1)).map (·.value)
      else []
  | .exec ⟨_, _, .tlc msg⟩ =>
      let m : TLCMap := n.handler.tlcMap ++ [msg]
      if msg.step = n.handler.step ∧ n.handler.threshold ≤ (m.at msg.step).length then
        msg.block.value ::
          (m.blocksFrom n.handler.threshold m.length (n.handler.step + 1)).map (·.value)
      else []
  | _ => []

/-! ## The final values of a node -/

/-- The final value, and every value in a value channel, is bound. -/
structure Node.BindsFinals (n : Node P) : Prop where
  final : n.handler.finalValue ≠ .empty → n.storage.Binds n.handler.finalValue
  channels : ∀ ch, ∀ v ∈ (n.handler.valueChans ch).buf, n.storage.Binds v

namespace Node

theorem BindsFinals.frame {n n' : Node P} (h : n.BindsFinals)
    (hfinal : n'.handler.finalValue = n.handler.finalValue)
    (hchans : n'.handler.valueChans = n.handler.valueChans)
    (hstorage : n'.storage = n.storage) : n'.BindsFinals := by
  constructor
  · rw [hfinal, hstorage]
    exact h.final
  · rw [hchans, hstorage]
    exact h.channels

/-- The values which the value channels hold after a step is left. -/
theorem mem_valueChans_advance {conf : Configuration} {h : PaxosHandler} {step : ℕ}
    {v w : PaxosValue} {ch : ℕ} (hw : w ∈ ((h.advance conf step v).valueChans ch).buf) :
    w = v ∨ w ∈ (h.valueChans ch).buf := by
  rw [PaxosHandler.advance_valueChans] at hw
  by_cases hnew : ch = h.valueChannel + 1
  · rw [hnew, Function.update_self] at hw
    exact absurd hw List.not_mem_nil
  · rw [Function.update_of_ne hnew] at hw
    by_cases hch : ch = h.valueChannel
    · rw [hch, Function.update_self] at hw
      change w ∈ (h.valueChans h.valueChannel).buf ++ [v] at hw
      rcases List.mem_append.mp hw with hw | hw
      · exact .inr (hch ▸ hw)
      · exact .inl (List.mem_singleton.mp hw)
    · rw [Function.update_of_ne hch] at hw
      exact .inr hw

theorem BindsFinals.leavesStep {n : Node P} (h : n.BindsFinals) {conf : Configuration}
    {m : TLCMap} {block : BlockchainBlock} {bs : List BlockchainBlock} {px : PaxosNode}
    (hleave : n.paxos.LeavesStep conf m block bs px)
    (honce : n.storage.naming.BindsOnce (block.value :: bs.map (·.value)))
    {n' : Node P} (hpaxos : n'.paxos = px) : n'.BindsFinals := by
  have hblock : px.storage.Binds block.value := by
    rw [hleave.storage, storeBlocks_cons]
    exact (Storage.binds_storeBlock _ block).storeBlocks honce.2
  constructor
  · intro _
    rw [handler, storage, hpaxos, hleave.handler, PaxosHandler.advance_finalValue]
    exact hblock
  · intro ch v hv
    rw [handler, hpaxos, hleave.handler] at hv
    rw [storage, hpaxos]
    rcases mem_valueChans_advance hv with rfl | hv
    · exact hblock
    · rw [hleave.storage]
      exact (h.channels ch v hv).storeBlocks honce

variable [DecidableEq P] {sha256 : Bytes → Bytes} {conf : Configuration} {self : P}
  {n n' : Node P} {j : Job P} {next : Next P}

theorem JobStep.bindsFinals (h : n.BindsFinals)
    (honce : n.storage.naming.BindsOnce (n.storedValues j))
    (hjob : n.JobStep sha256 conf self j n' next) : n'.BindsFinals := by
  cases hjob with
  | decided r msg block bs px hmsg hlock hstep hfull hblock hleave =>
      obtain ⟨origin, sequence, _⟩ := r
      simp only at hmsg
      subst hmsg
      rw [storedValues, if_pos ⟨hstep, hfull⟩] at honce
      refine h.leavesStep hleave ?_ rfl
      rw [hblock, hleave.blocks]
      exact honce
  | finished r msg bs px hmsg hlock hstep hfull hleave =>
      obtain ⟨origin, sequence, _⟩ := r
      simp only at hmsg
      subst hmsg
      simp only [storedValues, if_pos (And.intro hstep hfull)] at honce
      refine h.leavesStep hleave ?_ rfl
      rw [hleave.blocks]
      exact honce
  | chosen _ _ h' _ _ _ _ _ _ hh =>
      subst hh
      exact h.frame rfl rfl rfl
  | blocks _ _ h' _ _ _ _ _ _ hh =>
      subst hh
      exact h.frame rfl rfl rfl
  | _ => exact h.frame rfl rfl rfl

end Node

/-- A received final value was waiting in the channel, or it is the zero value of
a drained channel. -/
theorem PaxosHandler.recvValue_cases {h h' : PaxosHandler} {ch : ℕ} {v : PaxosValue}
    (hrecv : h.recvValue ch = some (v, h')) :
    (v ∈ (h.valueChans ch).buf ∨ (h.valueChans ch).buf = [] ∧ v = .empty) ∧
      h'.finalValue = h.finalValue ∧
      ∀ ch', ∀ w ∈ (h'.valueChans ch').buf, w ∈ (h.valueChans ch').buf := by
  unfold recvValue at hrecv
  split at hrecv
  · next v' c hchan =>
      simp only [Option.some.injEq, Prod.mk.injEq] at hrecv
      obtain ⟨rfl, rfl⟩ := hrecv
      have hbuf : (v'.getD .empty ∈ (h.valueChans ch).buf ∨
          (h.valueChans ch).buf = [] ∧ v'.getD .empty = .empty) ∧
          ∀ w ∈ c.buf, w ∈ (h.valueChans ch).buf := by
        cases v' with
        | none =>
            obtain ⟨rfl, hempty, _⟩ := Chan.recv_zero hchan
            exact ⟨.inr ⟨hempty, rfl⟩, fun w hw => hw⟩
        | some v =>
            obtain ⟨hcons, _, _⟩ := Chan.recv_value hchan
            rw [hcons]
            exact ⟨.inl List.mem_cons_self, fun w hw => List.mem_cons_of_mem _ hw⟩
      refine ⟨hbuf.1, rfl, ?_⟩
      intro ch' w hw
      change w ∈ (Function.update h.valueChans ch c ch').buf at hw
      by_cases hch : ch' = ch
      · rw [hch, Function.update_self] at hw
        rw [hch]
        exact hbuf.2 w hw
      · rw [Function.update_of_ne hch] at hw
        exact hw
  · cases hrecv

/-! ## Calls which return nil -/

/-- The choice of the call at its program point does not take a branch which
returns nil for a name bound to another metahash: a name bound at the second
lookup is bound to the metahash of the call, no zero value waits in the promise
channel, and a drained value channel is not taken for the value of the call. -/
def Node.TrueSuccess (n : Node P) (call : TagCall P) (c : Choice) : Prop :=
  match call.pc, c with
  | .lookupAgain, .run => ∀ mh ∈ n.storage.naming.get call.name, mh = call.mh
  | .awaitPromise _ _ ch, .recv => PaxosValue.empty ∉ (n.handler.promiseChans ch).buf
  | .awaitValue _ ch, .recv =>
      (n.handler.valueChans ch).buf = [] → ¬ call.Matches .empty
  | _, _ => True

instance (n : Node P) (call : TagCall P) (c : Choice) : Decidable (n.TrueSuccess call c) := by
  unfold Node.TrueSuccess
  split <;> infer_instance

namespace TagCall.OwnStep

variable {conf : Configuration} {self : P} {i : ℕ} {n n' : Node P} {call : TagCall P}
  {c : Choice} {pc : TagPc P}

theorem bindsFinals (h : n.BindsFinals) (hset : call.pc ≠ .setName)
    (hown : call.OwnStep conf self i n c n' pc) : n'.BindsFinals := by
  cases hown with
  | setName hpc => exact absurd hpc hset
  | recvPromise _ _ _ _ _ _ hrecv =>
      obtain ⟨c, hc, -, rfl⟩ := PaxosHandler.recvPromise_eq hrecv
      exact h.frame rfl rfl rfl
  | recvValue _ _ _ _ _ hrecv =>
      obtain ⟨_, hfinal, hchans⟩ := PaxosHandler.recvValue_cases hrecv
      constructor
      · rw [Node.handler, Node.withHandler_paxos]
        change _ ≠ _ → n.storage.Binds _
        rw [hfinal]
        exact h.final
      · exact fun ch v hv => h.channels ch v (hchans ch v hv)
  | _ => exact h.frame rfl rfl rfl

/-- A call which returns nil on a running node has its name bound to its
metahash. -/
theorem binds_of_nil (h : n.BindsFinals) (hset : call.pc ≠ .setName)
    (htrue : n.TrueSuccess call c) (hrun : n.stopped = false)
    (hown : call.OwnStep conf self i n c n' pc) (hpc' : pc = .returned none) :
    n'.storage.naming.get call.name = some call.mh := by
  have hmatches : ∀ v, call.Matches v → n.storage.Binds v →
      n.storage.naming.get call.name = some call.mh := by
    rintro v ⟨hname, hmh⟩ hbinds
    rw [← hname, ← hmh]
    exact hbinds
  cases hown with
  | quiet _ _ hquiet =>
      cases hquiet with
      | boundSince mh hpc hbound =>
          simp only [Node.TrueSuccess, hpc] at htrue
          rw [hbound, htrue mh hbound]
      | decidedOwn start hpc hdecided hmatch => exact hmatches _ hmatch (h.final hdecided)
      | stop hwaits hstopped =>
          rw [hrun] at hstopped
          cases hstopped
      | _ => cases hpc'
  | setName hpc => exact absurd hpc hset
  | recvPromise start prep ch value h' hpc hrecv pc hnext =>
      simp only [Node.TrueSuccess, hpc] at htrue
      obtain ⟨c, hc, hbuf, -⟩ := PaxosHandler.recvPromise_eq hrecv
      split at hnext
      · next hempty =>
          rw [hbuf, hempty] at htrue
          exact absurd List.mem_cons_self htrue
      · rw [hnext] at hpc'
        cases hpc'
  | recvValue start ch finalValue h' hpc hrecv pc hnext =>
      simp only [Node.TrueSuccess, hpc] at htrue
      split at hnext
      · next hmatch =>
          obtain ⟨hvalue, _, _⟩ := PaxosHandler.recvValue_cases hrecv
          rcases hvalue with hmem | ⟨hdrained, rfl⟩
          · exact hmatches _ hmatch (h.channels ch _ hmem)
          · exact absurd hmatch (htrue hdrained)
      · rw [hnext] at hpc'
        cases hpc'
  | _ => cases hpc'

end TagCall.OwnStep

/-- A broadcast does not make a call return nil. -/
theorem TagPc.of_withNext_nil {pc : TagPc P} {next : Next P}
    (h : pc.withNext next = .returned none) : pc = .returned none := by
  cases pc <;> cases next <;> first | exact h | cases h

/-! ## Runs -/

namespace System

/-- If the action is a step of a call, its choice is good for the call. -/
def OnChoice (st : System P) (G : P → TagCall P → Choice → Prop) : Action P → Prop
  | .call p i c => ∀ call ∈ (st.peers p).calls[i]?, G p call c
  | _ => True

instance (st : System P) (G : P → TagCall P → Choice → Prop)
    [∀ p call c, Decidable (G p call c)] (a : Action P) : Decidable (st.OnChoice G a) :=
  match a with
  | .call p i c => inferInstanceAs (Decidable (∀ call ∈ (st.peers p).calls[i]?, G p call c))
  | .tag _ _ _ | .deliver _ _ _ | .listen _ | .stop _ => isTrue trivial

/-- The guard for successful calls: no stored block binds a bound name to another
metahash, and no call takes a branch which returns nil for another metahash. -/
structure CleanReturns (st : System P) (a : Action P) : Prop where
  bindsOnce : st.OnJob (fun p j =>
    (st.peers p).node.storage.naming.BindsOnce ((st.peers p).node.storedValues j)) a
  trueSuccess : st.OnChoice (fun p => (st.peers p).node.TrueSuccess) a

instance (st : System P) (a : Action P) : Decidable (st.CleanReturns a) :=
  decidable_of_iff
    (st.OnJob (fun p j => (st.peers p).node.storage.naming.BindsOnce
      ((st.peers p).node.storedValues j)) a ∧
      st.OnChoice (fun p => (st.peers p).node.TrueSuccess) a)
    ⟨fun ⟨h₁, h₂⟩ => ⟨h₁, h₂⟩, fun ⟨h₁, h₂⟩ => ⟨h₁, h₂⟩⟩

variable [DecidableEq P] {sha256 : Bytes → Bytes} {conf : P → Configuration}
  {C : System P → Action P → Prop} {st st' : System P} {a : Action P}

theorem bindsFinals_of_reachable (hpeers : ∀ p, 2 ≤ (conf p).totalPeers)
    (hC : ∀ st a, C st a → st.CleanReturns a)
    (h : (network sha256 conf).ReachableUnder C st) (p : P) :
    (st.peers p).node.BindsFinals := by
  revert p
  refine network_invariant (I := fun st => ∀ p, (st.peers p).node.BindsFinals) ?_ ?_ h
  · intro p
    exact ⟨fun hne => absurd rfl hne, fun ch v hv => absurd hv List.not_mem_nil⟩
  · intro st st' a hst hI hCa hstep
    refine hstep.forall_node (I := fun _ n => n.BindsFinals) hI ?_ ?_ ?_
    · intro p n n' hpaxos _ _ hn
      apply hn.frame
      · rw [Node.handler, hpaxos]
      · rw [Node.handler, hpaxos]
      · rw [Node.storage, hpaxos]
    · intro p t j n next ha hj _ hjob
      exact hjob.bindsFinals (hI p) ((hC st a hCa).bindsOnce.of_job ha hj)
    · intro p i c call n pc _ hcall _ _ hown
      exact hown.bindsFinals (hI p) (ne_setName_of_reachable hpeers hst p i call hcall)

/-- A step in which a call returns nil. -/
theorem Step.binds_of_nil (hfinals : ∀ p, (st.peers p).node.BindsFinals)
    (hset : ∀ p (i : ℕ) call, (st.peers p).calls[i]? = some call → call.pc ≠ .setName)
    (hclean : st.CleanReturns a) (hstep : Step sha256 conf st a st') (p : P) (i : ℕ)
    {call' : TagCall P} (hcall' : (st'.peers p).calls[i]? = some call')
    (hnil : call'.pc = .returned none) :
    (st.peers p).calls[i]? = some call' ∨ (st.peers p).node.stopped = true ∨
      (st'.peers p).node.storage.naming.get call'.name = some call'.mh := by
  refine hstep.forall_peer (I := fun p peer => ∀ (i : ℕ) call',
    peer.calls[i]? = some call' → call'.pc = .returned none →
      (st.peers p).calls[i]? = some call' ∨ (st.peers p).node.stopped = true ∨
        peer.node.storage.naming.get call'.name = some call'.mh)
    ?_ ?_ ?_ ?_ ?_ ?_ p i call' hcall' hnil
  · exact fun p i call' hcall' _ => .inl hcall'
  · intro p name mh _ i call' hcall' hnil
    rw [List.getElem?_append] at hcall'
    split at hcall'
    · exact .inl hcall'
    · rw [List.getElem?_singleton] at hcall'
      split at hcall'
      · cases hcall'
        cases hnil
      · cases hcall'
  · exact fun p origin sequence msg _ _ _ _ i call' hcall' _ => .inl hcall'
  · intro p t j n next _ hj _ _ i call' hcall' hnil
    obtain ⟨old, hold, rfl⟩ := Peer.getElem?_afterJob hcall'
    split at hnil
    · next ht =>
        -- a call in a broadcast has not returned
        rw [ht, Peer.job?, hold] at hj
        change old.pc.job? = some j at hj
        rw [TagPc.of_withNext_nil hnil] at hj
        cases hj
    · next ht =>
        rw [if_neg ht]
        exact .inl hold
  · intro p i c call n pc ha hcall _ _ _ hown k call' hcall' hnil
    subst ha
    obtain ⟨old, hold, rfl⟩ := Peer.getElem?_movePc hcall'
    split at hnil
    · next hk =>
        subst hk
        rw [hcall] at hold
        cases hold
        rw [if_pos rfl]
        right
        cases hrun : (st.peers p).node.stopped with
        | true => exact .inl rfl
        | false =>
            right
            have hbound := hown.binds_of_nil (hfinals p) (hset p k call hcall)
              (hclean.trueSuccess call hcall) hrun hnil
            exact hbound
    · next hk =>
        rw [if_neg hk]
        exact .inl hold
  · exact fun p _ i call' hcall' _ => .inl hcall'

end System

/-- In every run under the guard, a call of `Tag` which returns nil on a running
node has its name bound to its metahash, and a call whose name is bound to
another metahash returns an error. -/
theorem tag_success_binds [DecidableEq P] (sha256 : Bytes → Bytes) (conf : P → Configuration)
    (hpeers : ∀ p, 2 ≤ (conf p).totalPeers) (st st' : System P) (a : Action P)
    (h : (network sha256 conf).ReachableUnder System.CleanReturns st)
    (hclean : st.CleanReturns a) (hnext : (network sha256 conf).next st a = some st') (p : P)
    (i : ℕ) (name mh : String) (pc : TagPc P) (err : Option String)
    (hcall : (st.peers p).calls[i]? = some ⟨name, mh, pc⟩) (hactive : ¬ pc.IsReturned)
    (hreturns : (st'.peers p).calls[i]? = some ⟨name, mh, .returned err⟩)
    (hrun : (st.peers p).node.stopped = false) :
    (err = none → (st'.peers p).node.storage.naming.get name = some mh) ∧
      ∀ mh', (st'.peers p).node.storage.naming.get name = some mh' → mh' ≠ mh →
        ∃ e, err = some e := by
  have hbinds : err = none → (st'.peers p).node.storage.naming.get name = some mh := by
    rintro rfl
    have hfinals := System.bindsFinals_of_reachable hpeers (fun _ _ hCa => hCa) h
    have hstep := System.step_of_next (configured_of_reachable h) hnext
    rcases hstep.binds_of_nil hfinals (System.ne_setName_of_reachable hpeers h) hclean p i
      hreturns rfl with hold | hstopped | hbound
    · rw [hcall] at hold
      cases hold
      exact absurd trivial hactive
    · rw [hrun] at hstopped
      cases hstopped
    · exact hbound
  refine ⟨hbinds, ?_⟩
  intro mh' hbound hne
  cases err with
  | some e => exact ⟨e, rfl⟩
  | none =>
      rw [hbinds rfl, Option.some.injEq] at hbound
      exact absurd hbound.symm hne

/-- The call which decided its value returns nil, with its name bound. -/
theorem tag_success_binds_of_tagRun :
    ∃ st st', (network sha256 (majorityNetwork 2)).ReachableUnder System.CleanReturns st ∧
      (network sha256 (majorityNetwork 2)).next st (.call 0 0 .recv) = some st' ∧
      (st'.peers 0).node.storage.naming.get "file" = some "meta" := by
  obtain ⟨st, hst, hcall, hclean, hrun, st', hnext, hreturns⟩ :=
    TransitionSystem.exists_of_replay
      (S := network sha256 (majorityNetwork 2)) System.CleanReturns Action.tagRun
      (fun st => (st.peers 0).calls[0]? = some ⟨"file", "meta", .awaitValue 0 0⟩ ∧
        st.CleanReturns (.call 0 0 .recv) ∧ (st.peers 0).node.stopped = false ∧
        ∃ st' ∈ (network sha256 (majorityNetwork 2)).next st (.call 0 0 .recv),
          (st'.peers 0).calls[0]? = some ⟨"file", "meta", .returned none⟩)
      (by decide +kernel)
  have hbinds := tag_success_binds sha256 (majorityNetwork 2) (fun _ => le_rfl) st st' _ hst
    hclean hnext 0 0 "file" "meta" _ _ hcall not_false hreturns hrun
  exact ⟨st, st', hst, hnext, hbinds.1 rfl⟩

/-- The first peer decides its own metahash for the name while a call of the second
peer is between its two readings of the step.  The call of the second peer returns
nil. -/
theorem tag_success_not_binds :
    ∃ st st', (network sha256 (majorityNetwork 2)).ReachableUnder System.InOrder st ∧
      (network sha256 (majorityNetwork 2)).next st (.call 1 0 .run) = some st' ∧
      (st.peers 1).calls[0]? = some ⟨"file", "other", .lookupAgain⟩ ∧
      (st'.peers 1).calls[0]? = some ⟨"file", "other", .returned none⟩ ∧
      (st'.peers 1).node.stopped = false ∧
      (st'.peers 1).node.storage.naming.get "file" = some "meta" := by
  obtain ⟨st, hst, hcall, st', hnext, hreturns, hrun, hbound⟩ :=
    TransitionSystem.exists_of_replay
      (S := network sha256 (majorityNetwork 2)) System.InOrder
      (.tag 1 "file" "other" :: Action.steps 1 0 3 ++ Action.tagRun ++
        Action.handles 1 0 4 3 ++ Action.steps 1 0 1)
      (fun st => (st.peers 1).calls[0]? = some ⟨"file", "other", .lookupAgain⟩ ∧
        ∃ st' ∈ (network sha256 (majorityNetwork 2)).next st (.call 1 0 .run),
          (st'.peers 1).calls[0]? = some ⟨"file", "other", .returned none⟩ ∧
          (st'.peers 1).node.stopped = false ∧
          (st'.peers 1).node.storage.naming.get "file" = some "meta")
      (by decide +kernel)
  exact ⟨st, st', hst, hnext, hcall, hreturns, hrun, hbound⟩

end Minotor
