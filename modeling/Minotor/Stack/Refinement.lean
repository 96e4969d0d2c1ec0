import Minotor.Gossip.AntiEntropy
import Minotor.Network.Guards
import Minotor.Stack.System
import Minotor.Support.Runs

/-!
# The rumor layer delivers in order

The own rumors of a node are the messages which its peer has broadcast, and what the node has
stored of another one is what its peer has received.  So a rumor which the node accepts is the
next one of its origin, and a run of the peers over the rumor layer is a run of the network in
which rumors arrive in order and once.
-/

namespace Minotor

variable {P M : Type*} [DecidableEq P]

/-! ## Steps of a node -/

namespace Gossip

/-- Nothing is accepted, and no handler ends. -/
structure Node.Quiet (n n' : Node P M) : Prop where
  rumorsHandler : n'.rumorsHandler = n.rumorsHandler
  handling : n'.handling = n.handling
  run : n'.run = n.run
  listener : n'.listener ≠ none → n.listener ≠ none

omit [DecidableEq P] in
theorem Node.Quiet.refl (n : Node P M) : n.Quiet n := ⟨rfl, rfl, rfl, id⟩

theorem Node.quiet_finish {n n' : Node P M} {p : P} {id : ℕ} {shuffle : List P}
    {sent : List (Packet P M)} (hn : n.finish p id shuffle = some (n', sent)) : n.Quiet n' := by
  obtain ⟨header, rumors, discovered, hlistener, rfl, -⟩ := finish_cases hn
  refine ⟨rfl, ?_, rfl, fun hnone => absurd rfl hnone⟩
  rw [Node.handling, Node.handling, hlistener]

namespace Network

variable {st st' : Network P M} {p : P}

theorem quiet_update {q : P} {n : Node P M} (hn : (st.nodes q).Quiet n) :
    (st.nodes p).Quiet (Function.update st.nodes q n p) := by
  by_cases hp : p = q
  · rw [hp, Function.update_self]
    exact hn
  · rw [Function.update_of_ne hp]
    exact .refl _

theorem quiet_next {a : Action P M} (ha : a.runsNoHandler = true)
    (hnext : st.next a = some st') : (st.nodes p).Quiet (st'.nodes p) := by
  cases step_of_next hnext with
  | addPeer q addr => exact quiet_update ⟨rfl, rfl, rfl, id⟩
  | createChannel q i n hn =>
      obtain ⟨w, -, rfl⟩ := Node.createChannel_eq hn
      exact quiet_update ⟨rfl, rfl, rfl, id⟩
  | waitAck q i n sent hn =>
      obtain ⟨w, -, ⟨rfl, -⟩ | ⟨dest, pkt, -, -, -, rfl, -⟩⟩ := Node.waitAck_cases hn
      · exact quiet_update ⟨rfl, rfl, rfl, id⟩
      · exact quiet_update ⟨rfl, rfl, rfl, id⟩
  | finish q shuffle n sent _ hn => exact quiet_update (Node.quiet_finish hn)
  | drop i => exact .refl _
  | closeAcks q => exact quiet_update ⟨rfl, rfl, rfl, id⟩
  | _ => cases ha

theorem quiet_antiEntropy {q : P} {shuffle : List P}
    (hnext : st.antiEntropy q shuffle = some st') : (st.nodes p).Quiet (st'.nodes p) := by
  rw [nodes_antiEntropy hnext]
  exact .refl _

end Network

/-- The node broadcasts the message, if there is one. -/
structure Node.Broadcasts (p : P) (msg? : Option M) (n n' : Node P M) : Prop where
  own : (n'.rumorsHandler.rumors.get p).map (·.msg) =
    (n.rumorsHandler.rumors.get p).map (·.msg) ++ msg?.toList
  others : ∀ o, o ≠ p → n'.rumorsHandler.rumors.get o = n.rumorsHandler.rumors.get o
  listener : n'.listener = n.listener
  run : n'.run = n.run

theorem Node.broadcasts_none (p : P) (n : Node P M) : n.Broadcasts p none n :=
  ⟨(List.append_nil _).symm, fun _ _ => rfl, rfl, rfl⟩

theorem Node.broadcasts_broadcast (p : P) (n : Node P M) (id : ℕ) (msg : M) (shuffle : List P) :
    n.Broadcasts p (some msg) (n.broadcast p id msg shuffle).1 := by
  have hsame : (n.broadcast p id msg shuffle).1.listener = n.listener ∧
      (n.broadcast p id msg shuffle).1.run = n.run := by
    unfold Node.broadcast
    simp only
    split
    · exact ⟨rfl, rfl⟩
    · exact ⟨rfl, rfl⟩
  refine ⟨?_, ?_, hsame.1, hsame.2⟩
  · rw [rumorsHandler_broadcast, RumorsHandler.createRumorsMsg_snd, RumorsHandler.put_rumors,
      if_pos rfl, List.map_append]
    rfl
  · intro o ho
    rw [rumorsHandler_broadcast, RumorsHandler.createRumorsMsg_snd, RumorsHandler.put_rumors,
      if_neg ho]

end Gossip

/-! ## Steps of a peer -/

/-- A job appends what it broadcasts and keeps the rest. -/
theorem Node.JobStep.appends {sha256 : Bytes → Bytes} {conf : Configuration} {self : P}
    {n n' : Node P} {j : Job P} {next : Next P} (h : n.JobStep sha256 conf self j n' next) :
    n'.rumors = n.rumors ++ j.broadcast?.toList ∧
      (∀ o, o ≠ self → n'.sequenceMap o = n.sequenceMap o) ∧ n'.run = n.run := by
  cases h with
  | broadcast msg => exact ⟨rfl, fun o ho => Function.update_of_ne ho _ _, rfl⟩
  | _ => exact ⟨(List.append_nil _).symm, fun _ _ => rfl, rfl⟩

omit [DecidableEq P] in
theorem TagCall.OwnStep.appends_nothing {conf : Configuration} {self : P} {i : ℕ} {n n' : Node P}
    {call : TagCall P} {c : Choice} {pc : TagPc P} (h : call.OwnStep conf self i n c n' pc) :
    n'.rumors = n.rumors ∧ n'.sequenceMap = n.sequenceMap ∧ n'.run = n.run := by
  cases h <;> exact ⟨rfl, rfl, rfl⟩

/-! ## A peer over its node -/

namespace Peer

/-- What a peer and its node know of each other.  `returned` is the result of the handler in the
listening routine. -/
structure Over (p : P) (n : Gossip.Node P (Message P)) (peer : Peer P)
    (returned : Option Bool) : Prop where
  /-- the own rumors are what the peer has broadcast -/
  rumors : peer.node.rumors = (n.rumorsHandler.rumors.get p).map (·.msg)
  /-- what is stored has been handed over -/
  sequence : ∀ o, o ≠ p → peer.node.sequenceMap o = (n.rumorsHandler.rumors.get o).length
  /-- the listener works for the listening routine -/
  idle : n.handling = [] → peer.listener = none ∧ returned = none
  finished : returned ≠ none → peer.listener = none
  /-- the listening routine works only in a running peer -/
  run : n.run = true → peer.node.run = true ∨ returned = some true
  busy : n.listener ≠ none → n.run = true

namespace Over

variable {p : P} {n n' : Gossip.Node P (Message P)} {peer peer' : Peer P}
  {returned : Option Bool}

theorem quiet (h : Over p n peer returned) (hn : n.Quiet n') : Over p n' peer returned where
  rumors := by
    rw [hn.rumorsHandler]
    exact h.rumors
  sequence := by
    rw [hn.rumorsHandler]
    exact h.sequence
  idle := by
    rw [hn.handling]
    exact h.idle
  finished := h.finished
  run := by
    rw [hn.run]
    exact h.run
  busy hlistener := by
    rw [hn.run]
    exact h.busy (hn.listener hlistener)

/-- The listening routine gets a rumor or comes to an end. -/
theorem start (h : Over p n peer returned) (hidle : peer.listener = none)
    (hhandling : n'.handling = [] ∨ ∃ r, n'.handling = [r] ∧ r.origin ≠ p ∧
      r.sequence = (n.rumorsHandler.rumors.get r.origin).length + 1)
    (hrumors : ∀ o, n'.rumorsHandler.rumors.get o = n.rumorsHandler.rumors.get o ++
      n'.handling.filter fun r => r.origin = o)
    (hrun : n'.run = true → peer.node.run = true)
    (hbusy : n'.listener ≠ none → n'.run = true) : Over p n' (peer.start n') none := by
  rcases hhandling with hnil | ⟨r, hr, horigin, hsequence⟩
  · have hsame : ∀ o, n'.rumorsHandler.rumors.get o = n.rumorsHandler.rumors.get o := by
      intro o
      rw [hrumors, hnil, List.filter_nil, List.append_nil]
    have hstart : peer.start n' = peer := by
      unfold Peer.start
      rw [hnil]
    rw [hstart]
    refine ⟨?_, ?_, fun _ => ⟨hidle, rfl⟩, fun _ => hidle, fun h => .inl (hrun h), hbusy⟩
    · rw [hsame]
      exact h.rumors
    · intro o ho
      rw [hsame]
      exact h.sequence o ho
  · have hstart : peer.start n' = System.receive peer ⟨r.origin, r.sequence, r.msg⟩ := by
      unfold Peer.start
      rw [hr]
    have hmap : (peer.start n').node.sequenceMap =
        Function.update peer.node.sequenceMap r.origin r.sequence := by
      rw [hstart]
      refine if_pos ?_
      rw [h.sequence _ horigin]
      exact hsequence
    refine ⟨?_, ?_, ?_, fun hne => absurd rfl hne, ?_, hbusy⟩
    · rw [hrumors, hr, List.filter_cons_of_neg (by simpa using horigin), List.filter_nil,
        List.append_nil, hstart]
      exact h.rumors
    · intro o ho
      rw [hmap, hrumors, hr, List.length_append]
      by_cases heq : o = r.origin
      · rw [heq, Function.update_self, hsequence]
        simp
      · rw [Function.update_of_ne heq, h.sequence o ho]
        have hne : ¬ r.origin = o := Ne.symm heq
        simp [hne]
    · intro hnil
      rw [hr] at hnil
      cases hnil
    · intro hn'
      rw [hstart]
      exact .inl (hrun hn')

/-- A step of the listener. -/
theorem listen {sha256 : Bytes → Bytes} {conf : Configuration} {j : Job P} {nd : Node P}
    {next : Next P} (h : Over p n peer returned) (hj : peer.listener = some j)
    (hjob : peer.node.JobStep sha256 conf p j nd next) (hn : n.Broadcasts p j.broadcast? n') :
    Over p n' (peer.afterJob .listener nd next) next.returned? := by
  obtain ⟨hrumors, hsequence, hrun⟩ := hjob.appends
  have hagrees := afterJob_agrees peer nd .listener next
  have hhandling : n'.handling = n.handling := by
    rw [Gossip.Node.handling, Gossip.Node.handling, hn.listener]
  have hnone : returned = none := by
    by_contra hne
    rw [h.finished hne] at hj
    cases hj
  refine ⟨?_, ?_, ?_, ?_, ?_, ?_⟩
  · rw [hagrees.rumors, hrumors, h.rumors, hn.own]
  · intro o ho
    rw [hagrees.sequenceMap, hsequence o ho, h.sequence o ho, hn.others o ho]
  · intro hnil
    rw [(h.idle (hhandling ▸ hnil)).1] at hj
    cases hj
  · intro hne
    cases next with
    | job j' => exact absurd rfl hne
    | done => rfl
    | failed err => rfl
  · intro hn'
    rw [hn.run] at hn'
    rcases h.run hn' with hpeer | hfailed
    · cases next with
      | job j' => exact .inl (hrun.trans hpeer)
      | done => exact .inl (hrun.trans hpeer)
      | failed err => exact .inr rfl
    · rw [hnone] at hfailed
      cases hfailed
  · rw [hn.listener, hn.run]
    exact h.busy

/-- A step of a peer which is not one of its listener. -/
theorem other (h : Over p n peer returned) {msg? : Option (Message P)}
    (hn : n.Broadcasts p msg? n') (hrumors : peer'.node.rumors = peer.node.rumors ++ msg?.toList)
    (hsequence : ∀ o, o ≠ p → peer'.node.sequenceMap o = peer.node.sequenceMap o)
    (hrun : peer'.node.run = peer.node.run) (hlistener : peer'.listener = peer.listener) :
    Over p n' peer' returned where
  rumors := by rw [hrumors, h.rumors, hn.own]
  sequence o ho := by rw [hsequence o ho, h.sequence o ho, hn.others o ho]
  idle hnil := by
    rw [hlistener]
    apply h.idle
    rwa [Gossip.Node.handling, ← hn.listener]
  finished hne := by
    rw [hlistener]
    exact h.finished hne
  run hn' := by
    rw [hrun]
    exact h.run (hn.run ▸ hn')
  busy := by
    rw [hn.listener, hn.run]
    exact h.busy

end Over
end Peer

/-! ## Steps of a stack -/

namespace Stack

variable {sha256 : Bytes → Bytes} {conf : P → Configuration} {st st' : Stack P}

/-- Every peer agrees with its node. -/
structure Coupled (st : Stack P) : Prop where
  faithful : st.net.Faithful
  peers : ∀ p, (st.system.peers p).Over p (st.net.nodes p) (st.returned p)

/-- One peer and its node change. -/
theorem Coupled.of_update (h : st.Coupled) {p : P} (hfaithful : st'.net.Faithful)
    (hnodes : ∀ q, q ≠ p → st'.net.nodes q = st.net.nodes q)
    (hpeers : ∀ q, q ≠ p → st'.system.peers q = st.system.peers q)
    (hreturned : ∀ q, q ≠ p → st'.returned q = st.returned q)
    (hover : (st'.system.peers p).Over p (st'.net.nodes p) (st'.returned p)) : st'.Coupled := by
  refine ⟨hfaithful, fun q => ?_⟩
  by_cases hq : q = p
  · rw [hq]
    exact hover
  · rw [hnodes q hq, hpeers q hq, hreturned q hq]
    exact h.peers q

/-- The rumor layer takes a step in which no handler starts or ends. -/
theorem Coupled.quiet (h : st.Coupled) {net : Gossip.Network P (Message P)}
    (hfaithful : net.Faithful) (hquiet : ∀ p, (st.net.nodes p).Quiet (net.nodes p)) :
    { st with net := net }.Coupled :=
  ⟨hfaithful, fun p => (h.peers p).quiet (hquiet p)⟩

/-- What the rumor layer does for a peer. -/
theorem broadcasts_of_broadcast {p : P} {t : Peer.Thread} {shuffle : List P}
    {net : Gossip.Network P (Message P)} (h : follow.broadcast st shuffle p t = some net) :
    ∃ n, net.nodes = Function.update st.net.nodes p n ∧
      (st.net.nodes p).Broadcasts p (((st.system.peers p).job? t).bind Job.broadcast?) n ∧
      (st.net.Faithful → net.Faithful) := by
  unfold follow.broadcast at h
  split at h
  · next hnone =>
      obtain rfl := Option.some.inj h
      rw [hnone]
      exact ⟨_, (Function.update_eq_self p _).symm, Gossip.Node.broadcasts_none p _, id⟩
  · next msg hmsg =>
      rw [hmsg]
      have hfaithful : st.net.Faithful → net.Faithful := fun hst => hst.next h
      cases Gossip.Network.step_of_next h with
      | broadcast _ _ _ hshuffle =>
          exact ⟨_, rfl, Gossip.Node.broadcasts_broadcast p _ _ msg shuffle, hfaithful⟩

section

variable {a : Gossip.Action P (Message P)} {net : Gossip.Network P (Message P)} {p : P}

/-- What the node of a peer accepts in a step is the next rumor of its origin. -/
theorem Coupled.handling_cases (h : st.Coupled) (hnext : st.net.next a = some net)
    (haccepted : a.accepted st.net net p = (net.nodes p).handling) :
    (net.nodes p).handling = [] ∨ ∃ r, (net.nodes p).handling = [r] ∧ r.origin ≠ p ∧
      r.sequence = ((st.net.nodes p).rumorsHandler.rumors.get r.origin).length + 1 ∧
      (st.system.peers r.origin).node.rumors[r.sequence - 1]? = some r.msg := by
  have hcases : (net.nodes p).handling = [] ∨ ∃ r, (net.nodes p).handling = [r] := by
    unfold Gossip.Node.handling
    split
    · exact .inr ⟨_, rfl⟩
    · exact .inl rfl
  refine hcases.imp_right ?_
  rintro ⟨r, hr⟩
  obtain ⟨horigin, hsequence, hmem⟩ :=
    Gossip.Network.accepted_next h.faithful hnext (haccepted.trans hr)
  refine ⟨r, hr, horigin, hsequence, ?_⟩
  rw [(h.peers r.origin).rumors, List.getElem?_map, hsequence, Nat.add_sub_cancel]
  exact congrArg (Option.map _) hmem

/-- Handing over what the node of a peer accepts is a delivery in order. -/
theorem Coupled.delivery (h : st.Coupled) (hnext : st.net.next a = some net)
    (haccepted : a.accepted st.net net p = (net.nodes p).handling)
    (hidle : (st.system.peers p).listener = none)
    (hrun : (net.nodes p).run = true → (st.system.peers p).node.run = true)
    (hbusy : (net.nodes p).listener ≠ none → (net.nodes p).run = true) :
    st.system.setPeer p ((st.system.peers p).start (net.nodes p)) = st.system ∨
      ∃ b ∈ action?.delivery st p a, st.system.InOrder b ∧
        System.next sha256 conf st.system b =
          some (st.system.setPeer p ((st.system.peers p).start (net.nodes p))) := by
  rcases h.handling_cases hnext haccepted with hnil | ⟨r, hr, horigin, hsequence, hmsg⟩
  · left
    unfold Peer.start
    rw [hnil]
    exact congrArg (System.mk · _) (Function.update_eq_self p _)
  · right
    have hlistener : (net.nodes p).listener ≠ none := by
      intro hnone
      rw [Gossip.Node.handling_of_listener hnone] at hr
      cases hr
    refine ⟨.deliver p r.origin r.sequence, ?_, ⟨horigin, ?_⟩, ?_⟩
    · unfold action?.delivery
      rw [hnext, Option.bind_some, hr]
      rfl
    · rw [(h.peers p).sequence _ horigin]
      exact hsequence
    · have hguard : (st.system.peers p).node.run = true ∧
          (st.system.peers p).listener = none ∧ 0 < r.sequence :=
        ⟨hrun (hbusy hlistener), hidle, by rw [hsequence]; exact Nat.succ_pos _⟩
      unfold Peer.start
      rw [System.next, if_pos hguard, hmsg, hr]
      rfl

/-- The listening routine of a peer hands over what it accepts. -/
theorem Coupled.start (h : st.Coupled) (hnext : st.net.next a = some net)
    (hcreated : a.created st.net p = [])
    (haccepted : a.accepted st.net net p = (net.nodes p).handling)
    (hidle : (st.system.peers p).listener = none)
    (hrun : (net.nodes p).run = true → (st.system.peers p).node.run = true)
    (hbusy : (net.nodes p).listener ≠ none → (net.nodes p).run = true)
    (hnodes : ∀ q, q ≠ p → net.nodes q = st.net.nodes q) {returned : P → Option Bool}
    (hreturned : ∀ q, q ≠ p → returned q = st.returned q) (hnone : returned p = none) :
    (⟨net, st.system.setPeer p ((st.system.peers p).start (net.nodes p)), returned⟩ :
      Stack P).Coupled := by
  refine h.of_update (p := p) (h.faithful.next hnext) hnodes ?_ hreturned ?_
  · exact fun q hq => System.setPeer_of_ne _ _ hq
  · simp only [System.setPeer_self, hnone]
    refine (h.peers p).start hidle ?_ ?_ hrun hbusy
    · refine (h.handling_cases hnext haccepted).imp_right ?_
      rintro ⟨r, hr, horigin, hsequence, -⟩
      exact ⟨r, hr, horigin, hsequence⟩
    · intro o
      rw [Gossip.Network.rumors_next (fun _ => hcreated) hnext, haccepted]

end

/-- A packet arrives. -/
theorem Coupled.deliver (h : st.Coupled) {i : ℕ} {c : Gossip.Choices P}
    (hnext : st.next sha256 conf (.deliver i c) = some st') :
    st'.Coupled ∧ (st'.system = st.system ∨ ∃ b ∈ st.action? (.deliver i c),
      st.system.InOrder b ∧ System.next sha256 conf st.system b = some st'.system) := by
  obtain ⟨pkt, hpkt, hnext⟩ := Option.bind_eq_some_iff.mp hnext
  obtain ⟨net, hnet, rfl⟩ := Option.map_eq_some_iff.mp hnext
  have haccepted : (Gossip.Action.deliver i c).accepted st.net net pkt.header.destination =
      (net.nodes pkt.header.destination).handling := by
    simp only [Gossip.Action.accepted, hpkt, if_true]
  rw [action?, hpkt, Option.bind_some]
  generalize hp : pkt.header.destination = p at *
  obtain ⟨hrun, hlistener, hnode, hnodes⟩ : (st.net.nodes p).run = true ∧
      (st.net.nodes p).listener = none ∧ (net.nodes p).run = true ∧
      ∀ q, q ≠ p → net.nodes q = st.net.nodes q := by
    cases Gossip.Network.step_of_next hnet with
    | deliver _ _ pkt' hpkt' hrun hlistener _ =>
        obtain rfl : pkt = pkt' := Option.some.inj (hpkt.symm.trans hpkt')
        rw [hp] at hrun hlistener
        refine ⟨hrun, hlistener, ?_, ?_⟩
        · change (Function.update st.net.nodes pkt.header.destination _ p).run = true
          rw [hp, Function.update_self, Gossip.Node.run_receive (h.faithful.sound.nodes p).inOrder]
          exact hrun
        · intro q hq
          change Function.update st.net.nodes pkt.header.destination _ q = _
          rw [hp, Function.update_of_ne hq]
  obtain ⟨hidle, hnone⟩ := (h.peers p).idle (Gossip.Node.handling_of_listener hlistener)
  have hpeer : (st.system.peers p).node.run = true := by
    rcases (h.peers p).run hrun with hpeer | hfailed
    · exact hpeer
    · rw [hnone] at hfailed
      cases hfailed
  refine ⟨?_, h.delivery hnet haccepted hidle (fun _ => hpeer) fun _ => hnode⟩
  exact h.start hnet rfl haccepted hidle (fun _ => hpeer) (fun _ => hnode) hnodes
    (fun _ _ => rfl) hnone

/-- The listening routine goes on after a handler. -/
theorem Coupled.handlerReturns (h : st.Coupled) {p : P}
    (hnext : st.next sha256 conf (.handlerReturns p) = some st') :
    st'.Coupled ∧ (st'.system = st.system ∨ ∃ b ∈ st.action? (.handlerReturns p),
      st.system.InOrder b ∧ System.next sha256 conf st.system b = some st'.system) := by
  obtain ⟨err, herr, hnext⟩ := Option.bind_eq_some_iff.mp hnext
  obtain ⟨net, hnet, rfl⟩ := Option.map_eq_some_iff.mp hnext
  have haccepted : (Gossip.Action.handlerReturns p err).accepted st.net net p =
      (net.nodes p).handling := by
    simp only [Gossip.Action.accepted, if_true]
  rw [action?, herr, Option.bind_some]
  have hidle : (st.system.peers p).listener = none := by
    apply (h.peers p).finished
    rw [herr]
    exact Option.some_ne_none err
  obtain ⟨hrun, hbusy, hnodes⟩ : ((net.nodes p).run = true → (st.system.peers p).node.run = true) ∧
      ((net.nodes p).listener ≠ none → (net.nodes p).run = true) ∧
      ∀ q, q ≠ p → net.nodes q = st.net.nodes q := by
    cases Gossip.Network.step_of_next hnet with
    | handlerReturns _ _ n hn =>
        have hself : Function.update st.net.nodes p n p = n := Function.update_self ..
        change ((Function.update st.net.nodes p n p).run = true → _) ∧
          ((Function.update st.net.nodes p n p).listener ≠ none → _) ∧ _
        rw [hself]
        obtain ⟨header, rumors, m, rest, hlistener, ⟨-, rfl⟩ | ⟨hfalse, rfl⟩⟩ :=
          Gossip.Node.handlerReturns_cases hn
        · refine ⟨?_, fun hne => absurd rfl hne, fun q hq => Function.update_of_ne hq ..⟩
          rintro ⟨⟩
        · have hnode : (st.net.nodes p).run = true := by
            apply (h.peers p).busy
            rw [hlistener]
            exact Option.some_ne_none _
          refine ⟨fun _ => ?_, fun _ => ?_, fun q hq => Function.update_of_ne hq ..⟩
          · rcases (h.peers p).run hnode with hpeer | hfailed
            · exact hpeer
            · rw [herr, hfalse] at hfailed
              cases hfailed
          · change (Function.update st.net.nodes p _ p).run = true
            rw [Function.update_self]
            exact hnode
  refine ⟨?_, h.delivery hnet haccepted hidle hrun hbusy⟩
  exact h.start hnet rfl haccepted hidle hrun hbusy hnodes
    (fun q hq => Function.update_of_ne hq ..) (Function.update_self ..)

/-- A step of a call which may broadcast. -/
theorem Coupled.call (h : st.Coupled) {p : P} {n : Gossip.Node P (Message P)}
    {net : Gossip.Network P (Message P)} (hnodes : net.nodes = Function.update st.net.nodes p n)
    (hfaithful : net.Faithful) {msg? : Option (Message P)}
    (hn : (st.net.nodes p).Broadcasts p msg? n) {system : System P}
    (hothers : ∀ q, q ≠ p → system.peers q = st.system.peers q)
    (hrumors : (system.peers p).node.rumors = (st.system.peers p).node.rumors ++ msg?.toList)
    (hsequence : ∀ o, o ≠ p →
      (system.peers p).node.sequenceMap o = (st.system.peers p).node.sequenceMap o)
    (hrun : (system.peers p).node.run = (st.system.peers p).node.run)
    (hlistener : (system.peers p).listener = (st.system.peers p).listener) :
    (⟨net, system, st.returned⟩ : Stack P).Coupled := by
  refine h.of_update (p := p) hfaithful ?_ hothers (fun _ _ => rfl) ?_
  · intro q hq
    rw [hnodes, Function.update_of_ne hq]
  · simp only [hnodes, Function.update_self]
    exact (h.peers p).other hn hrumors hsequence hrun hlistener

/-- A step of a peer. -/
theorem Coupled.peer (h : st.Coupled) (hconf : st.system.Configured conf) {a : Action P}
    {shuffle : List P} (ha : st.Regular (.peer a shuffle))
    (hnext : st.next sha256 conf (.peer a shuffle) = some st') :
    st'.Coupled ∧ st.system.InOrder a ∧
      System.next sha256 conf st.system a = some st'.system := by
  obtain ⟨net, hfollow, hnext⟩ := Option.bind_eq_some_iff.mp hnext
  obtain ⟨system, hsystem, rfl⟩ := Option.map_eq_some_iff.mp hnext
  cases a with
  | tag p name mh =>
      refine ⟨?_, trivial, hsystem⟩
      obtain rfl := Option.some.inj hfollow
      obtain rfl := Option.some.inj hsystem
      refine h.of_update (p := p) h.faithful (fun _ _ => rfl) ?_ (fun _ _ => rfl) ?_
      · exact fun q hq => System.setPeer_of_ne _ _ hq
      · have hover := h.peers p
        simp only [System.setPeer_self]
        exact ⟨hover.rumors, hover.sequence, hover.idle, hover.finished, hover.run, hover.busy⟩
  | deliver p origin sequence => cases hfollow
  | listen p =>
      refine ⟨?_, trivial, hsystem⟩
      obtain ⟨n, hnodes, hn, hfaithful⟩ := broadcasts_of_broadcast hfollow
      obtain ⟨peer, hlisten, rfl⟩ := Option.map_eq_some_iff.mp hsystem
      obtain ⟨j, hj, hjob⟩ := Option.bind_eq_some_iff.mp hlisten
      obtain ⟨⟨nd, nxt⟩, hrun, rfl⟩ := Option.map_eq_some_iff.mp hjob
      have hthreshold : 1 ≤ (st.system.peers p).node.handler.threshold := by
        rw [(hconf p).threshold]
        exact (conf p).one_le_threshold
      have hreturned : (st.system.peers p).returned? sha256 (conf p) p = nxt.returned? := by
        rw [Peer.returned?, hj, Option.bind_some, hrun, Option.bind_some]
      have hbroadcast : ((st.system.peers p).job? .listener).bind Job.broadcast? =
          j.broadcast? := by
        rw [Peer.job?, hj, Option.bind_some]
      rw [hbroadcast] at hn
      refine h.of_update (p := p) (hfaithful h.faithful) ?_ ?_ ?_ ?_
      · intro q hq
        rw [hnodes, Function.update_of_ne hq]
      · exact fun q hq => System.setPeer_of_ne _ _ hq
      · exact fun q hq => Function.update_of_ne hq ..
      · simp only [System.setPeer_self, hnodes, Function.update_self, hreturned]
        exact (h.peers p).listen hj (Node.runJob_step hthreshold hrun) hn
  | call p i c =>
      refine ⟨?_, trivial, hsystem⟩
      obtain ⟨n, hnodes, hn, hfaithful⟩ := broadcasts_of_broadcast hfollow
      cases System.step_of_next hconf hsystem with
      | job _ p' t j nd nxt ha hj hjob =>
          obtain ⟨rfl, rfl⟩ := Prod.mk.inj (Option.some.inj ha)
          rw [hj, Option.bind_some] at hn
          obtain ⟨hrumors, hsequence, hrun⟩ := hjob.appends
          refine h.call hnodes (hfaithful h.faithful) hn
            (fun q hq => System.setPeer_of_ne _ _ hq) ?_ ?_ ?_ ?_
          · rw [System.setPeer_self]
            exact hrumors
          · rw [System.setPeer_self]
            exact hsequence
          · rw [System.setPeer_self]
            exact hrun
          · rw [System.setPeer_self]
            rfl
      | own _ _ _ call nd pc hcall hjob _ _ hown =>
          have hnone : (st.system.peers p).job? (.call i) = none := by
            rw [Peer.job?, hcall]
            exact hjob
          rw [hnone] at hn
          obtain ⟨hrumors, hsequence, hrun⟩ := hown.appends_nothing
          have hself : (st.system.setPeer p ((st.system.peers p).movePc nd i fun _ => pc)).peers p =
              (st.system.peers p).movePc nd i fun _ => pc := System.setPeer_self ..
          refine h.call hnodes (hfaithful h.faithful) hn
            (fun q hq => System.setPeer_of_ne _ _ hq) ?_ ?_ ?_ ?_
          · rw [hself]
            exact hrumors.trans (List.append_nil _).symm
          · rw [hself]
            exact fun o _ => congrFun hsequence o
          · rw [hself]
            exact hrun
          · rw [hself]
            rfl
  | stop p =>
      refine ⟨?_, trivial, hsystem⟩
      have hidle : (st.net.nodes p).listener = none := Option.isNone_iff_eq_none.mp ha
      have hnet : st.net.next (.stop p) = some net := hfollow
      have hfaithful := h.faithful.next hnet
      obtain rfl := Option.some.inj hfollow
      obtain rfl := Option.some.inj hsystem
      refine h.of_update (p := p) hfaithful ?_ ?_ (fun _ _ => rfl) ?_
      · exact fun q hq => Function.update_of_ne hq ..
      · exact fun q hq => System.setPeer_of_ne _ _ hq
      · have hself : (st.net.put p { st.net.nodes p with run := false } []).nodes p =
            { st.net.nodes p with run := false } := Function.update_self ..
        have hover := h.peers p
        simp only [System.setPeer_self, hself]
        refine ⟨hover.rumors, hover.sequence, hover.idle, hover.finished, ?_, ?_⟩
        · rintro ⟨⟩
        · exact fun hne => absurd hidle hne

/-- Every step of a stack is a step of the network of its peers in which rumors arrive in order,
or none. -/
theorem Coupled.step (h : st.Coupled) (hconf : st.system.Configured conf) {a : StackAction P}
    (ha : st.Regular a) (hnext : st.next sha256 conf a = some st') :
    st'.Coupled ∧ (st'.system = st.system ∨ ∃ b ∈ st.action? a,
      st.system.InOrder b ∧ System.next sha256 conf st.system b = some st'.system) := by
  cases a with
  | gossip a =>
      simp only [next, Option.ite_none_right_eq_some] at hnext
      obtain ⟨hquiet, hnext⟩ := hnext
      obtain ⟨net, hnet, rfl⟩ := Option.map_eq_some_iff.mp hnext
      refine ⟨h.quiet (h.faithful.next hnet) fun p => ?_, .inl rfl⟩
      exact Gossip.Network.quiet_next hquiet hnet
  | antiEntropy p shuffle =>
      obtain ⟨net, hnet, rfl⟩ := Option.map_eq_some_iff.mp hnext
      refine ⟨h.quiet (h.faithful.antiEntropy hnet) fun q => ?_, .inl rfl⟩
      exact Gossip.Network.quiet_antiEntropy hnet
  | deliver i c => exact h.deliver hnext
  | handlerReturns p => exact h.handlerReturns hnext
  | peer a shuffle =>
      obtain ⟨hcoupled, horder, hsystem⟩ := h.peer hconf ha hnext
      exact ⟨hcoupled, .inr ⟨a, rfl, horder, hsystem⟩⟩

theorem coupled_initial : (stack sha256 conf).init.Coupled where
  faithful := .initial
  peers _ :=
    { rumors := rfl
      sequence := fun _ _ => rfl
      idle := fun _ => ⟨rfl, rfl⟩
      finished := fun hne => absurd rfl hne
      run := fun _ => .inl rfl
      busy := fun hne => absurd rfl hne }

/-- A regular step, whose action of the network of peers satisfies `D`. -/
def Refining (D : System P → Action P → Prop) (st : Stack P) (a : StackAction P) : Prop :=
  st.Regular a ∧ ∀ b ∈ st.action? a, D st.system b

instance (D : System P → Action P → Prop) [∀ s b, Decidable (D s b)] (st : Stack P)
    (a : StackAction P) : Decidable (Refining D st a) :=
  inferInstanceAs (Decidable (_ ∧ _))

theorem coupled_of_reachable {D : System P → Action P → Prop}
    (h : (stack sha256 conf).ReachableUnder (Refining D) st) :
    st.Coupled ∧
      (network sha256 conf).ReachableUnder (fun s b => s.InOrder b ∧ D s b) st.system := by
  refine TransitionSystem.ReachableUnder.refines Stack.system coupled_initial rfl ?_ h
  intro st st' a hcoupled hsystem ha hnext
  obtain ⟨hstep, hcases⟩ := hcoupled.step (configured_of_reachable hsystem) ha.1 hnext
  refine ⟨hstep, hcases.imp_right ?_⟩
  rintro ⟨b, hb, horder, hb'⟩
  exact ⟨b, ⟨horder, ha.2 b hb⟩, hb'⟩

end Stack

/-- Peers over the rumor layer, whose packets may be lost, delayed and overtaken, refine the
network of peers in which the rumors of an origin arrive in order and exactly once: their peers
go through a run of that network, and a condition which the steps of that run meet carries
over to it. -/
theorem stack_refines (sha256 : Bytes → Bytes) (conf : P → Configuration)
    (D : System P → Action P → Prop) (st : Stack P)
    (h : (stack sha256 conf).ReachableUnder (Stack.Refining D) st) :
    (network sha256 conf).ReachableUnder (fun s b => s.InOrder b ∧ D s b) st.system :=
  (Stack.coupled_of_reachable h).2

/-- The run in which both peers decide is one of the network, too. -/
theorem stack_refines_of_tagRun :
    ∃ st, (stack sha256 (majorityNetwork 2)).ReachableUnder
        (Stack.Refining System.CleanBallots) st ∧
      (st.system.peers 1).node.handler.step = 1 ∧
      (network sha256 (majorityNetwork 2)).ReachableUnder
        (fun s b => s.InOrder b ∧ s.CleanBallots b) st.system := by
  obtain ⟨st, hst, hstep⟩ := TransitionSystem.exists_of_replay
    (S := stack sha256 (majorityNetwork 2)) (Stack.Refining System.CleanBallots)
    StackAction.tagRun (fun st => (st.system.peers 1).node.handler.step = 1) (by decide +kernel)
  exact ⟨st, hst, hstep, stack_refines sha256 _ _ st hst⟩

end Minotor
