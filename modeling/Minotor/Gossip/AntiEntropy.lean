import Minotor.Gossip.Broadcasts
import Minotor.Gossip.Exchange
import Mathlib.Algebra.Order.BigOperators.Group.Finset
import Mathlib.Combinatorics.SimpleGraph.Connectivity.Connected

/-!
# Anti-entropy repairs every loss

A packet with a rumor may be lost, and its `waitAck` routine may be at its end.  The ticker of
`antiEntropyMechanism` makes up for it.  As long as the neighbours connect all nodes and no
node has stopped, a network can come from whatever state it is in to one where every node has
every rumor, without a new broadcast.
-/

namespace Minotor.Gossip

variable {P M : Type*}

/-- Who has whom among its neighbours, in either direction. -/
def Network.topology (st : Network P M) : SimpleGraph P :=
  SimpleGraph.fromRel fun p q => q ∈ (st.nodes p).routingTable.neighbours

/-- The actions by which a network repairs itself: packets arrive, their handlers return without
an error, and the ticker of `antiEntropyMechanism` fires. -/
def ProcessingAction.Repairs : ProcessingAction P M → Prop
  | .step (.deliver _ _) => True
  | .step (.handlerReturns _ err) => err = false
  | .step (.finish _ _) => True
  | .antiEntropy _ _ => True
  | .runLocal _ err => err = false
  | _ => False

/-- No packet is worked on. -/
def Processing.Idle (st : Processing P M) (p : P) : Prop :=
  (st.net.nodes p).listener = none ∧ st.locals p = []

/-- The listening routine needs this many turns to come to its end. -/
def Node.turns (n : Node P M) : ℕ :=
  match n.listener with
  | none => 0
  | some ⟨_, _, .returned _⟩ => 1
  | some ⟨_, _, .handling _ rest⟩ => rest.length + 2

/-- Choices which are always possible. -/
def Node.choices (n : Node P M) : Choices P :=
  ⟨n.rumorsHandler.rumors.keys, false, n.routingTable.neighbours⟩

theorem ProcessingAction.Repairs.apart {a : ProcessingAction P M} (ha : a.Repairs) (p : P) :
    a.Apart p := by
  cases a with
  | step a =>
      cases a with
      | addPeer q addr => cases ha
      | execStatus q source status c => cases ha
      | _ => trivial
  | _ => trivial

theorem Node.allows_choices (n : Node P M) : n.Allows n.choices := ⟨.refl _, .refl _⟩

variable [DecidableEq P]

/-- What is left of the rumors of an origin begins with the one after those left out. -/
theorem RumorsHandler.InOrder.exists_drop {rH : RumorsHandler P M} {o : P} {k : ℕ}
    (h : rH.InOrder) (hk : k < rH.sequenceMap.get o) :
    ∃ r rest, (rH.rumors.get o).drop k = r :: rest ∧ r.origin = o ∧ r.sequence = k + 1 := by
  rw [← h.length o] at hk
  obtain ⟨horigin, hsequence⟩ := h.getElem? (List.getElem?_eq_getElem hk)
  exact ⟨_, _, List.drop_eq_getElem_cons hk, horigin, hsequence⟩

/-! ## What repairing keeps -/

namespace Node

variable {know : P → P → ℕ} {n n' : Node P M} {p : P}

theorem Updates.neighbours_subset (h : n.Updates p know n') :
    n.routingTable.neighbours ⊆ n'.routingTable.neighbours := by
  intro q hq
  cases h with
  | keeps hrt => exact hrt ▸ hq
  | addPeer addr hrt =>
      rw [hrt, NodeRT.neighbours_addEntries]
      exact List.mem_append_left _ hq
  | created msg hrt => exact hrt ▸ hq
  | accepted m relay _ _ hrt =>
      rw [hrt, NodeRT.neighbours_updateRT]
      split
      · exact List.mem_append_left _ hq
      · exact hq

theorem isSome_execStatusMessage (h : n.rumorsHandler.InOrder) (id : ℕ) (source : P)
    (status : SequenceMap P) (c : Choices P) :
    ∃ sent, n.execStatusMessage p id source status c = some sent := by
  apply Option.isSome_iff_exists.mp
  rw [execStatusMessage, Option.isSome_map]
  exact h.getRemoteMissingRumors_isSome status c.order

theorem run_receive (h : n.rumorsHandler.InOrder) (id : ℕ) (pkt : Packet P M) (c : Choices P) :
    (n.receive p id pkt c).1.run = n.run := by
  have hstatus : ∀ (n' : Node P M) source status, n'.rumorsHandler.InOrder →
      (n'.handleStatus p id source status c).1.run = n'.run := by
    intro n' source status h'
    obtain ⟨sent, hsent⟩ := isSome_execStatusMessage (p := p) h' id source status c
    rw [handleStatus, hsent]
  unfold receive
  split
  · split
    · rfl
    · rfl
  · exact hstatus n _ _ h
  · exact hstatus _ _ _ h

/-- A node which hears of rumors that it is missing sends its own status. -/
theorem status_mem_execStatusMessage {id : ℕ} {source : P} {status : SequenceMap P}
    {c : Choices P} {sent : List (Packet P M)} {o : P}
    (hn : n.execStatusMessage p id source status c = some sent)
    (hlt : n.know o < status.get o) :
    ⟨⟨id, p, p, source⟩, .status n.rumorsHandler.getSequenceMap⟩ ∈ sent := by
  have hmissing : n.rumorsHandler.isLocalMissingRumors status = true := by
    by_contra hnot
    have hle := RumorsHandler.le_of_not_missing (Bool.not_eq_true _ ▸ hnot) o
    exact absurd hlt (Nat.not_lt.mpr hle)
  obtain ⟨missing, -, rfl⟩ := Option.map_eq_some_iff.mp hn
  simp only [hmissing, if_true]
  exact List.mem_append_left _ (List.mem_append_left _ List.mem_cons_self)

/-- A node which hears that rumors are missing sends those of an origin. -/
theorem rumors_mem_execStatusMessage (h : n.rumorsHandler.InOrder) {id : ℕ} {source : P}
    {status : SequenceMap P} {sent : List (Packet P M)} {o : P}
    (hn : n.execStatusMessage p id source status n.choices = some sent)
    (hlt : status.get o < n.know o) :
    ∃ o', status.get o' < n.know o' ∧ ⟨⟨id + 1, p, p, source⟩,
      .rumors ((n.rumorsHandler.rumors.get o').drop (status.get o'))⟩ ∈ sent := by
  obtain ⟨missing, hmissing, rfl⟩ := Option.map_eq_some_iff.mp hn
  rcases h.getRemoteMissingRumors_cases hmissing with ⟨o', ho', rfl⟩ | ⟨rfl, -⟩
  · refine ⟨o', ho', ?_⟩
    have hne : (n.rumorsHandler.rumors.get o').drop (status.get o') ≠ [] := by
      rw [Ne, List.drop_eq_nil_iff, h.length o']
      exact Nat.not_le.mpr ho'
    simp only [if_pos hne]
    exact List.mem_append_left _ (List.mem_append_right _ List.mem_cons_self)
  · have hle := h.le_of_no_answer n.allows_choices.1 hmissing o
    exact absurd hlt (Nat.not_lt.mpr hle)

/-- The first of the rumors which a node is missing is accepted when it arrives. -/
theorem know_processRumors (header : Header P) {rumors rest : List (Rumor P M)} {r : Rumor P M}
    (processedRumor : Bool) (hnext : n.rumorsHandler.IsNext r) :
    n.know r.origin <
      (n.processRumors header rumors processedRumor (r :: rest)).know r.origin := by
  have hput : (n.processRumors header rumors processedRumor (r :: rest)).rumorsHandler =
      n.rumorsHandler.put r := by
    rw [processRumors, RumorsHandler.processRumors, if_pos hnext]
  rw [know, know, hput, RumorsHandler.put_sequence, if_pos rfl, hnext]
  exact Nat.lt_succ_self _

/-- What a section of `processRumors` has not looked at is shorter. -/
theorem turns_processRumors (header : Header P) (rumors : List (Rumor P M))
    (processedRumor : Bool) (rest : List (Rumor P M)) :
    (n.processRumors header rumors processedRumor rest).turns ≤ rest.length + 1 := by
  unfold processRumors
  rcases n.rumorsHandler.processRumors_cases processedRumor rest with
    ⟨skipped, m, rest', rfl, -, -, heq⟩ | ⟨-, heq⟩
  · rw [heq, List.length_append, List.length_cons]
    change rest'.length + 2 ≤ _
    omega
  · rw [heq]
    exact Nat.le_add_left 1 _

end Node

namespace Network

variable {st st' st'' : Network P M}

/-- Nodes go on running, and lose neither rumors nor neighbours, and create no rumors. -/
structure Grows (st st' : Network P M) : Prop where
  own : st'.own = st.own
  know_le : ∀ p o, st.know p o ≤ st'.know p o
  run : ∀ p, (st.nodes p).run = true → (st'.nodes p).run = true
  neighbours : ∀ p,
    (st.nodes p).routingTable.neighbours ⊆ (st'.nodes p).routingTable.neighbours

theorem Grows.refl (st : Network P M) : st.Grows st :=
  ⟨rfl, fun _ _ => le_rfl, fun _ h => h, fun _ _ h => h⟩

theorem Grows.of_nodes (h : st'.nodes = st.nodes) : st.Grows st' := by
  refine ⟨?_, ?_, ?_, ?_⟩
  · funext o
    rw [Network.own, Network.own, h]
  · intro p o
    rw [Network.know, Network.know, h]
  · intro p hp
    rw [h]
    exact hp
  · intro p
    rw [h]
    exact List.Subset.refl _

theorem Grows.trans (h : st.Grows st') (h' : st'.Grows st'') : st.Grows st'' where
  own := h'.own.trans h.own
  know_le p o := (h.know_le p o).trans (h'.know_le p o)
  run p hp := h'.run p (h.run p hp)
  neighbours p := List.Subset.trans (h.neighbours p) (h'.neighbours p)

omit [DecidableEq P] in
theorem topology_le (h : ∀ p,
    (st.nodes p).routingTable.neighbours ⊆ (st'.nodes p).routingTable.neighbours) :
    st.topology ≤ st'.topology := by
  intro p q
  simp only [topology, SimpleGraph.fromRel_adj]
  rintro ⟨hne, hq | hp⟩
  · exact ⟨hne, .inl (h p hq)⟩
  · exact ⟨hne, .inr (h q hp)⟩

/-- A node knows at most the rumors which their origin has created. -/
theorem Genuine.know_le (h : st.Genuine) (hsound : st.Sound) (p o : P) :
    st.know p o ≤ st.know o o := by
  have hle := ((h.nodes p).stored o).length_le
  rw [Network.own, (hsound.nodes p).inOrder.length, (hsound.nodes o).inOrder.length] at hle
  exact hle

/-- A node which knows as many rumors as their origin has the same. -/
theorem Genuine.rumors_eq (h : st.Genuine) (hsound : st.Sound) {p o : P}
    (hknow : st.know o o ≤ st.know p o) :
    (st.nodes p).rumorsHandler.rumors.get o = st.own o := by
  apply ((h.nodes p).stored o).eq_of_length_le
  rw [Network.own, (hsound.nodes p).inOrder.length, (hsound.nodes o).inOrder.length]
  exact hknow

theorem Grows.know_self (h : st.Grows st') (hsound : st.Sound) (hsound' : st'.Sound) (o : P) :
    st'.know o o = st.know o o := by
  have hown := congrArg List.length (congrFun h.own o)
  rw [Network.own, Network.own, (hsound.nodes o).inOrder.length,
    (hsound'.nodes o).inOrder.length] at hown
  exact hown

/-- No step removes a neighbour. -/
theorem neighbours_next (hsound : st.Sound) {a : Action P M} (hnext : st.next a = some st')
    (p : P) :
    (st.nodes p).routingTable.neighbours ⊆ (st'.nodes p).routingTable.neighbours := by
  obtain ⟨q, n, sent, hnodes, htakes, -⟩ := hsound.next hnext
  rw [hnodes]
  by_cases hp : p = q
  · rw [hp, Function.update_self]
    exact htakes.updates.neighbours_subset
  · rw [Function.update_of_ne hp]
    exact List.Subset.refl _

/-- A step in which no rumor is created and no node fails. -/
theorem Grows.of_next (hsound : st.Sound) (hlearned : st.Learned) {a : Action P M}
    (hnext : st.next a = some st') (hcreated : ∀ p, a.created st p = [])
    (hrun : ∀ p, (st.nodes p).run = true → (st'.nodes p).run = true) : st.Grows st' := by
  refine ⟨?_, ?_, hrun, neighbours_next hsound hnext⟩
  · funext p
    rw [own_next hsound hlearned hnext, hcreated, List.append_nil]
  · obtain ⟨q, n, sent, hnodes, htakes, -⟩ := hsound.next hnext
    rw [know_eq_update hnodes]
    exact htakes.updates.le_update rfl

/-- The other nodes go on running if this one does. -/
theorem run_update {p q : P} {n : Node P M} (hn : n.run = (st.nodes q).run)
    (hp : (st.nodes p).run = true) : (Function.update st.nodes q n p).run = true := by
  by_cases hpq : p = q
  · subst hpq
    rw [Function.update_self, hn]
    exact hp
  · rw [Function.update_of_ne hpq]
    exact hp

end Network

namespace Processing

variable {st st' : Processing P M} {p q : P}

/-- What an action by which the network repairs itself does. -/
theorem grows_of_repairs (h : st.net.Faithful) {a : ProcessingAction P M} (ha : a.Repairs)
    (hnext : st.next a = some st') : st.net.Grows st'.net := by
  cases a with
  | step a =>
      have hnet := net_step hnext
      generalize st'.net = net at hnet ⊢
      cases Network.step_of_next hnet with
      | deliver i c pkt =>
          exact .of_next h.sound h.learned hnet (fun _ => rfl) fun q hq =>
            Network.run_update (Node.run_receive (h.sound.nodes _).inOrder _ pkt c) hq
      | handlerReturns p err n hn =>
          obtain rfl : err = false := ha
          obtain ⟨header, rumors, m, rest, -, ⟨herr, -⟩ | ⟨-, rfl⟩⟩ :=
            Node.handlerReturns_cases hn
          · cases herr
          · exact .of_next h.sound h.learned hnet (fun _ => rfl) fun q hq =>
              Network.run_update rfl hq
      | finish p shuffle n sent _ hn =>
          obtain ⟨header, rumors, discovered, -, rfl, -⟩ := Node.finish_cases hn
          exact .of_next h.sound h.learned hnet (fun _ => rfl) fun q hq =>
            Network.run_update rfl hq
      | _ => cases ha
  | antiEntropy p shuffle =>
      exact .of_nodes (Network.nodes_antiEntropy (net_antiEntropy hnext))
  | runBroadcast p i => cases ha
  | runLocal p err =>
      obtain rfl : err = false := ha
      simp only [next] at hnext
      split at hnext
      · cases hnext
      · obtain rfl := Option.some.inj hnext
        exact .refl st.net

/-- No action removes a neighbour. -/
theorem neighbours_next {a : ProcessingAction P M} (h : st.net.Faithful)
    (hnext : st.next a = some st') (p : P) :
    (st.net.nodes p).routingTable.neighbours ⊆ (st'.net.nodes p).routingTable.neighbours := by
  cases a with
  | step a => exact Network.neighbours_next h.sound (net_step hnext) p
  | antiEntropy q shuffle =>
      exact (grows_of_repairs h (a := .antiEntropy q shuffle) trivial hnext).neighbours p
  | runBroadcast q i =>
      rw [net_runBroadcast hnext]
      exact List.Subset.refl _
  | runLocal q err =>
      rcases net_runLocal hnext with hnet | hnet
      · exact Network.neighbours_next h.sound hnet p
      · rw [hnet]
        exact List.Subset.refl _

/-- The network repairs itself on the way from `st` to `st'`. -/
def RepairsTo (st st' : Processing P M) : Prop :=
  processing.LeadsTo (fun _ a => a.Repairs) st st'

theorem RepairsTo.of_next {a : ProcessingAction P M} (hnext : st.next a = some st')
    (ha : a.Repairs) : st.RepairsTo st' := .single ⟨a, ha, hnext⟩

theorem RepairsTo.trans {st'' : Processing P M} (h : st.RepairsTo st')
    (h' : st'.RepairsTo st'') : st.RepairsTo st'' := Relation.ReflTransGen.trans h h'

theorem RepairsTo.keeps (h : st.RepairsTo st') (hst : st.net.Faithful) :
    st'.net.Faithful ∧ st.net.Grows st'.net := by
  induction h with
  | refl => exact ⟨hst, .refl _⟩
  | tail _ hstep ih =>
      obtain ⟨a, ha, hnext⟩ := hstep
      exact ⟨faithful_next ih.1 hnext, ih.2.trans (grows_of_repairs ih.1 ha hnext)⟩

/-! ## Coming to rest -/

/-- The rumors which wait for their local processing are processed. -/
theorem exists_locals_nil (st : Processing P M) (p : P) :
    ∃ st', st.RepairsTo st' ∧ st'.net = st.net ∧ st'.locals p = [] ∧
      ∀ q, q ≠ p → st'.locals q = st.locals q := by
  induction hlocals : st.locals p generalizing st with
  | nil => exact ⟨st, .refl, rfl, hlocals, fun _ _ => rfl⟩
  | cons r rest ih =>
      have hnext : ∃ st₁ : Processing P M, st.next (.runLocal p false) = some st₁ ∧
          st₁.net = st.net ∧ st₁.locals = Function.update st.locals p rest := by
        simp only [next, hlocals]
        exact ⟨_, rfl, rfl, rfl⟩
      obtain ⟨st₁, hnext, hnet₁, hlocals₁⟩ := hnext
      have hrest : st₁.locals p = rest := by
        rw [hlocals₁, Function.update_self]
      obtain ⟨st', hrepairs, hnet, hnil, hothers⟩ := ih st₁ hrest
      refine ⟨st', (RepairsTo.of_next hnext rfl).trans hrepairs, hnet.trans hnet₁, hnil, ?_⟩
      intro q hq
      rw [hothers q hq, hlocals₁, Function.update_of_ne hq]

/-- A step of the network in which nothing is left for local processing. -/
theorem exists_step {a : Action P M} {net : Network P M}
    (ha : ProcessingAction.Repairs (P := P) (M := M) (.step a)) (hready : st.ready a = true)
    (harrived : ∀ q, a.arrived st.net q = []) (hnext : st.net.next a = some net) :
    ∃ st', st.RepairsTo st' ∧ st'.net = net ∧ st'.locals = st.locals := by
  have hstep : ∃ st', st.next (.step a) = some st' ∧ st'.net = net ∧ st'.locals = st.locals := by
    simp only [next, hready, if_true, hnext, Option.map_some, harrived, List.append_nil]
    exact ⟨_, rfl, rfl, rfl⟩
  obtain ⟨st', hstep, hnet, hlocals⟩ := hstep
  exact ⟨st', .of_next hstep ha, hnet, hlocals⟩

/-- The listening routine comes to the end of its packet. -/
theorem exists_listener_none (st : Processing P M) (p : P) :
    ∃ st', st.RepairsTo st' ∧ (st'.locals = st.locals ∧
      ∀ q, q ≠ p → st'.net.nodes q = st.net.nodes q) ∧ (st'.net.nodes p).listener = none := by
  refine TransitionSystem.exists_leadsTo_of_variant
    (fun st' : Processing P M => (st'.net.nodes p).turns) ?_
    (I := fun st' => st'.locals = st.locals ∧ ∀ q, q ≠ p → st'.net.nodes q = st.net.nodes q)
    ⟨rfl, fun _ _ => rfl⟩
  rintro st₁ ⟨hlocals, hothers⟩
  -- one turn of the listening routine
  have hturn : ∀ a n sent, ProcessingAction.Repairs (P := P) (M := M) (.step a) →
      st₁.ready a = true → (∀ q, a.arrived st₁.net q = []) →
      st₁.net.next a = some (st₁.net.put p n sent) → n.turns < (st₁.net.nodes p).turns →
      ∃ st₂, processing.LeadsTo (fun _ a => a.Repairs) st₁ st₂ ∧
        (st₂.locals = st.locals ∧ ∀ q, q ≠ p → st₂.net.nodes q = st.net.nodes q) ∧
        (st₂.net.nodes p).turns < (st₁.net.nodes p).turns := by
    intro a n sent ha hready harrived hnext hlt
    obtain ⟨st₂, hrepairs, hnet, hlocals₂⟩ := exists_step ha hready harrived hnext
    have hnodes : st₂.net.nodes = Function.update st₁.net.nodes p n := congrArg (·.nodes) hnet
    refine ⟨st₂, hrepairs, ⟨hlocals₂.trans hlocals, ?_⟩, ?_⟩
    · intro q hq
      rw [hnodes, Function.update_of_ne hq]
      exact hothers q hq
    · rw [hnodes, Function.update_self]
      exact hlt
  cases hlistener : (st₁.net.nodes p).listener with
  | none => exact .inl rfl
  | some l =>
      right
      obtain ⟨header, rumors, pc⟩ := l
      cases pc with
      | handling m rest =>
          have hturns : (st₁.net.nodes p).turns = rest.length + 2 := by
            rw [Node.turns, hlistener]
          refine hturn (.handlerReturns p false)
            ((st₁.net.nodes p).processRumors header rumors true rest) [] rfl rfl
            (fun _ => rfl) ?_ ?_
          · simp only [Network.next, Node.handlerReturns, hlistener]
            rfl
          · rw [hturns]
            exact Nat.lt_succ_of_le (Node.turns_processRumors header rumors true rest)
      | returned discovered =>
          have hturns : (st₁.net.nodes p).turns = 1 := by
            rw [Node.turns, hlistener]
          have hfinish : ∃ n sent, (st₁.net.nodes p).finish p st₁.net.nextID
              (st₁.net.nodes p).routingTable.neighbours = some (n, sent) := by
            rw [Node.finish, hlistener]
            exact ⟨_, _, rfl⟩
          obtain ⟨n, sent, hfinish⟩ := hfinish
          refine hturn (.finish p (st₁.net.nodes p).routingTable.neighbours)
            n sent trivial rfl (fun _ => rfl) ?_ ?_
          · simp only [Network.next, Node.Shuffles, List.Perm.refl, if_true, hfinish]
            rfl
          · obtain ⟨_, _, _, -, rfl, -⟩ := Node.finish_cases hfinish
            rw [hturns]
            exact Nat.zero_lt_one

/-- A node comes to rest, and others stay at rest. -/
theorem exists_idle (st : Processing P M) (p : P) :
    ∃ st', st.RepairsTo st' ∧ st'.Idle p ∧ ∀ q, q ≠ p → st.Idle q → st'.Idle q := by
  obtain ⟨st₁, hrepairs₁, hnet, hnil, hlocals⟩ := st.exists_locals_nil p
  obtain ⟨st₂, hrepairs₂, ⟨hlocals₂, hothers⟩, hlistener⟩ := st₁.exists_listener_none p
  refine ⟨st₂, hrepairs₁.trans hrepairs₂, ⟨hlistener, ?_⟩, ?_⟩
  · rw [hlocals₂, hnil]
  · rintro q hq ⟨hidle, hnone⟩
    constructor
    · rw [hothers q hq, hnet]
      exact hidle
    · rw [hlocals₂, hlocals q hq]
      exact hnone

theorem exists_all_idle [Finite P] (st : Processing P M) :
    ∃ st', st.RepairsTo st' ∧ ∀ p, st'.Idle p := by
  cases nonempty_fintype P
  suffices hfinset : ∀ s : Finset P, ∃ st', st.RepairsTo st' ∧ ∀ p ∈ s, st'.Idle p by
    obtain ⟨st', hrepairs, hidle⟩ := hfinset Finset.univ
    exact ⟨st', hrepairs, fun p => hidle p (Finset.mem_univ p)⟩
  intro s
  induction s using Finset.induction_on with
  | empty => exact ⟨st, .refl, fun p hp => absurd hp (Finset.notMem_empty p)⟩
  | insert p s _ ih =>
      obtain ⟨st₁, hrepairs₁, hidle⟩ := ih
      obtain ⟨st₂, hrepairs₂, hp, hothers⟩ := st₁.exists_idle p
      refine ⟨st₂, hrepairs₁.trans hrepairs₂, ?_⟩
      intro q hq
      by_cases hqp : q = p
      · rw [hqp]
        exact hp
      · exact hothers q hqp (hidle q (Finset.mem_of_mem_insert_of_ne hq hqp))

/-! ## One exchange -/

/-- A node at rest takes a packet. -/
theorem exists_deliver {pkt : Packet P M} (hpkt : pkt ∈ st.net.packets)
    (hdest : pkt.header.destination = p) (hrun : (st.net.nodes p).run = true) (hidle : st.Idle p)
    (hown : pkt.ownRumors = []) :
    ∃ st', st.RepairsTo st' ∧ st'.locals = st.locals ∧
      st'.net.nodes = Function.update st.net.nodes p
        ((st.net.nodes p).receive p st.net.nextID pkt (st.net.nodes p).choices).1 ∧
      ∀ pkt' ∈ ((st.net.nodes p).receive p st.net.nextID pkt (st.net.nodes p).choices).2,
        pkt' ∈ st'.net.packets := by
  subst hdest
  obtain ⟨i, hi⟩ := List.getElem?_of_mem hpkt
  have hc := (st.net.nodes pkt.header.destination).allows_choices
  generalize (st.net.nodes pkt.header.destination).choices = c at hc ⊢
  have hready : st.ready (.deliver i c) = true := by
    simp only [ready, hi, hidle.2]
    rfl
  have harrived : ∀ q, Action.arrived st.net q (.deliver i c) = [] := by
    intro q
    simp only [Action.arrived, hi, hown, ite_self]
  have hnext : ∃ net, st.net.next (.deliver i c) = some net ∧
      net.nodes = Function.update st.net.nodes pkt.header.destination
        ((st.net.nodes pkt.header.destination).receive pkt.header.destination
          st.net.nextID pkt c).1 ∧
      ∀ pkt' ∈ ((st.net.nodes pkt.header.destination).receive pkt.header.destination
          st.net.nextID pkt c).2, pkt' ∈ net.packets := by
    simp only [Network.next, hi, Option.bind_some, hrun, hidle.1, hc, Option.isNone_none,
      and_self, if_true]
    exact ⟨_, rfl, rfl, fun pkt' hpkt' => List.mem_append_right _ hpkt'⟩
  obtain ⟨net, hnext, hnodes, hpackets⟩ := hnext
  obtain ⟨st', hrepairs, rfl, hlocals⟩ :=
    exists_step (a := .deliver i c) trivial hready harrived hnext
  exact ⟨st', hrepairs, hlocals, hnodes, hpackets⟩

/-- A node at rest handles a status message. -/
theorem exists_status (h : st.net.Faithful) {id : ℕ} {status : SequenceMap P}
    (hpkt : ⟨⟨id, q, q, p⟩, .status status⟩ ∈ st.net.packets)
    (hrun : (st.net.nodes p).run = true) (hidle : st.Idle p) :
    ∃ st' sent, st.RepairsTo st' ∧ st'.locals = st.locals ∧ st'.net.nodes = st.net.nodes ∧
      (st.net.nodes p).execStatusMessage p st.net.nextID q status (st.net.nodes p).choices =
        some sent ∧
      ∀ pkt ∈ sent, pkt ∈ st'.net.packets := by
  obtain ⟨sent, hsent⟩ := Node.isSome_execStatusMessage (p := p) (h.sound.nodes p).inOrder
    st.net.nextID q status (st.net.nodes p).choices
  obtain ⟨st', hrepairs, hlocals, hnodes, hpackets⟩ := exists_deliver hpkt rfl hrun hidle rfl
  have hreceive : (st.net.nodes p).receive p st.net.nextID ⟨⟨id, q, q, p⟩, .status status⟩
      (st.net.nodes p).choices = (st.net.nodes p, sent) := by
    change (st.net.nodes p).handleStatus p st.net.nextID q status _ = _
    rw [Node.handleStatus, hsent]
  rw [hreceive] at hnodes hpackets
  exact ⟨st', sent, hrepairs, hlocals, hnodes.trans (Function.update_eq_self p _), hsent,
    hpackets⟩

/-- A node at rest accepts the rumor which comes next. -/
theorem exists_accept {header : Header P} {r : Rumor P M} {rest : List (Rumor P M)}
    (hpkt : ⟨header, .rumors (r :: rest)⟩ ∈ st.net.packets) (hdest : header.destination = p)
    (hsource : header.source ≠ p) (hrun : (st.net.nodes p).run = true) (hidle : st.Idle p)
    (hnext : (st.net.nodes p).rumorsHandler.IsNext r) :
    ∃ st', st.RepairsTo st' ∧ st.net.know p r.origin < st'.net.know p r.origin := by
  have hne : header.source ≠ header.destination := hdest ▸ hsource
  obtain ⟨st', hrepairs, -, hnodes, -⟩ := exists_deliver hpkt hdest hrun hidle (if_neg hne)
  have hreceive : ((st.net.nodes p).receive p st.net.nextID ⟨header, .rumors (r :: rest)⟩
      (st.net.nodes p).choices).1 =
      (st.net.nodes p).processRumors header (r :: rest) false (r :: rest) :=
    congrArg Prod.fst (if_neg hne)
  refine ⟨st', hrepairs, ?_⟩
  rw [Network.know, Network.know, hnodes, Function.update_self, hreceive]
  exact Node.know_processRumors header false hnext

/-- A node which has sent its status gets a rumor that it is missing. -/
theorem exists_answer (h : st.net.Faithful) {id : ℕ} {o : P} (hpq : p ≠ q)
    (hpkt : ⟨⟨id, q, q, p⟩, .status (st.net.nodes q).rumorsHandler.getSequenceMap⟩ ∈
      st.net.packets)
    (hrun : ∀ p, (st.net.nodes p).run = true) (hidle : ∀ p, st.Idle p)
    (hlt : st.net.know q o < st.net.know p o) :
    ∃ st', st.RepairsTo st' ∧ ∃ o', st.net.know q o' < st'.net.know q o' := by
  obtain ⟨st₁, sent, hrepairs₁, hlocals, hnodes, hsent, hpackets⟩ :=
    exists_status h hpkt (hrun p) (hidle p)
  obtain ⟨o', hlt', hmem⟩ :=
    Node.rumors_mem_execStatusMessage (h.sound.nodes p).inOrder hsent hlt
  obtain ⟨r, rest, hdrop, horigin, hsequence⟩ := (h.sound.nodes p).inOrder.exists_drop hlt'
  rw [hdrop] at hmem
  have hnext : (st₁.net.nodes q).rumorsHandler.IsNext r := by
    rw [hnodes, RumorsHandler.IsNext, horigin]
    exact hsequence
  have hidle₁ : st₁.Idle q := by
    rw [Idle, hlocals, hnodes]
    exact hidle q
  have hrun₁ : (st₁.net.nodes q).run = true := by
    rw [hnodes]
    exact hrun q
  obtain ⟨st₂, hrepairs₂, hknow⟩ :=
    exists_accept (hpackets _ hmem) rfl hpq hrun₁ hidle₁ hnext
  refine ⟨st₂, hrepairs₁.trans hrepairs₂, r.origin, ?_⟩
  rw [Network.know, hnodes] at hknow
  exact hknow

/-- The ticker sends the status of a node to a neighbour. -/
theorem exists_tick (st : Processing P M)
    (hq : q ∈ (st.net.nodes p).routingTable.neighbours) :
    ∃ st' id, st.RepairsTo st' ∧ st'.locals = st.locals ∧ st'.net.nodes = st.net.nodes ∧
      ⟨⟨id, p, p, q⟩, .status (st.net.nodes p).rumorsHandler.getSequenceMap⟩ ∈
        st'.net.packets := by
  let shuffle := q :: (st.net.nodes p).routingTable.neighbours.erase q
  have hshuffle : (st.net.nodes p).Shuffles shuffle := (List.perm_cons_erase hq).symm
  have hnext : ∃ st', st.next (.antiEntropy p shuffle) = some st' ∧ st'.locals = st.locals ∧
      st'.net = st.net.put p (st.net.nodes p) [⟨⟨st.net.nextID, p, p, q⟩,
        .status (st.net.nodes p).rumorsHandler.getSequenceMap⟩] := by
    simp only [next, Network.antiEntropy, shuffle, hshuffle, if_true, Option.map_some]
    exact ⟨_, rfl, rfl, rfl⟩
  obtain ⟨st', hnext, hlocals, hnet⟩ := hnext
  refine ⟨st', st.net.nextID, .of_next hnext trivial, hlocals, ?_, ?_⟩
  · rw [hnet]
    exact Function.update_eq_self p _
  · rw [hnet]
    exact List.mem_append_right _ List.mem_cons_self

/-- A node gets a rumor that it is missing from a neighbour, in either direction. -/
theorem exists_exchange (h : st.net.Faithful) {o : P} (hadj : st.net.topology.Adj p q)
    (hrun : ∀ p, (st.net.nodes p).run = true) (hidle : ∀ p, st.Idle p)
    (hlt : st.net.know q o < st.net.know p o) :
    ∃ st', st.RepairsTo st' ∧ ∃ o', st.net.know q o' < st'.net.know q o' := by
  have hkeep : ∀ {st₁ : Processing P M}, st₁.locals = st.locals → st₁.net.nodes = st.net.nodes →
      (∀ p, (st₁.net.nodes p).run = true) ∧ ∀ p, st₁.Idle p := by
    intro st₁ hlocals hnodes
    simp only [Idle, hlocals, hnodes]
    exact ⟨hrun, hidle⟩
  obtain ⟨hpq, hq | hp⟩ := (SimpleGraph.fromRel_adj _ _ _).mp hadj
  · -- `p` sends its status, which `q` answers with its own
    obtain ⟨st₁, id, hrepairs₁, hlocals₁, hnodes₁, hpkt⟩ := st.exists_tick hq
    have h₁ := (hrepairs₁.keeps h).1
    obtain ⟨hrun₁, hidle₁⟩ := hkeep hlocals₁ hnodes₁
    obtain ⟨st₂, sent, hrepairs₂, hlocals₂, hnodes₂, hsent, hpackets⟩ :=
      exists_status h₁ hpkt (hrun₁ q) (hidle₁ q)
    rw [hnodes₁] at hsent
    have hmem := hpackets _ (Node.status_mem_execStatusMessage hsent hlt)
    obtain ⟨hrun₂, hidle₂⟩ := hkeep (hlocals₂.trans hlocals₁) (hnodes₂.trans hnodes₁)
    have hknow : st₂.net.know = st.net.know := by
      unfold Network.know
      rw [hnodes₂, hnodes₁]
    rw [← hnodes₁, ← hnodes₂] at hmem
    obtain ⟨st₃, hrepairs₃, hlearns⟩ := exists_answer (hrepairs₂.keeps h₁).1 hpq hmem hrun₂ hidle₂
      (hknow ▸ hlt)
    exact ⟨st₃, (hrepairs₁.trans hrepairs₂).trans hrepairs₃, hknow ▸ hlearns⟩
  · -- `q` sends its status
    obtain ⟨st₁, id, hrepairs₁, hlocals₁, hnodes₁, hpkt⟩ := st.exists_tick hp
    obtain ⟨hrun₁, hidle₁⟩ := hkeep hlocals₁ hnodes₁
    have hknow : st₁.net.know = st.net.know := by
      unfold Network.know
      rw [hnodes₁]
    rw [← hnodes₁] at hpkt
    obtain ⟨st₂, hrepairs₂, hlearns⟩ := exists_answer (hrepairs₁.keeps h).1 hpq hpkt hrun₁ hidle₁
      (hknow ▸ hlt)
    exact ⟨st₂, hrepairs₁.trans hrepairs₂, hknow ▸ hlearns⟩

/-- As long as a node is missing a rumor, some node can get one that it is missing. -/
theorem exists_progress (h : st.net.Faithful) (hconnected : st.net.topology.Preconnected)
    (hrun : ∀ p, (st.net.nodes p).run = true) (hidle : ∀ p, st.Idle p) {o : P}
    (hlt : st.net.know p o < st.net.know o o) :
    ∃ st', st.RepairsTo st' ∧ ∃ q o', st.net.know q o' < st'.net.know q o' := by
  -- on the way from the origin to `p`, the first node which is missing a rumor of it
  obtain ⟨walk⟩ := hconnected o p
  obtain ⟨d, -, hfst, hsnd⟩ := walk.exists_boundary_dart
    {q | st.net.know o o ≤ st.net.know q o} (le_refl (st.net.know o o)) (Nat.not_le.mpr hlt)
  have hlags : st.net.know d.snd o < st.net.know d.fst o :=
    (Nat.not_le.mp hsnd).trans_le hfst
  obtain ⟨st', hrepairs, o', hknow⟩ := exists_exchange h d.adj hrun hidle hlags
  exact ⟨st', hrepairs, d.snd, o', hknow⟩

end Processing

/-! ## Repair -/

namespace Network

variable [Fintype P] {st st' : Network P M}

/-- How many rumors are missing, over all nodes and origins. -/
def missing (st : Network P M) : ℕ := ∑ p, ∑ o, (st.know o o - st.know p o)

theorem Grows.missing_lt (h : st.Grows st') (hsound : st.Sound) (hsound' : st'.Sound)
    (hgenuine : st'.Genuine) {p o : P} (hlt : st.know p o < st'.know p o) :
    st'.missing < st.missing := by
  have hself := h.know_self hsound hsound'
  have hle : ∀ q o, st'.know o o - st'.know q o ≤ st.know o o - st.know q o := by
    intro q o
    have hknow := h.know_le q o
    rw [hself]
    omega
  have hless : st'.know o o - st'.know p o < st.know o o - st.know p o := by
    have hknow := hgenuine.know_le hsound' p o
    rw [hself] at hknow ⊢
    omega
  unfold missing
  apply Finset.sum_lt_sum
  · intro q _
    exact Finset.sum_le_sum fun o _ => hle q o
  · refine ⟨p, Finset.mem_univ p, Finset.sum_lt_sum (fun o _ => hle p o) ?_⟩
    exact ⟨o, Finset.mem_univ o, hless⟩

end Network

namespace Processing

variable {st st' : Processing P M}

/-- All nodes run, are at rest, and have all rumors. -/
structure Repaired (created : P → List (Rumor P M)) (st : Processing P M) : Prop where
  own : st.net.own = created
  run : ∀ p, (st.net.nodes p).run = true
  idle : ∀ p, st.Idle p
  rumors : ∀ p o, (st.net.nodes p).rumorsHandler.rumors.get o = created o

theorem exists_repaired [Finite P] (h : st.net.Faithful) (hrun : ∀ p, (st.net.nodes p).run = true)
    (hconnected : st.net.topology.Preconnected) :
    ∃ st', st.RepairsTo st' ∧ st'.Repaired st.net.own := by
  cases nonempty_fintype P
  have hturn : ∀ st₁ : Processing P M, (st.RepairsTo st₁ ∧ ∀ p, st₁.Idle p) →
      (∀ p o, st₁.net.know o o ≤ st₁.net.know p o) ∨
        ∃ st₂, processing.LeadsTo (fun _ a => a.Repairs) st₁ st₂ ∧
          (st.RepairsTo st₂ ∧ ∀ p, st₂.Idle p) ∧ st₂.net.missing < st₁.net.missing := by
    rintro st₁ ⟨hrepairs, hidle⟩
    by_cases hall : ∀ p o, st₁.net.know o o ≤ st₁.net.know p o
    · exact .inl hall
    · right
      push Not at hall
      obtain ⟨p, o, hlt⟩ := hall
      obtain ⟨h₁, hgrows⟩ := hrepairs.keeps h
      obtain ⟨st₂, hrepairs₂, q, o', hknow⟩ := exists_progress h₁
        (hconnected.mono (Network.topology_le hgrows.neighbours))
        (fun p => hgrows.run p (hrun p)) hidle hlt
      obtain ⟨st₃, hrepairs₃, hidle₃⟩ := st₂.exists_all_idle
      obtain ⟨h₂, -⟩ := hrepairs₂.keeps h₁
      obtain ⟨h₃, hgrows₃⟩ := (hrepairs₂.trans hrepairs₃).keeps h₁
      have hmore := hknow.trans_le ((hrepairs₃.keeps h₂).2.know_le q o')
      refine ⟨st₃, hrepairs₂.trans hrepairs₃,
        ⟨hrepairs.trans (hrepairs₂.trans hrepairs₃), hidle₃⟩, ?_⟩
      exact hgrows₃.missing_lt h₁.sound h₃.sound h₃.genuine hmore
  obtain ⟨st₁, hrepairs₁, hidle₁⟩ := st.exists_all_idle
  obtain ⟨st', -, ⟨hrepairs, hidle⟩, hall⟩ := TransitionSystem.exists_leadsTo_of_variant
    (fun st : Processing P M => st.net.missing) hturn ⟨hrepairs₁, hidle₁⟩
  obtain ⟨h', hgrows⟩ := hrepairs.keeps h
  refine ⟨st', hrepairs, hgrows.own, fun p => hgrows.run p (hrun p), hidle, ?_⟩
  intro p o
  rw [h'.genuine.rumors_eq h'.sound (hall p o), hgrows.own]

/-- A node which is not its own peer has run the handlers of all rumors of the others. -/
theorem Repaired.processed {created : P → List (Rumor P M)} (h : st'.Repaired created)
    (hrepairs : st.RepairsTo st') {p o : P}
    (hst : processing.ReachableUnder (fun _ a => a.Apart p) st) (ho : o ≠ p) :
    st'.processed p o = created o := by
  have hlead : processing.LeadsTo (fun _ a => a.Apart p) st st' :=
    TransitionSystem.LeadsTo.mono (fun _ _ ha => ha.apart p) hrepairs
  rw [delivered_of_reachable (hst.leadsTo hlead) o ho]
  exact h.rumors p o

end Processing

/-- In every run, whatever has been lost: as long as no node has stopped and the neighbours
connect them, the messages under way, the handlers and the tickers can bring the network to a
state where every node is at rest and has every rumor that was created.  A node which is not its
own peer has then run the handler of every rumor of the others, in their order and once. -/
theorem anti_entropy_repairs [Finite P] {st : Processing P M} (h : processing.Reachable st)
    (hrun : ∀ p, (st.net.nodes p).run = true)
    (hconnected : st.net.topology.Preconnected) :
    ∃ st', processing.LeadsTo (fun _ a => a.Repairs) st st' ∧ st'.Repaired st.net.own ∧
      ∀ p, processing.ReachableUnder (fun _ a => a.Apart p) st →
        ∀ o, o ≠ p → st'.processed p o = st.net.own o := by
  have hfaithful := Processing.faithful_of_reachable h
  obtain ⟨st', hrepairs, hrepaired⟩ := Processing.exists_repaired hfaithful hrun hconnected
  exact ⟨st', hrepairs, hrepaired, fun p hp o ho => hrepaired.processed hrepairs hp ho⟩

/-- Two nodes are connected if one is a neighbour of the other. -/
theorem preconnected_of_adj {G : SimpleGraph (Fin 2)} (hadj : G.Adj 0 1) : G.Preconnected := by
  intro p q
  match p, q with
  | 0, 0 => rfl
  | 0, 1 => exact hadj.reachable
  | 1, 0 => exact hadj.reachable.symm
  | 1, 1 => rfl

/-- The packet with the rumor of node 0 is lost. -/
theorem anti_entropy_repairs_of_loss :
    ∃ st st' : Processing (Fin 2) Unit, processing.Reachable st ∧ st.net.packets = [] ∧
      (st.net.nodes 1).rumorsHandler.rumors.get 0 = [] ∧
      processing.LeadsTo (fun _ a => a.Repairs) st st' ∧
      (st'.net.nodes 1).rumorsHandler.rumors.get 0 = [⟨0, 1, ()⟩] := by
  obtain ⟨st, hst, hnil, hstored, hrun, hneighbours, hown⟩ := TransitionSystem.exists_of_replay
    (S := processing (P := Fin 2) (M := Unit)) (fun _ _ => True)
    [.step (.addPeer 0 [1]), .step (.broadcast 0 () [1]), .step (.drop 0)]
    (fun st => st.net.packets.isEmpty = true ∧
      (st.net.nodes 1).rumorsHandler.rumors.get 0 = [] ∧
      (∀ p, (st.net.nodes p).run = true) ∧ 1 ∈ (st.net.nodes 0).routingTable.neighbours ∧
      st.net.own 0 = [⟨0, 1, ()⟩]) (by decide +kernel)
  have hadj : st.net.topology.Adj 0 1 :=
    (SimpleGraph.fromRel_adj _ _ _).mpr ⟨by decide, .inl hneighbours⟩
  obtain ⟨st', hlead, hrepaired, -⟩ :=
    anti_entropy_repairs hst hrun (preconnected_of_adj hadj)
  refine ⟨st, st', hst, List.isEmpty_iff.mp hnil, hstored, hlead, ?_⟩
  rw [hrepaired.rumors 1 0, hown]

end Minotor.Gossip
