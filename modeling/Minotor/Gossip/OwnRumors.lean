import Minotor.Gossip.Addresses
import Mathlib.Data.List.Perm.Basic

/-!
# The own rumors of a node

The runs of the handlers of embedded messages, from `Broadcast`,
`processRumorsMsgLocally` and `ExecRumorsMessage`, next to a network of
gossiping nodes: a call of `Broadcast` processes its rumor locally after it
has sent it, and the listening routine does the same with a rumors message
from the node itself.  The ticker of `antiEntropyMechanism` is added as well.
-/

namespace Minotor.Gossip

variable {P M : Type*}

/-- Where the handler of an embedded message runs: in a call of `Broadcast`, or
in the listening routine. -/
inductive Via where
  | broadcast
  | received
deriving DecidableEq

/-- The rumor whose handler runs in `processRumors`. -/
def Node.handling (n : Node P M) : List (Rumor P M) :=
  match n.listener with
  | some ⟨_, _, .handling m _⟩ => [m]
  | _ => []

/-- The rumors which `ExecRumorsMessage` processes locally. -/
def Packet.ownRumors [DecidableEq P] (pkt : Packet P M) : List (Rumor P M) :=
  match pkt.msg with
  | .rumors rumors => if pkt.header.source = pkt.header.destination then rumors else []
  | _ => []

/-- A network with the handlers of embedded messages. -/
structure Processing (P M : Type*) where
  net : Network P M
  /-- the rumors of the calls of `Broadcast` before their local processing -/
  broadcasts : P → List (Rumor P M)
  /-- the rumors which the listening routine has still to process locally -/
  locals : P → List (Rumor P M)
  executed : P → List (Rumor P M × Via)

inductive ProcessingAction (P M : Type*) where
  | step (a : Action P M)
  | antiEntropy (p : P) (shuffle : List P)
  /-- `processRumor` in a call of `Broadcast` -/
  | runBroadcast (p : P) (i : ℕ)
  /-- `processRumor` in `processRumorsMsgLocally` of the listening routine -/
  | runLocal (p : P) (err : Bool)

variable [DecidableEq P]

/-- A turn of the loop of `antiEntropyMechanism` with a neighbour. -/
def Network.antiEntropy (st : Network P M) (p : P) (shuffle : List P) :
    Option (Network P M) :=
  match shuffle with
  | [] => none
  | dest :: _ =>
      if (st.nodes p).Shuffles shuffle then
        some (st.put p (st.nodes p)
          [⟨⟨st.nextID, p, p, dest⟩, .status (st.nodes p).rumorsHandler.getSequenceMap⟩])
      else none

namespace Action

/-- The rumor which `q` creates. -/
def created (st : Network P M) (q : P) : Action P M → List (Rumor P M)
  | .broadcast p msg _ =>
      if p = q then ((st.nodes q).rumorsHandler.createRumorsMsg q msg).1 else []
  | _ => []

/-- The rumors which arrive at `q` from `q`. -/
def arrived (st : Network P M) (q : P) : Action P M → List (Rumor P M)
  | .deliver i _ =>
      match st.packets[i]? with
      | some pkt => if pkt.header.destination = q then pkt.ownRumors else []
      | none => []
  | _ => []

/-- The rumor which `q` accepts in a step to `st'`. -/
def accepted (st st' : Network P M) (q : P) : Action P M → List (Rumor P M)
  | .deliver i _ =>
      match st.packets[i]? with
      | some pkt => if pkt.header.destination = q then (st'.nodes q).handling else []
      | none => []
  | .handlerReturns p _ => if p = q then (st'.nodes q).handling else []
  | _ => []

end Action

namespace Processing

/-- The listening routine does not process rumors locally when a packet
arrives. -/
def ready (st : Processing P M) : Action P M → Bool
  | .deliver i _ =>
      match st.net.packets[i]? with
      | some pkt => (st.locals pkt.header.destination).isEmpty
      | none => true
  | _ => true

/-- The handler of `r` runs at `p`. -/
def execute (st : Processing P M) (p : P) (r : Rumor P M) (via : Via) :
    Processing P M :=
  { st with executed := Function.update st.executed p (st.executed p ++ [(r, via)]) }

def next (st : Processing P M) : ProcessingAction P M → Option (Processing P M)
  | .step a =>
      if st.ready a then
        (st.net.next a).map fun net =>
          { net := net
            broadcasts := fun q => st.broadcasts q ++ a.created st.net q
            locals := fun q => st.locals q ++ a.arrived st.net q
            executed := fun q => st.executed q ++
              (a.accepted st.net net q).map fun r => (r, .received) }
      else none
  | .antiEntropy p shuffle =>
      (st.net.antiEntropy p shuffle).map fun net => { st with net := net }
  | .runBroadcast p i =>
      (st.broadcasts p)[i]?.map fun r =>
        { st.execute p r .broadcast with
          broadcasts := Function.update st.broadcasts p ((st.broadcasts p).eraseIdx i) }
  | .runLocal p err =>
      match st.locals p with
      | [] => none
      | r :: rest =>
          -- an error ends the listening routine
          if err then
            some { st.execute p r .received with
              net := st.net.put p { st.net.nodes p with run := false } []
              locals := Function.update st.locals p [] }
          else
            some { st.execute p r .received with
              locals := Function.update st.locals p rest }

end Processing

/-- The transition system of new nodes with the handlers of their messages. -/
def processing : TransitionSystem (Processing P M) (ProcessingAction P M) where
  init := ⟨.initial, fun _ => [], fun _ => [], fun _ => []⟩
  next := Processing.next

/-- `AddPeer` of `p` does not get `p`, and the rumors of `p` have no embedded
status message. -/
def ProcessingAction.Apart (p : P) : ProcessingAction P M → Prop
  | .step a => Network.Apart p a
  | _ => True

/-! ## The own rumors in the table -/

namespace Node

variable {n n' : Node P M} {id : ℕ} {sent : List (Packet P M)} {q : P}

omit [DecidableEq P] in
theorem rumorsHandler_createChannel {i : ℕ} (hn : n.createChannel i = some n') :
    n'.rumorsHandler = n.rumorsHandler := by
  obtain ⟨w, _, rfl⟩ := createChannel_eq hn
  rfl

theorem rumorsHandler_waitAck {i : ℕ} (hn : n.waitAck i = some (n', sent)) :
    n'.rumorsHandler = n.rumorsHandler := by
  obtain ⟨w, _, ⟨rfl, -⟩ | ⟨dest, pkt, _, _, _, rfl, -⟩⟩ := waitAck_cases hn
  · rfl
  · rfl

theorem rumorsHandler_finish {shuffle : List P}
    (hn : n.finish q id shuffle = some (n', sent)) : n'.rumorsHandler = n.rumorsHandler := by
  obtain ⟨header, rumors, discovered, _, rfl, -⟩ := finish_cases hn
  rfl

theorem rumorsHandler_handleStatus (n : Node P M) (id : ℕ) (q source : P)
    (status : SequenceMap P) (c : Choices P) :
    (n.handleStatus q id source status c).1.rumorsHandler = n.rumorsHandler := by
  unfold Node.handleStatus
  split
  · rfl
  · rfl

/-- Accepting rumors of others does not change the own rumors. -/
theorem own_processRumors (header : Header P) (rumors : List (Rumor P M))
    {rest : List (Rumor P M)} (processedRumor : Bool)
    (hown : ∀ m ∈ rest, n.rumorsHandler.IsNext m → m.origin ≠ q) :
    (n.processRumors header rumors processedRumor rest).rumorsHandler.rumors.get q =
      n.rumorsHandler.rumors.get q := by
  unfold Node.processRumors
  rcases n.rumorsHandler.processRumors_cases processedRumor rest with
    ⟨skipped, m, rest', rfl, _, hnext, heq⟩ | ⟨_, heq⟩
  · have hm : m.origin ≠ q := hown m (List.mem_append_right _ List.mem_cons_self) hnext
    rw [heq]
    change (n.rumorsHandler.put m).rumors.get q = _
    rw [RumorsHandler.put_rumors, if_neg (Ne.symm hm)]
  · rw [heq]

theorem own_receive {pkt : Packet P M} (id : ℕ) (c : Choices P)
    (hown : ∀ rumors, pkt.msg = .rumors rumors →
      ∀ m ∈ rumors, n.rumorsHandler.IsNext m → m.origin ≠ q) :
    (n.receive q id pkt c).1.rumorsHandler.rumors.get q =
      n.rumorsHandler.rumors.get q := by
  unfold Node.receive
  split
  · next rumors hmsg =>
    split
    · rfl
    · exact own_processRumors pkt.header rumors false (hown rumors hmsg)
  · rw [rumorsHandler_handleStatus]
  · rw [rumorsHandler_handleStatus]

theorem own_handlerReturns {err : Bool} (hn : n.handlerReturns err = some n')
    (hown : ∀ l m rest, n.listener = some l → l.pc = .handling m rest →
      ∀ m' ∈ rest, n.rumorsHandler.IsNext m' → m'.origin ≠ q) :
    n'.rumorsHandler.rumors.get q = n.rumorsHandler.rumors.get q := by
  obtain ⟨header, rumors, m, rest, hlistener, ⟨-, rfl⟩ | ⟨-, rfl⟩⟩ := handlerReturns_cases hn
  · rfl
  · exact own_processRumors header rumors true (hown _ _ _ hlistener rfl)

end Node

namespace Network

variable {st st' : Network P M} {p q : P} {n : Node P M}

/-- The rumors of `p` itself in its table. -/
def own (st : Network P M) (p : P) : List (Rumor P M) :=
  (st.nodes p).rumorsHandler.rumors.get p

theorem own_of_update (hnodes : st'.nodes = Function.update st.nodes q n)
    (hn : n.rumorsHandler.rumors.get q = st.own q) (p : P) : st'.own p = st.own p := by
  unfold own
  rw [hnodes]
  by_cases hp : p = q
  · rw [hp, Function.update_self]
    exact hn
  · rw [Function.update_of_ne hp]

/-- The own rumors of a node are those which it creates. -/
theorem own_next (hsound : st.Sound) (hlearned : st.Learned) {a : Action P M}
    (hnext : st.next a = some st') (p : P) : st'.own p = st.own p ++ a.created st p := by
  have hkeeps : st'.own p = st.own p → st'.own p = st.own p ++ [] :=
    fun h => h.trans (List.append_nil _).symm
  cases step_of_next hnext with
  | broadcast q msg shuffle =>
      have hrH : ((st.nodes q).broadcast q st.nextID msg shuffle).1.rumorsHandler =
          ((st.nodes q).rumorsHandler.createRumorsMsg q msg).2 := by
        unfold Node.broadcast
        simp only
        split
        · rfl
        · rfl
      change (Function.update st.nodes q _ p).rumorsHandler.rumors.get p = _
      by_cases hp : q = p
      · subst hp
        rw [Function.update_self, hrH, RumorsHandler.createRumorsMsg_snd,
          RumorsHandler.put_rumors, if_pos rfl, Action.created, if_pos rfl]
        rfl
      · rw [Function.update_of_ne (Ne.symm hp), Action.created, if_neg hp, List.append_nil]
        rfl
  | addPeer q addr => exact hkeeps (own_of_update rfl (by rfl) p)
  | createChannel q i n hn =>
      exact hkeeps (own_of_update rfl (by rw [Node.rumorsHandler_createChannel hn]; rfl) p)
  | waitAck q i n sent hn =>
      exact hkeeps (own_of_update rfl (by rw [Node.rumorsHandler_waitAck hn]; rfl) p)
  | deliver i c pkt hpkt =>
      have hmem : pkt ∈ st.packets := List.mem_of_getElem? hpkt
      have hreceive := Node.own_receive st.nextID c
        (origin_ne_of_packet hsound hlearned hmem pkt.header.destination)
      exact hkeeps (own_of_update rfl hreceive p)
  | handlerReturns q err n hn =>
      have hown := origin_ne_of_listener hsound hlearned q
      exact hkeeps (own_of_update rfl (Node.own_handlerReturns hn hown) p)
  | finish q shuffle n sent _ hn =>
      exact hkeeps (own_of_update rfl (by rw [Node.rumorsHandler_finish hn]; rfl) p)
  | execStatus q => exact hkeeps (own_of_update rfl rfl p)
  | drop i => exact hkeeps rfl
  | stop q => exact hkeeps (own_of_update rfl (by rfl) p)
  | closeAcks q => exact hkeeps (own_of_update rfl (by rfl) p)

/-- A rumor which a node accepts in a step is not its own. -/
theorem Avoids.accepted (h : st'.Avoids p) {a : Action P M} :
    ∀ r ∈ a.accepted st st' p, r.origin ≠ p := by
  have hhandling : ∀ r ∈ (st'.nodes p).handling, r.origin ≠ p := by
    intro r hr
    unfold Node.handling at hr
    split at hr
    · next header rumors m rest hlistener =>
      obtain rfl := List.mem_singleton.mp hr
      exact (h.nodes p).origin _ _ _ hlistener rfl
    · exact absurd hr List.not_mem_nil
  intro r hr
  unfold Action.accepted at hr
  split at hr
  · split at hr
    · split at hr
      · exact hhandling r hr
      · exact absurd hr List.not_mem_nil
    · exact absurd hr List.not_mem_nil
  · split at hr
    · exact hhandling r hr
    · exact absurd hr List.not_mem_nil
  · exact absurd hr List.not_mem_nil

/-- No rumors message from the node itself arrives. -/
theorem Avoids.arrived (h : st.Avoids p) (a : Action P M) : a.arrived st p = [] := by
  unfold Action.arrived
  split
  · split
    · next pkt hpkt =>
      split
      · next hdest =>
        unfold Packet.ownRumors
        split
        · rw [if_neg]
          intro hsource
          exact h.packets pkt (List.mem_of_getElem? hpkt) (.inl (hsource.trans hdest)) hdest
        · rfl
      · rfl
    · rfl
  · rfl

/-- A node sends packets without rumors. -/
theorem Sound.send (h : st.Sound) {sent : List (Packet P M)}
    (hsent : ∀ pkt ∈ sent, ∀ rumors, pkt.msg ≠ .rumors rumors) :
    (st.put q (st.nodes q) sent).Sound := by
  have hnodes : (st.put q (st.nodes q) sent).nodes = st.nodes :=
    Function.update_eq_self q st.nodes
  have hknow : (st.put q (st.nodes q) sent).know = st.know := by
    unfold Network.know
    rw [hnodes]
  constructor
  · intro r
    rw [hknow, hnodes]
    exact h.nodes r
  · intro pkt hpkt
    rw [hknow]
    rcases List.mem_append.mp hpkt with hpkt | hpkt
    · exact h.packets pkt hpkt
    · exact fun rumors hmsg => absurd hmsg (hsent pkt hpkt rumors)

/-- The ticker of the anti-entropy mechanism sends the status of a node. -/
theorem antiEntropy_eq {shuffle : List P} (h : st.antiEntropy p shuffle = some st') :
    (st.nodes p).Shuffles shuffle ∧ ∃ dest ∈ shuffle, ∃ status,
      st' = st.put p (st.nodes p) [⟨⟨st.nextID, p, p, dest⟩, .status status⟩] := by
  unfold Network.antiEntropy at h
  split at h
  · cases h
  · next dest rest =>
    split at h
    · next hshuffle =>
      exact ⟨hshuffle, dest, List.mem_cons_self, _, (Option.some.inj h).symm⟩
    · cases h

/-- The ticker of the anti-entropy mechanism changes no node. -/
theorem nodes_antiEntropy {shuffle : List P} (h : st.antiEntropy p shuffle = some st') :
    st'.nodes = st.nodes := by
  obtain ⟨-, dest, -, status, rfl⟩ := antiEntropy_eq h
  exact Function.update_eq_self p _

end Network

/-! ## Runs -/

namespace Processing

variable {st st' : Processing P M} {p : P}

/-- The own rumors of `p` in its table are those which calls of `Broadcast`
have processed locally or are about to process, each once, and no packet from
`p` goes to `p`. -/
structure Once (p : P) (st : Processing P M) : Prop where
  sound : st.net.Sound
  learned : st.net.Learned
  avoids : st.net.Avoids p
  locals : st.locals p = []
  origin : ∀ r ∈ st.broadcasts p, r.origin = p
  once : (((st.executed p).filter fun e => e.1.origin = p) ++
    (st.broadcasts p).map fun r => (r, Via.broadcast)).Perm
      ((st.net.own p).map fun r => (r, .broadcast))

/-- A step which does not touch what `p` executes and creates. -/
theorem Once.of_same (h : st.Once p) (hsound : st'.net.Sound) (hlearned : st'.net.Learned)
    (havoids : st'.net.Avoids p) (hlocals : st'.locals p = st.locals p)
    (hbroadcasts : st'.broadcasts p = st.broadcasts p)
    (hexecuted : st'.executed p = st.executed p) (hown : st'.net.own p = st.net.own p) :
    st'.Once p where
  sound := hsound
  learned := hlearned
  avoids := havoids
  locals := hlocals.trans h.locals
  origin r hr := h.origin r (hbroadcasts ▸ hr)
  once := by
    rw [hexecuted, hbroadcasts, hown]
    exact h.once

theorem Once.step (h : st.Once p) {a : Action P M} (ha : Network.Apart p a)
    (hnext : st.next (.step a) = some st') : st'.Once p := by
  simp only [next] at hnext
  split at hnext
  · obtain ⟨net, hnet, rfl⟩ := Option.map_eq_some_iff.mp hnext
    have havoids : net.Avoids p := h.avoids.step h.sound h.learned ha hnet
    have haccepted : ((a.accepted st.net net p).map fun r => (r, Via.received)).filter
        (fun e => e.1.origin = p) = [] := by
      rw [List.filter_eq_nil_iff]
      intro e he
      obtain ⟨r, hr, rfl⟩ := List.mem_map.mp he
      exact fun horigin => havoids.accepted r hr (of_decide_eq_true horigin)
    constructor
    · exact h.sound.step hnet
    · exact h.learned.step h.sound hnet
    · exact havoids
    · change st.locals p ++ a.arrived st.net p = []
      rw [h.locals, h.avoids.arrived]
      rfl
    · intro r hr
      rcases List.mem_append.mp hr with hr | hr
      · exact h.origin r hr
      · unfold Action.created at hr
        split at hr
        · split at hr
          · obtain rfl := List.mem_singleton.mp hr
            rfl
          · exact absurd hr List.not_mem_nil
        · exact absurd hr List.not_mem_nil
    · -- the new rumor waits in its call of `Broadcast`
      rw [List.filter_append, haccepted, List.append_nil, List.map_append,
        ← List.append_assoc, Network.own_next h.sound h.learned hnet, List.map_append]
      exact h.once.append_right _
  · cases hnext

theorem Once.antiEntropy (h : st.Once p) {q : P} {shuffle : List P}
    (hnext : st.next (.antiEntropy q shuffle) = some st') : st'.Once p := by
  obtain ⟨net, hnet, rfl⟩ := Option.map_eq_some_iff.mp hnext
  obtain ⟨hshuffle, dest, hdest, status, rfl⟩ := Network.antiEntropy_eq hnet
  have hpkt : Header.Avoids p ⟨st.net.nextID, q, q, dest⟩ := by
    refine Node.avoids_of_own (q := q) rfl rfl ?_
    rintro hq rfl
    exact (h.avoids.nodes q).not_mem_shuffle hshuffle hq hdest
  refine h.of_same (h.sound.send ?_) ?_ (h.avoids.put (h.avoids.nodes q) ?_) rfl rfl rfl ?_
  · rintro pkt hmem rumors
    obtain rfl := List.mem_singleton.mp hmem
    rintro ⟨⟩
  · -- no peer is added
    exact h.learned.addPeer (n := st.net.nodes q) rfl [] rfl rfl
  · intro pkt hmem
    obtain rfl := List.mem_singleton.mp hmem
    exact hpkt
  · exact Network.own_of_update (n := st.net.nodes q) rfl rfl p

theorem Once.runBroadcast (h : st.Once p) {q : P} {i : ℕ}
    (hnext : st.next (.runBroadcast q i) = some st') : st'.Once p := by
  obtain ⟨r, hr, rfl⟩ := Option.map_eq_some_iff.mp hnext
  by_cases hq : q = p
  · subst hq
    have horigin : r.origin = q := h.origin r (List.mem_of_getElem? hr)
    constructor
    · exact h.sound
    · exact h.learned
    · exact h.avoids
    · exact h.locals
    · intro r' hr'
      simp only [Function.update_self] at hr'
      exact h.origin r' (List.mem_of_mem_eraseIdx hr')
    · -- the rumor moves from the calls of `Broadcast` to the executed ones
      have hperm : (r :: (st.broadcasts q).eraseIdx i).Perm (st.broadcasts q) := by
        obtain ⟨hlt, rfl⟩ := List.getElem?_eq_some_iff.mp hr
        exact List.getElem_cons_eraseIdx_perm hlt
      have hmoved := hperm.map fun r => (r, Via.broadcast)
      simp only [execute, Function.update_self, List.filter_append, List.filter_cons,
        List.filter_nil, horigin, decide_true, if_true, List.append_assoc]
      exact (hmoved.append_left _).trans h.once
  · have hp : p ≠ q := Ne.symm hq
    exact h.of_same h.sound h.learned h.avoids rfl (Function.update_of_ne hp _ _)
      (Function.update_of_ne hp _ _) rfl

theorem Once.runLocal (h : st.Once p) {q : P} {err : Bool}
    (hnext : st.next (.runLocal q err) = some st') : st'.Once p := by
  simp only [next] at hnext
  split at hnext
  · cases hnext
  · next r rest hlocals =>
    have hp : p ≠ q := by
      rintro rfl
      rw [h.locals] at hlocals
      cases hlocals
    split at hnext
    · obtain rfl := Option.some.inj hnext
      have hstop : st.net.next (.stop q) =
          some (st.net.put q { st.net.nodes q with run := false } []) := rfl
      have hapart : Network.Apart p (.stop q : Action P M) := trivial
      exact h.of_same (h.sound.step hstop) (h.learned.step h.sound hstop)
        (h.avoids.step h.sound h.learned hapart hstop) (Function.update_of_ne hp _ _) rfl
        (Function.update_of_ne hp _ _) (Network.own_of_update rfl (by rfl) p)
    · obtain rfl := Option.some.inj hnext
      exact h.of_same h.sound h.learned h.avoids (Function.update_of_ne hp _ _) rfl
        (Function.update_of_ne hp _ _) rfl

theorem once_of_reachable (h : processing.ReachableUnder (fun _ a => a.Apart p) st) :
    st.Once p := by
  apply h.invariant
  · exact
      { sound := Network.sound_initial
        learned := Network.learned_initial
        avoids := Network.avoids_initial p
        locals := rfl
        origin := fun r hr => absurd hr List.not_mem_nil
        once := List.Perm.nil }
  · intro st st' a _ hst ha hnext
    cases a with
    | step a => exact hst.step ha hnext
    | antiEntropy q shuffle => exact hst.antiEntropy hnext
    | runBroadcast q i => exact hst.runBroadcast hnext
    | runLocal q err => exact hst.runLocal hnext

end Processing

/-- If no `AddPeer` of `p` gets its own address and the rumors of `p` have no
embedded status message, then `p` sends none of its rumors to itself, and the
own rumors in its table are those which calls of `Broadcast` have processed
locally or are about to process, each once. -/
theorem own_rumors_once {p : P} {st : Processing P M}
    (h : processing.ReachableUnder (fun _ a => a.Apart p) st) :
    (∀ pkt ∈ st.net.packets, pkt.header.relayedBy = p →
      ∀ rumors, pkt.msg = .rumors rumors → (∃ r ∈ rumors, r.origin = p) →
        pkt.header.destination ≠ p) ∧
    (((st.executed p).filter fun e => e.1.origin = p) ++
      (st.broadcasts p).map fun r => (r, Via.broadcast)).Perm
        (((st.net.nodes p).rumorsHandler.rumors.get p).map fun r => (r, .broadcast)) := by
  have honce := Processing.once_of_reachable h
  refine ⟨?_, honce.once⟩
  intro pkt hpkt hrelay rumors _ _
  exact honce.avoids.packets pkt hpkt (.inr hrelay)

/-- Node 0 is added to its own peers.  Its rumor arrives at itself, and the
handler runs a second time. -/
theorem own_rumor_twice :
    ∃ st : Processing (Fin 2) Unit, processing.Reachable st ∧
      st.executed 0 = [(⟨0, 1, ()⟩, .broadcast), (⟨0, 1, ()⟩, .received)] := by
  exact TransitionSystem.exists_of_replay (S := processing (P := Fin 2) (M := Unit))
    (fun _ _ => True)
    [.step (.addPeer 0 [0]), .step (.broadcast 0 () [0]), .runBroadcast 0 0,
      .step (.deliver 0 ⟨[0], false, [0]⟩), .runLocal 0 false]
    (fun st => st.executed 0 = [(⟨0, 1, ()⟩, .broadcast), (⟨0, 1, ()⟩, .received)])
    (by decide +kernel)

/-- Steps with other peers and without embedded status messages. -/
def ProcessingAction.addsOthers : ProcessingAction (Fin 2) Unit → Bool
  | .step (.addPeer q addr) => q ∉ addr
  | .step (.execStatus _ _ _ _) => false
  | _ => true

theorem own_rumors_once_of_two :
    ∃ st : Processing (Fin 2) Unit,
      processing.ReachableUnder (fun _ a => a.Apart 0) st ∧
      st.executed 0 = [(⟨0, 1, ()⟩, .broadcast)] ∧
      (((st.executed 0).filter fun e => e.1.origin = 0) ++
        (st.broadcasts 0).map fun r => (r, Via.broadcast)).Perm
          (((st.net.nodes 0).rumorsHandler.rumors.get 0).map fun r => (r, .broadcast)) := by
  obtain ⟨st, hst, hexecuted⟩ := TransitionSystem.exists_of_replay
    (S := processing (P := Fin 2) (M := Unit)) (fun _ a => a.addsOthers = true)
    [.step (.addPeer 0 [1]), .step (.addPeer 1 [0]), .step (.broadcast 0 () [1]),
      .runBroadcast 0 0, .step (.deliver 0 ⟨[], false, [0]⟩),
      .step (.handlerReturns 1 false), .step (.finish 1 [0])]
    (fun st => st.executed 0 = [(⟨0, 1, ()⟩, .broadcast)]) (by decide +kernel)
  have hapart : ∀ (st : Processing (Fin 2) Unit) (a : ProcessingAction (Fin 2) Unit),
      a.addsOthers = true → a.Apart 0 := by
    intro st a ha
    unfold ProcessingAction.addsOthers at ha
    split at ha
    · rintro rfl
      exact of_decide_eq_true ha
    · cases ha
    · next haddPeer hexecStatus =>
      unfold ProcessingAction.Apart
      split
      · next a =>
        cases a with
        | addPeer q addr => exact absurd rfl (haddPeer q addr)
        | execStatus q source status c => exact absurd rfl (hexecStatus q source status c)
        | _ => trivial
      · trivial
  have hreach := hst.mono hapart
  exact ⟨st, hreach, hexecuted, (own_rumors_once hreach).2⟩

end Minotor.Gossip
