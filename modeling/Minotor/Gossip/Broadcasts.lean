import Minotor.Gossip.OwnRumors
import Minotor.Support.Entries

/-!
# What was broadcast

Rumors are not altered on their way: whatever a node stores, holds or sends of an origin is
what the origin has broadcast, and its stored rumors of an origin are the first ones which
the origin has broadcast.  The handlers of embedded messages run in the same order.
-/

namespace Minotor.Gossip

variable {P M : Type*}

/-- A packet with rumors which their origins have created. -/
def Packet.Genuine (own : P → List (Rumor P M)) (pkt : Packet P M) : Prop :=
  ∀ rumors, pkt.msg = .rumors rumors → ∀ r ∈ rumors, r ∈ own r.origin

/-- Every origin numbers its rumors from 1 on. -/
def Numbering (own : P → List (Rumor P M)) : Prop :=
  ∀ o i r, (own o)[i]? = some r → r.sequence = i + 1

variable [DecidableEq P]

/-- A node stores the first rumors of each origin, and sends and processes no others. -/
structure Node.Genuine (own : P → List (Rumor P M)) (n : Node P M) : Prop where
  stored : ∀ o, n.rumorsHandler.rumors.get o <+: own o
  waits : ∀ w ∈ n.waits, w.pkt.Genuine own
  listener : ∀ l, n.listener = some l → ∀ r ∈ l.rumors, r ∈ own r.origin

/-! ## Steps of a node -/

section

variable {own own' : P → List (Rumor P M)}

omit [DecidableEq P] in
theorem Packet.Genuine.mono {pkt : Packet P M} (h : pkt.Genuine own)
    (hle : ∀ o, own o <+: own' o) : pkt.Genuine own' :=
  fun rumors hmsg r hr => (hle r.origin).mem (h rumors hmsg r hr)

/-- Storing the next rumor of an origin. -/
theorem RumorsHandler.put_isPrefix {rH : RumorsHandler P M} {m : Rumor P M}
    (hstored : ∀ o, rH.rumors.get o <+: own o) (horder : rH.InOrder) (hown : Numbering own)
    (hm : m ∈ own m.origin) (hnext : rH.IsNext m) (o : P) : (rH.put m).rumors.get o <+: own o := by
  rw [RumorsHandler.put_rumors]
  split
  · next ho =>
      obtain ⟨i, hi⟩ := List.getElem?_of_mem hm
      have hsequence := hown _ _ _ hi
      have hlength : (rH.rumors.get m.origin).length = i := by
        rw [horder.length]
        exact Nat.succ.inj (hnext.symm.trans hsequence)
      rw [ho]
      apply prefix_concat_of_getElem? (hstored m.origin)
      rw [hlength]
      exact hi
  · exact hstored o

namespace Node.Genuine

variable {n n' : Node P M} {p : P} {id : ℕ} {sent : List (Packet P M)}

theorem mono (h : n.Genuine own) (hle : ∀ o, own o <+: own' o) : n.Genuine own' where
  stored o := (h.stored o).trans (hle o)
  waits w hw := (h.waits w hw).mono hle
  listener l hl r hr := (hle r.origin).mem (h.listener l hl r hr)

theorem createChannel {i : ℕ} (h : n.Genuine own) (hn : n.createChannel i = some n') :
    n'.Genuine own := by
  obtain ⟨w, hw, rfl⟩ := createChannel_eq hn
  exact { h with waits := forall_mem_set h.waits (h.waits w (List.mem_of_getElem? hw)) }

theorem waitAck {i : ℕ} (h : n.Genuine own) (hn : n.waitAck i = some (n', sent)) :
    n'.Genuine own ∧ ∀ pkt ∈ sent, pkt.Genuine own := by
  obtain ⟨w, hw, ⟨rfl, rfl⟩ | ⟨dest, pkt, -, -, rfl, rfl, rfl⟩⟩ := waitAck_cases hn
  · refine ⟨{ h with waits := ?_ }, fun pkt hpkt => absurd hpkt List.not_mem_nil⟩
    exact fun w hw => h.waits w (List.mem_of_mem_eraseIdx hw)
  · -- only the destination of the packet changes
    have hpkt : w.pkt.Genuine own := h.waits w (List.mem_of_getElem? hw)
    refine ⟨{ h with waits := forall_mem_set h.waits hpkt }, ?_⟩
    intro pkt' hpkt'
    obtain rfl := List.mem_singleton.mp hpkt'
    exact hpkt

/-- A new rumor is the last one which the node has broadcast. -/
theorem broadcast {msg : M} (h : n.Genuine own) (id : ℕ) (shuffle : List P)
    (hle : ∀ o, own o <+: own' o)
    (hown : own' p = n.rumorsHandler.rumors.get p ++ (n.rumorsHandler.createRumorsMsg p msg).1) :
    (n.broadcast p id msg shuffle).1.Genuine own' ∧
      ∀ pkt ∈ (n.broadcast p id msg shuffle).2, pkt.Genuine own' := by
  have hstored : ∀ o, (n.rumorsHandler.createRumorsMsg p msg).2.rumors.get o <+: own' o := by
    intro o
    rw [RumorsHandler.createRumorsMsg_snd, RumorsHandler.put_rumors]
    split
    · next ho =>
        rw [ho, hown]
        exact List.prefix_rfl
    · exact (h.stored o).trans (hle o)
  have hrumors : ∀ r ∈ (n.rumorsHandler.createRumorsMsg p msg).1, r ∈ own' r.origin := by
    intro r hr
    have horigin : r.origin = p := by
      obtain rfl := List.mem_singleton.mp hr
      rfl
    rw [horigin, hown]
    exact List.mem_append_right _ hr
  have hmono := h.mono hle
  unfold Node.broadcast
  simp only
  split
  · exact ⟨{ hmono with stored := hstored }, fun pkt hpkt => absurd hpkt List.not_mem_nil⟩
  · next dest _ =>
      have hpkt : Packet.Genuine own' ⟨⟨id, p, p, dest⟩, .rumors
          (n.rumorsHandler.createRumorsMsg p msg).1⟩ := by
        intro rumors hmsg
        cases hmsg
        exact hrumors
      refine ⟨{ hmono with stored := hstored, waits := forall_mem_concat hmono.waits hpkt }, ?_⟩
      intro pkt hmem
      obtain rfl := List.mem_singleton.mp hmem
      exact hpkt

/-- A section of `processRumors` stores at most the next rumor of its origin. -/
theorem processRumors (h : n.Genuine own) (horder : n.rumorsHandler.InOrder)
    (hown : Numbering own) (header : Header P) {rumors rest : List (Rumor P M)}
    (processedRumor : Bool) (hrumors : ∀ r ∈ rumors, r ∈ own r.origin) (hrest : rest ⊆ rumors) :
    (n.processRumors header rumors processedRumor rest).Genuine own := by
  unfold Node.processRumors
  rcases n.rumorsHandler.processRumors_cases processedRumor rest with
    ⟨skipped, m, rest', rfl, -, hnext, heq⟩ | ⟨-, heq⟩
  · rw [heq]
    have hm : m ∈ own m.origin :=
      hrumors m (hrest (List.mem_append_right _ List.mem_cons_self))
    refine ⟨RumorsHandler.put_isPrefix h.stored horder hown hm hnext, h.waits, ?_⟩
    rintro l ⟨⟩
    exact hrumors
  · rw [heq]
    refine ⟨h.stored, h.waits, ?_⟩
    rintro l ⟨⟩
    exact hrumors

/-- An answer to a status message has stored rumors. -/
theorem execStatusMessage {source : P} {status : SequenceMap P} {c : Choices P}
    (h : n.Genuine own) (horder : n.rumorsHandler.InOrder)
    (hsent : n.execStatusMessage p id source status c = some sent) :
    ∀ pkt ∈ sent, pkt.Genuine own := by
  obtain ⟨missing, hmissing, hcases⟩ := mem_execStatusMessage hsent
  intro pkt hpkt rumors hmsg r hr
  rcases hcases pkt hpkt with rfl | ⟨-, rfl⟩ | ⟨dest, -, rfl⟩
  · cases hmsg
  · cases hmsg
    rcases horder.getRemoteMissingRumors_cases hmissing with ⟨o, -, rfl⟩ | ⟨rfl, -⟩
    · have hmem := List.mem_of_mem_drop hr
      rw [(horder.mem hmem).1]
      exact (h.stored o).mem hmem
    · exact absurd hr List.not_mem_nil
  · cases hmsg

theorem handleStatus {source : P} {status : SequenceMap P} {c : Choices P}
    (h : n.Genuine own) (horder : n.rumorsHandler.InOrder) :
    (n.handleStatus p id source status c).1.Genuine own ∧
      ∀ pkt ∈ (n.handleStatus p id source status c).2, pkt.Genuine own := by
  unfold Node.handleStatus
  split
  · exact ⟨⟨h.stored, h.waits, h.listener⟩, fun pkt hpkt => absurd hpkt List.not_mem_nil⟩
  · next sent hsent => exact ⟨h, h.execStatusMessage horder hsent⟩

theorem receive {pkt : Packet P M} (h : n.Genuine own) (p : P) (id : ℕ) (c : Choices P)
    (horder : n.rumorsHandler.InOrder) (hown : Numbering own) (hpkt : pkt.Genuine own) :
    (n.receive p id pkt c).1.Genuine own ∧
      ∀ pkt' ∈ (n.receive p id pkt c).2, pkt'.Genuine own := by
  unfold Node.receive
  split
  · next rumors hmsg =>
      have hnil : ∀ pkt' ∈ ([] : List (Packet P M)), pkt'.Genuine own :=
        fun pkt' hpkt' => absurd hpkt' List.not_mem_nil
      split
      · exact ⟨h, hnil⟩
      · exact ⟨h.processRumors horder hown pkt.header false (hpkt rumors hmsg)
          (List.Subset.refl _), hnil⟩
  · exact h.handleStatus horder
  · exact handleStatus ⟨h.stored, h.waits, h.listener⟩ horder

theorem handlerReturns {know : P → P → ℕ} {err : Bool} (h : n.Genuine own)
    (hsound : n.Sound know) (hown : Numbering own) (hn : n.handlerReturns err = some n') :
    n'.Genuine own := by
  obtain ⟨header, rumors, m, rest, hlistener, ⟨-, rfl⟩ | ⟨-, rfl⟩⟩ := handlerReturns_cases hn
  · refine ⟨h.stored, h.waits, ?_⟩
    rintro l ⟨⟩
  · obtain ⟨-, -, pre, hsplit⟩ := hsound.listener _ hlistener
    apply h.processRumors hsound.inOrder hown header true (h.listener _ hlistener)
    change rest ⊆ rumors
    rw [show rumors = pre ++ m :: rest from hsplit]
    exact fun r hr => List.mem_append_right _ (List.mem_cons_of_mem m hr)

theorem finish {shuffle : List P} (h : n.Genuine own)
    (hn : n.finish p id shuffle = some (n', sent)) :
    n'.Genuine own ∧ ∀ pkt ∈ sent, pkt.Genuine own := by
  obtain ⟨header, rumors, discovered, hlistener, rfl, -, hcases⟩ := finish_cases hn
  refine ⟨⟨h.stored, h.waits, ?_⟩, ?_⟩
  · rintro l ⟨⟩
  · intro pkt hpkt rumors' hmsg
    rcases hcases pkt hpkt with rfl | ⟨dest, -, -, rfl⟩
    · cases hmsg
    · cases hmsg
      exact h.listener _ hlistener

end Node.Genuine

end

/-! ## Steps of a network -/

namespace Network

variable {st st' : Network P M} {a : Action P M}

/-- All rumors in a network are those which their origins have created. -/
structure Genuine (st : Network P M) : Prop where
  nodes : ∀ p, (st.nodes p).Genuine st.own
  packets : ∀ pkt ∈ st.packets, pkt.Genuine st.own

theorem Sound.numbering (h : st.Sound) : Numbering st.own :=
  fun o _ _ hr => ((h.nodes o).inOrder.getElem? hr).2

/-- One node changes and sends packets, and the broadcasts become more. -/
theorem Genuine.of_update (h : st.Genuine) {p : P} {n : Node P M}
    (hnodes : st'.nodes = Function.update st.nodes p n) (hle : ∀ o, st.own o <+: st'.own o)
    (hn : n.Genuine st'.own)
    (hpackets : ∀ pkt ∈ st'.packets, pkt ∈ st.packets ∨ pkt.Genuine st'.own) : st'.Genuine where
  nodes q := by
    rw [hnodes]
    by_cases hq : q = p
    · rw [hq, Function.update_self]
      exact hn
    · rw [Function.update_of_ne hq]
      exact (h.nodes q).mono hle
  packets pkt hpkt := (hpackets pkt hpkt).elim (fun hold => (h.packets pkt hold).mono hle) id

theorem Genuine.put (h : st.Genuine) {p : P} {n : Node P M} {sent : List (Packet P M)}
    (hown : (st.put p n sent).own = st.own) (hn : n.Genuine st.own)
    (hsent : ∀ pkt ∈ sent, pkt.Genuine st.own) : (st.put p n sent).Genuine := by
  rw [← hown] at hn hsent
  apply h.of_update rfl (fun o => hown ▸ List.prefix_rfl) hn
  intro pkt hpkt
  exact (List.mem_append.mp hpkt).imp_right (hsent pkt)

/-- What is in a network stays genuine. -/
theorem Genuine.step (h : st.Genuine) (hsound : st.Sound) (hlearned : st.Learned)
    (hnext : st.next a = some st') : st'.Genuine := by
  have hnumbering := hsound.numbering
  have hgrows := own_next hsound hlearned hnext
  have hle : ∀ o, st.own o <+: st'.own o := fun o => ⟨_, (hgrows o).symm⟩
  have hkeeps : (∀ p, a.created st p = []) → st'.own = st.own := by
    intro hnil
    funext p
    rw [hgrows p, hnil p, List.append_nil]
  have hnil : ∀ pkt ∈ ([] : List (Packet P M)), pkt.Genuine st.own :=
    fun pkt hpkt => absurd hpkt List.not_mem_nil
  cases step_of_next hnext with
  | broadcast p msg shuffle =>
      have hown := hgrows p
      rw [Action.created, if_pos rfl] at hown
      obtain ⟨hn, hsent⟩ := (h.nodes p).broadcast st.nextID shuffle hle hown
      apply h.of_update rfl hle hn
      intro pkt hpkt
      exact (List.mem_append.mp hpkt).imp_right (hsent pkt)
  | addPeer p addr =>
      have hn := h.nodes p
      exact h.put (hkeeps fun _ => rfl) ⟨hn.stored, hn.waits, hn.listener⟩ hnil
  | createChannel p i n hn =>
      exact h.put (hkeeps fun _ => rfl) ((h.nodes p).createChannel hn) hnil
  | waitAck p i n sent hn =>
      obtain ⟨hn, hsent⟩ := (h.nodes p).waitAck hn
      exact h.put (hkeeps fun _ => rfl) hn hsent
  | deliver i c pkt hpkt =>
      obtain ⟨hn, hsent⟩ := (h.nodes pkt.header.destination).receive
        pkt.header.destination st.nextID c
        (hsound.nodes _).inOrder hnumbering (h.packets pkt (List.mem_of_getElem? hpkt))
      have hown := hkeeps fun _ => rfl
      rw [← hown] at hn hsent
      apply h.of_update rfl hle hn
      intro pkt' hpkt'
      exact (List.mem_append.mp hpkt').imp List.mem_of_mem_eraseIdx (hsent pkt')
  | handlerReturns p err n hn =>
      exact h.put (hkeeps fun _ => rfl)
        ((h.nodes p).handlerReturns (hsound.nodes p) hnumbering hn) hnil
  | finish p shuffle n sent _ hn =>
      obtain ⟨hn, hsent⟩ := (h.nodes p).finish hn
      exact h.put (hkeeps fun _ => rfl) hn hsent
  | execStatus p source status c sent _ hsent =>
      exact h.put (hkeeps fun _ => rfl) (h.nodes p)
        ((h.nodes p).execStatusMessage (hsound.nodes p).inOrder hsent)
  | drop i =>
      exact ⟨h.nodes, fun pkt hpkt => h.packets pkt (List.mem_of_mem_eraseIdx hpkt)⟩
  | stop p =>
      have hn := h.nodes p
      exact h.put (hkeeps fun _ => rfl) ⟨hn.stored, hn.waits, hn.listener⟩ hnil
  | closeAcks p =>
      have hn := h.nodes p
      exact h.put (hkeeps fun _ => rfl) ⟨hn.stored, hn.waits, hn.listener⟩ hnil

theorem genuine_initial : (initial : Network P M).Genuine where
  nodes _ :=
    { stored := fun _ => List.nil_prefix
      waits := fun _ hw => absurd hw List.not_mem_nil
      listener := by rintro l ⟨⟩ }
  packets _ hpkt := absurd hpkt List.not_mem_nil

end Network

/-! ## What is stored is processed -/

namespace Node

variable {n n' : Node P M} {p : P} {id : ℕ}

theorem rumorsHandler_broadcast (n : Node P M) (p : P) (id : ℕ) (msg : M) (shuffle : List P) :
    (n.broadcast p id msg shuffle).1.rumorsHandler =
      (n.rumorsHandler.createRumorsMsg p msg).2 := by
  unfold Node.broadcast
  simp only
  split
  · rfl
  · rfl

omit [DecidableEq P] in
theorem handling_of_listener (h : n.listener = none) : n.handling = [] := by
  rw [Node.handling, h]

/-- What `processRumors` stores is what it hands on. -/
theorem rumors_processRumors (n : Node P M) (header : Header P) (rumors : List (Rumor P M))
    (processedRumor : Bool) (rest : List (Rumor P M)) (o : P) :
    (n.processRumors header rumors processedRumor rest).rumorsHandler.rumors.get o =
      n.rumorsHandler.rumors.get o ++
        (n.processRumors header rumors processedRumor rest).handling.filter fun r =>
          r.origin = o := by
  unfold Node.processRumors
  rcases n.rumorsHandler.processRumors_cases processedRumor rest with
    ⟨skipped, m, rest', rfl, -, -, heq⟩ | ⟨-, heq⟩
  · rw [heq]
    change (n.rumorsHandler.put m).rumors.get o = _ ++ [m].filter _
    rw [RumorsHandler.put_rumors]
    by_cases ho : o = m.origin
    · subst ho
      simp
    · rw [if_neg ho, List.filter_cons_of_neg, List.filter_nil, List.append_nil]
      exact fun horigin => ho (of_decide_eq_true horigin).symm
  · rw [heq]
    exact (List.append_nil _).symm

theorem handling_handleStatus (hidle : n.listener = none) (source : P) (status : SequenceMap P)
    (c : Choices P) : (n.handleStatus p id source status c).1.handling = [] := by
  apply handling_of_listener
  unfold Node.handleStatus
  split
  · exact hidle
  · exact hidle

theorem rumors_receive {pkt : Packet P M} {c : Choices P} (hidle : n.listener = none) (o : P) :
    (n.receive p id pkt c).1.rumorsHandler.rumors.get o = n.rumorsHandler.rumors.get o ++
      (n.receive p id pkt c).1.handling.filter fun r => r.origin = o := by
  unfold Node.receive
  split
  · split
    · rw [handling_of_listener hidle]
      exact (List.append_nil _).symm
    · exact rumors_processRumors ..
  · rw [rumorsHandler_handleStatus, handling_handleStatus hidle]
    exact (List.append_nil _).symm
  · rw [rumorsHandler_handleStatus, handling_handleStatus (by exact hidle)]
    exact (List.append_nil _).symm

theorem rumors_handlerReturns {err : Bool} (hn : n.handlerReturns err = some n') (o : P) :
    n'.rumorsHandler.rumors.get o = n.rumorsHandler.rumors.get o ++
      n'.handling.filter fun r => r.origin = o := by
  obtain ⟨header, rumors, m, rest, -, ⟨-, rfl⟩ | ⟨-, rfl⟩⟩ := handlerReturns_cases hn
  · exact (List.append_nil _).symm
  · exact rumors_processRumors ..

end Node

namespace Network

variable {st st' : Network P M} {a : Action P M} {p o : P}

/-- One node changes and what it has stored does not. -/
theorem rumors_of_update {q : P} {n : Node P M} {accepted : List (Rumor P M)}
    (hnodes : st'.nodes = Function.update st.nodes q n)
    (hn : n.rumorsHandler.rumors.get o = (st.nodes q).rumorsHandler.rumors.get o)
    (haccepted : accepted = []) :
    (st'.nodes p).rumorsHandler.rumors.get o =
      (st.nodes p).rumorsHandler.rumors.get o ++ accepted.filter fun r => r.origin = o := by
  rw [hnodes, haccepted, List.filter_nil, List.append_nil]
  by_cases hp : p = q
  · rw [hp, Function.update_self]
    exact hn
  · rw [Function.update_of_ne hp]

/-- What a node stores in a step and has not created it has accepted. -/
theorem rumors_next (ho : o = p → a.created st p = []) (hnext : st.next a = some st') :
    (st'.nodes p).rumorsHandler.rumors.get o = (st.nodes p).rumorsHandler.rumors.get o ++
      (a.accepted st st' p).filter fun r => r.origin = o := by
  cases step_of_next hnext with
  | broadcast q msg shuffle =>
      by_cases hp : p = q
      · subst hp
        have hne : o ≠ p := by
          intro heq
          have hnil := ho heq
          rw [Action.created, if_pos rfl] at hnil
          cases hnil
        refine rumors_of_update rfl ?_ rfl
        rw [Node.rumorsHandler_broadcast, RumorsHandler.createRumorsMsg_snd,
          RumorsHandler.put_rumors, if_neg hne]
      · change (Function.update st.nodes q _ p).rumorsHandler.rumors.get o = _
        rw [Function.update_of_ne hp]
        exact (List.append_nil _).symm
  | deliver i c pkt hpkt _ hidle =>
      simp only [Action.accepted, hpkt]
      change (Function.update st.nodes pkt.header.destination _ p).rumorsHandler.rumors.get o = _
      by_cases hp : pkt.header.destination = p
      · rw [if_pos hp, ← hp, Function.update_self, Node.rumors_receive hidle]
        change _ = _ ++ (Function.update st.nodes pkt.header.destination _ _).handling.filter _
        rw [Function.update_self]
      · rw [if_neg hp, Function.update_of_ne (Ne.symm hp), List.filter_nil, List.append_nil]
  | handlerReturns q err n hn =>
      simp only [Action.accepted]
      change (Function.update st.nodes q n p).rumorsHandler.rumors.get o = _
      by_cases hp : q = p
      · rw [if_pos hp, ← hp, Function.update_self, Node.rumors_handlerReturns hn]
        change _ = _ ++ (Function.update st.nodes q n q).handling.filter _
        rw [Function.update_self]
      · rw [if_neg hp, Function.update_of_ne (Ne.symm hp), List.filter_nil, List.append_nil]
  | addPeer q addr => exact rumors_of_update rfl (by rfl) rfl
  | createChannel q i n hn =>
      exact rumors_of_update rfl (by rw [Node.rumorsHandler_createChannel hn]) rfl
  | waitAck q i n sent hn =>
      exact rumors_of_update rfl (by rw [Node.rumorsHandler_waitAck hn]) rfl
  | finish q shuffle n sent _ hn =>
      exact rumors_of_update rfl (by rw [Node.rumorsHandler_finish hn]) rfl
  | execStatus q => exact rumors_of_update rfl rfl rfl
  | drop i => exact (List.append_nil _).symm
  | stop q => exact rumors_of_update rfl (by rfl) rfl
  | closeAcks q => exact rumors_of_update rfl (by rfl) rfl

/-- What holds of a network in every run. -/
structure Faithful (st : Network P M) : Prop where
  sound : st.Sound
  learned : st.Learned
  genuine : st.Genuine

namespace Faithful

theorem initial : (Network.initial : Network P M).Faithful :=
  ⟨sound_initial, learned_initial, genuine_initial⟩

theorem next (h : st.Faithful) (hnext : st.next a = some st') : st'.Faithful where
  sound := h.sound.step hnext
  learned := h.learned.step h.sound hnext
  genuine := h.genuine.step h.sound h.learned hnext

/-- The ticker sends no rumors. -/
theorem antiEntropy (h : st.Faithful) {shuffle : List P}
    (hnext : st.antiEntropy p shuffle = some st') : st'.Faithful := by
  obtain ⟨-, dest, -, status, rfl⟩ := antiEntropy_eq hnext
  refine ⟨?_, ?_, ?_⟩
  · apply h.sound.send
    intro pkt hpkt
    obtain rfl := List.mem_singleton.mp hpkt
    rintro rumors ⟨⟩
  · -- no peer is added
    exact h.learned.addPeer (n := st.nodes p) rfl [] rfl rfl
  · apply h.genuine.put _ (h.genuine.nodes p)
    · intro pkt hpkt rumors hmsg
      obtain rfl := List.mem_singleton.mp hpkt
      cases hmsg
    · funext o
      exact own_of_update rfl (by rfl) o

end Faithful

/-- A rumor which a node accepts is the next one which another node has broadcast. -/
theorem accepted_next (h : st.Faithful) (hnext : st.next a = some st') {r : Rumor P M}
    (hr : a.accepted st st' p = [r]) :
    r.origin ≠ p ∧
      r.sequence = ((st.nodes p).rumorsHandler.rumors.get r.origin).length + 1 ∧
      (st.own r.origin)[((st.nodes p).rumorsHandler.rumors.get r.origin).length]? = some r := by
  have hcreated : ∀ q, a.created st q = [] := by
    intro q
    cases a with
    | broadcast q msg shuffle => cases hr
    | _ => rfl
  have hown : ∀ q, st'.own q = st.own q := by
    intro q
    rw [own_next h.sound h.learned hnext, hcreated, List.append_nil]
  have hstored : (st'.nodes p).rumorsHandler.rumors.get r.origin =
      (st.nodes p).rumorsHandler.rumors.get r.origin ++ [r] := by
    rw [rumors_next (fun _ => hcreated p) hnext, hr]
    simp
  have hprefix : (st'.nodes p).rumorsHandler.rumors.get r.origin <+: st.own r.origin := by
    rw [← hown]
    exact ((h.next hnext).genuine.nodes p).stored r.origin
  have hmem : (st.own r.origin)[((st.nodes p).rumorsHandler.rumors.get r.origin).length]? =
      some r := by
    obtain ⟨rest, hrest⟩ := hprefix
    rw [← hrest, hstored, List.append_assoc, List.getElem?_append_right le_rfl, Nat.sub_self]
    rfl
  refine ⟨?_, h.sound.numbering _ _ _ hmem, hmem⟩
  -- its own rumors are stored when they are created
  rintro rfl
  have hlength := congrArg List.length ((hown r.origin).symm.trans hstored)
  rw [List.length_append, List.length_singleton] at hlength
  exact Nat.ne_of_lt (Nat.lt_succ_self _) hlength

theorem faithful_of_reachable (h : gossip.Reachable st) : st.Faithful := by
  apply h.invariant
  · exact .initial
  · intro st st' a _ hfaithful _ hnext
    exact hfaithful.next hnext

end Network

/-- In every run of a network the rumors which a node has stored of an origin are the first ones
which that origin has created, and a rumor in a packet is the one which its origin has created
with that number. -/
theorem stored_first_broadcasts {st : Network P M} (h : gossip.Reachable st) :
    (∀ p o, (st.nodes p).rumorsHandler.rumors.get o <+: st.own o) ∧
      ∀ pkt ∈ st.packets, ∀ rumors, pkt.msg = .rumors rumors → ∀ r ∈ rumors,
        0 < r.sequence ∧ (st.own r.origin)[r.sequence - 1]? = some r := by
  have hfaithful := Network.faithful_of_reachable h
  have hgenuine := hfaithful.genuine
  refine ⟨fun p o => (hgenuine.nodes p).stored o, ?_⟩
  intro pkt hpkt rumors hmsg r hr
  obtain ⟨i, hi⟩ := List.getElem?_of_mem (hgenuine.packets pkt hpkt rumors hmsg r hr)
  have hsequence := hfaithful.sound.numbering _ _ _ hi
  rw [hsequence]
  exact ⟨Nat.succ_pos i, hi⟩

/-- A rumor of node 0 is on its way and has been stored by node 1. -/
theorem stored_first_broadcasts_of_two :
    ∃ st : Network (Fin 2) Unit, gossip.Reachable st ∧
      (st.nodes 1).rumorsHandler.rumors.get 0 = [⟨0, 1, ()⟩] ∧
      (st.nodes 1).rumorsHandler.rumors.get 0 <+: st.own 0 := by
  obtain ⟨st, hst, hstored⟩ := TransitionSystem.exists_of_replay
    (S := gossip (P := Fin 2) (M := Unit)) (fun _ _ => True)
    [.addPeer 0 [1], .broadcast 0 () [1], .deliver 0 ⟨[], false, []⟩]
    (fun st => (st.nodes 1).rumorsHandler.rumors.get 0 = [⟨0, 1, ()⟩]) (by decide +kernel)
  exact ⟨st, hst, hstored, (stored_first_broadcasts hst).1 1 0⟩

/-! ## Handlers run in the order of the broadcasts -/

/-- The rumor which `q` creates. -/
def ProcessingAction.created (st : Processing P M) (q : P) :
    ProcessingAction P M → List (Rumor P M)
  | .step a => a.created st.net q
  | _ => []

namespace Processing

variable {st st' : Processing P M} {p : P}

/-- The rumors of `o` whose handlers have run at `p`. -/
def processed (st : Processing P M) (p o : P) : List (Rumor P M) :=
  ((st.executed p).filter fun e => e.1.origin = o).map Prod.fst

/-- A handler which fails stops the node, and another one leaves the network as it is. -/
theorem net_runLocal {q : P} {err : Bool} (hnext : st.next (.runLocal q err) = some st') :
    st.net.next (.stop q) = some st'.net ∨ st'.net = st.net := by
  simp only [next] at hnext
  split at hnext
  · cases hnext
  · split at hnext
    · obtain rfl := Option.some.inj hnext
      exact .inl rfl
    · obtain rfl := Option.some.inj hnext
      exact .inr rfl

theorem net_step {a : Action P M} (hnext : st.next (.step a) = some st') :
    st.net.next a = some st'.net := by
  simp only [next, Option.ite_none_right_eq_some] at hnext
  obtain ⟨-, hnext⟩ := hnext
  obtain ⟨net, hnet, rfl⟩ := Option.map_eq_some_iff.mp hnext
  exact hnet

theorem net_antiEntropy {q : P} {shuffle : List P}
    (hnext : st.next (.antiEntropy q shuffle) = some st') :
    st.net.antiEntropy q shuffle = some st'.net := by
  obtain ⟨net, hnet, rfl⟩ := Option.map_eq_some_iff.mp hnext
  exact hnet

theorem net_runBroadcast {q : P} {i : ℕ} (hnext : st.next (.runBroadcast q i) = some st') :
    st'.net = st.net := by
  obtain ⟨r, hr, rfl⟩ := Option.map_eq_some_iff.mp hnext
  rfl

theorem faithful_next {a : ProcessingAction P M} (h : st.net.Faithful)
    (hnext : st.next a = some st') : st'.net.Faithful := by
  cases a with
  | step a => exact h.next (net_step hnext)
  | antiEntropy q shuffle => exact h.antiEntropy (net_antiEntropy hnext)
  | runBroadcast q i =>
      rw [net_runBroadcast hnext]
      exact h
  | runLocal q err =>
      rcases net_runLocal hnext with hnet | hnet
      · exact h.next hnet
      · rwa [hnet]

theorem faithful_of_reachable {C : Processing P M → ProcessingAction P M → Prop}
    (h : processing.ReachableUnder C st) : st.net.Faithful := by
  apply h.invariant
  · exact .initial
  · intro st st' a _ hst _ hnext
    exact faithful_next hst hnext

/-- The own rumors of a node are those which it creates. -/
theorem own_next {a : ProcessingAction P M} (h : st.net.Faithful)
    (hnext : st.next a = some st') (o : P) :
    st'.net.own o = st.net.own o ++ a.created st o := by
  cases a with
  | step a => exact Network.own_next h.sound h.learned (net_step hnext) o
  | antiEntropy q shuffle =>
      rw [Network.own, Network.nodes_antiEntropy (net_antiEntropy hnext)]
      exact (List.append_nil _).symm
  | runBroadcast q i =>
      rw [net_runBroadcast hnext]
      exact (List.append_nil _).symm
  | runLocal q err =>
      rcases net_runLocal hnext with hnet | hnet
      · exact Network.own_next h.sound h.learned hnet o
      · rw [hnet]
        exact (List.append_nil _).symm

/-- The rumors of others are processed when they are stored. -/
def Delivered (p : P) (st : Processing P M) : Prop :=
  ∀ o, o ≠ p → st.processed p o = (st.net.nodes p).rumorsHandler.rumors.get o

theorem Delivered.step (h : st.Delivered p) {a : Action P M}
    (hnext : st.next (.step a) = some st') : st'.Delivered p := by
  simp only [next, Option.ite_none_right_eq_some] at hnext
  obtain ⟨-, hnext⟩ := hnext
  obtain ⟨net, hnet, rfl⟩ := Option.map_eq_some_iff.mp hnext
  intro o ho
  rw [Network.rumors_next (absurd · ho) hnet, ← h o ho]
  simp only [Processing.processed, List.filter_append, List.map_append, List.filter_map,
    List.map_map]
  congr 1
  exact List.map_id' _

theorem Delivered.antiEntropy (h : st.Delivered p) {q : P} {shuffle : List P}
    (hnext : st.next (.antiEntropy q shuffle) = some st') : st'.Delivered p := by
  obtain ⟨net, hnet, rfl⟩ := Option.map_eq_some_iff.mp hnext
  intro o ho
  rw [Network.nodes_antiEntropy hnet]
  exact h o ho

theorem Delivered.runBroadcast (h : st.Delivered p) (honce : st.Once p) {q : P} {i : ℕ}
    (hnext : st.next (.runBroadcast q i) = some st') : st'.Delivered p := by
  obtain ⟨r, hr, rfl⟩ := Option.map_eq_some_iff.mp hnext
  intro o ho
  refine Eq.trans ?_ (h o ho)
  by_cases hq : p = q
  · subst hq
    -- the own rumors of `p` are not those of `o`
    have horigin : r.origin = p := honce.origin r (List.mem_of_getElem? hr)
    have hne : ¬(p = o) := Ne.symm ho
    simp [Processing.processed, execute, horigin, hne]
  · simp only [Processing.processed, execute, Function.update_of_ne hq]

theorem Delivered.runLocal (h : st.Delivered p) (honce : st.Once p) {q : P} {err : Bool}
    (hnext : st.next (.runLocal q err) = some st') : st'.Delivered p := by
  simp only [next] at hnext
  split at hnext
  · cases hnext
  · next r rest hlocals =>
    have hp : p ≠ q := by
      rintro rfl
      rw [honce.locals] at hlocals
      cases hlocals
    split at hnext
    · obtain rfl := Option.some.inj hnext
      intro o ho
      simp only [Processing.processed, execute, Function.update_of_ne hp]
      change _ = (Function.update st.net.nodes q _ p).rumorsHandler.rumors.get o
      rw [Function.update_of_ne hp]
      exact h o ho
    · obtain rfl := Option.some.inj hnext
      intro o ho
      simp only [Processing.processed, execute, Function.update_of_ne hp]
      exact h o ho

theorem delivered_of_reachable (h : processing.ReachableUnder (fun _ a => a.Apart p) st) :
    st.Delivered p := by
  apply h.invariant
  · exact fun _ _ => rfl
  · intro st st' a hst hdelivered _ hnext
    have honce := once_of_reachable hst
    cases a with
    | step a => exact hdelivered.step hnext
    | antiEntropy q shuffle => exact hdelivered.antiEntropy hnext
    | runBroadcast q i => exact hdelivered.runBroadcast honce hnext
    | runLocal q err => exact hdelivered.runLocal honce hnext

/-- Every rumor whose handler has run was created by its origin. -/
theorem mem_own_of_executed (h : processing.ReachableUnder (fun _ a => a.Apart p) st)
    {e : Rumor P M × Via} (he : e ∈ st.executed p) : e.1 ∈ st.net.own e.1.origin := by
  by_cases ho : e.1.origin = p
  · have hmem : e ∈ ((st.executed p).filter fun e => e.1.origin = p) ++
        (st.broadcasts p).map fun r => (r, Via.broadcast) :=
      List.mem_append_left _ (List.mem_filter.mpr ⟨he, decide_eq_true ho⟩)
    obtain ⟨r, hr, rfl⟩ := List.mem_map.mp ((once_of_reachable h).once.mem_iff.mp hmem)
    rw [ho]
    exact hr
  · have hmem : e.1 ∈ st.processed p e.1.origin :=
      List.mem_map_of_mem (List.mem_filter.mpr ⟨he, decide_eq_true rfl⟩)
    rw [delivered_of_reachable h _ ho] at hmem
    exact ((faithful_of_reachable h).genuine.nodes p).stored e.1.origin |>.mem hmem

end Processing

theorem ProcessingAction.apart_of_addsOthers {a : ProcessingAction (Fin 2) Unit}
    (ha : a.addsOthers = true) (p : Fin 2) : a.Apart p := by
  cases a with
  | step a =>
      cases a with
      | addPeer q addr =>
          rintro rfl
          exact of_decide_eq_true ha
      | execStatus q source status c => cases ha
      | _ => trivial
  | _ => trivial

end Minotor.Gossip
