import Minotor.Gossip.Steps

/-!
# The exchange between two nodes

Two nodes which know only each other exchange status messages, rumors and
acknowledgements, started by one status message.  A status message in flight
bounds how far its sender can have come: beyond what it says, the sender knows
only rumors of the receiver.  So a status message which the receiver does not
answer shows that both know the same.
-/

namespace Minotor.Gossip

variable {P M : Type*}

/-- The rumors which a call of `ExecRumorsMessage` has not looked at. -/
def ExecRumors.rest (l : ExecRumors P M) : List (Rumor P M) :=
  match l.pc with
  | .handling _ rest => rest
  | .returned _ => []

/-- The longer of two lists. -/
def longer {α : Type*} (l l' : List α) : List α :=
  if l.length ≤ l'.length then l' else l

/-- Missing entries count as `zero`, so entries which are not `zero` agree when
their values do. -/
theorem eq_of_getD_eq {β : Type*} {x y : Option β} {zero : β} (hx : x ≠ some zero)
    (hy : y ≠ some zero) (heq : x.getD zero = y.getD zero) : x = y := by
  cases x with
  | none =>
      cases y with
      | none => rfl
      | some v => exact absurd (congrArg some heq.symm) hy
  | some u =>
      cases y with
      | none => exact absurd (congrArg some heq) hx
      | some v => exact congrArg some heq

variable [DecidableEq P]

namespace RumorsHandler

variable {rH rH' source : RumorsHandler P M} {m : Rumor P M} {sm : SequenceMap P}

/-- No key has a zero value. -/
def Tight (rH : RumorsHandler P M) : Prop :=
  ∀ o, rH.sequenceMap.lookup o ≠ some 0 ∧ rH.rumors.lookup o ≠ some []

theorem tight_new : (new : RumorsHandler P M).Tight := fun _ => ⟨nofun, nofun⟩

theorem Tight.put (h : rH.Tight) (hm : rH.IsNext m) : (rH.put m).Tight := by
  intro o
  unfold RumorsHandler.put
  by_cases ho : o = m.origin
  · rw [ho, AList.lookup_insert, AList.lookup_insert, hm]
    constructor
    · simp
    · simp
  · rw [AList.lookup_insert_ne ho, AList.lookup_insert_ne ho]
    exact h o

theorem Tight.lookup_sequenceMap (h : rH.Tight) (h' : rH'.Tight) {o : P}
    (heq : rH.sequenceMap.get o = rH'.sequenceMap.get o) :
    rH.sequenceMap.lookup o = rH'.sequenceMap.lookup o :=
  eq_of_getD_eq (h o).1 (h' o).1 heq

theorem Tight.lookup_rumors (h : rH.Tight) (h' : rH'.Tight) {o : P}
    (heq : rH.rumors.get o = rH'.rumors.get o) :
    rH.rumors.lookup o = rH'.rumors.lookup o :=
  eq_of_getD_eq (h o).2 (h' o).2 heq

/-- A node that misses nothing has all that the status tells. -/
theorem le_of_not_missing (h : rH.isLocalMissingRumors sm = false) (o : P) :
    sm.get o ≤ rH.sequenceMap.get o := by
  unfold SequenceMap.get
  cases hlookup : sm.lookup o with
  | none => exact Nat.zero_le _
  | some s =>
      unfold isLocalMissingRumors at h
      rw [List.any_eq_false] at h
      have hentry := h ⟨o, s⟩ (AList.mem_lookup_iff.mp hlookup)
      simp only at hentry
      cases hmine : rH.sequenceMap.lookup o with
      | none =>
          rw [hmine] at hentry
          exact absurd rfl hentry
      | some sequence =>
          rw [hmine] at hentry
          rw [Option.getD_some, Option.getD_some]
          simpa using hentry

/-- If no answer is due, the remote node has all that the local one has. -/
theorem InOrder.le_of_no_answer (h : rH.InOrder) {order : List P}
    (horder : order.Perm rH.rumors.keys)
    (hnil : rH.getRemoteMissingRumors sm order = some []) (o : P) :
    rH.sequenceMap.get o ≤ sm.get o := by
  rcases h.getRemoteMissingRumors_cases hnil with ⟨a, hlt, hdrop⟩ | ⟨_, hle⟩
  · have hlen := congrArg List.length hdrop
    rw [List.length_drop, h.length a, List.length_nil] at hlen
    omega
  · by_cases ho : o ∈ order
    · exact hle o ho
    · rw [horder.mem_iff] at ho
      have hnone : rH.rumors.lookup o = none :=
        AList.lookup_eq_none.mpr fun hmem => ho (AList.mem_keys.mp hmem)
      rw [← h.length o, RumorMap.get, hnone]
      exact Nat.zero_le _

/-- `rH` gets at most one rumor of `source`. -/
inductive Learns (source rH rH' : RumorsHandler P M) : Prop where
  | nothing (heq : rH' = rH)
  | rumor (m : Rumor P M) (hm : m ∈ source.rumors.get m.origin) (hnext : rH.IsNext m)
      (heq : rH' = rH.put m)

namespace Learns

theorem inOrder (h : Learns source rH rH') (hrH : rH.InOrder) : rH'.InOrder := by
  cases h with
  | nothing heq => exact heq ▸ hrH
  | rumor m _ hnext heq => exact heq ▸ hrH.put hnext

theorem tight (h : Learns source rH rH') (hrH : rH.Tight) : rH'.Tight := by
  cases h with
  | nothing heq => exact heq ▸ hrH
  | rumor m _ hnext heq => exact heq ▸ hrH.put hnext

theorem le (h : Learns source rH rH') (o : P) :
    rH.sequenceMap.get o ≤ rH'.sequenceMap.get o := by
  cases h with
  | nothing heq => rw [heq]
  | rumor m _ hnext heq => exact heq ▸ hnext.sequence_le o

theorem le_max (h : Learns source rH rH') (hsource : source.InOrder) (o : P) :
    rH'.sequenceMap.get o ≤ max (rH.sequenceMap.get o) (source.sequenceMap.get o) := by
  cases h with
  | nothing heq =>
      rw [heq]
      exact le_max_left _ _
  | rumor m hm _ heq =>
      rw [heq, put_sequence]
      split
      · next ho =>
          rw [ho]
          exact (hsource.mem hm).2.2.trans (le_max_right _ _)
      · exact le_max_left _ _

theorem mem (h : Learns source rH rH') {r : Rumor P M} {o : P}
    (hr : r ∈ rH.rumors.get o) : r ∈ rH'.rumors.get o := by
  cases h with
  | nothing heq => exact heq ▸ hr
  | rumor m _ _ heq =>
      rw [heq, put_rumors]
      split
      · next ho => exact List.mem_append_left _ (ho ▸ hr)
      · exact hr

/-- Prefixes of one list stay prefixes of it. -/
theorem prefix_of (h : Learns source rH rH') (hrH : rH.InOrder) (hsource : source.InOrder)
    {o : P} {l : List (Rumor P M)} (hle : rH.rumors.get o <+: l)
    (hsourceLe : source.rumors.get o <+: l) : rH'.rumors.get o <+: l := by
  cases h with
  | nothing heq => exact heq ▸ hle
  | rumor m hm hnext heq =>
      rw [heq, put_rumors]
      split
      · next ho =>
          subst ho
          obtain ⟨i, hi⟩ := List.getElem?_of_mem hm
          have hindex : i = (rH.rumors.get m.origin).length := by
            have hsequence := (hsource.getElem? hi).2
            rw [hnext, hrH.length] at *
            omega
          have hl : l[(rH.rumors.get m.origin).length]? = some m := by
            obtain ⟨tail, rfl⟩ := hsourceLe
            rw [← hindex, List.getElem?_append_left (List.getElem?_eq_some_iff.mp hi).1]
            exact hi
          obtain ⟨tail, rfl⟩ := hle
          rw [List.getElem?_append_right le_rfl, Nat.sub_self] at hl
          cases tail with
          | nil => cases hl
          | cons a tail =>
              obtain rfl := Option.some.inj hl
              exact ⟨tail, by rw [List.append_assoc, List.singleton_append]⟩
      · exact hle

end Learns

end RumorsHandler

/-! ## Steps of the exchange -/

/-- `x` and `y` are the two partners. -/
def Partners (a b x y : P) : Prop := x = a ∧ y = b ∨ x = b ∧ y = a

omit [DecidableEq P] in
theorem Partners.symm {a b x y : P} (h : Partners a b x y) : Partners a b y x := by
  rcases h with ⟨rfl, rfl⟩ | ⟨rfl, rfl⟩
  · exact .inr ⟨rfl, rfl⟩
  · exact .inl ⟨rfl, rfl⟩

omit [DecidableEq P] in
theorem Partners.ne {a b x y : P} (h : Partners a b x y) (hab : a ≠ b) : x ≠ y := by
  rcases h with ⟨rfl, rfl⟩ | ⟨rfl, rfl⟩
  · exact hab
  · exact hab.symm

omit [DecidableEq P] in
theorem Partners.eq_or {a b x y z w : P} (h : Partners a b x y) (h' : Partners a b z w) :
    z = x ∧ w = y ∨ z = y ∧ w = x := by
  rcases h with ⟨rfl, rfl⟩ | ⟨rfl, rfl⟩
  · exact h'
  · rcases h' with ⟨rfl, rfl⟩ | ⟨rfl, rfl⟩
    · exact .inr ⟨rfl, rfl⟩
    · exact .inl ⟨rfl, rfl⟩

/-- A status of `sender`: it tells no more than the sender has, and beyond it
the sender has only what `receiver` has. -/
def SequenceMap.Bounds (sm : SequenceMap P) (sender receiver : RumorsHandler P M) : Prop :=
  ∀ o, sm.get o ≤ sender.sequenceMap.get o ∧
    sender.sequenceMap.get o ≤ max (sm.get o) (receiver.sequenceMap.get o)

/-- What a message of `sender` to `receiver` tells. -/
def Message.Tells (sender receiver : RumorsHandler P M) : Message P M → Prop
  | .rumors rs => ∀ r ∈ rs, r ∈ sender.rumors.get r.origin
  | .status sm => sm.Bounds sender receiver
  | .ack _ sm => sm.Bounds sender receiver

section

variable {sender sender' receiver receiver' : RumorsHandler P M} {sm : SequenceMap P}
  {msg : Message P M}

theorem SequenceMap.Bounds.sender_learns (h : sm.Bounds sender receiver)
    (hreceiver : receiver.InOrder) (hlearns : receiver.Learns sender sender') :
    sm.Bounds sender' receiver := by
  intro o
  obtain ⟨hle, hmax⟩ := h o
  refine ⟨hle.trans (hlearns.le o), ?_⟩
  have hnew := hlearns.le_max hreceiver o
  omega

theorem SequenceMap.Bounds.receiver_learns (h : sm.Bounds sender receiver)
    (hlearns : sender.Learns receiver receiver') : sm.Bounds sender receiver' := by
  intro o
  obtain ⟨hle, hmax⟩ := h o
  refine ⟨hle, ?_⟩
  have hnew := hlearns.le o
  omega

theorem Message.Tells.sender_learns (h : msg.Tells sender receiver)
    (hreceiver : receiver.InOrder) (hlearns : receiver.Learns sender sender') :
    msg.Tells sender' receiver := by
  cases msg with
  | rumors rs => exact fun r hr => hlearns.mem (h r hr)
  | status sm => exact SequenceMap.Bounds.sender_learns h hreceiver hlearns
  | ack id sm => exact SequenceMap.Bounds.sender_learns h hreceiver hlearns

theorem Message.Tells.receiver_learns (h : msg.Tells sender receiver)
    (hlearns : sender.Learns receiver receiver') : msg.Tells sender receiver' := by
  cases msg with
  | rumors rs => exact h
  | status sm => exact SequenceMap.Bounds.receiver_learns h hlearns
  | ack id sm => exact SequenceMap.Bounds.receiver_learns h hlearns

end

/-- A packet from one partner to the other. -/
structure Packet.Between (pkt : Packet P M) (x y : P) : Prop where
  source : pkt.header.source = x
  relayedBy : pkt.header.relayedBy = x
  destination : pkt.header.destination = y

/-- A step of `y`, whose partner has the handler `source`. -/
structure Node.Answers (x y : P) (source : RumorsHandler P M) (n n' : Node P M)
    (sent : List (Packet P M)) : Prop where
  learns : source.Learns n.rumorsHandler n'.rumorsHandler
  neighbours : ∀ k ∈ n'.routingTable.neighbours, k ∈ n.routingTable.neighbours ∨ k = x
  listener : ∀ l, n'.listener = some l → l.header.source = x ∧ l.header.relayedBy = x ∧
    ∀ r ∈ l.rest, r ∈ source.rumors.get r.origin
  sent : ∀ pkt ∈ sent, pkt.Between y x ∧ pkt.msg.Tells n'.rumorsHandler source

namespace Node

variable {n n' : Node P M} {x y : P} {source : RumorsHandler P M} {id : ℕ} {c : Choices P}
  {sent : List (Packet P M)}

/-- No other neighbour is left. -/
theorem searchNeighbour_eq_none {shuffle sentRumorNeighbours : List P}
    (hshuffle : n.Shuffles shuffle) (honly : ∀ k ∈ n.routingTable.neighbours, k = x)
    (hsent : x ∈ sentRumorNeighbours) : searchNeighbour shuffle sentRumorNeighbours = none := by
  rw [searchNeighbour, List.find?_eq_none]
  intro k hk
  rw [honly k (hshuffle.mem_iff.mp hk)]
  simpa using hsent

theorem answers_processRumors {header : Header P} {rumors rest : List (Rumor P M)}
    {processedRumor : Bool} (hsource : header.source = x) (hrelay : header.relayedBy = x)
    (hrest : ∀ r ∈ rest, r ∈ source.rumors.get r.origin) :
    n.Answers x y source (n.processRumors header rumors processedRumor rest) [] := by
  unfold Node.processRumors
  rcases n.rumorsHandler.processRumors_cases processedRumor rest with
    ⟨skipped, m, rest', hsplit, _, hnext, heq⟩ | ⟨_, heq⟩
  · rw [heq]
    constructor
    · apply RumorsHandler.Learns.rumor m _ hnext rfl
      apply hrest
      rw [hsplit]
      exact List.mem_append_right _ List.mem_cons_self
    · intro k hk
      rcases NodeRT.mem_neighbours_updateRT _ hk with hk | ⟨_, hkm, hmx⟩
      · exact .inl hk
      · right
        rw [hkm, hmx, hrelay]
    · intro l hl
      obtain rfl := Option.some.inj hl
      refine ⟨hsource, hrelay, ?_⟩
      intro r hr
      apply hrest
      rw [hsplit]
      exact List.mem_append_right _ (List.mem_cons_of_mem m hr)
    · exact fun pkt hpkt => absurd hpkt List.not_mem_nil
  · rw [heq]
    constructor
    · exact .nothing rfl
    · exact fun k hk => .inl hk
    · intro l hl
      obtain rfl := Option.some.inj hl
      exact ⟨hsource, hrelay, fun r hr => absurd hr List.not_mem_nil⟩
    · exact fun pkt hpkt => absurd hpkt List.not_mem_nil

theorem answers_handlerReturns
    (hlistener : ∀ l, n.listener = some l → l.header.source = x ∧ l.header.relayedBy = x ∧
      ∀ r ∈ l.rest, r ∈ source.rumors.get r.origin)
    (hn : n.handlerReturns false = some n') :
    n.Answers x y source n' [] ∧ n'.listener.isSome := by
  obtain ⟨header, rumors, m, rest, hl, ⟨herr, -⟩ | ⟨-, rfl⟩⟩ := handlerReturns_cases hn
  · cases herr
  · obtain ⟨hsource, hrelay, hrest⟩ := hlistener _ hl
    exact ⟨answers_processRumors hsource hrelay hrest, rfl⟩

/-- The status which a node sends tells the truth. -/
theorem tells_sequenceMap (rH source : RumorsHandler P M) :
    (Message.status rH.getSequenceMap).Tells rH source :=
  fun _ => ⟨le_rfl, le_max_left _ _⟩

theorem answers_finish (honly : ∀ k ∈ n.routingTable.neighbours, k = x)
    (hlistener : ∀ l, n.listener = some l → l.header.source = x ∧ l.header.relayedBy = x ∧
      ∀ r ∈ l.rest, r ∈ source.rumors.get r.origin)
    {shuffle : List P} (hshuffle : n.Shuffles shuffle)
    (hn : n.finish y id shuffle = some (n', sent)) :
    n.Answers x y source n' sent ∧ sent ≠ [] := by
  obtain ⟨header, rumors, discovered, hl, rfl, hack, hsent⟩ := finish_cases hn
  obtain ⟨hsource, hrelay, _⟩ := hlistener _ hl
  refine ⟨?_, List.ne_nil_of_mem hack⟩
  constructor
  · exact .nothing rfl
  · exact fun k hk => .inl hk
  · exact fun l hl => absurd hl (by simp)
  · intro pkt hpkt
    rcases hsent pkt hpkt with rfl | ⟨dest, -, hdest, -⟩
    · exact ⟨⟨rfl, rfl, hsource⟩, tells_sequenceMap n.rumorsHandler source⟩
    · -- the packet is not passed on
      have hnone : searchNeighbour shuffle [header.source, header.relayedBy] = none := by
        apply searchNeighbour_eq_none hshuffle honly
        rw [← hsource]
        exact List.mem_cons_self
      rw [hnone] at hdest
      cases hdest

/-- An unanswered status is the state of the receiver. -/
theorem answers_execStatusMessage (source : RumorsHandler P M) (hn : n.rumorsHandler.InOrder)
    (honly : ∀ k ∈ n.routingTable.neighbours, k = x) (hallows : n.Allows c)
    {status : SequenceMap P} (hexec : n.execStatusMessage y id x status c = some sent) :
    (∀ pkt ∈ sent, pkt.Between y x ∧ pkt.msg.Tells n.rumorsHandler source) ∧
      (sent = [] → ∀ o, status.get o = n.rumorsHandler.sequenceMap.get o) := by
  unfold Node.execStatusMessage at hexec
  rw [Option.map_eq_some_iff] at hexec
  obtain ⟨missing, hmissing, rfl⟩ := hexec
  have hnone : searchNeighbour c.shuffle [x] = none :=
    searchNeighbour_eq_none hallows.2 honly (List.mem_singleton_self x)
  rw [hnone]
  constructor
  · intro pkt hpkt
    simp only [ite_self, List.append_nil, List.mem_append] at hpkt
    rcases hpkt with hpkt | hpkt
    · split at hpkt
      · obtain rfl := List.mem_singleton.mp hpkt
        exact ⟨⟨rfl, rfl, rfl⟩, tells_sequenceMap n.rumorsHandler source⟩
      · exact absurd hpkt List.not_mem_nil
    · split at hpkt
      · next hne =>
          obtain rfl := List.mem_singleton.mp hpkt
          refine ⟨⟨rfl, rfl, rfl⟩, ?_⟩
          rcases hn.getRemoteMissingRumors_cases hmissing with ⟨o, _, rfl⟩ | ⟨hnil, _⟩
          · intro r hr
            have hr := List.mem_of_mem_drop hr
            rw [(hn.mem hr).1]
            exact hr
          · exact absurd hnil hne
      · exact absurd hpkt List.not_mem_nil
  · intro hnil o
    simp only [ite_self, List.append_nil, List.append_eq_nil_iff] at hnil
    obtain ⟨hasked, hanswer⟩ := hnil
    have hlocal : n.rumorsHandler.isLocalMissingRumors status = false := by
      by_contra hmine
      rw [Bool.not_eq_false] at hmine
      rw [if_pos hmine] at hasked
      cases hasked
    have hremote : missing = [] := by
      by_contra hne
      rw [if_pos hne] at hanswer
      cases hanswer
    rw [hremote] at hmissing
    exact le_antisymm (RumorsHandler.le_of_not_missing hlocal o)
      (hn.le_of_no_answer hallows.1 hmissing o)

/-- A packet arrives; if nothing follows, it was a status and the receiver has
the same. -/
theorem answers_receive (id : ℕ) (hn : n.rumorsHandler.InOrder)
    (honly : ∀ k ∈ n.routingTable.neighbours, k = x) (hidle : n.listener = none)
    (hallows : n.Allows c) (hxy : x ≠ y) {pkt : Packet P M} (hbetween : pkt.Between x y)
    (htells : pkt.msg.Tells source n.rumorsHandler) :
    n.Answers x y source (n.receive y id pkt c).1 (n.receive y id pkt c).2 ∧
      ((n.receive y id pkt c).1.listener = none → (n.receive y id pkt c).2 = [] →
        ∀ o, source.sequenceMap.get o = (n.receive y id pkt c).1.rumorsHandler.sequenceMap.get o)
    := by
  -- a status or an acknowledgement, handled by a node with the same tables
  have hstatus : ∀ (n₁ : Node P M) (status : SequenceMap P),
      n₁.rumorsHandler = n.rumorsHandler → n₁.routingTable = n.routingTable →
      n₁.listener = none →
      status.Bounds source n.rumorsHandler →
      n.Answers x y source (n₁.handleStatus y id pkt.header.source status c).1
          (n₁.handleStatus y id pkt.header.source status c).2 ∧
        ((n₁.handleStatus y id pkt.header.source status c).1.listener = none →
          (n₁.handleStatus y id pkt.header.source status c).2 = [] →
          ∀ o, source.sequenceMap.get o =
            (n₁.handleStatus y id pkt.header.source status c).1.rumorsHandler.sequenceMap.get o)
      := by
    intro n₁ status hrH hrt hl htells
    have hallows₁ : n₁.Allows c := by
      unfold Node.Allows Node.Shuffles
      rw [hrH, hrt]
      exact hallows
    have honly₁ : ∀ k ∈ n₁.routingTable.neighbours, k = x := hrt ▸ honly
    have hsome := hn.getRemoteMissingRumors_isSome status c.order
    rw [hbetween.source]
    unfold Node.handleStatus
    split
    · next hnone =>
        rw [Node.execStatusMessage, Option.map_eq_none_iff, hrH] at hnone
        rw [hnone] at hsome
        cases hsome
    · next packets hexec =>
        obtain ⟨hsent, hsilent⟩ :=
          answers_execStatusMessage source (hrH ▸ hn) honly₁ hallows₁ hexec
        refine ⟨⟨.nothing hrH, ?_, ?_, hsent⟩, ?_⟩
        · exact fun k hk => .inl (hrt ▸ hk)
        · exact fun l hl' => absurd (hl.symm.trans hl') (by simp)
        · intro _ hnil o
          have heq := hsilent hnil o
          obtain ⟨hle, hmax⟩ := htells o
          simp only
          rw [hrH] at heq ⊢
          omega
  cases hmsg : pkt.msg with
  | rumors rs =>
      rw [hmsg] at htells
      unfold Node.receive
      rw [hmsg]
      simp only
      rw [if_neg]
      · refine ⟨answers_processRumors hbetween.source hbetween.relayedBy htells, ?_⟩
        exact fun hl => absurd hl (by simp [Node.processRumors])
      · rw [hbetween.source, hbetween.destination]
        exact hxy
  | status status =>
      rw [hmsg] at htells
      unfold Node.receive
      rw [hmsg]
      exact hstatus n status rfl rfl hidle htells
  | ack acked status =>
      rw [hmsg] at htells
      unfold Node.receive
      rw [hmsg]
      exact hstatus _ status rfl rfl hidle htells

end Node

namespace Network

/-- Two nodes which know only each other, at work on nothing; `a` has sent its
status to `b`. -/
structure StartsExchange (a b : P) (st : Network P M) : Prop where
  handlers : ∀ x y, Partners a b x y → ∃ rs : RumorStore P M,
    (rumorStore x).Reachable rs ∧ rs.handler = (st.nodes x).rumorsHandler
  agree : ∀ o,
    (st.nodes a).rumorsHandler.rumors.get o <+: (st.nodes b).rumorsHandler.rumors.get o ∨
    (st.nodes b).rumorsHandler.rumors.get o <+: (st.nodes a).rumorsHandler.rumors.get o
  neighbours : ∀ x y, Partners a b x y →
    ∀ k, k ∈ (st.nodes x).routingTable.neighbours ↔ k = y
  idle : ∀ p, (st.nodes p).listener = none
  packets : ∃ id, st.packets =
    [⟨⟨id, a, a, b⟩, .status (st.nodes a).rumorsHandler.getSequenceMap⟩]

/-- The actions of the exchange: packets are delivered, in any order, and the
handlers of embedded messages succeed. -/
def Exchanges (_ : Network P M) : Action P M → Prop
  | .deliver _ _ => True
  | .handlerReturns _ err => err = false
  | .finish _ _ => True
  | _ => False

instance (st : Network P M) (a : Action P M) : Decidable (st.Exchanges a) := by
  cases a <;> unfold Exchanges <;> infer_instance

/-- No message is in flight or being handled. -/
def Quiet (st : Network P M) : Prop :=
  st.packets = [] ∧ ∀ p, (st.nodes p).listener = none

/-- The pointwise longer rumor lists of two nodes. -/
def target (st : Network P M) (a b o : P) : List (Rumor P M) :=
  longer ((st.nodes a).rumorsHandler.rumors.get o) ((st.nodes b).rumorsHandler.rumors.get o)

/-- The states of an exchange which started in `start`. -/
structure Exchange (a b : P) (start st : Network P M) : Prop where
  inOrder : ∀ x y, Partners a b x y → (st.nodes x).rumorsHandler.InOrder
  tight : ∀ x y, Partners a b x y → (st.nodes x).rumorsHandler.Tight
  grown : ∀ x y, Partners a b x y → ∀ o, start.know x o ≤ st.know x o
  prefixes : ∀ x y, Partners a b x y → ∀ o,
    (st.nodes x).rumorsHandler.rumors.get o <+: start.target a b o
  neighbours : ∀ x y, Partners a b x y → ∀ k ∈ (st.nodes x).routingTable.neighbours, k = y
  listeners : ∀ y l, (st.nodes y).listener = some l → ∃ x, Partners a b x y ∧
    l.header.source = x ∧ l.header.relayedBy = x ∧
    ∀ r ∈ l.rest, r ∈ (st.nodes x).rumorsHandler.rumors.get r.origin
  packets : ∀ pkt ∈ st.packets, ∃ x y, Partners a b x y ∧ pkt.Between x y ∧
    pkt.msg.Tells (st.nodes x).rumorsHandler (st.nodes y).rumorsHandler
  quiet : st.Quiet → ∀ o, st.know a o = st.know b o

variable {a b x y : P} {start st st' : Network P M} {n' : Node P M}
  {sent : List (Packet P M)}

/-- One partner takes a step. -/
theorem Exchange.put (h : Exchange a b start st) (hab : a ≠ b) (hxy : Partners a b x y)
    (hanswers : (st.nodes y).Answers x y (st.nodes x).rumorsHandler n' sent)
    (hnodes : st'.nodes = Function.update st.nodes y n')
    (hpackets : ∀ pkt ∈ st'.packets, pkt ∈ st.packets ∨ pkt ∈ sent)
    (hquiet : st'.Quiet → ∀ o, st.know x o = n'.know o) : Exchange a b start st' := by
  have hy : st'.nodes y = n' := by
    rw [hnodes, Function.update_self]
  have hx : st'.nodes x = st.nodes x := by
    rw [hnodes, Function.update_of_ne (hxy.ne hab)]
  have horderx := h.inOrder x y hxy
  have hordery := h.inOrder y x hxy.symm
  constructor
  · intro z w hzw
    rcases hxy.eq_or hzw with ⟨rfl, rfl⟩ | ⟨rfl, rfl⟩
    · rw [hx]
      exact horderx
    · rw [hy]
      exact hanswers.learns.inOrder hordery
  · intro z w hzw
    rcases hxy.eq_or hzw with ⟨rfl, rfl⟩ | ⟨rfl, rfl⟩
    · rw [hx]
      exact h.tight z w hzw
    · rw [hy]
      exact hanswers.learns.tight (h.tight z w hzw)
  · intro z w hzw o
    apply (h.grown z w hzw o).trans
    unfold Network.know
    rcases hxy.eq_or hzw with ⟨rfl, rfl⟩ | ⟨rfl, rfl⟩
    · rw [hx]
    · rw [hy]
      exact hanswers.learns.le o
  · intro z w hzw o
    rcases hxy.eq_or hzw with ⟨rfl, rfl⟩ | ⟨rfl, rfl⟩
    · rw [hx]
      exact h.prefixes z w hzw o
    · rw [hy]
      exact hanswers.learns.prefix_of hordery horderx (h.prefixes z w hzw o)
        (h.prefixes w z hzw.symm o)
  · intro z w hzw k hk
    rcases hxy.eq_or hzw with ⟨rfl, rfl⟩ | ⟨rfl, rfl⟩
    · rw [hx] at hk
      exact h.neighbours z w hzw k hk
    · rw [hy] at hk
      rcases hanswers.neighbours k hk with hk | hk
      · exact h.neighbours z w hzw k hk
      · exact hk
  · intro z l hl
    by_cases hzy : z = y
    · subst hzy
      rw [hy] at hl
      rw [← hx] at hanswers
      exact ⟨x, hxy, hanswers.listener l hl⟩
    · rw [hnodes, Function.update_of_ne hzy] at hl
      obtain ⟨w, hwz, hsource, hrelay, hrest⟩ := h.listeners z l hl
      refine ⟨w, hwz, hsource, hrelay, ?_⟩
      rcases hxy.eq_or hwz with ⟨-, heq⟩ | ⟨rfl, -⟩
      · exact absurd heq hzy
      · rw [hy]
        exact fun r hr => hanswers.learns.mem (hrest r hr)
  · intro pkt hpkt
    rcases hpackets pkt hpkt with hold | hnew
    · obtain ⟨z, w, hzw, hbetween, htells⟩ := h.packets pkt hold
      refine ⟨z, w, hzw, hbetween, ?_⟩
      rcases hxy.eq_or hzw with ⟨rfl, rfl⟩ | ⟨rfl, rfl⟩
      · rw [hx, hy]
        exact htells.receiver_learns hanswers.learns
      · rw [hx, hy]
        exact htells.sender_learns horderx hanswers.learns
    · refine ⟨y, x, hxy.symm, ?_⟩
      rw [hx, hy]
      exact hanswers.sent pkt hnew
  · intro hst' o
    have heq := hquiet hst' o
    rw [← hy] at heq
    unfold Network.know at heq ⊢
    rw [← hx] at heq
    rcases hxy with ⟨rfl, rfl⟩ | ⟨rfl, rfl⟩
    · exact heq
    · exact heq.symm

theorem Exchange.deliver (h : Exchange a b start st) (hab : a ≠ b) {i : ℕ} {c : Choices P}
    (hnext : st.next (.deliver i c) = some st') : Exchange a b start st' := by
  cases step_of_next hnext with
  | deliver _ _ pkt hpkt _ hidle hallows =>
      obtain ⟨x, y, hxy, hbetween, htells⟩ := h.packets pkt (List.mem_of_getElem? hpkt)
      rw [hbetween.destination] at hidle hallows ⊢
      obtain ⟨hanswers, hsilent⟩ := Node.answers_receive st.nextID
        (h.inOrder y x hxy.symm) (h.neighbours y x hxy.symm) hidle hallows
        (hxy.ne hab) hbetween htells
      apply h.put hab hxy hanswers rfl
      · intro pkt' hpkt'
        rcases List.mem_append.mp hpkt' with hpkt' | hpkt'
        · exact .inl (List.mem_of_mem_eraseIdx hpkt')
        · exact .inr hpkt'
      · rintro ⟨hnil, hidle⟩
        apply hsilent
        · have hy := hidle y
          simp only [Network.put, Function.update_self] at hy
          exact hy
        · exact (List.append_eq_nil_iff.mp hnil).2

theorem Exchange.handlerReturns (h : Exchange a b start st) (hab : a ≠ b)
    (hnext : st.next (.handlerReturns y false) = some st') : Exchange a b start st' := by
  cases step_of_next hnext with
  | handlerReturns _ _ n hn =>
      -- only a partner has a listener at work
      obtain ⟨header, rumors, m, rest, hl, -⟩ := Node.handlerReturns_cases hn
      obtain ⟨x, hxy, hlistener⟩ := h.listeners y _ hl
      obtain ⟨hanswers, hbusy⟩ := Node.answers_handlerReturns
        (fun l' hl' => Option.some.inj (hl.symm.trans hl') ▸ hlistener) hn
      apply h.put hab hxy hanswers rfl
      · exact fun pkt hpkt => List.mem_append.mp hpkt
      · rintro ⟨-, hidle⟩
        have hy := hidle y
        simp only [Network.put, Function.update_self] at hy
        rw [hy] at hbusy
        cases hbusy

theorem Exchange.finish (h : Exchange a b start st) (hab : a ≠ b) {shuffle : List P}
    (hnext : st.next (.finish y shuffle) = some st') : Exchange a b start st' := by
  cases step_of_next hnext with
  | finish _ _ n sent hshuffle hn =>
      obtain ⟨header, rumors, discovered, hl, -⟩ := Node.finish_cases hn
      obtain ⟨x, hxy, hlistener⟩ := h.listeners y _ hl
      obtain ⟨hanswers, hsent⟩ := Node.answers_finish (h.neighbours y x hxy.symm)
        (fun l' hl' => Option.some.inj (hl.symm.trans hl') ▸ hlistener) hshuffle hn
      apply h.put hab hxy hanswers rfl
      · exact fun pkt hpkt => List.mem_append.mp hpkt
      · rintro ⟨hnil, -⟩
        exact absurd (List.append_eq_nil_iff.mp hnil).2 hsent

theorem StartsExchange.exchange (h : start.StartsExchange a b) :
    Exchange a b start start := by
  have hhandler : ∀ x y, Partners a b x y → (start.nodes x).rumorsHandler.InOrder ∧
      (start.nodes x).rumorsHandler.Tight := by
    intro x y hxy
    obtain ⟨rs, hrs, heq⟩ := h.handlers x y hxy
    rw [← heq]
    constructor
    · exact RumorStore.handler_of_reachable RumorsHandler.inOrder_new
        (fun _ _ hrH hm => hrH.put hm) hrs
    · exact RumorStore.handler_of_reachable RumorsHandler.tight_new
        (fun _ _ hrH hm => hrH.put hm) hrs
  constructor
  · exact fun x y hxy => (hhandler x y hxy).1
  · exact fun x y hxy => (hhandler x y hxy).2
  · exact fun x y _ o => le_rfl
  · intro x y hxy o
    unfold Network.target longer
    rcases h.agree o with hle | hle
    · rw [if_pos hle.length_le]
      rcases hxy with ⟨rfl, rfl⟩ | ⟨rfl, rfl⟩
      · exact hle
      · exact List.prefix_rfl
    · by_cases hlen : ((start.nodes a).rumorsHandler.rumors.get o).length ≤
          ((start.nodes b).rumorsHandler.rumors.get o).length
      · rw [if_pos hlen, hle.eq_of_length_le hlen]
        rcases hxy with ⟨rfl, rfl⟩ | ⟨rfl, rfl⟩
        · exact List.prefix_rfl
        · exact hle.eq_of_length_le hlen ▸ List.prefix_rfl
      · rw [if_neg hlen]
        rcases hxy with ⟨rfl, rfl⟩ | ⟨rfl, rfl⟩
        · exact List.prefix_rfl
        · exact hle
  · exact fun x y hxy k hk => (h.neighbours x y hxy k).mp hk
  · exact fun y l hl => absurd ((h.idle y).symm.trans hl) (by simp)
  · obtain ⟨id, hid⟩ := h.packets
    intro pkt hpkt
    rw [hid, List.mem_singleton] at hpkt
    subst hpkt
    exact ⟨a, b, .inl ⟨rfl, rfl⟩, ⟨rfl, rfl, rfl⟩, Node.tells_sequenceMap _ _⟩
  · rintro ⟨hnil, -⟩
    obtain ⟨id, hid⟩ := h.packets
    rw [hid] at hnil
    cases hnil

theorem exchange_of_reachable (hab : a ≠ b) (hstart : start.StartsExchange a b)
    (h : (gossipFrom start).ReachableUnder Exchanges st) : Exchange a b start st := by
  apply h.invariant
  · exact hstart.exchange
  · intro st st' act _ hst hact hnext
    cases act with
    | deliver i c => exact hst.deliver hab hnext
    | handlerReturns p err =>
        obtain rfl : err = false := hact
        exact hst.handlerReturns hab hnext
    | finish p shuffle => exact hst.finish hab hnext
    | _ => exact hact.elim

end Network

/-- In every quiet state of an exchange both nodes have the same sequence map
and the same rumors, and these are the longer ones of the start. -/
theorem exchange_converges {a b : P} (hab : a ≠ b) {start st : Network P M}
    (hstart : start.StartsExchange a b)
    (h : (gossipFrom start).ReachableUnder Network.Exchanges st) (hquiet : st.Quiet) (o : P) :
    (st.nodes a).rumorsHandler.sequenceMap.lookup o =
        (st.nodes b).rumorsHandler.sequenceMap.lookup o ∧
      (st.nodes a).rumorsHandler.rumors.lookup o =
        (st.nodes b).rumorsHandler.rumors.lookup o ∧
      (st.nodes a).rumorsHandler.sequenceMap.get o =
        max ((start.nodes a).rumorsHandler.sequenceMap.get o)
          ((start.nodes b).rumorsHandler.sequenceMap.get o) ∧
      (st.nodes a).rumorsHandler.rumors.get o =
        longer ((start.nodes a).rumorsHandler.rumors.get o)
          ((start.nodes b).rumorsHandler.rumors.get o) := by
  have hpair : Partners a b a b := .inl ⟨rfl, rfl⟩
  have hbegin := hstart.exchange
  have hend := Network.exchange_of_reachable hab hstart h
  have hknow : (st.nodes a).rumorsHandler.sequenceMap.get o =
      (st.nodes b).rumorsHandler.sequenceMap.get o := hend.quiet hquiet o
  have hgrowna : (start.nodes a).rumorsHandler.sequenceMap.get o ≤
      (st.nodes a).rumorsHandler.sequenceMap.get o := hend.grown a b hpair o
  have hgrownb : (start.nodes b).rumorsHandler.sequenceMap.get o ≤
      (st.nodes b).rumorsHandler.sequenceMap.get o := hend.grown b a hpair.symm o
  have hlength : (start.target a b o).length =
      max ((start.nodes a).rumorsHandler.sequenceMap.get o)
        ((start.nodes b).rumorsHandler.sequenceMap.get o) := by
    rw [← (hbegin.inOrder a b hpair).length o, ← (hbegin.inOrder b a hpair.symm).length o]
    unfold Network.target longer
    split <;> omega
  have hrumorsa : (st.nodes a).rumorsHandler.rumors.get o = start.target a b o := by
    apply (hend.prefixes a b hpair o).eq_of_length_le
    rw [hlength, (hend.inOrder a b hpair).length o]
    omega
  have hrumorsb : (st.nodes b).rumorsHandler.rumors.get o = start.target a b o := by
    apply (hend.prefixes b a hpair.symm o).eq_of_length_le
    rw [hlength, (hend.inOrder b a hpair.symm).length o]
    omega
  have htighta := hend.tight a b hpair
  have htightb := hend.tight b a hpair.symm
  refine ⟨htighta.lookup_sequenceMap htightb hknow,
    htighta.lookup_rumors htightb (hrumorsa.trans hrumorsb.symm), ?_, hrumorsa⟩
  rw [← (hend.inOrder a b hpair).length o, hrumorsa, hlength]

/-- Node 0 has created a rumor; node 1 has sent it an empty status. -/
def catchUpStart : Network (Fin 2) Unit where
  nodes p := { Node.new p with
    routingTable := (Node.new (M := Unit) p).routingTable.addEntries [1 - p]
    rumorsHandler := if p = 0 then (RumorsHandler.new.createRumorsMsg 0 ()).2 else .new }
  packets := [⟨⟨0, 1, 1, 0⟩, .status ∅⟩]
  nextID := 1

theorem catchUpStart_startsExchange : catchUpStart.StartsExchange 1 0 := by
  constructor
  · rintro x y (⟨rfl, rfl⟩ | ⟨rfl, rfl⟩)
    · exact ⟨_, .init, rfl⟩
    · exact ⟨_, .step (a := .createRumorsMsg ()) .init trivial rfl, rfl⟩
  · exact fun o => .inl List.nil_prefix
  · rintro x y (⟨rfl, rfl⟩ | ⟨rfl, rfl⟩)
    · exact fun k => List.mem_singleton
    · exact fun k => List.mem_singleton
  · exact fun p => rfl
  · exact ⟨0, rfl⟩

/-- Node 0 answers with its rumor, and the acknowledgement of node 1 ends the
exchange. -/
theorem exchange_converges_of_catchUp :
    ∃ st, (gossipFrom catchUpStart).ReachableUnder Network.Exchanges st ∧ st.Quiet ∧
      (st.nodes 1).rumorsHandler.sequenceMap.get 0 = 1 := by
  obtain ⟨st, hst, hnil, hidle⟩ := TransitionSystem.exists_of_replay
    (S := gossipFrom catchUpStart) Network.Exchanges
    [.deliver 0 ⟨[0], false, [1]⟩, .deliver 0 ⟨[], false, [0]⟩, .handlerReturns 1 false,
      .finish 1 [0], .deliver 0 ⟨[0], false, [1]⟩]
    (fun st => st.packets.length = 0 ∧ ∀ p, (st.nodes p).listener.isNone) (by decide +kernel)
  have hquiet : st.Quiet :=
    ⟨List.length_eq_zero_iff.mp hnil, fun p => Option.isNone_iff_eq_none.mp (hidle p)⟩
  refine ⟨st, hst, hquiet, ?_⟩
  rw [(exchange_converges (by decide) catchUpStart_startsExchange hst hquiet 0).2.2.1]
  rfl

end Minotor.Gossip
