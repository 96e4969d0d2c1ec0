import Minotor.Gossip.Network
import Mathlib.Data.List.Chain
import Mathlib.Logic.Function.Basic

/-!
# Steps of a gossiping network

Every rumors message in the network lists consecutive rumors of one origin,
all of which the node that relays it has processed.  A step changes one node;
its tables stay as they are, get new peers, an own rumor, or a rumor which a
packet carries.
-/

namespace Minotor.Gossip

variable {P M : Type*}

namespace Rumor

/-- `r'` is the next rumor of the origin of `r`. -/
def Follows (r r' : Rumor P M) : Prop :=
  r'.origin = r.origin ∧ r'.sequence = r.sequence + 1

/-- `r'` is a later rumor of the origin of `r`. -/
def Before (r r' : Rumor P M) : Prop :=
  r'.origin = r.origin ∧ r.sequence < r'.sequence

theorem Follows.before {r r' : Rumor P M} (h : r.Follows r') : r.Before r' :=
  ⟨h.1, by rw [h.2]; exact Nat.lt_succ_self _⟩

theorem before_of_isChain {rumors : List (Rumor P M)} (h : rumors.IsChain Follows) :
    rumors.Pairwise Before := by
  have htrans : IsTrans (Rumor P M) Before := by
    constructor
    intro a b c hab hbc
    exact ⟨hbc.1.trans hab.1, hab.2.trans hbc.2⟩
  exact List.isChain_iff_pairwise.mp (h.imp fun _ _ hab => hab.before)

end Rumor

/-- A list of rumors which `relay` may send, where `know` tells how many rumors
of an origin a node has processed. -/
structure Carried (know : P → P → ℕ) (relay : P) (rumors : List (Rumor P M)) : Prop where
  chain : rumors.IsChain Rumor.Follows
  known : ∀ r ∈ rumors, 0 < r.sequence ∧ r.sequence ≤ know relay r.origin

/-- A packet with rumors is one which its relay may send. -/
def Packet.Carried (know : P → P → ℕ) (pkt : Packet P M) : Prop :=
  ∀ rumors, pkt.msg = .rumors rumors → Gossip.Carried know pkt.header.relayedBy rumors

section

variable {know know' : P → P → ℕ} {relay : P} {rumors : List (Rumor P M)}

theorem Carried.mono (h : Carried know relay rumors)
    (hle : ∀ p o, know p o ≤ know' p o) : Carried know' relay rumors where
  chain := h.chain
  known r hr := ⟨(h.known r hr).1, (h.known r hr).2.trans (hle _ _)⟩

theorem Packet.Carried.mono {pkt : Packet P M} (h : pkt.Carried know)
    (hle : ∀ p o, know p o ≤ know' p o) : pkt.Carried know' :=
  fun rumors hmsg => (h rumors hmsg).mono hle

end

variable [DecidableEq P]

namespace RumorsHandler

variable {rH rH' : RumorsHandler P M} {m : Rumor P M} {sm : SequenceMap P} {order : List P}

theorem InOrder.isChain (h : rH.InOrder) (o : P) :
    (rH.rumors.get o).IsChain Rumor.Follows := by
  rw [List.isChain_iff_getElem]
  intro i hi
  have hfst := h.getElem? (List.getElem?_eq_getElem (Nat.lt_of_succ_lt hi))
  have hsnd := h.getElem? (List.getElem?_eq_getElem hi)
  exact ⟨hsnd.1.trans hfst.1.symm, by rw [hsnd.2, hfst.2]⟩

theorem InOrder.mem (h : rH.InOrder) {o : P} (hm : m ∈ rH.rumors.get o) :
    m.origin = o ∧ 0 < m.sequence ∧ m.sequence ≤ rH.sequenceMap.get o := by
  obtain ⟨i, hi⟩ := List.getElem?_of_mem hm
  obtain ⟨horigin, hsequence⟩ := h.getElem? hi
  have hlt := (List.getElem?_eq_some_iff.mp hi).1
  rw [h.length o] at hlt
  exact ⟨horigin, by omega, by omega⟩

/-- An answer is the rest of the rumors of one origin of which the remote node
has fewer. -/
theorem InOrder.getRemoteMissingRumors_cases (h : rH.InOrder) {rumors : List (Rumor P M)}
    (hrumors : rH.getRemoteMissingRumors sm order = some rumors) :
    (∃ o, sm.get o < rH.sequenceMap.get o ∧
      rumors = (rH.rumors.get o).drop (sm.get o)) ∨
    rumors = [] ∧ ∀ o ∈ order, rH.sequenceMap.get o ≤ sm.get o := by
  induction order with
  | nil =>
      right
      exact ⟨(Option.some.inj hrumors).symm, fun o ho => absurd ho List.not_mem_nil⟩
  | cons a rest ih =>
      unfold RumorsHandler.getRemoteMissingRumors at hrumors
      by_cases hlt : sm.get a < rH.sequenceMap.get a
      · rw [if_pos hlt, sliceFrom, if_pos (by rw [h.length a]; exact hlt.le)] at hrumors
        left
        exact ⟨a, hlt, (Option.some.inj hrumors).symm⟩
      · rw [if_neg hlt] at hrumors
        rcases ih hrumors with hsome | ⟨hnil, hle⟩
        · exact .inl hsome
        · right
          refine ⟨hnil, ?_⟩
          intro o ho
          rcases List.mem_cons.mp ho with rfl | ho
          · exact Nat.le_of_not_lt hlt
          · exact hle o ho

end RumorsHandler

/-! ## Progress of the listening routine -/

/-- How much of its message a call of `ExecRumorsMessage` has processed. -/
def ExecRumors.Progress (rH : RumorsHandler P M) (l : ExecRumors P M) : Prop :=
  match l.pc with
  | .handling m rest =>
      m.sequence ≤ rH.sequenceMap.get m.origin ∧ ∃ pre, l.rumors = pre ++ m :: rest
  | .returned true => ∀ r ∈ l.rumors, r.sequence ≤ rH.sequenceMap.get r.origin
  | .returned false => True

theorem ExecRumors.Progress.mono {rH rH' : RumorsHandler P M} {l : ExecRumors P M}
    (h : l.Progress rH) (hle : ∀ o, rH.sequenceMap.get o ≤ rH'.sequenceMap.get o) :
    l.Progress rH' := by
  unfold ExecRumors.Progress at h ⊢
  split at h
  · exact ⟨h.1.trans (hle _), h.2⟩
  · exact fun r hr => (h r hr).trans (hle _)
  · trivial

namespace RumorsHandler

variable {rH : RumorsHandler P M}

/-- Behind a known rumor, rumors which are not next are known. -/
theorem le_of_not_isNext {m : Rumor P M} {rest : List (Rumor P M)}
    (hchain : (m :: rest).IsChain Rumor.Follows)
    (hm : m.sequence ≤ rH.sequenceMap.get m.origin) (hskip : ∀ r ∈ rest, ¬ rH.IsNext r) :
    ∀ r ∈ rest, r.sequence ≤ rH.sequenceMap.get r.origin := by
  induction rest generalizing m with
  | nil =>
      intro r hr
      exact absurd hr List.not_mem_nil
  | cons a rest ih =>
      rw [List.isChain_cons_cons] at hchain
      have hnot : a.sequence ≠ rH.sequenceMap.get a.origin + 1 :=
        hskip a List.mem_cons_self
      have ha : a.sequence ≤ rH.sequenceMap.get a.origin := by
        rw [← hchain.1.1] at hm
        have hsucc := hchain.1.2
        omega
      intro r hr
      rcases List.mem_cons.mp hr with rfl | hr
      · exact ha
      · exact ih hchain.2 ha (fun r hr => hskip r (List.mem_cons_of_mem a hr)) r hr

/-- A section of `processRumors` which starts behind a known rumor, or with
nothing processed. -/
theorem processRumors_progress {header : Header P} {rumors pre rest : List (Rumor P M)}
    {processedRumor : Bool} (hchain : rumors.IsChain Rumor.Follows)
    (hsplit : rumors = pre ++ rest)
    (hpre : processedRumor = true →
      ∃ pre' m, pre = pre' ++ [m] ∧ m.sequence ≤ rH.sequenceMap.get m.origin) :
    ExecRumors.Progress (rH.processRumors processedRumor rest).2
      ⟨header, rumors, (rH.processRumors processedRumor rest).1⟩ := by
  rcases rH.processRumors_cases processedRumor rest with
    ⟨skipped, m, rest', rfl, _, _, heq⟩ | ⟨hskip, heq⟩
  · rw [heq]
    constructor
    · rw [put_sequence, if_pos rfl]
    · exact ⟨pre ++ skipped, by rw [List.append_assoc]; exact hsplit⟩
  · rw [heq]
    cases processedRumor with
    | false => trivial
    | true =>
        obtain ⟨pre', m, rfl, hm⟩ := hpre rfl
        rw [List.append_assoc, List.singleton_append] at hsplit
        have hbefore := Rumor.before_of_isChain hchain
        rw [hsplit, List.pairwise_append] at hbefore
        have hrest := le_of_not_isNext
          (hchain.suffix (hsplit ▸ List.suffix_append pre' _)) hm hskip
        intro r hr
        change r ∈ rumors at hr
        rw [hsplit, List.mem_append, List.mem_cons] at hr
        rcases hr with hr | rfl | hr
        · have hrm := hbefore.2.2 r hr m List.mem_cons_self
          rw [← hrm.1]
          exact hrm.2.le.trans hm
        · exact hm
        · exact hrest r hr

end RumorsHandler

/-! ## Steps of a node -/

namespace Node

/-- How many rumors of an origin a node has processed. -/
def know (n : Node P M) (o : P) : ℕ := n.rumorsHandler.sequenceMap.get o

/-- What a step does to the tables of a node. -/
inductive Updates (myAddr : P) (know : P → P → ℕ) (n n' : Node P M) : Prop where
  | keeps (hrt : n'.routingTable = n.routingTable)
      (hrH : n'.rumorsHandler = n.rumorsHandler)
  | addPeer (addr : List P) (hrt : n'.routingTable = n.routingTable.addEntries addr)
      (hrH : n'.rumorsHandler = n.rumorsHandler)
  | created (msg : M) (hrt : n'.routingTable = n.routingTable)
      (hrH : n'.rumorsHandler = (n.rumorsHandler.createRumorsMsg myAddr msg).2)
  | accepted (m : Rumor P M) (relay : P) (hnext : n.rumorsHandler.IsNext m)
      (hknown : m.sequence ≤ know relay m.origin)
      (hrt : n'.routingTable = n.routingTable.updateRT m.origin relay)
      (hrH : n'.rumorsHandler = n.rumorsHandler.put m)

/-- The rumors of a node are in order, its `waitAck` routines resend what a
relay may send, and its listening routine works on such a message. -/
structure Sound (know : P → P → ℕ) (n : Node P M) : Prop where
  inOrder : n.rumorsHandler.InOrder
  waits : ∀ w ∈ n.waits, w.pkt.Carried know
  listener : ∀ l, n.listener = some l →
    Carried know l.header.relayedBy l.rumors ∧ l.Progress n.rumorsHandler

/-- `n` becomes `n'` and sends packets. -/
structure Takes (myAddr : P) (know : P → P → ℕ) (n n' : Node P M)
    (sent : List (Packet P M)) : Prop where
  updates : n.Updates myAddr know n'
  sound : n'.Sound (Function.update know myAddr n'.know)
  sent : ∀ pkt ∈ sent, pkt.Carried (Function.update know myAddr n'.know)

variable {myAddr : P} {know know' : P → P → ℕ} {n n' : Node P M} {id : ℕ}
  {c : Choices P} {sent : List (Packet P M)}

theorem Updates.inOrder (h : n.Updates myAddr know n') (hn : n.rumorsHandler.InOrder) :
    n'.rumorsHandler.InOrder := by
  cases h with
  | keeps _ hrH => exact hrH ▸ hn
  | addPeer _ _ hrH => exact hrH ▸ hn
  | created msg _ hrH => exact hrH ▸ hn.createRumorsMsg myAddr msg
  | accepted m _ hnext _ _ hrH => exact hrH ▸ hn.put hnext

theorem Updates.know_le (h : n.Updates myAddr know n') (o : P) : n.know o ≤ n'.know o := by
  unfold Node.know
  cases h with
  | keeps _ hrH => rw [hrH]
  | addPeer _ _ hrH => rw [hrH]
  | created msg _ hrH =>
      rw [hrH, RumorsHandler.createRumorsMsg_snd]
      have hnext : n.rumorsHandler.IsNext
          ⟨myAddr, n.rumorsHandler.sequenceMap.get myAddr + 1, msg⟩ := rfl
      exact hnext.sequence_le o
  | accepted m _ hnext _ _ hrH =>
      rw [hrH]
      exact hnext.sequence_le o

/-- Knowledge grows in a step. -/
theorem Updates.le_update (h : n.Updates myAddr know n') (hown : know myAddr = n.know)
    (p o : P) : know p o ≤ Function.update know myAddr n'.know p o := by
  by_cases hp : p = myAddr
  · rw [hp, Function.update_self, hown]
    exact h.know_le o
  · rw [Function.update_of_ne hp]

theorem Sound.mono (h : n.Sound know) (hle : ∀ p o, know p o ≤ know' p o) :
    n.Sound know' where
  inOrder := h.inOrder
  waits w hw := (h.waits w hw).mono hle
  listener l hl := ⟨(h.listener l hl).1.mono hle, (h.listener l hl).2⟩

/-- A step which leaves the tables as they are. -/
theorem Sound.keeps (h : n.Sound know) (hown : know myAddr = n.know)
    (hrt : n'.routingTable = n.routingTable) (hrH : n'.rumorsHandler = n.rumorsHandler)
    (hwaits : ∀ w ∈ n'.waits, w.pkt.Carried know)
    (hlistener : ∀ l, n'.listener = some l → n.listener = some l)
    (hsent : ∀ pkt ∈ sent, pkt.Carried know) : n.Takes myAddr know n' sent := by
  have hknow : Function.update know myAddr n'.know = know := by
    have hn : n'.know = know myAddr := by
      rw [hown]
      unfold Node.know
      rw [hrH]
    rw [hn, Function.update_eq_self]
  constructor
  · exact .keeps hrt hrH
  · rw [hknow]
    refine ⟨hrH ▸ h.inOrder, hwaits, ?_⟩
    intro l hl
    rw [hrH]
    exact h.listener l (hlistener l hl)
  · rw [hknow]
    exact hsent

theorem Sound.addPeer (h : n.Sound know) (hown : know myAddr = n.know) (addr : List P) :
    n.Takes myAddr know { n with routingTable := n.routingTable.addEntries addr } [] := by
  have hupdates : n.Updates myAddr know
      { n with routingTable := n.routingTable.addEntries addr } := .addPeer addr rfl rfl
  have hle := hupdates.le_update hown
  constructor
  · exact hupdates
  · constructor
    · exact h.inOrder
    · exact fun w hw => (h.waits w hw).mono hle
    · exact fun l hl => ⟨(h.listener l hl).1.mono hle, (h.listener l hl).2⟩
  · exact fun pkt hpkt => absurd hpkt List.not_mem_nil

theorem Sound.broadcast (h : n.Sound know) (hown : know myAddr = n.know) (msg : M)
    (shuffle : List P) :
    n.Takes myAddr know (n.broadcast myAddr id msg shuffle).1
      (n.broadcast myAddr id msg shuffle).2 := by
  have hupdates : n.Updates myAddr know (n.broadcast myAddr id msg shuffle).1 := by
    unfold Node.broadcast
    simp only
    split <;> exact .created msg rfl rfl
  have hle := hupdates.le_update hown
  have hknow : (n.broadcast myAddr id msg shuffle).1.know myAddr = n.know myAddr + 1 := by
    unfold Node.broadcast Node.know
    simp only
    split <;> simp [RumorsHandler.put_sequence]
  -- the packet holds the new rumor, which its creator knows
  have hpkt : ∀ header : Header P, header.relayedBy = myAddr →
      Packet.Carried (Function.update know myAddr (n.broadcast myAddr id msg shuffle).1.know)
        ⟨header, .rumors (n.rumorsHandler.createRumorsMsg myAddr msg).1⟩ := by
    rintro header hrelay rumors ⟨⟩
    constructor
    · exact List.isChain_singleton _
    · intro r hr
      obtain rfl := List.mem_singleton.mp hr
      refine ⟨Nat.succ_pos _, ?_⟩
      simp only
      rw [hrelay, Function.update_self, hknow]
      exact le_rfl
  have hlistener : (n.broadcast myAddr id msg shuffle).1.listener = n.listener := by
    unfold Node.broadcast
    simp only
    split <;> rfl
  constructor
  · exact hupdates
  · constructor
    · exact hupdates.inOrder h.inOrder
    · intro w hw
      unfold Node.broadcast at hw
      simp only at hw
      split at hw
      · exact (h.waits w hw).mono hle
      · rcases List.mem_append.mp hw with hw | hw
        · exact (h.waits w hw).mono hle
        · obtain rfl := List.mem_singleton.mp hw
          exact hpkt _ rfl
    · intro l hl
      rw [hlistener] at hl
      exact ⟨(h.listener l hl).1.mono hle, (h.listener l hl).2.mono hupdates.know_le⟩
  · intro pkt hmem
    unfold Node.broadcast at hmem
    simp only at hmem
    split at hmem
    · exact absurd hmem List.not_mem_nil
    · obtain rfl := List.mem_singleton.mp hmem
      exact hpkt _ rfl

theorem Sound.createChannel (h : n.Sound know) (hown : know myAddr = n.know) {i : ℕ}
    (hn : n.createChannel i = some n') : n.Takes myAddr know n' [] := by
  obtain ⟨w, hw, rfl⟩ := createChannel_eq hn
  refine h.keeps hown rfl rfl ?_ (fun l hl => hl) ?_
  · intro v hv
    rcases List.mem_or_eq_of_mem_set hv with hv | rfl
    · exact h.waits v hv
    · exact h.waits w (List.mem_of_getElem? hw)
  · exact fun pkt hpkt => absurd hpkt List.not_mem_nil

theorem Sound.waitAck (h : n.Sound know) (hown : know myAddr = n.know) {i : ℕ}
    (hn : n.waitAck i = some (n', sent)) : n.Takes myAddr know n' sent := by
  obtain ⟨w, hw, ⟨rfl, rfl⟩ | ⟨dest, pkt, _, _, rfl, rfl, rfl⟩⟩ := waitAck_cases hn
  · refine h.keeps hown rfl rfl ?_ (fun l hl => hl) ?_
    · exact fun v hv => h.waits v (List.mem_of_mem_eraseIdx hv)
    · exact fun pkt hpkt => absurd hpkt List.not_mem_nil
  · have hwmem : w ∈ n.waits := List.mem_of_getElem? hw
    refine h.keeps hown rfl rfl ?_ (fun l hl => hl) ?_
    · intro v hv
      rcases List.mem_or_eq_of_mem_set hv with hv | rfl
      · exact h.waits v hv
      · exact h.waits w hwmem
    · intro pkt hpkt
      obtain rfl := List.mem_singleton.mp hpkt
      exact h.waits w hwmem

/-- A section of `processRumors` in the listening routine. -/
theorem Sound.processRumors (h : n.Sound know) (hown : know myAddr = n.know)
    {header : Header P} {rumors rest : List (Rumor P M)} (pre : List (Rumor P M))
    {processedRumor : Bool}
    (hcarried : Carried know header.relayedBy rumors) (hsplit : rumors = pre ++ rest)
    (hpre : processedRumor = true →
      ∃ pre' m, pre = pre' ++ [m] ∧ m.sequence ≤ n.know m.origin) :
    n.Takes myAddr know (n.processRumors header rumors processedRumor rest) [] := by
  have hupdates : n.Updates myAddr know
      (n.processRumors header rumors processedRumor rest) := by
    unfold Node.processRumors
    rcases n.rumorsHandler.processRumors_cases processedRumor rest with
      ⟨skipped, m, rest', hrest, _, hnext, heq⟩ | ⟨_, heq⟩
    · rw [heq]
      refine .accepted m header.relayedBy hnext ?_ rfl rfl
      apply (hcarried.known m _).2
      rw [hsplit, hrest]
      simp
    · rw [heq]
      exact .keeps rfl rfl
  have hle := hupdates.le_update hown
  constructor
  · exact hupdates
  · constructor
    · exact hupdates.inOrder h.inOrder
    · exact fun w hw => (h.waits w hw).mono hle
    · intro l hl
      obtain rfl := Option.some.inj hl
      exact ⟨hcarried.mono hle,
        RumorsHandler.processRumors_progress hcarried.chain hsplit hpre⟩
  · exact fun pkt hpkt => absurd hpkt List.not_mem_nil

theorem Sound.handlerReturns (h : n.Sound know) (hown : know myAddr = n.know) {err : Bool}
    (hn : n.handlerReturns err = some n') : n.Takes myAddr know n' [] := by
  obtain ⟨header, rumors, m, rest, hlistener, hcases⟩ := handlerReturns_cases hn
  obtain ⟨hcarried, hm, pre, hsplit⟩ := h.listener _ hlistener
  rcases hcases with ⟨-, rfl⟩ | ⟨-, rfl⟩
  · refine h.keeps hown rfl rfl h.waits ?_ ?_
    · exact fun l hl => absurd hl (by simp)
    · exact fun pkt hpkt => absurd hpkt List.not_mem_nil
  · apply h.processRumors hown (pre ++ [m]) hcarried
    · rw [List.append_assoc]
      exact hsplit
    · exact fun _ => ⟨pre, m, rfl, hm⟩

theorem Sound.finish (h : n.Sound know) (hown : know myAddr = n.know) {shuffle : List P}
    (hn : n.finish myAddr id shuffle = some (n', sent)) : n.Takes myAddr know n' sent := by
  obtain ⟨header, rumors, discovered, hlistener, rfl, -, hsent⟩ := finish_cases hn
  obtain ⟨hcarried, hprogress⟩ := h.listener _ hlistener
  refine h.keeps hown rfl rfl h.waits ?_ ?_
  · exact fun l hl => absurd hl (by simp)
  · intro pkt hpkt
    rcases hsent pkt hpkt with rfl | ⟨dest, rfl, -, rfl⟩
    · exact fun rumors hmsg => nomatch hmsg
    · rintro rumors' ⟨⟩
      refine ⟨hcarried.chain, fun r hr => ⟨(hcarried.known r hr).1, ?_⟩⟩
      rw [hown]
      exact hprogress r hr

theorem Sound.execStatusMessage (h : n.Sound know) (hown : know myAddr = n.know)
    {source : P} {status : SequenceMap P}
    (hn : n.execStatusMessage myAddr id source status c = some sent) :
    ∀ pkt ∈ sent, pkt.Carried know := by
  obtain ⟨missing, hmissing, hsent⟩ := mem_execStatusMessage hn
  intro pkt hpkt rumors hmsg
  rcases hsent pkt hpkt with rfl | ⟨hne, rfl⟩ | ⟨dest, -, rfl⟩
  · cases hmsg
  · cases hmsg
    rcases h.inOrder.getRemoteMissingRumors_cases hmissing with ⟨o, _, rfl⟩ | ⟨hnil, _⟩
    · constructor
      · exact (h.inOrder.isChain o).drop _
      · intro r hr
        obtain ⟨rfl, hpos, hle⟩ := h.inOrder.mem (List.mem_of_mem_drop hr)
        refine ⟨hpos, ?_⟩
        simp only
        rw [hown]
        exact hle
    · exact absurd hnil hne
  · cases hmsg

theorem Sound.handleStatus (h : n.Sound know) (hown : know myAddr = n.know)
    (source : P) (status : SequenceMap P) (c : Choices P) :
    n.Takes myAddr know (n.handleStatus myAddr id source status c).1
      (n.handleStatus myAddr id source status c).2 := by
  unfold Node.handleStatus
  split
  · refine h.keeps hown rfl rfl h.waits (fun l hl => hl) ?_
    exact fun pkt hpkt => absurd hpkt List.not_mem_nil
  · next packets hpackets =>
      exact h.keeps hown rfl rfl h.waits (fun l hl => hl)
        (h.execStatusMessage hown hpackets)

theorem Sound.receive (h : n.Sound know) (hown : know myAddr = n.know)
    {pkt : Packet P M} (hpkt : pkt.Carried know) (c : Choices P) :
    n.Takes myAddr know (n.receive myAddr id pkt c).1 (n.receive myAddr id pkt c).2 := by
  have hnil : ∀ pkt ∈ ([] : List (Packet P M)), pkt.Carried know :=
    fun pkt hpkt => absurd hpkt List.not_mem_nil
  unfold Node.receive
  split
  · next rumors hmsg =>
      split
      · exact h.keeps hown rfl rfl h.waits (fun l hl => hl) hnil
      · exact h.processRumors hown [] (hpkt rumors hmsg) rfl nofun
  · exact h.handleStatus hown _ _ c
  · next status _ =>
    -- the closed channel is in no table
    have hsame : Node.Sound know
        { n with acksHandler := n.acksHandler.erase pkt.header.packetID } :=
      ⟨h.inOrder, h.waits, h.listener⟩
    unfold Node.handleStatus
    split
    · exact h.keeps hown rfl rfl h.waits (fun l hl => hl) hnil
    · next packets hpackets =>
        exact h.keeps hown rfl rfl h.waits (fun l hl => hl)
          (hsame.execStatusMessage hown hpackets)

end Node

/-! ## Steps of a network -/

namespace Network

variable {st st' : Network P M} {a : Action P M}

/-- How many rumors of an origin a node has processed. -/
def know (st : Network P M) (p o : P) : ℕ := (st.nodes p).know o

structure Sound (st : Network P M) : Prop where
  nodes : ∀ p, (st.nodes p).Sound st.know
  packets : ∀ pkt ∈ st.packets, pkt.Carried st.know

theorem know_eq_update {p : P} {n : Node P M}
    (h : st'.nodes = Function.update st.nodes p n) :
    st'.know = Function.update st.know p n.know := by
  funext q
  by_cases hq : q = p
  · rw [hq, Function.update_self]
    unfold Network.know
    rw [h, Function.update_self]
  · rw [Function.update_of_ne hq]
    unfold Network.know
    rw [h, Function.update_of_ne hq]

/-- A step of a network is a step of one node. -/
theorem Sound.next (h : st.Sound) (hnext : st.next a = some st') :
    ∃ p n sent, st'.nodes = Function.update st.nodes p n ∧
      (st.nodes p).Takes p st.know n sent ∧
      ∀ pkt ∈ st'.packets, pkt ∈ st.packets ∨ pkt ∈ sent := by
  have hnil : ∀ pkt ∈ ([] : List (Packet P M)), pkt.Carried st.know :=
    fun pkt hpkt => absurd hpkt List.not_mem_nil
  have hput : ∀ {p n sent}, st' = st.put p n sent → (st.nodes p).Takes p st.know n sent →
      ∃ p n sent, st'.nodes = Function.update st.nodes p n ∧
        (st.nodes p).Takes p st.know n sent ∧
        ∀ pkt ∈ st'.packets, pkt ∈ st.packets ∨ pkt ∈ sent := by
    rintro p n sent rfl htakes
    exact ⟨p, n, sent, rfl, htakes, fun pkt hpkt => List.mem_append.mp hpkt⟩
  cases step_of_next hnext with
  | addPeer p addr => exact hput rfl ((h.nodes p).addPeer rfl addr)
  | broadcast p msg shuffle _ => exact hput rfl ((h.nodes p).broadcast rfl msg shuffle)
  | createChannel p i n hn => exact hput rfl ((h.nodes p).createChannel rfl hn)
  | waitAck p i n sent hn => exact hput rfl ((h.nodes p).waitAck rfl hn)
  | deliver i c pkt hpkt =>
      refine ⟨pkt.header.destination, _, _, rfl,
        (h.nodes _).receive rfl (h.packets pkt (List.mem_of_getElem? hpkt)) c, ?_⟩
      intro pkt' hpkt'
      rcases List.mem_append.mp hpkt' with hpkt' | hpkt'
      · exact .inl (List.mem_of_mem_eraseIdx hpkt')
      · exact .inr hpkt'
  | handlerReturns p err n hn => exact hput rfl ((h.nodes p).handlerReturns rfl hn)
  | finish p shuffle n sent _ hn => exact hput rfl ((h.nodes p).finish rfl hn)
  | execStatus p source status c sent _ hsent =>
      exact hput rfl ((h.nodes p).keeps rfl rfl rfl (h.nodes p).waits
        (fun l hl => hl) ((h.nodes p).execStatusMessage rfl hsent))
  | drop i pkt _ =>
      refine ⟨pkt.header.destination, _, [], (Function.update_eq_self _ _).symm,
        (h.nodes _).keeps rfl rfl rfl (h.nodes _).waits (fun l hl => hl) hnil, ?_⟩
      exact fun pkt hpkt => .inl (List.mem_of_mem_eraseIdx hpkt)
  | stop p =>
      exact hput rfl ((h.nodes p).keeps rfl rfl rfl (h.nodes p).waits (fun l hl => hl) hnil)
  | closeAcks p _ =>
      exact hput rfl ((h.nodes p).keeps rfl rfl rfl (h.nodes p).waits (fun l hl => hl) hnil)

theorem Sound.step (h : st.Sound) (hnext : st.next a = some st') : st'.Sound := by
  obtain ⟨p, n, sent, hnodes, htakes, hpackets⟩ := h.next hnext
  have hle : ∀ q o, st.know q o ≤ st'.know q o := by
    rw [know_eq_update hnodes]
    exact htakes.updates.le_update rfl
  constructor
  · intro q
    by_cases hq : q = p
    · rw [hq, know_eq_update hnodes, hnodes, Function.update_self]
      exact htakes.sound
    · rw [hnodes, Function.update_of_ne hq]
      exact (h.nodes q).mono hle
  · intro pkt hpkt
    rcases hpackets pkt hpkt with hold | hnew
    · exact (h.packets pkt hold).mono hle
    · rw [know_eq_update hnodes]
      exact htakes.sent pkt hnew

theorem sound_initial : (initial : Network P M).Sound where
  nodes _ := {
    inOrder := RumorsHandler.inOrder_new
    waits := fun _ hw => absurd hw List.not_mem_nil
    listener := nofun }
  packets _ hpkt := absurd hpkt List.not_mem_nil

theorem sound_of_reachable (h : gossip.Reachable st) : st.Sound := by
  apply h.invariant
  · exact sound_initial
  · intro st st' a _ hst _ hnext
    exact hst.step hnext

end Network
end Minotor.Gossip
