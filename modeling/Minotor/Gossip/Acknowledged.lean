import Minotor.Gossip.Network
import Minotor.Support.TransitionSystem
import Mathlib.Logic.Function.Basic

/-!
# Acknowledged packets

Every packet which a node creates has an ID of its own.  The handler of an
acknowledgement closes the channel with the ID of the acknowledgement, under
which no `waitAck` routine waits, and not the one with the ID which it
acknowledges.  A routine therefore goes on until it has tried all neighbours or
the node is stopped.
-/

namespace Minotor.Gossip

variable {P M : Type*}

/-- The packet is an acknowledgement. -/
def Packet.IsAck (pkt : Packet P M) : Prop :=
  ∃ id status, pkt.msg = .ack id status

/-- The packet uses IDs below `k`. -/
structure Packet.Numbered (k : ℕ) (pkt : Packet P M) : Prop where
  packetID : pkt.header.packetID < k
  acked : ∀ id status, pkt.msg = .ack id status → id < k

theorem Packet.Numbered.mono {k k' : ℕ} {pkt : Packet P M} (h : pkt.Numbered k)
    (hle : k ≤ k') : pkt.Numbered k' where
  packetID := h.packetID.trans_le hle
  acked id status hmsg := (h.acked id status hmsg).trans_le hle

/-- `w` becomes `w'`. -/
structure WaitAck.Continues (w w' : WaitAck P M) : Prop where
  packetID : w'.pkt.header.packetID = w.pkt.header.packetID
  neighbours : w'.neighbours = w.neighbours
  tried : w.sentRumorNeighbours ⊆ w'.sentRumorNeighbours

theorem WaitAck.Continues.refl (w : WaitAck P M) : w.Continues w := ⟨rfl, rfl, fun _ => id⟩

namespace Node

/-- The node uses IDs below `k`, and while it runs, the channel of every routine
which waits is open. -/
structure Numbered (k : ℕ) (n : Node P M) : Prop where
  waits : ∀ w ∈ n.waits, w.pkt.header.packetID < k
  rumors : ∀ w ∈ n.waits, ¬w.pkt.IsAck
  listener : ∀ l, n.listener = some l → l.header.packetID < k
  channel : n.run = true → ∀ w ∈ n.waits, w.waiting = true →
    w.pkt.header.packetID ∈ n.acksHandler

/-- A step which may draw the three IDs from `k` on. -/
structure Draws (k : ℕ) (n n' : Node P M) (sent : List (Packet P M)) : Prop where
  numbered : n'.Numbered (k + 3)
  packets : ∀ pkt ∈ sent, pkt.Numbered (k + 3)
  acks : ∀ pkt ∈ sent, pkt.IsAck → k ≤ pkt.header.packetID ∧
    ∀ w ∈ n'.waits, w.pkt.header.packetID < k
  waits : ∀ w' ∈ n'.waits, w'.pkt.header.packetID = k ∨ ∃ w ∈ n.waits, w.Continues w'

variable {k : ℕ} {n n' : Node P M} {sent : List (Packet P M)}

theorem Numbered.mono {k' : ℕ} (h : n.Numbered k) (hle : k ≤ k') : n.Numbered k' where
  waits w hw := (h.waits w hw).trans_le hle
  rumors := h.rumors
  listener l hl := (h.listener l hl).trans_le hle
  channel := h.channel

/-- A step which leaves the `waitAck` routines and their channels as they are. -/
theorem Numbered.keeps (h : n.Numbered k) (hwaits : n'.waits = n.waits)
    (hlistener : ∀ l, n'.listener = some l → l.header.packetID < k)
    (hrun : n'.run = true → n.run = true)
    (hchannel : n'.run = true → ∀ w ∈ n.waits, w.pkt.header.packetID ∈ n.acksHandler →
      w.pkt.header.packetID ∈ n'.acksHandler)
    (hsent : ∀ pkt ∈ sent, pkt.Numbered (k + 3))
    (hacks : ∀ pkt ∈ sent, pkt.IsAck → k ≤ pkt.header.packetID) :
    n.Draws k n' sent where
  numbered := {
    waits := fun w hw => (h.waits w (hwaits ▸ hw)).trans_le (Nat.le_add_right k 3)
    rumors := fun w hw => h.rumors w (hwaits ▸ hw)
    listener := fun l hl => (hlistener l hl).trans_le (Nat.le_add_right k 3)
    channel := by
      intro hrun' w hw hwaiting
      rw [hwaits] at hw
      exact hchannel hrun' w hw (h.channel (hrun hrun') w hw hwaiting) }
  packets := hsent
  acks pkt hpkt hack := ⟨hacks pkt hpkt hack, fun w hw => h.waits w (hwaits ▸ hw)⟩
  waits w' hw' := .inr ⟨w', hwaits ▸ hw', .refl w'⟩

/-- Every routine which waits for an acknowledgement of `id` ends with its next
turn and does not send its packet again. -/
def EndsWaiting [DecidableEq P] (n : Node P M) (id : ℕ) : Prop :=
  ∀ i w, n.waits[i]? = some w → w.pkt.header.packetID = id →
    ∀ n' sent, n.waitAck i = some (n', sent) → sent = [] ∧ n'.waits = n.waits.eraseIdx i

/-- Every routine which waits for an acknowledgement of `id` has sent its packet
to all its neighbours. -/
def Exhausted (n : Node P M) (id : ℕ) : Prop :=
  ∀ w ∈ n.waits, w.pkt.header.packetID = id → ∀ a ∈ w.neighbours, a ∈ w.sentRumorNeighbours

theorem Numbered.createChannel (h : n.Numbered k) {i : ℕ} (hn : n.createChannel i = some n') :
    n.Draws k n' [] := by
  have hle : k ≤ k + 3 := by omega
  obtain ⟨w, hw, rfl⟩ := createChannel_eq hn
  have hwmem := List.mem_of_getElem? hw
  constructor
  · constructor
    · intro v hv
      rcases List.mem_or_eq_of_mem_set hv with hv | rfl
      · exact (h.waits v hv).trans_le hle
      · exact (h.waits w hwmem).trans_le hle
    · intro v hv
      rcases List.mem_or_eq_of_mem_set hv with hv | rfl
      · exact h.rumors v hv
      · exact h.rumors w hwmem
    · exact fun l hl => (h.listener l hl).trans_le hle
    · intro hrun v hv hwaiting
      rcases List.mem_or_eq_of_mem_set hv with hv | rfl
      · exact List.mem_cons_of_mem _ (h.channel hrun v hv hwaiting)
      · exact List.mem_cons_self
  · exact fun pkt hpkt => absurd hpkt List.not_mem_nil
  · exact fun pkt hpkt => absurd hpkt List.not_mem_nil
  · intro v hv
    rcases List.mem_or_eq_of_mem_set hv with hv | rfl
    · exact .inr ⟨v, hv, .refl v⟩
    · exact .inr ⟨w, hwmem, rfl, rfl, fun _ => id⟩

variable [DecidableEq P]

theorem Numbered.broadcast (h : n.Numbered k) (myAddr : P) (msg : M) (shuffle : List P) :
    n.Draws k (n.broadcast myAddr k msg shuffle).1 (n.broadcast myAddr k msg shuffle).2 := by
  have hlt : k < k + 3 := by omega
  unfold Node.broadcast
  simp only
  split
  · refine h.keeps rfl h.listener (fun hrun => hrun) (fun _ w _ hmem => hmem) ?_ ?_
    · exact fun pkt hpkt => absurd hpkt List.not_mem_nil
    · exact fun pkt hpkt => absurd hpkt List.not_mem_nil
  · constructor
    · constructor
      · intro w hw
        rcases List.mem_append.mp hw with hw | hw
        · exact (h.waits w hw).trans hlt
        · obtain rfl := List.mem_singleton.mp hw
          exact hlt
      · intro w hw
        rcases List.mem_append.mp hw with hw | hw
        · exact h.rumors w hw
        · obtain rfl := List.mem_singleton.mp hw
          rintro ⟨id, status, hmsg⟩
          cases hmsg
      · exact fun l hl => (h.listener l hl).trans hlt
      · intro hrun w hw hwaiting
        rcases List.mem_append.mp hw with hw | hw
        · exact h.channel hrun w hw hwaiting
        · obtain rfl := List.mem_singleton.mp hw
          cases hwaiting
    · intro pkt hpkt
      obtain rfl := List.mem_singleton.mp hpkt
      exact ⟨hlt, fun id status hmsg => by cases hmsg⟩
    · rintro pkt hpkt ⟨id, status, hmsg⟩
      obtain rfl := List.mem_singleton.mp hpkt
      cases hmsg
    · intro w' hw'
      rcases List.mem_append.mp hw' with hw' | hw'
      · exact .inr ⟨w', hw', .refl w'⟩
      · obtain rfl := List.mem_singleton.mp hw'
        exact .inl rfl

theorem Numbered.waitAck (h : n.Numbered k) {i : ℕ} (hn : n.waitAck i = some (n', sent)) :
    n.Draws k n' sent := by
  have hle : k ≤ k + 3 := by omega
  -- a routine which ends
  have hends : n.Draws k { n with waits := n.waits.eraseIdx i } [] := by
    constructor
    · constructor
      · exact fun v hv => (h.waits v (List.mem_of_mem_eraseIdx hv)).trans_le hle
      · exact fun v hv => h.rumors v (List.mem_of_mem_eraseIdx hv)
      · exact fun l hl => (h.listener l hl).trans_le hle
      · exact fun hrun v hv => h.channel hrun v (List.mem_of_mem_eraseIdx hv)
    · exact fun pkt hpkt => absurd hpkt List.not_mem_nil
    · exact fun pkt hpkt => absurd hpkt List.not_mem_nil
    · exact fun v hv => .inr ⟨v, List.mem_of_mem_eraseIdx hv, .refl v⟩
  obtain ⟨w, hw, ⟨rfl, rfl⟩ | ⟨dest, pkt, hopen, _, rfl, rfl, rfl⟩⟩ := waitAck_cases hn
  · exact hends
  · have hwmem := List.mem_of_getElem? hw
    constructor
    · constructor
      · intro v hv
        rcases List.mem_or_eq_of_mem_set hv with hv | rfl
        · exact (h.waits v hv).trans_le hle
        · exact (h.waits w hwmem).trans_le hle
      · intro v hv
        rcases List.mem_or_eq_of_mem_set hv with hv | rfl
        · exact h.rumors v hv
        · exact h.rumors w hwmem
      · exact fun l hl => (h.listener l hl).trans_le hle
      · intro hrun v hv hwaiting
        rcases List.mem_or_eq_of_mem_set hv with hv | rfl
        · exact h.channel hrun v hv hwaiting
        · exact hopen
    · intro pkt hpkt
      obtain rfl := List.mem_singleton.mp hpkt
      exact ⟨(h.waits w hwmem).trans_le hle,
        fun id status hmsg => absurd ⟨id, status, hmsg⟩ (h.rumors w hwmem)⟩
    · intro pkt hpkt hack
      obtain rfl := List.mem_singleton.mp hpkt
      exact absurd hack (h.rumors w hwmem)
    · intro v hv
      rcases List.mem_or_eq_of_mem_set hv with hv | rfl
      · exact .inr ⟨v, hv, .refl v⟩
      · exact .inr ⟨w, hwmem, rfl, rfl, fun _ => List.mem_cons_of_mem dest⟩

theorem Numbered.processRumors (h : n.Numbered k) {header : Header P}
    (hheader : header.packetID < k) (rumors rest : List (Rumor P M)) (processedRumor : Bool) :
    n.Draws k (n.processRumors header rumors processedRumor rest) [] := by
  apply h.keeps
  · rfl
  · intro l hl
    obtain rfl := Option.some.inj hl
    exact hheader
  · exact fun hrun => hrun
  · exact fun _ w _ hmem => hmem
  · exact fun pkt hpkt => absurd hpkt List.not_mem_nil
  · exact fun pkt hpkt => absurd hpkt List.not_mem_nil

theorem Numbered.handlerReturns (h : n.Numbered k) {err : Bool}
    (hn : n.handlerReturns err = some n') : n.Draws k n' [] := by
  obtain ⟨header, rumors, m, rest, hlistener, ⟨-, rfl⟩ | ⟨-, rfl⟩⟩ := handlerReturns_cases hn
  · apply h.keeps
    · rfl
    · exact fun l hl => by cases hl
    · exact fun hrun => by cases hrun
    · exact fun hrun => by cases hrun
    · exact fun pkt hpkt => absurd hpkt List.not_mem_nil
    · exact fun pkt hpkt => absurd hpkt List.not_mem_nil
  · exact h.processRumors (h.listener _ hlistener) rumors rest true

theorem Numbered.finish (h : n.Numbered k) {myAddr : P} {shuffle : List P}
    (hn : n.finish myAddr k shuffle = some (n', sent)) : n.Draws k n' sent := by
  obtain ⟨header, rumors, discovered, hlistener, rfl, -, hsent⟩ := finish_cases hn
  have hheader : header.packetID < k + 3 :=
    (h.listener _ hlistener).trans_le (Nat.le_add_right k 3)
  apply h.keeps
  · rfl
  · exact fun l hl => by cases hl
  · exact fun hrun => hrun
  · exact fun _ w _ hmem => hmem
  · intro pkt hpkt
    rcases hsent pkt hpkt with rfl | ⟨dest, -, -, rfl⟩
    · refine ⟨Nat.lt_add_of_pos_right (Nat.succ_pos 2), ?_⟩
      rintro id status ⟨⟩
      exact hheader
    · refine ⟨hheader, ?_⟩
      rintro id status ⟨⟩
  · -- the acknowledgement gets a new ID, the relayed packet is none
    intro pkt hpkt hack
    rcases hsent pkt hpkt with rfl | ⟨dest, -, -, rfl⟩
    · exact le_rfl
    · obtain ⟨id, status, hmsg⟩ := hack
      cases hmsg

theorem execStatusMessage_numbered {myAddr source : P} {status : SequenceMap P}
    {c : Choices P} (hn : n.execStatusMessage myAddr k source status c = some sent) :
    ∀ pkt ∈ sent, pkt.header.packetID < k + 3 ∧ ¬pkt.IsAck := by
  obtain ⟨missing, _, hsent⟩ := mem_execStatusMessage hn
  intro pkt hpkt
  rcases hsent pkt hpkt with rfl | ⟨-, rfl⟩ | ⟨dest, -, rfl⟩
  · refine ⟨by simp only; omega, ?_⟩
    rintro ⟨id, status, hmsg⟩
    cases hmsg
  · refine ⟨by simp only; omega, ?_⟩
    rintro ⟨id, status, hmsg⟩
    cases hmsg
  · refine ⟨by simp only; omega, ?_⟩
    rintro ⟨id, status, hmsg⟩
    cases hmsg

theorem Numbered.execStatusMessage (h : n.Numbered k) {myAddr source : P}
    {status : SequenceMap P} {c : Choices P}
    (hn : n.execStatusMessage myAddr k source status c = some sent) : n.Draws k n sent := by
  have hpackets := execStatusMessage_numbered hn
  apply h.keeps
  · rfl
  · exact h.listener
  · exact fun hrun => hrun
  · exact fun _ w _ hmem => hmem
  · intro pkt hpkt
    obtain ⟨hlt, hack⟩ := hpackets pkt hpkt
    exact ⟨hlt, fun id status hmsg => absurd ⟨id, status, hmsg⟩ hack⟩
  · exact fun pkt hpkt hack => absurd hack (hpackets pkt hpkt).2

theorem Numbered.handleStatus (h : n.Numbered k) (myAddr source : P)
    (status : SequenceMap P) (c : Choices P) :
    n.Draws k (n.handleStatus myAddr k source status c).1
      (n.handleStatus myAddr k source status c).2 := by
  unfold Node.handleStatus
  split
  · apply h.keeps
    · rfl
    · exact h.listener
    · exact fun hrun => by cases hrun
    · exact fun hrun => by cases hrun
    · exact fun pkt hpkt => absurd hpkt List.not_mem_nil
    · exact fun pkt hpkt => absurd hpkt List.not_mem_nil
  · next packets hpackets => exact h.execStatusMessage hpackets

theorem Numbered.receive (h : n.Numbered k) (myAddr : P) {pkt : Packet P M}
    (hpkt : pkt.Numbered k)
    (hack : pkt.IsAck → ∀ w ∈ n.waits, w.pkt.header.packetID ≠ pkt.header.packetID)
    (c : Choices P) :
    n.Draws k (n.receive myAddr k pkt c).1 (n.receive myAddr k pkt c).2 := by
  unfold Node.receive
  split
  · next rumors hmsg =>
      split
      · apply h.keeps
        · rfl
        · exact h.listener
        · exact fun hrun => hrun
        · exact fun _ w _ hmem => hmem
        · exact fun pkt hpkt => absurd hpkt List.not_mem_nil
        · exact fun pkt hpkt => absurd hpkt List.not_mem_nil
      · exact h.processRumors hpkt.packetID rumors rumors false
  · exact h.handleStatus myAddr _ _ c
  · next acked status hmsg =>
      have hnumbered : Node.Numbered k
          { n with acksHandler := n.acksHandler.erase pkt.header.packetID } := by
        constructor
        · exact h.waits
        · exact h.rumors
        · exact h.listener
        · intro hrun w hw hwaiting
          have hmem := h.channel hrun w hw hwaiting
          exact (List.mem_erase_of_ne (hack ⟨_, _, hmsg⟩ w hw)).mpr hmem
      obtain ⟨hn, hsent, hacks, hwaits⟩ :=
        hnumbered.handleStatus myAddr pkt.header.source status c
      exact ⟨hn, hsent, hacks, hwaits⟩

end Node

namespace Network

/-- All IDs in use are below `nextID`, and no routine waits for a packet with
the ID of an acknowledgement. -/
structure Numbered (st : Network P M) : Prop where
  nodes : ∀ p, (st.nodes p).Numbered st.nextID
  packets : ∀ pkt ∈ st.packets, pkt.Numbered st.nextID
  acks : ∀ pkt ∈ st.packets, pkt.IsAck →
    ∀ p, ∀ w ∈ (st.nodes p).waits, w.pkt.header.packetID ≠ pkt.header.packetID

variable [DecidableEq P] {st st' : Network P M} {a : Action P M}

/-- A step drops a packet or is a step of one node. -/
inductive Draws (st : Network P M) : Network P M → Prop where
  | drop (packets : List (Packet P M)) (hpackets : packets ⊆ st.packets) :
      Draws st { st with packets := packets }
  | node (packets : List (Packet P M)) (hpackets : packets ⊆ st.packets) (p : P)
      (n : Node P M) (sent : List (Packet P M))
      (h : (st.nodes p).Draws st.nextID n sent) :
      Draws st (put { st with packets := packets } p n sent)

theorem Numbered.next (h : st.Numbered) (hnext : st.next a = some st') : st.Draws st' := by
  have hput : ∀ {p n sent}, st' = st.put p n sent → (st.nodes p).Draws st.nextID n sent →
      st.Draws st' := by
    rintro p n sent rfl hdraws
    exact .node st.packets (fun _ hmem => hmem) p n sent hdraws
  have hnil : ∀ pkt ∈ ([] : List (Packet P M)), pkt.Numbered (st.nextID + 3) :=
    fun pkt hpkt => absurd hpkt List.not_mem_nil
  have hnil' : ∀ pkt ∈ ([] : List (Packet P M)), pkt.IsAck → st.nextID ≤ pkt.header.packetID :=
    fun pkt hpkt => absurd hpkt List.not_mem_nil
  cases step_of_next hnext with
  | addPeer p addr =>
      exact hput rfl ((h.nodes p).keeps rfl (h.nodes p).listener
        (fun hrun => hrun) (fun _ w _ hmem => hmem) hnil hnil')
  | broadcast p msg shuffle => exact hput rfl ((h.nodes p).broadcast p msg shuffle)
  | createChannel p i n hn => exact hput rfl ((h.nodes p).createChannel hn)
  | waitAck p i n sent hn => exact hput rfl ((h.nodes p).waitAck hn)
  | deliver i c pkt hpkt =>
      have hmem := List.mem_of_getElem? hpkt
      exact .node _ (fun pkt hpkt => List.mem_of_mem_eraseIdx hpkt) _ _ _
        ((h.nodes _).receive _ (h.packets pkt hmem) (fun hack => h.acks pkt hmem hack _) c)
  | handlerReturns p err n hn => exact hput rfl ((h.nodes p).handlerReturns hn)
  | finish p shuffle n sent _ hn => exact hput rfl ((h.nodes p).finish hn)
  | execStatus p source status c sent _ hsent =>
      exact hput rfl ((h.nodes p).execStatusMessage hsent)
  | drop i => exact .drop _ fun pkt hpkt => List.mem_of_mem_eraseIdx hpkt
  | stop p =>
      refine hput rfl ((h.nodes p).keeps rfl (h.nodes p).listener ?_ ?_ hnil hnil')
      · exact fun hrun => by cases hrun
      · exact fun hrun => by cases hrun
  | closeAcks p hstopped =>
      refine hput rfl ((h.nodes p).keeps rfl (h.nodes p).listener ?_ ?_ hnil hnil')
      · exact fun hrun => hrun
      · exact fun hrun => absurd hrun (Bool.eq_false_iff.mp hstopped)

theorem Numbered.step (h : st.Numbered) (hdraws : st.Draws st') : st'.Numbered := by
  cases hdraws with
  | drop packets hpackets =>
      constructor
      · exact h.nodes
      · exact fun pkt hpkt => h.packets pkt (hpackets hpkt)
      · exact fun pkt hpkt => h.acks pkt (hpackets hpkt)
  | node packets hpackets p n sent hn =>
      constructor
      · intro q
        change (Function.update st.nodes p n q).Numbered (st.nextID + 3)
        by_cases hq : q = p
        · rw [hq, Function.update_self]
          exact hn.numbered
        · rw [Function.update_of_ne hq]
          exact (h.nodes q).mono (Nat.le_add_right _ 3)
      · intro pkt hpkt
        rcases List.mem_append.mp hpkt with hpkt | hpkt
        · exact (h.packets pkt (hpackets hpkt)).mono (Nat.le_add_right _ 3)
        · exact hn.packets pkt hpkt
      · intro pkt hpkt hack q w hw
        change w ∈ (Function.update st.nodes p n q).waits at hw
        by_cases hq : q = p
        · rw [hq, Function.update_self] at hw
          rcases List.mem_append.mp hpkt with hpkt | hpkt
          · have hmem := hpackets hpkt
            rcases hn.waits w hw with hid | ⟨v, hv, hcontinues⟩
            · have hlt := (h.packets pkt hmem).packetID
              omega
            · rw [hcontinues.packetID]
              exact h.acks pkt hmem hack p v hv
          · obtain ⟨hle, hlt⟩ := hn.acks pkt hpkt hack
            have hw := hlt w hw
            omega
        · rw [Function.update_of_ne hq] at hw
          rcases List.mem_append.mp hpkt with hpkt | hpkt
          · exact h.acks pkt (hpackets hpkt) hack q w hw
          · have hle := (hn.acks pkt hpkt hack).1
            have hlt := (h.nodes q).waits w hw
            omega

theorem numbered_of_reachable (h : gossip.Reachable st) : st.Numbered := by
  apply h.invariant
  · constructor
    · intro p
      constructor
      · exact fun w hw => absurd hw List.not_mem_nil
      · exact fun w hw => absurd hw List.not_mem_nil
      · exact fun l hl => by cases hl
      · exact fun _ w hw => absurd hw List.not_mem_nil
    · exact fun pkt hpkt => absurd hpkt List.not_mem_nil
    · exact fun pkt hpkt => absurd hpkt List.not_mem_nil
  · intro st st' a _ hst _ hnext
    exact hst.step (hst.next hnext)

/-- A packet that has been sent to all neighbours stays so. -/
theorem exhausted_step (hdraws : st.Draws st') {p : P} {id : ℕ}
    (hid : id < st.nextID) (hp : (st.nodes p).Exhausted id) :
    id < st'.nextID ∧ (st'.nodes p).Exhausted id := by
  cases hdraws with
  | drop packets hpackets => exact ⟨hid, hp⟩
  | node packets hpackets q n sent hn =>
      constructor
      · exact hid.trans_le (Nat.le_add_right _ 3)
      · change (Function.update st.nodes q n p).Exhausted id
        by_cases hq : p = q
        · subst hq
          rw [Function.update_self]
          intro w' hw' hid' b hb
          rcases hn.waits w' hw' with hnew | ⟨w, hw, hcontinues⟩
          · omega
          · rw [hcontinues.neighbours] at hb
            exact hcontinues.tried (hp w hw (hcontinues.packetID.symm.trans hid') b hb)
        · rw [Function.update_of_ne hq]
          exact hp

end Network

namespace Node

variable {n : Node P M} {i : ℕ} {w : WaitAck P M}

theorem createChannel_of (hw : n.waits[i]? = some w) (hwaiting : ¬w.waiting = true) :
    ∃ n', n.createChannel i = some n' ∧ n'.waits[i]? = some { w with waiting := true } ∧
      w.pkt.header.packetID ∈ n'.acksHandler := by
  refine ⟨{ n with
    acksHandler := w.pkt.header.packetID :: n.acksHandler
    waits := n.waits.set i { w with waiting := true } }, ?_, ?_, List.mem_cons_self⟩
  · rw [Node.createChannel, hw, Option.bind_some, if_neg hwaiting]
  · exact List.getElem?_set_self (List.getElem?_eq_some_iff.mp hw).1

variable [DecidableEq P]

theorem waitAck_sends (hw : n.waits[i]? = some w) (hwaiting : w.waiting = true)
    (hopen : w.pkt.header.packetID ∈ n.acksHandler) {b : P} (hb : b ∈ w.neighbours)
    (hsent : b ∉ w.sentRumorNeighbours) :
    ∃ n' pkt, n.waitAck i = some (n', [pkt]) := by
  have hsome : (searchNeighbour w.neighbours w.sentRumorNeighbours).isSome := by
    rw [searchNeighbour, List.find?_isSome]
    exact ⟨b, hb, by simpa using hsent⟩
  obtain ⟨dest, hdest⟩ := Option.isSome_iff_exists.mp hsome
  unfold Node.waitAck
  rw [hw, Option.bind_some, if_neg (by simp [hwaiting]), if_neg (not_not.mpr hopen), hdest]
  exact ⟨_, _, rfl⟩

theorem Exhausted.endsWaiting {id : ℕ} (h : n.Exhausted id) : n.EndsWaiting id := by
  intro i w hw hid n' sent hn
  have hnone : searchNeighbour w.neighbours w.sentRumorNeighbours = none := by
    rw [searchNeighbour, List.find?_eq_none]
    intro b hb
    simpa using h w (List.mem_of_getElem? hw) hid b hb
  unfold Node.waitAck at hn
  rw [hw, Option.bind_some, hnone] at hn
  split at hn
  · cases hn
  · split at hn
    · cases hn
      exact ⟨rfl, rfl⟩
    · cases hn
      exact ⟨rfl, rfl⟩

/-- The handler of an acknowledgement closes the channel with its own ID. -/
theorem receive_ack {myAddr : P} {k id : ℕ} {pkt : Packet P M} {status : SequenceMap P}
    (hack : pkt.msg = .ack id status) (c : Choices P) :
    (n.receive myAddr k pkt c).1.waits = n.waits ∧
      (n.receive myAddr k pkt c).1.acksHandler =
        n.acksHandler.erase pkt.header.packetID := by
  rw [Node.receive, hack]
  simp only [Node.handleStatus]
  split
  · exact ⟨rfl, rfl⟩
  · exact ⟨rfl, rfl⟩

end Node

theorem Network.deliver_ack [DecidableEq P] {st st' : Network P M} {i id : ℕ}
    {c : Choices P} {pkt : Packet P M} {status : SequenceMap P}
    (hpkt : st.packets[i]? = some pkt) (hack : pkt.msg = .ack id status)
    (hnext : st.next (.deliver i c) = some st') :
    let n := st.nodes pkt.header.destination
    let n' := st'.nodes pkt.header.destination
    n.run = true ∧ n'.waits = n.waits ∧
      n'.acksHandler = n.acksHandler.erase pkt.header.packetID := by
  intro n n'
  cases step_of_next hnext with
  | deliver _ _ pkt' hpkt' hrun =>
      obtain rfl : pkt = pkt' := Option.some.inj (hpkt.symm.trans hpkt')
      have hn' : n' = (n.receive pkt.header.destination st.nextID pkt c).1 :=
        Function.update_self ..
      rw [hn']
      exact ⟨hrun, Node.receive_ack hack c⟩

/-- When node `p` has processed an acknowledgement of its packet `id`, its
`waitAck` routine ends in every continuation without another send exactly if the
packet has been sent to all neighbours already. -/
theorem acknowledged_iff [DecidableEq P] {st st' : Network P M} (h : gossip.Reachable st)
    {i id : ℕ} {c : Choices P} {pkt : Packet P M} {status : SequenceMap P}
    (hpkt : st.packets[i]? = some pkt) (hack : pkt.msg = .ack id status)
    (hnext : st.next (.deliver i c) = some st') :
    (∀ t, gossip.LeadsTo (fun _ _ => True) st' t →
      (t.nodes pkt.header.destination).EndsWaiting id) ↔
      (st.nodes pkt.header.destination).Exhausted id := by
  have hst := Network.numbered_of_reachable h
  have hmem := List.mem_of_getElem? hpkt
  have hid := (hst.packets pkt hmem).acked id status hack
  have hdraws := hst.next hnext
  constructor
  · intro hends w hw hw_id b hb
    by_contra hsent
    obtain ⟨hrun, hwaits, hacks⟩ := Network.deliver_ack hpkt hack hnext
    rw [← hwaits] at hw
    obtain ⟨j, hj⟩ := List.mem_iff_getElem?.mp hw
    -- another turn of the routine sends the packet to `b` or another neighbour
    have hturn : ∀ t v, gossip.LeadsTo (fun _ _ => True) st' t →
        (t.nodes pkt.header.destination).waits[j]? = some v → v.waiting = true →
        w.Continues v → v.sentRumorNeighbours = w.sentRumorNeighbours →
        id ∉ (t.nodes pkt.header.destination).acksHandler := by
      intro t v ht hv hwaiting hcontinues htried hopen
      have hv_id : v.pkt.header.packetID = id := hcontinues.packetID.trans hw_id
      obtain ⟨n', sent, hsends⟩ := Node.waitAck_sends hv hwaiting (hv_id ▸ hopen)
        (hcontinues.neighbours ▸ hb) (htried ▸ hsent)
      have hnil := (hends t ht j v hv hv_id n' _ hsends).1
      cases hnil
    by_cases hwaiting : w.waiting = true
    · refine hturn st' w .refl hj hwaiting (.refl w) rfl ?_
      rw [hwaits] at hw
      have hopen := (hst.nodes _).channel hrun w hw hwaiting
      rw [hacks, ← hw_id]
      exact (List.mem_erase_of_ne (hst.acks pkt hmem ⟨_, _, hack⟩ _ w hw)).mpr hopen
    · obtain ⟨n', hcreate, hj', hopen⟩ := Node.createChannel_of hj hwaiting
      have hnodes : (st'.put pkt.header.destination n' []).nodes pkt.header.destination = n' :=
        Function.update_self ..
      have hstep : st'.next (.createChannel pkt.header.destination j) =
          some (st'.put pkt.header.destination n' []) := by
        rw [Network.next, hcreate]
        rfl
      have hlead : gossip.LeadsTo (fun _ _ => True) st'
          (st'.put pkt.header.destination n' []) :=
        .single ⟨.createChannel pkt.header.destination j, trivial, hstep⟩
      refine hturn _ { w with waiting := true } hlead (by rw [hnodes, hj']) rfl
        ⟨rfl, rfl, fun _ hmem => hmem⟩ rfl ?_
      rw [hnodes, ← hw_id]
      exact hopen
  · intro hexhausted t ht
    have hinv : t.Numbered ∧ id < t.nextID ∧
        (t.nodes pkt.header.destination).Exhausted id := by
      induction ht with
      | refl =>
          obtain ⟨hlt, hp⟩ := Network.exhausted_step hdraws hid hexhausted
          exact ⟨hst.step hdraws, hlt, hp⟩
      | tail _ hstep ih =>
          obtain ⟨a, _, hnext⟩ := hstep
          obtain ⟨hnumbered, hlt, hp⟩ := ih
          have hdraws := hnumbered.next hnext
          obtain ⟨hlt, hp⟩ := Network.exhausted_step hdraws hlt hp
          exact ⟨hnumbered.step hdraws, hlt, hp⟩
    exact hinv.2.2.endsWaiting

/-- Node 0 sends a rumor to the first of its neighbours, which acknowledges it. -/
def acknowledgedRun (neighbours : List ℕ) : List (Action ℕ Unit) :=
  [.addPeer 0 neighbours, .broadcast 0 () neighbours, .createChannel 0 0,
    .deliver 0 ⟨[], false, []⟩, .handlerReturns 1 false, .finish 1 [0]]

/-- The ID which the packet acknowledges. -/
def Packet.acked (pkt : Packet P M) : Option ℕ :=
  match pkt.msg with
  | .ack id _ => some id
  | _ => none

theorem Packet.msg_of_acked {pkt : Packet P M} {id : ℕ} (h : pkt.acked = some id) :
    ∃ status, pkt.msg = .ack id status := by
  unfold Packet.acked at h
  split at h
  · next id' status hmsg =>
      obtain rfl := Option.some.inj h
      exact ⟨status, hmsg⟩
  · cases h

theorem acknowledged_iff_of_one_neighbour :
    ∃ st st' : Network ℕ Unit, gossip.Reachable st ∧
      st.next (.deliver 0 ⟨[0], false, [1]⟩) = some st' ∧
      (∃ pkt ∈ st.packets[0]?, pkt.header.destination = 0 ∧ pkt.acked = some 3) ∧
      ∀ t, gossip.LeadsTo (fun _ _ => True) st' t → (t.nodes 0).EndsWaiting 3 := by
  obtain ⟨st, hst, ⟨pkt, hpkt, hdest, hacked⟩, hsome, hexhausted⟩ :=
    TransitionSystem.exists_of_replay (S := gossip (P := ℕ) (M := Unit)) (fun _ _ => True)
      (acknowledgedRun [1])
      (fun st => (∃ pkt ∈ st.packets[0]?, pkt.header.destination = 0 ∧ pkt.acked = some 3) ∧
        (st.next (.deliver 0 ⟨[0], false, [1]⟩)).isSome = true ∧
        ∀ w ∈ (st.nodes 0).waits, w.pkt.header.packetID = 3 →
          ∀ a ∈ w.neighbours, a ∈ w.sentRumorNeighbours)
      (by decide +kernel)
  obtain ⟨st', hnext⟩ := Option.isSome_iff_exists.mp hsome
  obtain ⟨status, hmsg⟩ := Packet.msg_of_acked hacked
  have hends := (acknowledged_iff hst hpkt hmsg hnext).mpr (hdest ▸ hexhausted)
  rw [hdest] at hends
  exact ⟨st, st', hst, hnext, ⟨pkt, hpkt, hdest, hacked⟩, hends⟩

/-- With a second neighbour the routine sends the acknowledged packet again. -/
theorem acknowledged_resent :
    ∃ st st' : Network ℕ Unit, gossip.Reachable st ∧
      st.next (.deliver 0 ⟨[0], false, [1, 2]⟩) = some st' ∧
      (∃ pkt ∈ st.packets[0]?, pkt.header.destination = 0 ∧ pkt.acked = some 3) ∧
      ¬∀ t, gossip.LeadsTo (fun _ _ => True) st' t → (t.nodes 0).EndsWaiting 3 := by
  obtain ⟨st, hst, hpkt, st', hnext, ⟨w, hw, hid⟩, turn, hturn, hsent⟩ :=
    TransitionSystem.exists_of_replay (S := gossip (P := ℕ) (M := Unit)) (fun _ _ => True)
      (acknowledgedRun [1, 2])
      (fun st => (∃ pkt ∈ st.packets[0]?, pkt.header.destination = 0 ∧ pkt.acked = some 3) ∧
        ∃ st' ∈ st.next (.deliver 0 ⟨[0], false, [1, 2]⟩),
          (∃ w ∈ (st'.nodes 0).waits[0]?, w.pkt.header.packetID = 3) ∧
          ∃ turn ∈ (st'.nodes 0).waitAck 0, turn.2.length = 1)
      (by decide +kernel)
  refine ⟨st, st', hst, hnext, hpkt, ?_⟩
  intro hends
  have hnil := (hends st' .refl 0 w hw hid turn.1 turn.2 hturn).1
  rw [hnil] at hsent
  cases hsent

end Minotor.Gossip
