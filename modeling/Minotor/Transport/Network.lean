import Minotor.Messaging.Listening
import Minotor.Support.TransitionSystem
import Minotor.Transport.Udp
import Mathlib.Logic.Function.Basic

/-!
# A network of UDP sockets

Sockets send datagrams to each other.  A datagram which is written may arrive at any
later time, any number of times or never.

Every packet which a socket has received has the content of a packet which some
socket has sent, also when datagrams are cut off.  A datagram which is cut off stops
the node which reads it.
-/

namespace Minotor.Transport

variable {A : Type*}

/-- Sockets by their addresses, and the datagrams which were written. -/
structure Network (A : Type*) where
  sockets : A → Socket
  written : List (A × Bytes)

inductive NetworkAction (A : Type*) where
  | send (src : A) (c : SendConn A) (dest : String) (pkt : Packet) (timeout : ℤ)
  | recv (dst : A) (c : RecvConn) (timeout : ℤ)

/-- The socket after a call. -/
def Result.socket {α : Type*} (s : Socket) : Result α → Socket
  | .returned _ _ s' => s'
  | .panicked => s

namespace Network

/-- One socket changes, and datagrams are written. -/
def set [DecidableEq A] (st : Network A) (a : A) (s : Socket) (written : List (A × Bytes)) :
    Network A where
  sockets := Function.update st.sockets a s
  written := st.written ++ written

def next [DecidableEq A] (enc : Encoding) (st : Network A) : NetworkAction A → Option (Network A)
  | .send src c dest pkt timeout =>
      let r := (st.sockets src).send enc c dest pkt timeout
      some (st.set src (r.2.socket (st.sockets src)) r.1.toList)
  | .recv dst c timeout =>
      -- what arrives was written to the address of the socket
      if ∀ datagram ∈ c.datagram.toOption, (dst, datagram) ∈ st.written then
        let r := (st.sockets dst).recv enc c timeout
        some (st.set dst (r.socket (st.sockets dst)) [])
      else none

end Network

/-- The transition system of sockets which have just been created. -/
def network [DecidableEq A] (enc : Encoding) : TransitionSystem (Network A) (NetworkAction A) where
  init := ⟨fun _ => .new, []⟩
  next := Network.next enc

/-! ## What a call does -/

section

variable (enc : Encoding) (s : Socket)

/-- `Send` fails before it writes, or writes the encoding and keeps a copy of the packet. -/
theorem send_cases (c : SendConn A) (dest : String) (pkt : Packet) (timeout : ℤ) :
    ((s.send enc c dest pkt timeout).1 = none ∧
      (s.send enc c dest pkt timeout).2.socket s = s) ∨
    ∃ addr datagram, (s.send enc c dest pkt timeout).1 = some (addr, datagram) ∧
      enc.marshal pkt = .ok datagram ∧
      ((s.send enc c dest pkt timeout).2.socket s).ins = s.ins ∧
      ((s.send enc c dest pkt timeout).2.socket s).outs = s.outs ++ pkt.copy.toList := by
  unfold Socket.send
  split
  · exact Or.inl ⟨rfl, rfl⟩
  · split
    · exact Or.inl ⟨rfl, rfl⟩
    · next addr _ =>
        split
        · exact Or.inl ⟨rfl, rfl⟩
        · next msg hmsg =>
            split
            · exact Or.inl ⟨rfl, rfl⟩
            · refine Or.inr ⟨addr, msg, ?_⟩
              cases hcopy : pkt.copy with
              | none =>
                  rw [add_of_copy_eq_none hcopy]
                  exact ⟨rfl, hmsg, rfl, (List.append_nil _).symm⟩
              | some p =>
                  rw [add_of_copy_eq_some hcopy]
                  exact ⟨rfl, hmsg, rfl, rfl⟩

/-- `Recv` fails and keeps nothing, or keeps a copy of what it has decoded. -/
theorem recv_cases (c : RecvConn) (timeout : ℤ) :
    (s.recv enc c timeout).socket s = s ∨
    ∃ datagram pkt p, c.datagram = .ok datagram ∧
      enc.unmarshal (datagram.take buffSize) = (pkt, none) ∧ pkt.copy = some p ∧
      ((s.recv enc c timeout).socket s).ins = s.ins ++ [p] ∧
      ((s.recv enc c timeout).socket s).outs = s.outs := by
  unfold Socket.recv
  split
  · exact Or.inl rfl
  · split
    · exact Or.inl rfl
    · next buff hbuff =>
        split
        · exact Or.inl rfl
        · next pkt hunmarshal =>
            cases hcopy : pkt.copy with
            | none =>
                rw [add_of_copy_eq_none hcopy]
                exact Or.inl rfl
            | some p =>
                rw [add_of_copy_eq_some hcopy]
                obtain ⟨datagram, hdatagram, rfl⟩ := datagram_of_receiveUDPPacket hbuff
                exact Or.inr ⟨datagram, pkt, p, hdatagram, hunmarshal, hcopy, rfl, rfl⟩

end

/-! ## Nothing is received which was not sent -/

namespace Network

/-- A socket keeps the packet as one which it has sent. -/
def Sent (st : Network A) (pkt : Packet) : Prop :=
  ∃ src p, pkt.copy = some p ∧ p ∈ (st.sockets src).outs

/-- Datagrams encode packets which were sent, unless a pointer in them was nil, and what is
received was sent. -/
structure Sound (enc : Encoding) (st : Network A) : Prop where
  written : ∀ addr datagram, (addr, datagram) ∈ st.written →
    ∃ pkt, enc.marshal pkt = .ok datagram ∧ (pkt.copy = none ∨ st.Sent pkt)
  ins : ∀ dst, ∀ q ∈ (st.sockets dst).ins,
    ∃ pkt pkt', st.Sent pkt ∧ SameContent pkt pkt' ∧ pkt'.copy = some q

variable {enc : Encoding} {st st' : Network A}

/-- What is read from a datagram is what was encoded in it. -/
theorem sameContent_of_unmarshal {pkt pkt' : Packet} {datagram : Bytes} {n : ℕ}
    (hmarshal : enc.marshal pkt = .ok datagram)
    (hunmarshal : enc.unmarshal (datagram.take n) = (pkt', none)) : SameContent pkt pkt' := by
  by_cases hn : n < datagram.length
  · have hrejects := enc.rejects_prefix pkt datagram n hmarshal hn
    rw [hunmarshal] at hrejects
    exact absurd rfl hrejects
  · obtain ⟨pkt'', hdecodes, hsame⟩ := enc.decodes pkt datagram hmarshal
    rw [List.take_of_length_le (Nat.le_of_not_lt hn), hdecodes] at hunmarshal
    cases hunmarshal
    exact hsame

theorem copy_ne_none_of_sameContent {pkt pkt' : Packet} (h : SameContent pkt pkt')
    (hcopy : pkt'.copy ≠ none) : pkt.copy ≠ none := by
  obtain ⟨hheader, hmsg⟩ := h
  obtain ⟨_ | header, _ | msg⟩ := pkt <;> obtain ⟨_ | header', _ | msg'⟩ := pkt' <;>
    simp_all [Packet.copy]

section

variable [DecidableEq A] {a b : A} {t : Socket} {written : List (A × Bytes)}

theorem sockets_set_self : (st.set a t written).sockets a = t := Function.update_self ..

theorem sockets_set_of_ne (h : b ≠ a) : (st.set a t written).sockets b = st.sockets b :=
  Function.update_of_ne h ..

theorem set_same : st.set a (st.sockets a) [] = st := by
  rw [set, Function.update_eq_self, List.append_nil]

theorem Sent.set {pkt : Packet} (h : st.Sent pkt) (houts : (st.sockets a).outs ⊆ t.outs) :
    (st.set a t written).Sent pkt := by
  obtain ⟨src, p, hcopy, hp⟩ := h
  refine ⟨src, p, hcopy, ?_⟩
  by_cases hsrc : src = a
  · subst hsrc
    rw [sockets_set_self]
    exact houts hp
  · rwa [sockets_set_of_ne hsrc]

/-- What a socket has received before and now was sent, and what is written encodes what was
sent. -/
theorem Sound.set (h : st.Sound enc) (houts : (st.sockets a).outs ⊆ t.outs)
    (hwritten : ∀ addr datagram, (addr, datagram) ∈ written → ∃ pkt,
      enc.marshal pkt = .ok datagram ∧ (pkt.copy = none ∨ (st.set a t written).Sent pkt))
    (hins : ∀ q ∈ t.ins, q ∈ (st.sockets a).ins ∨ ∃ pkt pkt', st.Sent pkt ∧
      SameContent pkt pkt' ∧ pkt'.copy = some q) :
    (st.set a t written).Sound enc where
  written addr datagram hmem := by
    rcases List.mem_append.mp hmem with hmem | hmem
    · obtain ⟨pkt, hmarshal, hsent⟩ := h.written addr datagram hmem
      exact ⟨pkt, hmarshal, hsent.imp_right fun hs => hs.set houts⟩
    · exact hwritten addr datagram hmem
  ins dst q hq := by
    have hold : ∃ pkt pkt', st.Sent pkt ∧ SameContent pkt pkt' ∧ pkt'.copy = some q := by
      by_cases hdst : dst = a
      · subst hdst
        rw [sockets_set_self] at hq
        exact (hins q hq).elim (h.ins dst q) id
      · rw [sockets_set_of_ne hdst] at hq
        exact h.ins dst q hq
    obtain ⟨pkt, pkt', hsent, hsame, hcopy⟩ := hold
    exact ⟨pkt, pkt', hsent.set houts, hsame, hcopy⟩

theorem Sound.send (h : st.Sound enc) (src : A) (c : SendConn A) (dest : String) (pkt : Packet)
    (timeout : ℤ) :
    (st.set src (((st.sockets src).send enc c dest pkt timeout).2.socket (st.sockets src))
      ((st.sockets src).send enc c dest pkt timeout).1.toList).Sound enc := by
  rcases send_cases enc (st.sockets src) c dest pkt timeout with
    ⟨hnone, hsame⟩ | ⟨addr, datagram, hwritten, hmarshal, hins, houts⟩
  · rw [hnone, hsame, Option.toList_none, set_same]
    exact h
  · apply h.set
    · rw [houts]
      exact List.subset_append_left _ _
    · intro addr' datagram' hmem
      rw [hwritten, Option.toList_some, List.mem_singleton] at hmem
      cases hmem
      refine ⟨pkt, hmarshal, ?_⟩
      cases hcopy : pkt.copy with
      | none => exact Or.inl rfl
      | some p =>
          refine Or.inr ⟨src, p, hcopy, ?_⟩
          rw [sockets_set_self, houts, hcopy]
          exact List.mem_append_right _ (List.mem_singleton_self p)
    · intro q hq
      rw [hins] at hq
      exact Or.inl hq

theorem Sound.recv (h : st.Sound enc) (dst : A) (c : RecvConn) (timeout : ℤ)
    (harrives : ∀ datagram ∈ c.datagram.toOption, (dst, datagram) ∈ st.written) :
    (st.set dst (((st.sockets dst).recv enc c timeout).socket (st.sockets dst)) []).Sound enc := by
  rcases recv_cases enc (st.sockets dst) c timeout with
    hsame | ⟨datagram, pkt', q, hdatagram, hunmarshal, hcopy, hins, houts⟩
  · rw [hsame, set_same]
    exact h
  · obtain ⟨pkt, hmarshal, hsent⟩ := h.written dst datagram <| by
      apply harrives
      rw [hdatagram]
      rfl
    have hsame := sameContent_of_unmarshal hmarshal hunmarshal
    apply h.set
    · rw [houts]
      exact List.Subset.refl _
    · intro addr datagram' hmem
      cases hmem
    · intro q' hq'
      rw [hins, List.mem_append, List.mem_singleton] at hq'
      refine hq'.imp_right fun heq => ?_
      subst heq
      have hne : pkt.copy ≠ none := by
        apply copy_ne_none_of_sameContent hsame
        rw [hcopy]
        exact Option.some_ne_none _
      exact ⟨pkt, pkt', hsent.resolve_left hne, hsame, hcopy⟩

theorem Sound.step (h : st.Sound enc) {act : NetworkAction A}
    (hnext : st.next enc act = some st') : st'.Sound enc := by
  cases act with
  | send src c dest pkt timeout =>
      obtain rfl := Option.some.inj hnext
      exact h.send src c dest pkt timeout
  | recv dst c timeout =>
      simp only [next, Option.ite_none_right_eq_some] at hnext
      obtain ⟨harrives, heq⟩ := hnext
      obtain rfl := Option.some.inj heq
      exact h.recv dst c timeout harrives

theorem Sound.of_reachable (h : (network enc).Reachable st) : st.Sound enc := by
  apply h.invariant
  · exact ⟨fun _ _ hmem => absurd hmem List.not_mem_nil,
      fun _ _ hmem => absurd hmem List.not_mem_nil⟩
  · exact fun s s' a _ hs _ hnext => hs.step hnext

end

end Network

/-- In every run, each packet which a socket has received is a copy of one with the header,
message type and JSON payload of a packet which a socket has sent. -/
theorem received_was_sent [DecidableEq A] {enc : Encoding} {st : Network A}
    (h : (network enc).Reachable st) {dst : A} {q : Packet} (hq : q ∈ (st.sockets dst).ins) :
    ∃ pkt pkt', st.Sent pkt ∧ SameContent pkt pkt' ∧ pkt'.copy = some q :=
  (Network.Sound.of_reachable h).ins dst q hq

/-- A socket which sends a chat message to itself and receives it. -/
theorem exists_received : ∃ (st : Network Unit) (q : Packet),
    (network jsonEncoding).Reachable st ∧ q ∈ (st.sockets ()).ins := by
  obtain ⟨datagram, s, hsend, hmarshal, hlength⟩ := send_chat (n := 5) (by decide)
  have hle : datagram.length ≤ buffSize := by
    rw [hlength]
    decide
  obtain ⟨pkt', ins, hrecv, hins, -⟩ := recv_of_length_le (c := arriving datagram) s 0 hmarshal
    rfl rfl ⟨fun _ => rfl, rfl⟩ hle
  let sent : Network Unit := (network jsonEncoding).init.set () s [((), datagram)]
  have hsent : (network jsonEncoding).Reachable sent := by
    apply TransitionSystem.ReachableUnder.init.step trivial
      (a := .send () openConn "127.0.0.1:2" (chat 5) 0)
    change some _ = some _
    rw [show ((network jsonEncoding).init.sockets ()).send jsonEncoding openConn "127.0.0.1:2"
      (chat 5) 0 = _ from hsend]
    rfl
  cases hcopy : pkt'.copy with
  | none =>
      rw [add_of_copy_eq_none hcopy] at hins
      cases hins
  | some q =>
      rw [add_of_copy_eq_some hcopy, Option.some.injEq] at hins
      refine ⟨sent.set () { s with ins := ins } [], q, ?_, ?_⟩
      · apply hsent.step trivial (a := .recv () (arriving datagram) 0)
        have harrives : ∀ d ∈ (arriving datagram).datagram.toOption, ((), d) ∈ sent.written := by
          intro d hd
          cases hd
          exact List.mem_singleton_self _
        change (if _ then _ else _) = _
        rw [if_pos harrives, show (sent.sockets ()).recv jsonEncoding (arriving datagram) 0 = _
          from hrecv]
        rfl
      · rw [Network.sockets_set_self, ← hins]
        exact List.mem_append_right _ (List.mem_singleton_self q)

theorem received_was_sent_of_chat : ∃ (st : Network Unit) (q pkt pkt' : Packet),
    (network jsonEncoding).Reachable st ∧ q ∈ (st.sockets ()).ins ∧
      st.Sent pkt ∧ SameContent pkt pkt' ∧ pkt'.copy = some q := by
  obtain ⟨st, q, hreach, hq⟩ := exists_received
  obtain ⟨pkt, pkt', hsent, hsame, hcopy⟩ := received_was_sent hreach hq
  exact ⟨st, q, pkt, pkt', hreach, hq, hsent, hsame, hcopy⟩

/-! ## The node which listens -/

section

variable {M σ ω : Type*}

/-- What the listening routine of a node sees of a call of `Recv`. -/
def Result.event (w : ω) : Result Packet → Option (Messaging.Event String σ ω)
  | .returned _ (some (.timeout _)) _ => some .timedOut
  | .returned _ (some (.other err)) _ => some (.failed err)
  | .returned ⟨some h, some m⟩ none _ =>
      some (.received
        { header := ⟨h.ttl.toNat, h.source, h.relayedBy, h.destination⟩
          msg := ⟨m.type, m.payload.getD []⟩ } w)
  | _ => none

/-- A packet which is longer than the buffer stops the node which it is sent to: no packet
after it is handed on or relayed. -/
theorem listening_stops {enc : Encoding} {t : Socket} {pkt : Packet} {c : RecvConn}
    {datagram : Bytes} {timeout : ℤ} (n : Messaging.Listener String M σ ω) (w : ω)
    (hmarshal : enc.marshal pkt = .ok datagram) (hdelivers : c.Delivers datagram)
    (hlt : buffSize < datagram.length) :
    ∃ e, (t.recv enc c timeout).event w = some e ∧
      ∀ (s : σ) (es : List (Messaging.Event String σ ω)), n.listeningRoutine s (e :: es) = [] := by
  obtain ⟨pkt', err, hrecv⟩ := recv_of_lt_length t timeout hmarshal hdelivers hlt
  refine ⟨.failed err, ?_, fun s es => rfl⟩
  rw [hrecv]
  rfl

end

end Minotor.Transport
