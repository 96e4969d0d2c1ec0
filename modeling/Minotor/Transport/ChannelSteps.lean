import Minotor.Support.Entries
import Minotor.Transport.Channel

/-!
# Steps of channel sockets

What a step does, as one case for each statement of a call.  The packets in channels and
sockets are copies of packets with no nil pointer, so that a call of `Recv` never panics
and a call of `Send` panics only before it puts a packet into a channel.
-/

namespace Minotor.Channel

open Minotor.Transport (Packet add add_of_copy_eq_some add_of_copy_eq_none)

/-! ## The steps of a call -/

/-- What one step of a call, other than by its timer, does to it and to what the calls
share. -/
inductive Move (st : State) : Call → State → Call → Prop where
  | notListening {s dest pkt timeout} {sock : Socket} {tr : Transport}
      (hsock : st.sockets[s]? = some sock) (htr : st.transports[sock.transport]? = some tr)
      (hnone : tr.incomings dest = none) :
      Move st (.send s dest pkt timeout .lookup) st
        (.send s dest pkt timeout (.returned (some (.notListening dest))))
  | nilPointer {s dest pkt timeout} (hcopy : pkt.copy = none) :
      Move st (.send s dest pkt timeout .lookup) st (.send s dest pkt timeout .panicked)
  | offer {s dest pkt timeout} {sock : Socket} {tr : Transport} {c : ℕ} {offered : Packet}
      {d e : ℤ} (hsock : st.sockets[s]? = some sock)
      (htr : st.transports[sock.transport]? = some tr) (hc : tr.incomings dest = some c)
      (hcopy : pkt.copy = some offered) :
      Move st (.send s dest pkt timeout .lookup) st
        (.send s dest pkt timeout (.select c offered d e))
  | put {s dest pkt timeout c offered d e} {ch : Chan Packet} (hch : st.chans[c]? = some ch)
      (hready : ch.Ready) :
      Move st (.send s dest pkt timeout (.select c offered d e))
        { st with chans := st.chans.set c (ch.send offered hready) }
        (.send s dest pkt timeout .addOut)
  | addOut {s dest pkt timeout} {sock : Socket} {p : Packet}
      (hsock : st.sockets[s]? = some sock) (hcopy : pkt.copy = some p) :
      Move st (.send s dest pkt timeout .addOut)
        { st with sockets := st.sockets.set s { sock with outs := sock.outs ++ [p] } }
        (.send s dest pkt timeout .count)
  | addOutNil {s dest pkt timeout} (hcopy : pkt.copy = none) :
      Move st (.send s dest pkt timeout .addOut) st (.send s dest pkt timeout .panicked)
  | countSent {s dest pkt timeout h} (hheader : pkt.header = some h) :
      Move st (.send s dest pkt timeout .count) { st with sendCounter := st.sendCounter + 1 }
        (.send s dest pkt timeout (.log h.relayedBy (st.sendCounter + 1)))
  | countSentNil {s dest pkt timeout} (hheader : pkt.header = none) :
      Move st (.send s dest pkt timeout .count) st (.send s dest pkt timeout .panicked)
  | logSent {s dest pkt timeout relayedBy n} {sock : Socket} {st' : State}
      (hsock : st.sockets[s]? = some sock)
      (hlog : st.addItem sock.transport .sent relayedBy dest pkt n = some st') :
      Move st (.send s dest pkt timeout (.log relayedBy n)) st'
        (.send s dest pkt timeout (.returned none))
  | await {s timeout} {sock : Socket} {tr : Transport} {e : ℤ}
      (hsock : st.sockets[s]? = some sock) (htr : st.transports[sock.transport]? = some tr) :
      Move st (.recv s timeout .lookup) st
        (.recv s timeout (.select (tr.incomings sock.myAddr) e))
  | take {s timeout c e} {ch ch' : Chan Packet} {pkt : Packet} (hch : st.chans[c]? = some ch)
      (hrecv : ch.recv = some (some pkt, ch')) :
      Move st (.recv s timeout (.select (some c) e)) { st with chans := st.chans.set c ch' }
        (.recv s timeout (.count pkt))
  | takeClosed {s timeout c e} {ch ch' : Chan Packet} (hch : st.chans[c]? = some ch)
      (hrecv : ch.recv = some (none, ch')) :
      Move st (.recv s timeout (.select (some c) e)) st (.recv s timeout .panicked)
  | countRecv {s timeout pkt h} (hheader : pkt.header = some h) :
      Move st (.recv s timeout (.count pkt)) { st with recvCounter := st.recvCounter + 1 }
        (.recv s timeout (.log pkt h.relayedBy (st.recvCounter + 1)))
  | countRecvNil {s timeout pkt} (hheader : pkt.header = none) :
      Move st (.recv s timeout (.count pkt)) st (.recv s timeout .panicked)
  | logRecv {s timeout pkt relayedBy n} {sock : Socket} {st' : State}
      (hsock : st.sockets[s]? = some sock)
      (hlog : st.addItem sock.transport .rcv relayedBy sock.myAddr pkt n = some st') :
      Move st (.recv s timeout (.log pkt relayedBy n)) st' (.recv s timeout (.addIn pkt))
  | addIn {s timeout pkt} {sock : Socket} {p : Packet}
      (hsock : st.sockets[s]? = some sock) (hcopy : pkt.copy = some p) :
      Move st (.recv s timeout (.addIn pkt))
        { st with sockets := st.sockets.set s { sock with ins := sock.ins ++ [p] } }
        (.recv s timeout (.returned (.ok pkt)))
  | addInNil {s timeout pkt} (hcopy : pkt.copy = none) :
      Move st (.recv s timeout (.addIn pkt)) st (.recv s timeout .panicked)

variable {st st' : State}

theorem move_of_runSend {s : ℕ} {dest : String} {pkt : Packet} {timeout : ℤ}
    {point point' : SendPoint} (h : st.runSend s dest pkt timeout point = some (st', point')) :
    Move st (.send s dest pkt timeout point) st' (.send s dest pkt timeout point') := by
  cases point with
  | lookup =>
      simp only [State.runSend, Option.bind_eq_bind, Option.bind_eq_some_iff] at h
      obtain ⟨sock, hsock, tr, htr, h⟩ := h
      split at h
      · next hnone =>
          cases h
          exact .notListening hsock htr hnone
      · next c hc =>
          split at h
          · next hcopy =>
              cases h
              exact .nilPointer hcopy
          · next offered hcopy =>
              cases h
              exact .offer hsock htr hc hcopy
  | select c offered d e =>
      simp only [State.runSend, Option.bind_eq_bind, Option.bind_eq_some_iff] at h
      obtain ⟨ch, hch, h⟩ := h
      split at h
      · next hready =>
          cases h
          exact .put hch hready
      · cases h
  | addOut =>
      simp only [State.runSend, Option.bind_eq_bind, Option.bind_eq_some_iff] at h
      obtain ⟨sock, hsock, h⟩ := h
      cases hcopy : pkt.copy with
      | none =>
          rw [add_of_copy_eq_none hcopy] at h
          cases h
          exact .addOutNil hcopy
      | some p =>
          rw [add_of_copy_eq_some hcopy] at h
          cases h
          exact .addOut hsock hcopy
  | count =>
      simp only [State.runSend] at h
      split at h
      · next hheader =>
          cases h
          exact .countSentNil hheader
      · next header hheader =>
          cases h
          exact .countSent hheader
  | log relayedBy n =>
      simp only [State.runSend, Option.bind_eq_bind, Option.bind_eq_some_iff] at h
      obtain ⟨sock, hsock, st'', hlog, h⟩ := h
      cases h
      exact .logSent hsock hlog
  | returned err => cases h
  | panicked => cases h

theorem move_of_runRecv {s : ℕ} {timeout : ℤ} {point point' : RecvPoint}
    (h : st.runRecv s timeout point = some (st', point')) :
    Move st (.recv s timeout point) st' (.recv s timeout point') := by
  cases point with
  | lookup =>
      simp only [State.runRecv, Option.bind_eq_bind, Option.bind_eq_some_iff] at h
      obtain ⟨sock, hsock, tr, htr, h⟩ := h
      cases h
      exact .await hsock htr
  | select myChan e =>
      cases myChan with
      | none => cases h
      | some c =>
          simp only [State.runRecv, Option.bind_eq_bind, Option.bind_eq_some_iff] at h
          obtain ⟨ch, hch, h⟩ := h
          split at h
          · cases h
          · next hrecv =>
              cases h
              exact .takeClosed hch hrecv
          · next pkt ch' hrecv =>
              cases h
              exact .take hch hrecv
  | count pkt =>
      simp only [State.runRecv] at h
      split at h
      · next hheader =>
          cases h
          exact .countRecvNil hheader
      · next header hheader =>
          cases h
          exact .countRecv hheader
  | log pkt relayedBy n =>
      simp only [State.runRecv, Option.bind_eq_bind, Option.bind_eq_some_iff] at h
      obtain ⟨sock, hsock, st'', hlog, h⟩ := h
      cases h
      exact .logRecv hsock hlog
  | addIn pkt =>
      simp only [State.runRecv, Option.bind_eq_bind, Option.bind_eq_some_iff] at h
      obtain ⟨sock, hsock, h⟩ := h
      cases hcopy : pkt.copy with
      | none =>
          rw [add_of_copy_eq_none hcopy] at h
          cases h
          exact .addInNil hcopy
      | some p =>
          rw [add_of_copy_eq_some hcopy] at h
          cases h
          exact .addIn hsock hcopy
  | returned res => cases h
  | panicked => cases h

theorem move_of_runCall {c c' : Call} (h : st.runCall c = some (st', c')) :
    Move st c st' c' := by
  cases c with
  | send s dest pkt timeout point =>
      obtain ⟨⟨st'', point'⟩, hrun, heq⟩ := Option.map_eq_some_iff.mp h
      cases heq
      exact move_of_runSend hrun
  | recv s timeout point =>
      obtain ⟨⟨st'', point'⟩, hrun, heq⟩ := Option.map_eq_some_iff.mp h
      cases heq
      exact move_of_runRecv hrun

/-- What the timer of a call does to it. -/
inductive Expiry (now : ℤ) : Call → Call → Prop where
  | send {s dest pkt timeout c offered d e} (hexpired : e ≤ now) :
      Expiry now (.send s dest pkt timeout (.select c offered d e))
        (.send s dest pkt timeout (.returned (some (.timeout d))))
  | recv {s timeout c e} (hexpired : e ≤ now) :
      Expiry now (.recv s timeout (.select c e))
        (.recv s timeout (.returned (.error (.timeout timeout))))

theorem expiry_of_expireCall {c c' : Call} (h : st.expireCall c = some c') :
    Expiry st.now c c' := by
  unfold State.expireCall at h
  split at h
  · split at h
    · next hexpired =>
        cases h
        exact .send hexpired
    · cases h
  · split at h
    · next hexpired =>
        cases h
        exact .recv hexpired
    · cases h
  · cases h

/-- An item is logged in the traffic of one transport. -/
theorem addItem_eq {t : ℕ} {typeStr : TypeStr} {relayedBy dest : String} {pkt : Packet} {n : ℕ}
    (h : st.addItem t typeStr relayedBy dest pkt n = some st') :
    ∃ tr, st.transports[t]? = some tr ∧
      st' = { st with
        globalCounter := st.globalCounter + 1
        transports := st.transports.set t
          { tr with traffic := tr.traffic ++
              [⟨relayedBy, dest, typeStr, pkt, st.globalCounter + 1, n⟩] } } := by
  obtain ⟨tr, htr, rfl⟩ := Option.map_eq_some_iff.mp h
  exact ⟨tr, htr, rfl⟩

/-- No step of a call changes the list of calls. -/
theorem Move.calls_eq {c c' : Call} (h : Move st c st' c') : st'.calls = st.calls := by
  cases h with
  | logSent _ hlog =>
      obtain ⟨tr, -, rfl⟩ := addItem_eq hlog
      rfl
  | logRecv _ hlog =>
      obtain ⟨tr, -, rfl⟩ := addItem_eq hlog
      rfl
  | _ => rfl

/-- The steps of the process. -/
inductive Step (st : State) : Action → State → Prop where
  | newTransport : Step st .newTransport { st with transports := st.transports ++ [.new] }
  | createSocket {t address st'} (h : st.createSocket t address = some st') :
      Step st (.createSocket t address) st'
  | close {s st'} (h : st.close s = some st') : Step st (.close s) st'
  | send {s dest pkt timeout} (hs : s < st.sockets.length) :
      Step st (.send s dest pkt timeout)
        { st with calls := st.calls ++ [.send s dest pkt timeout .lookup] }
  | recv {s timeout} (hs : s < st.sockets.length) :
      Step st (.recv s timeout) { st with calls := st.calls ++ [.recv s timeout .lookup] }
  | run {i c c' st'} (hc : st.calls[i]? = some c) (hmove : Move st c st' c') :
      Step st (.run i) { st' with calls := st.calls.set i c' }
  | expire {i c c'} (hc : st.calls[i]? = some c) (hexpiry : Expiry st.now c c') :
      Step st (.expire i) { st with calls := st.calls.set i c' }
  | tick {d} : Step st (.tick d) { st with now := st.now + d }

theorem step_of_next {a : Action} (h : st.next a = some st') : Step st a st' := by
  cases a with
  | newTransport =>
      cases h
      exact .newTransport
  | createSocket t address => exact .createSocket h
  | close s => exact .close h
  | send s dest pkt timeout =>
      obtain ⟨hs, heq⟩ := Option.ite_none_right_eq_some.mp h
      cases heq
      exact .send hs
  | recv s timeout =>
      obtain ⟨hs, heq⟩ := Option.ite_none_right_eq_some.mp h
      cases heq
      exact .recv hs
  | run i =>
      simp only [State.next, Option.bind_eq_bind, Option.bind_eq_some_iff] at h
      obtain ⟨c, hc, ⟨st'', c'⟩, hrun, h⟩ := h
      have hmove := move_of_runCall hrun
      cases h
      rw [hmove.calls_eq]
      exact .run hc hmove
  | expire i =>
      simp only [State.next, Option.bind_eq_bind, Option.bind_eq_some_iff] at h
      obtain ⟨c, hc, c', hexpire, h⟩ := h
      cases h
      exact .expire hc (expiry_of_expireCall hexpire)
  | tick d =>
      cases h
      exact .tick

/-! ## Packets are copies -/

theorem copy_copy {pkt p : Packet} (h : pkt.copy = some p) : p.copy = some p := by
  obtain ⟨_ | header, _ | msg⟩ := pkt
  · cases h
  · cases h
  · cases h
  · cases h
    rfl

theorem header_of_copy {pkt : Packet} (h : pkt.copy ≠ none) : pkt.header ≠ none := by
  rintro hheader
  apply h
  rw [Packet.copy, hheader]

/-- A call has offered what it was to send, and has taken a copy. -/
def Call.Copied : Call → Prop
  | .send _ _ _ _ .lookup => True
  | .send _ _ pkt _ (.select _ offered _ _) => pkt.copy = some offered
  | .send _ _ _ _ (.returned (some _)) => True
  | .send _ _ pkt _ .panicked => pkt.copy = none
  | .send _ _ pkt _ _ => pkt.copy ≠ none
  | .recv _ _ (.count p) => p.copy = some p
  | .recv _ _ (.log p _ _) => p.copy = some p
  | .recv _ _ (.addIn p) => p.copy = some p
  | .recv _ _ (.returned (.ok p)) => p.copy = some p
  | .recv _ _ .panicked => False
  | .recv _ _ _ => True

/-- Channels are open and hold copies, and so do sockets. -/
structure Copied (st : State) : Prop where
  calls : ∀ c ∈ st.calls, c.Copied
  closed : ∀ ch ∈ st.chans, ch.closed = false
  buf : ∀ ch ∈ st.chans, ∀ p ∈ ch.buf, p.copy = some p
  ins : ∀ sock ∈ st.sockets, ∀ p ∈ sock.ins, p.copy = some p
  outs : ∀ sock ∈ st.sockets, ∀ p ∈ sock.outs, p.copy = some p

namespace Copied

theorem setCall {i : ℕ} {c : Call} (h : Copied st) (hc : c.Copied) :
    Copied { st with calls := st.calls.set i c } :=
  { h with calls := forall_mem_set h.calls hc }

theorem newCall {c : Call} (h : Copied st) (hc : c.Copied) :
    Copied { st with calls := st.calls ++ [c] } :=
  { h with calls := forall_mem_concat h.calls hc }

theorem setChan {c : ℕ} {ch : Chan Packet} (h : Copied st) (hclosed : ch.closed = false)
    (hbuf : ∀ p ∈ ch.buf, p.copy = some p) : Copied { st with chans := st.chans.set c ch } :=
  { h with
    closed := forall_mem_set h.closed hclosed
    buf := forall_mem_set h.buf hbuf }

theorem setSocket {s : ℕ} {sock : Socket} (h : Copied st)
    (hins : ∀ p ∈ sock.ins, p.copy = some p) (houts : ∀ p ∈ sock.outs, p.copy = some p) :
    Copied { st with sockets := st.sockets.set s sock } :=
  { h with
    ins := forall_mem_set h.ins hins
    outs := forall_mem_set h.outs houts }

/-- Nothing here depends on the transports and the counters. -/
theorem congr (h : Copied st) (hcalls : st'.calls = st.calls) (hchans : st'.chans = st.chans)
    (hsockets : st'.sockets = st.sockets) : Copied st' where
  calls := hcalls ▸ h.calls
  closed := hchans ▸ h.closed
  buf := hchans ▸ h.buf
  ins := hsockets ▸ h.ins
  outs := hsockets ▸ h.outs

theorem move {i : ℕ} {c c' : Call} (h : Copied st) (hc : st.calls[i]? = some c)
    (hmove : Move st c st' c') : Copied { st' with calls := st.calls.set i c' } := by
  have hcall : c.Copied := h.calls c (List.mem_of_getElem? hc)
  cases hmove with
  | notListening => exact h.setCall trivial
  | nilPointer hcopy => exact h.setCall hcopy
  | offer _ _ _ hcopy => exact h.setCall hcopy
  | @put _ _ _ _ c offered _ _ ch hch hready =>
      have hmem := List.mem_of_getElem? hch
      have hput : Copied { st with chans := st.chans.set c (ch.send offered hready) } :=
        h.setChan (h.closed ch hmem) (forall_mem_concat (h.buf ch hmem) (copy_copy hcall))
      exact hput.setCall fun hnone => Option.some_ne_none _ (hcall.symm.trans hnone)
  | @addOut s _ _ _ sock p hsock hcopy =>
      have hmem := List.mem_of_getElem? hsock
      have hadd : Copied { st with
          sockets := st.sockets.set s { sock with outs := sock.outs ++ [p] } } :=
        h.setSocket (h.ins sock hmem) (forall_mem_concat (h.outs sock hmem) (copy_copy hcopy))
      exact hadd.setCall hcall
  | addOutNil hcopy => exact h.setCall hcopy
  | countSent => exact { h with calls := forall_mem_set h.calls hcall }
  | countSentNil hheader => exact absurd hheader (header_of_copy hcall)
  | logSent _ hlog =>
      obtain ⟨tr, -, rfl⟩ := addItem_eq hlog
      exact { h with calls := forall_mem_set h.calls hcall }
  | await => exact h.setCall trivial
  | @take _ _ c _ ch ch' pkt hch hrecv =>
      obtain ⟨hbuf, hclosed, -⟩ := Chan.recv_value hrecv
      have hmem := List.mem_of_getElem? hch
      have hcopied := h.buf ch hmem
      rw [hbuf] at hcopied
      have htake : Copied { st with chans := st.chans.set c ch' } :=
        h.setChan (hclosed.trans (h.closed ch hmem)) fun p hp =>
          hcopied p (List.mem_cons_of_mem _ hp)
      exact htake.setCall (hcopied pkt List.mem_cons_self)
  | takeClosed hch hrecv =>
      have hclosed := h.closed _ (List.mem_of_getElem? hch)
      rw [(Chan.recv_zero hrecv).2.2] at hclosed
      cases hclosed
  | countRecv => exact { h with calls := forall_mem_set h.calls hcall }
  | countRecvNil hheader =>
      exact absurd hheader (header_of_copy fun hnone =>
        Option.some_ne_none _ (hcall.symm.trans hnone))
  | logRecv _ hlog =>
      obtain ⟨tr, -, rfl⟩ := addItem_eq hlog
      exact { h with calls := forall_mem_set h.calls hcall }
  | @addIn s _ _ sock p hsock hcopy =>
      have hmem := List.mem_of_getElem? hsock
      have hadd : Copied { st with
          sockets := st.sockets.set s { sock with ins := sock.ins ++ [p] } } :=
        h.setSocket (forall_mem_concat (h.ins sock hmem) (copy_copy hcopy)) (h.outs sock hmem)
      exact hadd.setCall hcall
  | addInNil hcopy => exact absurd (hcall.symm.trans hcopy) (Option.some_ne_none _)

theorem step {a : Action} (h : Copied st) (hstep : Step st a st') : Copied st' := by
  cases hstep with
  | newTransport => exact h.congr rfl rfl rfl
  | createSocket hcreate =>
      obtain ⟨tr, -, rfl⟩ := Option.map_eq_some_iff.mp hcreate
      exact
        { calls := h.calls
          closed := forall_mem_concat h.closed rfl
          buf := forall_mem_concat h.buf fun _ hp => absurd hp List.not_mem_nil
          ins := forall_mem_concat h.ins fun _ hp => absurd hp List.not_mem_nil
          outs := forall_mem_concat h.outs fun _ hp => absurd hp List.not_mem_nil }
  | close hclose =>
      simp only [State.close, Option.bind_eq_bind, Option.bind_eq_some_iff] at hclose
      obtain ⟨sock, -, tr, -, heq⟩ := hclose
      cases heq
      exact h.congr rfl rfl rfl
  | send => exact h.newCall trivial
  | recv => exact h.newCall trivial
  | run hc hmove => exact h.move hc hmove
  | expire hc hexpiry =>
      cases hexpiry with
      | send => exact h.setCall trivial
      | recv => exact h.setCall trivial
  | tick => exact h.congr rfl rfl rfl

theorem of_reachable (h : process.Reachable st) : Copied st := by
  apply h.invariant
  · exact
      { calls := fun _ hc => absurd hc List.not_mem_nil
        closed := fun _ hc => absurd hc List.not_mem_nil
        buf := fun _ hc => absurd hc List.not_mem_nil
        ins := fun _ hc => absurd hc List.not_mem_nil
        outs := fun _ hc => absurd hc List.not_mem_nil }
  · exact fun s s' a _ hs _ hnext => hs.step (step_of_next hnext)

end Copied

theorem getAll_eq {data : List Packet} (h : ∀ p ∈ data, p.copy = some p) :
    getAll data = some data := by
  induction data with
  | nil => rfl
  | cons p data ih =>
      have hp := h p List.mem_cons_self
      have hdata := ih fun q hq => h q (List.mem_cons_of_mem p hq)
      rw [getAll] at hdata ⊢
      rw [List.mapM_cons, hp, hdata]
      rfl

/-- `GetIns` and `GetOuts` never panic, and give what the socket has kept. -/
theorem getAll_of_reachable {sock : Socket} (h : process.Reachable st)
    (hsock : sock ∈ st.sockets) :
    getAll sock.ins = some sock.ins ∧ getAll sock.outs = some sock.outs := by
  have hcopied := Copied.of_reachable h
  exact ⟨getAll_eq (hcopied.ins sock hsock), getAll_eq (hcopied.outs sock hsock)⟩

end Minotor.Channel
