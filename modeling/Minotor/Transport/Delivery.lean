import Minotor.Transport.ChannelSteps

/-!
# No packet is lost between channel sockets

The copies of a packet which sockets have received, which are being received and which
wait in channels are as many as those which sockets have sent and which are being sent.
-/

namespace Minotor.Channel

open Minotor.Transport (Packet)

variable {st st' : State}

/-- The copies of a packet which a call has put into a channel and not yet kept as sent. -/
def Call.sending (p : Packet) : Call → ℕ
  | .send _ _ pkt _ .addOut => pkt.copy.toList.count p
  | _ => 0

/-- The copies of a packet which a call has taken and not yet kept as received. -/
def Call.receiving (p : Packet) : Call → ℕ
  | .recv _ _ (.count pkt) => [pkt].count p
  | .recv _ _ (.log pkt _ _) => [pkt].count p
  | .recv _ _ (.addIn pkt) => [pkt].count p
  | _ => 0

namespace State

/-- The copies of a packet which sockets have kept as received. -/
def received (st : State) (p : Packet) : ℕ := total (fun sock => sock.ins.count p) st.sockets

/-- The copies of a packet which sockets have kept as sent. -/
def sent (st : State) (p : Packet) : ℕ := total (fun sock => sock.outs.count p) st.sockets

/-- The copies of a packet which wait in channels. -/
def waiting (st : State) (p : Packet) : ℕ := total (fun ch => ch.buf.count p) st.chans

def Balanced (st : State) (p : Packet) : Prop :=
  st.received p + total (Call.receiving p) st.calls + st.waiting p =
    st.sent p + total (Call.sending p) st.calls

variable {p : Packet}

/-- A step of a call which has no packet in its hands. -/
theorem Balanced.setCall {i : ℕ} {c c' : Call} (h : st.Balanced p) (hc : st.calls[i]? = some c)
    (hreceiving : c'.receiving p = c.receiving p) (hsending : c'.sending p = c.sending p) :
    { st with calls := st.calls.set i c' }.Balanced p := by
  simp only [Balanced, total_set_of_eq hc hreceiving, total_set_of_eq hc hsending]
  exact h

theorem Balanced.newCall {c : Call} (h : st.Balanced p) (hreceiving : c.receiving p = 0)
    (hsending : c.sending p = 0) : { st with calls := st.calls ++ [c] }.Balanced p := by
  simp only [Balanced, total_append, total_cons, total_nil, hreceiving, hsending]
  exact h

theorem Balanced.move {i : ℕ} {c c' : Call} (h : st.Balanced p) (hcopied : Copied st)
    (hc : st.calls[i]? = some c) (hmove : Move st c st' c') :
    { st' with calls := st.calls.set i c' }.Balanced p := by
  have hcall : c.Copied := hcopied.calls c (List.mem_of_getElem? hc)
  have hsending := total_set (f := Call.sending p) (b := c') hc
  have hreceiving := total_set (f := Call.receiving p) (b := c') hc
  cases hmove with
  | notListening => exact h.setCall hc rfl rfl
  | nilPointer => exact h.setCall hc rfl rfl
  | offer => exact h.setCall hc rfl rfl
  | @put _ _ _ _ c offered _ _ ch hch hready =>
      have hbuf := total_set (f := fun ch : Chan Packet => ch.buf.count p)
        (b := ch.send offered hready) hch
      have hoffered : _ = some offered := hcall
      simp only [Call.sending, Call.receiving, hoffered, Option.toList_some] at hsending hreceiving
      simp only [Chan.send_buf, List.count_append] at hbuf
      simp only [Balanced, received, sent, waiting] at h ⊢
      omega
  | @addOut s _ _ _ sock q hsock hcopy =>
      have houts := total_set (f := fun sock : Socket => sock.outs.count p)
        (b := { sock with outs := sock.outs ++ [q] }) hsock
      have hins := total_set_of_eq (f := fun sock : Socket => sock.ins.count p)
        (b := { sock with outs := sock.outs ++ [q] }) hsock rfl
      simp only [Call.sending, Call.receiving, hcopy, Option.toList_some] at hsending hreceiving
      simp only [List.count_append] at houts
      simp only [Balanced, received, sent, waiting] at h ⊢
      omega
  | addOutNil hcopy => exact absurd hcopy hcall
  | countSent => exact h.setCall hc rfl rfl
  | countSentNil => exact h.setCall hc rfl rfl
  | logSent _ hlog =>
      obtain ⟨tr, -, rfl⟩ := addItem_eq hlog
      exact h.setCall hc rfl rfl
  | await => exact h.setCall hc rfl rfl
  | @take _ _ c _ ch ch' pkt hch hrecv =>
      have hbuf := total_set (f := fun ch : Chan Packet => ch.buf.count p) (b := ch') hch
      have hcons : pkt :: ch'.buf = [pkt] ++ ch'.buf := rfl
      rw [(Chan.recv_value hrecv).1, hcons, List.count_append] at hbuf
      simp only [Call.sending, Call.receiving] at hsending hreceiving
      simp only [Balanced, received, sent, waiting] at h ⊢
      omega
  | takeClosed => exact h.setCall hc rfl rfl
  | countRecv => exact h.setCall hc rfl rfl
  | countRecvNil hheader =>
      exact absurd hheader (header_of_copy fun hnone =>
        Option.some_ne_none _ (hcall.symm.trans hnone))
  | logRecv _ hlog =>
      obtain ⟨tr, -, rfl⟩ := addItem_eq hlog
      exact h.setCall hc rfl rfl
  | @addIn s _ pkt sock q hsock hcopy =>
      have houts := total_set_of_eq (f := fun sock : Socket => sock.outs.count p)
        (b := { sock with ins := sock.ins ++ [q] }) hsock rfl
      have hins := total_set (f := fun sock : Socket => sock.ins.count p)
        (b := { sock with ins := sock.ins ++ [q] }) hsock
      obtain rfl := Option.some.inj (hcall.symm.trans hcopy)
      simp only [Call.sending, Call.receiving] at hsending hreceiving
      simp only [List.count_append] at hins
      simp only [Balanced, received, sent, waiting] at h ⊢
      omega
  | addInNil hcopy => exact absurd (hcall.symm.trans hcopy) (Option.some_ne_none _)

theorem Balanced.step {a : Action} (h : st.Balanced p) (hcopied : Copied st)
    (hstep : Step st a st') : st'.Balanced p := by
  cases hstep with
  | newTransport => exact h
  | createSocket hcreate =>
      obtain ⟨tr, -, rfl⟩ := Option.map_eq_some_iff.mp hcreate
      simp only [Balanced, received, sent, waiting, total_append, total_cons, total_nil,
        Chan.make_buf, List.count_nil, add_zero] at h ⊢
      exact h
  | close hclose =>
      simp only [State.close, Option.bind_eq_bind, Option.bind_eq_some_iff] at hclose
      obtain ⟨sock, -, tr, -, heq⟩ := hclose
      cases heq
      exact h
  | send => exact h.newCall rfl rfl
  | recv => exact h.newCall rfl rfl
  | run hc hmove => exact h.move hcopied hc hmove
  | expire hc hexpiry =>
      cases hexpiry with
      | send => exact h.setCall hc rfl rfl
      | recv => exact h.setCall hc rfl rfl
  | tick => exact h

end State

/-- In every run the copies of a packet which sockets have received, which are being received
and which wait in channels are as many as those which sockets have sent and which are being
sent. -/
theorem conserved (h : process.Reachable st) (p : Packet) :
    st.received p + total (Call.receiving p) st.calls + st.waiting p =
      st.sent p + total (Call.sending p) st.calls := by
  apply h.invariant (I := fun st => st.Balanced p)
  · rfl
  · exact fun s s' a hs hbalanced _ hnext =>
      hbalanced.step (Copied.of_reachable hs) (step_of_next hnext)

theorem conserved_sample : ∃ st, process.Reachable st ∧ st.received samplePacket = 1 ∧
    st.received samplePacket + total (Call.receiving samplePacket) st.calls +
      st.waiting samplePacket =
      st.sent samplePacket + total (Call.sending samplePacket) st.calls := by
  obtain ⟨st, hreach, hreceived⟩ := process.exists_of_replay (fun _ _ => True) sampleRun
    (fun st => st.received samplePacket = 1) (by decide +kernel)
  exact ⟨st, hreach, hreceived, conserved hreach samplePacket⟩

end Minotor.Channel
