import Minotor.Transport.ChannelSteps

/-!
# The order of packets between channel sockets

A history of the channels which were made and of the packets which were put into them and
taken out of them.  Every channel is a queue of at most 100 packets.  A packet is taken by
a socket with the address which it was sent to, on the same transport, and a call puts or
takes one packet exactly if it succeeds.
-/

namespace Minotor.Channel

open Minotor.Transport (Packet)

/-- A packet which a call puts into a channel or takes out of it. -/
structure Passing where
  chan : ℕ
  call : ℕ
  pkt : Packet

/-- For which transport and address each channel was made, and what has passed. -/
structure History where
  made : List (ℕ × String)
  puts : List Passing
  takes : List Passing

/-- What a step adds to the history. -/
def record (st : State) : Action → History → History
  | .createSocket t address, h =>
      { h with made := h.made ++ [(t, (assign st.counter address).2)] }
  | .run i, h =>
      match st.calls[i]? with
      | some (.send _ _ _ _ (.select c offered _ _)) =>
          { h with puts := h.puts ++ [⟨c, i, offered⟩] }
      | some (.recv _ _ (.select (some c) _)) =>
          { h with takes := h.takes ++
              ((st.chans[c]?.bind fun ch => ch.buf.head?).map fun pkt => ⟨c, i, pkt⟩).toList }
      | _ => h
  | _, h => h

/-- The process with its history. -/
def traced : TransitionSystem (State × History) Action := process.withHistory ⟨[], [], []⟩ record

/-- The packets which have passed a channel. -/
def through (c : ℕ) (ps : List Passing) : List Packet :=
  (ps.filter fun e => e.chan = c).map Passing.pkt

/-- The packets which a call has passed. -/
def ofCall (i : ℕ) (ps : List Passing) : List Packet :=
  (ps.filter fun e => e.call = i).map Passing.pkt

/-- The transport and the address of a socket. -/
def State.place (st : State) (s : ℕ) : Option (ℕ × String) :=
  st.sockets[s]?.map fun sock => (sock.transport, sock.myAddr)

namespace Call

/-- The transport and the address which a call sends to or receives at. -/
def target (place : ℕ → Option (ℕ × String)) : Call → Option (ℕ × String)
  | .send s dest _ _ _ => (place s).map fun p => (p.1, dest)
  | .recv s _ _ => place s

/-- The channel at which a call waits. -/
def chan : Call → Option ℕ
  | .send _ _ _ _ (.select c _ _ _) => some c
  | .recv _ _ (.select c _) => c
  | _ => none

/-- The packet which a call of `Send` has put into a channel. -/
def put : Call → Option Packet
  | .send _ _ pkt _ .addOut => pkt.copy
  | .send _ _ pkt _ .count => pkt.copy
  | .send _ _ pkt _ (.log _ _) => pkt.copy
  | .send _ _ pkt _ (.returned none) => pkt.copy
  | _ => none

/-- The packet which a call of `Recv` has taken out of a channel. -/
def taken : Call → Option Packet
  | .recv _ _ (.count pkt) => some pkt
  | .recv _ _ (.log pkt _ _) => some pkt
  | .recv _ _ (.addIn pkt) => some pkt
  | .recv _ _ (.returned (.ok pkt)) => some pkt
  | _ => none

end Call

/-- Channels are queues between the addresses which they were made for. -/
structure InOrder (st : State) (hist : History) : Prop where
  made : hist.made.length = st.chans.length
  mapped : ∀ t (tr : Transport) address c, st.transports[t]? = some tr →
    tr.incomings address = some c → hist.made[c]? = some (t, address)
  /-- first in, first out -/
  queue : ∀ c ch, st.chans[c]? = some ch → through c hist.takes ++ ch.buf = through c hist.puts
  capacity : ∀ ch ∈ st.chans, ch.cap = 100
  /-- calls wait at channels of the address which they send to or receive at -/
  aimed : ∀ c ∈ st.calls, ∀ k ∈ c.chan, ∃ p,
    c.target st.place = some p ∧ hist.made[k]? = some p
  /-- and so do the packets pass -/
  placed : ∀ e, e ∈ hist.puts ∨ e ∈ hist.takes → ∃ c p, st.calls[e.call]? = some c ∧
    c.target st.place = some p ∧ hist.made[e.chan]? = some p
  puts : ∀ i (c : Call), st.calls[i]? = some c → ofCall i hist.puts = c.put.toList
  takes : ∀ i (c : Call), st.calls[i]? = some c → ofCall i hist.takes = c.taken.toList

/-! ## Small facts -/

section

variable {c i : ℕ} {ps : List Passing} {e : Passing} {st st' : State} {hist : History}

@[simp] theorem through_concat :
    through c (ps ++ [e]) = through c ps ++ if e.chan = c then [e.pkt] else [] := by
  by_cases h : e.chan = c
  · simp [through, h]
  · simp [through, h]

@[simp] theorem ofCall_concat :
    ofCall i (ps ++ [e]) = ofCall i ps ++ if e.call = i then [e.pkt] else [] := by
  by_cases h : e.call = i
  · simp [ofCall, h]
  · simp [ofCall, h]

theorem through_eq_nil (h : ∀ e ∈ ps, e.chan ≠ c) : through c ps = [] := by
  rw [through, List.map_eq_nil_iff, List.filter_eq_nil_iff]
  intro e he
  simpa using h e he

theorem ofCall_eq_nil (h : ∀ e ∈ ps, e.call ≠ i) : ofCall i ps = [] := by
  rw [ofCall, List.map_eq_nil_iff, List.filter_eq_nil_iff]
  intro e he
  simpa using h e he

/-- A call keeps its target. -/
theorem Move.target_eq {c c' : Call} (h : Move st c st' c')
    (place : ℕ → Option (ℕ × String)) : c'.target place = c.target place := by
  cases h with
  | _ => rfl

theorem Expiry.target_eq {now : ℤ} {c c' : Call} (h : Expiry now c c')
    (place : ℕ → Option (ℕ × String)) : c'.target place = c.target place := by
  cases h with
  | _ => rfl

/-- A socket keeps its place. -/
theorem place_set {s : ℕ} {sock sock' : Socket} (hsock : st.sockets[s]? = some sock)
    (htransport : sock'.transport = sock.transport) (haddr : sock'.myAddr = sock.myAddr) :
    State.place { st with sockets := st.sockets.set s sock' } = st.place := by
  funext s'
  by_cases h : s' = s
  · subst h
    obtain ⟨hlt, -⟩ := List.getElem?_eq_some_iff.mp hsock
    simp only [State.place, List.getElem?_set_self hlt, hsock, Option.map_some, htransport, haddr]
  · simp only [State.place, List.getElem?_set_ne (Ne.symm h)]

end

/-! ## What each step keeps -/

namespace InOrder

variable {st st' : State} {hist : History} {i : ℕ} {c c' : Call}

/-- A passed packet stays that of its call. -/
theorem placed_setCall (h : InOrder st hist) (hc : st.calls[i]? = some c)
    (htarget : c'.target st.place = c.target st.place) {e : Passing}
    (he : e ∈ hist.puts ∨ e ∈ hist.takes) : ∃ c₀ p, (st.calls.set i c')[e.call]? = some c₀ ∧
      c₀.target st.place = some p ∧ hist.made[e.chan]? = some p := by
  obtain ⟨c₀, p, hcall, hp, hmade⟩ := h.placed e he
  by_cases hi : e.call = i
  · rw [hi] at hcall ⊢
    obtain rfl := Option.some.inj (hc.symm.trans hcall)
    have hlt := (List.getElem?_eq_some_iff.mp hc).1
    exact ⟨c', p, List.getElem?_set_self hlt, htarget.trans hp, hmade⟩
  · exact ⟨c₀, p, (List.getElem?_set_ne (Ne.symm hi)).trans hcall, hp, hmade⟩

/-- A step of a call which no packet passes in. -/
theorem setCall (h : InOrder st hist) (hc : st.calls[i]? = some c)
    (htarget : c'.target st.place = c.target st.place)
    (haimed : ∀ k ∈ c'.chan, ∃ p, c'.target st.place = some p ∧ hist.made[k]? = some p)
    (hput : c'.put = c.put) (htaken : c'.taken = c.taken) :
    InOrder { st with calls := st.calls.set i c' } hist where
  made := h.made
  mapped := h.mapped
  queue := h.queue
  capacity := h.capacity
  aimed := forall_mem_set h.aimed haimed
  placed e he := h.placed_setCall hc htarget he
  puts j c₀ hj := by
    rcases getElem?_set_cases hc hj with ⟨rfl, rfl⟩ | ⟨-, hj⟩
    · rw [hput]
      exact h.puts _ c hc
    · exact h.puts j c₀ hj
  takes j c₀ hj := by
    rcases getElem?_set_cases hc hj with ⟨rfl, rfl⟩ | ⟨-, hj⟩
    · rw [htaken]
      exact h.takes _ c hc
    · exact h.takes j c₀ hj

/-- The same of a call which then waits at no channel. -/
theorem leave (h : InOrder st hist) (hc : st.calls[i]? = some c)
    (htarget : c'.target st.place = c.target st.place) (hchan : c'.chan = none)
    (hput : c'.put = c.put) (htaken : c'.taken = c.taken) :
    InOrder { st with calls := st.calls.set i c' } hist := by
  apply h.setCall hc htarget _ hput htaken
  rw [hchan]
  exact fun _ hk => absurd hk (Option.not_mem_none _)

/-- Logs and counters do not matter, nor does what sockets have kept. -/
theorem congr (h : InOrder st hist) (hchans : st'.chans = st.chans)
    (hmapped : ∀ (t : ℕ) (tr' : Transport) address c, st'.transports[t]? = some tr' →
      tr'.incomings address = some c → ∃ tr : Transport, st.transports[t]? = some tr ∧
        tr.incomings address = some c)
    (hplace : st'.place = st.place) (hcalls : st'.calls = st.calls) : InOrder st' hist where
  made := hchans ▸ h.made
  mapped t tr' address c htr hc := by
    obtain ⟨tr, htr, hc⟩ := hmapped t tr' address c htr hc
    exact h.mapped t tr address c htr hc
  queue := hchans ▸ h.queue
  capacity := hchans ▸ h.capacity
  aimed := by
    rw [hcalls, hplace]
    exact h.aimed
  placed := by
    rw [hcalls, hplace]
    exact h.placed
  puts := hcalls ▸ h.puts
  takes := hcalls ▸ h.takes

/-- A packet is put into the channel which its call waits at. -/
theorem put {k : ℕ} {ch : Chan Packet} {offered : Packet} (h : InOrder st hist)
    (hc : st.calls[i]? = some c) (hk : c.chan = some k) (hch : st.chans[k]? = some ch)
    (hready : ch.Ready) (htarget : c'.target st.place = c.target st.place)
    (hchan : c'.chan = none) (hput : c.put = none) (hput' : c'.put = some offered)
    (htaken : c'.taken = c.taken) :
    InOrder { st with
        chans := st.chans.set k (ch.send offered hready)
        calls := st.calls.set i c' }
      { hist with puts := hist.puts ++ [⟨k, i, offered⟩] } where
  made := by
    rw [List.length_set]
    exact h.made
  mapped := h.mapped
  queue k' ch' hch' := by
    rcases getElem?_set_cases hch hch' with ⟨rfl, rfl⟩ | ⟨hne, hch'⟩
    · rw [through_concat, if_pos rfl, Chan.send_buf, ← List.append_assoc, h.queue _ ch hch]
    · rw [through_concat, if_neg (Ne.symm hne), List.append_nil]
      exact h.queue k' ch' hch'
  capacity := forall_mem_set h.capacity (h.capacity ch (List.mem_of_getElem? hch))
  aimed := by
    apply forall_mem_set h.aimed
    rw [hchan]
    exact fun _ hnone => absurd hnone (Option.not_mem_none _)
  placed e he := by
    rcases he with he | he
    · rcases List.mem_append.mp he with he | he
      · exact h.placed_setCall hc htarget (Or.inl he)
      · obtain rfl := List.mem_singleton.mp he
        obtain ⟨p, hp, hmade⟩ := h.aimed c (List.mem_of_getElem? hc) k hk
        have hlt := (List.getElem?_eq_some_iff.mp hc).1
        exact ⟨c', p, List.getElem?_set_self hlt, htarget.trans hp, hmade⟩
    · exact h.placed_setCall hc htarget (Or.inr he)
  puts j c₀ hj := by
    rcases getElem?_set_cases hc hj with ⟨rfl, rfl⟩ | ⟨hne, hj⟩
    · rw [ofCall_concat, if_pos rfl, h.puts _ c hc, hput, hput']
      rfl
    · rw [ofCall_concat, if_neg (Ne.symm hne), List.append_nil]
      exact h.puts j c₀ hj
  takes j c₀ hj := by
    rcases getElem?_set_cases hc hj with ⟨rfl, rfl⟩ | ⟨-, hj⟩
    · rw [htaken]
      exact h.takes _ c hc
    · exact h.takes j c₀ hj

/-- A packet is taken out of the channel which its call waits at. -/
theorem take {k : ℕ} {ch ch' : Chan Packet} {pkt : Packet} (h : InOrder st hist)
    (hc : st.calls[i]? = some c) (hk : c.chan = some k) (hch : st.chans[k]? = some ch)
    (hrecv : ch.recv = some (some pkt, ch')) (htarget : c'.target st.place = c.target st.place)
    (hchan : c'.chan = none) (hput : c'.put = c.put) (htaken : c.taken = none)
    (htaken' : c'.taken = some pkt) :
    InOrder { st with
        chans := st.chans.set k ch'
        calls := st.calls.set i c' }
      { hist with takes := hist.takes ++ [⟨k, i, pkt⟩] } where
  made := by
    rw [List.length_set]
    exact h.made
  mapped := h.mapped
  queue k' ch₀ hch₀ := by
    rcases getElem?_set_cases hch hch₀ with ⟨rfl, rfl⟩ | ⟨hne, hch₀⟩
    · rw [through_concat, if_pos rfl, ← h.queue _ ch hch, (Chan.recv_value hrecv).1,
        List.append_assoc]
      rfl
    · rw [through_concat, if_neg (Ne.symm hne), List.append_nil]
      exact h.queue k' ch₀ hch₀
  capacity := by
    apply forall_mem_set h.capacity
    exact (Chan.recv_value hrecv).2.2.trans (h.capacity ch (List.mem_of_getElem? hch))
  aimed := by
    apply forall_mem_set h.aimed
    rw [hchan]
    exact fun _ hnone => absurd hnone (Option.not_mem_none _)
  placed e he := by
    rcases he with he | he
    · exact h.placed_setCall hc htarget (Or.inl he)
    · rcases List.mem_append.mp he with he | he
      · exact h.placed_setCall hc htarget (Or.inr he)
      · obtain rfl := List.mem_singleton.mp he
        obtain ⟨p, hp, hmade⟩ := h.aimed c (List.mem_of_getElem? hc) k hk
        have hlt := (List.getElem?_eq_some_iff.mp hc).1
        exact ⟨c', p, List.getElem?_set_self hlt, htarget.trans hp, hmade⟩
  puts j c₀ hj := by
    rcases getElem?_set_cases hc hj with ⟨rfl, rfl⟩ | ⟨-, hj⟩
    · rw [hput]
      exact h.puts _ c hc
    · exact h.puts j c₀ hj
  takes j c₀ hj := by
    rcases getElem?_set_cases hc hj with ⟨rfl, rfl⟩ | ⟨hne, hj⟩
    · rw [ofCall_concat, if_pos rfl, h.takes _ c hc, htaken, htaken']
      rfl
    · rw [ofCall_concat, if_neg (Ne.symm hne), List.append_nil]
      exact h.takes j c₀ hj

/-- A log does not change which channels have an address. -/
theorem mapped_of_addItem {t : ℕ} {typeStr : TypeStr} {relayedBy dest : String} {pkt : Packet}
    {n : ℕ} (h : st.addItem t typeStr relayedBy dest pkt n = some st') (t' : ℕ)
    (tr' : Transport) (address : String) (k : ℕ) (htr : st'.transports[t']? = some tr')
    (hk : tr'.incomings address = some k) :
    ∃ tr : Transport, st.transports[t']? = some tr ∧ tr.incomings address = some k := by
  obtain ⟨tr, htr₀, rfl⟩ := addItem_eq h
  rcases getElem?_set_cases htr₀ htr with ⟨rfl, rfl⟩ | ⟨-, htr⟩
  · exact ⟨tr, htr₀, hk⟩
  · exact ⟨tr', htr, hk⟩

theorem addItem {t : ℕ} {typeStr : TypeStr} {relayedBy dest : String} {pkt : Packet} {n : ℕ}
    (h : InOrder st hist) (hlog : st.addItem t typeStr relayedBy dest pkt n = some st') :
    InOrder st' hist := by
  have hmapped := mapped_of_addItem hlog
  obtain ⟨tr, -, rfl⟩ := addItem_eq hlog
  exact h.congr rfl hmapped rfl rfl

theorem setSocket {s : ℕ} {sock sock' : Socket} (h : InOrder st hist)
    (hsock : st.sockets[s]? = some sock) (htransport : sock'.transport = sock.transport)
    (haddr : sock'.myAddr = sock.myAddr) :
    InOrder { st with sockets := st.sockets.set s sock' } hist :=
  h.congr rfl (fun _ tr _ _ htr hk => ⟨tr, htr, hk⟩) (place_set hsock htransport haddr) rfl

theorem move (h : InOrder st hist) (hcopied : Copied st) (hc : st.calls[i]? = some c)
    (hmove : Move st c st' c') :
    InOrder { st' with calls := st.calls.set i c' } (record st (.run i) hist) := by
  have hcall : c.Copied := hcopied.calls c (List.mem_of_getElem? hc)
  have hsame : ∀ (t : ℕ) (tr : Transport) (address : String) (k : ℕ),
      st.transports[t]? = some tr → tr.incomings address = some k →
        ∃ tr : Transport, st.transports[t]? = some tr ∧ tr.incomings address = some k :=
    fun _ tr _ _ htr hk => ⟨tr, htr, hk⟩
  simp only [record, hc]
  cases hmove with
  | notListening => exact h.leave hc rfl rfl rfl rfl
  | nilPointer => exact h.leave hc rfl rfl rfl rfl
  | @offer s dest _ _ sock tr k offered _ _ hsock htr hk =>
      refine h.setCall hc rfl ?_ rfl rfl
      rintro k' hk'
      obtain rfl := Option.some.inj hk'
      refine ⟨(sock.transport, dest), ?_, h.mapped _ tr dest k htr hk⟩
      simp only [Call.target, State.place, hsock, Option.map_some]
  | put hch hready => exact h.put hc rfl hch hready rfl rfl rfl hcall rfl
  | @addOut s _ _ _ sock p hsock hcopy =>
      have hadd : InOrder { st with
          sockets := st.sockets.set s { sock with outs := sock.outs ++ [p] } } hist :=
        h.setSocket hsock rfl rfl
      exact hadd.leave hc rfl rfl rfl rfl
  | addOutNil hcopy => exact absurd hcopy hcall
  | countSent =>
      have hcount : InOrder { st with sendCounter := st.sendCounter + 1 } hist :=
        h.congr rfl hsame rfl rfl
      exact hcount.leave hc rfl rfl rfl rfl
  | countSentNil hheader => exact absurd hheader (header_of_copy hcall)
  | logSent hsock hlog =>
      have hcalls := addItem_eq hlog
      obtain ⟨tr, -, rfl⟩ := hcalls
      exact (h.addItem hlog).leave hc rfl rfl rfl rfl
  | @await s _ sock tr _ hsock htr =>
      refine h.setCall hc rfl ?_ rfl rfl
      intro k hk
      refine ⟨(sock.transport, sock.myAddr), ?_, h.mapped _ tr sock.myAddr k htr hk⟩
      simp only [Call.target, State.place, hsock, Option.map_some]
  | @take _ _ k _ ch ch' pkt hch hrecv =>
      simp only [hch, Option.bind_some, (Chan.recv_value hrecv).1, List.head?_cons,
        Option.map_some, Option.toList_some]
      exact h.take hc rfl hch hrecv rfl rfl rfl rfl rfl
  | takeClosed hch hrecv =>
      have hclosed := hcopied.closed _ (List.mem_of_getElem? hch)
      rw [(Chan.recv_zero hrecv).2.2] at hclosed
      cases hclosed
  | countRecv =>
      have hcount : InOrder { st with recvCounter := st.recvCounter + 1 } hist :=
        h.congr rfl hsame rfl rfl
      exact hcount.leave hc rfl rfl rfl rfl
  | countRecvNil hheader =>
      exact absurd hheader (header_of_copy fun hnone =>
        Option.some_ne_none _ (hcall.symm.trans hnone))
  | logRecv hsock hlog =>
      have hcalls := addItem_eq hlog
      obtain ⟨tr, -, rfl⟩ := hcalls
      exact (h.addItem hlog).leave hc rfl rfl rfl rfl
  | @addIn s _ _ sock p hsock hcopy =>
      have hadd : InOrder { st with
          sockets := st.sockets.set s { sock with ins := sock.ins ++ [p] } } hist :=
        h.setSocket hsock rfl rfl
      exact hadd.leave hc rfl rfl rfl rfl
  | addInNil hcopy => exact absurd (hcall.symm.trans hcopy) (Option.some_ne_none _)

theorem target_mono {place place' : ℕ → Option (ℕ × String)} {p : ℕ × String}
    (hplace : ∀ s p, place s = some p → place' s = some p) (h : c.target place = some p) :
    c.target place' = some p := by
  cases c with
  | send s dest pkt timeout point =>
      obtain ⟨q, hq, rfl⟩ := Option.map_eq_some_iff.mp h
      exact Option.map_eq_some_iff.mpr ⟨q, hplace s q hq, rfl⟩
  | recv s timeout point => exact hplace s p h

theorem chan_lt (h : InOrder st hist) {e : Passing} (he : e ∈ hist.puts ∨ e ∈ hist.takes) :
    e.chan < st.chans.length := by
  obtain ⟨_, _, _, _, hmade⟩ := h.placed e he
  rw [← h.made]
  exact (List.getElem?_eq_some_iff.mp hmade).1

theorem call_lt (h : InOrder st hist) {e : Passing} (he : e ∈ hist.puts ∨ e ∈ hist.takes) :
    e.call < st.calls.length := by
  obtain ⟨_, _, hcall, _⟩ := h.placed e he
  exact (List.getElem?_eq_some_iff.mp hcall).1

/-- A socket is created, with a channel of its own. -/
theorem create {t : ℕ} {address : String} {tr : Transport} {n : UInt32} (h : InOrder st hist)
    (htr : st.transports[t]? = some tr) :
    InOrder { st with
        counter := n
        chans := st.chans ++ [Chan.make 100]
        transports := st.transports.set t
          { tr with incomings := Function.update tr.incomings address (some st.chans.length) }
        sockets := st.sockets ++ [⟨t, address, [], []⟩] }
      { hist with made := hist.made ++ [(t, address)] } := by
  have hmade : ∀ {k : ℕ} {p : ℕ × String}, hist.made[k]? = some p →
      (hist.made ++ [(t, address)])[k]? = some p := fun hk =>
    (List.getElem?_append_left (List.getElem?_eq_some_iff.mp hk).1).trans hk
  have hplace : ∀ s p, st.place s = some p →
      (st.sockets ++ [⟨t, address, [], []⟩])[s]?.map (fun sock => (sock.transport, sock.myAddr)) =
        some p := by
    intro s p hs
    obtain ⟨sock, hsock, rfl⟩ := Option.map_eq_some_iff.mp hs
    rw [List.getElem?_append_left (List.getElem?_eq_some_iff.mp hsock).1, hsock]
    rfl
  exact
    { made := by rw [List.length_append, List.length_append, h.made]; rfl
      mapped := by
        intro t' tr' address' k htr' hk
        rcases getElem?_set_cases htr htr' with ⟨rfl, rfl⟩ | ⟨-, htr'⟩
        · dsimp only at hk ⊢
          by_cases haddress : address' = address
          · subst haddress
            rw [Function.update_self, Option.some.injEq, ← h.made] at hk
            rw [← hk, List.getElem?_concat_length]
          · rw [Function.update_of_ne haddress] at hk
            exact hmade (h.mapped _ tr address' k htr hk)
        · exact hmade (h.mapped t' tr' address' k htr' hk)
      queue := by
        intro k ch hch
        rcases Nat.lt_or_ge k st.chans.length with hlt | hge
        · rw [List.getElem?_append_left hlt] at hch
          exact h.queue k ch hch
        · have hbuf : ch.buf = [] := by
            rw [List.getElem?_append_right hge] at hch
            rw [List.mem_singleton.mp (List.mem_of_getElem? hch), Chan.make_buf]
          have hne : ∀ e, e ∈ hist.puts ∨ e ∈ hist.takes → e.chan ≠ k :=
            fun e he => Nat.ne_of_lt (Nat.lt_of_lt_of_le (h.chan_lt he) hge)
          rw [hbuf, through_eq_nil fun e he => hne e (Or.inl he),
            through_eq_nil fun e he => hne e (Or.inr he), List.append_nil]
      capacity := forall_mem_concat h.capacity rfl
      aimed := by
        intro c hc k hk
        obtain ⟨p, hp, hpk⟩ := h.aimed c hc k hk
        exact ⟨p, target_mono hplace hp, hmade hpk⟩
      placed := by
        intro e he
        obtain ⟨c, p, hc, hp, hpk⟩ := h.placed e he
        exact ⟨c, p, hc, target_mono hplace hp, hmade hpk⟩
      puts := h.puts
      takes := h.takes }

/-- A call begins. -/
theorem newCall (h : InOrder st hist) (hchan : c.chan = none) (hput : c.put = none)
    (htaken : c.taken = none) : InOrder { st with calls := st.calls ++ [c] } hist where
  made := h.made
  mapped := h.mapped
  queue := h.queue
  capacity := h.capacity
  aimed := by
    apply forall_mem_concat h.aimed
    rw [hchan]
    exact fun _ hk => absurd hk (Option.not_mem_none _)
  placed e he := by
    obtain ⟨c₀, p, hc₀, hp, hmade⟩ := h.placed e he
    exact ⟨c₀, p, (List.getElem?_append_left (h.call_lt he)).trans hc₀, hp, hmade⟩
  puts j c₀ hj := by
    rcases Nat.lt_or_ge j st.calls.length with hlt | hge
    · rw [List.getElem?_append_left hlt] at hj
      exact h.puts j c₀ hj
    · rw [List.getElem?_append_right hge] at hj
      rw [List.mem_singleton.mp (List.mem_of_getElem? hj), hput]
      exact ofCall_eq_nil fun e he =>
        Nat.ne_of_lt (Nat.lt_of_lt_of_le (h.call_lt (Or.inl he)) hge)
  takes j c₀ hj := by
    rcases Nat.lt_or_ge j st.calls.length with hlt | hge
    · rw [List.getElem?_append_left hlt] at hj
      exact h.takes j c₀ hj
    · rw [List.getElem?_append_right hge] at hj
      rw [List.mem_singleton.mp (List.mem_of_getElem? hj), htaken]
      exact ofCall_eq_nil fun e he =>
        Nat.ne_of_lt (Nat.lt_of_lt_of_le (h.call_lt (Or.inr he)) hge)

theorem step {a : Action} (h : InOrder st hist) (hcopied : Copied st) (hstep : Step st a st') :
    InOrder st' (record st a hist) := by
  cases hstep with
  | newTransport =>
      refine h.congr rfl ?_ rfl rfl
      intro t tr' address k htr hk
      rcases Nat.lt_or_ge t st.transports.length with hlt | hge
      · rw [List.getElem?_append_left hlt] at htr
        exact ⟨tr', htr, hk⟩
      · rw [List.getElem?_append_right hge] at htr
        rw [List.mem_singleton.mp (List.mem_of_getElem? htr)] at hk
        cases hk
  | createSocket hcreate =>
      obtain ⟨tr, htr, rfl⟩ := Option.map_eq_some_iff.mp hcreate
      exact h.create htr
  | close hclose =>
      simp only [State.close, Option.bind_eq_bind, Option.bind_eq_some_iff] at hclose
      obtain ⟨sock, -, tr, htr, heq⟩ := hclose
      cases heq
      refine h.congr rfl ?_ rfl rfl
      intro t' tr' address k htr' hk
      rcases getElem?_set_cases htr htr' with ⟨rfl, rfl⟩ | ⟨-, htr'⟩
      · dsimp only at hk
        by_cases haddress : address = sock.myAddr
        · subst haddress
          rw [Function.update_self] at hk
          cases hk
        · rw [Function.update_of_ne haddress] at hk
          exact ⟨tr, htr, hk⟩
      · exact ⟨tr', htr', hk⟩
  | send => exact h.newCall rfl rfl rfl
  | recv => exact h.newCall rfl rfl rfl
  | run hc hmove => exact h.move hcopied hc hmove
  | expire hc hexpiry =>
      cases hexpiry with
      | send => exact h.leave hc rfl rfl rfl rfl
      | recv => exact h.leave hc rfl rfl rfl rfl
  | tick => exact h.congr rfl (fun _ tr _ _ htr hk => ⟨tr, htr, hk⟩) rfl rfl

theorem of_reachable {hist : History} (h : traced.Reachable (st, hist)) : InOrder st hist := by
  suffices hboth : ∀ s, traced.Reachable s → InOrder s.1 s.2 from hboth _ h
  intro s hs
  apply hs.invariant (I := fun s => InOrder s.1 s.2)
  · exact
      { made := rfl
        mapped := fun _ _ _ _ htr => absurd htr (Option.some_ne_none _).symm
        queue := fun _ _ hch => absurd hch (Option.some_ne_none _).symm
        capacity := fun _ hch => absurd hch List.not_mem_nil
        aimed := fun _ hc => absurd hc List.not_mem_nil
        placed := fun _ he => absurd he (not_or.mpr ⟨List.not_mem_nil, List.not_mem_nil⟩)
        puts := fun _ _ hc => absurd hc (Option.some_ne_none _).symm
        takes := fun _ _ hc => absurd hc (Option.some_ne_none _).symm }
  · intro s s' a hreach hinv _ hnext
    obtain ⟨hstep, hrecord⟩ := TransitionSystem.withHistory_next.mp hnext
    rw [hrecord]
    exact hinv.step (Copied.of_reachable hreach.of_history) (step_of_next hstep)

end InOrder

/-- In every run the packets taken out of a channel are the first ones put into it, in the same
order, and at most 100 more wait there.  Each was put and taken by calls for the same transport
and address, and was the packet of a call which has succeeded. -/
theorem in_order {st : State} {hist : History} (h : traced.Reachable (st, hist)) :
    (∀ c ch, st.chans[c]? = some ch → through c hist.takes ++ ch.buf = through c hist.puts ∧
      ch.buf.length ≤ 100) ∧
    (∀ e, e ∈ hist.puts ∨ e ∈ hist.takes → ∃ c p, st.calls[e.call]? = some c ∧
      c.target st.place = some p ∧ hist.made[e.chan]? = some p) ∧
    (∀ i (c : Call), st.calls[i]? = some c →
      ofCall i hist.puts = c.put.toList ∧ ofCall i hist.takes = c.taken.toList) := by
  have horder := InOrder.of_reachable h
  refine ⟨?_, horder.placed, fun i c hc => ⟨horder.puts i c hc, horder.takes i c hc⟩⟩
  intro c ch hch
  refine ⟨horder.queue c ch hch, ?_⟩
  have hcap := horder.capacity ch (List.mem_of_getElem? hch)
  exact hcap ▸ ch.bounded

theorem in_order_sample : ∃ st hist, traced.Reachable (st, hist) ∧ hist.takes.length = 1 ∧
    (∀ c ch, st.chans[c]? = some ch → through c hist.takes ++ ch.buf = through c hist.puts ∧
      ch.buf.length ≤ 100) := by
  obtain ⟨⟨st, hist⟩, hreach, htakes⟩ := traced.exists_of_replay (fun _ _ => True) sampleRun
    (fun s => s.2.takes.length = 1) (by decide +kernel)
  exact ⟨st, hist, hreach, htakes, (in_order hreach).1⟩

end Minotor.Channel
