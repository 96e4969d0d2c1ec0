import Minotor.Transport.Order
import Mathlib.Data.Multiset.Range

/-!
# The traffic of channel sockets

What `internal/traffic` logs for the sockets of a process.  The traffic of a transport has
one item for each call of its sockets which has sent or received a packet, with the address
which it was sent to or received at.  The global counters number the items of all
transports from 1 without a gap and increase within each of them; the counters of the two
types number the packets sent and those received in the same way, up to the items which
are still to be logged.
-/

namespace Minotor.Channel

open Minotor.Transport (Packet Header)

/-- What an item says besides its numbers. -/
structure Entry where
  typeStr : TypeStr
  relayedBy : String
  dest : String
  pkt : Packet

def Item.entry (it : Item) : Entry := ⟨it.typeStr, it.relayedBy, it.dest, it.pkt⟩

/-- The numbers which a counter has given out. -/
def numbers (n : ℕ) : Multiset ℕ := (Multiset.range n).map (· + 1)

/-- The counters of the items of one type. -/
def typeCounters (ty : TypeStr) (its : List Item) : Multiset ℕ :=
  ((its.filter fun it => it.typeStr = ty).map Item.typeCounter : List ℕ)

def globalCounters (its : List Item) : Multiset ℕ := (its.map Item.globalCounter : List ℕ)

def entries (its : List Item) : Multiset Entry := (its.map Item.entry : List Entry)

/-- The `RelayedBy` of a packet. -/
def relayedBy (pkt : Packet) : String := (pkt.header.map Header.relayedBy).getD ""

namespace Call

/-- The number of an item which a call is to log. -/
def pending (ty : TypeStr) : Call → Multiset ℕ
  | .send _ _ _ _ (.log _ n) => if ty = .sent then {n} else 0
  | .recv _ _ (.log _ _ n) => if ty = .rcv then {n} else 0
  | _ => 0

/-- The packet which a call has logged. -/
def logged : Call → Option (TypeStr × Packet)
  | .send _ _ pkt _ (.returned none) => some (.sent, pkt)
  | .recv _ _ (.addIn pkt) => some (.rcv, pkt)
  | .recv _ _ (.returned (.ok pkt)) => some (.rcv, pkt)
  | _ => none

/-- The entries of a call in the traffic of a transport. -/
def entries (place : ℕ → Option (ℕ × String)) (t : ℕ) (c : Call) : Multiset Entry :=
  match c.logged, c.target place with
  | some (ty, pkt), some (t', address) =>
      if t' = t then {⟨ty, relayedBy pkt, address, pkt⟩} else 0
  | _, _ => 0

/-- The name which a call is to log is that in the packet. -/
def Named : Call → Prop
  | .send _ _ pkt _ (.log name _) => relayedBy pkt = name
  | .recv _ _ (.log pkt name _) => relayedBy pkt = name
  | _ => True

end Call

/-- The counter of the items of one type. -/
def State.typeCounter (st : State) : TypeStr → ℕ
  | .rcv => st.recvCounter
  | .sent => st.sendCounter

/-- The traffic is that of the calls. -/
structure Logged (st : State) : Prop where
  entries : ∀ t (tr : Transport), st.transports[t]? = some tr →
    Channel.entries tr.traffic = total (Call.entries st.place t) st.calls
  globals : total (fun tr : Transport => globalCounters tr.traffic) st.transports =
    numbers st.globalCounter
  increasing : ∀ tr ∈ st.transports, tr.traffic.Pairwise fun it it' =>
    it.globalCounter < it'.globalCounter
  types : ∀ ty, total (fun tr : Transport => typeCounters ty tr.traffic) st.transports +
    total (Call.pending ty) st.calls = numbers (st.typeCounter ty)
  named : ∀ c ∈ st.calls, c.Named
  /-- calls are on sockets, and sockets on transports, which were created -/
  places : ∀ c ∈ st.calls, ∃ p, c.target st.place = some p
  transports : ∀ sock ∈ st.sockets, sock.transport < st.transports.length

theorem numbers_succ (n : ℕ) : numbers (n + 1) = numbers n + {n + 1} := by
  rw [numbers, Multiset.range_succ, Multiset.map_cons, ← Multiset.singleton_add, add_comm, numbers]

theorem mem_numbers {n m : ℕ} : m ∈ numbers n ↔ 1 ≤ m ∧ m ≤ n := by
  rw [numbers, Multiset.mem_map]
  constructor
  · rintro ⟨k, hk, rfl⟩
    rw [Multiset.mem_range] at hk
    omega
  · rintro ⟨hpos, hle⟩
    exact ⟨m - 1, by rw [Multiset.mem_range]; omega, by omega⟩

section

variable {its : List Item} {it : Item}

theorem entries_concat : entries (its ++ [it]) = entries its + {it.entry} := by
  rw [entries, List.map_append, ← Multiset.coe_add]
  rfl

theorem globalCounters_concat :
    globalCounters (its ++ [it]) = globalCounters its + {it.globalCounter} := by
  rw [globalCounters, List.map_append, ← Multiset.coe_add]
  rfl

theorem typeCounters_concat (ty : TypeStr) : typeCounters ty (its ++ [it]) =
    typeCounters ty its + if it.typeStr = ty then {it.typeCounter} else 0 := by
  rw [typeCounters, List.filter_append, List.map_append, ← Multiset.coe_add]
  by_cases h : it.typeStr = ty
  · simp [typeCounters, h]
  · simp [typeCounters, h]

/-- An entry of a list has its part in the total. -/
theorem le_total {α : Type*} {f : α → Multiset ℕ} {l : List α} {a : α} (h : a ∈ l) :
    f a ≤ total f l := by
  induction l with
  | nil => cases h
  | cons x l ih =>
      rw [total_cons]
      rcases List.mem_cons.mp h with rfl | h
      · exact Multiset.le_add_right _ _
      · exact (ih h).trans (Multiset.le_add_left _ _)

end

namespace Logged

variable {st st' : State} {i : ℕ} {c c' : Call}

/-- A step of a call which logs nothing. -/
theorem setCall (h : Logged st) (hc : st.calls[i]? = some c)
    (htarget : ∀ place, c'.target place = c.target place) (hlogged : c'.logged = c.logged)
    (hpending : ∀ ty, c'.pending ty = c.pending ty) (hnamed : c'.Named) :
    Logged { st with calls := st.calls.set i c' } where
  entries t tr htr := by
    refine (h.entries t tr htr).trans (total_set_of_eq hc ?_).symm
    simp only [Call.entries, hlogged, htarget]
  globals := h.globals
  increasing := h.increasing
  types ty := by
    simp only [total_set_of_eq hc (hpending ty)]
    exact h.types ty
  named := forall_mem_set h.named hnamed
  places := by
    apply forall_mem_set h.places
    rw [htarget]
    exact h.places c (List.mem_of_getElem? hc)
  transports := h.transports

/-- Channels do not matter, nor does what sockets have kept. -/
theorem congr (h : Logged st) (htransports : st'.transports = st.transports)
    (hcalls : st'.calls = st.calls) (hplace : st'.place = st.place)
    (hglobal : st'.globalCounter = st.globalCounter)
    (htype : ∀ ty, st'.typeCounter ty = st.typeCounter ty)
    (hsockets : ∀ sock' ∈ st'.sockets, ∃ sock ∈ st.sockets, sock'.transport = sock.transport) :
    Logged st' where
  entries := by
    rw [htransports, hcalls, hplace]
    exact h.entries
  globals := by
    rw [htransports, hglobal]
    exact h.globals
  increasing := htransports ▸ h.increasing
  types ty := by
    rw [htransports, hcalls, htype]
    exact h.types ty
  named := hcalls ▸ h.named
  places := by
    rw [hcalls, hplace]
    exact h.places
  transports sock' hsock' := by
    obtain ⟨sock, hsock, heq⟩ := hsockets sock' hsock'
    rw [htransports, heq]
    exact h.transports sock hsock

/-- A number is given out for an item which is to be logged. -/
theorem count (ty : TypeStr) {n m : ℕ} (h : Logged st) (hc : st.calls[i]? = some c)
    (htarget : ∀ place, c'.target place = c.target place) (hlogged : c'.logged = c.logged)
    (hpending : ∀ ty', c.pending ty' = 0)
    (hpending' : ∀ ty', c'.pending ty' = if ty' = ty then {st.typeCounter ty + 1} else 0)
    (hnamed : c'.Named)
    (htype : ∀ ty', State.typeCounter { st with sendCounter := n, recvCounter := m } ty' =
      if ty' = ty then st.typeCounter ty + 1 else st.typeCounter ty') :
    Logged { st with
      sendCounter := n
      recvCounter := m
      calls := st.calls.set i c' } where
  entries t tr htr := by
    refine (h.entries t tr htr).trans (total_set_of_eq hc ?_).symm
    simp only [Call.entries, hlogged, htarget]
  globals := h.globals
  increasing := h.increasing
  types ty' := by
    have hset := total_set_of_add (f := Call.pending ty') (b := c') hc
      (by rw [hpending, hpending', zero_add])
    change _ + total (Call.pending ty') (st.calls.set i c') =
      numbers (State.typeCounter { st with sendCounter := n, recvCounter := m } ty')
    rw [hset, htype, ← add_assoc, h.types ty']
    by_cases hty : ty' = ty
    · rw [if_pos hty, if_pos hty, hty, numbers_succ]
    · rw [if_neg hty, if_neg hty, add_zero]
  named := forall_mem_set h.named hnamed
  places := by
    apply forall_mem_set h.places
    rw [htarget]
    exact h.places c (List.mem_of_getElem? hc)
  transports := h.transports

theorem globalCounter_le (h : Logged st) {tr : Transport} (htr : tr ∈ st.transports) {it : Item}
    (hit : it ∈ tr.traffic) : it.globalCounter ≤ st.globalCounter := by
  have hmem : it.globalCounter ∈ globalCounters tr.traffic :=
    Multiset.mem_coe.mpr (List.mem_map_of_mem hit)
  have hle := le_total (f := fun tr : Transport => globalCounters tr.traffic) htr
  rw [h.globals] at hle
  exact (mem_numbers.mp (Multiset.mem_of_le hle hmem)).2

/-- An item is logged. -/
theorem log {t : ℕ} {ty : TypeStr} {name address : String} {pkt : Packet} {n : ℕ}
    (h : Logged st) (hlog : st.addItem t ty name address pkt n = some st')
    (hc : st.calls[i]? = some c) (htarget : ∀ place, c'.target place = c.target place)
    (hplace : c.target st.place = some (t, address)) (hlogged : c.logged = none)
    (hlogged' : c'.logged = some (ty, pkt))
    (hpending : ∀ ty', c.pending ty' = if ty' = ty then {n} else 0)
    (hpending' : ∀ ty', c'.pending ty' = 0) (hnamed : c'.Named) (hname : relayedBy pkt = name) :
    Logged { st' with calls := st.calls.set i c' } := by
  obtain ⟨tr, htr, rfl⟩ := addItem_eq hlog
  exact
    { entries := by
        intro t' tr' htr'
        rcases getElem?_set_cases htr htr' with ⟨rfl, rfl⟩ | ⟨hne, htr'⟩
        · have hset := total_set_of_add (f := Call.entries st.place t')
            (m := {⟨ty, name, address, pkt⟩}) (b := c') hc (by
              simp only [Call.entries, hlogged, hlogged', htarget, hplace, if_true, hname,
                zero_add])
          refine Eq.trans ?_ hset.symm
          rw [entries_concat, h.entries t' tr htr]
          rfl
        · refine (h.entries t' tr' htr').trans (total_set_of_eq hc ?_).symm
          simp only [Call.entries, hlogged, hlogged', htarget, hplace, if_neg (Ne.symm hne)]
      globals := by
        have hset := total_set_of_add (f := fun tr : Transport => globalCounters tr.traffic)
          (b := { tr with traffic := tr.traffic ++
            [⟨name, address, ty, pkt, st.globalCounter + 1, n⟩] }) htr globalCounters_concat
        rw [hset, h.globals, numbers_succ]
      increasing := by
        have hmem := List.mem_of_getElem? htr
        apply forall_mem_set h.increasing
        rw [List.pairwise_append]
        refine ⟨h.increasing tr hmem, List.pairwise_singleton _ _, ?_⟩
        intro it hit it' hit'
        rw [List.mem_singleton.mp hit']
        exact Nat.lt_succ_of_le (h.globalCounter_le hmem hit)
      types := by
        intro ty'
        have hitems := total_set_of_add (f := fun tr : Transport => typeCounters ty' tr.traffic)
          (b := { tr with traffic := tr.traffic ++
            [⟨name, address, ty, pkt, st.globalCounter + 1, n⟩] }) htr (typeCounters_concat ty')
        have hcalls := total_set (f := Call.pending ty') (b := c') hc
        rw [hpending, hpending', add_zero] at hcalls
        have hsymm : (if ty = ty' then ({n} : Multiset ℕ) else 0) =
            if ty' = ty then {n} else 0 := by
          simp only [eq_comm]
        rw [hitems, hsymm, add_assoc, add_comm (if ty' = ty then _ else _), hcalls]
        exact h.types ty'
      named := forall_mem_set h.named hnamed
      places := by
        apply forall_mem_set h.places
        rw [htarget]
        exact h.places c (List.mem_of_getElem? hc)
      transports := by
        intro sock hsock
        rw [List.length_set]
        exact h.transports sock hsock }

/-- The packet of a call has the name which its items say. -/
theorem relayedBy_eq {pkt : Packet} {header : Header} (h : pkt.header = some header) :
    relayedBy pkt = header.relayedBy := by
  rw [relayedBy, h]
  rfl

/-- What sockets have kept does not matter. -/
theorem setSocket {s : ℕ} {sock sock' : Socket} (h : Logged st)
    (hsock : st.sockets[s]? = some sock) (htransport : sock'.transport = sock.transport)
    (haddr : sock'.myAddr = sock.myAddr) :
    Logged { st with sockets := st.sockets.set s sock' } := by
  refine h.congr rfl rfl (place_set hsock htransport haddr) rfl (fun _ => rfl) ?_
  intro sock'' hmem
  rcases List.mem_or_eq_of_mem_set hmem with hmem | rfl
  · exact ⟨sock'', hmem, rfl⟩
  · exact ⟨sock, List.mem_of_getElem? hsock, htransport⟩

/-- Channels do not matter. -/
theorem setChan {k : ℕ} {ch : Chan Packet} (h : Logged st) :
    Logged { st with chans := st.chans.set k ch } :=
  h.congr rfl rfl rfl rfl (fun _ => rfl) fun sock hmem => ⟨sock, hmem, rfl⟩

theorem place_of_getElem? {s : ℕ} {sock : Socket} (h : st.sockets[s]? = some sock) :
    st.place s = some (sock.transport, sock.myAddr) := by
  rw [State.place, h]
  rfl

theorem move (h : Logged st) (hcopied : Copied st) (hc : st.calls[i]? = some c)
    (hmove : Move st c st' c') :
    Logged { st' with calls := st.calls.set i c' } := by
  have hcall : c.Copied := hcopied.calls c (List.mem_of_getElem? hc)
  have hnamed : c.Named := h.named c (List.mem_of_getElem? hc)
  have htarget : ∀ place, c'.target place = c.target place := hmove.target_eq
  cases hmove with
  | notListening => exact h.setCall hc htarget rfl (fun _ => rfl) trivial
  | nilPointer => exact h.setCall hc htarget rfl (fun _ => rfl) trivial
  | offer => exact h.setCall hc htarget rfl (fun _ => rfl) trivial
  | @put _ _ _ _ k offered _ _ ch hch hready =>
      have hput : Logged { st with chans := st.chans.set k (ch.send offered hready) } := h.setChan
      exact hput.setCall hc htarget rfl (fun _ => rfl) trivial
  | @addOut s _ _ _ sock p hsock hcopy =>
      have hadd : Logged { st with
          sockets := st.sockets.set s { sock with outs := sock.outs ++ [p] } } :=
        h.setSocket hsock rfl rfl
      exact hadd.setCall hc htarget rfl (fun _ => rfl) trivial
  | addOutNil => exact h.setCall hc htarget rfl (fun _ => rfl) trivial
  | countSent hheader =>
      refine h.count .sent hc htarget rfl (fun _ => rfl) (fun _ => rfl) (relayedBy_eq hheader) ?_
      intro ty
      cases ty with
      | _ => rfl
  | countSentNil => exact h.setCall hc htarget rfl (fun _ => rfl) trivial
  | logSent hsock hlog =>
      refine h.log hlog hc htarget ?_ rfl rfl (fun _ => rfl) (fun _ => rfl) trivial hnamed
      rw [Call.target, place_of_getElem? hsock]
      rfl
  | await => exact h.setCall hc htarget rfl (fun _ => rfl) trivial
  | @take _ _ k _ ch ch' pkt hch hrecv =>
      have htake : Logged { st with chans := st.chans.set k ch' } := h.setChan
      exact htake.setCall hc htarget rfl (fun _ => rfl) trivial
  | takeClosed => exact h.setCall hc htarget rfl (fun _ => rfl) trivial
  | countRecv hheader =>
      refine h.count .rcv hc htarget rfl (fun _ => rfl) (fun _ => rfl) (relayedBy_eq hheader) ?_
      intro ty
      cases ty with
      | _ => rfl
  | countRecvNil => exact h.setCall hc htarget rfl (fun _ => rfl) trivial
  | logRecv hsock hlog =>
      exact h.log hlog hc htarget (place_of_getElem? hsock) rfl rfl (fun _ => rfl)
        (fun _ => rfl) trivial hnamed
  | @addIn s _ _ sock p hsock hcopy =>
      have hadd : Logged { st with
          sockets := st.sockets.set s { sock with ins := sock.ins ++ [p] } } :=
        h.setSocket hsock rfl rfl
      exact hadd.setCall hc htarget rfl (fun _ => rfl) trivial
  | addInNil hcopy =>
      exact absurd (hcall.symm.trans hcopy) (Option.some_ne_none _)

/-- A call begins on a socket which was created. -/
theorem newCall (h : Logged st) (hlogged : c.logged = none) (hpending : ∀ ty, c.pending ty = 0)
    (hnamed : c.Named) (hplace : ∃ p, c.target st.place = some p) :
    Logged { st with calls := st.calls ++ [c] } where
  entries t tr htr := by
    rw [total_append, total_cons, total_nil, h.entries t tr htr]
    simp only [Call.entries, hlogged, add_zero]
    rfl
  globals := h.globals
  increasing := h.increasing
  types ty := by
    rw [total_append, total_cons, total_nil, hpending, add_zero, add_zero]
    exact h.types ty
  named := forall_mem_concat h.named hnamed
  places := forall_mem_concat h.places hplace
  transports := h.transports

/-- Calls keep their entries when sockets are created. -/
theorem total_entries {place' : ℕ → Option (ℕ × String)} (h : Logged st)
    (hplace : ∀ s p, st.place s = some p → place' s = some p) (t : ℕ) :
    total (Call.entries place' t) st.calls = total (Call.entries st.place t) st.calls := by
  have hmap : st.calls.map (Call.entries place' t) = st.calls.map (Call.entries st.place t) := by
    apply List.map_congr_left
    intro c hc
    obtain ⟨p, hp⟩ := h.places c hc
    simp only [Call.entries, hp, InOrder.target_mono hplace hp]
  rw [total, hmap, total]

/-- Nothing is logged for a transport which no socket is on. -/
theorem total_entries_eq_zero (h : Logged st) {t : ℕ} (ht : st.transports.length ≤ t) :
    total (Call.entries st.place t) st.calls = 0 := by
  rw [total]
  apply List.sum_eq_zero
  intro x hx
  obtain ⟨c, hc, rfl⟩ := List.mem_map.mp hx
  obtain ⟨⟨t', address⟩, hp⟩ := h.places c hc
  have hlt : t' < st.transports.length := by
    cases c with
    | send s dest pkt timeout point =>
        obtain ⟨q, hq, heq⟩ := Option.map_eq_some_iff.mp hp
        obtain ⟨sock, hsock, rfl⟩ := Option.map_eq_some_iff.mp hq
        cases heq
        exact h.transports sock (List.mem_of_getElem? hsock)
    | recv s timeout point =>
        obtain ⟨sock, hsock, heq⟩ := Option.map_eq_some_iff.mp hp
        cases heq
        exact h.transports sock (List.mem_of_getElem? hsock)
  have hne : t' ≠ t := Nat.ne_of_lt (Nat.lt_of_lt_of_le hlt ht)
  cases hlogged : c.logged with
  | none => simp only [Call.entries, hlogged]
  | some e => simp only [Call.entries, hlogged, hp, if_neg hne]

theorem newTransport (h : Logged st) :
    Logged { st with transports := st.transports ++ [.new] } where
  entries t tr htr := by
    rcases Nat.lt_or_ge t st.transports.length with hlt | hge
    · rw [List.getElem?_append_left hlt] at htr
      exact h.entries t tr htr
    · rw [List.getElem?_append_right hge] at htr
      rw [List.mem_singleton.mp (List.mem_of_getElem? htr)]
      exact (h.total_entries_eq_zero hge).symm
  globals := by
    have hnew : globalCounters Transport.new.traffic = 0 := rfl
    rw [total_append, total_cons, total_nil, hnew, add_zero, add_zero]
    exact h.globals
  increasing := forall_mem_concat h.increasing List.Pairwise.nil
  types ty := by
    have hnew : typeCounters ty Transport.new.traffic = 0 := rfl
    rw [total_append, total_cons, total_nil, hnew, add_zero, add_zero]
    exact h.types ty
  named := h.named
  places := h.places
  transports sock hsock := by
    rw [List.length_append]
    exact Nat.lt_add_right _ (h.transports sock hsock)

/-- The addresses of a transport change, and sockets are created on it. -/
theorem setTransport {t : ℕ} {tr tr' : Transport} {chans : List (Chan Packet)}
    {socks : List Socket} {n : UInt32} (h : Logged st) (htr : st.transports[t]? = some tr)
    (htraffic : tr'.traffic = tr.traffic) (hsocks : ∀ sock ∈ socks, sock.transport = t) :
    Logged { st with
      counter := n
      chans := chans
      transports := st.transports.set t tr'
      sockets := st.sockets ++ socks } := by
  have hplace : ∀ s p, st.place s = some p →
      (st.sockets ++ socks)[s]?.map (fun sock => (sock.transport, sock.myAddr)) = some p := by
    intro s p hs
    obtain ⟨sock, hsock, rfl⟩ := Option.map_eq_some_iff.mp hs
    rw [List.getElem?_append_left (List.getElem?_eq_some_iff.mp hsock).1, hsock]
    rfl
  exact
    { entries := by
        intro t' tr'' htr''
        refine Eq.trans ?_ (h.total_entries hplace t').symm
        rcases getElem?_set_cases htr htr'' with ⟨rfl, rfl⟩ | ⟨-, htr''⟩
        · rw [htraffic]
          exact h.entries t' tr htr
        · exact h.entries t' tr'' htr''
      globals := by
        rw [total_set_of_eq htr (congrArg globalCounters htraffic)]
        exact h.globals
      increasing := by
        apply forall_mem_set h.increasing
        rw [htraffic]
        exact h.increasing tr (List.mem_of_getElem? htr)
      types := by
        intro ty
        rw [total_set_of_eq htr (congrArg (typeCounters ty) htraffic)]
        exact h.types ty
      named := h.named
      places := by
        intro c hc
        obtain ⟨p, hp⟩ := h.places c hc
        exact ⟨p, InOrder.target_mono hplace hp⟩
      transports := by
        intro sock hsock
        rw [List.length_set]
        rcases List.mem_append.mp hsock with hsock | hsock
        · exact h.transports sock hsock
        · rw [hsocks sock hsock]
          exact (List.getElem?_eq_some_iff.mp htr).1 }

theorem step {a : Action} (h : Logged st) (hcopied : Copied st) (hstep : Step st a st') :
    Logged st' := by
  cases hstep with
  | newTransport => exact h.newTransport
  | createSocket hcreate =>
      obtain ⟨tr, htr, rfl⟩ := Option.map_eq_some_iff.mp hcreate
      exact h.setTransport htr rfl fun sock hsock => by rw [List.mem_singleton.mp hsock]
  | close hclose =>
      simp only [State.close, Option.bind_eq_bind, Option.bind_eq_some_iff] at hclose
      obtain ⟨sock, -, tr, htr, heq⟩ := hclose
      cases heq
      have hset : Logged { st with
          transports := st.transports.set sock.transport
            { tr with incomings := Function.update tr.incomings sock.myAddr none }
          sockets := st.sockets ++ [] } :=
        h.setTransport htr rfl fun _ hnil => absurd hnil List.not_mem_nil
      rwa [List.append_nil] at hset
  | send hs =>
      refine h.newCall rfl (fun _ => rfl) trivial ?_
      rw [Call.target, place_of_getElem? (List.getElem?_eq_getElem hs)]
      exact ⟨_, rfl⟩
  | recv hs =>
      refine h.newCall rfl (fun _ => rfl) trivial ?_
      exact ⟨_, place_of_getElem? (List.getElem?_eq_getElem hs)⟩
  | run hc hmove => exact h.move hcopied hc hmove
  | expire hc hexpiry =>
      have htarget := hexpiry.target_eq
      cases hexpiry with
      | send => exact h.setCall hc htarget rfl (fun _ => rfl) trivial
      | recv => exact h.setCall hc htarget rfl (fun _ => rfl) trivial
  | tick =>
      exact h.congr rfl rfl rfl rfl (fun _ => rfl) fun sock hmem => ⟨sock, hmem, rfl⟩

end Logged

end Minotor.Channel
