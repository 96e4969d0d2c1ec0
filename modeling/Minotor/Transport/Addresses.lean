import Minotor.Transport.Delivery
import Minotor.Transport.Order

/-!
# The addresses of channel sockets

What waits in a channel when its socket is closed is never received.  Sockets which ask
for a free port get different addresses on all transports of the process, as long as the
counter of the ports does not wrap around.
-/

namespace Minotor.Channel

open Minotor.Transport (Packet)

variable {st st' : State}

/-! ## Closed sockets -/

/-- No address leads to a channel, and no call waits at it. -/
structure Detached (st : State) (k : ℕ) : Prop where
  exists_chan : k < st.chans.length
  unmapped : ∀ tr ∈ st.transports, ∀ address, tr.incomings address ≠ some k
  unused : ∀ c ∈ st.calls, c.chan ≠ some k

namespace Detached

variable {k i : ℕ} {c c' : Call}

/-- A call waits at a channel which an address leads to, or where it has waited before. -/
theorem chan_ne (h : Detached st k) (hc : c ∈ st.calls) (hmove : Move st c st' c') :
    c'.chan ≠ some k := by
  cases hmove with
  | offer _ htr hmapped =>
      intro heq
      rw [Call.chan] at heq
      exact h.unmapped _ (List.mem_of_getElem? htr) _ (heq ▸ hmapped)
  | await _ htr => exact h.unmapped _ (List.mem_of_getElem? htr) _
  | _ => exact (Option.some_ne_none _).symm

theorem setCall (h : Detached st k) (hchan : c.chan ≠ some k) :
    Detached { st with calls := st.calls.set i c } k :=
  { h with unused := forall_mem_set h.unused hchan }

theorem addItem {t : ℕ} {typeStr : TypeStr} {relayedBy dest : String} {pkt : Packet} {n : ℕ}
    (h : Detached st k) (hlog : st.addItem t typeStr relayedBy dest pkt n = some st') :
    Detached st' k := by
  obtain ⟨tr, htr, rfl⟩ := addItem_eq hlog
  exact { h with
    unmapped := forall_mem_set h.unmapped (h.unmapped tr (List.mem_of_getElem? htr)) }

/-- A step of a call leaves the channel as it is. -/
theorem move (h : Detached st k) (hc : st.calls[i]? = some c) (hmove : Move st c st' c') :
    Detached { st' with calls := st.calls.set i c' } k ∧ st'.chans[k]? = st.chans[k]? := by
  have hmem := List.mem_of_getElem? hc
  have hchan := h.chan_ne hmem hmove
  have hunused := h.unused c hmem
  cases hmove with
  | @put _ _ _ _ j offered _ _ ch hch hready =>
      have hne : j ≠ k := fun heq => hunused (congrArg some heq)
      refine ⟨?_, List.getElem?_set_ne hne⟩
      exact
        { exists_chan := by rw [List.length_set]; exact h.exists_chan
          unmapped := h.unmapped
          unused := forall_mem_set h.unused hchan }
  | @take _ _ j _ ch ch' pkt hch hrecv =>
      have hne : j ≠ k := fun heq => hunused (congrArg some heq)
      refine ⟨?_, List.getElem?_set_ne hne⟩
      exact
        { exists_chan := by rw [List.length_set]; exact h.exists_chan
          unmapped := h.unmapped
          unused := forall_mem_set h.unused hchan }
  | logSent _ hlog =>
      have hitem := h.addItem hlog
      obtain ⟨tr, -, rfl⟩ := addItem_eq hlog
      exact ⟨hitem.setCall hchan, rfl⟩
  | logRecv _ hlog =>
      have hitem := h.addItem hlog
      obtain ⟨tr, -, rfl⟩ := addItem_eq hlog
      exact ⟨hitem.setCall hchan, rfl⟩
  | _ => exact ⟨{ h with unused := forall_mem_set h.unused hchan }, rfl⟩

theorem step {a : Action} (h : Detached st k) (hstep : Step st a st') :
    Detached st' k ∧ st'.chans[k]? = st.chans[k]? := by
  cases hstep with
  | newTransport =>
      have hnew : ∀ address, Transport.new.incomings address ≠ some k :=
        fun _ => (Option.some_ne_none k).symm
      exact ⟨{ h with unmapped := forall_mem_concat h.unmapped hnew }, rfl⟩
  | createSocket hcreate =>
      obtain ⟨tr, htr, rfl⟩ := Option.map_eq_some_iff.mp hcreate
      refine ⟨?_, List.getElem?_append_left h.exists_chan⟩
      exact
        { exists_chan := by
            rw [List.length_append]
            exact Nat.lt_add_right _ h.exists_chan
          unmapped := by
            apply forall_mem_set h.unmapped
            intro address'
            dsimp only
            rw [Function.update_apply]
            split
            · rw [Ne, Option.some.injEq]
              exact (Nat.ne_of_lt h.exists_chan).symm
            · exact h.unmapped tr (List.mem_of_getElem? htr) address'
          unused := h.unused }
  | close hclose =>
      simp only [State.close, Option.bind_eq_bind, Option.bind_eq_some_iff] at hclose
      obtain ⟨sock, -, tr, htr, heq⟩ := hclose
      cases heq
      refine ⟨{ h with unmapped := forall_mem_set h.unmapped ?_ }, rfl⟩
      intro address'
      dsimp only
      rw [Function.update_apply]
      split
      · exact (Option.some_ne_none k).symm
      · exact h.unmapped tr (List.mem_of_getElem? htr) address'
  | send =>
      have hnone : none ≠ some k := (Option.some_ne_none k).symm
      exact ⟨{ h with unused := forall_mem_concat h.unused hnone }, rfl⟩
  | recv =>
      have hnone : none ≠ some k := (Option.some_ne_none k).symm
      exact ⟨{ h with unused := forall_mem_concat h.unused hnone }, rfl⟩
  | run hc hmove => exact h.move hc hmove
  | expire hc hexpiry =>
      have hnone : none ≠ some k := (Option.some_ne_none k).symm
      cases hexpiry with
      | send => exact ⟨h.setCall hnone, rfl⟩
      | recv => exact ⟨h.setCall hnone, rfl⟩
  | tick => exact ⟨{ h with }, rfl⟩

theorem leadsTo (h : Detached st k) (hlead : process.LeadsTo (fun _ _ => True) st st') :
    Detached st' k ∧ st'.chans[k]? = st.chans[k]? := by
  induction hlead with
  | refl => exact ⟨h, rfl⟩
  | tail _ hnext ih =>
      obtain ⟨a, -, hnext⟩ := hnext
      obtain ⟨hdetached, heq⟩ := ih
      obtain ⟨hdetached', heq'⟩ := hdetached.step (step_of_next hnext)
      exact ⟨hdetached', heq'.trans heq⟩

end Detached

/-- The addresses which were given to those who asked for a free port. -/
def assigned (st : State) : Action → List String → List String
  | .createSocket _ address, l =>
      if AsksForPort address then l ++ [(assign st.counter address).2] else l
  | _, l => l

/-- What is after the last colon. -/
theorem eq_of_append_colon {l l' d d' : List Char} (hd : ':' ∉ d) (hd' : ':' ∉ d')
    (h : l ++ ':' :: d = l' ++ ':' :: d') : d = d' := by
  rw [List.append_eq_append_iff] at h
  rcases h with ⟨m, -, h⟩ | ⟨m, -, h⟩
  · cases m with
    | nil => exact (List.cons.inj h).2
    | cons x m =>
        rw [(List.cons.inj h).2] at hd
        exact absurd (List.mem_append_right m List.mem_cons_self) hd
  · cases m with
    | nil => exact (List.cons.inj h).2.symm
    | cons x m =>
        rw [(List.cons.inj h).2] at hd'
        exact absurd (List.mem_append_right m List.mem_cons_self) hd'

theorem colon_notMem_repr (n : ℕ) : ':' ∉ (toString n).toList := by
  intro hmem
  rw [Nat.toString_eq_repr, Nat.repr_eq_ofList_toDigits, String.toList_ofList] at hmem
  have hdigit := Nat.isDigit_of_mem_toDigits (by decide) (by decide) hmem
  exact absurd hdigit (by decide)

/-- Addresses with different ports differ. -/
theorem port_injective {a a' : String} {n n' : ℕ}
    (h : a ++ ":" ++ toString n = a' ++ ":" ++ toString n') : n = n' := by
  have hlist := congrArg String.toList h
  simp only [String.toList_append, List.append_assoc] at hlist
  have hrepr := eq_of_append_colon (colon_notMem_repr n) (colon_notMem_repr n') hlist
  simp only [Nat.toString_eq_repr, Nat.toList_repr] at hrepr
  rw [← Nat.ofDigitChars_ten_toDigits (n := n), hrepr, Nat.ofDigitChars_ten_toDigits]

theorem assign_of_asksForPort (counter : UInt32) {address : String} (h : AsksForPort address) :
    ∃ a, assign counter address = (counter + 1, a ++ ":" ++ toString (counter + 1).toNat) := by
  refine ⟨String.ofList (address.toList.take (address.length - 2)), ?_⟩
  rw [assign, if_pos h]

theorem assign_of_not_asksForPort {counter : UInt32} {address : String}
    (h : ¬AsksForPort address) : assign counter address = (counter, address) := by
  rw [assign, if_neg h]

/-- Every free port which was given out has its own number. -/
structure Assigned (st : State) (l : List String) : Prop where
  ports : ∀ address ∈ l, ∃ a n, address = a ++ ":" ++ toString n ∧ n ≤ st.counter.toNat
  nodup : l.Nodup

theorem Assigned.congr {l : List String} (h : Assigned st l)
    (hcounter : st'.counter = st.counter) : Assigned st' l where
  ports := by
    rw [hcounter]
    exact h.ports
  nodup := h.nodup

theorem Move.counter_eq {c c' : Call} (h : Move st c st' c') : st'.counter = st.counter := by
  cases h with
  | logSent _ hlog =>
      obtain ⟨tr, -, rfl⟩ := addItem_eq hlog
      rfl
  | logRecv _ hlog =>
      obtain ⟨tr, -, rfl⟩ := addItem_eq hlog
      rfl
  | _ => rfl

theorem Assigned.step {l : List String} {a : Action} (h : Assigned st l)
    (hwrap : st.counter.toNat + 1 < UInt32.size) (hstep : Step st a st') :
    Assigned st' (assigned st a l) := by
  cases hstep with
  | newTransport => exact h.congr rfl
  | @createSocket t address _ hcreate =>
      obtain ⟨tr, -, rfl⟩ := Option.map_eq_some_iff.mp hcreate
      by_cases hasks : AsksForPort address
      · obtain ⟨a, ha⟩ := assign_of_asksForPort st.counter hasks
        have hnat : (st.counter + 1).toNat = st.counter.toNat + 1 := by
          rw [UInt32.toNat_add]
          exact Nat.mod_eq_of_lt hwrap
        simp only [assigned, if_pos hasks, ha]
        refine ⟨?_, ?_⟩
        · apply forall_mem_concat
          · intro address' hmem
            obtain ⟨a', n, heq, hle⟩ := h.ports address' hmem
            refine ⟨a', n, heq, ?_⟩
            dsimp only
            omega
          · exact ⟨a, _, rfl, le_rfl⟩
        · rw [List.nodup_append]
          refine ⟨h.nodup, List.nodup_singleton _, ?_⟩
          intro address' hmem address'' hmem' heq
          obtain ⟨a', n, heq', hle⟩ := h.ports address' hmem
          rw [heq, List.mem_singleton.mp hmem'] at heq'
          have hn := port_injective heq'
          omega
      · simp only [assigned, if_neg hasks, assign_of_not_asksForPort hasks]
        exact h.congr rfl
  | close hclose =>
      simp only [State.close, Option.bind_eq_bind, Option.bind_eq_some_iff] at hclose
      obtain ⟨sock, -, tr, -, heq⟩ := hclose
      cases heq
      exact h.congr rfl
  | send => exact h.congr rfl
  | recv => exact h.congr rfl
  | run _ hmove => exact h.congr hmove.counter_eq
  | expire => exact h.congr rfl
  | tick => exact h.congr rfl

/-- As long as the counter does not wrap around, those who ask for a free port get different
addresses, on whichever transports they are. -/
theorem nodup_assigned {l : List String}
    (h : (process.withHistory [] assigned).ReachableUnder
      (fun s _ => s.1.counter.toNat + 1 < UInt32.size) (st, l)) : l.Nodup := by
  suffices hboth : Assigned st l from hboth.nodup
  apply h.invariant (I := fun s => Assigned s.1 s.2)
  · exact ⟨fun _ hmem => absurd hmem List.not_mem_nil, List.nodup_nil⟩
  · intro s s' a _ hinv hwrap hnext
    obtain ⟨hstep, hrecord⟩ := TransitionSystem.withHistory_next.mp hnext
    rw [hrecord]
    exact hinv.step hwrap (step_of_next hstep)

theorem nodup_assigned_sample : ∃ st l, (process.withHistory [] assigned).ReachableUnder
      (fun s _ => s.1.counter.toNat + 1 < UInt32.size) (st, l) ∧ l.length = 2 ∧ l.Nodup := by
  obtain ⟨⟨st, l⟩, hreach, hlength⟩ := (process.withHistory [] assigned).exists_of_replay
    (fun s _ => s.1.counter.toNat + 1 < UInt32.size)
    [.newTransport, .createSocket 0 "127.0.0.1:0", .newTransport,
      .createSocket 1 "127.0.0.1:0"]
    (fun s => s.2.length = 2) (by decide +kernel)
  exact ⟨st, l, hreach, hlength, nodup_assigned hreach⟩

end Minotor.Channel
