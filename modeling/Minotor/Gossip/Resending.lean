import Minotor.Gossip.Network
import Mathlib.Data.Finset.Card

/-!
# Resending

One call of `Broadcast` with its `waitAck` routine, from `messaging.go`.  A send
fails or not, and the channel of the routine is closed from outside at any
moment: by an acknowledgement or by `Stop`.

The network of gossiping nodes has the turns of this loop whose sends succeed.
-/

namespace Minotor.Gossip

/-- The routine which sends a packet. -/
inductive Sender where
  | broadcast
  | waitAck
deriving DecidableEq, Repr

/-- A call of `Send` and whether it returns without an error. -/
structure Send where
  sender : Sender
  dest : String
  ok : Bool
deriving DecidableEq, Repr

/-- Where the call of `Broadcast` or its `waitAck` routine is. -/
inductive ResendPc where
  | createPkt
  /-- the first call of `searchNeighbourAndSndPkt` -/
  | firstSend
  | createChannel
  | getChannel
  /-- the head of the loop; the channel has been found in the table or not -/
  | loop (inTable : Bool)
  | returned
  | panicked
deriving DecidableEq, Repr

/-- The state of a call of `Broadcast` with its `waitAck` routine. -/
structure Resend where
  pc : ResendPc
  sentRumorNeighbours : List String
  /-- the channel of the packet: not created, open or closed -/
  ackChannel : Option Bool
  sends : List Send
  iterations : ℕ
deriving DecidableEq, Repr

inductive ResendAction where
  | createPkt (err : Bool)
  | firstSend (ok : Bool)
  | createChannel
  | getChannel
  /-- a turn of the loop of `waitAck` -/
  | turn (ok : Bool)
  /-- the channel is deleted from outside -/
  | endWait
deriving DecidableEq, Repr

/-- `searchNeighbourAndSndPkt`: what it returns, the neighbours tried so far and
the address to which it sends.  The empty address counts as none. -/
def searchNeighbourAndSndPkt (neighbours rMap : List String) (ok : Bool) :
    Bool × List String × Option String :=
  match searchNeighbour neighbours rMap with
  | none => (true, rMap, none)
  | some neighbourAddress =>
      if neighbourAddress = "" then (true, neighbourAddress :: rMap, none)
      else (!ok, neighbourAddress :: rMap, some neighbourAddress)

namespace Resend

/-- `Broadcast` is called. -/
def initial : Resend := ⟨.createPkt, [], none, [], 0⟩

/-- A call of `searchNeighbourAndSndPkt` by one of the routines. -/
def send (st : Resend) (neighbours : List String) (sender : Sender) (ok : Bool) : Resend :=
  match searchNeighbourAndSndPkt neighbours st.sentRumorNeighbours ok with
  | (_, rMap, none) => { st with sentRumorNeighbours := rMap }
  | (_, rMap, some dest) =>
      { st with
        sentRumorNeighbours := rMap
        sends := st.sends ++ [⟨sender, dest, ok⟩] }

/-- A turn of the loop of `waitAck`. -/
def turn (ackTimeout : ℤ) (neighbours : List String) (st : Resend) (ok : Bool) : Resend :=
  if st.ackChannel = some false then { st with pc := .returned }
  -- `break` leaves the `select` only
  else if ackTimeout = 0 then st
  else if (searchNeighbourAndSndPkt neighbours st.sentRumorNeighbours ok).1 then
    { st.send neighbours .waitAck ok with pc := .returned }
  else st.send neighbours .waitAck ok

def next (ackTimeout : ℤ) (neighbours : List String) (st : Resend) :
    ResendAction → Option Resend
  | .createPkt err =>
      if st.pc = .createPkt then
        some { st with pc := if err ∨ neighbours = [] then .returned else .firstSend }
      else none
  | .firstSend ok =>
      if st.pc = .firstSend then
        -- what `searchNeighbourAndSndPkt` returns is not looked at
        some { st.send neighbours .broadcast ok with pc := .createChannel }
      else none
  | .createChannel =>
      if st.pc = .createChannel then
        some { st with pc := .getChannel, ackChannel := some true }
      else none
  | .getChannel =>
      if st.pc = .getChannel then
        some { st with pc := .loop (st.ackChannel = some true) }
      else none
  | .turn ok =>
      match st.pc with
      | .loop true =>
          some { st.turn ackTimeout neighbours ok with iterations := st.iterations + 1 }
      -- the pointer to the channel is nil
      | .loop false => some { st with pc := .panicked, iterations := st.iterations + 1 }
      | _ => none
  | .endWait => some { st with ackChannel := st.ackChannel.map fun _ => false }

end Resend

/-- The transition system of a call of `Broadcast` with its `waitAck` routine. -/
def resending (ackTimeout : ℤ) (neighbours : List String) :
    TransitionSystem Resend ResendAction where
  init := .initial
  next := Resend.next ackTimeout neighbours

namespace Resend

variable {ackTimeout : ℤ} {neighbours : List String} {st st' : Resend} {sender : Sender}
  {ok : Bool}

/-- The neighbours tried are distinct, and each got at most one packet. -/
structure Tries (neighbours : List String) (st : Resend) : Prop where
  nodup : st.sentRumorNeighbours.Nodup
  subset : st.sentRumorNeighbours ⊆ neighbours
  dests_nodup : (st.sends.map Send.dest).Nodup
  dests_subset : st.sends.map Send.dest ⊆ st.sentRumorNeighbours

theorem Tries.length_le (h : st.Tries neighbours) :
    st.sentRumorNeighbours.length ≤ neighbours.toFinset.card := by
  rw [← List.toFinset_card_of_nodup h.nodup]
  apply Finset.card_le_card
  intro a ha
  exact List.mem_toFinset.mpr (h.subset (List.mem_toFinset.mp ha))

/-- A call of `searchNeighbourAndSndPkt` finds no neighbour and stops, or tries a new one:
it stops if the address is empty or the send fails. -/
inductive Searches (neighbours : List String) (sender : Sender) (ok : Bool) (st : Resend) :
    Bool → Resend → Prop where
  | exhausted (h : searchNeighbour neighbours st.sentRumorNeighbours = none) :
      Searches neighbours sender ok st true st
  | noAddress (h : searchNeighbour neighbours st.sentRumorNeighbours = some "") :
      Searches neighbours sender ok st true
        { st with sentRumorNeighbours := "" :: st.sentRumorNeighbours }
  | sends (dest : String) (h : searchNeighbour neighbours st.sentRumorNeighbours = some dest)
      (hne : dest ≠ "") :
      Searches neighbours sender ok st (!ok)
        { st with
          sentRumorNeighbours := dest :: st.sentRumorNeighbours
          sends := st.sends ++ [⟨sender, dest, ok⟩] }

theorem searches_send (neighbours : List String) (sender : Sender) (ok : Bool) (st : Resend) :
    st.Searches neighbours sender ok
      (searchNeighbourAndSndPkt neighbours st.sentRumorNeighbours ok).1
      (st.send neighbours sender ok) := by
  unfold send searchNeighbourAndSndPkt
  cases hsearch : searchNeighbour neighbours st.sentRumorNeighbours with
  | none => exact .exhausted hsearch
  | some dest =>
      by_cases hne : dest = ""
      · subst hne
        exact .noAddress hsearch
      · simp only [if_neg hne]
        exact .sends dest hsearch hne

/-- Where the routine is does not matter. -/
theorem Tries.of_same (h : st.Tries neighbours)
    (hsent : st'.sentRumorNeighbours = st.sentRumorNeighbours) (hsends : st'.sends = st.sends) :
    st'.Tries neighbours where
  nodup := hsent ▸ h.nodup
  subset := hsent ▸ h.subset
  dests_nodup := hsends ▸ h.dests_nodup
  dests_subset := by
    rw [hsent, hsends]
    exact h.dests_subset

theorem Searches.iterations {stops : Bool}
    (h : st.Searches neighbours sender ok stops st') : st'.iterations = st.iterations := by
  cases h <;> rfl

theorem Searches.length_le {stops : Bool} (h : st.Searches neighbours sender ok stops st') :
    st.sentRumorNeighbours.length ≤ st'.sentRumorNeighbours.length := by
  cases h with
  | exhausted => exact le_rfl
  | noAddress => exact Nat.le_succ _
  | sends => exact Nat.le_succ _

/-- The search does not stop: a packet has been sent to a new neighbour. -/
theorem Searches.of_goes_on (h : st.Searches neighbours sender ok false st') :
    st'.pc = st.pc ∧
      st'.sentRumorNeighbours.length = st.sentRumorNeighbours.length + 1 ∧ ok = true := by
  generalize hstops : false = stops at h
  cases h with
  | exhausted => cases hstops
  | noAddress => cases hstops
  | sends dest => exact ⟨rfl, rfl, Bool.not_eq_eq_eq_not.mp hstops.symm⟩

/-- Trying one more neighbour. -/
theorem Tries.cons (h : st.Tries neighbours) {dest : String}
    (hdest : searchNeighbour neighbours st.sentRumorNeighbours = some dest) :
    Tries neighbours { st with sentRumorNeighbours := dest :: st.sentRumorNeighbours } := by
  obtain ⟨hmem, hnew⟩ := searchNeighbour_eq_some hdest
  constructor
  · exact List.nodup_cons.mpr ⟨hnew, h.nodup⟩
  · exact List.cons_subset.mpr ⟨hmem, h.subset⟩
  · exact h.dests_nodup
  · exact fun a ha => List.mem_cons_of_mem _ (h.dests_subset ha)

theorem Tries.searches (h : st.Tries neighbours) {stops : Bool}
    (hsearches : st.Searches neighbours sender ok stops st') : st'.Tries neighbours := by
  cases hsearches with
  | exhausted => exact h
  | noAddress hsearch => exact h.cons hsearch
  | sends dest hsearch =>
      obtain ⟨-, hnew⟩ := searchNeighbour_eq_some hsearch
      have hcons := h.cons hsearch
      constructor
      · exact hcons.nodup
      · exact hcons.subset
      · rw [List.map_append, List.map_singleton]
        apply h.dests_nodup.append (List.nodup_singleton dest)
        intro a ha hdest
        obtain rfl := List.mem_singleton.mp hdest
        exact hnew (h.dests_subset ha)
      · rw [List.map_append, List.map_singleton]
        apply List.append_subset.mpr
        exact ⟨hcons.dests_subset, List.cons_subset.mpr ⟨List.mem_cons_self, List.nil_subset _⟩⟩

/-- `waitAck` has not sent the packet in vain. -/
def AllSent (st : Resend) : Prop := ∀ s ∈ st.sends, s.sender = .waitAck → s.ok = true

/-- How many neighbours have been tried where the routine is. -/
def Counts (neighbours : List String) (st : Resend) : Prop :=
  match st.pc with
  | .createPkt => st.iterations = 0 ∧ st.sentRumorNeighbours = [] ∧ st.AllSent
  | .firstSend => st.iterations = 0 ∧ st.sentRumorNeighbours = [] ∧ st.AllSent ∧ neighbours ≠ []
  | .createChannel | .getChannel =>
      st.iterations = 0 ∧ st.sentRumorNeighbours.length = 1 ∧ st.AllSent
  | .loop _ => st.iterations + 1 = st.sentRumorNeighbours.length ∧ st.AllSent
  | .returned =>
      st.iterations ≤ st.sentRumorNeighbours.length ∧
        ∀ s ∈ st.sends.dropLast, s.sender = .waitAck → s.ok = true
  | .panicked => st.iterations ≤ st.sentRumorNeighbours.length ∧ st.AllSent

theorem AllSent.dropLast (h : st.AllSent) :
    ∀ s ∈ st.sends.dropLast, s.sender = .waitAck → s.ok = true :=
  fun s hs => h s (List.mem_of_mem_dropLast hs)

/-- The first call of `searchNeighbourAndSndPkt` tries one neighbour. -/
theorem length_of_first (hsent : st.sentRumorNeighbours = []) (hne : neighbours ≠ [])
    {stops : Bool} (hsearches : st.Searches neighbours sender ok stops st') :
    st'.sentRumorNeighbours.length = 1 := by
  cases hsearches with
  | exhausted hsearch =>
      obtain ⟨a, rest, rfl⟩ := List.exists_cons_of_ne_nil hne
      rw [searchNeighbour, hsent, List.find?_eq_none] at hsearch
      simpa using hsearch a List.mem_cons_self
  | noAddress => simp [hsent]
  | sends => simp [hsent]

/-- A send which does not fail, or one of `Broadcast`. -/
theorem AllSent.searches (h : st.AllSent) {stops : Bool}
    (hsearches : st.Searches neighbours sender ok stops st')
    (hok : sender = .waitAck → ok = true) : st'.AllSent := by
  cases hsearches with
  | exhausted => exact h
  | noAddress => exact h
  | sends dest =>
      intro s hs
      rcases List.mem_append.mp hs with hs | hs
      · exact h s hs
      · obtain rfl := List.mem_singleton.mp hs
        exact hok

theorem AllSent.dropLast_searches (h : st.AllSent) {stops : Bool}
    (hsearches : st.Searches neighbours sender ok stops st') :
    ∀ s ∈ st'.sends.dropLast, s.sender = .waitAck → s.ok = true := by
  cases hsearches with
  | exhausted => exact h.dropLast
  | noAddress => exact h.dropLast
  | sends dest =>
      rw [List.dropLast_concat]
      exact h

/-- The steps of a call, with a timeout. -/
inductive Step (neighbours : List String) (st : Resend) : ResendAction → Resend → Prop where
  | createPkt (err : Bool) (hpc : st.pc = .createPkt) (h : err = true ∨ neighbours = []) :
      Step neighbours st (.createPkt err) { st with pc := .returned }
  | starts (hpc : st.pc = .createPkt) (hne : neighbours ≠ []) :
      Step neighbours st (.createPkt false) { st with pc := .firstSend }
  | firstSend (ok stops : Bool) (st' : Resend) (hpc : st.pc = .firstSend)
      (h : st.Searches neighbours .broadcast ok stops st') :
      Step neighbours st (.firstSend ok) { st' with pc := .createChannel }
  | createChannel (hpc : st.pc = .createChannel) :
      Step neighbours st .createChannel { st with pc := .getChannel, ackChannel := some true }
  | getChannel (hpc : st.pc = .getChannel) :
      Step neighbours st .getChannel { st with pc := .loop (st.ackChannel = some true) }
  | ackReceived (ok : Bool) (hpc : st.pc = .loop true) (h : st.ackChannel = some false) :
      Step neighbours st (.turn ok)
        { st with pc := .returned, iterations := st.iterations + 1 }
  | stops (ok : Bool) (st' : Resend) (hpc : st.pc = .loop true)
      (h : st.Searches neighbours .waitAck ok true st') :
      Step neighbours st (.turn ok)
        { st' with pc := .returned, iterations := st.iterations + 1 }
  | resends (ok : Bool) (st' : Resend) (hpc : st.pc = .loop true)
      (h : st.Searches neighbours .waitAck ok false st') :
      Step neighbours st (.turn ok) { st' with iterations := st.iterations + 1 }
  | panics (ok : Bool) (hpc : st.pc = .loop false) :
      Step neighbours st (.turn ok)
        { st with pc := .panicked, iterations := st.iterations + 1 }
  | endWait :
      Step neighbours st .endWait { st with ackChannel := st.ackChannel.map fun _ => false }

/-- A turn of the loop ends it, or the packet is sent to a new neighbour. -/
theorem step_turn (hT : 0 < ackTimeout) (hpc : st.pc = .loop true) (ok : Bool) :
    st.Step neighbours (.turn ok)
      { st.turn ackTimeout neighbours ok with iterations := st.iterations + 1 } := by
  unfold Resend.turn
  have hsearches := st.searches_send neighbours .waitAck ok
  split
  · next hclosed => exact .ackReceived ok hpc hclosed
  · rw [if_neg hT.ne']
    split
    · next hstops =>
        rw [hstops] at hsearches
        exact .stops ok (st.send neighbours .waitAck ok) hpc hsearches
    · next hgoes =>
        rw [Bool.not_eq_true] at hgoes
        rw [hgoes] at hsearches
        exact .resends ok (st.send neighbours .waitAck ok) hpc hsearches

theorem step_of_next (hT : 0 < ackTimeout) {a : ResendAction}
    (hnext : st.next ackTimeout neighbours a = some st') : st.Step neighbours a st' := by
  cases a with
  | createPkt err =>
      simp only [next, Option.ite_none_right_eq_some] at hnext
      obtain ⟨hpc, heq⟩ := hnext
      obtain rfl := Option.some.inj heq
      by_cases hearly : err = true ∨ neighbours = []
      · rw [if_pos hearly]
        exact .createPkt err hpc hearly
      · rw [if_neg hearly]
        rw [not_or, Bool.not_eq_true] at hearly
        obtain ⟨rfl, hne⟩ := hearly
        exact .starts hpc hne
  | firstSend ok =>
      simp only [next, Option.ite_none_right_eq_some] at hnext
      obtain ⟨hpc, heq⟩ := hnext
      obtain rfl := Option.some.inj heq
      exact .firstSend ok _ (st.send neighbours .broadcast ok) hpc
        (st.searches_send neighbours .broadcast ok)
  | createChannel =>
      simp only [next, Option.ite_none_right_eq_some] at hnext
      obtain ⟨hpc, heq⟩ := hnext
      obtain rfl := Option.some.inj heq
      exact .createChannel hpc
  | getChannel =>
      simp only [next, Option.ite_none_right_eq_some] at hnext
      obtain ⟨hpc, heq⟩ := hnext
      obtain rfl := Option.some.inj heq
      exact .getChannel hpc
  | turn ok =>
      simp only [next] at hnext
      split at hnext
      · next hpc =>
          obtain rfl := Option.some.inj hnext
          exact step_turn hT hpc ok
      · next hpc =>
          obtain rfl := Option.some.inj hnext
          exact .panics ok hpc
      · cases hnext
  | endWait =>
      obtain rfl := Option.some.inj hnext
      exact .endWait

/-! ## Invariants of a call -/

theorem Tries.step (h : st.Tries neighbours) {a : ResendAction}
    (hstep : st.Step neighbours a st') : st'.Tries neighbours := by
  cases hstep with
  | firstSend ok stops st' hpc hsearches => exact (h.searches hsearches).of_same rfl rfl
  | stops ok st' hpc hsearches => exact (h.searches hsearches).of_same rfl rfl
  | resends ok st' hpc hsearches => exact (h.searches hsearches).of_same rfl rfl
  | _ => exact h.of_same rfl rfl

theorem Counts.step (h : st.Counts neighbours) {a : ResendAction}
    (hstep : st.Step neighbours a st') : st'.Counts neighbours := by
  cases hstep with
  | createPkt err hpc _ =>
      rw [Counts, hpc] at h
      obtain ⟨hzero, hnil, hsent⟩ := h
      exact ⟨hzero.trans_le (Nat.zero_le _), hsent.dropLast⟩
  | starts hpc hne =>
      rw [Counts, hpc] at h
      obtain ⟨hzero, hnil, hsent⟩ := h
      exact ⟨hzero, hnil, hsent, hne⟩
  | firstSend ok stops st' hpc hsearches =>
      rw [Counts, hpc] at h
      obtain ⟨hzero, hnil, hsent, hne⟩ := h
      have hsent' : st'.AllSent := hsent.searches hsearches Sender.noConfusion
      have hone : st'.sentRumorNeighbours.length = 1 := length_of_first hnil hne hsearches
      exact ⟨hsearches.iterations.trans hzero, hone, hsent'⟩
  | createChannel hpc =>
      rw [Counts, hpc] at h
      exact h
  | getChannel hpc =>
      rw [Counts, hpc] at h
      obtain ⟨hzero, hone, hsent⟩ := h
      refine ⟨?_, hsent⟩
      rw [hone, hzero]
  | ackReceived ok hpc _ =>
      rw [Counts, hpc] at h
      exact ⟨h.1.le, h.2.dropLast⟩
  | stops ok st' hpc hsearches =>
      rw [Counts, hpc] at h
      obtain ⟨hcount, hsent⟩ := h
      have hdrop := hsent.dropLast_searches hsearches
      exact ⟨hcount.trans_le hsearches.length_le, hdrop⟩
  | resends ok st' hpc hsearches =>
      rw [Counts, hpc] at h
      obtain ⟨hcount, hsent⟩ := h
      obtain ⟨hpc', hlength, rfl⟩ := hsearches.of_goes_on
      have hsent' : st'.AllSent := hsent.searches hsearches fun _ => rfl
      rw [Counts, hpc', hpc]
      refine ⟨?_, hsent'⟩
      rw [hlength, hcount]
  | panics ok hpc =>
      rw [Counts, hpc] at h
      exact ⟨h.1.le, h.2⟩
  | endWait =>
      exact h

theorem Counts.iterations_le (h : st.Counts neighbours) :
    st.iterations ≤ st.sentRumorNeighbours.length := by
  unfold Counts at h
  split at h
  · exact h.1.trans_le (Nat.zero_le _)
  · exact h.1.trans_le (Nat.zero_le _)
  · exact h.1.trans_le (Nat.zero_le _)
  · exact h.1.trans_le (Nat.zero_le _)
  · exact (Nat.le_succ _).trans h.1.le
  · exact h.1
  · exact h.1

theorem Counts.dropLast (h : st.Counts neighbours) :
    ∀ s ∈ st.sends.dropLast, s.sender = .waitAck → s.ok = true := by
  unfold Counts at h
  split at h
  · exact h.2.2.dropLast
  · exact h.2.2.1.dropLast
  · exact h.2.2.dropLast
  · exact h.2.2.dropLast
  · exact h.2.dropLast
  · exact h.2
  · exact h.2.dropLast

theorem Counts.allSent (h : st.Counts neighbours) (hpc : st.pc ≠ .returned) : st.AllSent := by
  unfold Counts at h
  split at h
  · exact h.2.2
  · exact h.2.2.1
  · exact h.2.2
  · exact h.2.2
  · exact h.2
  · next hreturned => exact absurd hreturned hpc
  · exact h.2

/-- After a failed send of `waitAck` nothing is sent. -/
theorem Counts.failed_last (h : st.Counts neighbours) {front back : List Send} {s : Send}
    (hsends : st.sends = front ++ s :: back) (hsender : s.sender = .waitAck)
    (hfailed : s.ok = false) : back = [] ∧ st.pc = .returned := by
  have hne : s.ok ≠ true := by
    rw [hfailed]
    exact Bool.false_ne_true
  constructor
  · by_contra hback
    apply hne
    apply h.dropLast s ?_ hsender
    rw [hsends, List.dropLast_append_of_ne_nil (List.cons_ne_nil s back),
      List.dropLast_cons_of_ne_nil hback]
    exact List.mem_append_right _ List.mem_cons_self
  · by_contra hpc
    apply hne
    apply h.allSent hpc s ?_ hsender
    rw [hsends]
    exact List.mem_append_right _ List.mem_cons_self

end Resend

/-! ## The routine in a network of gossiping nodes -/

section

variable {M : Type*} {n n' : Node String M} {i : ℕ} {w : WaitAck String M}
  {sent : List (Packet String M)} {ackTimeout : ℤ} {st : Resend}

/-- The routine `w` of the node is at the head of the loop with an open or closed channel. -/
structure Resend.Runs (n : Node String M) (w : WaitAck String M) (st : Resend) : Prop where
  pc : st.pc = .loop true
  tried : st.sentRumorNeighbours = w.sentRumorNeighbours
  ackChannel : st.ackChannel = some (decide (w.pkt.header.packetID ∈ n.acksHandler))

/-- A turn of a `waitAck` routine in the network is a turn of the loop whose send, if it
makes one, succeeds. -/
theorem Resend.Runs.waitAck (h : st.Runs n w) (hT : 0 < ackTimeout)
    (hw : n.waits[i]? = some w) (hwaiting : w.waiting = true) (haddr : "" ∉ w.neighbours)
    (hn : n.waitAck i = some (n', sent)) :
    ∃ st', st.next ackTimeout w.neighbours (.turn true) = some st' ∧
      st'.sends.map Send.dest = st.sends.map Send.dest ++ sent.map (·.header.destination) ∧
      (st'.pc = .returned ∧ n'.waits = n.waits.eraseIdx i ∨
        ∃ w', n'.waits[i]? = some w' ∧ st'.Runs n' w') := by
  have hnext : st.next ackTimeout w.neighbours (.turn true) =
      some { st.turn ackTimeout w.neighbours true with iterations := st.iterations + 1 } := by
    rw [Resend.next, h.pc]
  refine ⟨_, hnext, ?_⟩
  rw [Node.waitAck, hw, Option.bind_some, if_neg (by simp [hwaiting])] at hn
  by_cases hopen : w.pkt.header.packetID ∈ n.acksHandler
  · have hchannel : st.ackChannel ≠ some false := by
      rw [h.ackChannel, decide_eq_true hopen]
      decide
    rw [if_neg (not_not.mpr hopen)] at hn
    simp only [Resend.turn, if_neg hchannel, if_neg hT.ne', Resend.send,
      searchNeighbourAndSndPkt, h.tried]
    cases hsearch : searchNeighbour w.neighbours w.sentRumorNeighbours with
    | none =>
        rw [hsearch] at hn
        obtain ⟨rfl, rfl⟩ := Prod.mk.inj (Option.some.inj hn)
        exact ⟨(List.append_nil _).symm, .inl ⟨rfl, rfl⟩⟩
    | some dest =>
        rw [hsearch] at hn
        obtain ⟨rfl, rfl⟩ := Prod.mk.inj (Option.some.inj hn)
        have hdest : dest ≠ "" := by
          rintro rfl
          exact haddr (searchNeighbour_eq_some hsearch).1
        simp only [if_neg hdest, Bool.not_true, Bool.false_eq_true, if_false]
        have hlt : i < n.waits.length := (List.getElem?_eq_some_iff.mp hw).1
        exact ⟨List.map_append, .inr ⟨_, List.getElem?_set_self hlt, h.pc, rfl, h.ackChannel⟩⟩
  · rw [if_pos hopen] at hn
    obtain ⟨rfl, rfl⟩ := Prod.mk.inj (Option.some.inj hn)
    have hchannel : st.ackChannel = some false := by
      rw [h.ackChannel, decide_eq_false hopen]
    rw [Resend.turn, if_pos hchannel]
    exact ⟨(List.append_nil _).symm, .inl ⟨rfl, rfl⟩⟩

end

theorem resend_of_reachable {ackTimeout : ℤ} (hT : 0 < ackTimeout) {neighbours : List String}
    {st : Resend} (h : (resending ackTimeout neighbours).Reachable st) :
    st.Tries neighbours ∧ st.Counts neighbours := by
  apply h.invariant
  · refine ⟨⟨List.nodup_nil, List.nil_subset _, List.nodup_nil, List.nil_subset _⟩, ?_⟩
    exact ⟨rfl, rfl, fun s hs => absurd hs List.not_mem_nil⟩
  · intro st st' a _ hst _ hnext
    have hstep := Resend.step_of_next hT hnext
    exact ⟨hst.1.step hstep, hst.2.step hstep⟩

/-- `Broadcast` and its `waitAck` routine send a packet to every neighbour at most
once, a failed send of `waitAck` is the last one, and the loop, which can always
take another turn, takes at most as many as there are distinct neighbours. -/
theorem resending_terminates {ackTimeout : ℤ} (hT : 0 < ackTimeout)
    {neighbours : List String} {st : Resend}
    (h : (resending ackTimeout neighbours).Reachable st) :
    (st.sends.map Send.dest).Nodup ∧ st.sends.map Send.dest ⊆ neighbours ∧
      (∀ front s back, st.sends = front ++ s :: back → s.sender = .waitAck → s.ok = false →
        back = [] ∧ st.pc = .returned) ∧
      st.iterations ≤ neighbours.toFinset.card ∧
      ∀ inTable, st.pc = .loop inTable → st.iterations < neighbours.toFinset.card ∧
        ∀ ok, ∃ st', st.next ackTimeout neighbours (.turn ok) = some st' ∧
          st'.iterations = st.iterations + 1 := by
  obtain ⟨htries, hcounts⟩ := resend_of_reachable hT h
  have hlength := htries.length_le
  refine ⟨htries.dests_nodup, List.Subset.trans htries.dests_subset htries.subset, ?_,
    hcounts.iterations_le.trans hlength, ?_⟩
  · intro front s back hsends hsender hfailed
    exact hcounts.failed_last hsends hsender hfailed
  · intro inTable hpc
    rw [Resend.Counts, hpc] at hcounts
    constructor
    · exact Nat.lt_of_lt_of_le (Nat.lt_of_succ_le hcounts.1.le) hlength
    · intro ok
      cases inTable with
      | true => exact ⟨_, by rw [Resend.next, hpc], rfl⟩
      | false => exact ⟨_, by rw [Resend.next, hpc], rfl⟩

/-- Three neighbours in a list of four.  The send to the third one fails. -/
theorem resending_terminates_of_three :
    ∃ st, (resending 100 ["a", "b", "a", "c"]).Reachable st ∧
      st.sends = [⟨.broadcast, "a", true⟩, ⟨.waitAck, "b", true⟩, ⟨.waitAck, "c", false⟩] ∧
      (st.sends.map Send.dest).Nodup ∧ st.iterations ≤ 3 := by
  obtain ⟨st, hst, hsends⟩ := TransitionSystem.exists_of_replay
    (S := resending 100 ["a", "b", "a", "c"]) (fun _ _ => True)
    [.createPkt false, .firstSend true, .createChannel, .getChannel, .turn true, .turn false]
    (fun st => st.sends =
      [⟨.broadcast, "a", true⟩, ⟨.waitAck, "b", true⟩, ⟨.waitAck, "c", false⟩])
    (by decide +kernel)
  have hterminates := resending_terminates (by decide) hst
  exact ⟨st, hst, hsends, hterminates.1, hterminates.2.2.2.1⟩

end Minotor.Gossip
