import Minotor.Peer.Responses
import Mathlib.Data.List.Infix

/-!
# The value a proposer adopts

`respondToPromiseMsg` compares the accepted ID of a promise with `bestID`, but
stores the ID of the promise there, which is the proposer's own.  So the first
promise with an accepted value is adopted, unless a later one reports an accepted
ID above the ID of the proposal.
-/

namespace Minotor

namespace PaxosHandler

/-- A promise is handled, however that ends. -/
def handlePromise (h : PaxosHandler) (msg : PaxosPromiseMessage) : PaxosHandler :=
  match h.respondToPromiseMsg msg with
  | .ignored => h
  | .counted h' => h'
  | .chosen h' _ => h'
  | .blocks h' _ => h'
  | .panics h' => h'

/-- Promises are handled one after the other. -/
def handlePromises (h : PaxosHandler) (msgs : List PaxosPromiseMessage) : PaxosHandler :=
  msgs.foldl handlePromise h

/-- The values waiting on the promise channel. -/
def chosenValues (h : PaxosHandler) : List PaxosValue :=
  (h.promiseChans h.promiseChannel).buf

end PaxosHandler

/-- Promises for step `s` and ID `n`, with a value whenever an ID was accepted. -/
def PromisesFor (s n : ℕ) (msgs : List PaxosPromiseMessage) : Prop :=
  ∀ msg ∈ msgs, msg.step = s ∧ msg.id = n ∧ (0 < msg.acceptedID → msg.acceptedValue ≠ none)

/-- `v` is the accepted value of a promise with the greatest accepted ID, or the
proposer's own value `w` if no promise reports an accepted value. -/
def AdoptsGreatest (w : PaxosValue) (msgs : List PaxosPromiseMessage) (v : PaxosValue) :
    Prop :=
  ((∀ msg ∈ msgs, msg.acceptedValue = none) → v = w) ∧
    ((∃ msg ∈ msgs, msg.acceptedValue ≠ none) →
      ∃ msg ∈ msgs, msg.acceptedValue = some v ∧
        ∀ other ∈ msgs, other.acceptedID ≤ msg.acceptedID)

/-- The promise whose value is kept for ID `n`: the last one with an accepted ID
above `n`, else the first one with an accepted ID. -/
def keptPromise (n : ℕ) (msgs : List PaxosPromiseMessage) : Option PaxosPromiseMessage :=
  if n = 0 then none
  else (msgs.reverse.find? fun msg => n < msg.acceptedID).or
    (msgs.find? fun msg => 0 < msg.acceptedID)

/-- A promise with the greatest accepted ID has the value of the kept promise, or
the proposer's own value `w` if none is kept. -/
def GreatestIsKept (n : ℕ) (w : PaxosValue) (msgs : List PaxosPromiseMessage) : Prop :=
  (∃ msg ∈ msgs, msg.acceptedValue ≠ none) →
    ∃ msg ∈ msgs, (∀ other ∈ msgs, other.acceptedID ≤ msg.acceptedID) ∧
      msg.acceptedValue = ((keptPromise n msgs).map fun kept => kept.acceptedValue).getD (some w)

theorem keptPromise_concat (n : ℕ) (msgs : List PaxosPromiseMessage)
    (msg : PaxosPromiseMessage) (hn : n ≠ 0) :
    keptPromise n (msgs ++ [msg]) =
      match keptPromise n msgs with
      | none => if 0 < msg.acceptedID then some msg else none
      | some kept => if n < msg.acceptedID then some msg else some kept := by
  simp only [keptPromise, if_neg hn, List.reverse_append, List.reverse_singleton,
    List.singleton_append, List.find?_cons, List.find?_append, List.find?_nil]
  by_cases hlt : n < msg.acceptedID
  · have hpos : 0 < msg.acceptedID := by omega
    simp only [hlt, hpos, decide_true, if_true, Option.or_some]
    split
    · rfl
    · rfl
  · simp only [hlt, decide_false, if_false]
    cases hlast : msgs.reverse.find? fun msg => n < msg.acceptedID with
    | some kept => simp
    | none =>
        cases hfirst : msgs.find? fun msg => 0 < msg.acceptedID with
        | some kept => simp
        | none =>
            by_cases hpos : 0 < msg.acceptedID
            · simp [hpos]
            · simp [hpos]

/-- `bestID` and `bestValue` of a handler are those of the kept promise. -/
def PaxosHandler.Keeps (h : PaxosHandler) : Option PaxosPromiseMessage → Prop
  | none => h.bestID = 0
  | some kept => h.bestID = h.paxosID ∧ h.paxosID ≠ 0 ∧ kept.acceptedValue = some h.bestValue

/-- The handler `h` has counted the promises `msgs` since `start`. -/
structure Counted (start : PaxosHandler) (msgs : List PaxosPromiseMessage)
    (h : PaxosHandler) : Prop where
  step : h.step = start.step
  phase : h.currentPhase = .phase1
  threshold : h.threshold = start.threshold
  paxosID : h.paxosID = start.paxosID
  proposedValue : h.proposedValue = start.proposedValue
  promises : h.promises = msgs.length
  promiseChannel : h.promiseChannel = start.promiseChannel
  promiseChans : h.promiseChans = start.promiseChans
  keeps : h.Keeps (keptPromise start.paxosID msgs)

section

variable {start h : PaxosHandler} {msgs : List PaxosPromiseMessage}
  {msg : PaxosPromiseMessage}

/-- Counting a promise keeps what it should. -/
theorem PaxosHandler.Keeps.counted (hkeeps : h.Keeps (keptPromise h.paxosID msgs))
    (hid : msg.id = h.paxosID) (hvalue : 0 < msg.acceptedID → msg.acceptedValue ≠ none) :
    (h.counted msg (msg.acceptedValue.getD .empty)).Keeps
      (keptPromise h.paxosID (msgs ++ [msg])) := by
  have hsome : 0 < msg.acceptedID →
      msg.acceptedValue = some (msg.acceptedValue.getD .empty) := by
    intro hpos
    obtain ⟨v, hv⟩ := Option.ne_none_iff_exists'.mp (hvalue hpos)
    rw [hv, Option.getD_some]
  by_cases hn : h.paxosID = 0
  · have hnone : ∀ l, keptPromise h.paxosID l = none := fun l => if_pos hn
    rw [hnone] at hkeeps ⊢
    have hbest : h.bestID = 0 := hkeeps
    change (if h.bestID < msg.acceptedID then msg.id else h.bestID) = 0
    rw [hid, hn, hbest, ite_self]
  · rw [keptPromise_concat _ _ _ hn]
    cases hkept : keptPromise h.paxosID msgs with
    | none =>
        rw [hkept] at hkeeps
        have hbest : h.bestID = 0 := hkeeps
        by_cases hpos : 0 < msg.acceptedID
        · simp only [if_pos hpos]
          simp only [PaxosHandler.Keeps, PaxosHandler.counted, hbest, if_pos hpos]
          exact ⟨hid, hn, hsome hpos⟩
        · simp only [if_neg hpos]
          simp only [PaxosHandler.Keeps, PaxosHandler.counted, hbest, if_neg hpos]
    | some kept =>
        rw [hkept] at hkeeps
        obtain ⟨hbest, -, hkeptValue⟩ := hkeeps
        by_cases hlt : h.paxosID < msg.acceptedID
        · simp only [if_pos hlt]
          simp only [PaxosHandler.Keeps, PaxosHandler.counted, hbest, if_pos hlt]
          exact ⟨hid, hn, hsome (by omega)⟩
        · simp only [if_neg hlt]
          simp only [PaxosHandler.Keeps, PaxosHandler.counted, hbest, if_neg hlt]
          exact ⟨trivial, hn, hkeptValue⟩

/-- The missing value is never dereferenced. -/
theorem PaxosPromiseMessage.not_panics
    (hvalue : 0 < msg.acceptedID → msg.acceptedValue ≠ none) :
    ¬ (h.bestID < msg.acceptedID ∧ msg.acceptedValue = none) :=
  fun ⟨hlt, hnone⟩ => hvalue (Nat.zero_lt_of_lt hlt) hnone

/-- A promise below the threshold is counted. -/
theorem Counted.promise (hc : Counted start msgs h) (hstep : msg.step = start.step)
    (hid : msg.id = start.paxosID) (hvalue : 0 < msg.acceptedID → msg.acceptedValue ≠ none)
    (hbelow : msgs.length + 1 < start.threshold) :
    Counted start (msgs ++ [msg]) (h.handlePromise msg) := by
  have hnot : ¬ h.threshold ≤ h.promises + 1 := by
    rw [hc.threshold, hc.promises]
    omega
  have hcounted : h.handlePromise msg = h.counted msg (msg.acceptedValue.getD .empty) := by
    rw [PaxosHandler.handlePromise, PaxosHandler.respondToPromiseMsg_below
      (hc.step.trans hstep.symm) hc.phase (PaxosPromiseMessage.not_panics hvalue) hnot]
  have hkeeps := hc.keeps
  rw [← hc.paxosID] at hkeeps
  rw [hcounted]
  refine ⟨hc.step, hc.phase, hc.threshold, hc.paxosID, hc.proposedValue, ?_,
    hc.promiseChannel, hc.promiseChans, ?_⟩
  · rw [List.length_append, List.length_singleton, ← hc.promises]
    rfl
  · rw [← hc.paxosID]
    exact hkeeps.counted (hid.trans hc.paxosID.symm) hvalue

/-- The promise which reaches the threshold: the value of the kept promise, or the
proposer's own, is put on the empty channel. -/
theorem Counted.quorum (hc : Counted start msgs h) (hstep : msg.step = start.step)
    (hid : msg.id = start.paxosID) (hvalue : 0 < msg.acceptedID → msg.acceptedValue ≠ none)
    (hfull : msgs.length + 1 = start.threshold)
    (hchan : start.promiseChans start.promiseChannel = Chan.make 1) :
    ∃ v, (h.handlePromise msg).chosenValues = [v] ∧
      some v = ((keptPromise start.paxosID (msgs ++ [msg])).map
        fun kept => kept.acceptedValue).getD (some start.proposedValue) := by
  have hreached : h.threshold ≤ h.promises + 1 := by
    rw [hc.threshold, hc.promises]
    omega
  have hkeeps := hc.keeps
  rw [← hc.paxosID] at hkeeps
  replace hkeeps := hkeeps.counted (hid.trans hc.paxosID.symm) hvalue
  rw [hc.paxosID] at hkeeps
  generalize hh : h.counted msg (msg.acceptedValue.getD .empty) = h' at hkeeps
  have hchan' : h'.promiseChans h'.promiseChannel = Chan.make 1 := by
    rw [← hh, ← hchan]
    change h.promiseChans h.promiseChannel = _
    rw [hc.promiseChans, hc.promiseChannel]
  have hproposed : h'.proposedValue = start.proposedValue := by
    rw [← hh]
    exact hc.proposedValue
  have hready : (h'.toPhase2.promiseChans h'.toPhase2.promiseChannel).Ready := by
    change (h'.promiseChans h'.promiseChannel).Ready
    rw [hchan']
    exact Chan.make_ready Nat.one_pos
  have hquorum : h.handlePromise msg = h'.toPhase2.putPromise h'.toPhase2.choice hready := by
    rw [PaxosHandler.handlePromise, PaxosHandler.respondToPromiseMsg_full
      (hc.step.trans hstep.symm) hc.phase (PaxosPromiseMessage.not_panics hvalue) hreached,
      hh, PaxosHandler.sendChoice, PaxosHandler.sendPromise_ready _ hready]
  refine ⟨h'.toPhase2.choice, ?_, ?_⟩
  · rw [hquorum, PaxosHandler.chosenValues]
    simp only [PaxosHandler.putPromise, PaxosHandler.setPromiseChan, Function.update_self,
      Chan.send_buf]
    change (h'.promiseChans h'.promiseChannel).buf ++ _ = _
    rw [hchan', Chan.make_buf, List.nil_append]
  · change some (if h'.bestID ≠ 0 then h'.bestValue else h'.proposedValue) = _
    cases hkept : keptPromise start.paxosID (msgs ++ [msg]) with
    | none =>
        rw [hkept] at hkeeps
        have hbest : h'.bestID = 0 := hkeeps
        simp [hbest, hproposed]
    | some kept =>
        rw [hkept] at hkeeps
        obtain ⟨hbest, hne, hvalue⟩ := hkeeps
        simp [hbest, hne, hvalue]

theorem PaxosHandler.handlePromises_concat (h : PaxosHandler)
    (msgs : List PaxosPromiseMessage) (msg : PaxosPromiseMessage) :
    h.handlePromises (msgs ++ [msg]) = (h.handlePromises msgs).handlePromise msg := by
  rw [handlePromises, List.foldl_append]
  rfl

/-- Below the threshold every promise is counted. -/
theorem Counted.promises_below (hc : Counted start [] start)
    (hmsgs : PromisesFor start.step start.paxosID msgs)
    (hbelow : msgs.length < start.threshold) :
    Counted start msgs (start.handlePromises msgs) := by
  induction msgs using List.reverseRecOn with
  | nil => exact hc
  | append_singleton msgs msg ih =>
      rw [List.length_append, List.length_singleton] at hbelow
      obtain ⟨hstep, hid, hvalue⟩ := hmsgs msg (by simp)
      have hfront : PromisesFor start.step start.paxosID msgs :=
        fun m hm => hmsgs m (List.mem_append_left _ hm)
      rw [PaxosHandler.handlePromises_concat]
      exact (ih hfront (by omega)).promise hstep hid hvalue hbelow

/-- A proposer which has just created its prepare message in a fresh instance has
counted nothing. -/
theorem counted_createPrepareMessage {P : Type*} (hfresh : h.Fresh) (source : P)
    (w : PaxosValue) :
    Counted (h.createPrepareMessage source w).2 [] (h.createPrepareMessage source w).2 := by
  refine ⟨rfl, rfl, rfl, rfl, rfl, rfl, rfl, rfl, ?_⟩
  rw [show keptPromise _ [] = none by simp [keptPromise]]
  exact hfresh.bestID

end

/-- Without a reported value nothing is kept. -/
theorem keptPromise_eq_none {s n : ℕ} {msgs : List PaxosPromiseMessage}
    (hmsgs : PromisesFor s n msgs) (hnone : ∀ msg ∈ msgs, msg.acceptedValue = none) :
    keptPromise n msgs = none := by
  have hzero : ∀ msg ∈ msgs, msg.acceptedID = 0 := by
    intro msg hmsg
    by_contra hne
    exact (hmsgs msg hmsg).2.2 (Nat.pos_of_ne_zero hne) (hnone msg hmsg)
  have hlast : (msgs.reverse.find? fun msg => n < msg.acceptedID) = none := by
    rw [List.find?_eq_none]
    intro msg hmsg
    simp [hzero msg (List.mem_reverse.mp hmsg)]
  have hfirst : (msgs.find? fun msg => 0 < msg.acceptedID) = none := by
    rw [List.find?_eq_none]
    intro msg hmsg
    simp [hzero msg hmsg]
  rw [keptPromise, hlast, hfirst, Option.or_none, ite_self]

/-- For every step, ID and threshold, and promises in every order: nothing is put
on the promise channel before the threshold is reached, and the value put there
then is the one to adopt exactly if a promise with the greatest accepted ID has
the value of the kept promise. -/
theorem adopts_greatest_iff {P : Type*} (h : PaxosHandler) (hfresh : h.Fresh) (source : P)
    (w : PaxosValue) (msgs : List PaxosPromiseMessage)
    (hmsgs : PromisesFor h.step h.paxosID msgs) (hpos : 1 ≤ h.threshold)
    (hT : msgs.length = h.threshold) :
    (∀ front, front <+: msgs → front.length < h.threshold →
      ((h.createPrepareMessage source w).2.handlePromises front).chosenValues = []) ∧
    ((∃ v, ((h.createPrepareMessage source w).2.handlePromises msgs).chosenValues = [v] ∧
        AdoptsGreatest w msgs v) ↔
      GreatestIsKept h.paxosID w msgs) := by
  have hstart := counted_createPrepareMessage hfresh source w
  have hchan : (h.createPrepareMessage source w).2.promiseChans
      (h.createPrepareMessage source w).2.promiseChannel = Chan.make 1 := hfresh.promiseChan
  constructor
  · intro front hfront hbelow
    have hmem : PromisesFor h.step h.paxosID front :=
      fun m hm => hmsgs m (hfront.subset hm)
    have hcounted := hstart.promises_below hmem hbelow
    rw [PaxosHandler.chosenValues, hcounted.promiseChans, hcounted.promiseChannel, hchan,
      Chan.make_buf]
  · rcases List.eq_nil_or_concat msgs with rfl | ⟨front, last, heq⟩
    · rw [List.length_nil] at hT
      omega
    · rw [List.concat_eq_append] at heq
      rw [heq, List.length_append, List.length_singleton] at hT
      obtain ⟨hstep, hid, hvalue⟩ := hmsgs last (by simp [heq])
      have hmem : PromisesFor h.step h.paxosID front :=
        fun m hm => hmsgs m (by simp [heq, hm])
      have hbelow : front.length < h.threshold := by omega
      obtain ⟨v, hchosen, hkept⟩ :=
        (hstart.promises_below hmem hbelow).quorum hstep hid hvalue hT hchan
      rw [← PaxosHandler.handlePromises_concat, ← heq] at hchosen
      rw [← heq] at hkept
      change some v = ((keptPromise h.paxosID msgs).map fun kept =>
        kept.acceptedValue).getD (some w) at hkept
      rw [GreatestIsKept, ← hkept]
      constructor
      · rintro ⟨v', hchosen', hadopts⟩ hreported
        rw [hchosen, List.singleton_inj] at hchosen'
        obtain ⟨msg, hmsg, hv, hmax⟩ := hadopts.2 hreported
        exact ⟨msg, hmsg, hmax, hchosen' ▸ hv⟩
      · intro hgreatest
        refine ⟨v, hchosen, fun hnone => ?_, fun hreported => ?_⟩
        · rw [keptPromise_eq_none hmsgs hnone] at hkept
          simpa using hkept
        · obtain ⟨msg, hmsg, hmax, hv⟩ := hgreatest hreported
          exact ⟨msg, hmsg, hv, hmax⟩

/-- Of two promises the one with the greater accepted ID comes first, and its
value is adopted. -/
theorem adopts_greatest_iff_of_two :
    let h := newPaxosHandler (.majority 2 5)
    let msgs : List PaxosPromiseMessage :=
      [⟨0, 5, 3, some ⟨"3", "file", "b"⟩⟩, ⟨0, 5, 1, some ⟨"1", "file", "a"⟩⟩]
    let w : PaxosValue := ⟨"9", "file", "c"⟩
    ∃ v, ((h.createPrepareMessage () w).2.handlePromises msgs).chosenValues = [v] ∧
      AdoptsGreatest w msgs v := by
  intro h msgs w
  have hmsgs : PromisesFor h.step h.paxosID msgs := by
    intro msg hmsg
    simp only [msgs, List.mem_cons, List.not_mem_nil, or_false] at hmsg
    rcases hmsg with rfl | rfl
    · exact ⟨rfl, rfl, by simp⟩
    · exact ⟨rfl, rfl, by simp⟩
  have hgreatest : GreatestIsKept h.paxosID w msgs := by
    intro _
    exact ⟨⟨0, 5, 3, some ⟨"3", "file", "b"⟩⟩, by simp [msgs], by simp [msgs], rfl⟩
  exact (adopts_greatest_iff h (fresh_newPaxosHandler _) () w msgs hmsgs (by decide)
    rfl).2.mpr hgreatest

/-- With the promise for the smaller accepted ID first, its value is put on the
channel. -/
theorem adopts_first_accepted :
    let h := newPaxosHandler (.majority 2 5)
    let msgs : List PaxosPromiseMessage :=
      [⟨0, 5, 1, some ⟨"1", "file", "a"⟩⟩, ⟨0, 5, 3, some ⟨"3", "file", "b"⟩⟩]
    let w : PaxosValue := ⟨"9", "file", "c"⟩
    ¬ ∃ v, ((h.createPrepareMessage () w).2.handlePromises msgs).chosenValues = [v] ∧
      AdoptsGreatest w msgs v := by
  rintro h msgs w ⟨v, hchosen, hadopts⟩
  have hv : [⟨"1", "file", "a"⟩] = [v] := hchosen
  rw [List.singleton_inj] at hv
  obtain ⟨msg, hmsg, hvalue, hmax⟩ :=
    hadopts.2 ⟨⟨0, 5, 1, some ⟨"1", "file", "a"⟩⟩, by simp [msgs], by simp⟩
  rw [← hv] at hvalue
  simp only [msgs, List.mem_cons, List.not_mem_nil, or_false] at hmsg
  rcases hmsg with rfl | rfl
  · have hle := hmax ⟨0, 5, 3, some ⟨"3", "file", "b"⟩⟩ (by simp [msgs])
    exact absurd hle (by decide)
  · simp at hvalue

end Minotor
