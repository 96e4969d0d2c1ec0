import Minotor.Support.Digest
import Minotor.Support.TransitionSystem

/-!
# The search channel

One call of `SearchFirst`, the handlers of the replies to its request, and
`Stop`, with the lock of `searchsHandler` and its unbuffered channel, from
`channelsHandler.go`, `datasharing.go` and `callbacks.go`.  Unlike in the
model of a whole node, where a reply hands over its file in one step,
`triggerChannel` holds the lock while it waits for a receiver.

The other sections under the lock do not wait inside, so they are one step
each, taken while the lock is free.  Requests are sent without the lock.
-/

namespace Minotor.DataSharing.SearchChannel

/-- The outcome of `SearchFirst`. -/
inductive Outcome where
  | filename (name : Bytes)
  | empty
  | err (err : String)
deriving DecidableEq

/-- Where `SearchFirst` stands. -/
inductive PC where
  | start
  /-- before `getChannel` -/
  | created
  /-- in `sendSearchReq`; after it the counter is `trials` -/
  | sending (trials : ℕ)
  /-- in the select on the search channel and the ticker -/
  | selecting (trials : ℕ)
  /-- before the deferred `deleteChannel` -/
  | returning (outcome : Outcome)
  | returned (outcome : Outcome)
deriving DecidableEq

/-- Where `checkAvailabilityAndTrigger` stands with a reply. -/
inductive Handler where
  /-- before `getChannel`, with the first file of which all chunks are there -/
  | get (file : Option Bytes)
  /-- before `triggerChannel` -/
  | trigger (filename : Bytes)
  /-- in the send of `triggerChannel`, under the lock -/
  | waiting (filename : Bytes)
  /-- before the `delete` of `triggerChannel`, under the lock -/
  | triggered
  | done
deriving DecidableEq

/-- The handler is between `Lock` and `Unlock` of `triggerChannel`. -/
def Handler.Inside : Handler → Prop
  | .waiting _ | .triggered => True
  | _ => False

/-- The channels handler as far as the request is concerned, `SearchFirst` and
the handlers of the replies. -/
structure State where
  /-- the reply whose handler holds the lock -/
  lock : Option ℕ
  /-- the request has its channel in the map -/
  inTable : Bool
  closed : Bool
  pc : PC
  handlers : List Handler
deriving DecidableEq

inductive Action where
  /-- `localFullyKnowsFile` finds a file -/
  | found (name : Bytes)
  | createChannel
  | getChannel
  /-- `sendSearchReq` returns -/
  | sent (err : Option String)
  | receive (i : ℕ)
  | receiveClosed
  | tick
  | deleteChannel
  /-- a reply arrives -/
  | reply (file : Option Bytes)
  | check (i : ℕ)
  | trigger (i : ℕ)
  | finish (i : ℕ)
  /-- `Stop` closes the channels -/
  | close
deriving DecidableEq

namespace State

/-- Before the call. -/
def new : State := ⟨none, false, false, .start, []⟩

/-- Close the channel and delete it from the map, as `deleteChannel` and
`close` do. -/
def closeChannel (s : State) : State :=
  { s with inTable := false, closed := s.closed || s.inTable }

/-- The step of the handler of a reply in which it calls `getChannel` and
finds out if it has a file. -/
def check (s : State) (i : ℕ) (file : Option Bytes) : State :=
  match s.inTable, file with
  | true, some filename => { s with handlers := s.handlers.set i (.trigger filename) }
  | _, _ => { s with handlers := s.handlers.set i .done }

/-- The step into `triggerChannel`. -/
def trigger (s : State) (i : ℕ) (filename : Bytes) : State :=
  if s.inTable then
    { s with lock := some i, handlers := s.handlers.set i (.waiting filename) }
  else { s with handlers := s.handlers.set i .done }

/-- One step; `none` where it is not possible. -/
def next (requestID : String) (retry : ℕ) (s : State) : Action → Option State
  | .found name =>
      if s.pc = .start then some { s with pc := .returned (.filename name) } else none
  | .createChannel =>
      if s.pc = .start ∧ s.lock = none then some { s with pc := .created, inTable := true }
      else none
  | .getChannel =>
      if s.pc = .created ∧ s.lock = none then
        if s.inTable then some { s with pc := .sending 1 }
        else
          let err := s!"channel not found for requestID: {requestID}"
          some { s with pc := .returned (.err err) }
      else none
  | .sent err =>
      match s.pc, err with
      | .sending trials, none => some { s with pc := .selecting trials }
      | .sending _, some err => some { s with pc := .returning (.err err) }
      | _, _ => none
  | .receive i =>
      match s.pc, s.handlers[i]? with
      | .selecting _, some (.waiting filename) =>
          some { s with
            pc := .returning (.filename filename)
            handlers := s.handlers.set i .triggered }
      | _, _ => none
  | .receiveClosed =>
      match s.pc with
      | .selecting _ => if s.closed then some { s with pc := .returning .empty } else none
      | _ => none
  | .tick =>
      match s.pc with
      | .selecting trials =>
          if retry ≤ trials then some { s with pc := .returning .empty }
          else some { s with pc := .sending (trials + 1) }
      | _ => none
  | .deleteChannel =>
      match s.pc, s.lock with
      | .returning outcome, none => some { s.closeChannel with pc := .returned outcome }
      | _, _ => none
  | .reply file => some { s with handlers := s.handlers ++ [.get file] }
  | .check i =>
      match s.lock, s.handlers[i]? with
      | none, some (.get file) => some (s.check i file)
      | _, _ => none
  | .trigger i =>
      match s.lock, s.handlers[i]? with
      | none, some (.trigger filename) => some (s.trigger i filename)
      | _, _ => none
  | .finish i =>
      match s.handlers[i]? with
      | some .triggered =>
          some { s with
            lock := none
            inTable := false
            handlers := s.handlers.set i .done }
      | _ => none
  | .close => if s.lock = none then some s.closeChannel else none

/-- A `triggerChannel` holds the lock and waits for a receiver. -/
def Waited (s : State) : Prop :=
  ∃ i filename, s.lock = some i ∧ s.handlers[i]? = some (.waiting filename)

/-- `SearchFirst` does not receive any more and calls `deleteChannel`. -/
def Returning (s : State) : Prop :=
  ∃ outcome, s.pc = .returning outcome

/-- A `triggerChannel` holds the lock and waits for a receiver, while
`SearchFirst` does not receive any more and waits for the lock. -/
def Deadlock (s : State) : Prop :=
  s.Waited ∧ s.Returning

/-- No `triggerChannel` finds the channel once `SearchFirst` is about to return,
and `SearchFirst` does not give up while one holds the lock. -/
def Timely (retry : ℕ) (s : State) : Action → Prop
  | .trigger _ => s.inTable = true → ¬s.Returning
  | .tick => (∃ trials, s.pc = .selecting trials ∧ retry ≤ trials) → s.lock = none
  | .sent (some _) => s.lock = none
  | _ => True

end State

/-- A call of `SearchFirst` with `conf.Retry = retry`, and all replies to it. -/
def search (requestID : String) (retry : ℕ) : TransitionSystem State Action where
  init := .new
  next := State.next requestID retry

/-! ## What a step can do -/

namespace State

variable {requestID : String} {retry : ℕ} {s s' : State} {a : Action}

/-- The steps by what they change. -/
inductive Steps (retry : ℕ) (s : State) : Action → State → Prop where
  | proceeds {a : Action} {pc : PC} (hbefore : ¬s.Returning) (hstart : pc ≠ .start)
      (hafter : ∀ outcome, pc ≠ .returning outcome) (htimely : s.Timely retry a) :
      Steps retry s a { s with pc := pc }
  | creates (hpc : s.pc = .start) :
      Steps retry s .createChannel { s with pc := .created, inTable := true }
  | givesUp {a : Action} {outcome : Outcome} (hbefore : ¬s.Returning)
      (htimely : s.Timely retry a ↔ s.lock = none) :
      Steps retry s a { s with pc := .returning outcome }
  | seesClosed (hbefore : ¬s.Returning) (hclosed : s.closed = true) :
      Steps retry s .receiveClosed { s with pc := .returning .empty }
  | receives {i : ℕ} {filename : Bytes} (hbefore : ¬s.Returning)
      (hi : s.handlers[i]? = some (.waiting filename)) :
      Steps retry s (.receive i)
        { s with
          pc := .returning (.filename filename)
          handlers := s.handlers.set i .triggered }
  | closes {a : Action} {pc : PC} (hlock : s.lock = none) (hstart : pc = .start → s.pc = .start)
      (htimely : s.Timely retry a) : Steps retry s a { s.closeChannel with pc := pc }
  | arrives (file : Option Bytes) :
      Steps retry s (.reply file) { s with handlers := s.handlers ++ [.get file] }
  | handles {a : Action} {i : ℕ} {h : Handler} (hlock : s.lock = none)
      (houtside : ¬h.Inside) (htimely : s.Timely retry a) :
      Steps retry s a { s with handlers := s.handlers.set i h }
  | waits {i : ℕ} {filename : Bytes} (hlock : s.lock = none) (htable : s.inTable = true)
      (hi : s.handlers[i]? = some (.trigger filename)) :
      Steps retry s (.trigger i)
        { s with lock := some i, handlers := s.handlers.set i (.waiting filename) }
  | finishes {i : ℕ} (hi : s.handlers[i]? = some .triggered) :
      Steps retry s (.finish i)
        { s with lock := none, inTable := false, handlers := s.handlers.set i .done }

theorem not_returning (hpc : ∀ outcome, s.pc ≠ .returning outcome) : ¬s.Returning :=
  fun h => h.elim fun outcome houtcome => hpc outcome houtcome

theorem next_steps (h : s.next requestID retry a = some s') : s.Steps retry a s' := by
  cases a with
  | found name =>
      simp only [next] at h
      split at h
      · next hpc =>
        cases h
        exact .proceeds (not_returning (by simp [hpc])) (by simp) (by simp) trivial
      · cases h
  | createChannel =>
      simp only [next] at h
      split at h
      · next hpc =>
        cases h
        exact .creates hpc.1
      · cases h
  | getChannel =>
      simp only [next] at h
      split at h
      · next hpc =>
        split at h
        · cases h
          exact .proceeds (not_returning (by simp [hpc.1])) (by simp) (by simp) trivial
        · cases h
          exact .proceeds (not_returning (by simp [hpc.1])) (by simp) (by simp) trivial
      · cases h
  | sent err =>
      simp only [next] at h
      split at h
      · next hpc =>
        cases h
        exact .proceeds (not_returning (by simp [hpc])) (by simp) (by simp) trivial
      · next hpc =>
        cases h
        exact .givesUp (not_returning (by simp [hpc])) Iff.rfl
      · cases h
  | receive i =>
      simp only [next] at h
      split at h
      · next hpc hi =>
        cases h
        exact .receives (not_returning (by simp [hpc])) hi
      · cases h
  | receiveClosed =>
      simp only [next] at h
      split at h
      · next hpc =>
        split at h
        · next hclosed =>
          cases h
          exact .seesClosed (not_returning (by simp [hpc])) hclosed
        · cases h
      · cases h
  | tick =>
      simp only [next] at h
      split at h
      · next trials hpc =>
        have hbefore : ¬s.Returning := not_returning (by simp [hpc])
        split at h
        · next hretry =>
          cases h
          refine .givesUp hbefore ?_
          exact ⟨fun htimely => htimely ⟨trials, hpc, hretry⟩, fun hlock _ => hlock⟩
        · next hretry =>
          cases h
          refine .proceeds hbefore (by simp) (by simp) ?_
          rintro ⟨trials', hpc', hretry'⟩
          obtain rfl := PC.selecting.inj (hpc.symm.trans hpc')
          exact absurd hretry' hretry
      · cases h
  | deleteChannel =>
      simp only [next] at h
      split at h
      · next hlock =>
        cases h
        exact .closes hlock (by simp) trivial
      · cases h
  | reply file =>
      cases h
      exact .arrives file
  | check i =>
      simp only [next] at h
      split at h
      · next hlock _ =>
        cases h
        unfold State.check
        split
        · exact .handles hlock id trivial
        · exact .handles hlock id trivial
      · cases h
  | trigger i =>
      simp only [next] at h
      split at h
      · next hlock hi =>
        cases h
        unfold State.trigger
        split
        · next htable => exact .waits hlock htable hi
        · next htable =>
          exact .handles hlock id fun htrue => absurd htrue htable
      · cases h
  | finish i =>
      simp only [next] at h
      split at h
      · next hi =>
        cases h
        exact .finishes hi
      · cases h
  | close =>
      simp only [next] at h
      split at h
      · next hlock =>
        cases h
        have hclose : s.Steps retry .close { s.closeChannel with pc := s.pc } :=
          .closes hlock id trivial
        exact hclose
      · cases h

/-! ## The lock -/

/-- The handler of the reply `i` is between `Lock` and `Unlock`. -/
def Inside (s : State) (i : ℕ) : Prop :=
  ∃ h, s.handlers[i]? = some h ∧ h.Inside

theorem inside_waiting (filename : Bytes) : (Handler.waiting filename).Inside := trivial

theorem inside_triggered : Handler.triggered.Inside := trivial

/-- Whoever is between `Lock` and `Unlock` of `triggerChannel` holds the lock;
the channel stays open and in the map while a handler waits. -/
structure Locked (s : State) : Prop where
  start : s.pc = .start → s.inTable = false ∧ s.closed = false
  isOpen : s.inTable = true → s.closed = false
  inside : ∀ i, s.Inside i ↔ s.lock = some i
  waiting : s.Waited → s.inTable = true
  triggered : ∀ i : ℕ, s.handlers[i]? = some .triggered → s.Returning

theorem getElem?_set_some {l : List Handler} {i j : ℕ} {a h : Handler}
    (hj : (l.set i a)[j]? = some h) : j = i ∧ h = a ∨ j ≠ i ∧ l[j]? = some h := by
  by_cases hij : i = j
  · rw [hij, List.getElem?_set_self'] at hj
    obtain ⟨_, _, rfl⟩ := Option.map_eq_some_iff.mp hj
    exact .inl ⟨hij.symm, rfl⟩
  · rw [List.getElem?_set_ne hij] at hj
    exact .inr ⟨Ne.symm hij, hj⟩

theorem getElem?_set_self_of_some {l : List Handler} {i : ℕ} {a h : Handler}
    (hi : l[i]? = some h) : (l.set i a)[i]? = some a := by
  obtain ⟨hlt, _⟩ := List.getElem?_eq_some_iff.mp hi
  exact List.getElem?_set_self hlt

theorem getElem?_append_get {l : List Handler} {file : Option Bytes} {i : ℕ} {h : Handler}
    (hinside : h.Inside) : (l ++ [.get file])[i]? = some h ↔ l[i]? = some h := by
  rw [List.getElem?_append]
  split
  · exact Iff.rfl
  · next hlt =>
    rw [List.getElem?_eq_none (not_lt.mp hlt)]
    refine iff_of_false ?_ (Option.some_ne_none h).symm
    intro hi
    obtain rfl := List.mem_singleton.mp (List.mem_of_getElem? hi)
    exact hinside

namespace Locked

theorem not_inside (hs : s.Locked) (hlock : s.lock = none) (i : ℕ) : ¬s.Inside i := by
  intro hi
  exact absurd (hlock.symm.trans ((hs.inside i).mp hi)) (Option.some_ne_none _).symm

theorem waited_of_waiting (hs : s.Locked) {i : ℕ} {filename : Bytes}
    (hi : s.handlers[i]? = some (.waiting filename)) : s.Waited :=
  ⟨i, filename, (hs.inside i).mp ⟨_, hi, trivial⟩, hi⟩

/-- Before `SearchFirst` returns, the lock is held by a waiting handler only. -/
theorem waited_iff (hs : s.Locked) (hbefore : ¬s.Returning) :
    s.Waited ↔ s.lock ≠ none := by
  constructor
  · rintro ⟨i, _, hlock, _⟩
    rw [hlock]
    exact Option.some_ne_none i
  · intro hlock
    obtain ⟨i, hi⟩ := Option.ne_none_iff_exists'.mp hlock
    obtain ⟨h, hh, hinside⟩ := (hs.inside i).mpr hi
    cases h with
    | waiting filename => exact ⟨i, filename, hi, hh⟩
    | triggered => exact absurd (hs.triggered i hh) hbefore
    | get => exact hinside.elim
    | trigger => exact hinside.elim
    | done => exact hinside.elim

theorem new : State.new.Locked where
  start _ := ⟨rfl, rfl⟩
  isOpen _ := rfl
  inside i := by
    refine iff_of_false ?_ (Option.some_ne_none i).symm
    rintro ⟨h, hh, _⟩
    cases hh
  waiting := by
    rintro ⟨i, _, hlock, _⟩
    cases hlock
  triggered i hi := by cases hi

/-- Nobody is inside after a step which gives the lock free or leaves it so. -/
theorem inside_of_none {t : State} (hlock : t.lock = none)
    (hnone : ∀ (i : ℕ) (h : Handler), t.handlers[i]? = some h → ¬h.Inside) :
    (∀ i, t.Inside i ↔ t.lock = some i) ∧ ¬t.Waited ∧
      ∀ i : ℕ, t.handlers[i]? ≠ some .triggered := by
  refine ⟨?_, ?_, fun i hi => hnone i _ hi inside_triggered⟩
  · intro i
    refine iff_of_false ?_ ?_
    · rintro ⟨h, hi, hinside⟩
      exact hnone i h hi hinside
    · exact hlock ▸ (Option.some_ne_none i).symm
  · rintro ⟨i, filename, hlock', _⟩
    exact absurd (hlock.symm.trans hlock') (Option.some_ne_none i).symm

/-- `SearchFirst` receives: the waiting handler has triggered the channel and
keeps the lock. -/
theorem receives (hs : s.Locked) {i : ℕ} {filename : Bytes}
    (hi : s.handlers[i]? = some (.waiting filename)) :
    Locked { s with
      pc := .returning (.filename filename)
      handlers := s.handlers.set i .triggered } := by
  have hlock : s.lock = some i := (hs.inside i).mp ⟨_, hi, trivial⟩
  refine ⟨by rintro ⟨⟩, hs.isOpen, ?_, fun _ => hs.waiting (hs.waited_of_waiting hi),
    fun _ _ => ⟨_, rfl⟩⟩
  intro j
  rw [← hs.inside j]
  constructor
  · rintro ⟨h, hj, hinside⟩
    rcases getElem?_set_some hj with ⟨rfl, _⟩ | ⟨_, hj⟩
    · exact ⟨_, hi, trivial⟩
    · exact ⟨h, hj, hinside⟩
  · intro hj
    obtain rfl : i = j := Option.some.inj (hlock.symm.trans ((hs.inside j).mp hj))
    exact ⟨_, getElem?_set_self_of_some hi, trivial⟩

/-- A handler takes the lock. -/
theorem waits (hs : s.Locked) {i : ℕ} {filename : Bytes} {h : Handler}
    (hlock : s.lock = none) (htable : s.inTable = true) (hi : s.handlers[i]? = some h) :
    Locked { s with lock := some i, handlers := s.handlers.set i (.waiting filename) } := by
  have hnone : ∀ i, ¬s.Inside i := hs.not_inside hlock
  refine ⟨hs.start, hs.isOpen, ?_, fun _ => htable, ?_⟩
  · intro j
    constructor
    · rintro ⟨h, hj, hinside⟩
      rcases getElem?_set_some hj with ⟨rfl, _⟩ | ⟨_, hj⟩
      · rfl
      · exact absurd ⟨h, hj, hinside⟩ (hnone j)
    · intro hj
      obtain rfl : i = j := Option.some.inj hj
      exact ⟨_, getElem?_set_self_of_some hi, trivial⟩
  · intro j hj
    rcases getElem?_set_some hj with ⟨_, h⟩ | ⟨_, hj⟩
    · cases h
    · exact absurd ⟨_, hj, trivial⟩ (hnone j)

/-- A handler returns the lock. -/
theorem finishes (hs : s.Locked) {i : ℕ} (hi : s.handlers[i]? = some .triggered) :
    Locked { s with
      lock := none
      inTable := false
      handlers := s.handlers.set i .done } := by
  have hlock : s.lock = some i := (hs.inside i).mp ⟨_, hi, trivial⟩
  have hnone : ∀ (j : ℕ) (h : Handler),
      (s.handlers.set i .done)[j]? = some h → ¬h.Inside := by
    intro j h hj hinside
    rcases getElem?_set_some hj with ⟨_, rfl⟩ | ⟨hne, hj⟩
    · exact hinside
    · have hlock' := (hs.inside j).mp ⟨h, hj, hinside⟩
      exact hne (Option.some.inj (hlock'.symm.trans hlock))
  obtain ⟨hinside, hwaited, htriggered⟩ := inside_of_none
    (t := { s with lock := none, inTable := false, handlers := s.handlers.set i .done })
    rfl hnone
  obtain ⟨outcome, houtcome⟩ := hs.triggered i hi
  refine ⟨?_, by rintro ⟨⟩, hinside, fun hw => absurd hw hwaited,
    fun j hj => absurd hj (htriggered j)⟩
  intro hpc
  exact absurd (houtcome.symm.trans hpc) (by simp)

/-- A handler goes on outside the section under the lock. -/
theorem handles (hs : s.Locked) (i : ℕ) {h : Handler} (hlock : s.lock = none)
    (hh : ¬h.Inside) : Locked { s with handlers := s.handlers.set i h } := by
  have hnone : ∀ (j : ℕ) (h' : Handler),
      (s.handlers.set i h)[j]? = some h' → ¬h'.Inside := by
    intro j h' hj hinside
    rcases getElem?_set_some hj with ⟨_, rfl⟩ | ⟨_, hj⟩
    · exact hh hinside
    · exact hs.not_inside hlock j ⟨h', hj, hinside⟩
  obtain ⟨hinside, hwaited, htriggered⟩ := inside_of_none
    (t := { s with handlers := s.handlers.set i h }) hlock hnone
  exact ⟨hs.start, hs.isOpen, hinside, fun hw => absurd hw hwaited,
    fun j hj => absurd hj (htriggered j)⟩

/-- A reply arrives. -/
theorem arrives (hs : s.Locked) (file : Option Bytes) :
    Locked { s with handlers := s.handlers ++ [.get file] } := by
  refine ⟨hs.start, hs.isOpen, ?_, ?_, ?_⟩
  · intro i
    rw [← hs.inside i]
    exact exists_congr fun h => and_congr_left getElem?_append_get
  · rintro ⟨i, filename, hlock, hi⟩
    have hi' := (getElem?_append_get (inside_waiting filename)).mp hi
    exact hs.waiting ⟨i, filename, hlock, hi'⟩
  · intro i hi
    exact hs.triggered i ((getElem?_append_get inside_triggered).mp hi)

theorem step (hs : s.Locked) (h : s.Steps retry a s') : s'.Locked := by
  cases h with
  | @proceeds _ pc hbefore hstart hafter _ =>
      exact
        { start := fun hpc => absurd hpc hstart
          isOpen := hs.isOpen
          inside := hs.inside
          waiting := hs.waiting
          triggered := fun i hi => absurd (hs.triggered i hi) hbefore }
  | creates hpc =>
      have hclosed := (hs.start hpc).2
      refine ⟨by rintro ⟨⟩, fun _ => hclosed, hs.inside, fun _ => rfl, ?_⟩
      intro i hi
      obtain ⟨outcome, houtcome⟩ := hs.triggered i hi
      exact absurd (hpc.symm.trans houtcome) (by simp)
  | @givesUp _ outcome _ _ =>
      exact ⟨by rintro ⟨⟩, hs.isOpen, hs.inside, hs.waiting, fun _ _ => ⟨outcome, rfl⟩⟩
  | seesClosed _ _ =>
      exact ⟨by rintro ⟨⟩, hs.isOpen, hs.inside, hs.waiting, fun _ _ => ⟨.empty, rfl⟩⟩
  | receives _ hi => exact hs.receives hi
  | @closes _ pc hlock hstart _ =>
      have hnone : ∀ i, ¬s.Inside i := hs.not_inside hlock
      refine ⟨?_, by rintro ⟨⟩, hs.inside, ?_, fun i hi => absurd ⟨_, hi, trivial⟩ (hnone i)⟩
      · intro hpc
        obtain ⟨htable, hclosed⟩ := hs.start (hstart hpc)
        refine ⟨rfl, ?_⟩
        change (s.closed || s.inTable) = false
        rw [htable, hclosed, Bool.or_false]
      · rintro ⟨i, filename, _, hi⟩
        exact absurd ⟨_, hi, trivial⟩ (hnone i)
  | arrives file => exact hs.arrives file
  | @handles _ i h hlock hh _ => exact hs.handles i hlock hh
  | waits hlock htable hi => exact hs.waits hlock htable hi
  | finishes hi => exact hs.finishes hi

/-- A step leads into a deadlock exactly if it is not timely. -/
theorem deadlock_iff (hs : s.Locked) (hno : ¬s.Deadlock) (h : s.Steps retry a s') :
    s'.Deadlock ↔ ¬s.Timely retry a := by
  cases h with
  | proceeds _ _ hafter htimely =>
      refine iff_of_false ?_ (not_not_intro htimely)
      rintro ⟨_, outcome, houtcome⟩
      exact hafter outcome houtcome
  | creates _ =>
      refine iff_of_false ?_ (not_not_intro trivial)
      rintro ⟨_, outcome, ⟨⟩⟩
  | givesUp hbefore htimely =>
      rw [htimely, ← ne_eq, ← hs.waited_iff hbefore]
      exact ⟨fun hdead => hdead.1, fun hwaited => ⟨hwaited, _, rfl⟩⟩
  | seesClosed _ hclosed =>
      refine iff_of_false ?_ (not_not_intro trivial)
      intro hdead
      have hopen := hs.isOpen (hs.waiting hdead.1)
      exact absurd (hclosed.symm.trans hopen) (by simp)
  | @receives i filename _ hi =>
      refine iff_of_false ?_ (not_not_intro trivial)
      rintro ⟨⟨j, _, hlock, hj⟩, _⟩
      have hlock' : s.lock = some i := (hs.inside i).mp ⟨_, hi, trivial⟩
      rcases getElem?_set_some hj with ⟨_, h⟩ | ⟨hne, _⟩
      · cases h
      · exact hne (Option.some.inj (hlock.symm.trans hlock'))
  | closes hlock _ htimely =>
      refine iff_of_false ?_ (not_not_intro htimely)
      rintro ⟨⟨j, _, hlock', _⟩, _⟩
      exact absurd (hlock.symm.trans hlock') (Option.some_ne_none j).symm
  | arrives file =>
      refine iff_of_false ?_ (not_not_intro trivial)
      rintro ⟨⟨i, filename, hlock, hi⟩, hreturning⟩
      have hi' := (getElem?_append_get (inside_waiting filename)).mp hi
      exact hno ⟨⟨i, filename, hlock, hi'⟩, hreturning⟩
  | handles hlock _ htimely =>
      refine iff_of_false ?_ (not_not_intro htimely)
      rintro ⟨⟨j, _, hlock', _⟩, _⟩
      exact absurd (hlock.symm.trans hlock') (Option.some_ne_none j).symm
  | @waits i filename _ htable hi =>
      have hwaited : State.Waited
          { s with lock := some i, handlers := s.handlers.set i (.waiting filename) } :=
        ⟨i, filename, rfl, getElem?_set_self_of_some hi⟩
      constructor
      · intro hdead htimely
        exact htimely htable hdead.2
      · intro huntimely
        refine ⟨hwaited, ?_⟩
        by_contra hreturning
        exact huntimely fun _ => hreturning
  | finishes _ =>
      refine iff_of_false ?_ (not_not_intro trivial)
      rintro ⟨⟨j, _, hlock, _⟩, _⟩
      cases hlock

/-- In a deadlock only further replies arrive, and it stays. -/
theorem deadlock_stays (hs : s.Locked) (hdead : s.Deadlock) (h : s.Steps retry a s') :
    s'.Deadlock ∧ ∃ file, a = .reply file := by
  obtain ⟨⟨i, filename, hlock, hi⟩, hreturning⟩ := hdead
  have hheld : s.lock ≠ none := by
    rw [hlock]
    exact Option.some_ne_none i
  cases h with
  | proceeds hbefore _ _ _ => exact absurd hreturning hbefore
  | creates hpc =>
      obtain ⟨outcome, houtcome⟩ := hreturning
      exact absurd (hpc.symm.trans houtcome) (by simp)
  | givesUp hbefore _ => exact absurd hreturning hbefore
  | seesClosed hbefore _ => exact absurd hreturning hbefore
  | receives hbefore _ => exact absurd hreturning hbefore
  | closes hfree _ _ => exact absurd hfree hheld
  | arrives file =>
      have hi' : (s.handlers ++ [.get file])[i]? = some (.waiting filename) :=
        (getElem?_append_get (inside_waiting filename)).mpr hi
      exact ⟨⟨⟨i, filename, hlock, hi'⟩, hreturning⟩, file, rfl⟩
  | handles hfree _ _ => exact absurd hfree hheld
  | waits hfree _ _ => exact absurd hfree hheld
  | @finishes j hj =>
      have hlock' : s.lock = some j := (hs.inside j).mp ⟨_, hj, trivial⟩
      obtain rfl : i = j := Option.some.inj (hlock.symm.trans hlock')
      exact absurd (hi.symm.trans hj) (by simp)

end Locked
end State

/-! ## Runs -/

section Runs

variable {requestID : String} {retry : ℕ} {C : State → Action → Prop} {s t : State}

theorem locked_of_reachable (h : (search requestID retry).ReachableUnder C s) : s.Locked :=
  h.invariant .new fun _ _ _ _ hs _ hstep => hs.step (State.next_steps hstep)

/-- A deadlock never ends. -/
theorem deadlock_forever (hs : (search requestID retry).ReachableUnder C s)
    (hdead : s.Deadlock) (h : (search requestID retry).LeadsTo C s t) : t.Deadlock := by
  induction h with
  | refl => exact hdead
  | tail hlead hstep ih =>
      obtain ⟨_, _, hnext⟩ := hstep
      have hlocked := locked_of_reachable (hs.leadsTo hlead)
      exact (hlocked.deadlock_stays ih (State.next_steps hnext)).1

/-- As long as all steps are timely there is no deadlock, and the first step
which is not leads into one. -/
theorem search_deadlocks_iff
    (h : (search requestID retry).ReachableUnder (State.Timely retry) s) :
    ¬s.Deadlock ∧
      ∀ a t, (search requestID retry).next s a = some t →
        (t.Deadlock ↔ ¬s.Timely retry a) := by
  have hno : ¬s.Deadlock := by
    apply h.invariant
    · rintro ⟨_, _, ⟨⟩⟩
    · intro s t a hs hno htimely hstep
      rw [(locked_of_reachable hs).deadlock_iff hno (State.next_steps hstep), not_not]
      exact htimely
  refine ⟨hno, ?_⟩
  intro a t hstep
  exact (locked_of_reachable h).deadlock_iff hno (State.next_steps hstep)

end Runs

/-- With one trial: the ticker fires after the handler of a reply has seen the
channel, and before it takes the lock. -/
theorem search_deadlocks : ∃ s, (search "id" 1).Reachable s ∧ s.Deadlock := by
  obtain ⟨s, hs, hlock, hwaiting, hpc⟩ := TransitionSystem.exists_of_replay
    (S := search "id" 1) (fun _ _ => True)
    [.createChannel, .getChannel, .sent none, .reply (some [0x66]), .check 0, .tick,
      .trigger 0]
    (fun s => s.lock = some 0 ∧ s.handlers[0]? = some (.waiting [0x66]) ∧
      s.pc = .returning .empty) (by decide)
  exact ⟨s, hs, ⟨0, [0x66], hlock, hwaiting⟩, .empty, hpc⟩

/-- The steps of a run in which a reply comes in time. -/
def State.inTime (s : State) : Action → Bool
  | .trigger _ => s.pc = .selecting 1
  | .tick | .sent (some _) => false
  | _ => true

theorem search_deadlocks_iff_of_reply :
    ∃ s, (search "id" 1).ReachableUnder (State.Timely 1) s ∧
      s.pc = .returned (.filename [0x66]) ∧ ¬s.Deadlock := by
  obtain ⟨s, hs, hpc⟩ := TransitionSystem.exists_of_replay
    (S := search "id" 1) (fun s a => s.inTime a = true)
    [.createChannel, .getChannel, .sent none, .reply (some [0x66]), .check 0, .trigger 0,
      .receive 0, .finish 0, .deleteChannel]
    (fun s => s.pc = .returned (.filename [0x66])) (by decide)
  have htimely : ∀ s a, State.inTime s a = true → s.Timely 1 a := by
    intro s a hin
    unfold State.inTime at hin
    split at hin
    · rintro _ ⟨outcome, houtcome⟩
      rw [of_decide_eq_true hin] at houtcome
      cases houtcome
    · cases hin
    · cases hin
    · next htrigger htick hsent =>
      unfold State.Timely
      split
      · exact absurd rfl (htrigger _)
      · exact absurd rfl htick
      · exact absurd rfl (hsent _)
      · trivial
  have hreach := hs.mono htimely
  exact ⟨s, hreach, hpc, (search_deadlocks_iff hreach).1⟩

end Minotor.DataSharing.SearchChannel
