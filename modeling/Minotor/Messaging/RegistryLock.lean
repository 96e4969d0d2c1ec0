import Minotor.Messaging.RegistryCalls
import Minotor.Support.Runs

/-!
# The lock of the registry

Which calls hold the lock, and when all of them give it back.  A call of
`ProcessPacket` which finds no handler keeps the read lock, and no other call does;
after that no call of `RegisterMessageCallback` returns any more.
-/

namespace Minotor.Messaging

variable {P M H : Type*}

namespace Calls

variable {st st' : Calls P M H}

/-! ## The lock and the calls -/

/-- The lock agrees with the calls which hold it. -/
def Sound (st : Calls P M H) : Prop := st.lock.Agrees Call.use st.calls

theorem Sound.step (h : st.Sound) {a : CallAction P M H} (hstep : st.Step a st') :
    st'.Sound := by
  unfold Sound at h ⊢
  cases hstep with
  | register => exact h.append rfl rfl
  | process => exact h.append rfl rfl
  | adds i m exec hi => exact h.keep hi rfl rfl Bool.noConfusion
  | announces i m exec lock hi hlock => exact h.announce hlock hi rfl rfl rfl
  | locks i m exec hi hzero => exact h.keep hi rfl rfl fun _ => hzero
  | unlocks i m exec hi => exact h.unlock hi rfl rfl rfl
  | getMessageFails i pkt caller res hi hres =>
      exact h.keep hi (Call.reads_returned hres) rfl Bool.noConfusion
  | getsMessage i pkt caller type msg hi => exact h.keep hi rfl rfl Bool.noConfusion
  | rLocks i pkt caller type msg lock hi hlock => exact h.rLock hlock hi rfl rfl rfl
  | findsHandler i pkt caller type msg hd hi _ => exact h.keep hi rfl rfl Bool.noConfusion
  | handlerNotFound i pkt caller type msg hi _ => exact h.keep hi rfl rfl Bool.noConfusion
  | rUnlocks i pkt caller type msg hd lock hi hlock => exact h.rUnlock hlock hi rfl rfl rfl rfl
  | handlerFails i pkt caller type msg hd res hi => exact h.keep hi rfl rfl Bool.noConfusion
  | handlerReturns i pkt caller type msg hd hi => exact h.keep hi rfl rfl Bool.noConfusion
  | notified i inTime pkt caller type msg hi =>
      exact h.keep hi (Call.reads_returned (ProcessResult.inTime_ne inTime)) rfl Bool.noConfusion
  | add => exact h

/-- No call has kept the read lock. -/
def LeakFree (st : Calls P M H) : Prop := ∀ c ∈ st.calls, c.leaks = false

/-- A call of `ProcessPacket` which looks up a handler finds one. -/
def FindsHandler (st : Calls P M H) : CallAction P M H → Prop
  | .step i => ∀ pkt caller type msg,
      st.calls[i]? = some (.process pkt caller (.lookup type msg)) → st.handlers type ≠ none
  | _ => True

/-- All calls of `ProcessPacket` have returned. -/
def Processed (st : Calls P M H) : Prop := ∀ c ∈ st.calls, c.processed = true

theorem leakFree_append {c : Call P M H} (hc : c.leaks = false) :
    (∀ d ∈ st.calls ++ [c], d.leaks = false) ↔ st.LeakFree := by
  rw [List.forall_mem_append, List.forall_mem_singleton]
  exact and_iff_left hc

/-- A call goes on which has not kept the lock. -/
theorem leakFree_set {i : ℕ} {c c' : Call P M H} (hi : st.calls[i]? = some c)
    (hc : c.leaks = false) :
    (∀ d ∈ st.calls.set i c', d.leaks = false) ↔ st.LeakFree ∧ c'.leaks = false := by
  obtain ⟨hlt, rfl⟩ := List.getElem?_eq_some_iff.mp hi
  constructor
  · intro h
    refine ⟨fun d hd => ?_, h c' (List.mem_set hlt c')⟩
    obtain ⟨j, hj, rfl⟩ := List.getElem_of_mem hd
    by_cases hji : i = j
    · subst hji
      exact hc
    · apply h
      rw [← List.getElem_set_ne hji (by simpa using hj)]
      exact List.getElem_mem _
  · rintro ⟨h, hc'⟩ d hd
    rcases List.mem_or_eq_of_mem_set hd with hd | rfl
    · exact h d hd
    · exact hc'

theorem leakFree_goes_on {a : CallAction P M H} {i : ℕ} {c c' : Call P M H}
    (hi : st.calls[i]? = some c) (hc : c.leaks = false) (hc' : c'.leaks = false)
    (hfinds : st.FindsHandler a) :
    (∀ d ∈ st.calls.set i c', d.leaks = false) ↔ st.LeakFree ∧ st.FindsHandler a := by
  rw [leakFree_set hi hc]
  exact and_congr_right fun _ => iff_of_true hc' hfinds

theorem findsHandler_step {i : ℕ} {c : Call P M H} (hi : st.calls[i]? = some c)
    (hc : ∀ pkt caller type msg, c ≠ .process pkt caller (.lookup type msg)) :
    st.FindsHandler (.step i) :=
  fun pkt caller type msg hlookup =>
    absurd (Option.some.inj (hi.symm.trans hlookup)) (hc pkt caller type msg)

theorem leakFree_passes {i : ℕ} {c c' : Call P M H} (hi : st.calls[i]? = some c)
    (hc : c.leaks = false) (hc' : c'.leaks = false)
    (hlookup : ∀ pkt caller type msg, c ≠ .process pkt caller (.lookup type msg)) :
    (∀ d ∈ st.calls.set i c', d.leaks = false) ↔ st.LeakFree ∧ st.FindsHandler (.step i) :=
  leakFree_goes_on hi hc hc' (findsHandler_step hi hlookup)

/-- In a step a call keeps the lock exactly if it finds no handler. -/
theorem leakFree_step {a : CallAction P M H} (hstep : st.Step a st') :
    st'.LeakFree ↔ st.LeakFree ∧ st.FindsHandler a := by
  cases hstep with
  | register => exact (leakFree_append rfl).trans (and_iff_left trivial).symm
  | process => exact (leakFree_append rfl).trans (and_iff_left trivial).symm
  | adds i m exec hi => exact leakFree_passes hi rfl rfl (by simp)
  | announces i m exec lock hi => exact leakFree_passes hi rfl rfl (by simp)
  | locks i m exec hi => exact leakFree_passes hi rfl rfl (by simp)
  | unlocks i m exec hi => exact leakFree_passes hi rfl rfl (by simp)
  | getMessageFails i pkt caller res hi hres =>
      exact leakFree_passes hi rfl (Call.leaks_returned hres) (by simp)
  | getsMessage i pkt caller type msg hi => exact leakFree_passes hi rfl rfl (by simp)
  | rLocks i pkt caller type msg lock hi => exact leakFree_passes hi rfl rfl (by simp)
  | findsHandler i pkt caller type msg h hi hh =>
      apply leakFree_goes_on hi rfl rfl
      intro pkt' caller' type' msg' hlookup
      obtain ⟨-, -, rfl, -⟩ : pkt = pkt' ∧ caller = caller' ∧ type = type' ∧ msg = msg' := by
        simpa [hi] using hlookup
      rw [hh]
      exact Option.some_ne_none h
  | handlerNotFound i pkt caller type msg hi hnone =>
      apply iff_of_false
      · intro h
        exact Bool.noConfusion (((leakFree_set hi rfl).mp h).2)
      · intro h
        exact h.2 pkt caller type msg hi hnone
  | rUnlocks i pkt caller type msg h lock hi => exact leakFree_passes hi rfl rfl (by simp)
  | handlerFails i pkt caller type msg h res hi => exact leakFree_goes_on hi rfl rfl trivial
  | handlerReturns i pkt caller type msg h hi => exact leakFree_goes_on hi rfl rfl trivial
  | notified i inTime pkt caller type msg hi =>
      exact leakFree_goes_on hi rfl (Call.leaks_returned (ProcessResult.inTime_ne inTime)) trivial
  | add => exact (and_iff_left trivial).symm

/-- In a whole run no call keeps the lock exactly if every lookup finds a handler. -/
theorem leakFree_replay {g : GlobalRegistry M} {acts : List (CallAction P M H)}
    (hrun : (registry g).replay (fun _ _ => True) acts st = some st') :
    st'.LeakFree ↔ st.LeakFree ∧ (registry g).Along FindsHandler st acts := by
  induction acts generalizing st with
  | nil =>
      obtain rfl := Option.some.inj hrun
      exact (and_iff_left trivial).symm
  | cons a acts ih =>
      rw [TransitionSystem.replay, if_pos trivial, Option.bind_eq_some_iff] at hrun
      obtain ⟨u, hnext, hrest⟩ := hrun
      rw [ih hrest, leakFree_step (step_of_next hnext), and_assoc]
      apply and_congr_right
      intro _
      constructor
      · rintro ⟨hfinds, halong⟩ t ht
        obtain rfl := Option.some.inj (hnext.symm.trans ht)
        exact ⟨hfinds, halong⟩
      · intro halong
        exact halong u hnext

/-- Once all calls of `ProcessPacket` have returned, the readers are the calls which have
kept the lock. -/
theorem Sound.readers_eq_zero_iff (h : st.Sound) (hprocessed : st.Processed) :
    st.lock.readers = 0 ↔ st.LeakFree := by
  rw [h.readers, List.countP_eq_zero]
  apply forall₂_congr
  intro c hc
  have hreads : Call.use.reads c = c.leaks := Call.reads_of_processed (hprocessed c hc)
  rw [hreads, Bool.not_eq_true]

/-! ## Later registrations -/

/-- The calls go on, and no new ones are made. -/
def GoesOn (g : GlobalRegistry M) : Calls P M H → Calls P M H → Prop :=
  (registry g).LeadsTo fun _ a => ∃ i, a = .step i

/-- Call `k` of `RegisterMessageCallback` has returned. -/
def Registered (st : Calls P M H) (k : ℕ) (m : MessageType M) (exec : H) : Prop :=
  st.calls[k]? = some (.register m exec .returned)

/-- A call of `RegisterMessageCallback` which is made now can go on until it returns. -/
def Registers (g : GlobalRegistry M) (st : Calls P M H) : Prop :=
  ∀ m exec, ∃ t, GoesOn g { st with calls := st.calls ++ [.register m exec .add] } t ∧
    t.Registered st.calls.length m exec ∧
    t.handlers m.name = some exec

theorem GoesOn.tail {g : GlobalRegistry M} {s t : Calls P M H} (h : GoesOn g st s) (i : ℕ)
    (hnext : s.next (.step i) = some t) : GoesOn g st t :=
  Relation.ReflTransGen.tail h ⟨.step i, ⟨i, rfl⟩, hnext⟩

theorem next_register {i : ℕ} {m : MessageType M} {exec : H} {pc : RegisterPc}
    (hi : st.calls[i]? = some (.register m exec pc)) :
    st.next (.step i) = st.registerStep i m exec pc := by
  rw [next, hi]

/-- A call which holds the lock for writing releases it and returns. -/
theorem returns_of_locked (g : GlobalRegistry M) {k : ℕ} {m : MessageType M} {exec : H}
    (hk : st.calls[k]? = some (.register m exec .locked)) (hzero : st.lock.readers = 0) :
    ∃ t, GoesOn g st t ∧ t.lock = ⟨0, none⟩ ∧
      t.calls = st.calls.set k (.register m exec .returned) ∧
      t.handlers m.name = some exec := by
  refine ⟨_, GoesOn.tail .refl k (next_register hk), ?_, rfl, Function.update_self ..⟩
  rw [RWMutex.unlock, hzero]

/-- So does a call which has begun to lock if there are no readers. -/
theorem returns_of_pending (g : GlobalRegistry M) {k : ℕ} {m : MessageType M} {exec : H}
    (hk : st.calls[k]? = some (.register m exec .pending)) (hzero : st.lock.readers = 0) :
    ∃ t, GoesOn g st t ∧ t.lock = ⟨0, none⟩ ∧
      t.calls = st.calls.set k (.register m exec .returned) ∧
      t.handlers m.name = some exec := by
  have hlt : k < st.calls.length := (List.getElem?_eq_some_iff.mp hk).1
  let s : Calls P M H := { st with calls := st.calls.set k (.register m exec .locked) }
  have hnext : st.next (.step k) = some s := by
    rw [next_register hk, registerStep, if_pos hzero]
  have hs : s.calls[k]? = some (.register m exec .locked) := List.getElem?_set_self hlt
  obtain ⟨t, hgoes, hfree, hcalls, hhandlers⟩ := returns_of_locked g hs hzero
  refine ⟨t, (GoesOn.tail .refl k hnext).trans hgoes, hfree, ?_, hhandlers⟩
  rw [hcalls, List.set_set]

/-- With the lock free a call of `RegisterMessageCallback` returns. -/
theorem returns_of_add (g : GlobalRegistry M) {k : ℕ} {m : MessageType M} {exec : H}
    (hk : st.calls[k]? = some (.register m exec .add)) (hfree : st.lock = ⟨0, none⟩) :
    ∃ t, GoesOn g st t ∧ t.calls = st.calls.set k (.register m exec .returned) ∧
      t.handlers m.name = some exec := by
  have hlt : k < st.calls.length := (List.getElem?_eq_some_iff.mp hk).1
  let s : Calls P M H :=
    { st with
      globalRegistry := st.globalRegistry.add m
      calls := st.calls.set k (.register m exec .lock) }
  have hs : s.calls[k]? = some (.register m exec .lock) := List.getElem?_set_self hlt
  let u : Calls P M H :=
    { s with lock := ⟨0, some k⟩, calls := s.calls.set k (.register m exec .pending) }
  have hu : u.calls[k]? = some (.register m exec .pending) := by
    apply List.getElem?_set_self
    rw [List.length_set]
    exact hlt
  have hannounce : s.next (.step k) = some u := by
    rw [next_register hs, registerStep]
    change (st.lock.announce k).map _ = _
    rw [hfree]
    rfl
  obtain ⟨t, hgoes, -, hcalls, hhandlers⟩ := returns_of_pending g hu rfl
  have hstart : GoesOn g st u := GoesOn.tail (GoesOn.tail .refl k (next_register hk)) k hannounce
  refine ⟨t, hstart.trans hgoes, ?_, hhandlers⟩
  rw [hcalls, List.set_set, List.set_set]

/-- A call which has begun to lock leaves if there are no readers. -/
theorem Sound.writer_leaves (h : st.Sound) (g : GlobalRegistry M) (hzero : st.lock.readers = 0) :
    ∃ t : Calls P M H, GoesOn g st t ∧ t.lock = ⟨0, none⟩ ∧
      ∀ (k : ℕ) (c : Call P M H), st.calls[k]? = some c → c.writes = false →
        t.calls[k]? = some c := by
  cases hwriter : st.lock.writer with
  | none =>
      refine ⟨st, .refl, ?_, fun k c hc _ => hc⟩
      rw [← hzero, ← hwriter]
  | some j =>
      obtain ⟨c, hc, hwrites⟩ := (h.writer j).mp hwriter
      obtain ⟨m, exec, t, hgoes, hfree, hcalls⟩ : ∃ m exec, ∃ t : Calls P M H,
          GoesOn g st t ∧ t.lock = ⟨0, none⟩ ∧
            t.calls = st.calls.set j (.register m exec .returned) := by
        change c.writes = true at hwrites
        unfold Call.writes at hwrites
        split at hwrites
        · next m exec =>
            obtain ⟨t, hgoes, hfree, hcalls, -⟩ := returns_of_pending g hc hzero
            exact ⟨m, exec, t, hgoes, hfree, hcalls⟩
        · next m exec =>
            obtain ⟨t, hgoes, hfree, hcalls, -⟩ := returns_of_locked g hc hzero
            exact ⟨m, exec, t, hgoes, hfree, hcalls⟩
        · cases hwrites
      refine ⟨t, hgoes, hfree, ?_⟩
      intro k d hd hnot
      have hne : j ≠ k := by
        rintro rfl
        obtain rfl := Option.some.inj (hc.symm.trans hd)
        exact Bool.noConfusion (hwrites.symm.trans hnot)
      rw [hcalls, List.getElem?_set_ne hne]
      exact hd

/-- Without readers a call of `RegisterMessageCallback` returns. -/
theorem Sound.registers (h : st.Sound) (g : GlobalRegistry M) (hzero : st.lock.readers = 0) :
    Registers g st := by
  intro m exec
  have hlast : (st.calls ++ [.register m exec .add])[st.calls.length]? =
      some (.register m exec .add) := List.getElem?_concat_length
  have hstart : Sound { st with calls := st.calls ++ [.register m exec .add] } :=
    h.append rfl rfl
  obtain ⟨s, hgoes, hfree, hkeeps⟩ := hstart.writer_leaves g hzero
  have hs := hkeeps _ _ hlast rfl
  obtain ⟨t, hgoes', hcalls, hhandlers⟩ := returns_of_add g hs hfree
  refine ⟨t, hgoes.trans hgoes', ?_, hhandlers⟩
  rw [Registered, hcalls]
  exact List.getElem?_set_self (List.getElem?_eq_some_iff.mp hs).1

/-! ## After a lock has been kept -/

theorem Sound.readers_pos (h : st.Sound) (hleak : ¬st.LeakFree) : 0 < st.lock.readers := by
  unfold LeakFree at hleak
  push Not at hleak
  obtain ⟨c, hc, hleaks⟩ := hleak
  rw [h.readers, List.countP_pos_iff]
  refine ⟨c, hc, ?_⟩
  change c.reads = true
  unfold Call.leaks at hleaks
  split at hleaks
  · rfl
  · exact absurd rfl hleaks

theorem getElem?_of_set {i k : ℕ} {c d : Call P M H} {calls : List (Call P M H)}
    (h : (calls.set i c)[k]? = some d) (hne : c ≠ d) : calls[k]? = some d := by
  by_cases hik : i = k
  · subst hik
    obtain ⟨hlt, heq⟩ := List.getElem?_eq_some_iff.mp h
    rw [List.getElem_set_self] at heq
    exact absurd heq hne
  · rwa [List.getElem?_set_ne hik] at h

theorem getElem?_of_append {k : ℕ} {c d : Call P M H} {calls : List (Call P M H)}
    (h : (calls ++ [c])[k]? = some d) (hne : c ≠ d) : calls[k]? = some d := by
  rw [List.getElem?_append] at h
  split at h
  · exact h
  · exact absurd (List.mem_singleton.mp (List.mem_of_getElem? h)).symm hne

theorem Sound.blocked_step (h : st.Sound) (hleak : ¬st.LeakFree) {a : CallAction P M H}
    (hstep : st.Step a st') : st'.handlers = st.handlers ∧
      ∀ k m exec, st'.Registered k m exec → st.Registered k m exec := by
  cases hstep with
  | register => exact ⟨rfl, fun k m exec hk => getElem?_of_append hk (by simp)⟩
  | process => exact ⟨rfl, fun k m exec hk => getElem?_of_append hk (by simp)⟩
  | unlocks i m exec hi =>
      have hzero := h.excluded _ (List.mem_of_getElem? hi) rfl
      exact absurd hzero (h.readers_pos hleak).ne'
  | add => exact ⟨rfl, fun k m exec hk => hk⟩
  | _ => exact ⟨rfl, fun k m exec hk => getElem?_of_set hk (by simp)⟩

end Calls

section

variable {g : GlobalRegistry M} {st st' : Calls P M H}

theorem sound_of_reachable (h : (registry g).Reachable st) : st.Sound := by
  apply h.invariant
  · exact RWMutex.agrees_new Call.use
  · exact fun s s' a _ hs _ hnext => hs.step (Calls.step_of_next hnext)

/-- After a call of `ProcessPacket` has kept the read lock, no registration takes effect
and no call of `RegisterMessageCallback` returns any more. -/
theorem registration_blocked (h : (registry g).Reachable st) (hleak : ¬st.LeakFree)
    (hlead : (registry g).LeadsTo (fun _ _ => True) st st') :
    ¬st'.LeakFree ∧ st'.handlers = st.handlers ∧
      ∀ k m exec, st'.Registered k m exec → st.Registered k m exec := by
  induction hlead with
  | refl => exact ⟨hleak, rfl, fun k m exec hk => hk⟩
  | tail hlead hstep ih =>
      obtain ⟨a, -, hnext⟩ := hstep
      obtain ⟨hkept, hhandlers, hreturned⟩ := ih
      have hsound := sound_of_reachable (h.leadsTo hlead)
      have hstep := Calls.step_of_next hnext
      obtain ⟨hhandlers', hreturned'⟩ := hsound.blocked_step hkept hstep
      refine ⟨fun hfree => hkept ((Calls.leakFree_step hstep).mp hfree).1,
        hhandlers'.trans hhandlers, ?_⟩
      exact fun k m exec hk => hreturned k m exec (hreturned' k m exec hk)

theorem not_registers (h : (registry g).Reachable st) (hleak : ¬st.LeakFree)
    (m : MessageType M) (exec : H) : ¬st.Registers g := by
  intro hregisters
  obtain ⟨t, hgoes, hreturned, -⟩ := hregisters m exec
  have hlead : (registry g).LeadsTo (fun _ _ => True) st t := by
    apply Relation.ReflTransGen.head (b := { st with calls := st.calls ++ [.register m exec .add] })
    · exact ⟨.register m exec, trivial, rfl⟩
    · refine Relation.ReflTransGen.mono ?_ _ _ hgoes
      rintro s u ⟨a, -, hnext⟩
      exact ⟨a, trivial, hnext⟩
  have hold := (registration_blocked h hleak hlead).2.2 _ m exec hreturned
  rw [Calls.Registered, List.getElem?_eq_none le_rfl] at hold
  cases hold

/-- Once all calls of `ProcessPacket` of a run have returned, there are no readers and a
later call of `RegisterMessageCallback` returns, exactly if every lookup of a handler in the
run has found one. -/
theorem lock_released_iff {acts : List (CallAction P M H)}
    (hrun : (registry g).replay (fun _ _ => True) acts (.new g) = some st)
    (hprocessed : st.Processed) :
    st.lock.readers = 0 ∧ st.Registers g ↔
      (registry g).Along Calls.FindsHandler (.new g) acts := by
  have hreachable : (registry g).Reachable st :=
    TransitionSystem.ReachableUnder.init.leadsTo (TransitionSystem.leadsTo_of_replay hrun)
  have hsound := sound_of_reachable hreachable
  have hfree : (Calls.new g : Calls P M H).LeakFree := fun c hc => absurd hc List.not_mem_nil
  calc
    st.lock.readers = 0 ∧ st.Registers g ↔ st.lock.readers = 0 :=
      and_iff_left_of_imp (hsound.registers g)
    _ ↔ st.LeakFree := hsound.readers_eq_zero_iff hprocessed
    _ ↔ (registry g).Along Calls.FindsHandler (.new g) acts := by
      rw [Calls.leakFree_replay hrun]
      exact and_iff_right hfree

end

instance (st : Calls P M H) : Decidable st.Processed :=
  inferInstanceAs (Decidable (∀ c ∈ st.calls, c.processed = true))

instance (st : Calls P M H) : Decidable st.LeakFree :=
  inferInstanceAs (Decidable (∀ c ∈ st.calls, c.leaks = false))

/-- The global registry knows chat messages. -/
def chatRegistry : GlobalRegistry Unit where
  messages type := if type = "chat" then some fun _ => .ok () else none

/-- A chat message from 1 to 0. -/
def chatPacket : PacketPtr ℕ := ⟨⟨1, 1, 1, 0⟩, some ⟨"chat", []⟩⟩

/-- The handler of a chat message calls `ProcessPacket` for an embedded message of an unknown
type. -/
theorem lock_released_of_chat :
    ∃ st : Calls ℕ Unit Unit, (registry chatRegistry).Reachable st ∧ st.calls.length = 3 ∧
      st.lock.readers = 0 ∧ st.Registers chatRegistry := by
  have hrun : ∃ st ∈ (registry chatRegistry).replay (fun _ _ => True)
      [.register ⟨"chat", fun _ => .ok ()⟩ (), .step 0, .step 0, .step 0, .step 0,
        .process chatPacket none, .step 1, .step 1, .step 1, .step 1,
        .process ⟨chatPacket.header, some ⟨"file", []⟩⟩ (some 1), .step 2,
        .handlerReturns 1 none, .notified 1 true]
      (.new chatRegistry : Calls ℕ Unit Unit),
      st.Processed ∧ st.LeakFree ∧ st.calls.length = 3 := by
    decide +kernel
  obtain ⟨st, hst, hprocessed, hfree, hlength⟩ := hrun
  have halong := ((Calls.leakFree_replay hst).mp hfree).2
  exact ⟨st, TransitionSystem.ReachableUnder.init.leadsTo (TransitionSystem.leadsTo_of_replay hst),
    hlength, (lock_released_iff hst hprocessed).mpr halong⟩

/-- A chat message is processed before a handler is registered for it. -/
theorem lock_kept :
    ∃ st : Calls ℕ Unit Unit, (registry chatRegistry).Reachable st ∧ st.calls.length = 1 ∧
      st.Processed ∧ st.lock.readers = 1 ∧ ¬st.Registers chatRegistry := by
  obtain ⟨st, hst, hlength, hprocessed, hreaders, hleak⟩ := TransitionSystem.exists_of_replay
    (S := (registry chatRegistry : TransitionSystem (Calls ℕ Unit Unit) _)) (fun _ _ => True)
    [.process chatPacket none, .step 0, .step 0, .step 0]
    (fun st => st.calls.length = 1 ∧ st.Processed ∧ st.lock.readers = 1 ∧ ¬st.LeakFree)
    (by decide +kernel)
  exact ⟨st, hst, hlength, hprocessed, hreaders,
    not_registers hst hleak ⟨"chat", fun _ => .ok ()⟩ ()⟩

end Minotor.Messaging
