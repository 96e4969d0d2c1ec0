import Minotor.Messaging.Listening
import Minotor.Support.RWMutex
import Minotor.Support.TransitionSystem
import Mathlib.Logic.Function.Basic

/-!
# Calls on the registry

Calls of `RegisterMessageCallback` and `ProcessPacket` on one registry, from
`registry/standard`, step by step with the lock of the registry.  Calls run side by
side, and a handler calls `ProcessPacket` again for embedded messages.  A call alone
ends as the function `processPacket` does.

What a handler does is outside the model: it fails, panics or returns at any moment
after the calls which it has made.  The global registry is under a lock of its own,
which `Add` and `GetMessage` release when they return; another node may add types to
it at any moment.
-/

namespace Minotor.Messaging

variable {P M H : Type*}

/-- `transport.Packet`; `msg` is `none` for a nil pointer. -/
structure PacketPtr (P : Type*) where
  header : Header P
  msg : Option TransportMessage
deriving DecidableEq

/-- A value of `types.Message`: its name, and how a payload is read into it. -/
structure MessageType (M : Type*) where
  name : String
  unmarshal : List UInt8 → Except String M

/-- `Add` of the global registry. -/
def GlobalRegistry.add (r : GlobalRegistry M) (m : MessageType M) : GlobalRegistry M where
  messages := Function.update r.messages m.name (some m.unmarshal)

/-- Where a call of `RegisterMessageCallback` is. -/
inductive RegisterPc where
  | add
  | lock
  /-- in `Lock`, with new readers kept out -/
  | pending
  | locked
  | returned
deriving DecidableEq, Repr

/-- How a call of `ProcessPacket` ends. -/
inductive ProcessResult where
  /-- a nil pointer for the message -/
  | panicked
  | messageFailed (err : String)
  | handlerNotFound
  | handlerFailed (res : String)
  | tooLong
  | ok
deriving DecidableEq, Repr

/-- The error which is returned for a packet of a type. -/
def ProcessResult.err (type : String) : ProcessResult → Option String
  | .panicked => none
  | .messageFailed err => some s!"failed to get message: {err}"
  | .handlerNotFound => some s!"handler not found for {type}"
  | .handlerFailed res => some s!"failed to call handler: {res}"
  | .tooLong => some "notification handlers took too long"
  | .ok => none

/-- Where a call of `ProcessPacket` is, with the message and the handler `h`. -/
inductive ProcessPc (M H : Type*) where
  | getMessage
  | rLock (type : String) (msg : M)
  /-- the read lock is held -/
  | lookup (type : String) (msg : M)
  /-- the read lock is held, and the handler found -/
  | rUnlock (type : String) (msg : M) (h : H)
  /-- the handler runs -/
  | handling (type : String) (msg : M) (h : H)
  /-- the notification handlers run -/
  | notifying (type : String) (msg : M)
  | returned (res : ProcessResult)

/-- A call on the registry.  `caller` is the call whose handler has made it. -/
inductive Call (P M H : Type*) where
  | register (m : MessageType M) (exec : H) (pc : RegisterPc)
  | process (pkt : PacketPtr P) (caller : Option ℕ) (pc : ProcessPc M H)

/-- A registry with the calls on it. -/
structure Calls (P M H : Type*) where
  lock : RWMutex
  globalRegistry : GlobalRegistry M
  handlers : String → Option H
  calls : List (Call P M H)

inductive CallAction (P M H : Type*) where
  | register (m : MessageType M) (exec : H)
  | process (pkt : PacketPtr P) (caller : Option ℕ)
  /-- the next statement of a call -/
  | step (i : ℕ)
  /-- the goroutine of the handler ends with an error or a panic, or without -/
  | handlerReturns (i : ℕ) (res : Option String)
  /-- the notification handlers are done in time or not -/
  | notified (i : ℕ) (inTime : Bool)
  /-- another registry adds a type to the global one -/
  | add (m : MessageType M)

namespace Call

/-- A call of `ProcessPacket` has returned; others do not count. -/
def processed : Call P M H → Bool
  | .register .. => true
  | .process _ _ (.returned _) => true
  | .process .. => false

/-- The call has returned. -/
def done : Call P M H → Bool
  | .register _ _ .returned => true
  | .process _ _ (.returned _) => true
  | _ => false

def isHandling : Call P M H → Bool
  | .process _ _ (.handling ..) => true
  | _ => false

/-- The handler of call `i` has made the call. -/
def calledBy (i : ℕ) : Call P M H → Bool
  | .process _ caller _ => caller = some i
  | .register .. => false

/-- The call has left the section of the read lock without `RUnlock`. -/
def leaks : Call P M H → Bool
  | .process _ _ (.returned .handlerNotFound) => true
  | _ => false

/-- The call holds the lock of the registry for reading. -/
def reads : Call P M H → Bool
  | .process _ _ (.lookup ..) => true
  | .process _ _ (.rUnlock ..) => true
  | c => c.leaks

/-- The call is in `Lock` or holds the lock for writing. -/
def writes : Call P M H → Bool
  | .register _ _ .pending => true
  | .register _ _ .locked => true
  | _ => false

def holds : Call P M H → Bool
  | .register _ _ .locked => true
  | _ => false

/-- The use of the lock. -/
def use : RWMutex.Use (Call P M H) where
  reads := reads
  writes := writes
  holds := holds
  writes_of_holds c hc := by
    unfold holds at hc
    split at hc
    · rfl
    · cases hc

end Call

namespace Calls

/-- `NewRegistry`. -/
def new (g : GlobalRegistry M) : Calls P M H := ⟨.new, g, fun _ => none, []⟩

/-- The next statement of `RegisterMessageCallback`. -/
def registerStep (st : Calls P M H) (i : ℕ) (m : MessageType M) (exec : H) :
    RegisterPc → Option (Calls P M H)
  | .add =>
      some { st with
        globalRegistry := st.globalRegistry.add m
        calls := st.calls.set i (.register m exec .lock) }
  | .lock =>
      (st.lock.announce i).map fun lock =>
        { st with lock := lock, calls := st.calls.set i (.register m exec .pending) }
  | .pending =>
      if st.lock.readers = 0 then
        some { st with calls := st.calls.set i (.register m exec .locked) }
      else none
  | .locked =>
      some { st with
        lock := st.lock.unlock
        handlers := Function.update st.handlers m.name (some exec)
        calls := st.calls.set i (.register m exec .returned) }
  | .returned => none

/-- The next statement of `ProcessPacket`. -/
def processStep (st : Calls P M H) (i : ℕ) (pkt : PacketPtr P) (caller : Option ℕ) :
    ProcessPc M H → Option (Calls P M H)
  | .getMessage =>
      match pkt.msg with
      | none => some { st with calls := st.calls.set i (.process pkt caller (.returned .panicked)) }
      | some transpMsg =>
          match st.globalRegistry.getMessage transpMsg with
          | .error err =>
              some { st with
                calls := st.calls.set i (.process pkt caller (.returned (.messageFailed err))) }
          | .ok msg =>
              some { st with
                calls := st.calls.set i (.process pkt caller (.rLock transpMsg.type msg)) }
  | .rLock type msg =>
      st.lock.rLock.map fun lock =>
        { st with lock := lock, calls := st.calls.set i (.process pkt caller (.lookup type msg)) }
  | .lookup type msg =>
      match st.handlers type with
      -- the return is before the `RUnlock`
      | none =>
          some { st with
            calls := st.calls.set i (.process pkt caller (.returned .handlerNotFound)) }
      | some h =>
          some { st with calls := st.calls.set i (.process pkt caller (.rUnlock type msg h)) }
  | .rUnlock type msg h =>
      st.lock.rUnlock.map fun lock =>
        { st with
          lock := lock
          calls := st.calls.set i (.process pkt caller (.handling type msg h)) }
  | _ => none

def next (st : Calls P M H) : CallAction P M H → Option (Calls P M H)
  | .register m exec => some { st with calls := st.calls ++ [.register m exec .add] }
  | .process pkt caller =>
      -- a nested call comes from a handler which runs
      if ∀ i ∈ caller, ∃ c ∈ st.calls[i]?, c.isHandling = true then
        some { st with calls := st.calls ++ [.process pkt caller .getMessage] }
      else none
  | .step i =>
      match st.calls[i]? with
      | some (.register m exec pc) => st.registerStep i m exec pc
      | some (.process pkt caller pc) => st.processStep i pkt caller pc
      | none => none
  | .handlerReturns i res =>
      match st.calls[i]? with
      | some (.process pkt caller (.handling type msg _)) =>
          if ∀ c ∈ st.calls, c.calledBy i = true → c.done = true then
            some { st with
              calls := st.calls.set i (.process pkt caller
                (match res with
                | some res => .returned (.handlerFailed res)
                | none => .notifying type msg)) }
          else none
      | _ => none
  | .notified i inTime =>
      match st.calls[i]? with
      | some (.process pkt caller (.notifying _ _)) =>
          some { st with
            calls := st.calls.set i (.process pkt caller
              (.returned (if inTime then .ok else .tooLong))) }
      | _ => none
  | .add m => some { st with globalRegistry := st.globalRegistry.add m }

end Calls

/-- The transition system of a registry. -/
def registry (g : GlobalRegistry M) : TransitionSystem (Calls P M H) (CallAction P M H) where
  init := .new g
  next := Calls.next

theorem ProcessResult.inTime_ne (inTime : Bool) :
    (if inTime then .ok else .tooLong : ProcessResult) ≠ .handlerNotFound := by
  cases inTime with
  | true => exact ProcessResult.noConfusion
  | false => exact ProcessResult.noConfusion

theorem Call.leaks_returned {pkt : PacketPtr P} {caller : Option ℕ} {res : ProcessResult}
    (hres : res ≠ .handlerNotFound) :
    (Call.process pkt caller (.returned res) : Call P M H).leaks = false := by
  cases res with
  | handlerNotFound => exact absurd rfl hres
  | _ => rfl

theorem Call.reads_returned {pkt : PacketPtr P} {caller : Option ℕ} {res : ProcessResult}
    (hres : res ≠ .handlerNotFound) :
    (Call.process pkt caller (.returned res) : Call P M H).reads = false :=
  Call.leaks_returned hres

/-- A call of `ProcessPacket` which has returned holds the lock if it has kept it. -/
theorem Call.reads_of_processed {c : Call P M H} (hc : c.processed = true) :
    c.reads = c.leaks := by
  unfold processed at hc
  split at hc
  · rfl
  · rfl
  · cases hc

namespace Calls

/-- What the calls do. -/
inductive Step (st : Calls P M H) : CallAction P M H → Calls P M H → Prop where
  | register (m : MessageType M) (exec : H) :
      Step st (.register m exec) { st with calls := st.calls ++ [.register m exec .add] }
  | process (pkt : PacketPtr P) (caller : Option ℕ) :
      Step st (.process pkt caller)
        { st with calls := st.calls ++ [.process pkt caller .getMessage] }
  | adds (i : ℕ) (m : MessageType M) (exec : H)
      (hi : st.calls[i]? = some (.register m exec .add)) :
      Step st (.step i)
        { st with
          globalRegistry := st.globalRegistry.add m
          calls := st.calls.set i (.register m exec .lock) }
  | announces (i : ℕ) (m : MessageType M) (exec : H) (lock : RWMutex)
      (hi : st.calls[i]? = some (.register m exec .lock))
      (hlock : st.lock.announce i = some lock) :
      Step st (.step i)
        { st with lock := lock, calls := st.calls.set i (.register m exec .pending) }
  | locks (i : ℕ) (m : MessageType M) (exec : H)
      (hi : st.calls[i]? = some (.register m exec .pending)) (hzero : st.lock.readers = 0) :
      Step st (.step i) { st with calls := st.calls.set i (.register m exec .locked) }
  | unlocks (i : ℕ) (m : MessageType M) (exec : H)
      (hi : st.calls[i]? = some (.register m exec .locked)) :
      Step st (.step i)
        { st with
          lock := st.lock.unlock
          handlers := Function.update st.handlers m.name (some exec)
          calls := st.calls.set i (.register m exec .returned) }
  | getMessageFails (i : ℕ) (pkt : PacketPtr P) (caller : Option ℕ) (res : ProcessResult)
      (hi : st.calls[i]? = some (.process pkt caller .getMessage))
      (hres : res ≠ .handlerNotFound) :
      Step st (.step i) { st with calls := st.calls.set i (.process pkt caller (.returned res)) }
  | getsMessage (i : ℕ) (pkt : PacketPtr P) (caller : Option ℕ) (type : String) (msg : M)
      (hi : st.calls[i]? = some (.process pkt caller .getMessage)) :
      Step st (.step i)
        { st with calls := st.calls.set i (.process pkt caller (.rLock type msg)) }
  | rLocks (i : ℕ) (pkt : PacketPtr P) (caller : Option ℕ) (type : String) (msg : M)
      (lock : RWMutex) (hi : st.calls[i]? = some (.process pkt caller (.rLock type msg)))
      (hlock : st.lock.rLock = some lock) :
      Step st (.step i)
        { st with
          lock := lock
          calls := st.calls.set i (.process pkt caller (.lookup type msg)) }
  | findsHandler (i : ℕ) (pkt : PacketPtr P) (caller : Option ℕ) (type : String) (msg : M)
      (h : H) (hi : st.calls[i]? = some (.process pkt caller (.lookup type msg)))
      (hh : st.handlers type = some h) :
      Step st (.step i)
        { st with calls := st.calls.set i (.process pkt caller (.rUnlock type msg h)) }
  | handlerNotFound (i : ℕ) (pkt : PacketPtr P) (caller : Option ℕ) (type : String) (msg : M)
      (hi : st.calls[i]? = some (.process pkt caller (.lookup type msg)))
      (hnone : st.handlers type = none) :
      Step st (.step i)
        { st with calls := st.calls.set i (.process pkt caller (.returned .handlerNotFound)) }
  | rUnlocks (i : ℕ) (pkt : PacketPtr P) (caller : Option ℕ) (type : String) (msg : M) (h : H)
      (lock : RWMutex) (hi : st.calls[i]? = some (.process pkt caller (.rUnlock type msg h)))
      (hlock : st.lock.rUnlock = some lock) :
      Step st (.step i)
        { st with
          lock := lock
          calls := st.calls.set i (.process pkt caller (.handling type msg h)) }
  | handlerFails (i : ℕ) (pkt : PacketPtr P) (caller : Option ℕ) (type : String) (msg : M)
      (h : H) (res : String)
      (hi : st.calls[i]? = some (.process pkt caller (.handling type msg h))) :
      Step st (.handlerReturns i (some res))
        { st with calls := st.calls.set i (.process pkt caller (.returned (.handlerFailed res))) }
  | handlerReturns (i : ℕ) (pkt : PacketPtr P) (caller : Option ℕ) (type : String) (msg : M)
      (h : H) (hi : st.calls[i]? = some (.process pkt caller (.handling type msg h))) :
      Step st (.handlerReturns i none)
        { st with calls := st.calls.set i (.process pkt caller (.notifying type msg)) }
  | notified (i : ℕ) (inTime : Bool) (pkt : PacketPtr P) (caller : Option ℕ) (type : String)
      (msg : M) (hi : st.calls[i]? = some (.process pkt caller (.notifying type msg))) :
      Step st (.notified i inTime)
        { st with
          calls := st.calls.set i (.process pkt caller
            (.returned (if inTime then .ok else .tooLong))) }
  | add (m : MessageType M) :
      Step st (.add m) { st with globalRegistry := st.globalRegistry.add m }

variable {st st' : Calls P M H}

theorem step_of_registerStep {i : ℕ} {m : MessageType M} {exec : H} {pc : RegisterPc}
    (hi : st.calls[i]? = some (.register m exec pc))
    (hnext : st.registerStep i m exec pc = some st') : st.Step (.step i) st' := by
  cases pc with
  | add =>
      obtain rfl := Option.some.inj hnext
      exact .adds i m exec hi
  | lock =>
      obtain ⟨lock, hlock, rfl⟩ := Option.map_eq_some_iff.mp hnext
      exact .announces i m exec lock hi hlock
  | pending =>
      simp only [registerStep, Option.ite_none_right_eq_some] at hnext
      obtain ⟨hzero, heq⟩ := hnext
      obtain rfl := Option.some.inj heq
      exact .locks i m exec hi hzero
  | locked =>
      obtain rfl := Option.some.inj hnext
      exact .unlocks i m exec hi
  | returned => cases hnext

theorem step_of_processStep {i : ℕ} {pkt : PacketPtr P} {caller : Option ℕ}
    {pc : ProcessPc M H} (hi : st.calls[i]? = some (.process pkt caller pc))
    (hnext : st.processStep i pkt caller pc = some st') : st.Step (.step i) st' := by
  cases pc with
  | getMessage =>
      simp only [processStep] at hnext
      split at hnext
      · obtain rfl := Option.some.inj hnext
        exact .getMessageFails i pkt caller _ hi ProcessResult.noConfusion
      · next transpMsg _ =>
          split at hnext
          · obtain rfl := Option.some.inj hnext
            exact .getMessageFails i pkt caller _ hi ProcessResult.noConfusion
          · next msg _ =>
              obtain rfl := Option.some.inj hnext
              exact .getsMessage i pkt caller transpMsg.type msg hi
  | rLock type msg =>
      obtain ⟨lock, hlock, rfl⟩ := Option.map_eq_some_iff.mp hnext
      exact .rLocks i pkt caller type msg lock hi hlock
  | lookup type msg =>
      simp only [processStep] at hnext
      split at hnext
      · next hnone =>
          obtain rfl := Option.some.inj hnext
          exact .handlerNotFound i pkt caller type msg hi hnone
      · next h hh =>
          obtain rfl := Option.some.inj hnext
          exact .findsHandler i pkt caller type msg h hi hh
  | rUnlock type msg h =>
      obtain ⟨lock, hlock, rfl⟩ := Option.map_eq_some_iff.mp hnext
      exact .rUnlocks i pkt caller type msg h lock hi hlock
  | handling => cases hnext
  | notifying => cases hnext
  | returned => cases hnext

theorem step_of_next {a : CallAction P M H} (hnext : st.next a = some st') : st.Step a st' := by
  cases a with
  | register m exec =>
      obtain rfl := Option.some.inj hnext
      exact .register m exec
  | process pkt caller =>
      simp only [next, Option.ite_none_right_eq_some] at hnext
      obtain ⟨_, heq⟩ := hnext
      obtain rfl := Option.some.inj heq
      exact .process pkt caller
  | step i =>
      simp only [next] at hnext
      split at hnext
      · next hi => exact step_of_registerStep hi hnext
      · next hi => exact step_of_processStep hi hnext
      · cases hnext
  | handlerReturns i res =>
      simp only [next] at hnext
      split at hnext
      · next pkt caller type msg h hi =>
          simp only [Option.ite_none_right_eq_some] at hnext
          obtain ⟨_, heq⟩ := hnext
          obtain rfl := Option.some.inj heq
          cases res with
          | some res => exact .handlerFails i pkt caller type msg h res hi
          | none => exact .handlerReturns i pkt caller type msg h hi
      · cases hnext
  | notified i inTime =>
      simp only [next] at hnext
      split at hnext
      · next pkt caller type msg hi =>
          obtain rfl := Option.some.inj hnext
          exact .notified i inTime pkt caller type msg hi
      · cases hnext
  | add m =>
      obtain rfl := Option.some.inj hnext
      exact .add m

/-! ## One call alone -/

/-- The calls go on in any way. -/
def Leads (g : GlobalRegistry M) : Calls P M H → Calls P M H → Prop :=
  (registry g).LeadsTo fun _ _ => True

theorem Leads.tail {g : GlobalRegistry M} {s t : Calls P M H} (h : Leads g st s)
    {a : CallAction P M H} (hnext : s.next a = some t) : Leads g st t :=
  Relation.ReflTransGen.tail h ⟨a, trivial, hnext⟩

theorem next_process {k : ℕ} {pkt : PacketPtr P} {caller : Option ℕ} {pc : ProcessPc M H}
    (hk : st.calls[k]? = some (.process pkt caller pc)) :
    st.next (.step k) = st.processStep k pkt caller pc := by
  rw [next, hk]

section

variable {g : GlobalRegistry M} {k : ℕ} {pkt : Packet P} {caller : Option ℕ} {msg : M} {h : H}

/-- The call `k` for the packet at a point. -/
def processAt (pkt : Packet P) (caller : Option ℕ) (pc : ProcessPc M H) : Call P M H :=
  .process ⟨pkt.header, some pkt.msg⟩ caller pc

/-- Call `k` has gone on from `st` to `c`, with the handlers as they were. -/
structure At (st : Calls P M H) (k : ℕ) (c : Call P M H) (t : Calls P M H) : Prop where
  calls : t.calls = st.calls.set k c
  handlers : t.handlers = st.handlers

variable {c c' : Call P M H} {s t : Calls P M H}

theorem At.getElem? (h : At st k c s) (hlt : k < st.calls.length) : s.calls[k]? = some c := by
  rw [h.calls]
  exact List.getElem?_set_self hlt

theorem At.set (h : At st k c s) (hcalls : t.calls = s.calls.set k c')
    (hhandlers : t.handlers = s.handlers) : At st k c' t where
  calls := by rw [hcalls, h.calls, List.set_set]
  handlers := hhandlers.trans h.handlers

/-- A call whose message is read comes to the lookup of its handler. -/
theorem leads_to_lookup (hk : st.calls[k]? = some (processAt pkt caller .getMessage))
    (hmsg : st.globalRegistry.getMessage pkt.msg = .ok msg) (hfree : st.lock.writer = none) :
    ∃ t, Leads g st t ∧ 0 < t.lock.readers ∧
      At st k (processAt pkt caller (.lookup pkt.msg.type msg)) t := by
  have hlt : k < st.calls.length := (List.getElem?_eq_some_iff.mp hk).1
  let s : Calls P M H :=
    { st with calls := st.calls.set k (processAt pkt caller (.rLock pkt.msg.type msg)) }
  have hat : At st k (processAt pkt caller (.rLock pkt.msg.type msg)) s := ⟨rfl, rfl⟩
  have hget : st.next (.step k) = some s := by
    simp only [next_process hk, processStep, hmsg]
    rfl
  have hlock : s.lock.rLock = some { st.lock with readers := st.lock.readers + 1 } := if_pos hfree
  have hnext := next_process (hat.getElem? hlt)
  rw [processStep, hlock] at hnext
  exact ⟨_, (Leads.tail .refl hget).tail hnext, Nat.succ_pos _, hat.set rfl rfl⟩

/-- With a handler the call comes to run it. -/
theorem leads_to_handling (hk : st.calls[k]? = some (processAt pkt caller .getMessage))
    (hmsg : st.globalRegistry.getMessage pkt.msg = .ok msg) (hfree : st.lock.writer = none)
    (hh : st.handlers pkt.msg.type = some h) :
    ∃ t, Leads g st t ∧ At st k (processAt pkt caller (.handling pkt.msg.type msg h)) t := by
  have hlt : k < st.calls.length := (List.getElem?_eq_some_iff.mp hk).1
  obtain ⟨s, hlead, hpos, hat⟩ := leads_to_lookup (g := g) hk hmsg hfree
  let u : Calls P M H :=
    { s with calls := s.calls.set k (processAt pkt caller (.rUnlock pkt.msg.type msg h)) }
  have hu : At st k (processAt pkt caller (.rUnlock pkt.msg.type msg h)) u := hat.set rfl rfl
  rw [← hat.handlers] at hh
  have hlookup : s.next (.step k) = some u := by
    simp only [next_process (hat.getElem? hlt), processStep, hh]
    rfl
  have hunlock : u.lock.rUnlock = some { s.lock with readers := s.lock.readers - 1 } :=
    if_neg (Nat.ne_of_gt hpos)
  have hnext := next_process (hu.getElem? hlt)
  rw [processStep, hunlock] at hnext
  exact ⟨_, (hlead.tail hlookup).tail hnext, hu.set rfl rfl⟩

/-- A call whose handler runs returns when the handler and the notification handlers have
returned. -/
theorem leads_to_returned (hlt : k < st.calls.length)
    (hquiet : ∀ c ∈ st.calls, c.calledBy k = false) (hcaller : caller ≠ some k)
    (hlead : Leads g st s)
    (hat : At st k (processAt pkt caller (.handling pkt.msg.type msg h)) s) (res : Option String)
    (inTime : Bool) :
    ∃ t, Leads g st t ∧ At st k (processAt pkt caller (.returned
      (match res with
      | some res => .handlerFailed res
      | none => if inTime then .ok else .tooLong))) t := by
  have hguard : ∀ c ∈ s.calls, c.calledBy k = true → c.done = true := by
    intro c hc hcalled
    rw [hat.calls] at hc
    rcases List.mem_or_eq_of_mem_set hc with hc | rfl
    · exact Bool.noConfusion (hcalled.symm.trans (hquiet c hc))
    · exact absurd (of_decide_eq_true hcalled) hcaller
  cases res with
  | some res =>
      have hnext : s.next (.handlerReturns k (some res)) = some { s with
          calls := s.calls.set k (processAt pkt caller (.returned (.handlerFailed res))) } := by
        rw [next, hat.getElem? hlt]
        exact if_pos hguard
      exact ⟨_, hlead.tail hnext, hat.set rfl rfl⟩
  | none =>
      let u : Calls P M H :=
        { s with calls := s.calls.set k (processAt pkt caller (.notifying pkt.msg.type msg)) }
      have hu : At st k (processAt pkt caller (.notifying pkt.msg.type msg)) u := hat.set rfl rfl
      have hnext : s.next (.handlerReturns k none) = some u := by
        rw [next, hat.getElem? hlt]
        exact if_pos hguard
      have hnotified : u.next (.notified k inTime) = some { u with
          calls := u.calls.set k
            (processAt pkt caller (.returned (if inTime then .ok else .tooLong))) } := by
        rw [next, hu.getElem? hlt]
        rfl
      exact ⟨_, (hlead.tail hnext).tail hnotified, hu.set rfl rfl⟩

/-- What `processPacket` does when it returns, a call alone can do, with the same error. -/
theorem leads_to_of_processPacket {σ ω : Type*} {r : Registry P M σ ω} {w : ω} {s₀ s₁ : σ}
    {st : Calls P M (Exec P M σ ω)} {err : Option String}
    (hr : r.processPacket pkt w s₀ = .returned err s₁)
    (hmessages : st.globalRegistry = r.globalRegistry) (hhandlers : st.handlers = r.handlers)
    (hfree : st.lock.writer = none)
    (hk : st.calls[k]? = some (processAt pkt caller .getMessage))
    (hquiet : ∀ c ∈ st.calls, c.calledBy k = false) (hcaller : caller ≠ some k) :
    ∃ t res, Leads g st t ∧ At st k (processAt pkt caller (.returned res)) t ∧
      res.err pkt.msg.type = err := by
  have hlt : k < st.calls.length := (List.getElem?_eq_some_iff.mp hk).1
  unfold Registry.processPacket at hr
  rw [← hmessages, ← hhandlers] at hr
  split at hr
  · next failed hmsg =>
      cases hr
      have hnext : st.next (.step k) = some { st with
          calls := st.calls.set k (processAt pkt caller (.returned (.messageFailed failed))) } := by
        simp only [next_process hk, processStep, hmsg]
        rfl
      exact ⟨_, .messageFailed failed, Leads.tail .refl hnext, ⟨rfl, rfl⟩, rfl⟩
  · next msg hmsg =>
      split at hr
      · next hnone =>
          cases hr
          obtain ⟨s, hlead, -, hat⟩ := leads_to_lookup (g := g) hk hmsg hfree
          rw [← hat.handlers] at hnone
          have hnext : s.next (.step k) = some { s with
              calls := s.calls.set k (processAt pkt caller (.returned .handlerNotFound)) } := by
            simp only [next_process (hat.getElem? hlt), processStep, hnone]
            rfl
          exact ⟨_, .handlerNotFound, hlead.tail hnext, hat.set rfl rfl, rfl⟩
      · next h hh =>
          obtain ⟨s, hlead, hat⟩ := leads_to_handling (g := g) hk hmsg hfree hh
          have hreturns := leads_to_returned hlt hquiet hcaller hlead hat
          split at hr
          · cases hr
          · next failed _ _ =>
              cases hr
              obtain ⟨t, hleads, hat⟩ := hreturns (some failed) true
              exact ⟨t, _, hleads, hat, rfl⟩
          · next res _ _ =>
              cases hr
              obtain ⟨t, hleads, hat⟩ := hreturns (some res) true
              exact ⟨t, _, hleads, hat, rfl⟩
          · split at hr
            · cases hr
              obtain ⟨t, hleads, hat⟩ := hreturns none true
              exact ⟨t, _, hleads, hat, rfl⟩
            · cases hr
              obtain ⟨t, hleads, hat⟩ := hreturns none false
              exact ⟨t, _, hleads, hat, rfl⟩

end

end Calls
end Minotor.Messaging
