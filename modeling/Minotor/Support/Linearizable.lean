import Minotor.Support.Entries
import Minotor.Support.RWMutex
import Minotor.Support.Runs

/-!
# Objects which are protected by a readers-writer lock

Calls of the methods of an object run in threads of their own.  A method takes the lock of
the object, for reading or for writing, runs its body step by step and gives the lock back.

The history of the calls is linearizable: the calls which have taken effect stand in an
order in which each of them, executed at once, has the result which it had, and a call
which has returned before another was made stands before it.
-/

namespace Minotor

variable {σ τ ℓ ι ο : Type*}

/-- What a client sees of the calls, which are numbered. -/
inductive CallEvent (ι ο : Type*) where
  | inv (k : ℕ) (i : ι)
  | res (k : ℕ) (o : ο)

/-! ## Linearizability -/

/-- Calls which are executed one after the other. -/
inductive Legal (spec : ι → σ → ο → σ → Prop) (s₀ : σ) : List (ℕ × ι × ο) → σ → Prop where
  | nil : Legal spec s₀ [] s₀
  | snoc {lin k i s o s'} (h : Legal spec s₀ lin s) (hcall : spec i s o s') :
      Legal spec s₀ (lin ++ [(k, i, o)]) s'

/-- The calls of a history in an order in which they could have been executed at once. -/
structure Linearizes (spec : ι → σ → ο → σ → Prop) (s₀ : σ) (hist : List (CallEvent ι ο))
    (lin : List (ℕ × ι × ο)) : Prop where
  legal : ∃ s, Legal spec s₀ lin s
  nodup : (lin.map Prod.fst).Nodup
  invoked : ∀ e ∈ lin, .inv e.1 e.2.1 ∈ hist
  returned : ∀ k o, .res k o ∈ hist → ∃ i, (k, i, o) ∈ lin
  /-- a call which returns before another is made comes first -/
  realTime : ∀ k o k' i', [.res k o, .inv k' i'].Sublist hist → k' ∈ lin.map Prod.fst →
    [k, k'].Sublist (lin.map Prod.fst)

theorem Legal.map {spec : ι → σ → ο → σ → Prop} {spec' : ι → τ → ο → τ → Prop} (f : σ → τ)
    (hspec : ∀ i s o s', spec i s o s' → spec' i (f s) o (f s')) {s₀ s : σ}
    {lin : List (ℕ × ι × ο)} (h : Legal spec s₀ lin s) : Legal spec' (f s₀) lin (f s) := by
  induction h with
  | nil => exact .nil
  | snoc _ hcall ih => exact ih.snoc (hspec _ _ _ _ hcall)

/-- An implementation may be described by a specification. -/
theorem Linearizes.map {spec : ι → σ → ο → σ → Prop} {spec' : ι → τ → ο → τ → Prop} (f : σ → τ)
    (hspec : ∀ i s o s', spec i s o s' → spec' i (f s) o (f s')) {s₀ : σ}
    {hist : List (CallEvent ι ο)} {lin : List (ℕ × ι × ο)} (h : Linearizes spec s₀ hist lin) :
    Linearizes spec' (f s₀) hist lin :=
  { h with
    legal := by
      obtain ⟨s, hs⟩ := h.legal
      exact ⟨f s, hs.map f hspec⟩ }

/-! ## Methods and their calls -/

/-- The methods of an object.  The body of a method goes on with a state of its own or ends
with a result. -/
structure Methods (σ ℓ ι ο : Type*) where
  writes : ι → Bool
  start : ι → ℓ
  move : ι → ℓ → σ → (ℓ × σ) ⊕ ο
  /-- under the lock for reading nothing is changed -/
  readonly : ∀ i l s l' s', writes i = false → move i l s = .inl (l', s') → s' = s

namespace Methods

variable (M : Methods σ ℓ ι ο)

/-- One step of a body. -/
def Step (i : ι) (p q : ℓ × σ) : Prop := M.move i p.1 p.2 = .inl q

/-- A body which is executed at once. -/
def Body (i : ι) (s : σ) (o : ο) (s' : σ) : Prop :=
  ∃ l, Relation.ReflTransGen (M.Step i) (M.start i, s) (l, s') ∧ M.move i l s' = .inr o

variable {M}

/-- Loop rule: what holds at the start of a body and is kept by its steps holds at its end. -/
theorem Body.invariant {i : ι} {s s' : σ} {o : ο} {I : ℓ → σ → Prop} (h : M.Body i s o s')
    (hstart : I (M.start i) s)
    (hstep : ∀ l t l' t', I l t → M.move i l t = .inl (l', t') → I l' t') :
    ∃ l, I l s' ∧ M.move i l s' = .inr o := by
  obtain ⟨l, hrun, hend⟩ := h
  refine ⟨l, ?_, hend⟩
  suffices hall : ∀ p, Relation.ReflTransGen (M.Step i) (M.start i, s) p → I p.1 p.2 from
    hall _ hrun
  intro p hp
  induction hp with
  | refl => exact hstart
  | tail _ hmove ih => exact hstep _ _ _ _ ih hmove

variable {κ υ : Type*}

/-- Methods which call other methods and read their results. -/
def wrap (M : Methods σ ℓ ι ο) (f : κ → ι) (g : κ → ο → υ) : Methods σ ℓ κ υ where
  writes k := M.writes (f k)
  start k := M.start (f k)
  move k l s := (M.move (f k) l s).map id (g k)
  readonly k l s l' s' hw h := by
    cases hmove : M.move (f k) l s with
    | inl q =>
        rw [hmove] at h
        cases h
        exact M.readonly _ _ _ _ _ hw hmove
    | inr o =>
        rw [hmove] at h
        cases h

theorem wrap_move_inl {f : κ → ι} {g : κ → ο → υ} {k : κ} {l : ℓ} {s : σ} {q : ℓ × σ}
    (h : (M.wrap f g).move k l s = .inl q) : M.move (f k) l s = .inl q := by
  cases hmove : M.move (f k) l s with
  | inl q' =>
      simp only [wrap, hmove, Sum.map_inl, id_eq, Sum.inl.injEq] at h
      rw [h]
  | inr o =>
      simp only [wrap, hmove, Sum.map_inr] at h
      cases h

/-- The body of a method which calls another one is that of the other one. -/
theorem Body.of_wrap {f : κ → ι} {g : κ → ο → υ} {k : κ} {s s' : σ} {u : υ}
    (h : (M.wrap f g).Body k s u s') : ∃ o, M.Body (f k) s o s' ∧ g k o = u := by
  obtain ⟨l, hrun, hend⟩ := h
  cases hmove : M.move (f k) l s' with
  | inl q =>
      simp only [wrap, hmove, Sum.map_inl] at hend
      cases hend
  | inr o =>
      simp only [wrap, hmove, Sum.map_inr] at hend
      have hstep : (M.wrap f g).Step k ≤ M.Step (f k) := fun _ _ hmove => wrap_move_inl hmove
      exact ⟨o, ⟨l, Relation.ReflTransGen.mono hstep _ _ hrun, hmove⟩, Sum.inr.inj hend⟩

end Methods

/-- Where a call is. -/
inductive CallPhase (ℓ ο : Type*) where
  | called
  /-- waits for the readers to leave -/
  | announced
  | inside (l : ℓ)
  /-- the body has ended -/
  | leaving (o : ο)
  | left (o : ο)
  | returned (o : ο)

namespace CallPhase

/-- A call in this phase holds the lock. -/
def locked : CallPhase ℓ ο → Bool
  | .inside _ => true
  | .leaving _ => true
  | _ => false

/-- A call in this phase has begun to take the lock. -/
def begun : CallPhase ℓ ο → Bool
  | .announced => true
  | p => p.locked

/-- The result of a call which has taken effect. -/
def effect : CallPhase ℓ ο → Option ο
  | .left o => some o
  | .returned o => some o
  | _ => none

/-- The result which the client has seen. -/
def answer : CallPhase ℓ ο → Option ο
  | .returned o => some o
  | _ => none

end CallPhase

/-- An object with its lock and the calls of its methods. -/
structure Protected (σ ℓ ι ο : Type*) where
  lock : RWMutex
  shared : σ
  calls : List (ι × CallPhase ℓ ο)

inductive ProtectedAction (ι : Type*) where
  | invoke (i : ι)
  | run (k : ℕ)

namespace Methods

variable (M : Methods σ ℓ ι ο)

/-- The next step of a call. -/
def runCall (st : Protected σ ℓ ι ο) (k : ℕ) (i : ι) :
    CallPhase ℓ ο → Option (RWMutex × σ × CallPhase ℓ ο)
  | .called =>
      if M.writes i then (st.lock.announce k).map fun lock => (lock, st.shared, .announced)
      else st.lock.rLock.map fun lock => (lock, st.shared, .inside (M.start i))
  | .announced =>
      if st.lock.readers = 0 then some (st.lock, st.shared, .inside (M.start i)) else none
  | .inside l =>
      match M.move i l st.shared with
      | .inl (l', s') => some (st.lock, s', .inside l')
      | .inr o => some (st.lock, st.shared, .leaving o)
  | .leaving o =>
      if M.writes i then some (st.lock.unlock, st.shared, .left o)
      else st.lock.rUnlock.map fun lock => (lock, st.shared, .left o)
  | .left o => some (st.lock, st.shared, .returned o)
  | .returned _ => none

def next (st : Protected σ ℓ ι ο) : ProtectedAction ι → Option (Protected σ ℓ ι ο)
  | .invoke i => some { st with calls := st.calls ++ [(i, .called)] }
  | .run k =>
      st.calls[k]?.bind fun c =>
        (M.runCall st k c.1 c.2).map fun r => ⟨r.1, r.2.1, st.calls.set k (c.1, r.2.2)⟩

/-- What the clients see, and the calls in the order in which they take effect. -/
def record (st : Protected σ ℓ ι ο) :
    ProtectedAction ι → List (CallEvent ι ο) × List (ℕ × ι × ο) →
      List (CallEvent ι ο) × List (ℕ × ι × ο)
  | .invoke i, h => (h.1 ++ [.inv st.calls.length i], h.2)
  | .run k, h =>
      match st.calls[k]? with
      | some (i, .leaving o) => (h.1, h.2 ++ [(k, i, o)])
      | some (_, .left o) => (h.1 ++ [.res k o], h.2)
      | _ => h

/-- The system of an object which starts in a given state. -/
def system (s₀ : σ) : TransitionSystem (Protected σ ℓ ι ο) (ProtectedAction ι) where
  init := ⟨.new, s₀, []⟩
  next := M.next

/-- The system with its history. -/
def traced (s₀ : σ) : TransitionSystem
    (Protected σ ℓ ι ο × List (CallEvent ι ο) × List (ℕ × ι × ο)) (ProtectedAction ι) :=
  (M.system s₀).withHistory ([], []) record

/-- How the calls use the lock. -/
def use : RWMutex.Use (ι × CallPhase ℓ ο) where
  reads c := !M.writes c.1 && c.2.locked
  writes c := M.writes c.1 && c.2.begun
  holds c := M.writes c.1 && c.2.locked
  writes_of_holds := by
    rintro ⟨i, p⟩ h
    rw [Bool.and_eq_true] at h ⊢
    refine ⟨h.1, ?_⟩
    cases p with
    | announced => rfl
    | _ => exact h.2

/-- A body has come from one state to another. -/
def Running (c : ι × CallPhase ℓ ο) (s s' : σ) : Prop :=
  match c.2 with
  | .inside l => Relation.ReflTransGen (M.Step c.1) (M.start c.1, s) (l, s')
  | .leaving o => M.Body c.1 s o s'
  | _ => True

/-- The state is the one after the calls which have taken effect, except for what the writer
has done. -/
structure Consistent (s₀ : σ) (st : Protected σ ℓ ι ο) (lin : List (ℕ × ι × ο)) (s : σ) :
    Prop where
  legal : Legal M.Body s₀ lin s
  idle : (∀ c ∈ st.calls, M.use.holds c = false) → st.shared = s
  reading : ∀ c ∈ st.calls, M.use.reads c = true → M.Running c s s
  writing : ∀ c ∈ st.calls, M.use.holds c = true → M.Running c s st.shared

/-- The history is that of the calls. -/
structure Recorded (st : Protected σ ℓ ι ο) (hist : List (CallEvent ι ο))
    (lin : List (ℕ × ι × ο)) : Prop where
  inv : ∀ k i, .inv k i ∈ hist ↔ ∃ p, st.calls[k]? = some (i, p)
  res : ∀ k o, .res k o ∈ hist ↔ ∃ i p, st.calls[k]? = some (i, p) ∧ p.answer = some o
  effect : ∀ k i o, (k, i, o) ∈ lin ↔ ∃ p, st.calls[k]? = some (i, p) ∧ p.effect = some o
  nodup : (lin.map Prod.fst).Nodup
  realTime : ∀ k o k' i', [.res k o, .inv k' i'].Sublist hist → k' ∈ lin.map Prod.fst →
    [k, k'].Sublist (lin.map Prod.fst)

variable {M : Methods σ ℓ ι ο}

/-! ## The lock -/

/-- The lock agrees with the calls, and only writers wait for the readers to leave. -/
structure Locked (M : Methods σ ℓ ι ο) (st : Protected σ ℓ ι ο) : Prop where
  agrees : st.lock.Agrees M.use st.calls
  announced : ∀ c ∈ st.calls, c.2 = .announced → M.writes c.1 = true

section

variable {st st' : Protected σ ℓ ι ο} {k : ℕ} {i : ι} {p p' : CallPhase ℓ ο} {s₀ s : σ}
  {hist : List (CallEvent ι ο)} {lin : List (ℕ × ι × ο)}

theorem reads_of_read (hw : M.writes i = false) : M.use.reads (i, p) = p.locked := by
  simp [use, hw]

theorem reads_of_write (hw : M.writes i = true) : M.use.reads (i, p) = false := by
  simp [use, hw]

theorem writes_of_read (hw : M.writes i = false) : M.use.writes (i, p) = false := by
  simp [use, hw]

theorem writes_of_write (hw : M.writes i = true) : M.use.writes (i, p) = p.begun := by
  simp [use, hw]

theorem holds_of_read (hw : M.writes i = false) : M.use.holds (i, p) = false := by
  simp [use, hw]

theorem holds_of_write (hw : M.writes i = true) : M.use.holds (i, p) = p.locked := by
  simp [use, hw]

/-- What a step of a call does to the lock, the state and the call. -/
inductive Moves (M : Methods σ ℓ ι ο) (st : Protected σ ℓ ι ο) (k : ℕ) (i : ι) :
    CallPhase ℓ ο → RWMutex → σ → CallPhase ℓ ο → Prop where
  | announce {lock} (hw : M.writes i = true) (hlock : st.lock.announce k = some lock) :
      Moves M st k i .called lock st.shared .announced
  | rLock {lock} (hw : M.writes i = false) (hlock : st.lock.rLock = some lock) :
      Moves M st k i .called lock st.shared (.inside (M.start i))
  | enter (hreaders : st.lock.readers = 0) :
      Moves M st k i .announced st.lock st.shared (.inside (M.start i))
  | move {l l' s'} (hmove : M.move i l st.shared = .inl (l', s')) :
      Moves M st k i (.inside l) st.lock s' (.inside l')
  | finish {l o} (hmove : M.move i l st.shared = .inr o) :
      Moves M st k i (.inside l) st.lock st.shared (.leaving o)
  | unlock {o} (hw : M.writes i = true) :
      Moves M st k i (.leaving o) st.lock.unlock st.shared (.left o)
  | rUnlock {o lock} (hw : M.writes i = false) (hlock : st.lock.rUnlock = some lock) :
      Moves M st k i (.leaving o) lock st.shared (.left o)
  | answer {o} : Moves M st k i (.left o) st.lock st.shared (.returned o)

theorem moves_of_runCall {r : RWMutex × σ × CallPhase ℓ ο} (h : M.runCall st k i p = some r) :
    Moves M st k i p r.1 r.2.1 r.2.2 := by
  cases p with
  | called =>
      simp only [runCall] at h
      split at h
      · next hw =>
          obtain ⟨lock, hlock, rfl⟩ := Option.map_eq_some_iff.mp h
          exact .announce hw hlock
      · next hw =>
          obtain ⟨lock, hlock, rfl⟩ := Option.map_eq_some_iff.mp h
          exact .rLock (Bool.eq_false_iff.mpr hw) hlock
  | announced =>
      obtain ⟨hreaders, heq⟩ := Option.ite_none_right_eq_some.mp h
      cases heq
      exact .enter hreaders
  | inside l =>
      simp only [runCall] at h
      split at h
      · next hmove =>
          cases h
          exact .move hmove
      · next hmove =>
          cases h
          exact .finish hmove
  | leaving o =>
      simp only [runCall] at h
      split at h
      · next hw =>
          cases h
          exact .unlock hw
      · next hw =>
          obtain ⟨lock, hlock, rfl⟩ := Option.map_eq_some_iff.mp h
          exact .rUnlock (Bool.eq_false_iff.mpr hw) hlock
  | left o =>
      cases h
      exact .answer
  | returned o => cases h

/-- The steps of the system. -/
theorem next_cases {a : ProtectedAction ι} (h : M.next st a = some st') :
    (∃ i, a = .invoke i ∧ st' = { st with calls := st.calls ++ [(i, .called)] }) ∨
    ∃ k i p lock s' p', a = .run k ∧ st.calls[k]? = some (i, p) ∧
      Moves M st k i p lock s' p' ∧ st' = ⟨lock, s', st.calls.set k (i, p')⟩ := by
  cases a with
  | invoke i => exact Or.inl ⟨i, rfl, (Option.some.inj h).symm⟩
  | run k =>
      obtain ⟨⟨i, p⟩, hc, h⟩ := Option.bind_eq_some_iff.mp h
      obtain ⟨⟨lock, s', p'⟩, hrun, rfl⟩ := Option.map_eq_some_iff.mp h
      exact Or.inr ⟨k, i, p, lock, s', p', rfl, hc, moves_of_runCall hrun, rfl⟩

/-- Nobody reads while somebody holds the lock for writing. -/
theorem Locked.not_reads (h : Locked M st) {c c' : ι × CallPhase ℓ ο} (hc : c ∈ st.calls)
    (hc' : c' ∈ st.calls) (hholds : M.use.holds c = true) : M.use.reads c' = false := by
  have hzero := h.agrees.excluded c hc hholds
  rw [h.agrees.readers, List.countP_eq_zero] at hzero
  exact Bool.eq_false_iff.mpr (hzero c' hc')

/-- One call at most has begun to lock for writing. -/
theorem Locked.unique (h : Locked M st) {k k' : ℕ} {c c' : ι × CallPhase ℓ ο}
    (hc : st.calls[k]? = some c) (hc' : st.calls[k']? = some c') (hw : M.use.writes c = true)
    (hw' : M.use.writes c' = true) : k = k' := by
  have hk := (h.agrees.writer_iff hc).mpr hw
  have hk' := (h.agrees.writer_iff hc').mpr hw'
  exact Option.some.inj (hk.symm.trans hk')

theorem Locked.run {lock : RWMutex} {s' : σ} (h : Locked M st) (hc : st.calls[k]? = some (i, p))
    (hmoves : Moves M st k i p lock s' p') :
    Locked M ⟨lock, s', st.calls.set k (i, p')⟩ := by
  have hmem := List.mem_of_getElem? hc
  have hexcluded := h.agrees.excluded (i, p) hmem
  cases hmoves with
  | announce hw hlock =>
      refine ⟨h.agrees.announce hlock hc ?_ ?_ ?_, forall_mem_set h.announced fun _ => hw⟩
      · rw [reads_of_write hw, reads_of_write hw]
      · rw [writes_of_write hw]
        rfl
      · rw [holds_of_write hw]
        rfl
  | rLock hw hlock =>
      refine ⟨h.agrees.rLock hlock hc ?_ ?_ ?_, forall_mem_set h.announced fun hann => ?_⟩
      · rw [reads_of_read hw]
        rfl
      · rw [reads_of_read hw]
        rfl
      · rw [writes_of_read hw]
      · cases hann
  | enter hreaders =>
      have hw := h.announced _ hmem rfl
      refine ⟨h.agrees.keep hc ?_ ?_ fun _ => hreaders, forall_mem_set h.announced fun hann => ?_⟩
      · rw [reads_of_write hw, reads_of_write hw]
      · rw [writes_of_write hw, writes_of_write hw]
        rfl
      · cases hann
  | move hmove =>
      refine ⟨h.agrees.keep hc rfl rfl hexcluded, forall_mem_set h.announced fun hann => ?_⟩
      cases hann
  | finish hmove =>
      refine ⟨h.agrees.keep hc rfl rfl hexcluded, forall_mem_set h.announced fun hann => ?_⟩
      cases hann
  | unlock hw =>
      refine ⟨h.agrees.unlock hc ?_ ?_ ?_, forall_mem_set h.announced fun hann => ?_⟩
      · rw [reads_of_write hw, reads_of_write hw]
      · rw [writes_of_write hw]
        rfl
      · rw [writes_of_write hw]
        rfl
      · cases hann
  | rUnlock hw hlock =>
      refine ⟨h.agrees.rUnlock hlock hc ?_ ?_ ?_ ?_, forall_mem_set h.announced fun hann => ?_⟩
      · rw [reads_of_read hw]
        rfl
      · rw [reads_of_read hw]
        rfl
      · rw [writes_of_read hw, writes_of_read hw]
      · rw [holds_of_read hw]
      · cases hann
  | answer =>
      refine ⟨h.agrees.keep hc rfl rfl hexcluded, forall_mem_set h.announced fun hann => ?_⟩
      cases hann

theorem Locked.invoke (h : Locked M st) (i : ι) :
    Locked M { st with calls := st.calls ++ [(i, .called)] } := by
  refine ⟨h.agrees.append ?_ ?_, forall_mem_concat h.announced fun hann => ?_⟩
  · simp [use, CallPhase.locked]
  · simp [use, CallPhase.begun, CallPhase.locked]
  · cases hann

/-! ## The state -/

/-- If nobody holds the lock for writing after a call has gone on, nobody did before. -/
theorem holds_eq_false_of_set {c c' : ι × CallPhase ℓ ο} {cs : List (ι × CallPhase ℓ ο)}
    (hc : cs[k]? = some c) (hsame : M.use.holds c' = M.use.holds c)
    (h : ∀ x ∈ cs.set k c', M.use.holds x = false) : ∀ x ∈ cs, M.use.holds x = false := by
  intro x hx
  obtain ⟨j, hj⟩ := List.mem_iff_getElem?.mp hx
  by_cases hjk : j = k
  · subst hjk
    obtain rfl := Option.some.inj (hc.symm.trans hj)
    rw [← hsame]
    exact h c' (List.mem_of_getElem? (List.getElem?_set_self
      (List.getElem?_eq_some_iff.mp hc).1))
  · exact h x (List.mem_of_getElem? ((List.getElem?_set_ne (Ne.symm hjk)).trans hj))

/-- A property of the calls but one. -/
theorem forall_set_of_others {P : ι × CallPhase ℓ ο → Prop} {c c' : ι × CallPhase ℓ ο}
    {cs : List (ι × CallPhase ℓ ο)} (hc : cs[k]? = some c) (hself : P c')
    (hothers : ∀ j x, j ≠ k → cs[j]? = some x → P x) : ∀ x ∈ cs.set k c', P x := by
  intro x hx
  obtain ⟨j, hj⟩ := List.mem_iff_getElem?.mp hx
  rcases getElem?_set_cases hc hj with ⟨-, rfl⟩ | ⟨hne, hj⟩
  · exact hself
  · exact hothers j x hne hj

/-- Nobody else has begun to lock for writing. -/
theorem Locked.holds_others (h : Locked M st) {c : ι × CallPhase ℓ ο} (hc : st.calls[k]? = some c)
    (hw : M.use.writes c = true) {j : ℕ} {x : ι × CallPhase ℓ ο} (hne : j ≠ k)
    (hx : st.calls[j]? = some x) : M.use.holds x = false := by
  by_contra hholds
  rw [Bool.not_eq_false] at hholds
  exact hne (h.unique hx hc (M.use.writes_of_holds x hholds) hw)

/-- While somebody reads the state is the one after the calls which have taken effect. -/
theorem Consistent.shared_of_reads (h : Consistent M s₀ st lin s) (hlocked : Locked M st)
    {c : ι × CallPhase ℓ ο} (hc : c ∈ st.calls) (hreads : M.use.reads c = true) :
    st.shared = s := by
  apply h.idle
  intro x hx
  by_contra hholds
  rw [Bool.not_eq_false] at hholds
  rw [hlocked.not_reads hx hc hholds] at hreads
  cases hreads

/-- A call goes on which does not hold the lock. -/
theorem Consistent.quiet (h : Consistent M s₀ st lin s) (hc : st.calls[k]? = some (i, p))
    {lock : RWMutex} (hholds : M.use.holds (i, p) = false)
    (hholds' : M.use.holds (i, p') = false)
    (hrunning : M.use.reads (i, p') = true → M.Running (i, p') s s) :
    Consistent M s₀ ⟨lock, st.shared, st.calls.set k (i, p')⟩ lin s where
  legal := h.legal
  idle hall := h.idle (holds_eq_false_of_set hc (hholds'.trans hholds.symm) hall)
  reading := forall_mem_set h.reading hrunning
  writing := forall_mem_set h.writing fun htrue => by
    rw [hholds'] at htrue
    cases htrue

/-- The writer goes on. -/
theorem Consistent.write (h : Consistent M s₀ st lin s) (hlocked : Locked M st)
    (hc : st.calls[k]? = some (i, p)) (hw : M.use.writes (i, p) = true)
    (hreads : ∀ j x, j ≠ k → st.calls[j]? = some x → M.use.reads x = true → M.Running x s s)
    (hreads' : M.use.reads (i, p') = false) (hholds' : M.use.holds (i, p') = true) {s' : σ}
    {lock : RWMutex} (hrunning : M.Running (i, p') s s') :
    Consistent M s₀ ⟨lock, s', st.calls.set k (i, p')⟩ lin s where
  legal := h.legal
  idle hall := by
    have hself := hall (i, p') (List.mem_of_getElem? (List.getElem?_set_self
      (List.getElem?_eq_some_iff.mp hc).1))
    rw [hholds'] at hself
    cases hself
  reading := by
    refine forall_set_of_others (P := fun x => M.use.reads x = true → M.Running x s s) hc ?_ ?_
    · intro htrue
      rw [hreads'] at htrue
      cases htrue
    · exact hreads
  writing := by
    refine forall_set_of_others (P := fun x => M.use.holds x = true → M.Running x s s') hc ?_ ?_
    · exact fun _ => hrunning
    · intro j x hne hx htrue
      rw [hlocked.holds_others hc hw hne hx] at htrue
      cases htrue

/-- The calls which have taken effect after a step. -/
def effects (k : ℕ) (i : ι) (lin : List (ℕ × ι × ο)) : CallPhase ℓ ο → List (ℕ × ι × ο)
  | .leaving o => lin ++ [(k, i, o)]
  | _ => lin

theorem Consistent.run {lock : RWMutex} {s' : σ} (h : Consistent M s₀ st lin s)
    (hlocked : Locked M st) (hc : st.calls[k]? = some (i, p))
    (hmoves : Moves M st k i p lock s' p') :
    ∃ t, Consistent M s₀ ⟨lock, s', st.calls.set k (i, p')⟩ (effects k i lin p) t := by
  have hmem := List.mem_of_getElem? hc
  cases hmoves with
  | announce hw hlock =>
      refine ⟨s, h.quiet hc ?_ ?_ fun _ => trivial⟩
      · rw [holds_of_write hw]
        rfl
      · rw [holds_of_write hw]
        rfl
  | rLock hw hlock =>
      refine ⟨s, h.quiet hc (holds_of_read hw) (holds_of_read hw) fun _ => ?_⟩
      exact Relation.ReflTransGen.refl
  | enter hreaders =>
      have hw := hlocked.announced _ hmem rfl
      have hwrites : M.use.writes (i, .announced) = true := by
        rw [writes_of_write hw]
        rfl
      have hshared : st.shared = s := by
        apply h.idle
        intro x hx
        obtain ⟨j, hj⟩ := List.mem_iff_getElem?.mp hx
        by_cases hjk : j = k
        · subst hjk
          rw [← Option.some.inj (hc.symm.trans hj), holds_of_write hw]
          rfl
        · exact hlocked.holds_others hc hwrites hjk hj
      refine ⟨s, h.write hlocked hc hwrites ?_ (reads_of_write hw) ?_ ?_⟩
      · exact fun j x _ hx => h.reading x (List.mem_of_getElem? hx)
      · rw [holds_of_write hw]
        rfl
      · rw [hshared]
        exact Relation.ReflTransGen.refl
  | @move l l' s' hmove =>
      cases hw : M.writes i with
      | false =>
          have hreads : M.use.reads (i, .inside l) = true := by
            rw [reads_of_read hw]
            rfl
          have hshared := h.shared_of_reads hlocked hmem hreads
          have hsame := M.readonly i l st.shared l' s' hw hmove
          rw [hsame]
          refine ⟨s, h.quiet hc (holds_of_read hw) (holds_of_read hw) fun _ => ?_⟩
          rw [hsame, hshared] at hmove
          exact (h.reading _ hmem hreads).tail hmove
      | true =>
          have hholds : M.use.holds (i, .inside l) = true := by
            rw [holds_of_write hw]
            rfl
          refine ⟨s, h.write hlocked hc (M.use.writes_of_holds _ hholds) ?_ (reads_of_write hw)
            ?_ ?_⟩
          · intro j x _ hx hreads
            rw [hlocked.not_reads hmem (List.mem_of_getElem? hx) hholds] at hreads
            cases hreads
          · rw [holds_of_write hw]
            rfl
          · exact (h.writing _ hmem hholds).tail hmove
  | @finish l o hmove =>
      cases hw : M.writes i with
      | false =>
          have hreads : M.use.reads (i, .inside l) = true := by
            rw [reads_of_read hw]
            rfl
          have hshared := h.shared_of_reads hlocked hmem hreads
          refine ⟨s, h.quiet hc (holds_of_read hw) (holds_of_read hw) fun _ => ?_⟩
          rw [hshared] at hmove
          exact ⟨l, h.reading _ hmem hreads, hmove⟩
      | true =>
          have hholds : M.use.holds (i, .inside l) = true := by
            rw [holds_of_write hw]
            rfl
          refine ⟨s, h.write hlocked hc (M.use.writes_of_holds _ hholds) ?_ (reads_of_write hw)
            ?_ ?_⟩
          · intro j x _ hx hreads
            rw [hlocked.not_reads hmem (List.mem_of_getElem? hx) hholds] at hreads
            cases hreads
          · rw [holds_of_write hw]
            rfl
          · exact ⟨l, h.writing _ hmem hholds, hmove⟩
  | @unlock o hw =>
      have hholds : M.use.holds (i, .leaving o) = true := by
        rw [holds_of_write hw]
        rfl
      have hbody : M.Body i s o st.shared := h.writing _ hmem hholds
      refine ⟨st.shared, h.legal.snoc hbody, fun _ => rfl, ?_, ?_⟩
      · refine forall_set_of_others
          (P := fun x => M.use.reads x = true → M.Running x st.shared st.shared) hc ?_ ?_
        · intro htrue
          rw [reads_of_write hw] at htrue
          cases htrue
        · intro j x _ hx hreads
          rw [hlocked.not_reads hmem (List.mem_of_getElem? hx) hholds] at hreads
          cases hreads
      · refine forall_set_of_others
          (P := fun x => M.use.holds x = true → M.Running x st.shared st.shared) hc ?_ ?_
        · exact fun _ => trivial
        · intro j x hne hx htrue
          rw [hlocked.holds_others hc (M.use.writes_of_holds _ hholds) hne hx] at htrue
          cases htrue
  | @rUnlock o lock hw hlock =>
      have hreads : M.use.reads (i, .leaving o) = true := by
        rw [reads_of_read hw]
        rfl
      have hbody : M.Body i s o s := h.reading _ hmem hreads
      have hquiet : Consistent M s₀ ⟨lock, st.shared, st.calls.set k (i, .left o)⟩ lin s :=
        h.quiet hc (holds_of_read hw) (holds_of_read hw) fun _ => trivial
      exact ⟨s, { hquiet with legal := h.legal.snoc hbody }⟩
  | answer =>
      refine ⟨s, h.quiet hc ?_ ?_ fun _ => trivial⟩
      · simp [use, CallPhase.locked]
      · simp [use, CallPhase.locked]

theorem Consistent.invoke (h : Consistent M s₀ st lin s) (i : ι) :
    Consistent M s₀ { st with calls := st.calls ++ [(i, .called)] } lin s where
  legal := h.legal
  idle hall := h.idle fun c hc => hall c (List.mem_append_left _ hc)
  reading := forall_mem_concat h.reading fun _ => trivial
  writing := forall_mem_concat h.writing fun _ => trivial

/-! ## The history -/

/-- What the clients have seen after a step. -/
def answers (k : ℕ) (hist : List (CallEvent ι ο)) : CallPhase ℓ ο → List (CallEvent ι ο)
  | .left o => hist ++ [.res k o]
  | _ => hist

theorem record_run (hc : st.calls[k]? = some (i, p)) :
    record st (.run k) (hist, lin) = (answers k hist p, effects k i lin p) := by
  cases p with
  | _ => simp [record, hc, answers, effects]

/-- A pair which ends otherwise was there before. -/
theorem sublist_of_concat {α : Type*} {a b x : α} {l : List α} (h : [a, b].Sublist (l ++ [x]))
    (hne : b ≠ x) : [a, b].Sublist l := by
  obtain ⟨l₁, l₂, heq, h₁, h₂⟩ := List.sublist_append_iff.mp h
  rcases List.sublist_singleton.mp h₂ with rfl | rfl
  · rw [List.append_nil] at heq
    rw [heq]
    exact h₁
  · have hlast := congrArg List.getLast? heq
    rw [List.getLast?_append] at hlast
    exact absurd (Option.some.inj hlast) hne

theorem exists_set_iff {cs : List (ι × CallPhase ℓ ο)} (hc : cs[k]? = some (i, p)) (j : ℕ)
    (i' : ι) :
    (∃ q, (cs.set k (i, p'))[j]? = some (i', q)) ↔ ∃ q, cs[j]? = some (i', q) := by
  by_cases hj : j = k
  · subst hj
    rw [List.getElem?_set_self (List.getElem?_eq_some_iff.mp hc).1, hc]
    simp
  · rw [List.getElem?_set_ne (Ne.symm hj)]

/-- What is read off the phase of a call stays what it was if that of the call which goes on
does. -/
theorem exists_answer_set_iff {α : Type*} {f : CallPhase ℓ ο → Option α}
    {cs : List (ι × CallPhase ℓ ο)} (hc : cs[k]? = some (i, p)) (hf : f p' = f p) (j : ℕ) (i' : ι)
    (a : α) : (∃ q, (cs.set k (i, p'))[j]? = some (i', q) ∧ f q = some a) ↔
      ∃ q, cs[j]? = some (i', q) ∧ f q = some a := by
  by_cases hj : j = k
  · subst hj
    rw [List.getElem?_set_self (List.getElem?_eq_some_iff.mp hc).1, hc]
    simp [hf]
  · rw [List.getElem?_set_ne (Ne.symm hj)]

/-- A call goes on without a result. -/
theorem Recorded.quiet (h : Recorded st hist lin) (hc : st.calls[k]? = some (i, p))
    (hanswer : p'.answer = p.answer) (heffect : p'.effect = p.effect) (lock : RWMutex) (s' : σ) :
    Recorded ⟨lock, s', st.calls.set k (i, p')⟩ hist lin where
  inv j i' := (h.inv j i').trans (exists_set_iff hc j i').symm
  res j o := (h.res j o).trans
    (exists_congr fun i' => (exists_answer_set_iff hc hanswer j i' o).symm)
  effect j i' o := (h.effect j i' o).trans (exists_answer_set_iff hc heffect j i' o).symm
  nodup := h.nodup
  realTime := h.realTime

/-- A call which has taken effect stands in the order. -/
theorem Recorded.mem_of_effect (h : Recorded st hist lin) {o : ο}
    (hc : st.calls[k]? = some (i, p)) (heffect : p.effect = some o) : k ∈ lin.map Prod.fst :=
  List.mem_map_of_mem (f := Prod.fst) ((h.effect k i o).mpr ⟨p, hc, heffect⟩)

theorem Recorded.exists_of_mem (h : Recorded st hist lin) (hk : k ∈ lin.map Prod.fst) :
    ∃ i p o, st.calls[k]? = some (i, p) ∧ p.effect = some o := by
  obtain ⟨⟨_, i, o⟩, hmem, rfl⟩ := List.mem_map.mp hk
  obtain ⟨p, hc, heffect⟩ := (h.effect _ i o).mp hmem
  exact ⟨i, p, o, hc, heffect⟩

theorem effect_of_answer {o : ο} (h : p.answer = some o) : p.effect = some o := by
  cases p with
  | returned o' => exact h
  | _ => cases h

/-- A call takes effect when it gives the lock back. -/
theorem Recorded.commit (h : Recorded st hist lin) {o : ο}
    (hc : st.calls[k]? = some (i, .leaving o)) (lock : RWMutex) (s' : σ) :
    Recorded ⟨lock, s', st.calls.set k (i, .left o)⟩ hist (lin ++ [(k, i, o)]) := by
  have hsame : (CallPhase.left o : CallPhase ℓ ο).answer =
      (CallPhase.leaving o : CallPhase ℓ ο).answer := rfl
  have hnew : k ∉ lin.map Prod.fst := by
    intro hk
    obtain ⟨i', p', o', hc', heffect⟩ := h.exists_of_mem hk
    rw [hc, Option.some.injEq, Prod.mk.injEq] at hc'
    rw [← hc'.2] at heffect
    cases heffect
  exact
    { inv := fun j i' => (h.inv j i').trans (exists_set_iff hc j i').symm
      res := fun j o' => (h.res j o').trans
        (exists_congr fun i' => (exists_answer_set_iff hc hsame j i' o').symm)
      effect := by
        intro j i' o'
        rw [List.mem_append, List.mem_singleton, h.effect]
        by_cases hj : j = k
        · subst hj
          rw [List.getElem?_set_self (List.getElem?_eq_some_iff.mp hc).1, hc]
          simp only [Option.some.injEq, Prod.mk.injEq, true_and]
          constructor
          · rintro (⟨p, ⟨-, rfl⟩, heffect⟩ | ⟨rfl, rfl⟩)
            · cases heffect
            · exact ⟨.left o', ⟨rfl, rfl⟩, rfl⟩
          · rintro ⟨p, ⟨rfl, rfl⟩, heffect⟩
            exact Or.inr ⟨rfl, (Option.some.inj heffect).symm⟩
        · rw [List.getElem?_set_ne (Ne.symm hj)]
          simp [hj]
      nodup := by
        rw [List.map_append, List.nodup_append]
        refine ⟨h.nodup, List.pairwise_singleton _ _, ?_⟩
        intro j hj j' hj' heq
        obtain rfl : j = k := heq.trans (List.mem_singleton.mp hj')
        exact hnew hj
      realTime := by
        intro j o' j' i' hsub hj'
        rw [List.map_append, List.mem_append] at hj'
        rw [List.map_append]
        rcases hj' with hj' | hj'
        · exact (h.realTime j o' j' i' hsub hj').trans (List.sublist_append_left _ _)
        · rw [List.mem_singleton.mp hj']
          obtain ⟨i₀, p₀, hc₀, hanswer⟩ := (h.res j o').mp (hsub.subset List.mem_cons_self)
          have hmem := h.mem_of_effect hc₀ (effect_of_answer hanswer)
          exact (List.singleton_sublist.mpr hmem).append (List.Sublist.refl [k]) }

/-- The client sees the result. -/
theorem Recorded.answer (h : Recorded st hist lin) {o : ο}
    (hc : st.calls[k]? = some (i, .left o)) (lock : RWMutex) (s' : σ) :
    Recorded ⟨lock, s', st.calls.set k (i, .returned o)⟩ (hist ++ [.res k o]) lin where
  inv j i' := by
    rw [List.mem_append, h.inv, exists_set_iff hc]
    simp
  res j o' := by
    rw [List.mem_append, List.mem_singleton, h.res]
    by_cases hj : j = k
    · subst hj
      rw [List.getElem?_set_self (List.getElem?_eq_some_iff.mp hc).1, hc]
      simp only [Option.some.injEq, Prod.mk.injEq, CallEvent.res.injEq, true_and]
      constructor
      · rintro (⟨i', p, ⟨-, rfl⟩, hanswer⟩ | rfl)
        · cases hanswer
        · exact ⟨i, .returned o', ⟨rfl, rfl⟩, rfl⟩
      · rintro ⟨i', p, ⟨rfl, rfl⟩, hanswer⟩
        exact Or.inr (Option.some.inj hanswer).symm
    · rw [List.getElem?_set_ne (Ne.symm hj)]
      simp [hj]
  effect j i' o' := by
    have hsame : (CallPhase.returned o : CallPhase ℓ ο).effect =
        (CallPhase.left o : CallPhase ℓ ο).effect := rfl
    exact (h.effect j i' o').trans (exists_answer_set_iff hc hsame j i' o').symm
  nodup := h.nodup
  realTime j o' j' i' hsub hj' := by
    refine h.realTime j o' j' i' (sublist_of_concat hsub ?_) hj'
    intro heq
    cases heq

/-- A call is made. -/
theorem Recorded.invoke (h : Recorded st hist lin) (i : ι) :
    Recorded { st with calls := st.calls ++ [(i, .called)] }
      (hist ++ [.inv st.calls.length i]) lin := by
  have hnew : ∀ {j i' q}, (st.calls ++ [(i, CallPhase.called)])[j]? = some (i', q) →
      st.calls[j]? = some (i', q) ∨ j = st.calls.length ∧ i' = i ∧ q = .called := by
    intro j i' q hj
    rcases Nat.lt_or_ge j st.calls.length with hlt | hge
    · rw [List.getElem?_append_left hlt] at hj
      exact Or.inl hj
    · have hlen := (List.getElem?_eq_some_iff.mp hj).1
      rw [List.length_append, List.length_singleton] at hlen
      rw [List.getElem?_append_right hge] at hj
      have heq := List.mem_singleton.mp (List.mem_of_getElem? hj)
      cases heq
      exact Or.inr ⟨by omega, rfl, rfl⟩
  have hold : ∀ {j i' q}, st.calls[j]? = some (i', q) →
      (st.calls ++ [(i, CallPhase.called)])[j]? = some (i', q) := fun hj =>
    (List.getElem?_append_left (List.getElem?_eq_some_iff.mp hj).1).trans hj
  exact
    { inv := by
        intro j i'
        rw [List.mem_append, List.mem_singleton, h.inv]
        constructor
        · rintro (⟨q, hj⟩ | heq)
          · exact ⟨q, hold hj⟩
          · cases heq
            exact ⟨.called, List.getElem?_concat_length⟩
        · rintro ⟨q, hj⟩
          rcases hnew hj with hj | ⟨rfl, rfl, rfl⟩
          · exact Or.inl ⟨q, hj⟩
          · exact Or.inr rfl
      res := by
        intro j o
        rw [List.mem_append, List.mem_singleton, h.res]
        constructor
        · rintro (⟨i', q, hj, hanswer⟩ | heq)
          · exact ⟨i', q, hold hj, hanswer⟩
          · cases heq
        · rintro ⟨i', q, hj, hanswer⟩
          rcases hnew hj with hj | ⟨rfl, rfl, rfl⟩
          · exact Or.inl ⟨i', q, hj, hanswer⟩
          · cases hanswer
      effect := by
        intro j i' o
        rw [h.effect]
        constructor
        · rintro ⟨q, hj, heffect⟩
          exact ⟨q, hold hj, heffect⟩
        · rintro ⟨q, hj, heffect⟩
          rcases hnew hj with hj | ⟨rfl, rfl, rfl⟩
          · exact ⟨q, hj, heffect⟩
          · cases heffect
      nodup := h.nodup
      realTime := by
        intro j o j' i' hsub hj'
        refine h.realTime j o j' i' (sublist_of_concat hsub ?_) hj'
        intro heq
        cases heq
        obtain ⟨i₀, p₀, o₀, hc, -⟩ := h.exists_of_mem hj'
        exact absurd (List.getElem?_eq_some_iff.mp hc).1 (Nat.lt_irrefl _) }

theorem Recorded.run {lock : RWMutex} {s' : σ} (h : Recorded st hist lin)
    (hc : st.calls[k]? = some (i, p)) (hmoves : Moves M st k i p lock s' p') :
    Recorded ⟨lock, s', st.calls.set k (i, p')⟩ (answers k hist p) (effects k i lin p) := by
  cases hmoves with
  | unlock => exact h.commit hc _ _
  | rUnlock => exact h.commit hc _ _
  | answer => exact h.answer hc _ _
  | _ =>
      apply h.quiet hc
      · rfl
      · rfl

/-! ## Every history is linearizable -/

/-- The lock, the state and the history go together. -/
structure Sound (M : Methods σ ℓ ι ο) (s₀ : σ) (st : Protected σ ℓ ι ο)
    (hist : List (CallEvent ι ο)) (lin : List (ℕ × ι × ο)) : Prop where
  locked : Locked M st
  consistent : ∃ s, Consistent M s₀ st lin s
  recorded : Recorded st hist lin

theorem Sound.step {a : ProtectedAction ι} (h : Sound M s₀ st hist lin)
    (hnext : M.next st a = some st') :
    Sound M s₀ st' (record st a (hist, lin)).1 (record st a (hist, lin)).2 := by
  obtain ⟨s, hs⟩ := h.consistent
  rcases next_cases hnext with ⟨i, rfl, rfl⟩ | ⟨k, i, p, lock, s', p', rfl, hc, hmoves, rfl⟩
  · exact ⟨h.locked.invoke i, ⟨s, hs.invoke i⟩, h.recorded.invoke i⟩
  · rw [record_run hc]
    exact ⟨h.locked.run hc hmoves, hs.run h.locked hc hmoves, h.recorded.run hc hmoves⟩

theorem sound_of_reachable (h : (M.traced s₀).Reachable (st, hist, lin)) :
    Sound M s₀ st hist lin := by
  suffices hall : ∀ s, (M.traced s₀).Reachable s → Sound M s₀ s.1 s.2.1 s.2.2 from hall _ h
  intro s hs
  apply hs.invariant (I := fun s => Sound M s₀ s.1 s.2.1 s.2.2)
  · refine ⟨⟨RWMutex.agrees_new _, fun _ hc => absurd hc List.not_mem_nil⟩, ⟨s₀, ?_⟩, ?_⟩
    · exact ⟨.nil, fun _ => rfl, fun _ hc => absurd hc List.not_mem_nil,
        fun _ hc => absurd hc List.not_mem_nil⟩
    · exact
        { inv := fun k i => by simp [traced, system, TransitionSystem.withHistory]
          res := fun k o => by simp [traced, system, TransitionSystem.withHistory]
          effect := fun k i o => by simp [traced, system, TransitionSystem.withHistory]
          nodup := List.nodup_nil
          realTime := fun _ _ _ _ _ hk => absurd hk List.not_mem_nil }
  · intro s s' a _ hsound _ hnext
    obtain ⟨hstep, hrecord⟩ := TransitionSystem.withHistory_next.mp hnext
    rw [hrecord]
    exact hsound.step hstep

/-- The calls of every run are linearizable, in the order in which they have given the lock
back. -/
theorem linearizes (h : (M.traced s₀).Reachable (st, hist, lin)) :
    Linearizes M.Body s₀ hist lin := by
  have hsound := sound_of_reachable h
  have hrecorded := hsound.recorded
  obtain ⟨s, hs⟩ := hsound.consistent
  exact
    { legal := ⟨s, hs.legal⟩
      nodup := hrecorded.nodup
      invoked := by
        rintro ⟨k, i, o⟩ he
        obtain ⟨p, hc, -⟩ := (hrecorded.effect k i o).mp he
        exact (hrecorded.inv k i).mpr ⟨p, hc⟩
      returned := by
        intro k o hres
        obtain ⟨i, p, hc, hanswer⟩ := (hrecorded.res k o).mp hres
        exact ⟨i, (hrecorded.effect k i o).mpr ⟨p, hc, effect_of_answer hanswer⟩⟩
      realTime := hrecorded.realTime }

end

end Methods

end Minotor
