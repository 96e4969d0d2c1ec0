import Minotor.Support.TransitionSystem
import Mathlib.Data.List.AList
import Mathlib.Data.List.Range

/-!
# The rumors handler

The rumor layer of a node, from `rumorsHandler.go`.  Go maps are finite maps
and a missing key reads as the zero value; a range over a map is a fold over
its keys in an order which the caller of the model chooses.  Addresses and
embedded messages are arbitrary types, unsigned counters are natural numbers.

`processRumors` gives up the lock around the handler of every rumor it accepts.
The model cuts it into its sections under the lock.
-/

namespace Minotor.Gossip

variable {P M : Type*}

/-- `types.Rumor`. -/
structure Rumor (P M : Type*) where
  origin : P
  sequence : ℕ
  msg : M
deriving DecidableEq, Repr

/-- `sequenceMap`, also the content of a `types.StatusMessage`. -/
abbrev SequenceMap (P : Type*) := AList fun _ : P => ℕ

/-- `rumors`. -/
abbrev RumorMap (P M : Type*) := AList fun _ : P => List (Rumor P M)

/-- `rumorsHandler`. -/
structure RumorsHandler (P M : Type*) where
  sequenceMap : SequenceMap P
  rumors : RumorMap P M

/-- Where a call of `processRumors` stands when it gives up the lock. -/
inductive ProcessRumors (P M : Type*) where
  /-- the handler of an accepted rumor runs -/
  | handling (rumor : Rumor P M) (rest : List (Rumor P M))
  | returned (processedRumor : Bool)

/-- `r[k:]`; `none` is the panic of an index out of range. -/
def sliceFrom {α : Type*} (r : List α) (k : ℕ) : Option (List α) :=
  if k ≤ r.length then some (r.drop k) else none

variable [DecidableEq P]

namespace SequenceMap

/-- `sequenceMap[o]`. -/
def get (sm : SequenceMap P) (o : P) : ℕ := (sm.lookup o).getD 0

@[simp] theorem get_empty (o : P) : get (∅ : SequenceMap P) o = 0 := rfl

@[simp] theorem get_insert_self (sm : SequenceMap P) (o : P) (n : ℕ) :
    get (sm.insert o n) o = n := by
  simp [get]

theorem get_insert_ne (sm : SequenceMap P) {o o' : P} (n : ℕ) (h : o' ≠ o) :
    get (sm.insert o n) o' = get sm o' := by
  simp [get, AList.lookup_insert_ne h]

end SequenceMap

namespace RumorMap

/-- `rumors[o]`. -/
def get (rs : RumorMap P M) (o : P) : List (Rumor P M) := (rs.lookup o).getD []

@[simp] theorem get_empty (o : P) : get (∅ : RumorMap P M) o = [] := rfl

@[simp] theorem get_insert_self (rs : RumorMap P M) (o : P) (l : List (Rumor P M)) :
    get (rs.insert o l) o = l := by
  simp [get]

theorem get_insert_ne (rs : RumorMap P M) {o o' : P} (l : List (Rumor P M)) (h : o' ≠ o) :
    get (rs.insert o l) o' = get rs o' := by
  simp [get, AList.lookup_insert_ne h]

end RumorMap

namespace RumorsHandler

/-- `newRumorsHandler`. -/
def new : RumorsHandler P M := ⟨∅, ∅⟩

/-- The sequence map and the rumors map after a rumor. -/
def put (rH : RumorsHandler P M) (m : Rumor P M) : RumorsHandler P M where
  sequenceMap := rH.sequenceMap.insert m.origin m.sequence
  rumors := rH.rumors.insert m.origin (rH.rumors.get m.origin ++ [m])

/-- `createRumorsMsg`, with the rumors of the message it returns. -/
def createRumorsMsg (rH : RumorsHandler P M) (origin : P) (msg : M) :
    List (Rumor P M) × RumorsHandler P M :=
  let rumor := { origin, sequence := rH.sequenceMap.get origin + 1, msg }
  ([rumor], rH.put rumor)

/-- `getSequenceMap`. -/
def getSequenceMap (rH : RumorsHandler P M) : SequenceMap P := rH.sequenceMap

/-- `m` is the rumor of its origin which comes next. -/
def IsNext (rH : RumorsHandler P M) (m : Rumor P M) : Prop :=
  m.sequence = rH.sequenceMap.get m.origin + 1

instance (rH : RumorsHandler P M) (m : Rumor P M) : Decidable (rH.IsNext m) :=
  inferInstanceAs (Decidable (_ = _))

/-- The loop of `processRumors` from one acquisition of the lock to its
release: up to the next rumor it accepts, or to its end. -/
def processRumors (rH : RumorsHandler P M) (processedRumor : Bool) :
    List (Rumor P M) → ProcessRumors P M × RumorsHandler P M
  | [] => (.returned processedRumor, rH)
  | m :: rest =>
      if rH.IsNext m then (.handling m rest, rH.put m)
      else rH.processRumors processedRumor rest

/-- `isLocalMissingRumors`. -/
def isLocalMissingRumors (rH : RumorsHandler P M) (sequenceMap : SequenceMap P) : Bool :=
  sequenceMap.entries.any fun ⟨a, s⟩ =>
    match rH.sequenceMap.lookup a with
    | none => true
    | some sequence => sequence < s

/-- `getRemoteMissingRumors`, with the order in which the keys of the rumors
map are visited.  `none` is a panic. -/
def getRemoteMissingRumors (rH : RumorsHandler P M) (sequenceMap : SequenceMap P) :
    List P → Option (List (Rumor P M))
  | [] => some []
  | a :: rest =>
      if sequenceMap.get a < rH.sequenceMap.get a then
        sliceFrom (rH.rumors.get a) (sequenceMap.get a)
      else rH.getRemoteMissingRumors sequenceMap rest

variable {rH : RumorsHandler P M} {m : Rumor P M} {o : P}

@[simp] theorem createRumorsMsg_snd (rH : RumorsHandler P M) (origin : P) (msg : M) :
    (rH.createRumorsMsg origin msg).2 =
      rH.put ⟨origin, rH.sequenceMap.get origin + 1, msg⟩ := rfl

theorem put_sequence (rH : RumorsHandler P M) (m : Rumor P M) (o : P) :
    (rH.put m).sequenceMap.get o =
      if o = m.origin then m.sequence else rH.sequenceMap.get o := by
  unfold put
  split
  · next h => rw [h, SequenceMap.get_insert_self]
  · next h => exact SequenceMap.get_insert_ne _ _ h

theorem put_rumors (rH : RumorsHandler P M) (m : Rumor P M) (o : P) :
    (rH.put m).rumors.get o =
      if o = m.origin then rH.rumors.get m.origin ++ [m] else rH.rumors.get o := by
  unfold put
  split
  · next h => rw [h, RumorMap.get_insert_self]
  · next h => exact RumorMap.get_insert_ne _ _ h

theorem IsNext.sequence_le (h : rH.IsNext m) (o : P) :
    rH.sequenceMap.get o ≤ (rH.put m).sequenceMap.get o := by
  rw [put_sequence]
  split
  · next ho =>
      rw [ho, h]
      exact Nat.le_succ _
  · exact le_rfl

/-- A section of `processRumors` accepts the first rumor which is next and
skips the ones before it, or it comes to the end. -/
theorem processRumors_cases (rH : RumorsHandler P M) (processedRumor : Bool)
    (rumors : List (Rumor P M)) :
    (∃ skipped m rest, rumors = skipped ++ m :: rest ∧ (∀ r ∈ skipped, ¬ rH.IsNext r) ∧
      rH.IsNext m ∧
      rH.processRumors processedRumor rumors = (.handling m rest, rH.put m)) ∨
    (∀ r ∈ rumors, ¬ rH.IsNext r) ∧
      rH.processRumors processedRumor rumors = (.returned processedRumor, rH) := by
  induction rumors with
  | nil =>
      right
      constructor
      · intro r hr
        exact absurd hr List.not_mem_nil
      · rfl
  | cons r rumors ih =>
      by_cases hnext : rH.IsNext r
      · left
        refine ⟨[], r, rumors, rfl, ?_, hnext, if_pos hnext⟩
        intro r hr
        exact absurd hr List.not_mem_nil
      · have hrun : rH.processRumors processedRumor (r :: rumors) =
            rH.processRumors processedRumor rumors := if_neg hnext
        rw [hrun]
        rcases ih with ⟨skipped, m, rest, rfl, hskip, hm, heq⟩ | ⟨hskip, heq⟩
        · left
          refine ⟨r :: skipped, m, rest, rfl, ?_, hm, heq⟩
          intro s hs
          rcases List.mem_cons.mp hs with rfl | hs
          · exact hnext
          · exact hskip s hs
        · right
          refine ⟨?_, heq⟩
          intro s hs
          rcases List.mem_cons.mp hs with rfl | hs
          · exact hnext
          · exact hskip s hs

/-! ## The invariant of the two maps -/

/-- The sequence numbers of an origin count its rumors, which are in order. -/
def InOrder (rH : RumorsHandler P M) : Prop :=
  ∀ o, (rH.rumors.get o).map (fun r => (r.origin, r.sequence)) =
    (List.range' 1 (rH.sequenceMap.get o)).map fun s => (o, s)

theorem inOrder_new : (new : RumorsHandler P M).InOrder := fun _ => rfl

/-- Accepting the rumor that comes next keeps the order. -/
theorem InOrder.put (h : rH.InOrder) (hm : rH.IsNext m) : (rH.put m).InOrder := by
  intro o
  rw [put_rumors, put_sequence]
  by_cases ho : o = m.origin
  · subst ho
    rw [if_pos rfl, if_pos rfl, List.map_append, h m.origin, hm, List.range'_1_concat,
      List.map_append, List.map_singleton, List.map_singleton, hm, Nat.add_comm]
  · rw [if_neg ho, if_neg ho]
    exact h o

theorem InOrder.createRumorsMsg (h : rH.InOrder) (origin : P) (msg : M) :
    (rH.createRumorsMsg origin msg).2.InOrder :=
  h.put (m := ⟨origin, _, msg⟩) rfl

theorem InOrder.length (h : rH.InOrder) (o : P) :
    (rH.rumors.get o).length = rH.sequenceMap.get o := by
  have hlen := congrArg List.length (h o)
  rwa [List.length_map, List.length_map, List.length_range'] at hlen

/-- The rumor at a place of the list of an origin. -/
theorem InOrder.getElem? (h : rH.InOrder) {i : ℕ} (hr : (rH.rumors.get o)[i]? = some m) :
    m.origin = o ∧ m.sequence = i + 1 := by
  have hi : i < rH.sequenceMap.get o := by
    rw [← h.length o]
    exact (List.getElem?_eq_some_iff.mp hr).1
  have hget := congrArg (·[i]?) (h o)
  simp only [List.getElem?_map, hr, List.getElem?_range' hi, Option.map_some,
    Option.some.injEq, Prod.mk.injEq] at hget
  constructor
  · exact hget.1
  · omega

/-- No slice is out of range. -/
theorem InOrder.getRemoteMissingRumors_isSome (h : rH.InOrder) (sm : SequenceMap P)
    (order : List P) : (rH.getRemoteMissingRumors sm order).isSome := by
  induction order with
  | nil => rfl
  | cons a rest ih =>
      unfold RumorsHandler.getRemoteMissingRumors
      by_cases hlt : sm.get a < rH.sequenceMap.get a
      · rw [if_pos hlt, sliceFrom, if_pos]
        · rfl
        · rw [h.length a]
          exact hlt.le
      · rw [if_neg hlt]
        exact ih

end RumorsHandler

/-! ## Calls of the rumors handler

One node creates rumors and processes messages, in any order.  While the
handler of an accepted rumor runs, it may create rumors and call
`processRumors` again; such calls are stacked. -/

/-- A rumors handler with the calls of `processRumors` that are open. -/
structure RumorStore (P M : Type*) where
  handler : RumorsHandler P M
  /-- of every call in a handler, innermost first, the rumors which it has not
  looked at -/
  calls : List (List (Rumor P M))
  /-- what `processRumors` has handed to the registry, oldest first -/
  handed : List (Rumor P M)

inductive RumorAction (P M : Type*) where
  | createRumorsMsg (msg : M)
  | processRumors (rumors : List (Rumor P M))
  /-- the innermost handler returns, with an error or without -/
  | handlerReturns (err : Bool)
deriving DecidableEq

namespace RumorStore

/-- The innermost call takes the lock and runs until it gives it up. -/
def enter (st : RumorStore P M) (outer : List (List (Rumor P M)))
    (processedRumor : Bool) (rumors : List (Rumor P M)) : RumorStore P M :=
  match st.handler.processRumors processedRumor rumors with
  | (.handling m rest, rH) => ⟨rH, rest :: outer, st.handed ++ [m]⟩
  | (.returned _, rH) => ⟨rH, outer, st.handed⟩

/-- One action of a node with address `myAddr`. -/
def next (myAddr : P) (st : RumorStore P M) : RumorAction P M → Option (RumorStore P M)
  | .createRumorsMsg msg =>
      some { st with handler := (st.handler.createRumorsMsg myAddr msg).2 }
  | .processRumors rumors => some (st.enter st.calls false rumors)
  | .handlerReturns err =>
      match st.calls with
      | [] => none
      | rest :: outer =>
          if err then some { st with calls := outer } else some (st.enter outer true rest)

end RumorStore

/-- The calls of the rumors handler of the node `myAddr`. -/
def rumorStore (myAddr : P) : TransitionSystem (RumorStore P M) (RumorAction P M) where
  init := ⟨.new, [], []⟩
  next := RumorStore.next myAddr

namespace RumorStore

/-- The maps are in order, and every rumor of another origin that was stored
was handed to the registry when it was stored. -/
structure Sound (myAddr : P) (st : RumorStore P M) : Prop where
  inOrder : st.handler.InOrder
  handed : ∀ o, o ≠ myAddr → st.handed.filter (·.origin = o) = st.handler.rumors.get o

variable {myAddr : P} {st st' : RumorStore P M}

theorem Sound.enter (h : st.Sound myAddr) (outer : List (List (Rumor P M)))
    (processedRumor : Bool) (rumors : List (Rumor P M)) :
    (st.enter outer processedRumor rumors).Sound myAddr := by
  unfold RumorStore.enter
  rcases st.handler.processRumors_cases processedRumor rumors with
    ⟨_, m, rest, _, _, hm, heq⟩ | ⟨_, heq⟩
  · rw [heq]
    constructor
    · exact h.inOrder.put hm
    · intro o ho
      simp only [List.filter_append, h.handed o ho, RumorsHandler.put_rumors]
      by_cases hmo : o = m.origin
      · rw [if_pos hmo, ← hmo, List.filter_singleton, decide_eq_true hmo.symm, cond_true]
      · rw [if_neg hmo, List.filter_singleton, decide_eq_false (Ne.symm hmo), cond_false,
          List.append_nil]
  · rw [heq]
    exact ⟨h.inOrder, h.handed⟩

theorem Sound.createRumorsMsg (h : st.Sound myAddr) (msg : M) :
    Sound myAddr { st with handler := (st.handler.createRumorsMsg myAddr msg).2 } where
  inOrder := h.inOrder.createRumorsMsg myAddr msg
  handed o ho := by
    rw [h.handed o ho, RumorsHandler.createRumorsMsg_snd, RumorsHandler.put_rumors, if_neg ho]

theorem Sound.next (h : st.Sound myAddr) {a : RumorAction P M}
    (hnext : st.next myAddr a = some st') : st'.Sound myAddr := by
  cases a with
  | createRumorsMsg msg =>
      obtain rfl := Option.some.inj hnext
      exact h.createRumorsMsg msg
  | processRumors rumors =>
      obtain rfl := Option.some.inj hnext
      exact h.enter st.calls false rumors
  | handlerReturns err =>
      simp only [RumorStore.next] at hnext
      split at hnext
      · cases hnext
      · next rest outer _ =>
          split at hnext
          · obtain rfl := Option.some.inj hnext
            exact ⟨h.inOrder, h.handed⟩
          · obtain rfl := Option.some.inj hnext
            exact h.enter outer true rest

/-- An action stores at most one rumor, which comes next. -/
theorem handler_next {a : RumorAction P M} (hnext : st.next myAddr a = some st') :
    st'.handler = st.handler ∨ ∃ m, st.handler.IsNext m ∧ st'.handler = st.handler.put m := by
  have henter : ∀ outer processedRumor rumors,
      (st.enter outer processedRumor rumors).handler = st.handler ∨
        ∃ m, st.handler.IsNext m ∧
          (st.enter outer processedRumor rumors).handler = st.handler.put m := by
    intro outer processedRumor rumors
    unfold RumorStore.enter
    rcases st.handler.processRumors_cases processedRumor rumors with
      ⟨_, m, _, _, _, hm, heq⟩ | ⟨_, heq⟩
    · rw [heq]
      exact .inr ⟨m, hm, rfl⟩
    · rw [heq]
      exact .inl rfl
  cases a with
  | createRumorsMsg msg =>
      obtain rfl := Option.some.inj hnext
      have hm : st.handler.IsNext
          ⟨myAddr, st.handler.sequenceMap.get myAddr + 1, msg⟩ := rfl
      exact .inr ⟨_, hm, rfl⟩
  | processRumors rumors =>
      obtain rfl := Option.some.inj hnext
      exact henter st.calls false rumors
  | handlerReturns err =>
      simp only [RumorStore.next] at hnext
      split at hnext
      · cases hnext
      · next rest outer _ =>
          split at hnext
          · obtain rfl := Option.some.inj hnext
            exact .inl rfl
          · obtain rfl := Option.some.inj hnext
            exact henter outer true rest

/-- What storing the next rumor preserves holds of every reachable handler. -/
theorem handler_of_reachable {I : RumorsHandler P M → Prop} (hnew : I .new)
    (hput : ∀ rH m, I rH → rH.IsNext m → I (rH.put m))
    (h : (rumorStore myAddr).Reachable st) : I st.handler := by
  apply h.invariant (I := fun st => I st.handler)
  · exact hnew
  · intro st st' a _ hst _ hnext
    rcases handler_next hnext with heq | ⟨m, hm, heq⟩
    · rw [heq]
      exact hst
    · rw [heq]
      exact hput _ m hst hm

theorem sound_of_reachable (h : (rumorStore myAddr).Reachable st) : st.Sound myAddr := by
  apply h.invariant
  · exact ⟨RumorsHandler.inOrder_new, fun _ _ => rfl⟩
  · intro st st' a _ hst _ hnext
    exact hst.next hnext

end RumorStore

/-- Of every origin the rumors map holds the rumors 1, 2, ... up to the entry
of the sequence map, the rumors of every other node are handed to the registry
in this order, each once, and no slice of the rumors map is out of range. -/
theorem rumors_in_order {myAddr : P} {st : RumorStore P M}
    (h : (rumorStore myAddr).Reachable st) (o : P) :
    (st.handler.rumors.get o).map (fun r => (r.origin, r.sequence)) =
        (List.range' 1 (st.handler.sequenceMap.get o)).map (fun s => (o, s)) ∧
      (o ≠ myAddr → (st.handed.filter (·.origin = o)).map (·.sequence) =
        List.range' 1 (st.handler.sequenceMap.get o)) ∧
      ∀ sm order, (st.handler.getRemoteMissingRumors sm order).isSome := by
  have hsound := RumorStore.sound_of_reachable h
  refine ⟨hsound.inOrder o, ?_, hsound.inOrder.getRemoteMissingRumors_isSome⟩
  intro ho
  rw [hsound.handed o ho]
  have hseq := congrArg (List.map Prod.snd) (hsound.inOrder o)
  simpa only [List.map_map, Function.comp_def, List.map_id'] using hseq

/-- The handler of rumor 1 processes rumor 2 itself and creates a rumor, the
handler of rumor 2 fails, and the first message repeats rumor 2 and has a gap. -/
theorem rumors_in_order_of_reentry :
    ∃ st, (rumorStore (P := Fin 2) (M := Unit) 0).Reachable st ∧ 1 ≠ (0 : Fin 2) ∧
      (st.handed.filter (·.origin = 1)).map (·.sequence) = [1, 2] := by
  obtain ⟨st, hst, hseq⟩ := TransitionSystem.exists_of_replay
    (S := rumorStore (P := Fin 2) (M := Unit) 0) (fun _ _ => True)
    [.processRumors [⟨1, 1, ()⟩, ⟨1, 2, ()⟩, ⟨1, 4, ()⟩],
      .processRumors [⟨1, 2, ()⟩, ⟨1, 1, ()⟩], .createRumorsMsg (), .handlerReturns true,
      .handlerReturns false]
    (fun st => st.handler.sequenceMap.get 1 = 2) (by decide)
  refine ⟨st, hst, by decide, ?_⟩
  rw [(rumors_in_order hst 1).2.1 (by decide), hseq]
  rfl

end Minotor.Gossip
