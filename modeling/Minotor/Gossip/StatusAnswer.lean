import Minotor.Gossip.Steps
import Mathlib.Data.Set.Subsingleton

/-!
# The answer to a status message

`ExecStatusMessage` answers a status with the rumors which the remote node is
missing.  `getRemoteMissingRumors` looks for them origin by origin and returns
those of the first origin for which it finds any.
-/

namespace Minotor.Gossip

variable {P M : Type*} [DecidableEq P]

namespace RumorsHandler

/-- The remote node lags behind on the rumors of `o`. -/
def Lags (rH : RumorsHandler P M) (remote : SequenceMap P) (o : P) : Prop :=
  remote.get o < rH.sequenceMap.get o

/-- The answer has every rumor which the remote node is missing, those of one
origin once and in increasing order. -/
structure CompleteAnswer (rH : RumorsHandler P M) (remote : SequenceMap P)
    (answer : List (Rumor P M)) : Prop where
  mem_iff : ∀ r, r ∈ answer ↔
    r ∈ rH.rumors.get r.origin ∧ remote.get r.origin < r.sequence
  increasing : ∀ o,
    (answer.filter (·.origin = o)).Pairwise fun r s => r.sequence < s.sequence

variable {rH : RumorsHandler P M} {remote : SequenceMap P} {o : P} {r : Rumor P M}

theorem InOrder.pairwise (h : rH.InOrder) (o : P) :
    (rH.rumors.get o).Pairwise fun r s => r.sequence < s.sequence := by
  have hseq : (rH.rumors.get o).map (·.sequence) =
      List.range' 1 (rH.sequenceMap.get o) := by
    have hmap := congrArg (List.map Prod.snd) (h o)
    simpa only [List.map_map, Function.comp_def, List.map_id'] using hmap
  have hrange := List.pairwise_lt_range' (s := 1) (n := rH.sequenceMap.get o)
  rw [← hseq, List.pairwise_map] at hrange
  exact hrange

/-- What is left of the rumors of an origin after the first `k` are those with a
larger sequence number. -/
theorem InOrder.mem_drop (h : rH.InOrder) (k : ℕ) :
    r ∈ (rH.rumors.get o).drop k ↔ r ∈ rH.rumors.get o ∧ k < r.sequence := by
  constructor
  · intro hr
    obtain ⟨i, hi⟩ := List.mem_iff_getElem?.mp hr
    rw [List.getElem?_drop] at hi
    have hsequence := (h.getElem? hi).2
    exact ⟨List.mem_of_getElem? hi, by omega⟩
  · rintro ⟨hr, hk⟩
    obtain ⟨i, hi⟩ := List.mem_iff_getElem?.mp hr
    have hsequence := (h.getElem? hi).2
    have hik : k + (i - k) = i := by omega
    apply List.mem_iff_getElem?.mpr
    exact ⟨i - k, by rw [List.getElem?_drop, hik, hi]⟩

/-- A remote node which lags behind on an origin is missing a rumor of it. -/
theorem InOrder.exists_missing (h : rH.InOrder) (ho : rH.Lags remote o) :
    ∃ r ∈ rH.rumors.get o, r.origin = o ∧ remote.get o < r.sequence := by
  have hlen := h.length o
  have hlt : remote.get o < (rH.rumors.get o).length := by
    rw [hlen]
    exact ho
  have hget := List.getElem?_eq_getElem hlt
  obtain ⟨horigin, hsequence⟩ := h.getElem? hget
  exact ⟨_, List.getElem_mem hlt, horigin, by omega⟩

/-- A missing rumor belongs to an origin on which the remote node lags behind. -/
theorem InOrder.lags (h : rH.InOrder) (hr : r ∈ rH.rumors.get o)
    (hmissing : remote.get o < r.sequence) : rH.Lags remote o := by
  obtain ⟨_, _, hle⟩ := h.mem hr
  exact hmissing.trans_le hle

/-- An origin with rumors is a key of the rumors map. -/
theorem InOrder.mem_keys (h : rH.InOrder) (ho : rH.Lags remote o) : o ∈ rH.rumors.keys := by
  rw [← AList.mem_keys]
  by_contra hnot
  have hget : rH.rumors.get o = [] := by
    rw [RumorMap.get, AList.lookup_eq_none.mpr hnot, Option.getD_none]
  have hlen := h.length o
  rw [hget, List.length_nil] at hlen
  have hlt : remote.get o < rH.sequenceMap.get o := ho
  omega

/-- The missing rumors of one origin are a complete answer if the remote node
lags behind on no other. -/
theorem InOrder.completeAnswer_drop (h : rH.InOrder) (o : P)
    (honly : ∀ o', rH.Lags remote o' → o' = o) :
    rH.CompleteAnswer remote ((rH.rumors.get o).drop (remote.get o)) where
  mem_iff r := by
    rw [h.mem_drop]
    constructor
    · rintro ⟨hr, hmissing⟩
      obtain rfl := (h.mem hr).1
      exact ⟨hr, hmissing⟩
    · rintro ⟨hr, hmissing⟩
      obtain rfl := honly _ (h.lags hr hmissing)
      exact ⟨hr, hmissing⟩
  increasing o' := by
    have hsub := List.filter_sublist (p := fun r => r.origin = o')
      (l := (rH.rumors.get o).drop (remote.get o))
    exact (h.pairwise o).sublist (hsub.trans (List.drop_sublist _ _))

/-- The empty answer is complete if the remote node is missing nothing. -/
theorem InOrder.completeAnswer_nil (h : rH.InOrder) (hnone : ∀ o, ¬rH.Lags remote o) :
    rH.CompleteAnswer remote [] where
  mem_iff r := by
    constructor
    · intro hr
      exact absurd hr List.not_mem_nil
    · rintro ⟨hr, hmissing⟩
      exact absurd (h.lags hr hmissing) (hnone _)
  increasing o := List.Pairwise.nil

end RumorsHandler

/-- In every reachable state and for every order in which the rumors map is
visited, the answer to a status is complete exactly if the remote node lags
behind on one origin at most. -/
theorem status_answer_complete_iff {myAddr : P} {st : RumorStore P M}
    (h : (rumorStore myAddr).Reachable st) (remote : SequenceMap P) {order : List P}
    (horder : order.Perm st.handler.rumors.keys) :
    (∃ answer, st.handler.getRemoteMissingRumors remote order = some answer ∧
      st.handler.CompleteAnswer remote answer) ↔
      {o | st.handler.Lags remote o}.Subsingleton := by
  have hin := (RumorStore.sound_of_reachable h).inOrder
  obtain ⟨answer, hanswer⟩ := Option.isSome_iff_exists.mp
    (hin.getRemoteMissingRumors_isSome remote order)
  rw [hanswer]
  rcases hin.getRemoteMissingRumors_cases hanswer with ⟨o, hlags, rfl⟩ | ⟨rfl, hle⟩
  · constructor
    · rintro ⟨answer, heq, hcomplete⟩
      obtain rfl := Option.some.inj heq
      -- the answer has nothing of any other origin
      have honly : ∀ o', st.handler.Lags remote o' → o' = o := by
        intro o' ho'
        obtain ⟨r, hr, rfl, hmissing⟩ := hin.exists_missing ho'
        have hmem := (hcomplete.mem_iff r).mpr ⟨hr, hmissing⟩
        exact (hin.mem (List.mem_of_mem_drop hmem)).1
      intro a ha b hb
      exact (honly a ha).trans (honly b hb).symm
    · intro hone
      exact ⟨_, rfl, hin.completeAnswer_drop o fun o' ho' => hone ho' hlags⟩
  · have hnot : ∀ o, ¬st.handler.Lags remote o := by
      intro o ho
      have hvisited := horder.mem_iff.mpr (hin.mem_keys ho)
      exact absurd ho (Nat.not_lt.mpr (hle o hvisited))
    constructor
    · intro _ a ha
      exact absurd ha (hnot a)
    · intro _
      exact ⟨_, rfl, hin.completeAnswer_nil hnot⟩

/-- A node which has accepted the first rumors of the nodes 1 and 2. -/
def acceptsTwo : List (RumorAction ℕ Unit) :=
  [.processRumors [⟨1, 1, ()⟩, ⟨2, 1, ()⟩], .handlerReturns false, .handlerReturns false]

theorem status_answer_complete_iff_of_two :
    let remote : SequenceMap ℕ := AList.insert 1 1 ∅
    ∃ st, (rumorStore (P := ℕ) (M := Unit) 0).Reachable st ∧
      [1, 2].Perm st.handler.rumors.keys ∧
      ∃ answer, st.handler.getRemoteMissingRumors remote [1, 2] = some answer ∧
        st.handler.CompleteAnswer remote answer := by
  intro remote
  obtain ⟨st, hst, horder, honly⟩ := TransitionSystem.exists_of_replay
    (S := rumorStore (P := ℕ) (M := Unit) 0) (fun _ _ => True) acceptsTwo
    (fun st => [1, 2].Perm st.handler.rumors.keys ∧
      ∀ o ∈ [1, 2], remote.get o < st.handler.sequenceMap.get o → o = 2)
    (by decide)
  have hin := (RumorStore.sound_of_reachable hst).inOrder
  have htwo : ∀ o, st.handler.Lags remote o → o = 2 :=
    fun o ho => honly o (horder.mem_iff.mpr (hin.mem_keys ho)) ho
  refine ⟨st, hst, horder, (status_answer_complete_iff hst remote horder).mpr ?_⟩
  intro a ha b hb
  exact (htwo a ha).trans (htwo b hb).symm

/-- The answer to a node which has neither of them has only the first. -/
theorem status_answer_misses_origin :
    ∃ st, (rumorStore (P := ℕ) (M := Unit) 0).Reachable st ∧
      [1, 2].Perm st.handler.rumors.keys ∧
      ¬∃ answer, st.handler.getRemoteMissingRumors ∅ [1, 2] = some answer ∧
        st.handler.CompleteAnswer ∅ answer := by
  obtain ⟨st, hst, horder, hanswer, hmissing⟩ := TransitionSystem.exists_of_replay
    (S := rumorStore (P := ℕ) (M := Unit) 0) (fun _ _ => True) acceptsTwo
    (fun st => [1, 2].Perm st.handler.rumors.keys ∧
      st.handler.getRemoteMissingRumors ∅ [1, 2] = some [⟨1, 1, ()⟩] ∧
      ⟨2, 1, ()⟩ ∈ st.handler.rumors.get 2)
    (by decide)
  refine ⟨st, hst, horder, ?_⟩
  rintro ⟨answer, heq, hcomplete⟩
  obtain rfl := Option.some.inj (hanswer.symm.trans heq)
  have hmem := (hcomplete.mem_iff ⟨2, 1, ()⟩).mpr ⟨hmissing, Nat.one_pos⟩
  exact absurd hmem (by decide)

end Minotor.Gossip
