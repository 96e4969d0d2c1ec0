import Minotor.Support.TransitionSystem

/-!
# Runs over lists of actions

A property of the states of a run and a condition on its steps.  If a step from
a state with the property leads to one with the property exactly if it satisfies
the condition, then a whole run keeps the property exactly if all its steps
satisfy the condition.

A history variable records what happens in a run and takes no part in it.

A system refines another one if its steps are steps of the other one or cannot be seen there.
-/

namespace Minotor.TransitionSystem

variable {σ α : Type*}

/-- `I` holds in every state of the run over the actions from `s`. -/
def Always (S : TransitionSystem σ α) (I : σ → Prop) (s : σ) : List α → Prop
  | [] => I s
  | a :: acts => I s ∧ ∀ t, S.next s a = some t → S.Always I t acts

/-- `C` holds of every step of the run over the actions from `s`. -/
def Along (S : TransitionSystem σ α) (C : σ → α → Prop) (s : σ) : List α → Prop
  | [] => True
  | a :: acts => ∀ t, S.next s a = some t → C s a ∧ S.Along C t acts

variable {S : TransitionSystem σ α} {I : σ → Prop} {C : σ → α → Prop} {s : σ}
  {acts : List α}

theorem Always.head (h : S.Always I s acts) : I s := by
  cases acts with
  | nil => exact h
  | cons a acts => exact h.1

/-- The property holds in the state which a run leads to. -/
theorem Always.of_replay (h : S.Always I s acts) {t : σ}
    (ht : S.replay (fun _ _ => True) acts s = some t) : I t := by
  induction acts generalizing s with
  | nil =>
      rw [replay, Option.some.injEq] at ht
      exact ht ▸ h
  | cons a acts ih =>
      rw [replay, if_pos trivial, Option.bind_eq_some_iff] at ht
      obtain ⟨u, hnext, hrest⟩ := ht
      exact ih (h.2 u hnext) hrest

/-- The step rule for an exact condition. -/
theorem always_iff_along
    (hstep : ∀ s a t, S.Reachable s → I s → S.next s a = some t → (I t ↔ C s a))
    (hs : S.Reachable s) (hI : I s) : S.Always I s acts ↔ S.Along C s acts := by
  induction acts generalizing s with
  | nil => exact iff_of_true hI trivial
  | cons a acts ih =>
      constructor
      · rintro ⟨-, h⟩ t ht
        have hIt := (h t ht).head
        refine ⟨(hstep s a t hs hI ht).mp hIt, ?_⟩
        exact (ih (hs.step trivial ht) hIt).mp (h t ht)
      · intro h
        refine ⟨hI, fun t ht => ?_⟩
        obtain ⟨hC, halong⟩ := h t ht
        exact (ih (hs.step trivial ht) ((hstep s a t hs hI ht).mpr hC)).mpr halong

/-! ## History variables -/

variable {η : Type*}

/-- The system with a variable which starts as `h₀` and which `upd` changes in
every step. -/
def withHistory (S : TransitionSystem σ α) (h₀ : η) (upd : σ → α → η → η) :
    TransitionSystem (σ × η) α where
  init := (S.init, h₀)
  next s a := (S.next s.1 a).map fun t => (t, upd s.1 a s.2)

variable {h₀ : η} {upd : σ → α → η → η} {s' t' : σ × η} {a : α}

theorem withHistory_next :
    (S.withHistory h₀ upd).next s' a = some t' ↔
      S.next s'.1 a = some t'.1 ∧ t'.2 = upd s'.1 a s'.2 := by
  constructor
  · intro h
    obtain ⟨t, hnext, rfl⟩ := Option.map_eq_some_iff.mp h
    exact ⟨hnext, rfl⟩
  · rintro ⟨hnext, heq⟩
    exact Option.map_eq_some_iff.mpr ⟨t'.1, hnext, by rw [← heq]⟩

/-- Without the variable, a run is one of the system. -/
theorem ReachableUnder.of_history (h : (S.withHistory h₀ upd).Reachable s') :
    S.Reachable s'.1 := by
  induction h with
  | init => exact .init
  | step _ _ hnext ih => exact ih.step trivial (withHistory_next.mp hnext).1

/-- The same for guarded runs. -/
theorem ReachableUnder.forget {C : σ → α → Prop}
    (h : (S.withHistory h₀ upd).ReachableUnder (fun s a => C s.1 a) s') :
    S.ReachableUnder C s'.1 := by
  induction h with
  | init => exact .init
  | step _ hC hnext ih => exact ih.step hC (withHistory_next.mp hnext).1

/-- Every run has a history. -/
theorem ReachableUnder.exists_history {s : σ} (h : S.Reachable s) (h₀ : η)
    (upd : σ → α → η → η) : ∃ e, (S.withHistory h₀ upd).Reachable (s, e) := by
  induction h with
  | init => exact ⟨h₀, .init⟩
  | @step s t a _ _ hnext ih =>
      obtain ⟨e, he⟩ := ih
      exact ⟨upd s a e, he.step trivial (withHistory_next.mpr ⟨hnext, rfl⟩)⟩

/-! ## Refinement -/

/-- Refinement rule: if an invariant holds initially, and every guarded step keeps it and is,
seen through `abs`, a guarded step of `T` or none at all, then every guarded run is, seen
through `abs`, a guarded run of `T`. -/
theorem ReachableUnder.refines {τ β : Type*} {T : TransitionSystem τ β} {D : τ → β → Prop}
    (abs : σ → τ) (hinit : I S.init) (habs : abs S.init = T.init)
    (hstep : ∀ s s' a, I s → T.ReachableUnder D (abs s) → C s a → S.next s a = some s' →
      I s' ∧ (abs s' = abs s ∨ ∃ b, D (abs s) b ∧ T.next (abs s) b = some (abs s')))
    (h : S.ReachableUnder C s) : I s ∧ T.ReachableUnder D (abs s) := by
  induction h with
  | init => exact ⟨hinit, habs ▸ .init⟩
  | step _ hC hnext ih =>
      obtain ⟨hI, habs⟩ := hstep _ _ _ ih.1 ih.2 hC hnext
      refine ⟨hI, ?_⟩
      rcases habs with heq | ⟨b, hD, hb⟩
      · rw [heq]
        exact ih.2
      · exact ih.2.step hD hb

end Minotor.TransitionSystem
