import Mathlib.Algebra.Ring.Nat
import Mathlib.Data.List.Basic
import Mathlib.Logic.Relation

/-!
# Guarded runs of a transition system

A transition system has one initial state and a partial, executable step
function labelled by actions.  A run may be restricted by a guard on the state
before a step and the action taken in it.  The invariant rule is stated once
for guarded runs; a replay of a concrete list of actions establishes
membership in a guarded run by computation.
-/

namespace Minotor

/-- A deterministic labelled transition system with a partial step. -/
structure TransitionSystem (σ α : Type*) where
  init : σ
  next : σ → α → Option σ

namespace TransitionSystem

variable {σ α : Type*} {S : TransitionSystem σ α}

/-- States reached by steps which all satisfy the guard `C`. -/
inductive ReachableUnder (S : TransitionSystem σ α) (C : σ → α → Prop) : σ → Prop where
  | init : ReachableUnder S C S.init
  | step {s s' : σ} {a : α} (hs : ReachableUnder S C s) (hC : C s a)
      (hstep : S.next s a = some s') : ReachableUnder S C s'

/-- States reached by any steps. -/
abbrev Reachable (S : TransitionSystem σ α) : σ → Prop :=
  S.ReachableUnder fun _ _ => True

theorem ReachableUnder.mono {C D : σ → α → Prop}
    (hCD : ∀ s a, C s a → D s a) {s : σ} (h : S.ReachableUnder C s) :
    S.ReachableUnder D s := by
  induction h with
  | init => exact .init
  | step _ hC hstep ih => exact .step ih (hCD _ _ hC) hstep

/-- Invariant rule: a property of the initial state which every guarded step
preserves holds in every state of every guarded run. -/
theorem ReachableUnder.invariant {C : σ → α → Prop} {I : σ → Prop}
    (hinit : I S.init)
    (hstep : ∀ s s' a, S.ReachableUnder C s → I s → C s a →
      S.next s a = some s' → I s')
    {s : σ} (h : S.ReachableUnder C s) : I s := by
  induction h with
  | init => exact hinit
  | step hs hC hnext ih => exact hstep _ _ _ hs ih hC hnext

/-- The states after `s` in runs whose further steps satisfy the guard. -/
def LeadsTo (S : TransitionSystem σ α) (C : σ → α → Prop) : σ → σ → Prop :=
  Relation.ReflTransGen fun s t => ∃ a, C s a ∧ S.next s a = some t

theorem LeadsTo.mono {C D : σ → α → Prop} (hCD : ∀ s a, C s a → D s a) {s t : σ}
    (h : S.LeadsTo C s t) : S.LeadsTo D s t := by
  induction h with
  | refl => exact .refl
  | tail _ hstep ih =>
      obtain ⟨a, hC, hnext⟩ := hstep
      exact ih.tail ⟨a, hCD _ _ hC, hnext⟩

theorem ReachableUnder.leadsTo {C : σ → α → Prop} {s t : σ} (hs : S.ReachableUnder C s)
    (h : S.LeadsTo C s t) : S.ReachableUnder C t := by
  induction h with
  | refl => exact hs
  | tail _ hstep ih =>
      obtain ⟨a, hC, hnext⟩ := hstep
      exact ih.step hC hnext

/-- A relation that holds along every guarded step of a reachable state holds
along the steps to a later state. -/
theorem ReachableUnder.leadsTo_rel {C : σ → α → Prop} {R : σ → σ → Prop}
    (hrefl : ∀ s, R s s) (htrans : ∀ s t u, R s t → R t u → R s u)
    (hstep : ∀ s t a, S.ReachableUnder C s → C s a → S.next s a = some t → R s t)
    {s t : σ} (hs : S.ReachableUnder C s) (h : S.LeadsTo C s t) : R s t := by
  induction h with
  | refl => exact hrefl s
  | tail hlead hnext ih =>
      obtain ⟨a, hC, hnext⟩ := hnext
      exact htrans _ _ _ ih (hstep _ _ a (hs.leadsTo hlead) hC hnext)

/-- Variant rule: if every state with `I` has `Q` or leads to another one with `I` and a
smaller variant, then it leads to one with both. -/
theorem exists_leadsTo_of_variant {C : σ → α → Prop} {I Q : σ → Prop} (variant : σ → ℕ)
    (h : ∀ s, I s → Q s ∨ ∃ t, S.LeadsTo C s t ∧ I t ∧ variant t < variant s) {s : σ}
    (hs : I s) : ∃ t, S.LeadsTo C s t ∧ I t ∧ Q t := by
  induction hn : variant s using Nat.strong_induction_on generalizing s with
  | _ n ih =>
      rcases h s hs with hQ | ⟨t, hlead, ht, hlt⟩
      · exact ⟨s, .refl, hs, hQ⟩
      · obtain ⟨u, hmore, hu⟩ := ih (variant t) (hn ▸ hlt) ht rfl
        exact ⟨u, hlead.trans hmore, hu⟩

/-- Follow a list of actions, checking the guard before every step. -/
def replay (S : TransitionSystem σ α) (C : σ → α → Prop)
    [∀ s a, Decidable (C s a)] : List α → σ → Option σ
  | [], s => some s
  | a :: rest, s =>
      if C s a then (S.next s a).bind (replay S C rest) else none

theorem leadsTo_of_replay {C : σ → α → Prop} [∀ s a, Decidable (C s a)]
    {acts : List α} : ∀ {s t : σ}, S.replay C acts s = some t → S.LeadsTo C s t := by
  induction acts with
  | nil =>
      intro s t hrun
      rw [replay, Option.some.injEq] at hrun
      rw [hrun]
      exact .refl
  | cons a rest ih =>
      intro s t hrun
      rw [replay] at hrun
      by_cases hC : C s a
      · rw [if_pos hC, Option.bind_eq_some_iff] at hrun
        obtain ⟨u, hnext, hrest⟩ := hrun
        exact (ih hrest).head ⟨a, hC, hnext⟩
      · simp [hC] at hrun

/-- What a successful replay from the initial state ends in is reached by a
guarded run. -/
theorem exists_of_replay (C : σ → α → Prop) [∀ s a, Decidable (C s a)]
    (acts : List α) (Q : σ → Prop) (h : ∃ s ∈ S.replay C acts S.init, Q s) :
    ∃ s, S.ReachableUnder C s ∧ Q s := by
  obtain ⟨s, hrun, hQ⟩ := h
  exact ⟨s, ReachableUnder.init.leadsTo (leadsTo_of_replay hrun), hQ⟩

/-- The same for a run and a later state of it. -/
theorem exists_of_replay_twice (C : σ → α → Prop) [∀ s a, Decidable (C s a)]
    (acts more : List α) (Q : σ → σ → Prop)
    (h : ∃ s ∈ S.replay C acts S.init, ∃ t ∈ S.replay C more s, Q s t) :
    ∃ s t, S.ReachableUnder C s ∧ S.LeadsTo C s t ∧ Q s t := by
  obtain ⟨s, hrun, t, hmore, hQ⟩ := h
  exact ⟨s, t, ReachableUnder.init.leadsTo (leadsTo_of_replay hrun),
    leadsTo_of_replay hmore, hQ⟩

end TransitionSystem

/-- The parties of runs between two parties are the numerals of `Fin 2`. -/
instance two_neZero : NeZero (2 : ℕ) := ⟨by decide⟩

end Minotor
