import Mathlib.Data.List.Basic
import Mathlib.Tactic.Cases

/-!
# Trajectories

A partial next-state function leads from a state through one sequence of
states, until it has no next state.  The sequence is finite if a measure falls
with every step.
-/

namespace Minotor

/-- The states after a state, up to the one without a next state. -/
inductive Trajectory {σ : Type*} (next : σ → Option σ) : σ → List σ → Prop where
  | stops {s : σ} (h : next s = none) : Trajectory next s []
  | moves {s t : σ} {path : List σ} (h : next s = some t) (ht : Trajectory next t path) :
      Trajectory next s (t :: path)

namespace Trajectory

variable {σ : Type*} {next : σ → Option σ} {s t : σ} {path path' : List σ}

theorem unique (h : Trajectory next s path) (h' : Trajectory next s path') :
    path = path' := by
  induction h generalizing path' with
  | stops hnone =>
      cases h' with
      | stops => rfl
      | moves hsome => exact absurd (hnone.symm.trans hsome) (Option.some_ne_none _).symm
  | moves hsome _ ih =>
      cases h' with
      | stops hnone => exact absurd (hnone.symm.trans hsome) (Option.some_ne_none _).symm
      | moves hsome' ht' =>
          obtain rfl := Option.some.inj (hsome.symm.trans hsome')
          rw [ih ht']

theorem exists_of_moves (h : Trajectory next s path) (hsome : next s = some t) :
    ∃ path', path = t :: path' := by
  cases h with
  | stops hnone => exact absurd (hnone.symm.trans hsome) (Option.some_ne_none _).symm
  | moves hsome' _ =>
      obtain rfl := Option.some.inj (hsome.symm.trans hsome')
      exact ⟨_, rfl⟩

/-- If every step lowers the measure `μ`, then the states after `s` come to an
end after at most `μ s` steps. -/
theorem exists_of_measure (μ : σ → ℕ) (hμ : ∀ s t, next s = some t → μ t < μ s) (s : σ) :
    ∃ path, Trajectory next s path ∧ path.length ≤ μ s := by
  induction hn : μ s using Nat.strongRecOn generalizing s with
  | ind n ih =>
      cases hs : next s with
      | none => exact ⟨[], .stops hs, Nat.zero_le n⟩
      | some t =>
          have hlt : μ t < n := hn ▸ hμ s t hs
          obtain ⟨path, hpath, hlen⟩ := ih (μ t) hlt t rfl
          refine ⟨t :: path, .moves hs hpath, ?_⟩
          rw [List.length_cons]
          exact Nat.lt_of_le_of_lt hlen hlt

theorem length_le_of_measure (μ : σ → ℕ) (hμ : ∀ s t, next s = some t → μ t < μ s)
    (h : Trajectory next s path) : path.length ≤ μ s := by
  obtain ⟨path', hpath', hlen⟩ := exists_of_measure μ hμ s
  rw [h.unique hpath']
  exact hlen

end Trajectory
end Minotor
