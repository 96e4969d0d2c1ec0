import Mathlib.Algebra.BigOperators.Group.Finset.Piecewise
import Mathlib.Algebra.Order.BigOperators.Group.Finset
import Mathlib.Algebra.Order.Ring.Nat

/-!
# Budgets shared by many holders

A budget is spread over a common account and any number of holders.  It is not
exceeded when the account and any finite set of holders stay below it, and a
step of one holder which moves no more than it holds into the account keeps it
so.
-/

namespace Minotor

variable {P : Type*}

/-- The account together with any finite set of holders is at most `bound`. -/
def WithinBudget (held : P → ℕ) (account bound : ℕ) : Prop :=
  ∀ S : Finset P, account + ∑ p ∈ S, held p ≤ bound

theorem WithinBudget.account_le {held : P → ℕ} {account bound : ℕ}
    (h : WithinBudget held account bound) : account ≤ bound :=
  h ∅

theorem withinBudget_of_zero {held : P → ℕ} {account bound : ℕ} (hzero : ∀ p, held p = 0)
    (hle : account ≤ bound) : WithinBudget held account bound := by
  intro S
  rw [Finset.sum_eq_zero fun p _ => hzero p]
  exact hle

theorem WithinBudget.mono {held : P → ℕ} {account account' bound : ℕ}
    (h : WithinBudget held account bound) (hle : account' ≤ account) :
    WithinBudget held account' bound :=
  fun S => (Nat.add_le_add_right hle _).trans (h S)

/-- One holder and the account change, and their total does not grow. -/
theorem WithinBudget.update [DecidableEq P] {held : P → ℕ} {account account' bound v : ℕ}
    {p : P} (h : WithinBudget held account bound) (hle : account' + v ≤ account + held p) :
    WithinBudget (Function.update held p v) account' bound := by
  intro S
  by_cases hp : p ∈ S
  · rw [Finset.sum_update_of_mem hp]
    have hS := h S
    rw [← Finset.sum_sdiff (Finset.singleton_subset_iff.mpr hp), Finset.sum_singleton] at hS
    omega
  · rw [Finset.sum_update_of_notMem hp]
    have hS := h (insert p S)
    rw [Finset.sum_insert hp] at hS
    omega

/-- A list of holders of which one changes. -/
theorem sum_map_set {α : Type*} (f : α → ℕ) {l : List α} {i : ℕ} {x : α}
    (hx : l[i]? = some x) (y : α) :
    ((l.set i y).map f).sum + f x = (l.map f).sum + f y := by
  induction l generalizing i with
  | nil => exact absurd hx (by simp)
  | cons a l ih =>
      cases i with
      | zero =>
          obtain rfl := Option.some.inj hx
          rw [List.set_cons_zero, List.map_cons, List.map_cons, List.sum_cons, List.sum_cons]
          omega
      | succ i =>
          have htail := ih (i := i) hx
          rw [List.set_cons_succ, List.map_cons, List.map_cons, List.sum_cons, List.sum_cons]
          omega

end Minotor
