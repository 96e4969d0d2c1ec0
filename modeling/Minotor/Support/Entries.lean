import Mathlib.Algebra.BigOperators.Group.List.Basic

/-!
# Lists whose entries change one at a time

A property of all entries is kept if the new entry has it.  What one entry loses and
another gains leaves the total over a list as it was, which is how a quantity is shown
to be conserved.
-/

namespace Minotor

variable {α : Type*}

/-- A way to put the entries of lists in some order. -/
def Arrangement (α : Type*) := {f : List α → List α // ∀ l, (f l).Perm l}

theorem forall_mem_set {P : α → Prop} {l : List α} {i : ℕ} {b : α} (h : ∀ a ∈ l, P a)
    (hb : P b) : ∀ a ∈ l.set i b, P a := by
  intro a ha
  rcases List.mem_or_eq_of_mem_set ha with ha | rfl
  · exact h a ha
  · exact hb

theorem forall_mem_concat {P : α → Prop} {l : List α} {b : α} (h : ∀ a ∈ l, P a)
    (hb : P b) : ∀ a ∈ l ++ [b], P a := by
  intro a ha
  rcases List.mem_append.mp ha with ha | ha
  · exact h a ha
  · exact List.mem_singleton.mp ha ▸ hb

/-- An entry after a change is the new one or an old one at another place. -/
theorem getElem?_set_cases {l : List α} {i j : ℕ} {a b x : α} (ha : l[i]? = some a)
    (hx : (l.set i b)[j]? = some x) : j = i ∧ x = b ∨ j ≠ i ∧ l[j]? = some x := by
  by_cases hj : j = i
  · subst hj
    rw [List.getElem?_set_self (List.getElem?_eq_some_iff.mp ha).1] at hx
    exact Or.inl ⟨rfl, (Option.some.inj hx).symm⟩
  · rw [List.getElem?_set_ne (Ne.symm hj)] at hx
    exact Or.inr ⟨hj, hx⟩

/-! ## Copying -/

/-- What `copy` copies next from a list of which the first entries are copied. -/
def nextToCopy (l res : List α) (n : ℕ) : Option α :=
  if res.length < n then l[res.length]? else none

/-- The entry after the first ones. -/
theorem prefix_concat_of_getElem? {l res : List α} {a : α} (h : res <+: l)
    (ha : l[res.length]? = some a) : res ++ [a] <+: l := by
  obtain ⟨rest, rfl⟩ := h
  rw [List.getElem?_append_right (Nat.le_refl _), Nat.sub_self] at ha
  cases rest with
  | nil => cases ha
  | cons x rest =>
      obtain rfl := Option.some.inj ha
      exact ⟨rest, by rw [List.append_assoc]; rfl⟩

/-- The entries copied are the first ones, also after one more. -/
theorem prefix_concat_of_nextToCopy {l res : List α} {n : ℕ} {a : α} (h : res <+: l)
    (ha : nextToCopy l res n = some a) : res ++ [a] <+: l :=
  prefix_concat_of_getElem? h (Option.ite_none_right_eq_some.mp ha).2

/-- At the end all entries are copied. -/
theorem eq_of_nextToCopy {l res : List α} (h : res <+: l)
    (hnone : nextToCopy l res l.length = none) : res = l := by
  apply h.eq_of_length_le
  by_contra hlt
  rw [nextToCopy, if_pos (Nat.lt_of_not_le hlt), List.getElem?_eq_none_iff] at hnone
  exact hlt hnone

/-! ## Totals -/

variable {M : Type*} [AddCommMonoid M]

/-- The sum of the weights of the entries. -/
def total (f : α → M) (l : List α) : M := (l.map f).sum

variable {f : α → M} {l : List α} {i : ℕ} {a b : α}

@[simp] theorem total_nil : total f [] = 0 := rfl

@[simp] theorem total_cons : total f (a :: l) = f a + total f l := by
  simp [total]

@[simp] theorem total_append {l' : List α} : total f (l ++ l') = total f l + total f l' := by
  simp [total]

/-- An entry which changes moves the total by the difference of its weights. -/
theorem total_set (h : l[i]? = some a) : total f (l.set i b) + f a = total f l + f b := by
  induction l generalizing i with
  | nil => cases h
  | cons x l ih =>
      cases i with
      | zero =>
          obtain rfl := Option.some.inj h
          rw [List.set_cons_zero, total_cons, total_cons]
          ac_rfl
      | succ i =>
          rw [List.set_cons_succ, total_cons, total_cons, add_assoc, ih h, add_assoc]

/-- What an entry gains, the total gains. -/
theorem total_set_of_add {m : M} (h : l[i]? = some a) (hadd : f b = f a + m) :
    total f (l.set i b) = total f l + m := by
  induction l generalizing i with
  | nil => cases h
  | cons x l ih =>
      cases i with
      | zero =>
          obtain rfl := Option.some.inj h
          rw [List.set_cons_zero, total_cons, total_cons, hadd]
          ac_rfl
      | succ i => rw [List.set_cons_succ, total_cons, total_cons, ih h, add_assoc]

/-- An entry may change in what has no weight. -/
theorem total_set_of_eq (h : l[i]? = some a) (heq : f b = f a) :
    total f (l.set i b) = total f l := by
  rw [total_set_of_add h (heq.trans (add_zero _).symm), add_zero]

end Minotor
