import Mathlib.Data.List.Basic

/-!
# Services

A service answers calls and changes its state with each of them.  Two services
which are related by a simulation for some kind of calls give the same answers
to every sequence of such calls.
-/

namespace Minotor

/-- Calls of type `ι` change a state of type `σ` and have answers of type
`ο`. -/
structure Service (σ ι ο : Type*) where
  call : σ → ι → σ × ο

namespace Service

variable {σ τ ι ο : Type*}

/-- The answers to a sequence of calls. -/
def answers (S : Service σ ι ο) : σ → List ι → List ο
  | _, [] => []
  | s, i :: is => (S.call s i).2 :: S.answers (S.call s i).1 is

/-- The state after a sequence of calls. -/
def after (S : Service σ ι ο) : σ → List ι → σ
  | s, [] => s
  | s, i :: is => S.after (S.call s i).1 is

theorem answers_append (S : Service σ ι ο) (s : σ) (is js : List ι) :
    S.answers s (is ++ js) = S.answers s is ++ S.answers (S.after s is) js := by
  induction is generalizing s with
  | nil => rfl
  | cons i is ih => rw [List.cons_append, answers, ih, answers, after, List.cons_append]

theorem after_append (S : Service σ ι ο) (s : σ) (is js : List ι) :
    S.after s (is ++ js) = S.after (S.after s is) js := by
  induction is generalizing s with
  | nil => rfl
  | cons i is ih => rw [List.cons_append, after, ih, after]

/-- History rule: a relation between the answers so far and the state which
every call preserves holds after every sequence of calls. -/
theorem history_invariant {S : Service σ ι ο} {I : List ο → σ → Prop}
    (hstep : ∀ log s i, I log s → I (log ++ [(S.call s i).2]) (S.call s i).1)
    {log : List ο} {s : σ} (h : I log s) (is : List ι) :
    I (log ++ S.answers s is) (S.after s is) := by
  induction is generalizing log s with
  | nil =>
      rw [answers, List.append_nil]
      exact h
  | cons i is ih =>
      rw [answers, List.append_cons]
      exact ih (hstep log s i h)

/-- A call of the kind `K` keeps the relation and has the same answer on both
sides. -/
def Simulates (S : Service σ ι ο) (T : Service τ ι ο) (K : ι → Prop) (R : σ → τ → Prop) :
    Prop :=
  ∀ s t i, K i → R s t → (S.call s i).2 = (T.call t i).2 ∧ R (S.call s i).1 (T.call t i).1

variable {S : Service σ ι ο} {T : Service τ ι ο} {K : ι → Prop} {R : σ → τ → Prop}

theorem Simulates.after (h : S.Simulates T K R) {s : σ} {t : τ} (hR : R s t) {is : List ι}
    (hK : ∀ i ∈ is, K i) : R (S.after s is) (T.after t is) := by
  induction is generalizing s t with
  | nil => exact hR
  | cons i is ih =>
      have hstep := h s t i (hK i List.mem_cons_self) hR
      exact ih hstep.2 fun j hj => hK j (List.mem_cons_of_mem _ hj)

theorem Simulates.answers_eq (h : S.Simulates T K R) {s : σ} {t : τ} (hR : R s t)
    {is : List ι} (hK : ∀ i ∈ is, K i) : S.answers s is = T.answers t is := by
  induction is generalizing s t with
  | nil => rfl
  | cons i is ih =>
      have hstep := h s t i (hK i List.mem_cons_self) hR
      rw [Service.answers, Service.answers, hstep.1,
        ih hstep.2 fun j hj => hK j (List.mem_cons_of_mem _ hj)]

end Service
end Minotor
