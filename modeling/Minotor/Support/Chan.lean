import Mathlib.Data.List.Basic

/-!
# Buffered channels

A buffered channel is its capacity, the values waiting in it and whether it
was closed.  The bound on the buffer is part of the type.  A send needs room
on an open channel and a close needs an open channel, so the two operations
which would block or panic in Go ask for a proof that they do not; callers
which cannot give one decide `Chan.Ready` first.
-/

namespace Minotor

/-- A buffered channel. -/
structure Chan (α : Type*) where
  cap : ℕ
  buf : List α
  closed : Bool
  bounded : buf.length ≤ cap

namespace Chan

variable {α : Type*}

/-- `make(chan T, cap)`. -/
def make (cap : ℕ) : Chan α where
  cap := cap
  buf := []
  closed := false
  bounded := by simp

/-- A send on `c` neither blocks nor panics. -/
def Ready (c : Chan α) : Prop :=
  c.closed = false ∧ c.buf.length < c.cap

instance (c : Chan α) : Decidable c.Ready := by
  unfold Ready
  infer_instance

/-- `c <- a` on a channel with room. -/
def send (c : Chan α) (a : α) (h : c.Ready) : Chan α where
  cap := c.cap
  buf := c.buf ++ [a]
  closed := c.closed
  bounded := by
    rw [List.length_append, List.length_singleton]
    exact h.2

/-- `<-c`: the oldest value, or the zero value (`none`) from a closed and
drained channel.  The outer `none` means that the receiver waits. -/
def recv (c : Chan α) : Option (Option α × Chan α) :=
  match h : c.buf with
  | a :: rest =>
      some (some a, { c with
        buf := rest
        bounded := by
          have := c.bounded
          rw [h, List.length_cons] at this
          omega })
  | [] => if c.closed then some (none, c) else none

/-- `close(c)`; a second close would panic. -/
def close (c : Chan α) (_h : c.closed = false) : Chan α :=
  { c with closed := true }

@[simp] theorem make_buf (cap : ℕ) : (make cap : Chan α).buf = [] := rfl

theorem make_ready {cap : ℕ} (h : 0 < cap) : (make cap : Chan α).Ready :=
  ⟨rfl, h⟩

@[simp] theorem send_buf (c : Chan α) (a : α) (h : c.Ready) :
    (c.send a h).buf = c.buf ++ [a] := rfl

/-- A value received was the oldest one waiting. -/
theorem recv_value {c c' : Chan α} {a : α} (h : c.recv = some (some a, c')) :
    c.buf = a :: c'.buf ∧ c'.closed = c.closed ∧ c'.cap = c.cap := by
  unfold recv at h
  split at h
  · next b rest hbuf =>
      simp only [Option.some.injEq, Prod.mk.injEq] at h
      obtain ⟨rfl, rfl⟩ := h
      exact ⟨hbuf, rfl, rfl⟩
  · split at h <;> simp at h

/-- A zero value is received only from a closed and drained channel, which it
leaves as it is. -/
theorem recv_zero {c c' : Chan α} (h : c.recv = some (none, c')) :
    c' = c ∧ c.buf = [] ∧ c.closed = true := by
  unfold recv at h
  split at h
  · simp at h
  · next hbuf =>
      split at h
      · next hclosed =>
          simp only [Option.some.injEq, Prod.mk.injEq, true_and] at h
          exact ⟨h.symm, hbuf, hclosed⟩
      · simp at h

end Chan
end Minotor
