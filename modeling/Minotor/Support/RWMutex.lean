import Mathlib.Data.List.Count
import Mathlib.Order.Basic

/-!
# Readers-writer locks

A lock which is held by any number of readers or by one writer.  A writer first
keeps new readers out and then waits until the readers have left.

The users of a lock stand in a list.  What a user holds is read off the user, and
the lock agrees with its users: it counts those who read and names the one who
writes.  A user who forgets to give the lock back keeps reading.
-/

namespace Minotor

/-- The read locks which are held, and the user who has begun to lock for writing. -/
structure RWMutex where
  readers : ℕ
  writer : Option ℕ
deriving DecidableEq, Repr

namespace RWMutex

/-- A lock which nobody holds. -/
def new : RWMutex := ⟨0, none⟩

/-- A reader gets in unless there is a writer. -/
def rLock (l : RWMutex) : Option RWMutex :=
  if l.writer = none then some { l with readers := l.readers + 1 } else none

/-- A reader leaves. -/
def rUnlock (l : RWMutex) : Option RWMutex :=
  if l.readers = 0 then none else some { l with readers := l.readers - 1 }

/-- User `i` begins to lock for writing unless there is a writer. -/
def announce (l : RWMutex) (i : ℕ) : Option RWMutex :=
  if l.writer = none then some { l with writer := some i } else none

/-- The writer leaves. -/
def unlock (l : RWMutex) : RWMutex := { l with writer := none }

variable {τ : Type*}

/-- What the users of a lock do with it. -/
structure Use (τ : Type*) where
  reads : τ → Bool
  /-- has begun to lock for writing and not left -/
  writes : τ → Bool
  /-- holds the lock for writing -/
  holds : τ → Bool
  writes_of_holds : ∀ u, holds u = true → writes u = true

/-- The lock agrees with its users. -/
structure Agrees (U : Use τ) (us : List τ) (l : RWMutex) : Prop where
  readers : l.readers = us.countP U.reads
  writer : ∀ i, l.writer = some i ↔ ∃ u, us[i]? = some u ∧ U.writes u = true
  excluded : ∀ u ∈ us, U.holds u = true → l.readers = 0

variable {U : Use τ} {us : List τ} {l l' : RWMutex} {i : ℕ} {u u' : τ}

theorem agrees_new (U : Use τ) : new.Agrees U [] where
  readers := rfl
  writer i := by
    apply iff_of_false
    · exact (Option.some_ne_none i).symm
    · rintro ⟨u, hu, _⟩
      cases hu
  excluded u hu := absurd hu List.not_mem_nil

/-- A new user holds nothing. -/
theorem Agrees.append (h : l.Agrees U us) (hreads : U.reads u = false)
    (hwrites : U.writes u = false) : l.Agrees U (us ++ [u]) where
  readers := by
    rw [List.countP_append, List.countP_singleton, hreads, h.readers]
    rfl
  writer i := by
    rw [h.writer i]
    constructor
    · rintro ⟨v, hv, hw⟩
      exact ⟨v, (List.getElem?_append_left (List.getElem?_eq_some_iff.mp hv).1).trans hv, hw⟩
    · rintro ⟨v, hv, hw⟩
      rw [List.getElem?_append] at hv
      split at hv
      · exact ⟨v, hv, hw⟩
      · rw [List.mem_singleton.mp (List.mem_of_getElem? hv), hwrites] at hw
        cases hw
  excluded v hv hhold := by
    rcases List.mem_append.mp hv with hv | hv
    · exact h.excluded v hv hhold
    · rw [List.mem_singleton.mp hv] at hhold
      rw [U.writes_of_holds u hhold] at hwrites
      cases hwrites

/-- Nobody holds the lock for writing if nobody has begun to. -/
theorem Agrees.holds_eq_false (h : l.Agrees U us) (hnone : l.writer = none) (hu : u ∈ us) :
    U.holds u = false := by
  by_contra hhold
  rw [Bool.not_eq_false] at hhold
  obtain ⟨j, hj⟩ := List.mem_iff_getElem?.mp hu
  have hwriter := (h.writer j).mpr ⟨u, hj, U.writes_of_holds u hhold⟩
  rw [hnone] at hwriter
  cases hwriter

/-- A user has begun to lock for writing exactly if the lock names it. -/
theorem Agrees.writer_iff (h : l.Agrees U us) (hu : us[i]? = some u) :
    l.writer = some i ↔ U.writes u = true := by
  rw [h.writer i]
  constructor
  · rintro ⟨v, hv, hw⟩
    rw [Option.some.inj (hu.symm.trans hv)]
    exact hw
  · exact fun hw => ⟨u, hu, hw⟩

/-- One user and the lock change. -/
theorem Agrees.set (h : l.Agrees U us) (hu : us[i]? = some u)
    (hreaders : l'.readers + (if U.reads u then 1 else 0) =
      l.readers + if U.reads u' then 1 else 0)
    (hself : l'.writer = some i ↔ U.writes u' = true)
    (hothers : ∀ j ≠ i, l'.writer = some j ↔ l.writer = some j)
    (hexcluded : ∀ v, v = u' ∨ v ∈ us → U.holds v = true → l'.readers = 0) :
    l'.Agrees U (us.set i u') where
  readers := by
    obtain ⟨hi, rfl⟩ := List.getElem?_eq_some_iff.mp hu
    have hle : (if U.reads us[i] then 1 else 0) ≤ us.countP U.reads := by
      split
      · next hreads => exact List.countP_pos_iff.mpr ⟨_, List.getElem_mem hi, hreads⟩
      · exact Nat.zero_le _
    rw [List.countP_set hi]
    rw [h.readers] at hreaders
    omega
  writer j := by
    have hi : i < us.length := (List.getElem?_eq_some_iff.mp hu).1
    by_cases hj : j = i
    · subst hj
      rw [hself, List.getElem?_set_self hi]
      constructor
      · exact fun hw => ⟨u', rfl, hw⟩
      · rintro ⟨v, hv, hw⟩
        rw [Option.some.inj hv]
        exact hw
    · rw [hothers j hj, h.writer j, List.getElem?_set_ne (Ne.symm hj)]
  excluded v hv hhold := hexcluded v (List.mem_or_eq_of_mem_set hv).symm hhold

/-- A user goes on and holds what it held. -/
theorem Agrees.keep (h : l.Agrees U us) (hu : us[i]? = some u)
    (hreads : U.reads u' = U.reads u) (hwrites : U.writes u' = U.writes u)
    (hholds : U.holds u' = true → l.readers = 0) : l.Agrees U (us.set i u') := by
  apply h.set hu
  · rw [hreads]
  · rw [hwrites, h.writer_iff hu]
  · exact fun j _ => Iff.rfl
  · rintro v (rfl | hv) hhold
    · exact hholds hhold
    · exact h.excluded v hv hhold

theorem Agrees.rLock (h : l.Agrees U us) (hl : l.rLock = some l') (hu : us[i]? = some u)
    (hreads : U.reads u = false) (hreads' : U.reads u' = true)
    (hwrites : U.writes u' = false) : l'.Agrees U (us.set i u') := by
  simp only [RWMutex.rLock, Option.ite_none_right_eq_some] at hl
  obtain ⟨hnone, heq⟩ := hl
  obtain rfl := Option.some.inj heq
  apply h.set hu
  · rw [hreads, hreads']
    rfl
  · rw [hwrites]
    simp [hnone]
  · exact fun j _ => Iff.rfl
  · rintro v (rfl | hv) hhold
    · rw [U.writes_of_holds v hhold] at hwrites
      cases hwrites
    · rw [h.holds_eq_false hnone hv] at hhold
      cases hhold

theorem Agrees.rUnlock (h : l.Agrees U us) (hl : l.rUnlock = some l') (hu : us[i]? = some u)
    (hreads : U.reads u = true) (hreads' : U.reads u' = false)
    (hwrites : U.writes u' = U.writes u) (hholds : U.holds u' = false) :
    l'.Agrees U (us.set i u') := by
  simp only [RWMutex.rUnlock, Option.ite_none_left_eq_some] at hl
  obtain ⟨hne, heq⟩ := hl
  obtain rfl := Option.some.inj heq
  apply h.set hu
  · rw [hreads, hreads']
    simp only [if_true, Bool.false_eq_true, if_false]
    omega
  · rw [hwrites, h.writer_iff hu]
  · exact fun j _ => Iff.rfl
  · rintro v (rfl | hv) hhold
    · rw [hholds] at hhold
      cases hhold
    · exact absurd (h.excluded v hv hhold) hne

theorem Agrees.announce (h : l.Agrees U us) (hl : l.announce i = some l')
    (hu : us[i]? = some u) (hreads : U.reads u' = U.reads u) (hwrites : U.writes u' = true)
    (hholds : U.holds u' = false) : l'.Agrees U (us.set i u') := by
  simp only [RWMutex.announce, Option.ite_none_right_eq_some] at hl
  obtain ⟨hnone, heq⟩ := hl
  obtain rfl := Option.some.inj heq
  apply h.set hu
  · rw [hreads]
  · simp [hwrites]
  · intro j hj
    rw [hnone]
    simp [Ne.symm hj]
  · rintro v (rfl | hv) hhold
    · rw [hholds] at hhold
      cases hhold
    · rw [h.holds_eq_false hnone hv] at hhold
      cases hhold

theorem Agrees.unlock (h : l.Agrees U us) (hu : us[i]? = some u)
    (hreads : U.reads u' = U.reads u) (hwrites : U.writes u = true)
    (hwrites' : U.writes u' = false) : l.unlock.Agrees U (us.set i u') := by
  have hwriter : l.writer = some i := (h.writer_iff hu).mpr hwrites
  apply h.set hu
  · rw [hreads]
    rfl
  · rw [hwrites']
    simp [RWMutex.unlock]
  · intro j hj
    rw [hwriter]
    simp [RWMutex.unlock, Ne.symm hj]
  · rintro v (rfl | hv) hhold
    · rw [U.writes_of_holds v hhold] at hwrites'
      cases hwrites'
    · exact h.excluded v hv hhold

end RWMutex
end Minotor
