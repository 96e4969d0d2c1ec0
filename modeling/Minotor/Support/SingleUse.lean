import Mathlib.Data.List.Perm.Basic

/-!
# Tokens which are used once

A token is created by a thread, may stay with it for some steps and is used by
it at most once.  Held tokens are distinct, used tokens are distinct, and no
thread holds a used one.
-/

namespace Minotor

/-- `f` tells the token each thread holds, `used` lists the used ones. -/
structure SingleUse {θ τ : Type*} (f : θ → Option τ) (used : List τ) : Prop where
  threads : ∀ t t' tok, f t = some tok → f t' = some tok → t = t'
  apart : ∀ t tok, f t = some tok → tok ∉ used
  nodup : used.Nodup

namespace SingleUse

variable {θ τ : Type*} {f g : θ → Option τ} {used used' : List τ}

theorem empty (hf : ∀ t, f t = none) : SingleUse f [] where
  threads t t' tok ht := by
    rw [hf t] at ht
    cases ht
  apart _ _ _ := List.not_mem_nil
  nodup := List.nodup_nil

/-- Tokens may be kept or dropped. -/
theorem mono (h : SingleUse f used) (hg : ∀ t tok, g t = some tok → f t = some tok) :
    SingleUse g used where
  threads t t' tok ht ht' := h.threads t t' tok (hg t tok ht) (hg t' tok ht')
  apart t tok ht := h.apart t tok (hg t tok ht)
  nodup := h.nodup

/-- A thread takes a fresh token. -/
theorem take (h : SingleUse f used) (t : θ) (tok : τ)
    (hg : ∀ t' tok', g t' = some tok' → f t' = some tok' ∨ t' = t ∧ tok' = tok)
    (hheld : ∀ t', f t' ≠ some tok) (hused : tok ∉ used) : SingleUse g used where
  threads := by
    intro t₁ t₂ tok' h₁ h₂
    rcases hg t₁ tok' h₁ with h₁ | ⟨rfl, rfl⟩
    · rcases hg t₂ tok' h₂ with h₂ | ⟨rfl, rfl⟩
      · exact h.threads t₁ t₂ tok' h₁ h₂
      · exact absurd h₁ (hheld t₁)
    · rcases hg t₂ tok' h₂ with h₂ | ⟨rfl, -⟩
      · exact absurd h₂ (hheld t₂)
      · rfl
  apart := by
    intro t' tok' ht'
    rcases hg t' tok' ht' with ht' | ⟨rfl, rfl⟩
    · exact h.apart t' tok' ht'
    · exact hused
  nodup := h.nodup

/-- A thread uses its token. -/
theorem use (h : SingleUse f used) {t : θ} {tok : τ} (ht : f t = some tok)
    (hg : ∀ t' tok', g t' = some tok' → t' ≠ t ∧ f t' = some tok')
    (hused : used'.Perm (tok :: used)) : SingleUse g used' where
  threads t₁ t₂ tok' h₁ h₂ := h.threads t₁ t₂ tok' (hg t₁ tok' h₁).2 (hg t₂ tok' h₂).2
  apart := by
    intro t' tok' ht'
    obtain ⟨hne, hf⟩ := hg t' tok' ht'
    rw [hused.mem_iff, List.mem_cons, not_or]
    refine ⟨?_, h.apart t' tok' hf⟩
    rintro rfl
    exact hne (h.threads t' t tok' hf ht)
  nodup := by
    rw [hused.nodup_iff, List.nodup_cons]
    exact ⟨h.apart t tok ht, h.nodup⟩

end SingleUse

/-- If the images under a partial function are distinct, so are the places of
two elements with one image. -/
theorem eq_of_nodup_filterMap {α β : Type*} {f : α → Option β} {l : List α}
    (h : (l.filterMap f).Nodup) {i j : ℕ} {a b : α} {x : β} (hi : l[i]? = some a)
    (hj : l[j]? = some b) (ha : f a = some x) (hb : f b = some x) : i = j := by
  rw [List.nodup_iff_pairwise_ne, List.pairwise_filterMap, List.pairwise_iff_getElem] at h
  obtain ⟨hilt, rfl⟩ := List.getElem?_eq_some_iff.mp hi
  obtain ⟨hjlt, rfl⟩ := List.getElem?_eq_some_iff.mp hj
  rcases Nat.lt_trichotomy i j with hlt | heq | hgt
  · exact absurd rfl (h i j hilt hjlt hlt x ha x hb)
  · exact heq
  · exact absurd rfl (h j i hjlt hilt hgt x hb x ha)

end Minotor
