import Mathlib.Data.List.Basic
import Mathlib.Algebra.Order.Group.Nat
import Mathlib.Tactic.Cases

/-!
# Blocks of a list

A list is cut into blocks of one size, of which only the last may be shorter.
Among all ways to cut it into pieces, this is the only one in which every piece
but the last has that size.
-/

namespace Minotor

variable {α : Type*} {size : ℕ} {c content : List α} {pieces : List (List α)}

/-- The blocks of `size` elements of a list. -/
def blocks (size : ℕ) (content : List α) : List (List α) :=
  (List.range ((content.length + size - 1) / size)).map fun i =>
    (content.drop (i * size)).take size

/-- A list which is not longer than a block. -/
theorem blocks_of_length_le (hne : c ≠ []) (hle : c.length ≤ size) : blocks size c = [c] := by
  have hpos := List.length_pos_iff.mpr hne
  have hone : (c.length + size - 1) / size = 1 := by
    rw [Nat.div_eq_iff (by omega)]
    omega
  rw [blocks, hone, List.range_one, List.map_singleton, Nat.zero_mul, List.drop_zero,
    List.take_of_length_le hle]

/-- The first block is taken off. -/
theorem blocks_append (hpos : 0 < size) (hc : c.length = size) (content : List α) :
    blocks size (c ++ content) = c :: blocks size content := by
  have hcount : ((c ++ content).length + size - 1) / size =
      (content.length + size - 1) / size + 1 := by
    rw [← Nat.add_div_right _ hpos, List.length_append, hc]
    congr 1
    omega
  rw [blocks, hcount, List.range_succ_eq_map, List.map_cons, List.map_map, Nat.zero_mul,
    List.drop_zero, List.take_left' hc, blocks]
  congr 1
  apply List.map_congr_left
  intro i _
  have hdrop : (i + 1) * size = c.length + i * size := by
    rw [hc, Nat.succ_mul, Nat.add_comm]
  rw [Function.comp_apply, Nat.succ_eq_add_one, hdrop, List.drop_append, Nat.add_sub_cancel_left,
    List.drop_of_length_le (Nat.le_add_right _ _), List.nil_append]

/-- Pieces of which all but the last are full are the blocks. -/
theorem blocks_flatten (hsize : ∀ p ∈ pieces, p ≠ [] ∧ p.length ≤ size)
    (hfull : ∀ p ∈ pieces.dropLast, p.length = size) :
    blocks size pieces.flatten = pieces := by
  induction pieces with
  | nil =>
      rcases Nat.eq_zero_or_pos size with rfl | hpos
      · rw [blocks, Nat.div_zero]
        rfl
      · have hzero : (0 + size - 1) / size = 0 := Nat.div_eq_of_lt (by omega)
        rw [blocks, List.flatten_nil, List.length_nil, hzero]
        rfl
  | cons p pieces ih =>
      obtain ⟨hne, hle⟩ := hsize p List.mem_cons_self
      cases pieces with
      | nil =>
          rw [List.flatten_cons, List.flatten_nil, List.append_nil]
          exact blocks_of_length_le hne hle
      | cons p' pieces =>
          have hp : p.length = size := hfull p List.mem_cons_self
          have hpos : 0 < size := hp ▸ List.length_pos_iff.mpr hne
          rw [List.flatten_cons, blocks_append hpos hp, ih]
          · exact fun q hq => hsize q (List.mem_cons_of_mem p hq)
          · exact fun q hq => hfull q (List.mem_cons_of_mem p hq)

/-- All blocks but the last are full. -/
theorem length_of_mem_dropLast_blocks {b : List α} (hpos : 0 < size)
    (hb : b ∈ (blocks size content).dropLast) : b.length = size := by
  rw [blocks, ← List.map_dropLast, List.mem_map] at hb
  obtain ⟨i, hi, rfl⟩ := hb
  obtain ⟨k, hk, hik⟩ := List.mem_iff_getElem.mp hi
  rw [List.length_dropLast, List.length_range] at hk
  rw [List.getElem_dropLast, List.getElem_range] at hik
  subst hik
  have hlt : k + 1 < (content.length + size - 1) / size := by omega
  rw [Nat.lt_div_iff_mul_lt hpos] at hlt
  have hmul : (k + 1) * size = k * size + size := Nat.succ_mul k size
  rw [List.length_take, List.length_drop]
  omega

end Minotor
