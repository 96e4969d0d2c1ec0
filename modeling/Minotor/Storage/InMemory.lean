import Minotor.Support.Digest
import Mathlib.Data.List.AList

/-!
# The in-memory store

`storage/inmemory/mod.go`, with byte strings as keys and values.
-/

namespace Minotor

/-- `inmemory.store`. -/
def ByteStore := AList fun _ : Bytes => Bytes

namespace ByteStore

/-- `newStore`. -/
def empty : ByteStore := (∅ : AList fun _ : Bytes => Bytes)

/-- `Get`; `none` is `nil`. -/
def get (s : ByteStore) (key : Bytes) : Option Bytes := AList.lookup key s

/-- `Set`. -/
def set (s : ByteStore) (key val : Bytes) : ByteStore := AList.insert key val s

/-- `Delete`. -/
def delete (s : ByteStore) (key : Bytes) : ByteStore := AList.erase key s

/-- The keys which `ForEach` visits, in some order. -/
def keys (s : ByteStore) : List Bytes := AList.keys s

/-- The pairs which `ForEach` visits. -/
def forEach (s : ByteStore) : List (Bytes × Bytes) := s.entries.map fun e => (e.1, e.2)

/-- `Len`. -/
def len (s : ByteStore) : ℕ := s.entries.length

@[simp] theorem get_empty (key : Bytes) : empty.get key = none := rfl

theorem get_set (s : ByteStore) (key val key' : Bytes) :
    (s.set key val).get key' = if key' = key then some val else s.get key' := by
  unfold get set
  split
  · next h =>
      rw [h]
      exact AList.lookup_insert _
  · next h => exact AList.lookup_insert_ne h

theorem get_delete (s : ByteStore) (key key' : Bytes) :
    (s.delete key).get key' = if key' = key then none else s.get key' := by
  unfold get delete
  split
  · next h =>
      rw [h]
      exact AList.lookup_erase _ _
  · next h => exact AList.lookup_erase_ne h

theorem mem_forEach {s : ByteStore} {key val : Bytes} :
    (key, val) ∈ s.forEach ↔ s.get key = some val := by
  rw [forEach, List.mem_map]
  constructor
  · rintro ⟨⟨key', val'⟩, hmem, heq⟩
    obtain ⟨rfl, rfl⟩ := Prod.mk.inj heq
    exact AList.mem_lookup_iff.mpr hmem
  · intro h
    exact ⟨⟨key, val⟩, AList.mem_lookup_iff.mp h, rfl⟩

theorem nodup_forEach (s : ByteStore) : s.forEach.Nodup := by
  apply s.nodupKeys.nodup.map
  rintro ⟨key, val⟩ ⟨key', val'⟩ heq
  obtain ⟨rfl, rfl⟩ := Prod.mk.inj heq
  rfl

theorem mem_keys {s : ByteStore} {key : Bytes} : key ∈ s.keys ↔ ∃ val, s.get key = some val := by
  rw [← Option.isSome_iff_exists]
  exact AList.mem_keys.symm.trans AList.lookup_isSome.symm

/-- Several `Set`s in a row. -/
def setAll (s : ByteStore) (writes : List (Bytes × Bytes)) : ByteStore :=
  writes.foldl (fun s w => s.set w.1 w.2) s

@[simp] theorem setAll_nil (s : ByteStore) : s.setAll [] = s := rfl

@[simp] theorem setAll_cons (s : ByteStore) (w : Bytes × Bytes)
    (writes : List (Bytes × Bytes)) :
    s.setAll (w :: writes) = (s.set w.1 w.2).setAll writes := rfl

theorem setAll_append (s : ByteStore) (writes writes' : List (Bytes × Bytes)) :
    s.setAll (writes ++ writes') = (s.setAll writes).setAll writes' :=
  List.foldl_append

/-- A key has the value of a write to it, or the value it had before. -/
theorem get_setAll (s : ByteStore) (writes : List (Bytes × Bytes)) (key : Bytes) :
    (∃ val, (key, val) ∈ writes ∧ (s.setAll writes).get key = some val) ∨
      (∀ val, (key, val) ∉ writes) ∧ (s.setAll writes).get key = s.get key := by
  induction writes generalizing s with
  | nil => exact .inr ⟨fun val => List.not_mem_nil, rfl⟩
  | cons w writes ih =>
      rw [setAll_cons]
      rcases ih (s.set w.1 w.2) with ⟨val, hmem, hget⟩ | ⟨hnot, hget⟩
      · exact .inl ⟨val, List.mem_cons_of_mem w hmem, hget⟩
      · rw [hget, get_set]
        by_cases hkey : key = w.1
        · left
          refine ⟨w.2, ?_, if_pos hkey⟩
          rw [hkey]
          exact List.mem_cons_self
        · right
          refine ⟨?_, if_neg hkey⟩
          intro val hmem
          rcases List.mem_cons.mp hmem with rfl | hmem
          · exact hkey rfl
          · exact hnot val hmem

/-- Writes which agree on every key are all kept. -/
theorem get_setAll_of_mem (s : ByteStore) {writes : List (Bytes × Bytes)}
    (hfun : ∀ key val val', (key, val) ∈ writes → (key, val') ∈ writes → val = val')
    {key val : Bytes} (hmem : (key, val) ∈ writes) :
    (s.setAll writes).get key = some val := by
  rcases get_setAll s writes key with ⟨val', hmem', hget⟩ | ⟨hnot, _⟩
  · rw [hget, hfun key val' val hmem' hmem]
  · exact absurd hmem (hnot val)

end ByteStore
end Minotor
