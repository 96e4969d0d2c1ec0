import Minotor.Types
import Mathlib.Data.List.AList

/-!
# Stores

The in-memory store of `storage/inmemory` as a finite map, and the three
stores of a peer.  A value of the blockchain store is kept as what it encodes:
the JSON text of a block, or the hash under `LastBlockKey`.
-/

namespace Minotor

/-- A store: finitely many string keys, each with one value. -/
def Store (β : Type*) := AList fun _ : String => β

namespace Store

variable {β : Type*}

/-- `newStore`. -/
def empty : Store β := (∅ : AList fun _ : String => β)

/-- `store.Get`; `none` is `nil`. -/
def get (s : Store β) (key : String) : Option β := AList.lookup key s

/-- `store.Set`. -/
def set (s : Store β) (key : String) (val : β) : Store β := AList.insert key val s

/-- The values of a store, as `ForEach` visits them. -/
def values (s : Store β) : List β := s.entries.map Sigma.snd

@[simp] theorem get_empty (key : String) : (empty : Store β).get key = none :=
  AList.lookup_empty key

@[simp] theorem get_set_self (s : Store β) (key : String) (val : β) :
    (s.set key val).get key = some val :=
  AList.lookup_insert s

theorem get_set_ne (s : Store β) {key key' : String} (val : β) (h : key' ≠ key) :
    (s.set key val).get key' = s.get key' :=
  AList.lookup_insert_ne h

theorem get_set (s : Store β) (key key' : String) (val : β) :
    (s.set key val).get key' = if key' = key then some val else s.get key' := by
  split
  · next h => rw [h, get_set_self]
  · next h => exact get_set_ne s val h

theorem mem_values_iff {s : Store β} {val : β} :
    val ∈ s.values ↔ ∃ key, s.get key = some val := by
  unfold values get
  rw [List.mem_map]
  constructor
  · rintro ⟨⟨key, val'⟩, hmem, rfl⟩
    exact ⟨key, AList.mem_lookup_iff.mpr hmem⟩
  · rintro ⟨key, hkey⟩
    exact ⟨⟨key, val⟩, AList.mem_lookup_iff.mp hkey, rfl⟩

/-- How many values satisfy `p` after a write over a value which does not. -/
theorem countP_set {s : Store β} {key : String} {val : β} {p : β → Bool}
    (hold : ∀ old, s.get key = some old → p old = false) :
    (s.set key val).values.countP p = s.values.countP p + if p val then 1 else 0 := by
  have hentries : (s.set key val).entries = ⟨key, val⟩ :: List.kerase key s.entries := rfl
  have hrest : ((List.kerase key s.entries).map Sigma.snd).countP p = s.values.countP p := by
    by_cases hkey : key ∈ s.entries.keys
    · obtain ⟨old, front, rest, -, heq, herase⟩ := List.exists_of_kerase hkey
      have hget : s.get key = some old := by
        refine AList.mem_lookup_iff.mpr ?_
        rw [heq]
        simp
      rw [values, herase, heq, List.map_append, List.map_append, List.map_cons,
        List.countP_append, List.countP_append, List.countP_cons_of_neg]
      rw [hold old hget]
      exact Bool.false_ne_true
    · rw [List.kerase_of_notMem_keys hkey, values]
  rw [values, hentries, List.map_cons, List.countP_cons, hrest]

end Store

/-- `storage.LastBlockKey`. -/
def lastBlockKey : String :=
  "0000000000000000000000000000000000000000000000000000000000000000"

/-- A value of the blockchain store. -/
inductive ChainEntry where
  | block (b : BlockchainBlock)
  | hash (h : Bytes)
deriving DecidableEq, Repr

/-- `storage.Storage`: the three stores of a peer. -/
structure Storage where
  blob : Store Bytes
  naming : Store String
  blockchain : Store ChainEntry

/-- `inmemory.NewPersistency`. -/
def Storage.new : Storage := ⟨.empty, .empty, .empty⟩

/-- `b` is stored in the blockchain store, under whatever key. -/
def Storage.HasBlock (s : Storage) (b : BlockchainBlock) : Prop :=
  .block b ∈ s.blockchain.values

instance (s : Storage) (b : BlockchainBlock) : Decidable (s.HasBlock b) := by
  unfold Storage.HasBlock
  infer_instance

end Minotor
