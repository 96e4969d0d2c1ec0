import Minotor.Storage.File
import Minotor.Storage.InMemory
import Minotor.Support.Service
import Mathlib.Data.Finset.Dedup
import Mathlib.Data.List.NodupEquivFin

/-!
# The file-based storage against the in-memory one

Both storages are services over the operations of their three stores.  The
file-based one joins a key to a path, so it agrees with the in-memory one for
exactly those keys which name a file in the directory of their store.
-/

namespace Minotor

/-! ## Operations -/

/-- The stores of a `storage.Storage`. -/
inductive StoreName where
  | blob
  | naming
  | blockchain
deriving DecidableEq

/-- The operations of a `storage.Store`. -/
inductive StoreOp where
  | get (key : Bytes)
  | set (key val : Bytes)
  | delete (key : Bytes)
  | len
  | forEach
deriving DecidableEq

/-- The answer to an operation; `ForEach` visits a set of pairs. -/
inductive StoreAnswer where
  | done
  | val (val : Option Bytes)
  | len (len : ℕ)
  | pairs (pairs : Finset (Bytes × Bytes))
deriving DecidableEq

/-- The key of the operation, if it has one, is in `K`. -/
def StoreOp.KeyIn (K : Set Bytes) : StoreOp → Prop
  | .get key => key ∈ K
  | .set key _ => key ∈ K
  | .delete key => key ∈ K
  | .len => True
  | .forEach => True

def ByteStore.exec (s : ByteStore) : StoreOp → ByteStore × StoreAnswer
  | .get key => (s, .val (s.get key))
  | .set key val => (s.set key val, .done)
  | .delete key => (s.delete key, .done)
  | .len => (s, .len s.len)
  | .forEach => (s, .pairs s.forEach.toFinset)

namespace InMemory

/-- `inmemory.Storage`. -/
structure Storage where
  blob : ByteStore
  naming : ByteStore
  blockchain : ByteStore

/-- `NewPersistency`. -/
def newPersistency : Storage := ⟨.empty, .empty, .empty⟩

namespace Storage

def store (st : Storage) : StoreName → ByteStore
  | .blob => st.blob
  | .naming => st.naming
  | .blockchain => st.blockchain

def put (st : Storage) (s : ByteStore) : StoreName → Storage
  | .blob => { st with blob := s }
  | .naming => { st with naming := s }
  | .blockchain => { st with blockchain := s }

theorem store_put (st : Storage) (s : ByteStore) (n m : StoreName) :
    (st.put s n).store m = if m = n then s else st.store m := by
  cases n <;> cases m <;> rfl

end Storage

/-- The in-memory storage. -/
def service : Service Storage (StoreName × StoreOp) StoreAnswer where
  call st := fun (n, op) => (st.put ((st.store n).exec op).1 n, ((st.store n).exec op).2)

/-- An operation on one store does not change the answers of another. -/
theorem call_of_ne (st : Storage) {n m : StoreName} (h : m ≠ n) (op op' : StoreOp) :
    (service.call (service.call st (n, op)).1 (m, op')).2 = (service.call st (m, op')).2 := by
  simp only [service, Storage.store_put, if_neg h]

end InMemory

namespace File

def Store.exec (accepts : Bytes → Bool) (s : Store) (fs : FileSystem) :
    StoreOp → FileSystem × StoreAnswer
  | .get key => (fs, .val (s.get fs key))
  | .set key val => (s.set accepts fs key val, .done)
  | .delete key => (s.delete fs key, .done)
  | .len => (fs, .len (s.len fs))
  | .forEach => (fs, .pairs (s.forEach fs).toFinset)

namespace Storage

def store (st : Storage) : StoreName → Store
  | .blob => st.blob
  | .naming => st.naming
  | .blockchain => st.blockchain

/-- The file-based storage. -/
def service (accepts : Bytes → Bool) (st : Storage) :
    Service FileSystem (StoreName × StoreOp) StoreAnswer where
  call fs := fun (n, op) => (st.store n).exec accepts fs op

end Storage
end File

/-! ## The directories of the stores -/

/-- The name of the directory of a store. -/
def StoreName.elem : StoreName → PathElem
  | .blob => ⟨File.blob, by decide⟩
  | .naming => ⟨File.naming, by decide⟩
  | .blockchain => ⟨File.blockchain, by decide⟩

theorem StoreName.elem_injective : Function.Injective elem := by
  intro n m h
  cases n <;> cases m <;> first | rfl | exact absurd h (by decide)

namespace File

variable {accepts : Bytes → Bool} {fs fs' : FileSystem} {folderPath : Path} {st : Storage}
  {mem : InMemory.Storage}

/-- The directory of every store has the files of the in-memory store, and
nothing else. -/
structure Represents (folderPath : Path) (st : Storage) (fs : FileSystem)
    (mem : InMemory.Storage) : Prop where
  folder : ∀ n, (st.store n).folderPath = n.elem :: folderPath
  isDir : ∀ n : StoreName, fs.isDir (n.elem :: folderPath) = true
  lookup : ∀ (n : StoreName) (elem : PathElem),
    fs.lookup (elem :: n.elem :: folderPath) = ((mem.store n).get elem.bytes).map .file
  isPathElem : ∀ n key val, (mem.store n).get key = some val → IsPathElem key

theorem StoreName.join_elem (n : StoreName) (path : Path) :
    path.join n.elem.bytes = n.elem :: path :=
  Path.join_of_isPathElem path n.elem.isPathElem

theorem newStore_eq_some {path : Path} {s : Store}
    (h : newStore accepts fs path = some (fs', s)) :
    fs.mkdirAll accepts path = some fs' ∧ s = ⟨path⟩ := by
  obtain ⟨fs₁, hfs₁, heq⟩ := Option.map_eq_some_iff.mp h
  obtain ⟨rfl, rfl⟩ := Prod.mk.inj heq
  exact ⟨hfs₁, rfl⟩

/-- What `NewPersistency` makes. -/
theorem newPersistency_eq_some (h : newPersistency accepts fs folderPath = some (fs', st)) :
    ∃ fs₁ fs₂ fs₃, fs.mkdirAll accepts folderPath = some fs₁ ∧
      fs₁.mkdirAll accepts (StoreName.blob.elem :: folderPath) = some fs₂ ∧
      fs₂.mkdirAll accepts (StoreName.naming.elem :: folderPath) = some fs₃ ∧
      fs₃.mkdirAll accepts (StoreName.blockchain.elem :: folderPath) = some fs' ∧
      ∀ n, (st.store n).folderPath = n.elem :: folderPath := by
  obtain ⟨fs₁, h₁, h⟩ := Option.bind_eq_some_iff.mp h
  obtain ⟨⟨fs₂, _⟩, hblob, h⟩ := Option.bind_eq_some_iff.mp h
  obtain ⟨⟨fs₃, _⟩, hnaming, h⟩ := Option.bind_eq_some_iff.mp h
  obtain ⟨⟨fs₄, _⟩, hblockchain, h⟩ := Option.bind_eq_some_iff.mp h
  obtain ⟨h₂, rfl⟩ := newStore_eq_some hblob
  obtain ⟨h₃, rfl⟩ := newStore_eq_some hnaming
  obtain ⟨h₄, rfl⟩ := newStore_eq_some hblockchain
  obtain ⟨rfl, rfl⟩ := Prod.mk.inj (Option.some.inj h)
  refine ⟨fs₁, fs₂, fs₃, h₁, ?_, ?_, ?_, ?_⟩
  · rw [← StoreName.join_elem]
    exact h₂
  · rw [← StoreName.join_elem]
    exact h₃
  · rw [← StoreName.join_elem]
    exact h₄
  · intro n
    rw [← StoreName.join_elem]
    cases n <;> rfl

/-- `NewPersistency` makes the three directories and no file. -/
theorem newPersistency_represents
    (hempty : ∀ (n : StoreName) (elem : PathElem),
      fs.lookup (elem :: n.elem :: folderPath) = none)
    (hnew : newPersistency accepts fs folderPath = some (fs', st)) :
    Represents folderPath st fs' InMemory.newPersistency := by
  obtain ⟨fs₁, fs₂, fs₃, h₁, h₂, h₃, h₄, hfolder⟩ := newPersistency_eq_some hnew
  constructor
  · exact hfolder
  · intro n
    cases n with
    | blob =>
        exact FileSystem.mkdirAll_isDir_of_isDir h₄
          (FileSystem.mkdirAll_isDir_of_isDir h₃ (FileSystem.mkdirAll_isDir h₂))
    | naming => exact FileSystem.mkdirAll_isDir_of_isDir h₄ (FileSystem.mkdirAll_isDir h₃)
    | blockchain => exact FileSystem.mkdirAll_isDir h₄
  · intro n elem
    rw [FileSystem.mkdirAll_lookup_of_length_lt h₄ (by simp),
      FileSystem.mkdirAll_lookup_of_length_lt h₃ (by simp),
      FileSystem.mkdirAll_lookup_of_length_lt h₂ (by simp),
      FileSystem.mkdirAll_lookup_of_length_lt h₁ (by simp only [List.length_cons]; omega), hempty]
    cases n <;> rfl
  · intro n key val hget
    cases n <;> exact absurd hget (by simp [InMemory.newPersistency, InMemory.Storage.store])

namespace Represents

/-- A file with a new content, or with none, in one directory. -/
theorem put (h : Represents folderPath st fs mem) {n : StoreName} {key : Bytes}
    (hkey : IsPathElem key) {s : ByteStore}
    (hother : ∀ path, path ≠ ⟨key, hkey⟩ :: n.elem :: folderPath →
      fs'.lookup path = fs.lookup path)
    (hsame : fs'.lookup (⟨key, hkey⟩ :: n.elem :: folderPath) = (s.get key).map .file)
    (hget : ∀ key', key' ≠ key → s.get key' = (mem.store n).get key') :
    Represents folderPath st fs' (mem.put s n) := by
  constructor
  · exact h.folder
  · intro m
    have hne : m.elem :: folderPath ≠ ⟨key, hkey⟩ :: n.elem :: folderPath := by
      intro heq
      have hlength := congrArg List.length heq
      simp at hlength
    have hdir := FileSystem.isDir_iff.mp (h.isDir m)
    rw [← hother _ hne] at hdir
    exact FileSystem.isDir_iff.mpr hdir
  · intro m elem
    rw [InMemory.Storage.store_put]
    by_cases hm : m = n
    · rw [if_pos hm, hm]
      by_cases helem : elem = ⟨key, hkey⟩
      · rw [helem]
        exact hsame
      · have hbytes : elem.bytes ≠ key := fun heq => helem (PathElem.mk.injEq .. ▸ heq)
        rw [hother _ fun heq => helem (List.cons.inj heq).1, h.lookup, hget _ hbytes]
    · rw [if_neg hm, hother, h.lookup]
      intro heq
      exact hm (StoreName.elem_injective (List.cons.inj (List.cons.inj heq).2).1)
  · intro m key' val hval
    rw [InMemory.Storage.store_put] at hval
    split at hval
    · by_cases hkey' : key' = key
      · rw [hkey']
        exact hkey
      · rw [hget key' hkey'] at hval
        exact h.isPathElem n key' val hval
    · exact h.isPathElem m key' val hval

theorem join_eq (h : Represents folderPath st fs mem) (n : StoreName) {key : Bytes}
    (hkey : IsPathElem key) :
    (st.store n).folderPath.join key = ⟨key, hkey⟩ :: n.elem :: folderPath := by
  rw [h.folder, Path.join_of_isPathElem _ hkey]

theorem get_eq (h : Represents folderPath st fs mem) (n : StoreName) {key : Bytes}
    (hkey : IsPathElem key) : (st.store n).get fs key = (mem.store n).get key := by
  rw [Store.get, h.join_eq n hkey, FileSystem.readFile, h.lookup]
  cases (mem.store n).get key <;> rfl

theorem set (h : Represents folderPath st fs mem) (n : StoreName) {key : Bytes} (val : Bytes)
    (hkey : IsPathElem key) (haccepts : accepts key = true) :
    Represents folderPath st ((st.store n).set accepts fs key val)
      (mem.put ((mem.store n).set key val) n) := by
  have hnodir : fs.lookup (⟨key, hkey⟩ :: n.elem :: folderPath) ≠ some .dir := by
    rw [h.lookup]
    cases (mem.store n).get key <;> simp
  have hset : (st.store n).set accepts fs key val =
      fs.insert (⟨key, hkey⟩ :: n.elem :: folderPath) (.file val) := by
    rw [Store.set, h.join_eq n hkey, FileSystem.writeFile,
      if_pos ⟨h.isDir n, hnodir, haccepts⟩, Option.getD_some]
  rw [hset]
  apply h.put hkey
  · intro path hne
    rw [FileSystem.lookup_insert, if_neg hne]
  · rw [FileSystem.lookup_insert, if_pos rfl, ByteStore.get_set, if_pos rfl, Option.map_some]
  · intro key' hne
    rw [ByteStore.get_set, if_neg hne]

theorem delete (h : Represents folderPath st fs mem) (n : StoreName) {key : Bytes}
    (hkey : IsPathElem key) :
    Represents folderPath st ((st.store n).delete fs key)
      (mem.put ((mem.store n).delete key) n) := by
  have hlookup := h.lookup n ⟨key, hkey⟩
  have hnone : ((mem.store n).delete key).get key = none := by
    rw [ByteStore.get_delete, if_pos rfl]
  have hget : ∀ key', key' ≠ key →
      ((mem.store n).delete key).get key' = (mem.store n).get key' := by
    intro key' hne
    rw [ByteStore.get_delete, if_neg hne]
  rw [Store.delete, h.join_eq n hkey, FileSystem.remove, hlookup]
  cases hold : (mem.store n).get key with
  | none =>
      refine h.put hkey (fun path _ => rfl) ?_ hget
      rw [Option.map_none, Option.getD_none, hlookup, hold, hnone]
  | some val =>
      refine h.put hkey ?_ ?_ hget
      · intro path hne
        exact (FileSystem.lookup_erase _ _ _).trans (if_neg hne)
      · rw [hnone]
        exact (FileSystem.lookup_erase _ _ _).trans (if_pos rfl)

theorem forEach_perm (h : Represents folderPath st fs mem) (n : StoreName) :
    ((st.store n).forEach fs).Perm (mem.store n).forEach := by
  have hdir : fs.isDir (st.store n).folderPath = true := by
    rw [h.folder]
    exact h.isDir n
  apply (List.perm_ext_iff_of_nodup (Store.nodup_forEach hdir)
    (ByteStore.nodup_forEach _)).mpr
  rintro ⟨key, val⟩
  rw [Store.mem_forEach hdir, ByteStore.mem_forEach, h.folder]
  constructor
  · rintro ⟨hkey, hlookup⟩
    rw [h.lookup] at hlookup
    obtain ⟨val', hget, heq⟩ := Option.map_eq_some_iff.mp hlookup
    rw [hget, FileEntry.file.inj heq]
  · intro hget
    refine ⟨h.isPathElem n key val hget, ?_⟩
    rw [h.lookup, hget, Option.map_some]

theorem len_eq (h : Represents folderPath st fs mem) (n : StoreName) :
    (st.store n).len fs = (mem.store n).len := by
  have hdir : fs.isDir (st.store n).folderPath = true := by
    rw [h.folder]
    exact h.isDir n
  rw [Store.len_eq_length_forEach hdir, (h.forEach_perm n).length_eq]
  exact List.length_map _

end Represents

/-! ## Refinement -/

/-- An operation whose key names a file is answered as in memory. -/
theorem simulates (accepts : Bytes → Bool) (folderPath : Path) (st : Storage) {K : Set Bytes}
    (hK : ∀ key ∈ K, IsPathElem key ∧ accepts key = true) :
    (st.service accepts).Simulates InMemory.service (fun i => i.2.KeyIn K)
      (Represents folderPath st) := by
  rintro fs mem ⟨n, op⟩ hkey h
  have hsame : Represents folderPath st fs (mem.put (mem.store n) n) := by
    have heq : mem.put (mem.store n) n = mem := by cases n <;> rfl
    rw [heq]
    exact h
  cases op with
  | get key =>
      refine ⟨?_, hsame⟩
      exact congrArg StoreAnswer.val (h.get_eq n (hK key hkey).1)
  | set key val => exact ⟨rfl, h.set n val (hK key hkey).1 (hK key hkey).2⟩
  | delete key => exact ⟨rfl, h.delete n (hK key hkey).1⟩
  | len =>
      refine ⟨?_, hsame⟩
      exact congrArg StoreAnswer.len (h.len_eq n)
  | forEach =>
      refine ⟨?_, hsame⟩
      exact congrArg StoreAnswer.pairs (List.toFinset_eq_of_perm _ _ (h.forEach_perm n))

/-- A key which `ForEach` visits after a `Set` on an empty store is the name of a
file. -/
theorem isPathElem_of_mem_forEach (h : Represents folderPath st fs InMemory.newPersistency)
    {n : StoreName} {key val : Bytes}
    (hmem : (key, val) ∈ (st.store n).forEach ((st.store n).set accepts fs key val)) :
    IsPathElem key ∧ accepts key = true := by
  obtain ⟨hkey, hlookup⟩ := Store.exists_of_mem_forEach hmem
  refine ⟨hkey, ?_⟩
  by_contra haccepts
  have hset : (st.store n).set accepts fs key val = fs := by
    rw [Store.set, h.join_eq n hkey, FileSystem.writeFile,
      if_neg fun hall => haccepts hall.2.2, Option.getD_none]
  rw [hset, h.folder, h.lookup] at hlookup
  cases n <;> exact absurd hlookup (by simp [InMemory.newPersistency, InMemory.Storage.store])

/-- The file-based storage gives the answers of the in-memory one to every
sequence of operations with keys in `K`, and no `Set` on one store changes the
answers of another, if and only if every key in `K` is the name of a file. -/
theorem refines_inmemory_iff (accepts : Bytes → Bool) (fs fs' : FileSystem) (folderPath : Path)
    (st : Storage)
    (hempty : ∀ (n : StoreName) (elem : PathElem),
      fs.lookup (elem :: n.elem :: folderPath) = none)
    (hnew : newPersistency accepts fs folderPath = some (fs', st)) (K : Set Bytes) :
    (∀ ops : List (StoreName × StoreOp), (∀ op ∈ ops, op.2.KeyIn K) →
      (st.service accepts).answers fs' ops =
          InMemory.service.answers InMemory.newPersistency ops ∧
        ∀ n m key val op, n ≠ m → key ∈ K → StoreOp.KeyIn K op →
          ((st.service accepts).call
              ((st.service accepts).call ((st.service accepts).after fs' ops)
                (n, .set key val)).1 (m, op)).2 =
            ((st.service accepts).call ((st.service accepts).after fs' ops) (m, op)).2) ↔
      ∀ key ∈ K, IsPathElem key ∧ accepts key = true := by
  have hrep := newPersistency_represents hempty hnew
  constructor
  · intro h key hkey
    have hall := (h [(.blob, .set key []), (.blob, .forEach)]
      (by simpa [StoreOp.KeyIn] using hkey)).1
    have hpairs := StoreAnswer.pairs.inj (List.cons.inj (List.cons.inj hall).2).1
    have hmem : (key, []) ∈ (ByteStore.empty.set key []).forEach :=
      ByteStore.mem_forEach.mpr (by rw [ByteStore.get_set, if_pos rfl])
    exact isPathElem_of_mem_forEach hrep
      (List.mem_toFinset.mp (hpairs ▸ List.mem_toFinset.mpr hmem))
  · intro hK ops hops
    have hsim := simulates accepts folderPath st hK
    refine ⟨hsim.answers_eq hrep hops, ?_⟩
    intro n m key val op hne hkey hop
    have hafter := hsim.after hrep hops
    obtain ⟨_, hset⟩ := hsim _ _ (n, .set key val) hkey hafter
    rw [(hsim _ _ (m, op) hop hset).1, (hsim _ _ (m, op) hop hafter).1]
    exact InMemory.call_of_ne _ hne.symm (.set key val) op

/-! ## A storage in the folder `/d` -/

/-- A name without a byte 0 and of at most 255 bytes. -/
def acceptsName (name : Bytes) : Bool := !name.contains 0 && decide (name.length ≤ 255)

/-- The folder `/d`. -/
def dataFolder : Path := [⟨[0x64], by decide⟩]

/-- The file system with the three empty stores. -/
def dataFiles : FileSystem :=
  (((FileSystem.empty.insert dataFolder .dir).insert
    (StoreName.blob.elem :: dataFolder) .dir).insert
    (StoreName.naming.elem :: dataFolder) .dir).insert
    (StoreName.blockchain.elem :: dataFolder) .dir

def dataStorage : Storage where
  folderPath := dataFolder
  blob := ⟨StoreName.blob.elem :: dataFolder⟩
  naming := ⟨StoreName.naming.elem :: dataFolder⟩
  blockchain := ⟨StoreName.blockchain.elem :: dataFolder⟩

/-- The key `x` names a file. -/
theorem refines_inmemory_of_plainKey :
    (dataStorage.service acceptsName).answers dataFiles
        [(.naming, .set [0x78] [1]), (.blob, .get [0x78]), (.naming, .forEach)] =
      InMemory.service.answers InMemory.newPersistency
        [(.naming, .set [0x78] [1]), (.blob, .get [0x78]), (.naming, .forEach)] := by
  have hiff := refines_inmemory_iff acceptsName .empty dataFiles dataFolder dataStorage
    (fun _ _ => rfl) rfl {[0x78]}
  refine (hiff.mpr ?_ _ ?_).1
  · intro key hkey
    rw [hkey]
    decide
  · simp [StoreOp.KeyIn]

/-- A `Set` of the name `../blob/x`, and a `Get` of the blob `x`. -/
def parentKeyOps : List (StoreName × StoreOp) :=
  [(.naming, .set [0x2e, 0x2e, 0x2f, 0x62, 0x6c, 0x6f, 0x62, 0x2f, 0x78] [1]),
    (.blob, .get [0x78])]

/-- The name `../blob/x` writes the blob `x`. -/
theorem not_refines_inmemory_of_parentKey :
    newPersistency acceptsName .empty dataFolder = some (dataFiles, dataStorage) ∧
      (dataStorage.service acceptsName).answers dataFiles parentKeyOps =
        [.done, .val (some [1])] ∧
      (dataStorage.service acceptsName).answers dataFiles parentKeyOps ≠
        InMemory.service.answers InMemory.newPersistency parentKeyOps :=
  ⟨rfl, by decide, by decide⟩

end File
end Minotor
