import Minotor.Storage.FileSystem

/-!
# The file-based storage

`storage/file/mod.go`: three stores, each a directory with one file for each
key.  The stores are functions of the file system.  The errors of `os` are
dropped where the source drops them.
-/

namespace Minotor
namespace File

/-- `file.store`. -/
structure Store where
  folderPath : Path
deriving DecidableEq

/-- `file.Storage`. -/
structure Storage where
  folderPath : Path
  blob : Store
  naming : Store
  blockchain : Store
deriving DecidableEq

/-- The constant `blob`. -/
def blob : Bytes := [0x62, 0x6c, 0x6f, 0x62]

/-- The constant `naming`. -/
def naming : Bytes := [0x6e, 0x61, 0x6d, 0x69, 0x6e, 0x67]

/-- The constant `blockchain`. -/
def blockchain : Bytes := [0x62, 0x6c, 0x6f, 0x63, 0x6b, 0x63, 0x68, 0x61, 0x69, 0x6e]

/-- `newStore`; `none` is an error. -/
def newStore (accepts : Bytes → Bool) (fs : FileSystem) (folderPath : Path) :
    Option (FileSystem × Store) :=
  (fs.mkdirAll accepts folderPath).map fun fs => (fs, ⟨folderPath⟩)

/-- `NewPersistency`. -/
def newPersistency (accepts : Bytes → Bool) (fs : FileSystem) (folderPath : Path) :
    Option (FileSystem × Storage) := do
  let fs ← fs.mkdirAll accepts folderPath
  let (fs, blobStore) ← newStore accepts fs (folderPath.join blob)
  let (fs, namingStore) ← newStore accepts fs (folderPath.join naming)
  let (fs, blockchainStore) ← newStore accepts fs (folderPath.join blockchain)
  return (fs, ⟨folderPath, blobStore, namingStore, blockchainStore⟩)

namespace Store

/-- `Get`. -/
def get (s : Store) (fs : FileSystem) (key : Bytes) : Option Bytes :=
  fs.readFile (s.folderPath.join key)

/-- `Set` fails silently. -/
def set (accepts : Bytes → Bool) (s : Store) (fs : FileSystem) (key val : Bytes) : FileSystem :=
  (fs.writeFile accepts (s.folderPath.join key) val).getD fs

/-- `Delete`. -/
def delete (s : Store) (fs : FileSystem) (key : Bytes) : FileSystem :=
  (fs.remove (s.folderPath.join key)).getD fs

/-- The pairs which `ForEach` visits. -/
def forEach (s : Store) (fs : FileSystem) : List (Bytes × Bytes) :=
  ((fs.readDir s.folderPath).getD []).filterMap fun (elem, isDir) =>
    if isDir then none
    else (fs.readFile (s.folderPath.join elem.bytes)).map fun val => (elem.bytes, val)

/-- `Len`. -/
def len (s : Store) (fs : FileSystem) : ℕ :=
  (((fs.readDir s.folderPath).getD []).filter fun (_, isDir) => !isDir).length

/-! ## A store and its directory -/

variable {s : Store} {fs : FileSystem}

/-- The pair of a file in a directory. -/
def pair : PathElem × FileEntry → Option (Bytes × Bytes)
  | (elem, .file data) => some (elem.bytes, data)
  | (_, .dir) => none

@[simp] theorem pair_file (elem : PathElem) (data : Bytes) :
    pair (elem, .file data) = some (elem.bytes, data) := rfl

@[simp] theorem pair_dir (elem : PathElem) : pair (elem, .dir) = none := rfl

theorem forEach_eq (hdir : fs.isDir s.folderPath = true) :
    s.forEach fs = (fs.children s.folderPath).filterMap pair := by
  rw [forEach, FileSystem.readDir, if_pos hdir, Option.getD_some, List.filterMap_map]
  apply List.filterMap_congr
  rintro ⟨elem, entry⟩ hmem
  cases entry with
  | dir => rfl
  | file data =>
      have hread := FileSystem.readFile_eq_some.mpr (FileSystem.mem_children.mp hmem)
      simp only [Function.comp_apply, reduceCtorEq, decide_false, Bool.false_eq_true, if_false,
        Path.join_of_isPathElem _ elem.isPathElem]
      rw [hread]
      rfl

theorem len_eq_length_forEach (hdir : fs.isDir s.folderPath = true) :
    s.len fs = (s.forEach fs).length := by
  rw [forEach_eq hdir, len, FileSystem.readDir, if_pos hdir, Option.getD_some]
  induction fs.children s.folderPath with
  | nil => rfl
  | cons child children ih =>
      obtain ⟨elem, entry⟩ := child
      cases entry with
      | dir =>
          rw [List.map_cons, List.filter_cons_of_neg (by simp),
            List.filterMap_cons_none (pair_dir elem)]
          exact ih
      | file data =>
          rw [List.map_cons, List.filter_cons_of_pos (by simp),
            List.filterMap_cons_some (pair_file elem data), List.length_cons,
            List.length_cons, ih]

theorem mem_forEach (hdir : fs.isDir s.folderPath = true) {key val : Bytes} :
    (key, val) ∈ s.forEach fs ↔
      ∃ h : IsPathElem key, fs.lookup (⟨key, h⟩ :: s.folderPath) = some (.file val) := by
  rw [forEach_eq hdir, List.mem_filterMap]
  constructor
  · rintro ⟨⟨elem, entry⟩, hmem, hpair⟩
    cases entry with
    | dir => exact absurd hpair (by simp)
    | file data =>
        obtain ⟨rfl, rfl⟩ := Prod.mk.inj (Option.some.inj hpair)
        exact ⟨elem.isPathElem, FileSystem.mem_children.mp hmem⟩
  · rintro ⟨h, hlookup⟩
    exact ⟨(⟨key, h⟩, .file val), FileSystem.mem_children.mpr hlookup, rfl⟩

/-- Every pair which `ForEach` visits is that of a file. -/
theorem exists_of_mem_forEach {key val : Bytes} (h : (key, val) ∈ s.forEach fs) :
    ∃ h : IsPathElem key, fs.lookup (⟨key, h⟩ :: s.folderPath) = some (.file val) := by
  by_cases hdir : fs.isDir s.folderPath = true
  · exact (mem_forEach hdir).mp h
  · rw [forEach, FileSystem.readDir, if_neg hdir] at h
    exact absurd h List.not_mem_nil

theorem nodup_forEach (hdir : fs.isDir s.folderPath = true) : (s.forEach fs).Nodup := by
  rw [forEach_eq hdir]
  apply List.Nodup.filterMap
  · rintro ⟨⟨bytes, h⟩, entry⟩ ⟨⟨bytes', h'⟩, entry'⟩ b hb hb'
    cases entry with
    | dir => exact absurd hb (by simp)
    | file data =>
        cases entry' with
        | dir => exact absurd hb' (by simp)
        | file data' =>
            obtain rfl := Option.some.inj hb
            obtain ⟨rfl, rfl⟩ := Prod.mk.inj (Option.some.inj hb')
            rfl
  · exact fs.nodup_children _

end Store
end File
end Minotor
