import Minotor.Support.Digest
import Mathlib.Data.List.AList

/-!
# A file system

What the file-based storage uses of `os` and `filepath`.  A path is absolute and
has no symbolic links.  It is the list of its elements, from the last one to
the root, so that its tail is its directory.  Whether the operating system takes
a name for a new file is a parameter: it refuses a byte 0, and names which are
too long.
-/

namespace Minotor

/-- What may stand between two separators of a clean path: not empty, no `/`,
and neither `.` nor `..`. -/
def IsPathElem (b : Bytes) : Prop :=
  b ≠ [] ∧ 0x2f ∉ b ∧ b ≠ [0x2e] ∧ b ≠ [0x2e, 0x2e]

instance (b : Bytes) : Decidable (IsPathElem b) :=
  inferInstanceAs (Decidable (_ ∧ _))

/-- An element of a clean path. -/
structure PathElem where
  bytes : Bytes
  isPathElem : IsPathElem bytes
deriving DecidableEq

/-- A clean absolute path, from its last element to the root. -/
abbrev Path := List PathElem

/-- One element of a path that is cleaned. -/
def Path.clean (path : Path) (b : Bytes) : Path :=
  if h : IsPathElem b then ⟨b, h⟩ :: path
  else if b = [0x2e, 0x2e] then path.tail
  else path

/-- `filepath.Join` of a clean path and any text. -/
def Path.join (path : Path) (text : Bytes) : Path :=
  (text.splitOn 0x2f).foldl clean path

theorem Path.join_of_isPathElem (path : Path) {key : Bytes} (h : IsPathElem key) :
    path.join key = ⟨key, h⟩ :: path := by
  rw [join, List.splitOn_eq_singleton h.2.1, List.foldl_cons, List.foldl_nil, clean, dif_pos h]

inductive FileEntry where
  | dir
  | file (data : Bytes)
deriving DecidableEq

/-- The files and directories below the root of the file system. -/
def FileSystem := AList fun _ : Path => FileEntry

namespace FileSystem

def empty : FileSystem := (∅ : AList fun _ : Path => FileEntry)

def lookup (fs : FileSystem) (path : Path) : Option FileEntry := AList.lookup path fs

def insert (fs : FileSystem) (path : Path) (entry : FileEntry) : FileSystem :=
  AList.insert path entry fs

def erase (fs : FileSystem) (path : Path) : FileSystem := AList.erase path fs

/-- The root of the file system is always a directory. -/
def isDir (fs : FileSystem) (path : Path) : Bool :=
  decide (path = [] ∨ fs.lookup path = some .dir)

/-- The entries of a directory, and whether they are directories themselves. -/
def children (fs : FileSystem) (path : Path) : List (PathElem × FileEntry) :=
  fs.entries.filterMap fun ⟨p, entry⟩ =>
    match p with
    | [] => none
    | elem :: dir => if dir = path then some (elem, entry) else none

/-- `os.ReadDir`, in some order. -/
def readDir (fs : FileSystem) (path : Path) : Option (List (PathElem × Bool)) :=
  if fs.isDir path then
    some ((fs.children path).map fun (elem, entry) => (elem, decide (entry = .dir)))
  else none

/-- `os.ReadFile`. -/
def readFile (fs : FileSystem) (path : Path) : Option Bytes :=
  match fs.lookup path with
  | some (.file data) => some data
  | _ => none

/-- `os.WriteFile`: it creates or truncates the file. -/
def writeFile (accepts : Bytes → Bool) (fs : FileSystem) (path : Path) (data : Bytes) :
    Option FileSystem :=
  match path with
  | [] => none
  | elem :: dir =>
      if fs.isDir dir ∧ fs.lookup (elem :: dir) ≠ some .dir ∧ accepts elem.bytes then
        some (fs.insert (elem :: dir) (.file data))
      else none

/-- `os.Remove`: a file or an empty directory. -/
def remove (fs : FileSystem) (path : Path) : Option FileSystem :=
  match fs.lookup path with
  | none => none
  | some (.file _) => some (fs.erase path)
  | some .dir => if fs.children path = [] then some (fs.erase path) else none

/-- `os.MkdirAll`. -/
def mkdirAll (accepts : Bytes → Bool) (fs : FileSystem) : Path → Option FileSystem
  | [] => some fs
  | elem :: dir =>
      (fs.mkdirAll accepts dir).bind fun fs =>
        match fs.lookup (elem :: dir) with
        | some .dir => some fs
        | some (.file _) => none
        | none => if accepts elem.bytes then some (fs.insert (elem :: dir) .dir) else none

/-! ## Lookups -/

theorem lookup_insert (fs : FileSystem) (path path' : Path) (entry : FileEntry) :
    (fs.insert path entry).lookup path' = if path' = path then some entry else fs.lookup path' := by
  unfold lookup insert
  split
  · next h =>
      rw [h]
      exact AList.lookup_insert _
  · next h => exact AList.lookup_insert_ne h

theorem lookup_erase (fs : FileSystem) (path path' : Path) :
    (fs.erase path).lookup path' = if path' = path then none else fs.lookup path' := by
  unfold lookup erase
  split
  · next h =>
      rw [h]
      exact AList.lookup_erase _ _
  · next h => exact AList.lookup_erase_ne h

theorem mem_children {fs : FileSystem} {path : Path} {elem : PathElem} {entry : FileEntry} :
    (elem, entry) ∈ fs.children path ↔ fs.lookup (elem :: path) = some entry := by
  rw [children, List.mem_filterMap]
  constructor
  · rintro ⟨⟨p, entry'⟩, hmem, heq⟩
    cases p with
    | nil => exact absurd heq (by simp)
    | cons elem' dir =>
        simp only at heq
        split at heq
        · next hdir =>
            simp only [Option.some.injEq, Prod.mk.injEq] at heq
            obtain ⟨rfl, rfl⟩ := heq
            rw [← hdir]
            exact AList.mem_lookup_iff.mpr hmem
        · exact absurd heq (by simp)
  · intro h
    refine ⟨⟨elem :: path, entry⟩, AList.mem_lookup_iff.mp h, ?_⟩
    exact if_pos rfl

theorem nodup_children (fs : FileSystem) (path : Path) : (fs.children path).Nodup := by
  apply List.Nodup.filterMap
  · rintro ⟨p, entry⟩ ⟨p', entry'⟩ b hb hb'
    cases p with
    | nil => exact absurd hb (by simp)
    | cons elem dir =>
        cases p' with
        | nil => exact absurd hb' (by simp)
        | cons elem' dir' =>
            simp only [Option.mem_def, Option.ite_none_right_eq_some, Option.some.injEq] at hb hb'
            obtain ⟨rfl, rfl⟩ := hb
            obtain ⟨rfl, heq⟩ := hb'
            obtain ⟨rfl, rfl⟩ := Prod.mk.inj heq
            rfl
  · exact fs.nodupKeys.nodup

theorem isDir_iff {fs : FileSystem} {path : Path} :
    fs.isDir path = true ↔ path = [] ∨ fs.lookup path = some .dir := decide_eq_true_iff

theorem readFile_eq_some {fs : FileSystem} {path : Path} {data : Bytes} :
    fs.readFile path = some data ↔ fs.lookup path = some (.file data) := by
  rw [readFile]
  split
  · next data' h =>
      rw [h, Option.some.injEq, Option.some.injEq, FileEntry.file.injEq]
  · next h =>
      constructor
      · exact fun heq => absurd heq (by simp)
      · exact fun heq => absurd heq (h data)

/-! ## `MkdirAll` -/

/-- `MkdirAll` makes directories where nothing was. -/
theorem mkdirAll_lookup {accepts : Bytes → Bool} {fs fs' : FileSystem} {path : Path}
    (h : fs.mkdirAll accepts path = some fs') (q : Path) :
    fs'.lookup q = fs.lookup q ∨ q <:+ path ∧ fs'.lookup q = some .dir := by
  induction path generalizing fs' with
  | nil =>
      obtain rfl := Option.some.inj h
      exact .inl rfl
  | cons elem dir ih =>
      obtain ⟨fs₁, hdir, h⟩ := Option.bind_eq_some_iff.mp h
      have hq : fs₁.lookup q = fs.lookup q ∨ q <:+ elem :: dir ∧ fs₁.lookup q = some .dir := by
        rcases ih hdir with hq | ⟨hsuffix, hq⟩
        · exact .inl hq
        · exact .inr ⟨hsuffix.trans (List.suffix_cons elem dir), hq⟩
      split at h
      · obtain rfl := Option.some.inj h
        exact hq
      · exact absurd h (by simp)
      · split at h
        · obtain rfl := Option.some.inj h
          rw [lookup_insert]
          split
          · next heq => exact .inr ⟨heq ▸ List.suffix_rfl, rfl⟩
          · exact hq
        · exact absurd h (by simp)

theorem mkdirAll_isDir {accepts : Bytes → Bool} {fs fs' : FileSystem} {path : Path}
    (h : fs.mkdirAll accepts path = some fs') : fs'.isDir path = true := by
  cases path with
  | nil => exact isDir_iff.mpr (.inl rfl)
  | cons elem dir =>
      obtain ⟨fs₁, _, h⟩ := Option.bind_eq_some_iff.mp h
      apply isDir_iff.mpr
      right
      split at h
      · next hlookup =>
          obtain rfl := Option.some.inj h
          exact hlookup
      · exact absurd h (by simp)
      · split at h
        · obtain rfl := Option.some.inj h
          rw [lookup_insert, if_pos rfl]
        · exact absurd h (by simp)

/-- Directories stay directories. -/
theorem mkdirAll_isDir_of_isDir {accepts : Bytes → Bool} {fs fs' : FileSystem} {path q : Path}
    (h : fs.mkdirAll accepts path = some fs') (hq : fs.isDir q = true) : fs'.isDir q = true := by
  apply isDir_iff.mpr
  rcases isDir_iff.mp hq with hnil | hdir
  · exact .inl hnil
  · right
    rcases mkdirAll_lookup h q with heq | ⟨_, heq⟩
    · rw [heq, hdir]
    · exact heq

/-- Nothing changes below the path. -/
theorem mkdirAll_lookup_of_length_lt {accepts : Bytes → Bool} {fs fs' : FileSystem}
    {path q : Path} (h : fs.mkdirAll accepts path = some fs') (hq : path.length < q.length) :
    fs'.lookup q = fs.lookup q := by
  rcases mkdirAll_lookup h q with heq | ⟨hsuffix, _⟩
  · exact heq
  · exact absurd hsuffix.length_le (by omega)

end FileSystem
end Minotor
