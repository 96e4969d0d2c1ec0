import Minotor.Support.Base64
import Minotor.Support.Json
import Mathlib.Data.Finmap
import Mathlib.Data.Finset.Sort
import Mathlib.Data.String.Basic

/-!
# Values as JSON

How values of a type are written as JSON and read from it.  A value is read into a variable
which has one already: null leaves most of them as they are, and a record keeps the fields
which an object does not name.

Codecs are put together along the type.  Each has the law that a canonical value is read
back from what is written.
-/

namespace Minotor.Json

/-- How values of a type are written and read. -/
structure Codec (α : Type*) where
  /-- what a new variable holds -/
  zero : α
  encode : α → Option Json
  /-- what a variable holds after a value was read into it -/
  decode : α → Json → Option α
  /-- the values which are read back as they are -/
  Canonical : α → Prop
  decode_encode : ∀ {v}, Canonical v → ∃ j, encode v = some j ∧ decode zero j = some v

/-- The fields of a record, from the first one on. -/
structure Fields (α : Type*) where
  zero : α
  names : List String
  encode : α → Option (List (Bytes × Json))
  /-- one field of an object is read; the others of the record stay -/
  update : α → Bytes × Json → Option α
  Canonical : α → Prop
  update_encode : ∀ {v}, Canonical v → ∃ fs, encode v = some fs ∧ fs.foldlM update zero = some v ∧
    ∀ f ∈ fs, ∃ name ∈ names, f.1 = stringBytes name

namespace Codec

variable {α β : Type*}

/-- The text of a value. -/
def marshal (c : Codec α) (v : α) : Option Bytes := (c.encode v).map Json.print

/-- A text is read into a new variable. -/
def unmarshal (c : Codec α) (text : Bytes) : Option α := (Json.parse text).bind (c.decode c.zero)

/-- A canonical value is read back from its text. -/
theorem unmarshal_marshal (c : Codec α) {v : α} (h : c.Canonical v) :
    ∃ j, c.encode v = some j ∧ c.marshal v = some j.print ∧ c.unmarshal j.print = some v := by
  obtain ⟨j, hencode, hdecode⟩ := c.decode_encode h
  refine ⟨j, hencode, ?_, ?_⟩
  · rw [marshal, hencode, Option.map_some]
  · rw [unmarshal, parse_print, Option.bind_some, hdecode]

/-! ## Plain values -/

theorem fromUTF8?_stringBytes (s : String) :
    String.fromUTF8? (stringBytes s).toByteArray = some s := by
  have hbytes : (stringBytes s).toByteArray = s.toByteArray := by
    apply ByteArray.ext
    rw [List.data_toByteArray, stringBytes_eq, Array.toArray_toList]
  rw [hbytes, String.fromUTF8?, dif_pos s.isValidUTF8]
  rfl

def string : Codec String where
  zero := ""
  encode s := some (.str (stringBytes s))
  decode s
    | .null => some s
    | .str bytes => String.fromUTF8? bytes.toByteArray
    | _ => none
  Canonical _ := True
  decode_encode {s} _ := ⟨_, rfl, fromUTF8?_stringBytes s⟩

def bool : Codec Bool where
  zero := false
  encode b := some (.bool b)
  decode b
    | .null => some b
    | .bool b => some b
    | _ => none
  Canonical _ := True
  decode_encode _ := ⟨_, rfl, rfl⟩

def uint64 : Codec UInt64 where
  zero := 0
  encode n := some (.num (.ofNat n.toNat))
  decode n
    | .null => some n
    | .num m => m.toNat?.bind fun k => if k < UInt64.size then some (UInt64.ofNat k) else none
    | _ => none
  Canonical _ := True
  decode_encode {n} _ := by
    refine ⟨_, rfl, ?_⟩
    dsimp only
    rw [Number.toNat?_ofNat, Option.bind_some, if_pos n.toNat_lt, UInt64.ofNat_toNat]

/-- An element of a byte slice which is written as an array. -/
def decodeByte : Json → Option UInt8
  | .null => some 0
  | .num m => m.toNat?.bind fun k => if k < UInt8.size then some (UInt8.ofNat k) else none
  | _ => none

/-- A byte slice, which may be nil. -/
def bytes : Codec (Option Bytes) where
  zero := none
  encode
    | none => some .null
    | some bs => some (.str (Base64.encode bs))
  decode _
    | .null => some none
    | .str text => (Base64.decode text).map some
    | .arr elems => (elems.mapM decodeByte).map some
    | _ => none
  Canonical _ := True
  decode_encode {v} _ := by
    cases v with
    | none => exact ⟨_, rfl, rfl⟩
    | some bs =>
        refine ⟨_, rfl, ?_⟩
        dsimp only
        rw [Base64.decode_encode, Option.map_some]

/-- A text which stands for itself and is checked when it is written. -/
def raw : Codec (Option Bytes) where
  zero := none
  encode
    | none => some .null
    | some text => Json.parse text
  decode _ j := some (some j.print)
  Canonical v := ∃ j, v = some (Json.print j)
  decode_encode {v} h := by
    obtain ⟨j, rfl⟩ := h
    exact ⟨j, parse_print j, rfl⟩

/-! ## Pointers, slices and maps -/

/-- A pointer, which may be nil. -/
def ptr (c : Codec α) (hnull : ∀ v, c.encode v ≠ some .null) : Codec (Option α) where
  zero := none
  encode
    | none => some .null
    | some v => c.encode v
  decode v
    | .null => some none
    | j => (c.decode (v.getD c.zero) j).map some
  Canonical v := ∀ x ∈ v, c.Canonical x
  decode_encode {v} h := by
    cases v with
    | none => exact ⟨_, rfl, rfl⟩
    | some v =>
        obtain ⟨j, hencode, hdecode⟩ := c.decode_encode (h v rfl)
        refine ⟨j, hencode, ?_⟩
        cases j with
        | null => exact absurd hencode (hnull v)
        | _ =>
            dsimp only
            rw [Option.getD_none, hdecode, Option.map_some]

theorem mapM_encode (c : Codec α) {vs : List α} (h : ∀ v ∈ vs, c.Canonical v) :
    ∃ js, vs.mapM c.encode = some js ∧ js.mapM (c.decode c.zero) = some vs := by
  induction vs with
  | nil => exact ⟨[], rfl, rfl⟩
  | cons v vs ih =>
      obtain ⟨j, hencode, hdecode⟩ := c.decode_encode (h v List.mem_cons_self)
      obtain ⟨js, hencodes, hdecodes⟩ := ih fun w hw => h w (List.mem_cons_of_mem v hw)
      refine ⟨j :: js, ?_, ?_⟩
      · rw [List.mapM_cons, hencode, hencodes]
        rfl
      · rw [List.mapM_cons, hdecode, hdecodes]
        rfl

/-- A slice, which may be nil. -/
def slice (c : Codec α) : Codec (Option (List α)) where
  zero := none
  encode
    | none => some .null
    | some vs => (vs.mapM c.encode).map .arr
  decode _
    | .null => some none
    | .arr js => (js.mapM (c.decode c.zero)).map some
    | _ => none
  Canonical v := ∀ vs ∈ v, ∀ x ∈ vs, c.Canonical x
  decode_encode {v} h := by
    cases v with
    | none => exact ⟨_, rfl, rfl⟩
    | some vs =>
        obtain ⟨js, hencode, hdecode⟩ := c.mapM_encode (h vs rfl)
        refine ⟨.arr js, ?_, ?_⟩
        · dsimp only
          rw [hencode, Option.map_some]
        · dsimp only
          rw [hdecode, Option.map_some]

/-- A map with strings as keys. -/
abbrev StringMap (α : Type*) := Finmap fun _ : String => α

/-- The entries of a map in the order of their keys. -/
def entries (m : StringMap α) : List (String × α) :=
  (m.keys.sort (· ≤ ·)).filterMap fun k => (m.lookup k).map (Prod.mk k)

theorem mem_entries {m : StringMap α} {k : String} {v : α} :
    (k, v) ∈ entries m ↔ m.lookup k = some v := by
  simp only [entries, List.mem_filterMap, Option.map_eq_some_iff, Prod.mk.injEq]
  constructor
  · rintro ⟨k', -, v', hlookup, rfl, rfl⟩
    exact hlookup
  · intro hlookup
    refine ⟨k, ?_, v, hlookup, rfl, rfl⟩
    rw [Finset.mem_sort, Finmap.mem_keys, ← Finmap.lookup_isSome, hlookup]
    rfl

def insertAll (m : StringMap α) (es : List (String × α)) : StringMap α :=
  es.foldl (fun m e => m.insert e.1 e.2) m

theorem lookup_insertAll {m m' : StringMap α} {es : List (String × α)}
    (h : ∀ e ∈ es, m.lookup e.1 = some e.2) (k : String) :
    (insertAll m' es).lookup k = if k ∈ es.map Prod.fst then m.lookup k else m'.lookup k := by
  induction es generalizing m' with
  | nil => rfl
  | cons e es ih =>
      have hrest : ∀ e ∈ es, m.lookup e.1 = some e.2 := fun f hf => h f (List.mem_cons_of_mem e hf)
      rw [insertAll, List.foldl_cons, ← insertAll, ih hrest]
      by_cases hk : k = e.1
      · subst hk
        rw [Finmap.lookup_insert, List.map_cons, if_pos List.mem_cons_self,
          h e List.mem_cons_self, ite_self]
      · simp only [Finmap.lookup_insert_of_ne _ hk, List.map_cons, List.mem_cons, hk, false_or]

theorem insertAll_entries (m : StringMap α) : insertAll ∅ (entries m) = m := by
  apply Finmap.ext_lookup
  intro k
  rw [lookup_insertAll (m := m) fun e he => mem_entries.mp he]
  split
  · rfl
  · next hk =>
      rw [Finmap.lookup_empty, eq_comm, Option.eq_none_iff_forall_ne_some]
      intro v hv
      exact hk (List.mem_map_of_mem (f := Prod.fst) (mem_entries.mpr hv))

def encodeEntry (c : Codec α) (e : String × α) : Option (Bytes × Json) :=
  (c.encode e.2).map (Prod.mk (stringBytes e.1))

def insertEntry (c : Codec α) (m : StringMap α) (f : Bytes × Json) : Option (StringMap α) :=
  (String.fromUTF8? f.1.toByteArray).bind fun k =>
    (c.decode c.zero f.2).map fun v => m.insert k v

theorem mapM_encodeEntry (c : Codec α) {es : List (String × α)} (h : ∀ e ∈ es, c.Canonical e.2) :
    ∃ fs, es.mapM c.encodeEntry = some fs ∧
      ∀ m, fs.foldlM c.insertEntry m = some (insertAll m es) := by
  induction es with
  | nil => exact ⟨[], rfl, fun _ => rfl⟩
  | cons e es ih =>
      obtain ⟨j, hencode, hdecode⟩ := c.decode_encode (h e List.mem_cons_self)
      obtain ⟨fs, hfs, hfold⟩ := ih fun f hf => h f (List.mem_cons_of_mem e hf)
      refine ⟨(stringBytes e.1, j) :: fs, ?_, ?_⟩
      · rw [List.mapM_cons, encodeEntry, hencode, hfs]
        rfl
      · intro m
        have hstep : c.insertEntry m (stringBytes e.1, j) = some (m.insert e.1 e.2) := by
          rw [insertEntry, fromUTF8?_stringBytes, Option.bind_some, hdecode, Option.map_some]
        rw [List.foldlM_cons, hstep, Option.bind_eq_bind, Option.bind_some, hfold]
        rfl

/-- A map with strings as keys, which may be nil.  It is written in the order of the keys, and
what is read is added to it. -/
def map (c : Codec α) : Codec (Option (StringMap α)) where
  zero := none
  encode
    | none => some .null
    | some m => ((entries m).mapM c.encodeEntry).map .obj
  decode m
    | .null => some none
    | .obj fs => (fs.foldlM c.insertEntry (m.getD ∅)).map some
    | _ => none
  Canonical v := ∀ m ∈ v, ∀ k x, m.lookup k = some x → c.Canonical x
  decode_encode {v} h := by
    cases v with
    | none => exact ⟨_, rfl, rfl⟩
    | some m =>
        obtain ⟨fs, hencode, hdecode⟩ := c.mapM_encodeEntry fun e (he : e ∈ entries m) =>
          h m rfl e.1 e.2 (mem_entries.mp he)
        refine ⟨.obj fs, ?_, ?_⟩
        · dsimp only
          rw [hencode, Option.map_some]
        · dsimp only
          rw [Option.getD_none, hdecode, insertAll_entries, Option.map_some]

end Codec

/-! ## Records -/

namespace Fields

variable {α β : Type*}

/-- No more fields. -/
def nil : Fields Unit where
  zero := ()
  names := []
  encode _ := some []
  update _ _ := some ()
  Canonical _ := True
  update_encode _ := ⟨[], rfl, rfl, fun _ hf => absurd hf List.not_mem_nil⟩

section

variable (name : String) (c : Codec α) (rest : Fields β)

/-- The first field of an object which is read. -/
def updateCons (v : α × β) (f : Bytes × Json) : Option (α × β) :=
  if f.1 = stringBytes name then (c.decode v.1 f.2).map fun x => (x, v.2)
  else (rest.update v.2 f).map fun y => (v.1, y)

variable {name rest}

/-- The fields which follow do not touch the first one. -/
theorem foldlM_updateCons (h : name ∉ rest.names) {fs : List (Bytes × Json)}
    (hfs : ∀ f ∈ fs, ∃ n ∈ rest.names, f.1 = stringBytes n) (x : α) (y : β) :
    fs.foldlM (updateCons name c rest) (x, y) = (fs.foldlM rest.update y).map fun y => (x, y) := by
  induction fs generalizing y with
  | nil => rfl
  | cons f fs ih =>
      obtain ⟨n, hn, hf⟩ := hfs f List.mem_cons_self
      have hne : f.1 ≠ stringBytes name := by
        rw [hf, stringBytes_injective.ne_iff]
        rintro rfl
        exact h hn
      rw [List.foldlM_cons, List.foldlM_cons, updateCons, if_neg hne]
      cases rest.update y f with
      | none => rfl
      | some y' => exact ih (fun g hg => hfs g (List.mem_cons_of_mem f hg)) y'

end

/-- A field before others with different names. -/
def cons (name : String) (c : Codec α) (rest : Fields β) (h : name ∉ rest.names) :
    Fields (α × β) where
  zero := (c.zero, rest.zero)
  names := name :: rest.names
  encode v := do
    let j ← c.encode v.1
    let fs ← rest.encode v.2
    some ((stringBytes name, j) :: fs)
  update := updateCons name c rest
  Canonical v := c.Canonical v.1 ∧ rest.Canonical v.2
  update_encode {v} hv := by
    obtain ⟨j, hencode, hdecode⟩ := c.decode_encode hv.1
    obtain ⟨fs, hencodes, hfold, hnames⟩ := rest.update_encode hv.2
    refine ⟨(stringBytes name, j) :: fs, ?_, ?_, ?_⟩
    · rw [hencode, hencodes]
      rfl
    · have hfirst : updateCons name c rest (c.zero, rest.zero) (stringBytes name, j) =
          some (v.1, rest.zero) := by
        rw [updateCons, if_pos rfl, hdecode, Option.map_some]
      rw [List.foldlM_cons, hfirst, Option.bind_eq_bind, Option.bind_some,
        foldlM_updateCons c h hnames, hfold, Option.map_some]
    · intro f hf
      rcases List.mem_cons.mp hf with rfl | hf
      · exact ⟨name, List.mem_cons_self, rfl⟩
      · obtain ⟨n, hn, heq⟩ := hnames f hf
        exact ⟨n, List.mem_cons_of_mem name hn, heq⟩

end Fields

namespace Codec

variable {α β : Type*}

/-- A record with the given fields. -/
def record (fields : Fields β) (e : α ≃ β) : Codec α where
  zero := e.symm fields.zero
  encode v := (fields.encode (e v)).map .obj
  decode v
    | .null => some v
    | .obj fs => (fs.foldlM fields.update (e v)).map e.symm
    | _ => none
  Canonical v := fields.Canonical (e v)
  decode_encode {v} h := by
    obtain ⟨fs, hencode, hfold, -⟩ := fields.update_encode h
    refine ⟨.obj fs, ?_, ?_⟩
    · rw [hencode, Option.map_some]
    · dsimp only
      rw [e.apply_symm_apply, hfold, Option.map_some, e.symm_apply_apply]

theorem record_ne_null (fields : Fields β) (e : α ≃ β) (v : α) :
    (record fields e).encode v ≠ some .null := by
  intro h
  obtain ⟨fs, -, heq⟩ := Option.map_eq_some_iff.mp h
  cases heq

end Codec

end Minotor.Json
