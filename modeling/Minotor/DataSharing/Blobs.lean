import Minotor.DataSharing.Files

/-!
# The blobs of an upload

What `Upload` writes, as a list of store entries: the chunks under the keys of
their hashes, and the metafile under the key of the hash of the concatenated
chunk hashes.  Results hold for every hash function with values of 32 bytes.
-/

namespace Minotor.DataSharing

section Names

variable (sha256 : Bytes → Bytes)

/-- No two of the byte strings `xs` have the same hash. -/
def CollisionFree (xs : List Bytes) : Prop :=
  ∀ x ∈ xs, ∀ y ∈ xs, sha256 x = sha256 y → x = y

instance (xs : List Bytes) : Decidable (CollisionFree sha256 xs) := by
  unfold CollisionFree
  infer_instance

/-- The store key of a byte string. -/
def blobKey (x : Bytes) : Bytes := hexBytes (sha256 x)

/-- The hashes of the chunks one after the other. -/
def digests (chunks : List Bytes) : Bytes := chunks.flatMap sha256

/-- The metafile of the chunks. -/
def metafileOf (chunks : List Bytes) : Bytes :=
  List.intercalate metafileSep (chunks.map (blobKey sha256))

/-- The entries which the loop of an upload writes. -/
def chunkWrites (chunks : List Bytes) : List (Bytes × Bytes) :=
  chunks.map fun c => (blobKey sha256 c, c)

/-- All entries which an upload writes, in their order. -/
def writes (chunks : List Bytes) : List (Bytes × Bytes) :=
  chunkWrites sha256 chunks ++
    [(blobKey sha256 (digests sha256 chunks), metafileOf sha256 chunks)]

/-- The byte strings which an upload hashes. -/
def hashed (chunks : List Bytes) : List Bytes := digests sha256 chunks :: chunks

end Names

variable {sha256 : Bytes → Bytes}

/-! ## What an upload writes -/

theorem foldl_uploadChunk (st : UploadState) (chunks : List Bytes) :
    chunks.foldl (uploadChunk sha256) st =
      { store := st.store.setAll (chunkWrites sha256 chunks)
        metafile := st.metafile ++ chunks.flatMap fun c => blobKey sha256 c ++ metafileSep
        chunkList := st.chunkList ++ digests sha256 chunks } := by
  induction chunks generalizing st with
  | nil => simp [chunkWrites, digests]
  | cons c chunks ih =>
      rw [List.foldl_cons, ih]
      simp [uploadChunk, chunkWrites, digests, blobKey]

theorem uploadFrom_deliver (st : UploadState) (chunks : List Bytes) (last : Bytes) :
    uploadFrom sha256 st (chunks.map (fun r => ⟨r, none⟩) ++ [⟨last, some .eof⟩]) =
      some (finishUpload sha256 (chunks.foldl (uploadChunk sha256) st)) := by
  induction chunks generalizing st with
  | nil => rfl
  | cons c chunks ih =>
      rw [List.map_cons, List.cons_append, uploadFrom]
      exact ih (uploadChunk sha256 st c)

/-- The text of the loop is the metafile and one more separator. -/
theorem flatMap_blobKey {chunks : List Bytes} (h : chunks ≠ []) :
    (chunks.flatMap fun c => blobKey sha256 c ++ metafileSep) =
      metafileOf sha256 chunks ++ metafileSep := by
  induction chunks with
  | nil => exact absurd rfl h
  | cons c chunks ih =>
      cases chunks with
      | nil => simp [metafileOf]
      | cons c' chunks =>
          rw [List.flatMap_cons, ih (List.cons_ne_nil _ _), metafileOf, metafileOf,
            List.map_cons, List.map_cons, List.map_cons, List.intercalate_cons_cons]
          simp only [List.append_assoc]

theorem finishUpload_foldl (store : ByteStore) {chunks : List Bytes} (h : chunks ≠ []) :
    finishUpload sha256 (chunks.foldl (uploadChunk sha256) { store := store }) =
      (.returned (blobKey sha256 (digests sha256 chunks)),
        store.setAll (writes sha256 chunks)) := by
  rw [foldl_uploadChunk, flatMap_blobKey h, List.nil_append, List.nil_append, finishUpload]
  have hne : metafileOf sha256 chunks ++ metafileSep ≠ [] := by
    simp [metafileSep]
  rw [if_neg hne, writes, ByteStore.setAll_append]
  simp [metafileSep, blobKey]

/-- An upload with a chunk returns the key of its metafile. -/
theorem upload_eq {chunkSize : ℕ} (store : ByteStore) {d : Delivery chunkSize}
    (h : d.chunks ≠ []) :
    upload sha256 store d.reads =
      some (.returned (blobKey sha256 (digests sha256 d.chunks)),
        store.setAll (writes sha256 d.chunks)) := by
  rw [upload, Delivery.reads, uploadFrom_deliver, finishUpload_foldl store h]

/-- An upload whose first read ends the content panics. -/
theorem upload_eq_panic {chunkSize : ℕ} (store : ByteStore) {d : Delivery chunkSize}
    (h : d.chunks = []) : upload sha256 store d.reads = some (.panic, store) := by
  rw [upload, Delivery.reads, uploadFrom_deliver, h]
  rfl

/-! ## Keys and lengths -/

section Lengths

variable (hlen : ∀ m, (sha256 m).length = 32)
include hlen

theorem isHexWord_blobKey (x : Bytes) : IsHexWord (blobKey sha256 x) := by
  apply isHexWord_hexBytes
  intro hnil
  have hlength := hlen x
  rw [hnil, List.length_nil] at hlength
  omega

theorem length_blobKey (x : Bytes) : (blobKey sha256 x).length = 64 := by
  rw [blobKey, length_hexBytes, hlen]

theorem length_digests (chunks : List Bytes) :
    (digests sha256 chunks).length = 32 * chunks.length := by
  induction chunks with
  | nil => rfl
  | cons c chunks ih =>
      rw [digests, List.flatMap_cons, List.length_append, ← digests, ih, hlen, List.length_cons]
      omega

theorem length_metafileOf {chunks : List Bytes} (h : chunks ≠ []) :
    (metafileOf sha256 chunks).length + 1 = 65 * chunks.length := by
  have hall : ∀ cs : List Bytes,
      (cs.flatMap fun c => blobKey sha256 c ++ metafileSep).length = 65 * cs.length := by
    intro cs
    induction cs with
    | nil => rfl
    | cons c cs ih =>
        rw [List.flatMap_cons, List.length_append, ih, List.length_append, length_blobKey hlen,
          List.length_cons]
        simp only [metafileSep, List.length_singleton]
        omega
  have hchunks := hall chunks
  rw [flatMap_blobKey h, List.length_append] at hchunks
  exact hchunks

/-- A metafile is longer than the digest list it is stored under. -/
theorem length_digests_lt {chunks : List Bytes} (h : chunks ≠ []) :
    (digests sha256 chunks).length < (metafileOf sha256 chunks).length := by
  have hdigests := length_digests hlen chunks
  have hmetafile := length_metafileOf hlen h
  have hpos := List.length_pos_iff.mpr h
  omega

theorem fields_metafileOf (chunks : List Bytes) :
    fields (metafileOf sha256 chunks) = chunks.map (blobKey sha256) := by
  apply fields_intercalate
  intro w hw
  obtain ⟨c, _, rfl⟩ := List.mem_map.mp hw
  exact isHexWord_blobKey hlen c

/-- Digest lists which are equal belong to the same keys. -/
theorem map_sha256_eq_of_digests {chunks chunks' : List Bytes}
    (h : digests sha256 chunks = digests sha256 chunks') :
    chunks.map sha256 = chunks'.map sha256 := by
  induction chunks generalizing chunks' with
  | nil =>
      have hlength := length_digests hlen chunks'
      rw [← h] at hlength
      have hzero : chunks'.length = 0 := by
        simp only [digests, List.flatMap_nil, List.length_nil] at hlength
        omega
      rw [List.length_eq_zero_iff.mp hzero]
  | cons c chunks ih =>
      cases chunks' with
      | nil =>
          have hlength := length_digests hlen (c :: chunks)
          rw [h, List.length_cons] at hlength
          simp only [digests, List.flatMap_nil, List.length_nil] at hlength
          omega
      | cons c' chunks' =>
          simp only [digests, List.flatMap_cons] at h
          have hsplit := List.append_inj h (by rw [hlen, hlen])
          rw [List.map_cons, List.map_cons, hsplit.1, ih hsplit.2]

theorem metafileOf_eq_of_digests {chunks chunks' : List Bytes}
    (h : digests sha256 chunks = digests sha256 chunks') :
    metafileOf sha256 chunks = metafileOf sha256 chunks' := by
  have hkeys := congrArg (List.map hexBytes) (map_sha256_eq_of_digests hlen h)
  rw [List.map_map, List.map_map] at hkeys
  exact congrArg (List.intercalate metafileSep) hkeys

/-- A download of a metafile whose chunk keys are all in the store. -/
theorem download_blobs {remote : ByteStore → Bytes → Except Bytes Bytes × ByteStore}
    {store : ByteStore} {chunks : List Bytes} {val : Bytes → Bytes}
    (hmeta : store.get (blobKey sha256 (digests sha256 chunks)) =
      some (metafileOf sha256 chunks))
    (hval : ∀ c ∈ chunks, store.get (blobKey sha256 c) = some (val c)) :
    download remote store (blobKey sha256 (digests sha256 chunks)) =
      (.ok (chunks.flatMap val), store) := by
  have hkeys : ∀ key ∈ fields (metafileOf sha256 chunks),
      store.get key = some ((store.get key).getD []) := by
    intro key hkey
    rw [fields_metafileOf hlen] at hkey
    obtain ⟨c, hc, rfl⟩ := List.mem_map.mp hkey
    rw [hval c hc, Option.getD_some]
  have hsame : (chunks.flatMap fun c => (store.get (blobKey sha256 c)).getD []) =
      chunks.flatMap val := by
    apply List.flatMap_congr
    intro c hc
    rw [hval c hc, Option.getD_some]
  rw [download_eq hmeta hkeys, fields_metafileOf hlen, List.flatMap_map, hsame]

end Lengths

theorem blobKey_inj {xs : List Bytes} (hfree : CollisionFree sha256 xs) {x y : Bytes}
    (hx : x ∈ xs) (hy : y ∈ xs) (h : blobKey sha256 x = blobKey sha256 y) : x = y :=
  hfree x hx y hy (hexBytes_injective h)

end Minotor.DataSharing
