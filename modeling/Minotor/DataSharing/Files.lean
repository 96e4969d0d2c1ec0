import Minotor.Storage.InMemory
import Minotor.Support.Text

/-!
# Uploads and downloads

`Upload` and `Download` of `peer/impl/datasharing.go` on the blob store of one
node.  A reader is the list of the results of its `Read` calls.  `Download`
gets the function that fetches a blob from a remote peer as a parameter.
-/

namespace Minotor.DataSharing

/-! ## Readers -/

/-- The errors of a `Read`: `io.EOF` and all others. -/
inductive ReadError where
  | eof
  | other (text : Bytes)
  deriving DecidableEq

/-- The result of one `Read`: the bytes put into the buffer and the error. -/
structure Read where
  data : Bytes
  err : Option ReadError

/-- How a reader which keeps the contract of `io.Reader` delivers its content
into buffers of `chunkSize` bytes: reads without an error, and one read with
`io.EOF` which may still carry bytes. -/
structure Delivery (chunkSize : ℕ) where
  chunks : List Bytes
  last : Bytes
  fits : ∀ r ∈ chunks ++ [last], r.length ≤ chunkSize

namespace Delivery

variable {chunkSize : ℕ}

/-- The results of the `Read` calls. -/
def reads (d : Delivery chunkSize) : List Read :=
  d.chunks.map (fun r => ⟨r, none⟩) ++ [⟨d.last, some .eof⟩]

/-- What the reader holds. -/
def content (d : Delivery chunkSize) : Bytes := d.chunks.flatten ++ d.last

/-- The reader fills the buffer until the last chunk and then returns no more
bytes; its content is not empty. -/
structure Fills (d : Delivery chunkSize) : Prop where
  nonempty : d.content ≠ []
  last_eq : d.last = []
  full : ∀ r ∈ d.chunks.dropLast, r.length = chunkSize
  rest : ∀ r ∈ d.chunks, r ≠ []

end Delivery

/-! ## Upload -/

/-- `peer.MetafileSep`. -/
def metafileSep : Bytes := [0x0a]

/-- The variables of `Upload`, with the blob store. -/
structure UploadState where
  store : ByteStore
  metafile : Bytes := []
  chunkList : Bytes := []

/-- What a call of `Upload` ends with. -/
inductive Outcome where
  | returned (metahash : Bytes)
  | error (text : Bytes)
  | panic
  deriving DecidableEq

/-- The text of a read error. -/
def ReadError.text : ReadError → Bytes
  | eof => stringBytes "EOF"
  | other text => text

section Upload

variable (sha256 : Bytes → Bytes)

/-- The body of the loop of `Upload` after a read without an error. -/
def uploadChunk (st : UploadState) (chunk : Bytes) : UploadState :=
  let chunkSlice := sha256 chunk
  let chunkHexEncoded := hexBytes chunkSlice
  { store := st.store.set chunkHexEncoded chunk
    metafile := st.metafile ++ chunkHexEncoded ++ metafileSep
    chunkList := st.chunkList ++ chunkSlice }

/-- `Upload` after its loop.  The slice expression `metafile[:len(metafile)-1]`
panics on an empty metafile. -/
def finishUpload (st : UploadState) : Outcome × ByteStore :=
  if st.metafile = [] then
    (.panic, st.store)
  else
    let metafile := st.metafile.dropLast
    let metahashHex := hexBytes (sha256 st.chunkList)
    (.returned metahashHex, st.store.set metahashHex metafile)

/-- The loop of `Upload`; `none` when the reads do not end it. -/
def uploadFrom (st : UploadState) : List Read → Option (Outcome × ByteStore)
  | [] => none
  | r :: rest =>
      match r.err with
      | some .eof => some (finishUpload sha256 st)
      | some (.other text) => some (.error text, st.store)
      | none => uploadFrom (uploadChunk sha256 st r.data) rest

/-- `Upload`. -/
def upload (store : ByteStore) (reads : List Read) : Option (Outcome × ByteStore) :=
  uploadFrom sha256 { store := store } reads

/-- Calls of `Upload` one after the other. -/
def uploadAll (store : ByteStore) : List (List Read) → Option (List Outcome × ByteStore)
  | [] => some ([], store)
  | reads :: rest =>
      match upload sha256 store reads with
      | none => none
      | some (outcome, store) =>
          (uploadAll store rest).map fun r => (outcome :: r.1, r.2)

end Upload

/-! ## Download -/

section Download

variable {ε : Type*} (remote : ByteStore → Bytes → Except ε Bytes × ByteStore)

/-- A blob from the store, or else from a remote peer. -/
def fetch (store : ByteStore) (key : Bytes) : Except ε Bytes × ByteStore :=
  match store.get key with
  | some val => (.ok val, store)
  | none => remote store key

/-- The loop of `Download`. -/
def fetchChunks (store : ByteStore) (data : Bytes) :
    List Bytes → Except ε Bytes × ByteStore
  | [] => (.ok data, store)
  | chunkSlice :: rest =>
      match fetch remote store chunkSlice with
      | (.error e, store) => (.error e, store)
      | (.ok chunk, store) => fetchChunks store (data ++ chunk) rest

/-- `Download`. -/
def download (store : ByteStore) (metahash : Bytes) : Except ε Bytes × ByteStore :=
  match fetch remote store metahash with
  | (.error e, store) => (.error e, store)
  | (.ok metafile, store) => fetchChunks remote store [] (fields metafile)

/-- `getDataFromRemotePeer` on a node whose catalog is empty. -/
def noProvider (store : ByteStore) (metahash : Bytes) : Except Bytes Bytes × ByteStore :=
  (.error (stringBytes "metahash: " ++ metahash ++ stringBytes " not found"), store)

variable {remote}

theorem fetch_of_get {store : ByteStore} {key val : Bytes} (h : store.get key = some val) :
    fetch remote store key = (.ok val, store) := by
  rw [fetch, h]

theorem fetchChunks_eq {store : ByteStore} {val : Bytes → Bytes} {keys : List Bytes}
    (h : ∀ key ∈ keys, store.get key = some (val key)) (data : Bytes) :
    fetchChunks remote store data keys = (.ok (data ++ keys.flatMap val), store) := by
  induction keys generalizing data with
  | nil => rw [fetchChunks, List.flatMap_nil, List.append_nil]
  | cons key keys ih =>
      have hkey := h key List.mem_cons_self
      have hrest := ih fun k hk => h k (List.mem_cons_of_mem _ hk)
      rw [fetchChunks, fetch_of_get hkey]
      change fetchChunks remote store (data ++ val key) keys = _
      rw [hrest, List.append_assoc, List.flatMap_cons]

/-- A download whose blobs are all in the store. -/
theorem download_eq {store : ByteStore} {metahash metafile : Bytes} {val : Bytes → Bytes}
    (hmeta : store.get metahash = some metafile)
    (hchunks : ∀ key ∈ fields metafile, store.get key = some (val key)) :
    download remote store metahash = (.ok ((fields metafile).flatMap val), store) := by
  rw [download, fetch_of_get hmeta]
  change fetchChunks remote store [] (fields metafile) = _
  rw [fetchChunks_eq hchunks, List.nil_append]

end Download

end Minotor.DataSharing
