import Minotor.DataSharing.Blobs

/-!
# Download after one upload

A download on the node of an upload gets the chunks of the upload, except where
the metafile was written over a chunk.  The bytes which the reader returned
together with `io.EOF` are not part of them, and an upload without a chunk
panics.
-/

namespace Minotor.DataSharing

/-- `Upload` on a fresh node returns a metahash, and `Download` of it on the
same node returns the content of the reader. -/
def RoundTrip (sha256 : Bytes → Bytes)
    (remote : ByteStore → Bytes → Except Bytes Bytes × ByteStore)
    {chunkSize : ℕ} (d : Delivery chunkSize) : Prop :=
  match upload sha256 .empty d.reads with
  | some (.returned metahash, store) => (download remote store metahash).1 = .ok d.content
  | _ => False

instance (sha256 : Bytes → Bytes)
    (remote : ByteStore → Bytes → Except Bytes Bytes × ByteStore)
    {chunkSize : ℕ} (d : Delivery chunkSize) : Decidable (RoundTrip sha256 remote d) := by
  unfold RoundTrip
  split <;> infer_instance

variable {sha256 : Bytes → Bytes}
  {remote : ByteStore → Bytes → Except Bytes Bytes × ByteStore}

/-! ## The store after an upload -/

theorem get_metahash (s : ByteStore) (chunks : List Bytes) :
    (s.setAll (writes sha256 chunks)).get (blobKey sha256 (digests sha256 chunks)) =
      some (metafileOf sha256 chunks) := by
  rw [writes, ByteStore.setAll_append, ByteStore.setAll_cons, ByteStore.setAll_nil,
    ByteStore.get_set, if_pos rfl]

theorem get_chunk (s : ByteStore) {chunks : List Bytes}
    (hfree : CollisionFree sha256 (hashed sha256 chunks)) {c : Bytes} (hc : c ∈ chunks) :
    (s.setAll (writes sha256 chunks)).get (blobKey sha256 c) =
      some (if c = digests sha256 chunks then metafileOf sha256 chunks else c) := by
  have hhashed : ∀ x ∈ chunks, x ∈ hashed sha256 chunks :=
    fun x hx => List.mem_cons_of_mem _ hx
  rw [writes, ByteStore.setAll_append, ByteStore.setAll_cons, ByteStore.setAll_nil,
    ByteStore.get_set]
  by_cases heq : c = digests sha256 chunks
  · rw [if_pos heq, heq, if_pos rfl]
  · have hkey : ¬ blobKey sha256 c = blobKey sha256 (digests sha256 chunks) := by
      intro hkey
      exact heq (blobKey_inj hfree (hhashed c hc) List.mem_cons_self hkey)
    rw [if_neg hkey, if_neg heq]
    apply ByteStore.get_setAll_of_mem
    · intro key val val' hval hval'
      obtain ⟨x, hx, hxval⟩ := List.mem_map.mp hval
      obtain ⟨y, hy, hyval⟩ := List.mem_map.mp hval'
      rw [Prod.mk.injEq] at hxval hyval
      rw [← hxval.2, ← hyval.2]
      apply blobKey_inj hfree (hhashed x hx) (hhashed y hy)
      rw [hxval.1, hyval.1]
    · exact List.mem_map.mpr ⟨c, hc, rfl⟩

/-- What a download gets after an upload. -/
theorem download_setAll_writes (hlen : ∀ m, (sha256 m).length = 32) (s : ByteStore)
    {chunks : List Bytes} (hfree : CollisionFree sha256 (hashed sha256 chunks)) :
    (download remote (s.setAll (writes sha256 chunks))
        (blobKey sha256 (digests sha256 chunks))).1 =
      .ok (chunks.flatMap fun c =>
        if c = digests sha256 chunks then metafileOf sha256 chunks else c) := by
  rw [download_blobs hlen (get_metahash s chunks) fun c hc => get_chunk s hfree hc]

/-! ## Readers for which the content comes back -/

/-- An upload and a download of its metahash give back the content of the
reader exactly when at least one read returned no error and either the read
with `io.EOF` carried no bytes and no chunk is the list of the chunk hashes, or
a chunk is this list and the metafile in its place makes up the content. -/
theorem roundTrip_iff (sha256 : Bytes → Bytes) (hlen : ∀ m, (sha256 m).length = 32)
    (remote : ByteStore → Bytes → Except Bytes Bytes × ByteStore) {chunkSize : ℕ}
    (d : Delivery chunkSize) (hfree : CollisionFree sha256 (hashed sha256 d.chunks)) :
    RoundTrip sha256 remote d ↔
      d.chunks ≠ [] ∧
        (d.last = [] ∧ digests sha256 d.chunks ∉ d.chunks ∨
          digests sha256 d.chunks ∈ d.chunks ∧
            (d.chunks.flatMap fun c =>
              if c = digests sha256 d.chunks then metafileOf sha256 d.chunks else c) =
                d.content) := by
  by_cases hne : d.chunks = []
  · rw [RoundTrip, upload_eq_panic .empty hne]
    simp [hne]
  · rw [RoundTrip, upload_eq .empty hne]
    simp only [download_setAll_writes hlen .empty hfree, Except.ok.injEq]
    by_cases hmem : digests sha256 d.chunks ∈ d.chunks
    · simp [hne, hmem]
    · have hid : (d.chunks.flatMap fun c =>
          if c = digests sha256 d.chunks then metafileOf sha256 d.chunks else c) =
            d.chunks.flatten := by
        rw [← List.flatMap_id']
        apply List.flatMap_congr
        intro c hc
        have hcne : ¬ c = digests sha256 d.chunks := by
          intro h
          exact hmem (h ▸ hc)
        exact if_neg hcne
      rw [hid, Delivery.content]
      simp [hne, hmem]

/-- The bytes `ab` and then `c`, and the end of the content at the next read. -/
def endAfterContent : Delivery 2 where
  chunks := [[0x61, 0x62], [0x63]]
  last := []
  fits := by decide

/-- The bytes `ab`, and then `c` together with the end of the content. -/
def endWithContent : Delivery 2 where
  chunks := [[0x61, 0x62]]
  last := [0x63]
  fits := by decide

/-- No bytes at all. -/
def noContent : Delivery 2 where
  chunks := []
  last := []
  fits := by decide

theorem roundTrip_iff_of_endAfterContent :
    RoundTrip Minotor.sha256 noProvider endAfterContent :=
  (roundTrip_iff Minotor.sha256 length_sha256 noProvider endAfterContent
    (by decide +kernel)).mpr ⟨by decide, .inl ⟨rfl, by decide +kernel⟩⟩

/-- The last byte is lost, and the upload of no bytes panics. -/
theorem not_roundTrip_of_end :
    (CollisionFree Minotor.sha256 (hashed Minotor.sha256 endWithContent.chunks) ∧
      ¬ RoundTrip Minotor.sha256 noProvider endWithContent) ∧
    CollisionFree Minotor.sha256 (hashed Minotor.sha256 noContent.chunks) ∧
      ¬ RoundTrip Minotor.sha256 noProvider noContent := by
  decide +kernel

end Minotor.DataSharing
