import Minotor.DataSharing.Blobs
import Mathlib.Algebra.Order.BigOperators.Group.List
import Mathlib.Algebra.Order.Ring.Nat

/-!
# Downloads after many uploads

Chunks and metafiles share the keys of the blob store.  The key of a metafile is
the key of a chunk with the bytes of the digest list, so an upload with such a
chunk and the upload of the metafile write different values under one key.
-/

namespace Minotor.DataSharing

/-- A download of what a call of `Upload` returned gives `content`. -/
def DownloadsTo (remote : ByteStore → Bytes → Except Bytes Bytes × ByteStore)
    (store : ByteStore) : Outcome → Bytes → Prop
  | .returned metahash, content => (download remote store metahash).1 = .ok content
  | _, _ => False

instance (remote : ByteStore → Bytes → Except Bytes Bytes × ByteStore)
    (store : ByteStore) (outcome : Outcome) (content : Bytes) :
    Decidable (DownloadsTo remote store outcome content) := by
  unfold DownloadsTo
  split <;> infer_instance

/-- After the uploads `us`, every download of a returned metahash gives the
content of its upload. -/
def Kept (sha256 : Bytes → Bytes)
    (remote : ByteStore → Bytes → Except Bytes Bytes × ByteStore)
    (store : ByteStore) {chunkSize : ℕ} (us : List (Delivery chunkSize)) : Prop :=
  match uploadAll sha256 store (us.map Delivery.reads) with
  | none => False
  | some (outcomes, store) =>
      ∀ p ∈ outcomes.zip us, DownloadsTo remote store p.1 p.2.content

instance (sha256 : Bytes → Bytes)
    (remote : ByteStore → Bytes → Except Bytes Bytes × ByteStore)
    (store : ByteStore) {chunkSize : ℕ} (us : List (Delivery chunkSize)) :
    Decidable (Kept sha256 remote store us) := by
  unfold Kept
  split <;> infer_instance

section Names

variable (sha256 : Bytes → Bytes) {chunkSize : ℕ}

/-- The byte strings which the uploads hash. -/
def hashedAll (us : List (Delivery chunkSize)) : List Bytes :=
  us.flatMap fun d => hashed sha256 d.chunks

/-- All entries which the uploads write. -/
def writesAll (us : List (Delivery chunkSize)) : List (Bytes × Bytes) :=
  us.flatMap fun d => writes sha256 d.chunks

/-- No chunk of an upload is the digest list of an upload. -/
def NoClash (us : List (Delivery chunkSize)) : Prop :=
  ∀ u ∈ us, ∀ v ∈ us, digests sha256 v.chunks ∉ u.chunks

end Names

/-- A text which a key of the store can be. -/
def IsKey (w : Bytes) : Prop := w.length = 64 ∧ ∀ b ∈ w, IsHexDigit b

/-- A text which `Download` reads as a metafile with keys of the store. -/
def Readable (text : Bytes) : Prop := fields text ≠ [] ∧ ∀ w ∈ fields text, IsKey w

instance (w : Bytes) : Decidable (IsKey w) := by
  unfold IsKey
  infer_instance

instance (text : Bytes) : Decidable (Readable text) := by
  unfold Readable
  infer_instance

variable {sha256 : Bytes → Bytes} {chunkSize : ℕ}
  {remote : ByteStore → Bytes → Except Bytes Bytes × ByteStore}

/-! ## The store after the uploads -/

theorem Delivery.Fills.chunks_ne_nil {d : Delivery chunkSize} (h : d.Fills) :
    d.chunks ≠ [] := by
  intro hnil
  apply h.nonempty
  rw [Delivery.content, hnil, h.last_eq, List.flatten_nil, List.append_nil]

theorem Delivery.Fills.content_eq {d : Delivery chunkSize} (h : d.Fills) :
    d.content = d.chunks.flatten := by
  rw [Delivery.content, h.last_eq, List.append_nil]

theorem uploadAll_eq (store : ByteStore) {us : List (Delivery chunkSize)}
    (h : ∀ d ∈ us, d.chunks ≠ []) :
    uploadAll sha256 store (us.map Delivery.reads) =
      some (us.map fun d => .returned (blobKey sha256 (digests sha256 d.chunks)),
        store.setAll (writesAll sha256 us)) := by
  induction us generalizing store with
  | nil => rfl
  | cons d us ih =>
      rw [List.map_cons, uploadAll, upload_eq store (h d List.mem_cons_self)]
      change Option.map _ (uploadAll sha256 _ (us.map Delivery.reads)) = _
      rw [ih _ fun v hv => h v (List.mem_cons_of_mem _ hv), Option.map_some,
        ← ByteStore.setAll_append]
      rfl

/-- The content of every upload comes back from the store which the uploads
leave. -/
theorem kept_iff (store : ByteStore) {us : List (Delivery chunkSize)}
    (h : ∀ d ∈ us, d.Fills) :
    Kept sha256 remote store us ↔
      ∀ d ∈ us, (download remote (store.setAll (writesAll sha256 us))
        (blobKey sha256 (digests sha256 d.chunks))).1 = .ok d.chunks.flatten := by
  rw [Kept, uploadAll_eq store fun d hd => (h d hd).chunks_ne_nil]
  change (∀ p ∈ (us.map _).zip us, _) ↔ _
  rw [← List.map_prod_right_eq_zip]
  constructor
  · intro hall d hd
    have hdown := hall _ (List.mem_map_of_mem hd)
    rw [(h d hd).content_eq] at hdown
    exact hdown
  · intro hall p hp
    obtain ⟨d, hd, rfl⟩ := List.mem_map.mp hp
    have hdown := hall d hd
    rw [← (h d hd).content_eq] at hdown
    exact hdown

theorem mem_writesAll {us : List (Delivery chunkSize)} {key val : Bytes} :
    (key, val) ∈ writesAll sha256 us ↔
      ∃ d ∈ us, (val ∈ d.chunks ∧ key = blobKey sha256 val) ∨
        key = blobKey sha256 (digests sha256 d.chunks) ∧ val = metafileOf sha256 d.chunks := by
  rw [writesAll, List.mem_flatMap]
  constructor
  · rintro ⟨d, hd, hmem⟩
    refine ⟨d, hd, ?_⟩
    rw [writes, chunkWrites, List.mem_append, List.mem_map, List.mem_singleton] at hmem
    rcases hmem with ⟨c, hc, heq⟩ | heq
    · rw [Prod.mk.injEq] at heq
      rw [← heq.1, ← heq.2]
      exact .inl ⟨hc, rfl⟩
    · rw [Prod.mk.injEq] at heq
      exact .inr heq
  · rintro ⟨d, hd, ⟨hval, rfl⟩ | ⟨rfl, rfl⟩⟩
    · refine ⟨d, hd, List.mem_append.mpr (.inl ?_)⟩
      exact List.mem_map.mpr ⟨val, hval, rfl⟩
    · exact ⟨d, hd, List.mem_append.mpr (.inr (List.mem_singleton.mpr rfl))⟩

theorem mem_hashedAll {us : List (Delivery chunkSize)} {d : Delivery chunkSize} (hd : d ∈ us)
    {x : Bytes} (hx : x ∈ hashed sha256 d.chunks) : x ∈ hashedAll sha256 us :=
  List.mem_flatMap.mpr ⟨d, hd, hx⟩

/-! ## Without a clash every content comes back -/

theorem writesAll_agree (hlen : ∀ m, (sha256 m).length = 32) {us : List (Delivery chunkSize)}
    (hfree : CollisionFree sha256 (hashedAll sha256 us)) (hclash : NoClash sha256 us)
    (key val val' : Bytes) (hval : (key, val) ∈ writesAll sha256 us)
    (hval' : (key, val') ∈ writesAll sha256 us) : val = val' := by
  have hchunk : ∀ {d : Delivery chunkSize} {c : Bytes}, d ∈ us → c ∈ d.chunks →
      c ∈ hashedAll sha256 us := fun hd hc => mem_hashedAll hd (List.mem_cons_of_mem _ hc)
  have hdigest : ∀ {d : Delivery chunkSize}, d ∈ us →
      digests sha256 d.chunks ∈ hashedAll sha256 us :=
    fun hd => mem_hashedAll hd List.mem_cons_self
  obtain ⟨d, hd, ⟨hmem, hkey⟩ | ⟨hkey, hmeta⟩⟩ := mem_writesAll.mp hval
  · obtain ⟨d', hd', ⟨hmem', hkey'⟩ | ⟨hkey', _⟩⟩ := mem_writesAll.mp hval'
    · exact blobKey_inj hfree (hchunk hd hmem) (hchunk hd' hmem') (hkey.symm.trans hkey')
    · have heq := blobKey_inj hfree (hchunk hd hmem) (hdigest hd') (hkey.symm.trans hkey')
      exact absurd (heq ▸ hmem) (hclash d hd d' hd')
  · obtain ⟨d', hd', ⟨hmem', hkey'⟩ | ⟨hkey', hmeta'⟩⟩ := mem_writesAll.mp hval'
    · have heq := blobKey_inj hfree (hchunk hd' hmem') (hdigest hd) (hkey'.symm.trans hkey)
      exact absurd (heq ▸ hmem') (hclash d' hd' d hd)
    · have heq := blobKey_inj hfree (hdigest hd) (hdigest hd') (hkey.symm.trans hkey')
      rw [hmeta, hmeta', metafileOf_eq_of_digests hlen heq]

theorem kept_of_noClash (hlen : ∀ m, (sha256 m).length = 32) {us : List (Delivery chunkSize)}
    (hus : ∀ d ∈ us, d.Fills) (hfree : CollisionFree sha256 (hashedAll sha256 us))
    (hclash : NoClash sha256 us) (store : ByteStore) : Kept sha256 remote store us := by
  rw [kept_iff store hus]
  intro d hd
  have hagree := writesAll_agree hlen hfree hclash
  have hmeta := ByteStore.get_setAll_of_mem store hagree
    (mem_writesAll.mpr ⟨d, hd, .inr ⟨rfl, rfl⟩⟩)
  have hchunks : ∀ c ∈ d.chunks,
      (store.setAll (writesAll sha256 us)).get (blobKey sha256 c) = some (id c) :=
    fun c hc => ByteStore.get_setAll_of_mem store hagree
      (mem_writesAll.mpr ⟨d, hd, .inl ⟨hc, rfl⟩⟩)
  rw [download_blobs hlen hmeta hchunks, List.flatMap_id]

/-! ## A clash damages an upload -/

/-- A blob of a fresh node after the uploads is one of their entries. -/
theorem mem_writesAll_of_get {us : List (Delivery chunkSize)} {key val : Bytes}
    (h : (ByteStore.empty.setAll (writesAll sha256 us)).get key = some val) :
    (key, val) ∈ writesAll sha256 us := by
  rcases ByteStore.get_setAll .empty (writesAll sha256 us) key with ⟨val', hmem, hget⟩ | ⟨_, hget⟩
  · rw [hget, Option.some.injEq] at h
    rwa [← h]
  · rw [hget, ByteStore.get_empty] at h
    exact absurd h (by simp)

theorem exists_get_of_mem {us : List (Delivery chunkSize)} {key val : Bytes}
    (h : (key, val) ∈ writesAll sha256 us) :
    ∃ val', (key, val') ∈ writesAll sha256 us ∧
      (ByteStore.empty.setAll (writesAll sha256 us)).get key = some val' := by
  rcases ByteStore.get_setAll .empty (writesAll sha256 us) key with hex | ⟨hnot, _⟩
  · exact hex
  · exact absurd h (hnot val)

theorem isKey_blobKey (hlen : ∀ m, (sha256 m).length = 32) (x : Bytes) :
    IsKey (blobKey sha256 x) :=
  ⟨length_blobKey hlen x, (isHexWord_blobKey hlen x).2⟩

theorem isKey_of_get (hlen : ∀ m, (sha256 m).length = 32) {us : List (Delivery chunkSize)}
    {key val : Bytes}
    (h : (ByteStore.empty.setAll (writesAll sha256 us)).get key = some val) : IsKey key := by
  obtain ⟨d, _, ⟨_, rfl⟩ | ⟨rfl, _⟩⟩ := mem_writesAll.mp (mem_writesAll_of_get h)
  · exact isKey_blobKey hlen val
  · exact isKey_blobKey hlen _

/-- Without a provider a download fails at the first key which is not stored. -/
theorem fetchChunks_noProvider {store : ByteStore} {keys : List Bytes}
    (h : ∃ key ∈ keys, store.get key = none) (data out : Bytes) :
    (fetchChunks noProvider store data keys).1 ≠ .ok out := by
  induction keys generalizing data with
  | nil =>
      obtain ⟨key, hmem, _⟩ := h
      exact absurd hmem List.not_mem_nil
  | cons key keys ih =>
      rw [fetchChunks]
      cases hget : store.get key with
      | none => simp [fetch, hget, noProvider]
      | some val =>
          rw [fetch_of_get hget]
          apply ih
          obtain ⟨k, hk, hnone⟩ := h
          rcases List.mem_cons.mp hk with rfl | hk
          · rw [hget] at hnone
            exact absurd hnone (by simp)
          · exact ⟨k, hk, hnone⟩

/-- A digest list in the place of a metafile does not lead back to a content. -/
theorem download_digests_ne (hlen : ∀ m, (sha256 m).length = 32)
    {us : List (Delivery chunkSize)} {d : Delivery chunkSize} (hd : d.Fills)
    (hread : ¬ Readable (digests sha256 d.chunks))
    (hget : (ByteStore.empty.setAll (writesAll sha256 us)).get
      (blobKey sha256 (digests sha256 d.chunks)) = some (digests sha256 d.chunks)) :
    (download noProvider (ByteStore.empty.setAll (writesAll sha256 us))
      (blobKey sha256 (digests sha256 d.chunks))).1 ≠ .ok d.chunks.flatten := by
  rw [download, fetch_of_get hget]
  change (fetchChunks noProvider _ [] (fields (digests sha256 d.chunks))).1 ≠ _
  by_cases hnil : fields (digests sha256 d.chunks) = []
  · rw [hnil, fetchChunks]
    intro heq
    apply hd.nonempty
    rw [hd.content_eq]
    exact (Except.ok.inj heq).symm
  · apply fetchChunks_noProvider
    have hbad : ∃ w ∈ fields (digests sha256 d.chunks), ¬ IsKey w := by
      by_contra hall
      push Not at hall
      exact hread ⟨hnil, hall⟩
    obtain ⟨w, hw, hkey⟩ := hbad
    refine ⟨w, hw, ?_⟩
    cases hval : (ByteStore.empty.setAll (writesAll sha256 us)).get w with
    | none => rfl
    | some val => exact absurd (isKey_of_get hlen hval) hkey

/-- The value under the key of a chunk is the chunk or a longer metafile. -/
theorem exists_get_chunk (hlen : ∀ m, (sha256 m).length = 32) {us : List (Delivery chunkSize)}
    (hus : ∀ d ∈ us, d.Fills) (hfree : CollisionFree sha256 (hashedAll sha256 us))
    {d : Delivery chunkSize} (hd : d ∈ us) {c : Bytes} (hc : c ∈ d.chunks) :
    ∃ val, (ByteStore.empty.setAll (writesAll sha256 us)).get (blobKey sha256 c) = some val ∧
      c.length ≤ val.length := by
  have hmem : c ∈ hashedAll sha256 us := mem_hashedAll hd (List.mem_cons_of_mem _ hc)
  obtain ⟨val, hval, hget⟩ := exists_get_of_mem (mem_writesAll.mpr ⟨d, hd, .inl ⟨hc, rfl⟩⟩)
  refine ⟨val, hget, ?_⟩
  obtain ⟨d', hd', ⟨hval, hkey⟩ | ⟨hkey, hmeta⟩⟩ := mem_writesAll.mp hval
  · rw [blobKey_inj hfree hmem (mem_hashedAll hd' (List.mem_cons_of_mem _ hval)) hkey]
  · rw [blobKey_inj hfree hmem (mem_hashedAll hd' List.mem_cons_self) hkey, hmeta]
    exact (length_digests_lt hlen (hus d' hd').chunks_ne_nil).le

/-- A metafile in the place of a chunk makes the download too long. -/
theorem download_metafile_ne (hlen : ∀ m, (sha256 m).length = 32)
    {us : List (Delivery chunkSize)} (hus : ∀ d ∈ us, d.Fills)
    (hfree : CollisionFree sha256 (hashedAll sha256 us))
    (hmeta : ∀ d ∈ us, (ByteStore.empty.setAll (writesAll sha256 us)).get
      (blobKey sha256 (digests sha256 d.chunks)) = some (metafileOf sha256 d.chunks))
    {u v : Delivery chunkSize} (hu : u ∈ us) (hv : v ∈ us)
    (hclash : digests sha256 v.chunks ∈ u.chunks) :
    (download remote (ByteStore.empty.setAll (writesAll sha256 us))
      (blobKey sha256 (digests sha256 u.chunks))).1 ≠ .ok u.chunks.flatten := by
  let store := ByteStore.empty.setAll (writesAll sha256 us)
  let val := fun c : Bytes => (store.get (blobKey sha256 c)).getD []
  have hle : ∀ c ∈ u.chunks, c.length ≤ (val c).length := by
    intro c hc
    obtain ⟨w, hget, hle⟩ := exists_get_chunk hlen hus hfree hu hc
    change c.length ≤ ((store.get (blobKey sha256 c)).getD []).length
    rwa [hget, Option.getD_some]
  have hlt : (digests sha256 v.chunks).length < (val (digests sha256 v.chunks)).length := by
    change _ < ((store.get (blobKey sha256 _)).getD []).length
    rw [hmeta v hv, Option.getD_some]
    exact length_digests_lt hlen (hus v hv).chunks_ne_nil
  have hval : ∀ c ∈ u.chunks, store.get (blobKey sha256 c) = some (val c) := by
    intro c hc
    obtain ⟨w, hget, _⟩ := exists_get_chunk hlen hus hfree hu hc
    change store.get _ = some ((store.get (blobKey sha256 c)).getD [])
    rw [hget, Option.getD_some]
  rw [download_blobs hlen (hmeta u hu) hval]
  intro heq
  have hlengths := congrArg List.length (Except.ok.inj heq)
  rw [List.length_flatMap, List.length_flatten] at hlengths
  have hsum := List.sum_lt_sum List.length (fun c => (val c).length) hle
    ⟨_, hclash, hlt⟩
  exact absurd hlengths.symm hsum.ne

theorem noClash_of_kept (hlen : ∀ m, (sha256 m).length = 32) {us : List (Delivery chunkSize)}
    (hus : ∀ d ∈ us, d.Fills) (hfree : CollisionFree sha256 (hashedAll sha256 us))
    (hread : ∀ d ∈ us, ¬ Readable (digests sha256 d.chunks))
    (hkept : Kept sha256 noProvider .empty us) : NoClash sha256 us := by
  have hdown := (kept_iff .empty hus).mp hkept
  have hmeta : ∀ d ∈ us, (ByteStore.empty.setAll (writesAll sha256 us)).get
      (blobKey sha256 (digests sha256 d.chunks)) = some (metafileOf sha256 d.chunks) := by
    intro d hd
    have hmem : digests sha256 d.chunks ∈ hashedAll sha256 us :=
      mem_hashedAll hd List.mem_cons_self
    obtain ⟨val, hval, hget⟩ :=
      exists_get_of_mem (mem_writesAll.mpr ⟨d, hd, .inr ⟨rfl, rfl⟩⟩)
    obtain ⟨d', hd', ⟨hval, hkey⟩ | ⟨hkey, hval⟩⟩ := mem_writesAll.mp hval
    · have heq := blobKey_inj hfree hmem (mem_hashedAll hd' (List.mem_cons_of_mem _ hval)) hkey
      rw [← heq] at hget
      exact absurd (hdown d hd) (download_digests_ne hlen (hus d hd) (hread d hd) hget)
    · have heq := blobKey_inj hfree hmem (mem_hashedAll hd' List.mem_cons_self) hkey
      rw [hget, hval, metafileOf_eq_of_digests hlen heq]
  intro u hu v hv hclash
  exact download_metafile_ne hlen hus hfree hmeta hu hv hclash (hdown u hu)

/-! ## When every upload is kept -/

/-- The byte `a`. -/
def uploadOfA : Delivery 32 where
  chunks := [[0x61]]
  last := []
  fits := by decide

/-- The hash of the byte `a`. -/
def uploadOfDigest : Delivery 32 where
  chunks := [Minotor.sha256 [0x61]]
  last := []
  fits := by decide +kernel

theorem fills_uploadOfA : uploadOfA.Fills :=
  ⟨by decide, rfl, by decide, by decide⟩

theorem fills_uploadOfDigest : uploadOfDigest.Fills :=
  ⟨by decide +kernel, rfl, by decide, by decide +kernel⟩

end Minotor.DataSharing
