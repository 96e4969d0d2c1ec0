import Minotor.DataSharing.RoundTrip
import Minotor.Support.Blocks

/-!
# Uploads of one content by two readers

`Upload` takes what one `Read` call returns as a chunk, so the chunks are the
blocks of the content only if the reader fills the buffer with every read but
the last.
-/

namespace Minotor.DataSharing

variable {chunkSize : ℕ}

/-- Reads of at least one byte without an error deliver the content, and then
one read returns no bytes and `io.EOF`. -/
structure Delivery.Segments (d : Delivery chunkSize) (content : Bytes) : Prop where
  content_eq : d.content = content
  last_eq : d.last = []
  nonempty : ∀ r ∈ d.chunks, r ≠ []

/-- Every read but the last one with bytes fills the buffer. -/
def Delivery.Full (d : Delivery chunkSize) : Prop :=
  ∀ r ∈ d.chunks.dropLast, r.length = chunkSize

instance (d : Delivery chunkSize) : Decidable d.Full :=
  inferInstanceAs (Decidable (∀ r ∈ d.chunks.dropLast, r.length = chunkSize))

/-- The metafile whose lines are the hashes of the blocks of the content. -/
def contentMetafile (sha256 : Bytes → Bytes) (chunkSize : ℕ) (content : Bytes) : Bytes :=
  List.intercalate metafileSep ((blocks chunkSize content).map fun b => hexBytes (sha256 b))

/-- The uploads of two readers return the same metahash, under which both have
stored the metafile of the content. -/
def ContentOnly (sha256 : Bytes → Bytes) (content : Bytes) (store store' : ByteStore)
    (d d' : Delivery chunkSize) : Prop :=
  ∃ metahash after after',
    upload sha256 store d.reads = some (.returned metahash, after) ∧
    upload sha256 store' d'.reads = some (.returned metahash, after') ∧
    after.get metahash = some (contentMetafile sha256 chunkSize content) ∧
    after'.get metahash = some (contentMetafile sha256 chunkSize content)

variable {sha256 : Bytes → Bytes} {content : Bytes} {store store' : ByteStore}
  {d d' : Delivery chunkSize}

theorem contentMetafile_eq :
    contentMetafile sha256 chunkSize content =
      metafileOf sha256 (blocks chunkSize content) := rfl

theorem Delivery.Segments.flatten (h : d.Segments content) : d.chunks.flatten = content := by
  rw [← h.content_eq, Delivery.content, h.last_eq, List.append_nil]

theorem Delivery.Segments.chunks_ne_nil (h : d.Segments content) (hne : content ≠ []) :
    d.chunks ≠ [] := by
  intro hnil
  apply hne
  rw [← h.flatten, hnil, List.flatten_nil]

/-- The chunks of a reader which fills the buffer are the blocks. -/
theorem Delivery.Segments.chunks_eq (h : d.Segments content) (hfull : d.Full) :
    d.chunks = blocks chunkSize content := by
  rw [← h.flatten]
  symm
  apply blocks_flatten
  · intro r hr
    exact ⟨h.nonempty r hr, d.fits r (List.mem_append_left _ hr)⟩
  · exact hfull

/-- What an upload of the content returns and stores. -/
theorem Delivery.Segments.upload_eq (sha256 : Bytes → Bytes) (h : d.Segments content)
    (hne : content ≠ []) (store : ByteStore) :
    ∃ after, upload sha256 store d.reads =
        some (.returned (blobKey sha256 (digests sha256 d.chunks)), after) ∧
      after.get (blobKey sha256 (digests sha256 d.chunks)) =
        some (metafileOf sha256 d.chunks) :=
  ⟨_, DataSharing.upload_eq store (h.chunks_ne_nil hne), get_metahash store d.chunks⟩

theorem CollisionFree.mono {xs ys : List Bytes} (hfree : CollisionFree sha256 ys)
    (hsub : xs ⊆ ys) : CollisionFree sha256 xs :=
  fun x hx y hy => hfree x (hsub hx) y (hsub hy)

/-- The hash keeps lists of byte strings apart on which it has no collision. -/
theorem CollisionFree.eq_of_map {xs : List Bytes} (hfree : CollisionFree sha256 xs) :
    ∀ {l l' : List Bytes}, (∀ x ∈ l, x ∈ xs) → (∀ x ∈ l', x ∈ xs) →
      l.map sha256 = l'.map sha256 → l = l'
  | [], [], _, _, _ => rfl
  | [], _ :: _, _, _, h => by cases h
  | _ :: _, [], _, _, h => by cases h
  | x :: l, y :: l', hl, hl', h => by
      rw [List.map_cons, List.map_cons, List.cons.injEq] at h
      rw [List.forall_mem_cons] at hl hl'
      rw [hfree x hl.1 y hl'.1 h.1, eq_of_map hfree hl.2 hl'.2 h.2]

theorem eq_of_metafileOf (hlen : ∀ m, (sha256 m).length = 32) {chunks chunks' : List Bytes}
    (hfree : CollisionFree sha256 (chunks ++ chunks'))
    (h : metafileOf sha256 chunks = metafileOf sha256 chunks') : chunks = chunks' := by
  have hkeys := congrArg fields h
  rw [fields_metafileOf hlen, fields_metafileOf hlen] at hkeys
  have hhashes : chunks.map sha256 = chunks'.map sha256 := by
    apply List.map_injective_iff.mpr hexBytes_injective
    rw [List.map_map, List.map_map]
    exact hkeys
  exact hfree.eq_of_map (fun _ => List.mem_append_left _) (fun _ => List.mem_append_right _)
    hhashes

/-- Only a reader which fills the buffer gets the metafile of the content. -/
theorem Delivery.full_of_metafile (hpos : 0 < chunkSize)
    (hlen : ∀ m, (sha256 m).length = 32)
    (hfree : CollisionFree sha256 (d.chunks ++ blocks chunkSize content))
    (hmeta : metafileOf sha256 d.chunks = contentMetafile sha256 chunkSize content) :
    d.Full := by
  rw [contentMetafile_eq] at hmeta
  have hchunks : d.chunks = blocks chunkSize content := eq_of_metafileOf hlen hfree hmeta
  intro r hr
  rw [hchunks] at hr
  exact length_of_mem_dropLast_blocks hpos hr

/-- The uploads of a content by any two readers agree and store the metafile of
its blocks if both readers fill the buffer with every read but the last, and
only then if the hash has no collision on the chunks and blocks. -/
theorem content_only_iff (sha256 : Bytes → Bytes) (hlen : ∀ m, (sha256 m).length = 32)
    {chunkSize : ℕ} (hpos : 0 < chunkSize) {content : Bytes} (hne : content ≠ [])
    (store store' : ByteStore) {d d' : Delivery chunkSize} (h : d.Segments content)
    (h' : d'.Segments content) :
    (d.Full ∧ d'.Full → ContentOnly sha256 content store store' d d') ∧
      (CollisionFree sha256 (d.chunks ++ d'.chunks ++ blocks chunkSize content) →
        ContentOnly sha256 content store store' d d' → d.Full ∧ d'.Full) := by
  obtain ⟨after, hupload, hget⟩ := h.upload_eq sha256 hne store
  obtain ⟨after', hupload', hget'⟩ := h'.upload_eq sha256 hne store'
  constructor
  · rintro ⟨hfull, hfull'⟩
    rw [h.chunks_eq hfull] at hupload hget
    rw [h'.chunks_eq hfull'] at hupload' hget'
    exact ⟨_, after, after', hupload, hupload', hget, hget'⟩
  · rintro hfree ⟨metahash, t, t', hreturn, hreturn', hmeta, hmeta'⟩
    rw [hupload, Option.some.injEq, Prod.mk.injEq, Outcome.returned.injEq] at hreturn
    rw [hupload', Option.some.injEq, Prod.mk.injEq, Outcome.returned.injEq] at hreturn'
    obtain ⟨rfl, rfl⟩ := hreturn
    obtain ⟨hsame, rfl⟩ := hreturn'
    rw [← hsame] at hmeta'
    constructor
    · refine Delivery.full_of_metafile hpos hlen (hfree.mono ?_)
        (Option.some.inj (hget.symm.trans hmeta))
      intro x hx
      simp only [List.mem_append] at hx ⊢
      exact hx.imp_left .inl
    · refine Delivery.full_of_metafile hpos hlen (hfree.mono ?_)
        (Option.some.inj (hget'.symm.trans hmeta'))
      intro x hx
      simp only [List.mem_append] at hx ⊢
      exact hx.imp_left .inr

/-- The bytes `abc`, of which the first read returns only one. -/
def shortFirst : Delivery 2 where
  chunks := [[0x61], [0x62, 0x63]]
  last := []
  fits := by decide

theorem segments_endAfterContent : endAfterContent.Segments [0x61, 0x62, 0x63] :=
  ⟨rfl, rfl, by decide⟩

theorem segments_shortFirst : shortFirst.Segments [0x61, 0x62, 0x63] :=
  ⟨rfl, rfl, by decide⟩

theorem content_only_iff_of_abc :
    ContentOnly Minotor.sha256 [0x61, 0x62, 0x63] .empty .empty endAfterContent
        endAfterContent ∧
      ¬ContentOnly Minotor.sha256 [0x61, 0x62, 0x63] .empty .empty endAfterContent
        shortFirst := by
  constructor
  · apply (content_only_iff Minotor.sha256 length_sha256 (by decide) (by decide) .empty .empty
      segments_endAfterContent segments_endAfterContent).1
    exact ⟨by decide, by decide⟩
  · intro honly
    have hfull := (content_only_iff Minotor.sha256 length_sha256 (by decide) (by decide)
      .empty .empty segments_endAfterContent segments_shortFirst).2 (by decide +kernel) honly
    exact absurd (hfull.2 [0x61] List.mem_cons_self) (by decide)

/-- A reader with a short first read gets another metahash for the bytes
`abc`. -/
theorem metahash_depends_on_reads :
    shortFirst.Segments [0x61, 0x62, 0x63] ∧ endAfterContent.Segments [0x61, 0x62, 0x63] ∧
      ¬ContentOnly Minotor.sha256 [0x61, 0x62, 0x63] .empty .empty endAfterContent
        shortFirst := by
  refine ⟨segments_shortFirst, segments_endAfterContent, ?_⟩
  rintro ⟨metahash, t, t', hupload, hupload', -⟩
  have hhash : (upload Minotor.sha256 .empty endAfterContent.reads).map Prod.fst =
      (upload Minotor.sha256 .empty shortFirst.reads).map Prod.fst := by
    rw [hupload, hupload']
    rfl
  exact absurd hhash (by decide +kernel)

end Minotor.DataSharing
