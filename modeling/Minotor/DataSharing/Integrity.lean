import Minotor.DataSharing.Blobs
import Minotor.DataSharing.Contents

/-!
# Content integrity of downloads

Neither `ExecDataReplyMessage` nor `Download` compares a blob with the hash in
its key, so a reply may put any bytes under any key.  When every reply that a
node handles is authentic for the kind of its key, and the uploads of the node
keep to these kinds, a download of a metahash returns chunks with the hash
which the metahash names.
-/

namespace Minotor.DataSharing

variable {P : Type*}

/-- A value which belongs under its key: a metafile under a metahash, and under
any other key the bytes with the hash of the key. -/
structure Authentic (sha256 : Bytes → Bytes) (isMetahash : Bytes → Prop) (key val : Bytes) :
    Prop where
  metafile : isMetahash key → ∃ ds : List Bytes,
    (∀ d ∈ ds, d ≠ [] ∧ ¬ isMetahash (hexBytes d)) ∧
      val = List.intercalate metafileSep (ds.map hexBytes) ∧
        key = hexBytes (sha256 ds.flatten)
  chunk : ¬ isMetahash key → key = hexBytes (sha256 val)

/-- The replies which node `p` handles are authentic, no key of a chunk which
it uploads is a metahash, and the keys of its metafiles are metahashes. -/
def Checked (conf : Conf P) (isMetahash : Bytes → Prop) (p : P) (st : Network P) :
    Action P → Prop
  | .deliver k _ _ _ => ∀ pkt requestID key val, st.packets[k]? = some pkt →
      pkt.dest = p → pkt.header.destination = p →
      pkt.msg = .dataReply requestID key (some val) →
      Authentic conf.sha256 isMetahash key val
  | .call q (.uploadRead i r) => q = p →
      (r.err = none → ¬ isMetahash (blobKey conf.sha256 r.data)) ∧
      ∀ metafile chunkList, (st.nodes p).uploads[i]? = some (.reading metafile chunkList) →
        metafile ≠ [] → r.err = some .eof → isMetahash (blobKey conf.sha256 chunkList)
  | _ => True

/-- The variables of an upload belong to chunks whose keys are no metahashes. -/
def Uploading.Hashes (sha256 : Bytes → Bytes) (isMetahash : Bytes → Prop) : Uploading → Prop
  | .reading metafile chunkList => ∃ chunks : List Bytes,
      (∀ c ∈ chunks, ¬ isMetahash (blobKey sha256 c)) ∧
        metafile = (chunks.flatMap fun c => blobKey sha256 c ++ metafileSep) ∧
          chunkList = digests sha256 chunks
  | .ended _ => True

variable {sha256 : Bytes → Bytes} {isMetahash : Bytes → Prop}

/-! ## Uploads -/

theorem authentic_chunk {c : Bytes} (h : ¬ isMetahash (blobKey sha256 c)) :
    Authentic sha256 isMetahash (blobKey sha256 c) c :=
  ⟨fun hmeta => absurd hmeta h, fun _ => rfl⟩

theorem authentic_metafile (hlen : ∀ m, (sha256 m).length = 32) {chunks : List Bytes}
    (hchunks : ∀ c ∈ chunks, ¬ isMetahash (blobKey sha256 c))
    (hmeta : isMetahash (blobKey sha256 (digests sha256 chunks))) :
    Authentic sha256 isMetahash (blobKey sha256 (digests sha256 chunks))
      (metafileOf sha256 chunks) := by
  constructor
  · intro _
    refine ⟨chunks.map sha256, ?_, ?_, ?_⟩
    · intro d hd
      obtain ⟨c, hc, rfl⟩ := List.mem_map.mp hd
      refine ⟨?_, hchunks c hc⟩
      intro hnil
      have hlength := hlen c
      rw [hnil, List.length_nil] at hlength
      omega
    · rw [List.map_map]
      rfl
    · rw [← List.flatMap_def]
      rfl
  · exact fun h => absurd hmeta h

/-- A turn of the loop of an upload which keeps the kinds apart. -/
theorem uploadRead_authentic {conf : Conf P} {n n' : Node P} {i : ℕ} {r : Read}
    (hlen : ∀ m, (conf.sha256 m).length = 32)
    (hread : n.uploadRead conf i r = some n')
    (hblobs : Stores (Authentic conf.sha256 isMetahash) n.blobs)
    (huploads : ∀ u ∈ n.uploads, u.Hashes conf.sha256 isMetahash)
    (hchunk : r.err = none → ¬ isMetahash (blobKey conf.sha256 r.data))
    (hmeta : ∀ metafile chunkList, n.uploads[i]? = some (.reading metafile chunkList) →
      metafile ≠ [] → r.err = some .eof → isMetahash (blobKey conf.sha256 chunkList)) :
    Stores (Authentic conf.sha256 isMetahash) n'.blobs ∧
      ∀ u ∈ n'.uploads, u.Hashes conf.sha256 isMetahash := by
  rw [Node.uploadRead] at hread
  split at hread
  · next metafile chunkList hi =>
      obtain ⟨chunks, hkeys, hmetafile, hdigests⟩ := huploads _ (List.mem_of_getElem? hi)
      have hset : ∀ v : Uploading, v.Hashes conf.sha256 isMetahash →
          ∀ u ∈ n.uploads.set i v, u.Hashes conf.sha256 isMetahash := by
        intro v hv u hu
        rcases List.mem_or_eq_of_mem_set hu with hu | rfl
        · exact huploads u hu
        · exact hv
      split at hread
      · next herr =>
          obtain rfl := Option.some.inj hread
          refine ⟨?_, hset _ trivial⟩
          change Stores _ (finishUpload conf.sha256 ⟨n.blobs, metafile, chunkList⟩).2
          rw [finishUpload]
          by_cases hnil : metafile = []
          · rw [if_pos hnil]
            exact hblobs
          · rw [if_neg hnil]
            apply hblobs.set
            have hne : chunks ≠ [] := by
              rintro rfl
              exact hnil hmetafile
            have hkey := hmeta metafile chunkList hi hnil herr
            simp only [hmetafile, hdigests, flatMap_blobKey hne] at hkey ⊢
            rw [metafileSep, List.dropLast_concat]
            exact authentic_metafile hlen hkeys hkey
      · obtain rfl := Option.some.inj hread
        exact ⟨hblobs, hset _ trivial⟩
      · next herr =>
          obtain rfl := Option.some.inj hread
          refine ⟨hblobs.set (authentic_chunk (hchunk herr)), hset _ ?_⟩
          refine ⟨chunks ++ [r.data], ?_, ?_, ?_⟩
          · intro c hc
            rcases List.mem_append.mp hc with hc | hc
            · exact hkeys c hc
            · rw [List.mem_singleton.mp hc]
              exact hchunk herr
          · simp [uploadChunk, hmetafile, blobKey]
          · simp [uploadChunk, hdigests, digests]
  · exact absurd hread (by simp)

/-! ## Downloads -/

theorem map_sha256_of_forall₂ {ds chunks : List Bytes}
    (hds : ∀ d ∈ ds, ¬ isMetahash (hexBytes d))
    (h : List.Forall₂ (Authentic sha256 isMetahash) (ds.map hexBytes) chunks) :
    ds = chunks.map sha256 := by
  induction ds generalizing chunks with
  | nil =>
      cases h
      rfl
  | cons d ds ih =>
      cases h with
      | cons hval htail =>
          have hd := hexBytes_injective (hval.chunk (hds d List.mem_cons_self))
          rw [List.map_cons, ← hd, ← ih (fun x hx => hds x (List.mem_cons_of_mem _ hx)) htail]

/-- What is built of authentic values has the hash of its metahash. -/
theorem Built.exists_chunks {metahash data : Bytes}
    (h : Built (Authentic sha256 isMetahash) metahash data) (hmeta : isMetahash metahash) :
    ∃ chunks : List Bytes, data = chunks.flatten ∧
      metahash = hexBytes (sha256 (digests sha256 chunks)) := by
  obtain ⟨metafile, chunks, hval, hchunks, hdata⟩ := h
  obtain ⟨ds, hds, rfl, hkey⟩ := hval.metafile hmeta
  have hfields : fields (List.intercalate metafileSep (ds.map hexBytes)) = ds.map hexBytes := by
    apply fields_intercalate
    intro w hw
    obtain ⟨d, hd, rfl⟩ := List.mem_map.mp hw
    exact isHexWord_hexBytes (hds d hd).1
  rw [hfields] at hchunks
  have heq := map_sha256_of_forall₂ (fun d hd => (hds d hd).2) hchunks
  refine ⟨chunks, hdata, ?_⟩
  rw [hkey, heq, ← List.flatMap_def, digests]

theorem authentic_of_reachable [DecidableEq P] {conf : Conf P} {setup : P → Setup P} {p : P}
    (hlen : ∀ m, (conf.sha256 m).length = 32)
    (hsetup : Stores (Authentic conf.sha256 isMetahash) (setup p).blobs) {st : Network P}
    (hst : (dataSharing conf setup).ReachableUnder (Checked conf isMetahash p) st) :
    (st.nodes p).Keeps (Authentic conf.sha256 isMetahash) := by
  have hall := invariant_of_steps (C := Checked conf isMetahash p)
    (N := fun q n => q = p → n.Keeps (Authentic conf.sha256 isMetahash) ∧
      ∀ u ∈ n.uploads, u.Hashes conf.sha256 isMetahash)
    (M := fun _ => True) ?_ ?_ ?_ ?_ hst
  · exact (hall.1 p rfl).1
  · rintro q rfl
    exact ⟨⟨hsetup, fun d hd => absurd hd List.not_mem_nil⟩,
      fun u hu => absurd hu List.not_mem_nil⟩
  · intro st q c n sent hC hn hcall
    refine ⟨?_, fun pkt hpkt => trivial⟩
    rintro rfl
    obtain ⟨hkeeps, huploads⟩ := hn rfl
    have hstep := Node.call_callStep hcall
    have hread : ∀ i r, c = .uploadRead i r → (st.nodes q).uploadRead conf i r = some n →
        Stores (Authentic conf.sha256 isMetahash) n.blobs ∧
          ∀ u ∈ n.uploads, u.Hashes conf.sha256 isMetahash := by
      rintro i r rfl hread
      obtain ⟨hchunk, hmeta⟩ := hC rfl
      exact uploadRead_authentic hlen hread hkeeps.blobs huploads hchunk hmeta
    refine ⟨hkeeps.call hstep fun i r hc hr => (hread i r hc hr).1, ?_⟩
    rcases hstep.blobs with ⟨_, hnew⟩ | ⟨i, r, hc, hr⟩
    · intro u hu
      rcases hnew u hu with hu | rfl
      · exact huploads u hu
      · exact ⟨[], fun c hc => absurd hc List.not_mem_nil, rfl, rfl⟩
    · exact (hread i r hc hr).2
  · intro st k order neighbours ok pkt n sent hC hpkt hn _ hreceive
    refine ⟨?_, fun pkt' hpkt' => trivial⟩
    intro hdest
    obtain ⟨hkeeps, huploads⟩ := hn hdest
    have hstep := Node.receive_receiveStep conf pkt.dest (st.nodes pkt.dest) pkt order
      neighbours ok
    rw [hreceive] at hstep
    constructor
    · apply hkeeps.receive hstep
      intro requestID key val hheader hmsg
      exact hC pkt requestID key val hpkt hdest (hheader.trans hdest) hmsg
    · rw [hstep.uploads]
      exact huploads
  · exact fun _ => trivial

/-- A node with an empty storage. -/
def emptySetup (_ : Fin 2) : Setup (Fin 2) where
  blobs := .empty
  naming := .empty
  catalog := []
  routingTable := Gossip.NodeRT.new

def integrityConf : Conf (Fin 2) where
  sha256 := Minotor.sha256
  retry := fun _ => 3
  compile := fun _ => none

/-- A reply nobody asked for puts an empty metafile under the key `00`. -/
def forgedRun : List (Action (Fin 2)) :=
  [.forge 0 ⟨1, 1, 0⟩ 7 [0x30, 0x30] (some []), .deliver 0 [] [] true,
   .call 0 (.download [0x30, 0x30]), .call 0 (.downloadStep 0)]

/-- The metahash of the byte `a`. -/
def metahashOfA : Bytes := blobKey Minotor.sha256 (Minotor.sha256 [0x61])

/-- Upload the byte `a` and download it again. -/
def ownRun : List (Action (Fin 2)) :=
  [.call 0 .upload, .call 0 (.uploadRead 0 ⟨[0x61], none⟩),
   .call 0 (.uploadRead 0 ⟨[], some .eof⟩), .call 0 (.download metahashOfA),
   .call 0 (.downloadStep 0), .call 0 (.downloadStep 0)]

/-- The action uploads the byte `a` only, handles no packet, and finds the
variables of this upload. -/
def isOwnStep (st : Network (Fin 2)) : Action (Fin 2) → Bool
  | .deliver _ _ _ _ => false
  | .call _ (.uploadRead i r) =>
      decide (r.err = none → r.data = [0x61]) &&
        decide (r.err = some .eof → (st.nodes 0).uploads[i]? =
          some (.reading (blobKey Minotor.sha256 [0x61] ++ metafileSep) (Minotor.sha256 [0x61])))
  | _ => true

theorem checked_of_isOwnStep {st : Network (Fin 2)} {a : Action (Fin 2)}
    (h : isOwnStep st a = true) :
    Checked integrityConf (fun key => key = metahashOfA) 0 st a := by
  cases a with
  | deliver k order neighbours ok => exact absurd h (by simp [isOwnStep])
  | call q c =>
      cases c with
      | uploadRead i r =>
          simp only [isOwnStep, Bool.and_eq_true, decide_eq_true_eq] at h
          intro _
          constructor
          · intro herr
            rw [h.1 herr]
            decide +kernel
          · intro metafile chunkList hi _ herr
            rw [h.2 herr, Option.some.injEq, Uploading.reading.injEq] at hi
            rw [← hi.2]
            rfl
      | _ => trivial
  | _ => trivial

end Minotor.DataSharing
