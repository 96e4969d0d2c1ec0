import Minotor.DataSharing.Steps

/-!
# Search replies and the catalog

`sendReplyMsg` reports the keys of which its node has the blobs, and
`ExecSearchReplyMessage` adds every reported key to the catalog.  The second
loop over the responses, which stops at a missing chunk, finds all its entries
in the catalog.  Blobs are never deleted, so over a run every entry stays backed
by a blob.
-/

namespace Minotor.DataSharing

variable {P : Type*}

/-- The keys which a search reply reports. -/
def Reports (responses : List FileInfo) (key : Bytes) : Prop :=
  ∃ res ∈ responses, key = res.metahash ∨ some key ∈ res.chunks

theorem not_reports_nil (key : Bytes) : ¬ Reports [] key := by
  rintro ⟨res, hres, _⟩
  exact List.not_mem_nil hres

theorem reports_cons {res : FileInfo} {responses : List FileInfo} {key : Bytes} :
    Reports (res :: responses) key ↔
      (key = res.metahash ∨ some key ∈ res.chunks) ∨ Reports responses key := by
  simp only [Reports, List.mem_cons, exists_eq_or_imp]

/-- What a node offers to a search: the metahashes of the names which match and
whose metafiles it stores, and the chunks listed there which it stores. -/
def Node.Offers (n : Node P) (matchString : Bytes → Bool) (key : Bytes) : Prop :=
  ∃ name metahash metafile, matchString name = true ∧ n.naming.get name = some metahash ∧
    n.blobs.get metahash = some metafile ∧
      (key = metahash ∨
        key ∈ metafile.splitOn 0x0a ∧ ∃ val, n.blobs.get key = some val)

/-! ## Building the reply -/

namespace Node

variable {n : Node P} {matchString : Bytes → Bool}

theorem mem_knownFiles {order : List Bytes} {name metahash : Bytes} :
    (name, metahash) ∈ n.knownFiles matchString order ↔
      name ∈ order ∧ matchString name = true ∧ n.naming.get name = some metahash ∧
        ∃ metafile, n.blobs.get metahash = some metafile := by
  rw [knownFiles, List.mem_filterMap]
  constructor
  · rintro ⟨key, hkey, heq⟩
    split at heq
    · next hmatch =>
        obtain ⟨val, hval, hmap⟩ := Option.bind_eq_some_iff.mp heq
        obtain ⟨metafile, hget, hpair⟩ := Option.map_eq_some_iff.mp hmap
        obtain ⟨rfl, rfl⟩ := Prod.mk.inj hpair
        exact ⟨hkey, hmatch, hval, metafile, hget⟩
    · exact absurd heq (by simp)
  · rintro ⟨hname, hmatch, hnaming, metafile, hget⟩
    refine ⟨name, hname, ?_⟩
    rw [if_pos hmatch, hnaming, Option.bind_some, hget]
    rfl

theorem some_mem_fileInfo_chunks {filename metahash metafile key : Bytes}
    (hget : n.blobs.get metahash = some metafile) :
    some key ∈ (n.fileInfo filename metahash).chunks ↔
      key ∈ metafile.splitOn 0x0a ∧ ∃ val, n.blobs.get key = some val := by
  rw [fileInfo, hget, Option.getD_some, List.mem_map]
  constructor
  · rintro ⟨chunk, hchunk, heq⟩
    obtain ⟨val, hval, rfl⟩ := Option.map_eq_some_iff.mp heq
    exact ⟨hchunk, val, hval⟩
  · rintro ⟨hchunk, val, hval⟩
    refine ⟨key, hchunk, ?_⟩
    rw [hval]
    rfl

/-- A reply reports what its node offers, in whatever order it visits its
names. -/
theorem reports_knownFiles (n : Node P) (matchString : Bytes → Bool) {order : List Bytes}
    (horder : ∀ name, name ∈ order ↔ name ∈ n.naming.keys) (key : Bytes) :
    Reports ((n.knownFiles matchString order).map fun (f, m) => n.fileInfo f m) key ↔
      n.Offers matchString key := by
  constructor
  · rintro ⟨res, hres, hkey⟩
    obtain ⟨⟨name, metahash⟩, hfile, rfl⟩ := List.mem_map.mp hres
    obtain ⟨_, hmatch, hnaming, metafile, hget⟩ := mem_knownFiles.mp hfile
    refine ⟨name, metahash, metafile, hmatch, hnaming, hget, ?_⟩
    rcases hkey with hkey | hkey
    · exact .inl hkey
    · exact .inr ((some_mem_fileInfo_chunks hget).mp hkey)
  · rintro ⟨name, metahash, metafile, hmatch, hnaming, hget, hkey⟩
    have hname : name ∈ order := (horder name).mpr (ByteStore.mem_keys.mpr ⟨metahash, hnaming⟩)
    have hfile := mem_knownFiles.mpr ⟨hname, hmatch, hnaming, metafile, hget⟩
    refine ⟨n.fileInfo name metahash, List.mem_map_of_mem hfile, ?_⟩
    rcases hkey with hkey | hkey
    · exact .inl hkey
    · exact .inr ((some_mem_fileInfo_chunks hget).mpr hkey)

/-- Every key which a reply reports has a blob. -/
theorem get_of_reports {order : List Bytes} {key : Bytes}
    (h : Reports ((n.knownFiles matchString order).map fun (f, m) => n.fileInfo f m) key) :
    ∃ val, n.blobs.get key = some val := by
  obtain ⟨res, hres, hkey⟩ := h
  obtain ⟨⟨name, metahash⟩, hfile, rfl⟩ := List.mem_map.mp hres
  obtain ⟨_, _, _, metafile, hget⟩ := mem_knownFiles.mp hfile
  rcases hkey with rfl | hkey
  · exact ⟨metafile, hget⟩
  · exact ((some_mem_fileInfo_chunks hget).mp hkey).2

end Node

/-! ## Handling the reply -/

section Handling

variable [DecidableEq P] {catalog : List (Bytes × P)} {source : P}

theorem mem_addEntry {key : Bytes} {addr : P} {e : Bytes × P} :
    e ∈ addEntry catalog key addr ↔ e ∈ catalog ∨ e = (key, addr) := by
  rw [addEntry]
  split
  · next hmem =>
      constructor
      · exact fun h => .inl h
      · rintro (h | rfl)
        · exact h
        · exact hmem
  · rw [List.mem_append, List.mem_singleton]

theorem addEntry_of_mem {key : Bytes} {addr : P} (h : (key, addr) ∈ catalog) :
    addEntry catalog key addr = catalog := if_pos h

namespace Node

theorem mem_addChunks {chunks : List (Option Bytes)} {key : Bytes} {addr : P} :
    (key, addr) ∈ addChunks source catalog chunks ↔
      (key, addr) ∈ catalog ∨ addr = source ∧ some key ∈ chunks := by
  rw [addChunks]
  induction chunks generalizing catalog with
  | nil => simp
  | cons chunk chunks ih =>
      rw [List.foldl_cons, ih]
      cases chunk with
      | none => simp
      | some chunk =>
          simp only [mem_addEntry, Prod.mk.injEq, List.mem_cons, Option.some.injEq]
          tauto

theorem mem_catalog_execResponse {requestID : ℕ} {n : Node P} {res : FileInfo} {key : Bytes}
    {addr : P} :
    (key, addr) ∈ (execResponse requestID source n res).catalog ↔
      (key, addr) ∈ n.catalog ∨
        addr = source ∧ (key = res.metahash ∨ some key ∈ res.chunks) := by
  simp only [execResponse, updateStoreAndCatalog, mem_addChunks, mem_addEntry, Prod.mk.injEq]
  tauto

theorem mem_catalog_foldl_execResponse {requestID : ℕ} {n : Node P}
    {responses : List FileInfo} {key : Bytes} {addr : P} :
    (key, addr) ∈ (responses.foldl (execResponse requestID source) n).catalog ↔
      (key, addr) ∈ n.catalog ∨ addr = source ∧ Reports responses key := by
  induction responses generalizing n with
  | nil => simp [not_reports_nil]
  | cons res responses ih =>
      rw [List.foldl_cons, ih, mem_catalog_execResponse, or_assoc, ← and_or_left, reports_cons]

theorem addChunksUntilMissing_of_mem {chunks : List (Option Bytes)}
    (h : ∀ key, some key ∈ chunks → (key, source) ∈ catalog) :
    (addChunksUntilMissing source catalog chunks).1 = catalog := by
  induction chunks with
  | nil => rfl
  | cons chunk chunks ih =>
      cases chunk with
      | none => rfl
      | some key =>
          rw [addChunksUntilMissing, addEntry_of_mem (h key List.mem_cons_self)]
          exact ih fun key hkey => h key (List.mem_cons_of_mem _ hkey)

theorem catalog_checkResponse {requestID : ℕ} {s : Node P × Option Bytes} {res : FileInfo}
    (hmetahash : (res.metahash, source) ∈ s.1.catalog)
    (hchunks : ∀ key, some key ∈ res.chunks → (key, source) ∈ s.1.catalog) :
    (checkResponse requestID source s res).1.catalog = s.1.catalog := by
  simp only [checkResponse, updateStoreAndCatalog, addEntry_of_mem hmetahash]
  exact addChunksUntilMissing_of_mem hchunks

/-- The second loop over the responses adds no entry. -/
theorem catalog_foldl_checkResponse (requestID : ℕ) (s : Node P × Option Bytes)
    {responses : List FileInfo}
    (h : ∀ key, Reports responses key → (key, source) ∈ s.1.catalog) :
    (responses.foldl (checkResponse requestID source) s).1.catalog = s.1.catalog := by
  induction responses generalizing s with
  | nil => rfl
  | cons res responses ih =>
      have hstep : (checkResponse requestID source s res).1.catalog = s.1.catalog := by
        apply catalog_checkResponse
        · exact h _ (reports_cons.mpr (.inl (.inl rfl)))
        · exact fun key hkey => h key (reports_cons.mpr (.inl (.inr hkey)))
      rw [List.foldl_cons, ih, hstep]
      intro key hkey
      rw [hstep]
      exact h key (reports_cons.mpr (.inr hkey))

theorem catalog_checkAvailabilityAndTrigger {requestID : ℕ} {n : Node P}
    {responses : List FileInfo}
    (h : ∀ key, Reports responses key → (key, source) ∈ n.catalog) :
    (n.checkAvailabilityAndTrigger requestID responses source).catalog = n.catalog := by
  have hfold := catalog_foldl_checkResponse requestID (n, none) h
  rw [checkAvailabilityAndTrigger]
  split
  · split
    · next m heq =>
        rw [heq] at hfold
        exact hfold
    · next m filename heq =>
        rw [heq] at hfold
        exact hfold
  · rfl

/-- Handling a search reply adds what the reply reports, and nothing else. -/
theorem mem_catalog_execSearchReplyMessage {requestID : ℕ} {n : Node P}
    {responses : List FileInfo} {key : Bytes} {addr : P} :
    (key, addr) ∈ (n.execSearchReplyMessage requestID responses source).catalog ↔
      (key, addr) ∈ n.catalog ∨ addr = source ∧ Reports responses key := by
  rw [execSearchReplyMessage, catalog_checkAvailabilityAndTrigger,
    mem_catalog_foldl_execResponse]
  exact fun key hkey => mem_catalog_foldl_execResponse.mpr (.inr ⟨rfl, hkey⟩)

end Node

end Handling

/-! ## Runs -/

/-- Every key with a blob still has one. -/
def Node.Grows (n n' : Node P) : Prop :=
  ∀ key, (∃ val, n.blobs.get key = some val) → ∃ val, n'.blobs.get key = some val

theorem finishUpload_snd (sha256 : Bytes → Bytes) (st : UploadState) :
    (finishUpload sha256 st).2 = st.store ∨
      ∃ key val, (finishUpload sha256 st).2 = st.store.set key val := by
  rw [finishUpload]
  split
  · exact .inl rfl
  · exact .inr ⟨_, _, rfl⟩

namespace Node

theorem grows_of_eq {n n' : Node P} (h : n'.blobs = n.blobs) : n.Grows n' := by
  intro key hkey
  rw [h]
  exact hkey

theorem grows_of_set {n n' : Node P} {key val : Bytes} (h : n'.blobs = n.blobs.set key val) :
    n.Grows n' := by
  intro key' hkey'
  rw [h, ByteStore.get_set]
  split
  · exact ⟨val, rfl⟩
  · exact hkey'

end Node

/-- No call of `UpdateCatalog`. -/
def NoUpdateCatalog (_ : Network P) : Action P → Prop
  | .call _ (.updateCatalog _ _) => False
  | _ => True

/-- Every key which the packet reports has a blob at the source of the packet. -/
def Packet.IsBacked (nodes : P → Node P) (pkt : Packet P) : Prop :=
  ∀ requestID responses, pkt.msg = .searchReply requestID responses →
    ∀ key, Reports responses key →
      ∃ val, (nodes pkt.header.source).blobs.get key = some val

/-- Every entry of a catalog, and every key which a reply on the network
reports, has a blob at the peer it names. -/
structure Backed (st : Network P) : Prop where
  catalog : ∀ q key p, (key, p) ∈ (st.nodes q).catalog →
    ∃ val, (st.nodes p).blobs.get key = some val
  packets : ∀ pkt ∈ st.packets, pkt.IsBacked st.nodes

namespace Node

theorem uploadRead_grows {conf : Conf P} {n n' : Node P} {i : ℕ} {r : Read}
    (h : n.uploadRead conf i r = some n') : n.Grows n' := by
  rw [uploadRead] at h
  split at h
  · next metafile chunkList _ =>
      split at h
      · obtain rfl := Option.some.inj h
        rcases finishUpload_snd conf.sha256 ⟨n.blobs, metafile, chunkList⟩ with
          heq | ⟨key, val, heq⟩
        · exact grows_of_eq heq
        · exact grows_of_set heq
      · obtain rfl := Option.some.inj h
        exact grows_of_eq rfl
      · obtain rfl := Option.some.inj h
        exact grows_of_set rfl
  · exact absurd h (by simp)

end Node

theorem Packet.isBacked_of_isRequest {nodes : P → Node P} {pkt : Packet P}
    (h : pkt.msg.IsRequest) : pkt.IsBacked nodes := by
  intro requestID responses hmsg
  rw [hmsg] at h
  exact h.elim

theorem Packet.isBacked_dataReply {nodes : P → Node P} {pkt : Packet P} {requestID : ℕ}
    {key : Bytes} {value : Option Bytes} (h : pkt.msg = .dataReply requestID key value) :
    pkt.IsBacked nodes := by
  intro requestID responses hmsg
  rw [h] at hmsg
  exact absurd hmsg (by simp)

theorem Packet.IsBacked.of_same {nodes : P → Node P} {pkt pkt' : Packet P}
    (h : pkt.IsBacked nodes) (hmsg : pkt'.msg = pkt.msg)
    (hsource : pkt'.header.source = pkt.header.source) : pkt'.IsBacked nodes := by
  intro requestID responses heq
  rw [hsource]
  exact h requestID responses (hmsg ▸ heq)

theorem Packet.isBacked_sendReplyMsg (nodes : P → Node P) (p : P) (requestID : ℕ)
    (origin dest : P) (matchString : Bytes → Bool) (order : List Bytes) :
    ((nodes p).sendReplyMsg p requestID origin dest
      ((nodes p).knownFiles matchString order)).IsBacked nodes := by
  intro requestID' responses hmsg key hkey
  obtain ⟨_, rfl⟩ := Message.searchReply.inj hmsg
  exact Node.get_of_reports hkey

theorem Backed.of_packets {st : Network P} (h : Backed st) {packets : List (Packet P)}
    (hpackets : ∀ pkt ∈ packets, pkt.IsBacked st.nodes) :
    Backed { st with packets := packets } :=
  ⟨h.catalog, hpackets⟩

variable [DecidableEq P]

namespace Node

theorem CallStep.grows {conf : Conf P} {n : Node P} {c : Call P} {n' : Node P}
    {sent : List (Packet P)} (h : CallStep conf n c n' sent) : n.Grows n' := by
  rcases h.blobs with ⟨heq, _⟩ | ⟨i, r, _, hread⟩
  · exact grows_of_eq heq
  · exact uploadRead_grows hread

theorem ReceiveStep.grows {conf : Conf P} {myAddr : P} {n : Node P} {pkt : Packet P}
    {n' : Node P} {sent : List (Packet P)} (h : ReceiveStep conf myAddr n pkt n' sent) :
    n.Grows n' := by
  rcases h.blobs with heq | ⟨requestID, key, val, _, _, heq⟩
  · exact grows_of_eq heq
  · exact grows_of_set heq

end Node

namespace Backed

variable {st : Network P}

/-- A node changes and sends packets: it is enough to look at the old blobs. -/
theorem put (h : Backed st) {p : P} {n : Node P} {sent : List (Packet P)}
    (hgrows : (st.nodes p).Grows n)
    (hcatalog : ∀ key addr, (key, addr) ∈ n.catalog →
      ∃ val, (st.nodes addr).blobs.get key = some val)
    (hsent : ∀ pkt ∈ sent, pkt.IsBacked st.nodes) : Backed (st.put p n sent) := by
  have hall : ∀ q, (st.nodes q).Grows ((st.put p n sent).nodes q) :=
    Network.forall_put (fun q => Node.grows_of_eq rfl) hgrows
  constructor
  · intro q key addr hmem
    apply hall
    exact Network.forall_put (N := fun _ m => ∀ key addr, (key, addr) ∈ m.catalog →
      ∃ val, (st.nodes addr).blobs.get key = some val) h.catalog hcatalog q key addr hmem
  · intro pkt hpkt requestID responses hmsg key hkey
    apply hall
    rcases List.mem_append.mp hpkt with hpkt | hpkt
    · exact h.packets pkt hpkt requestID responses hmsg key hkey
    · exact hsent pkt hpkt requestID responses hmsg key hkey

theorem step {conf : Conf P} {a : Action P} {st' : Network P} (h : Backed st)
    (hC : NoUpdateCatalog st a) (hstep : Network.Step conf st a st') : Backed st' := by
  cases hstep with
  | @call p c n sent hcall =>
      have hc := Node.call_callStep hcall
      apply h.put hc.grows
      · intro key addr hmem
        rcases hc.catalog with heq | ⟨_, _, rfl, _⟩
        · rw [heq] at hmem
          exact h.catalog p key addr hmem
        · exact hC.elim
      · exact fun pkt hpkt => Packet.isBacked_of_isRequest (hc.sent pkt hpkt)
  | @deliver k order neighbours ok pkt n sent hpkt _ _ _ hreceive =>
      have hr := Node.receive_receiveStep conf pkt.dest (st.nodes pkt.dest) pkt order
        neighbours ok
      rw [hreceive] at hr
      have hbacked := h.packets pkt (List.mem_of_getElem? hpkt)
      have herase : Backed { st with packets := st.packets.eraseIdx k } :=
        h.of_packets fun pkt' hpkt' => h.packets pkt' (List.mem_of_mem_eraseIdx hpkt')
      apply herase.put hr.grows
      · intro key addr hmem
        rcases hr.catalog with heq | ⟨requestID, responses, hmsg, rfl⟩
        · rw [heq] at hmem
          exact h.catalog pkt.dest key addr hmem
        · rcases Node.mem_catalog_execSearchReplyMessage.mp hmem with hmem | ⟨rfl, hkey⟩
          · exact h.catalog pkt.dest key addr hmem
          · exact hbacked requestID responses hmsg key hkey
      · intro pkt' hpkt'
        rcases hr.sent pkt' hpkt' with ⟨hmsg, hsource⟩ | ⟨requestID, key, hmsg⟩ |
          ⟨requestID, origin, dest, matchString, order', rfl⟩
        · exact hbacked.of_same hmsg hsource
        · exact Packet.isBacked_dataReply hmsg
        · exact Packet.isBacked_sendReplyMsg st.nodes _ requestID origin dest matchString order'
  | @duplicate k pkt hpkt =>
      apply h.of_packets
      intro pkt' hpkt'
      rcases List.mem_append.mp hpkt' with hpkt' | hpkt'
      · exact h.packets pkt' hpkt'
      · rw [List.mem_singleton.mp hpkt']
        exact h.packets pkt (List.mem_of_getElem? hpkt)
  | @drop k pkt hpkt =>
      exact h.of_packets fun pkt' hpkt' => h.packets pkt' (List.mem_of_mem_eraseIdx hpkt')
  | forge =>
      apply h.of_packets
      intro pkt' hpkt'
      rcases List.mem_append.mp hpkt' with hpkt' | hpkt'
      · exact h.packets pkt' hpkt'
      · exact Packet.isBacked_dataReply (by rw [List.mem_singleton.mp hpkt'])

end Backed

theorem backed_of_reachable {conf : Conf P} {setup : P → Setup P}
    (hsetup : ∀ p, (setup p).catalog = []) {st : Network P}
    (hst : (dataSharing conf setup).ReachableUnder NoUpdateCatalog st) : Backed st := by
  apply hst.invariant
  · constructor
    · intro q key p hmem
      change (key, p) ∈ (setup q).catalog at hmem
      rw [hsetup q] at hmem
      exact absurd hmem List.not_mem_nil
    · exact fun pkt hpkt => absurd hpkt List.not_mem_nil
  · exact fun st st' a _ h hC hnext => h.step hC (Network.step_of_next hnext)

/-- The reply of a peer adds to the catalog of the requester what the peer
offers, and nothing else; it may have been relayed.  Over a run without
`UpdateCatalog` every entry of a catalog is backed by a blob. -/
theorem searchReply_catalog (conf : Conf P) (setup : P → Setup P)
    (hsetup : ∀ p, (setup p).catalog = []) :
    (∀ (n : Node P) (p : P) (header : Header P) (requestID : ℕ) (origin : P)
      (pattern : Bytes) (budget : UInt64) (order : List Bytes) (neighbours : List P)
      (matchString : Bytes → Bool) (reply : Packet P) (requests : List (SearchReq P)),
      conf.compile pattern = some matchString → n.Visits order →
      n.execSearchRequestMessage conf p header requestID origin pattern budget order
        neighbours = some (reply, requests) →
      ∀ (q : P) (m : Node P) (header' : Header P) (order' : List Bytes)
        (neighbours' : List P) (ok : Bool), header'.source = reply.header.source →
        ∀ key addr,
          (key, addr) ∈ (m.handle conf q header' order' neighbours' ok reply.msg).1.catalog ↔
            (key, addr) ∈ m.catalog ∨ addr = p ∧ n.Offers matchString key) ∧
      ∀ st, (dataSharing conf setup).ReachableUnder NoUpdateCatalog st →
        ∀ q key p, (key, p) ∈ (st.nodes q).catalog →
          ∃ val, (st.nodes p).blobs.get key = some val := by
  constructor
  · intro n p header requestID origin pattern budget order neighbours matchString reply
      requests hcompile hvisits hexec q m header' order' neighbours' ok hsource key addr
    rw [Node.execSearchRequestMessage, hcompile, Option.map_some] at hexec
    obtain ⟨rfl, _⟩ := Prod.mk.inj (Option.some.inj hexec)
    have hsource : header'.source = p := hsource
    have hoffers := n.reports_knownFiles matchString (fun name => hvisits.mem_iff) key
    rw [Node.sendReplyMsg, Node.handle, hsource, Node.mem_catalog_execSearchReplyMessage,
      hoffers]
  · exact fun st hst => (backed_of_reachable hsetup hst).catalog

/-! ## A file with a missing chunk -/

/-- The second node has the file `f` but for its chunk `cc`. -/
def missingChunkSetup (p : Fin 2) : Setup (Fin 2) where
  blobs :=
    if p = 0 then .empty
    else ByteStore.empty.setAll
      [([0x61, 0x61], [0x62, 0x62, 0x0a, 0x63, 0x63, 0x0a, 0x64, 0x64]),
       ([0x62, 0x62], [1, 2]), ([0x64, 0x64], [3])]
  naming := if p = 0 then .empty else ByteStore.empty.set [0x66] [0x61, 0x61]
  catalog := []
  routingTable := Gossip.NodeRT.new.addEntries ([0, 1].filter (· ≠ p))

/-- Every pattern matches every name. -/
def missingChunkConf : Conf (Fin 2) where
  sha256 := sha256
  retry := fun _ => 3
  compile := fun _ => some fun _ => true

/-- A search, its reply, and the handling of the reply. -/
def missingChunkRun : List (Action (Fin 2)) :=
  [.call 0 (.searchAll [0x66] 1 [1]), .call 0 (.searchAllSend 0 true),
   .deliver 0 [[0x66]] [0] true, .deliver 0 [] [1] true]

/-- The reply of the second node. -/
def missingChunkReply : Packet (Fin 2) :=
  ⟨0, ⟨1, 1, 0⟩, .searchReply 0
    [⟨[0x66], [0x61, 0x61], [some [0x62, 0x62], none, some [0x64, 0x64]]⟩]⟩

def Action.updatesCatalog : Action P → Bool
  | .call _ (.updateCatalog _ _) => true
  | _ => false

theorem searchReply_catalog_of_missingChunk :
    (∀ key addr,
      (key, addr) ∈ ((missingChunkSetup 0).start.handle missingChunkConf 0 ⟨1, 1, 0⟩ [] [1] true
          missingChunkReply.msg).1.catalog ↔
        (key, addr) ∈ (missingChunkSetup 0).start.catalog ∨
          addr = 1 ∧ (missingChunkSetup 1).start.Offers (fun _ => true) key) ∧
      ∃ st, (dataSharing missingChunkConf missingChunkSetup).ReachableUnder NoUpdateCatalog st ∧
        (st.nodes 0).catalog = [([0x61, 0x61], 1), ([0x62, 0x62], 1), ([0x64, 0x64], 1)] ∧
        ∃ val, (st.nodes 1).blobs.get [0x64, 0x64] = some val := by
  have hsetup : ∀ p, (missingChunkSetup p).catalog = [] := fun _ => rfl
  obtain ⟨hreply, hbacked⟩ := searchReply_catalog missingChunkConf missingChunkSetup hsetup
  constructor
  · apply hreply (missingChunkSetup 1).start 1 ⟨0, 0, 1⟩ 0 0 [0x66] 1 [[0x66]] [0]
      (fun _ => true) missingChunkReply [] rfl (by decide) (by decide +kernel)
    rfl
  · obtain ⟨st, hst, hcatalog⟩ := TransitionSystem.exists_of_replay
      (S := dataSharing missingChunkConf missingChunkSetup)
      (fun _ a => a.updatesCatalog = false) missingChunkRun
      (fun st => (st.nodes 0).catalog =
        [([0x61, 0x61], 1), ([0x62, 0x62], 1), ([0x64, 0x64], 1)]) (by decide +kernel)
    have hno : ∀ (st : Network (Fin 2)) (a : Action (Fin 2)), a.updatesCatalog = false →
        NoUpdateCatalog st a := by
      intro st a ha
      rw [NoUpdateCatalog.eq_def]
      split
      · exact absurd ha (by simp [Action.updatesCatalog])
      · trivial
    have hreach := hst.mono hno
    refine ⟨st, hreach, hcatalog, hbacked st hreach 0 [0x64, 0x64] 1 ?_⟩
    rw [hcatalog]
    decide

end Minotor.DataSharing
