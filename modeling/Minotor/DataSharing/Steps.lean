import Minotor.DataSharing.Network
import Mathlib.Logic.Function.Basic

/-!
# Steps of a data-sharing network

What one step may change: the blobs and the uploads, the calls of `Download`,
the catalog, and the packets on the network.  Every invariant of the network is
derived from these cases.
-/

namespace Minotor.DataSharing

open Minotor.Gossip (NodeRT)

variable {P : Type*}

/-- The blob a call of `Download` looks for, and what it does with it. -/
def DownloadPC.asks : DownloadPC P → Option (Goal × Bytes)
  | .get goal key => some (goal, key)
  | .request goal key => some (goal, key)
  | .wait goal key _ _ _ _ => some (goal, key)
  | .read goal key => some (goal, key)
  | .returned _ => none

/-- The message is a data request. -/
def Message.IsDataRequest (msg : Message P) : Prop :=
  ∃ requestID key, msg = .dataRequest requestID key

/-- The message is a request. -/
def Message.IsRequest : Message P → Prop
  | .dataRequest _ _ => True
  | .searchRequest _ _ _ _ => True
  | _ => False

theorem Message.IsDataRequest.isRequest {msg : Message P} (h : msg.IsDataRequest) :
    msg.IsRequest := by
  obtain ⟨requestID, key, rfl⟩ := h
  trivial

namespace Node

/-- A step of a call of `Download` on a node: it finds the blob in the store,
it goes on looking for the same blob, or it returns an error. -/
inductive Downloads (n : Node P) (pc : DownloadPC P) : DownloadPC P → Prop where
  | finds {goal : Goal} {key val : Bytes} (hasks : pc.asks = some (goal, key))
      (hget : n.blobs.get key = some val) : Downloads n pc (deliver val goal)
  | keeps {pc' : DownloadPC P} {goal : Goal} {key : Bytes} (hasks : pc.asks = some (goal, key))
      (hasks' : pc'.asks = some (goal, key)) : Downloads n pc pc'
  | fails (e : DownloadError P) : Downloads n pc (.returned (.error e))

theorem downloadStep_downloads {n : Node P} {pc pc' : DownloadPC P}
    (h : n.downloadStep pc = some pc') : n.Downloads pc pc' := by
  cases pc with
  | get goal key =>
      rw [downloadStep] at h
      split at h
      · next val hget =>
          obtain rfl := Option.some.inj h
          exact .finds rfl hget
      · obtain rfl := Option.some.inj h
        exact .keeps rfl rfl
  | wait goal key requestID randomPeer peerAddr trials =>
      rw [downloadStep] at h
      split at h
      · exact absurd h (by simp)
      · obtain rfl := Option.some.inj h
        exact .keeps rfl rfl
  | read goal key =>
      rw [downloadStep] at h
      split at h
      · next val hget =>
          obtain rfl := Option.some.inj h
          exact .finds rfl hget
      · obtain rfl := Option.some.inj h
        exact .fails _
  | request goal key => exact absurd h (by simp [downloadStep])
  | returned result => exact absurd h (by simp [downloadStep])

theorem downloadTick_downloads {conf : Conf P} {myAddr : P} {ok : Bool} {n : Node P}
    {pc pc' : DownloadPC P} {sent : List (Packet P)}
    (h : downloadTick conf myAddr ok pc = some (pc', sent)) :
    n.Downloads pc pc' ∧ ∀ pkt ∈ sent, pkt.msg.IsDataRequest := by
  cases pc with
  | wait goal key requestID randomPeer peerAddr trials =>
      rw [downloadTick] at h
      split at h
      · obtain ⟨rfl, rfl⟩ := Prod.mk.inj (Option.some.inj h)
        exact ⟨.fails _, fun pkt hpkt => absurd hpkt List.not_mem_nil⟩
      · split at h
        · obtain ⟨rfl, rfl⟩ := Prod.mk.inj (Option.some.inj h)
          refine ⟨.keeps rfl rfl, ?_⟩
          intro pkt hpkt
          rw [List.mem_singleton.mp hpkt]
          exact ⟨_, _, rfl⟩
        · obtain ⟨rfl, rfl⟩ := Prod.mk.inj (Option.some.inj h)
          exact ⟨.fails _, fun pkt hpkt => absurd hpkt List.not_mem_nil⟩
  | _ => exact absurd h (by simp [downloadTick])

theorem uploadRead_fields {conf : Conf P} {n n' : Node P} {i : ℕ} {r : Read}
    (h : n.uploadRead conf i r = some n') :
    n'.downloads = n.downloads ∧ n'.catalog = n.catalog := by
  rw [uploadRead] at h
  split at h
  · split at h
    · obtain rfl := Option.some.inj h
      exact ⟨rfl, rfl⟩
    · obtain rfl := Option.some.inj h
      exact ⟨rfl, rfl⟩
    · obtain rfl := Option.some.inj h
      exact ⟨rfl, rfl⟩
  · exact absurd h (by simp)

theorem isRequest_packet {myAddr : P} {r : SearchReq P} {pkt : Packet P}
    (h : pkt ∈ [r.packet myAddr]) : pkt.msg.IsRequest := by
  rw [List.mem_singleton.mp h]
  trivial

/-! ### The steps of a call compute `download` -/

/-- The rest of `download` with the blob for which a call looks, when every blob
comes from the store or from `remote`. -/
def finishAsked (remote : ByteStore → Bytes → Except (DownloadError P) Bytes × ByteStore)
    (store : ByteStore) (goal : Goal) (key : Bytes) :
    Except (DownloadError P) Bytes × ByteStore :=
  match fetch remote store key with
  | (.error e, store) => (.error e, store)
  | (.ok val, store) =>
      match goal with
      | .metafile => fetchChunks remote store [] (fields val)
      | .chunk data rest => fetchChunks remote store (data ++ val) rest

/-- The rest of `download` from where a call stands. -/
def finish (remote : ByteStore → Bytes → Except (DownloadError P) Bytes × ByteStore)
    (store : ByteStore) : DownloadPC P → Except (DownloadError P) Bytes × ByteStore
  | .returned result => (result, store)
  | .get goal key => finishAsked remote store goal key
  | .request goal key => finishAsked remote store goal key
  | .wait goal key _ _ _ _ => finishAsked remote store goal key
  | .read goal key => finishAsked remote store goal key

variable {remote : ByteStore → Bytes → Except (DownloadError P) Bytes × ByteStore}

theorem finish_get_metafile (store : ByteStore) (metahash : Bytes) :
    finish remote store (.get .metafile metahash) = download remote store metahash := by
  rw [finish, finishAsked, download]
  rcases fetch remote store metahash with ⟨_ | _, _⟩
  · rfl
  · rfl

theorem finish_of_asks {store : ByteStore} {pc : DownloadPC P} {goal : Goal} {key : Bytes}
    (h : pc.asks = some (goal, key)) :
    finish remote store pc = finishAsked remote store goal key := by
  cases pc with
  | returned result => exact absurd h (by simp [DownloadPC.asks])
  | _ =>
      obtain ⟨rfl, rfl⟩ := Prod.mk.inj (Option.some.inj h)
      rfl

theorem finish_nextChunk (store : ByteStore) (data : Bytes) (keys : List Bytes) :
    finish remote store (nextChunk data keys) = fetchChunks remote store data keys := by
  cases keys with
  | nil => rfl
  | cons key keys =>
      rw [nextChunk, finish, finishAsked, fetchChunks]
      rcases fetch remote store key with ⟨_ | _, _⟩
      · rfl
      · rfl

theorem finish_deliver {store : ByteStore} {key val : Bytes} (goal : Goal)
    (hget : store.get key = some val) :
    finish remote store (deliver val goal) = finishAsked remote store goal key := by
  rw [finishAsked, fetch_of_get hget]
  cases goal with
  | metafile => rw [deliver, finish_nextChunk]
  | chunk data rest => rw [deliver, finish_nextChunk]

/-- A step of a call of `Download` keeps what `download` would return, or the
call fails. -/
theorem Downloads.finish_eq {n : Node P} {pc pc' : DownloadPC P} (h : n.Downloads pc pc') :
    finish remote n.blobs pc' = finish remote n.blobs pc ∨
      ∃ e, pc' = .returned (.error e) := by
  cases h with
  | @finds goal _ _ hasks hget =>
      left
      rw [finish_of_asks hasks, finish_deliver goal hget]
  | keeps hasks hasks' =>
      left
      rw [finish_of_asks hasks, finish_of_asks hasks']
  | fails e => exact .inr ⟨e, rfl⟩

/-- The blobs, the uploads and the calls of `Download` are the same. -/
structure SameFiles (n n' : Node P) : Prop where
  blobs : n'.blobs = n.blobs
  uploads : n'.uploads = n.uploads
  downloads : n'.downloads = n.downloads

/-- What the handler of a search reply leaves as it is. -/
structure Answered (n n' : Node P) : Prop extends SameFiles n n' where
  searchAlls : n'.searchAlls = n.searchAlls
  forwards : n'.forwards = n.forwards
  searchFirsts : ∃ f : SearchFirst P → SearchFirst P,
    (∀ s, (f s).requestID = s.requestID ∧ (f s).pc = s.pc) ∧
      n'.searchFirsts = n.searchFirsts.map f

theorem Answered.refl (n : Node P) : n.Answered n :=
  ⟨⟨rfl, rfl, rfl⟩, rfl, rfl, id, fun _ => ⟨rfl, rfl⟩, (List.map_id _).symm⟩

/-- Further writes to the catalog, the naming store and the request store. -/
theorem Answered.tables {n n' : Node P} (h : n.Answered n')
    (store : AList fun _ : ℕ => List Bytes) (catalog : List (Bytes × P)) (naming : ByteStore) :
    n.Answered { n' with store := store, catalog := catalog, naming := naming } :=
  ⟨⟨h.blobs, h.uploads, h.downloads⟩, h.searchAlls, h.forwards, h.searchFirsts⟩

theorem Answered.triggerChannel {n n' : Node P} (h : n.Answered n') (requestID : ℕ)
    (filename : Bytes) : n.Answered (n'.triggerChannel requestID filename) := by
  obtain ⟨f, hf, hfirsts⟩ := h.searchFirsts
  refine ⟨⟨h.blobs, h.uploads, h.downloads⟩, h.searchAlls, h.forwards,
    fun s => if (f s).requestID = requestID then { f s with channel := some filename } else f s,
    ?_, ?_⟩
  · intro s
    by_cases hs : (f s).requestID = requestID
    · simp only [if_pos hs]
      exact hf s
    · simp only [if_neg hs]
      exact hf s
  · rw [Node.triggerChannel, hfirsts, List.map_map]
    rfl

variable [DecidableEq P]

theorem downloadRequest_downloads {myAddr randomPeer : P} {n : Node P} {id : ℕ} {ok : Bool}
    {pc pc' : DownloadPC P} {channels : List ℕ} {sent : List (Packet P)}
    (h : n.downloadRequest myAddr id randomPeer ok pc = some (pc', channels, sent)) :
    n.Downloads pc pc' ∧ ∀ pkt ∈ sent, pkt.msg.IsDataRequest := by
  have hnil : ∀ pkt ∈ ([] : List (Packet P)), pkt.msg.IsDataRequest :=
    fun pkt hpkt => absurd hpkt List.not_mem_nil
  cases pc with
  | request goal key =>
      simp only [downloadRequest] at h
      split at h
      · simp only [Option.some.injEq, Prod.mk.injEq] at h
        obtain ⟨rfl, rfl, rfl⟩ := h
        exact ⟨.fails _, hnil⟩
      split at h
      · exact absurd h (by simp)
      split at h
      · simp only [Option.some.injEq, Prod.mk.injEq] at h
        obtain ⟨rfl, rfl, rfl⟩ := h
        exact ⟨.fails _, hnil⟩
      split at h
      · simp only [Option.some.injEq, Prod.mk.injEq] at h
        obtain ⟨rfl, rfl, rfl⟩ := h
        refine ⟨.keeps rfl rfl, ?_⟩
        intro pkt hpkt
        rw [List.mem_singleton.mp hpkt]
        exact ⟨_, _, rfl⟩
      · simp only [Option.some.injEq, Prod.mk.injEq] at h
        obtain ⟨rfl, rfl, rfl⟩ := h
        exact ⟨.fails _, hnil⟩
  | _ => exact absurd h (by simp [downloadRequest])

/-! ## Calls -/

/-- What a call may do to a node. -/
structure CallStep (conf : Conf P) (n : Node P) (c : Call P) (n' : Node P)
    (sent : List (Packet P)) : Prop where
  blobs : (n'.blobs = n.blobs ∧ ∀ u ∈ n'.uploads, u ∈ n.uploads ∨ u = .reading [] []) ∨
    ∃ i r, c = .uploadRead i r ∧ n.uploadRead conf i r = some n'
  downloads : ∀ d' ∈ n'.downloads,
    d' ∈ n.downloads ∨ d'.pc = .get .metafile d'.metahash ∨
      ∃ d ∈ n.downloads, d'.metahash = d.metahash ∧ n.Downloads d.pc d'.pc
  catalog : n'.catalog = n.catalog ∨
    ∃ key peer, c = .updateCatalog key peer ∧ n'.catalog = addEntry n.catalog key peer
  sent : ∀ pkt ∈ sent, pkt.msg.IsRequest

/-- A call which leaves the blobs, the uploads, the calls of `Download` and the
catalog as they are. -/
theorem CallStep.of_eq {conf : Conf P} {n : Node P} {c : Call P} {n' : Node P}
    {sent : List (Packet P)} (hblobs : n'.blobs = n.blobs) (huploads : n'.uploads = n.uploads)
    (hdownloads : n'.downloads = n.downloads) (hcatalog : n'.catalog = n.catalog)
    (hsent : ∀ pkt ∈ sent, pkt.msg.IsRequest) : CallStep conf n c n' sent where
  blobs := .inl ⟨hblobs, fun _ hu => .inl (huploads ▸ hu)⟩
  downloads _ hd' := .inl (hdownloads ▸ hd')
  catalog := .inl hcatalog
  sent := hsent

/-- A call in which one call of `Download` goes on. -/
theorem CallStep.of_download {conf : Conf P} {n : Node P} {c : Call P} {i : ℕ}
    {d : Download P} {pc : DownloadPC P} {channels : List ℕ} {sent : List (Packet P)}
    (hd : n.downloads[i]? = some d) (hstep : n.Downloads d.pc pc)
    (hsent : ∀ pkt ∈ sent, pkt.msg.IsDataRequest) :
    CallStep conf n c { n.setDownload i d pc with requestsHandler := channels } sent where
  blobs := .inl ⟨rfl, fun u hu => .inl hu⟩
  downloads d' hd' := by
    rcases List.mem_or_eq_of_mem_set hd' with hd' | rfl
    · exact .inl hd'
    · exact .inr (.inr ⟨d, List.mem_of_getElem? hd, rfl, hstep⟩)
  catalog := .inl rfl
  sent pkt hpkt := (hsent pkt hpkt).isRequest

/-! A search neither stores a blob nor touches the catalog. -/

section Searches

variable {conf : Conf P} {myAddr : P} {id i : ℕ} {n n' : Node P} {c : Call P} {ok : Bool}
  {sent : List (Packet P)}

theorem searchAllSend_callStep (h : n.searchAllSend myAddr i ok = some (n', sent)) :
    CallStep conf n c n' sent := by
  simp only [searchAllSend] at h
  split at h
  · split at h
    · obtain ⟨rfl, rfl⟩ := Prod.mk.inj (Option.some.inj h)
      exact .of_eq rfl rfl rfl rfl fun pkt => isRequest_packet
    · obtain ⟨rfl, rfl⟩ := Prod.mk.inj (Option.some.inj h)
      exact .of_eq rfl rfl rfl rfl (List.forall_mem_nil _)
  · exact absurd h (by simp)

theorem retrieve_callStep {filenames : List Bytes}
    (h : n.retrieve conf i filenames = some n') : CallStep conf n c n' [] := by
  rw [retrieve] at h
  split at h
  · obtain ⟨matchString, _, h⟩ := Option.bind_eq_some_iff.mp h
    split at h
    · obtain rfl := Option.some.inj h
      exact .of_eq rfl rfl rfl rfl (List.forall_mem_nil _)
    · exact absurd h (by simp)
  · exact absurd h (by simp)

theorem searchFirst_callStep {pattern : Bytes} {ring : ExpandingRing} {order : List Bytes}
    {neighbours : List P}
    (h : n.searchFirst conf myAddr id pattern ring order neighbours = some n') :
    CallStep conf n c n' [] := by
  obtain ⟨matchString, _, h⟩ := Option.map_eq_some_iff.mp h
  simp only at h
  split at h
  · obtain rfl := h
    exact .of_eq rfl rfl rfl rfl (List.forall_mem_nil _)
  · obtain rfl := h
    exact .of_eq rfl rfl rfl rfl (List.forall_mem_nil _)

theorem searchFirstSend_callStep (h : n.searchFirstSend myAddr i ok = some (n', sent)) :
    CallStep conf n c n' sent := by
  obtain ⟨s, _, h⟩ := Option.bind_eq_some_iff.mp h
  split at h
  · split at h
    · obtain ⟨rfl, rfl⟩ := Prod.mk.inj (Option.some.inj h)
      exact .of_eq rfl rfl rfl rfl fun pkt => isRequest_packet
    · obtain ⟨rfl, rfl⟩ := Prod.mk.inj (Option.some.inj h)
      exact .of_eq rfl rfl rfl rfl (List.forall_mem_nil _)
  · exact absurd h (by simp)

theorem searchFirstRecv_callStep (h : n.searchFirstRecv i = some n') :
    CallStep conf n c n' [] := by
  obtain ⟨s, _, h⟩ := Option.bind_eq_some_iff.mp h
  split at h
  · split at h
    · obtain rfl := Option.some.inj h
      exact .of_eq rfl rfl rfl rfl (List.forall_mem_nil _)
    · split at h
      · exact absurd h (by simp)
      · obtain rfl := Option.some.inj h
        exact .of_eq rfl rfl rfl rfl (List.forall_mem_nil _)
  · exact absurd h (by simp)

theorem searchFirstTick_callStep {neighbours : List P}
    (h : n.searchFirstTick myAddr i neighbours = some n') : CallStep conf n c n' [] := by
  obtain ⟨s, _, h⟩ := Option.bind_eq_some_iff.mp h
  split at h
  · split at h
    · obtain rfl := Option.some.inj h
      exact .of_eq rfl rfl rfl rfl (List.forall_mem_nil _)
    · obtain rfl := Option.some.inj h
      exact .of_eq rfl rfl rfl rfl (List.forall_mem_nil _)
  · exact absurd h (by simp)

theorem forward_callStep (h : n.forward myAddr ok = some (n', sent)) :
    CallStep conf n c n' sent := by
  rw [forward] at h
  split at h
  · exact absurd h (by simp)
  · split at h
    · obtain ⟨rfl, rfl⟩ := Prod.mk.inj (Option.some.inj h)
      exact .of_eq rfl rfl rfl rfl fun pkt => isRequest_packet
    · obtain ⟨rfl, rfl⟩ := Prod.mk.inj (Option.some.inj h)
      exact .of_eq rfl rfl rfl rfl (List.forall_mem_nil _)

end Searches

theorem call_callStep {conf : Conf P} {myAddr : P} {id : ℕ} {n n' : Node P} {c : Call P}
    {sent : List (Packet P)} (h : n.call conf myAddr id c = some (n', sent)) :
    CallStep conf n c n' sent := by
  cases c with
  | upload =>
      obtain ⟨rfl, rfl⟩ := Prod.mk.inj (Option.some.inj h)
      constructor
      · left
        refine ⟨rfl, ?_⟩
        intro u hu
        rcases List.mem_append.mp hu with hu | hu
        · exact .inl hu
        · exact .inr (List.mem_singleton.mp hu)
      · exact fun d' hd' => .inl hd'
      · exact .inl rfl
      · exact List.forall_mem_nil _
  | uploadRead i r =>
      obtain ⟨m, hm, heq⟩ := Option.map_eq_some_iff.mp h
      obtain ⟨rfl, rfl⟩ := Prod.mk.inj heq
      obtain ⟨hdownloads, hcatalog⟩ := uploadRead_fields hm
      constructor
      · exact .inr ⟨i, r, rfl, hm⟩
      · exact fun d' hd' => .inl (hdownloads ▸ hd')
      · exact .inl hcatalog
      · exact List.forall_mem_nil _
  | download metahash =>
      obtain ⟨rfl, rfl⟩ := Prod.mk.inj (Option.some.inj h)
      constructor
      · exact .inl ⟨rfl, fun u hu => .inl hu⟩
      · intro d' hd'
        rcases List.mem_append.mp hd' with hd' | hd'
        · exact .inl hd'
        · right
          left
          rw [List.mem_singleton.mp hd']
      · exact .inl rfl
      · exact List.forall_mem_nil _
  | downloadStep i =>
      obtain ⟨d, hd, hmap⟩ := Option.bind_eq_some_iff.mp h
      obtain ⟨pc, hpc, heq⟩ := Option.map_eq_some_iff.mp hmap
      obtain ⟨rfl, rfl⟩ := Prod.mk.inj heq
      exact .of_download hd (downloadStep_downloads hpc) fun pkt h => absurd h List.not_mem_nil
  | downloadRequest i randomPeer ok =>
      obtain ⟨d, hd, hmap⟩ := Option.bind_eq_some_iff.mp h
      obtain ⟨⟨pc, channels, sent'⟩, hpc, heq⟩ := Option.map_eq_some_iff.mp hmap
      obtain ⟨rfl, rfl⟩ := Prod.mk.inj heq
      obtain ⟨hstep, hsent⟩ := downloadRequest_downloads hpc
      exact .of_download hd hstep hsent
  | downloadTick i ok =>
      obtain ⟨d, hd, hmap⟩ := Option.bind_eq_some_iff.mp h
      obtain ⟨⟨pc, sent'⟩, hpc, heq⟩ := Option.map_eq_some_iff.mp hmap
      obtain ⟨rfl, rfl⟩ := Prod.mk.inj heq
      obtain ⟨hstep, hsent⟩ := downloadTick_downloads (n := n) hpc
      exact .of_download hd hstep hsent
  | searchAll pattern budget neighbours =>
      simp only [call] at h
      split at h
      · obtain ⟨rfl, rfl⟩ := Prod.mk.inj (Option.some.inj h)
        exact .of_eq rfl rfl rfl rfl (List.forall_mem_nil _)
      · exact absurd h (by simp)
  | searchAllSend i ok => exact searchAllSend_callStep h
  | retrieve i filenames =>
      obtain ⟨m, hm, heq⟩ := Option.map_eq_some_iff.mp h
      obtain ⟨rfl, rfl⟩ := Prod.mk.inj heq
      exact retrieve_callStep hm
  | searchFirst pattern ring order neighbours =>
      simp only [call] at h
      split at h
      · obtain ⟨m, hm, heq⟩ := Option.map_eq_some_iff.mp h
        obtain ⟨rfl, rfl⟩ := Prod.mk.inj heq
        exact searchFirst_callStep hm
      · exact absurd h (by simp)
  | searchFirstSend i ok => exact searchFirstSend_callStep h
  | searchFirstRecv i =>
      obtain ⟨m, hm, heq⟩ := Option.map_eq_some_iff.mp h
      obtain ⟨rfl, rfl⟩ := Prod.mk.inj heq
      exact searchFirstRecv_callStep hm
  | searchFirstTick i neighbours =>
      simp only [call] at h
      split at h
      · obtain ⟨m, hm, heq⟩ := Option.map_eq_some_iff.mp h
        obtain ⟨rfl, rfl⟩ := Prod.mk.inj heq
        exact searchFirstTick_callStep hm
      · exact absurd h (by simp)
  | forward ok => exact forward_callStep h
  | updateCatalog key peer =>
      obtain ⟨rfl, rfl⟩ := Prod.mk.inj (Option.some.inj h)
      constructor
      · exact .inl ⟨rfl, fun u hu => .inl hu⟩
      · exact fun d' hd' => .inl hd'
      · exact .inr ⟨key, peer, rfl, rfl⟩
      · exact List.forall_mem_nil _
  | setRoutingTable routingTable =>
      obtain ⟨rfl, rfl⟩ := Prod.mk.inj (Option.some.inj h)
      exact .of_eq rfl rfl rfl rfl (List.forall_mem_nil _)
  | setName name metahash =>
      obtain ⟨rfl, rfl⟩ := Prod.mk.inj (Option.some.inj h)
      exact .of_eq rfl rfl rfl rfl (List.forall_mem_nil _)
  | stop =>
      obtain ⟨rfl, rfl⟩ := Prod.mk.inj (Option.some.inj h)
      exact .of_eq rfl rfl rfl rfl (List.forall_mem_nil _)

/-! ## Received packets -/

theorem answered_execSearchReplyMessage (n : Node P) (requestID : ℕ)
    (responses : List FileInfo) (source : P) :
    n.Answered (n.execSearchReplyMessage requestID responses source) := by
  have hexec : ∀ m : Node P, n.Answered m →
      n.Answered (responses.foldl (execResponse requestID source) m) := by
    induction responses with
    | nil => exact fun m hm => hm
    | cons r responses ih => exact fun m hm => ih _ (hm.tables _ _ _)
  have hcheck : ∀ s : Node P × Option Bytes, n.Answered s.1 →
      n.Answered (responses.foldl (checkResponse requestID source) s).1 := by
    clear hexec
    induction responses with
    | nil => exact fun s hs => hs
    | cons r responses ih => exact fun s hs => ih _ (hs.tables _ _ _)
  have hn := hexec n (.refl n)
  rw [execSearchReplyMessage, checkAvailabilityAndTrigger]
  split
  · have hfold := hcheck (responses.foldl (execResponse requestID source) n, none) hn
    split
    · next m heq =>
        rw [heq] at hfold
        exact hfold
    · next m filename heq =>
        rw [heq] at hfold
        exact hfold.triggerChannel requestID filename
  · exact hn

/-- What a packet may do to the node which receives it. -/
structure ReceiveStep (conf : Conf P) (myAddr : P) (n : Node P) (pkt : Packet P)
    (n' : Node P) (sent : List (Packet P)) : Prop where
  blobs : n'.blobs = n.blobs ∨
    ∃ requestID key val, pkt.header.destination = myAddr ∧
      pkt.msg = .dataReply requestID key (some val) ∧ n'.blobs = n.blobs.set key val
  uploads : n'.uploads = n.uploads
  downloads : n'.downloads = n.downloads
  catalog : n'.catalog = n.catalog ∨
    ∃ requestID responses, pkt.msg = .searchReply requestID responses ∧
      n' = n.execSearchReplyMessage requestID responses pkt.header.source
  sent : ∀ pkt' ∈ sent,
    (pkt'.msg = pkt.msg ∧ pkt'.header.source = pkt.header.source) ∨
    (∃ requestID key, pkt'.msg = .dataReply requestID key (n.blobs.get key)) ∨
    ∃ requestID origin dest matchString order,
      pkt' = n.sendReplyMsg myAddr requestID origin dest (n.knownFiles matchString order)

/-- A packet which changes neither the files nor the catalog. -/
theorem ReceiveStep.of_eq {conf : Conf P} {myAddr : P} {n : Node P} {pkt : Packet P}
    {n' : Node P} {sent : List (Packet P)} (hsame : n.SameFiles n')
    (hcatalog : n'.catalog = n.catalog)
    (hsent : ∀ pkt' ∈ sent,
      (pkt'.msg = pkt.msg ∧ pkt'.header.source = pkt.header.source) ∨
      (∃ requestID key, pkt'.msg = .dataReply requestID key (n.blobs.get key)) ∨
      ∃ requestID origin dest matchString order,
        pkt' = n.sendReplyMsg myAddr requestID origin dest (n.knownFiles matchString order)) :
    ReceiveStep conf myAddr n pkt n' sent where
  blobs := .inl hsame.blobs
  uploads := hsame.uploads
  downloads := hsame.downloads
  catalog := .inl hcatalog
  sent := hsent

theorem receive_receiveStep (conf : Conf P) (myAddr : P) (n : Node P) (pkt : Packet P)
    (order : List Bytes) (neighbours : List P) (ok : Bool) :
    ReceiveStep conf myAddr n pkt (n.receive conf myAddr pkt order neighbours ok).1
      (n.receive conf myAddr pkt order neighbours ok).2 := by
  have hsame : ∀ m : Node P, m.SameFiles m := fun m => ⟨rfl, rfl, rfl⟩
  rw [receive]
  split
  · next hdest =>
      cases hmsg : pkt.msg with
      | dataRequest requestID key =>
          rw [handle]
          split
          · exact .of_eq ⟨rfl, rfl, rfl⟩ rfl fun pkt' h => absurd h List.not_mem_nil
          · next reply hreply =>
              split
              · apply ReceiveStep.of_eq (hsame n) rfl
                intro pkt' hpkt'
                obtain ⟨addr, _, hreply⟩ := Option.map_eq_some_iff.mp hreply
                right
                left
                refine ⟨requestID, key, ?_⟩
                rw [List.mem_singleton.mp hpkt', ← hreply]
              · exact .of_eq ⟨rfl, rfl, rfl⟩ rfl fun pkt' h => absurd h List.not_mem_nil
      | dataReply requestID key value =>
          constructor
          · cases value with
            | none => exact .inl rfl
            | some val => exact .inr ⟨requestID, key, val, hdest, hmsg, rfl⟩
          · rfl
          · rfl
          · exact .inl rfl
          · exact fun pkt' h => absurd h List.not_mem_nil
      | searchRequest requestID origin pattern budget =>
          rw [handle]
          split
          · exact .of_eq ⟨rfl, rfl, rfl⟩ rfl fun pkt' h => absurd h List.not_mem_nil
          · next reply requests hreply =>
              split
              · refine .of_eq (n := n) ⟨rfl, rfl, rfl⟩ rfl ?_
                intro pkt' hpkt'
                obtain ⟨matchString, _, hreply⟩ := Option.map_eq_some_iff.mp hreply
                right
                right
                refine ⟨requestID, origin, pkt.header.relayedBy, matchString, order, ?_⟩
                rw [List.mem_singleton.mp hpkt', ← (Prod.mk.inj hreply).1]
              · exact .of_eq ⟨rfl, rfl, rfl⟩ rfl fun pkt' h => absurd h List.not_mem_nil
      | searchReply requestID responses =>
          have hfiles := answered_execSearchReplyMessage n requestID responses pkt.header.source
          constructor
          · exact .inl hfiles.blobs
          · exact hfiles.uploads
          · exact hfiles.downloads
          · exact .inr ⟨requestID, responses, hmsg, rfl⟩
          · exact fun pkt' h => absurd h List.not_mem_nil
  · split
    · apply ReceiveStep.of_eq (hsame n) rfl
      intro pkt' hpkt'
      left
      rw [List.mem_singleton.mp hpkt']
      exact ⟨rfl, rfl⟩
    · exact .of_eq ⟨rfl, rfl, rfl⟩ rfl fun pkt' h => absurd h List.not_mem_nil

end Node

/-! ## The network -/

namespace Network

variable [DecidableEq P]

/-- What an action may do to the network. -/
inductive Step (conf : Conf P) (st : Network P) : Action P → Network P → Prop where
  | call {p : P} {c : Call P} {n : Node P} {sent : List (Packet P)}
      (hcall : (st.nodes p).call conf p st.nextID c = some (n, sent)) :
      Step conf st (.call p c) (st.put p n sent)
  | deliver {k : ℕ} {order : List Bytes} {neighbours : List P} {ok : Bool} {pkt : Packet P}
      {n : Node P} {sent : List (Packet P)}
      (hpkt : st.packets[k]? = some pkt)
      (hlistens : (st.nodes pkt.dest).Listens)
      (hvisits : (st.nodes pkt.dest).Visits order)
      (hshuffles : (st.nodes pkt.dest).Shuffles neighbours)
      (hreceive : (st.nodes pkt.dest).receive conf pkt.dest pkt order neighbours ok = (n, sent)) :
      Step conf st (.deliver k order neighbours ok)
        (put { st with packets := st.packets.eraseIdx k } pkt.dest n sent)
  | duplicate {k : ℕ} {pkt : Packet P} (hpkt : st.packets[k]? = some pkt) :
      Step conf st (.duplicate k) { st with packets := st.packets ++ [pkt] }
  | drop {k : ℕ} {pkt : Packet P} (hpkt : st.packets[k]? = some pkt) :
      Step conf st (.drop k) { st with packets := st.packets.eraseIdx k }
  | forge {dest : P} {header : Header P} {requestID : ℕ} {key : Bytes} {value : Option Bytes} :
      Step conf st (.forge dest header requestID key value)
        { st with packets := st.packets ++ [⟨dest, header, .dataReply requestID key value⟩] }

theorem step_of_next {conf : Conf P} {st st' : Network P} {a : Action P}
    (h : st.next conf a = some st') : Step conf st a st' := by
  cases a with
  | call p c =>
      obtain ⟨⟨n, sent⟩, hcall, rfl⟩ := Option.map_eq_some_iff.mp h
      exact .call hcall
  | deliver k order neighbours ok =>
      obtain ⟨pkt, hpkt, h⟩ := Option.bind_eq_some_iff.mp h
      simp only at h
      split at h
      · next hguard =>
          obtain rfl := Option.some.inj h
          exact .deliver hpkt hguard.1 hguard.2.1 hguard.2.2 rfl
      · exact absurd h (by simp)
  | duplicate k =>
      obtain ⟨pkt, hpkt, rfl⟩ := Option.map_eq_some_iff.mp h
      exact .duplicate hpkt
  | drop k =>
      obtain ⟨pkt, hpkt, rfl⟩ := Option.map_eq_some_iff.mp h
      exact .drop hpkt
  | forge dest header requestID key value =>
      obtain rfl := Option.some.inj h
      exact .forge

variable {conf : Conf P} {st : Network P} {p : P} {n : Node P} {sent : List (Packet P)}

/-- A property of every node, after node `p` has changed. -/
theorem forall_put {N : P → Node P → Prop} (h : ∀ q, N q (st.nodes q)) (hp : N p n) (q : P) :
    N q ((st.put p n sent).nodes q) := by
  change N q (Function.update st.nodes p n q)
  by_cases hq : q = p
  · rw [hq, Function.update_self]
    exact hp
  · rw [Function.update_of_ne hq]
    exact h q

end Network

/-- Invariant rule for a property of every node and of every message on the
network. -/
theorem invariant_of_steps [DecidableEq P] {conf : Conf P} {setup : P → Setup P}
    {C : Network P → Action P → Prop} (N : P → Node P → Prop) (M : Message P → Prop)
    (hinit : ∀ p, N p (setup p).start)
    (hcall : ∀ {st p c n sent}, C st (.call p c) → N p (st.nodes p) →
      (st.nodes p).call conf p st.nextID c = some (n, sent) →
      N p n ∧ ∀ pkt ∈ sent, M pkt.msg)
    (hreceive : ∀ {st k order neighbours ok pkt n sent},
      C st (.deliver k order neighbours ok) → st.packets[k]? = some pkt →
      N pkt.dest (st.nodes pkt.dest) → M pkt.msg →
      (st.nodes pkt.dest).receive conf pkt.dest pkt order neighbours ok = (n, sent) →
      N pkt.dest n ∧ ∀ pkt' ∈ sent, M pkt'.msg)
    (hforge : ∀ {st dest header requestID key value},
      C st (.forge dest header requestID key value) → M (.dataReply requestID key value))
    {st : Network P} (hst : (dataSharing conf setup).ReachableUnder C st) :
    (∀ p, N p (st.nodes p)) ∧ ∀ pkt ∈ st.packets, M pkt.msg := by
  refine hst.invariant (I := fun st => (∀ p, N p (st.nodes p)) ∧ ∀ pkt ∈ st.packets, M pkt.msg)
    ⟨hinit, fun pkt hpkt => absurd hpkt List.not_mem_nil⟩ ?_
  intro st st' a _ ⟨hnodes, hpackets⟩ hC hnext
  rcases Network.step_of_next hnext with
    hc | ⟨hpkt, _, _, _, hr⟩ | hpkt | hpkt | _
  · obtain ⟨hn, hsent⟩ := hcall hC (hnodes _) hc
    exact ⟨Network.forall_put hnodes hn, List.forall_mem_append.mpr ⟨hpackets, hsent⟩⟩
  · obtain ⟨hn, hsent⟩ :=
      hreceive hC hpkt (hnodes _) (hpackets _ (List.mem_of_getElem? hpkt)) hr
    refine ⟨Network.forall_put hnodes hn, List.forall_mem_append.mpr ⟨?_, hsent⟩⟩
    exact fun pkt hmem => hpackets pkt (List.mem_of_mem_eraseIdx hmem)
  · refine ⟨hnodes, List.forall_mem_append.mpr ⟨hpackets, List.forall_mem_singleton.mpr ?_⟩⟩
    exact hpackets _ (List.mem_of_getElem? hpkt)
  · exact ⟨hnodes, fun pkt hmem => hpackets pkt (List.mem_of_mem_eraseIdx hmem)⟩
  · refine ⟨hnodes, List.forall_mem_append.mpr ⟨hpackets, List.forall_mem_singleton.mpr ?_⟩⟩
    exact hforge hC

end Minotor.DataSharing
