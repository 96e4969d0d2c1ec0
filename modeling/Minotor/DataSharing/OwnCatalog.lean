import Minotor.DataSharing.Catalog
import Minotor.Support.Runs

/-!
# The catalog of a node and its own blobs

One node with all its calls, which may receive any packet.  The documentation of
the catalog excludes the keys whose blobs the node stores.  Neither the writes
to the blob store nor those to the catalog look at the other side, so the two
stay apart exactly if no step writes a key which the other side has.
-/

namespace Minotor.DataSharing

open Minotor.Gossip (NodeRT)

variable {P : Type*}

/-- What happens at one node. -/
inductive NodeAction (P : Type*) where
  | call (id : ℕ) (c : Call P)
  | receive (pkt : Packet P) (order : List Bytes) (neighbours : List P) (ok : Bool)

namespace Node

/-- The catalog has an entry for the key. -/
def Lists (n : Node P) (key : Bytes) : Prop := ∃ addr, (key, addr) ∈ n.catalog

/-- The blob store has a blob for the key. -/
def Holds (n : Node P) (key : Bytes) : Prop := ∃ val, n.blobs.get key = some val

/-- The catalog has no key of the blob store. -/
def Apart (n : Node P) : Prop := ∀ key, n.Lists key → ¬n.Holds key

variable [DecidableEq P]

/-- One action of the node `myAddr`. -/
def step (conf : Conf P) (myAddr : P) (n : Node P) : NodeAction P → Option (Node P)
  | .call id c => (n.call conf myAddr id c).map (·.1)
  | .receive pkt order neighbours ok =>
      if n.Listens ∧ n.Visits order ∧ n.Shuffles neighbours then
        some (n.receive conf myAddr pkt order neighbours ok).1
      else none

end Node

/-- A node which starts with the given storage and without a catalog. -/
def dataNode [DecidableEq P] (conf : Conf P) (myAddr : P) (blobs naming : ByteStore)
    (routingTable : NodeRT P) : TransitionSystem (Node P) (NodeAction P) where
  init := (Setup.mk blobs naming [] routingTable).start
  next := Node.step conf myAddr

namespace Node

/-- The action stores a blob under the key. -/
def StoresUnder (conf : Conf P) (myAddr : P) (n : Node P) (key : Bytes) :
    NodeAction P → Prop
  | .call _ (.uploadRead i r) =>
      ∃ metafile chunkList, n.uploads[i]? = some (.reading metafile chunkList) ∧
        (r.err = none ∧ key = hexBytes (conf.sha256 r.data) ∨
          r.err = some .eof ∧ metafile ≠ [] ∧ key = hexBytes (conf.sha256 chunkList))
  | .receive pkt _ _ _ =>
      pkt.header.destination = myAddr ∧
        ∃ requestID val, pkt.msg = .dataReply requestID key (some val)
  | _ => False

/-- The action enters the key into the catalog. -/
def Enters (myAddr : P) (key : Bytes) : NodeAction P → Prop
  | .call _ (.updateCatalog key' _) => key = key'
  | .receive pkt _ _ _ =>
      pkt.header.destination = myAddr ∧
        ∃ requestID responses, pkt.msg = .searchReply requestID responses ∧
          Reports responses key
  | _ => False

/-- The action stores no key of the catalog and enters no key of the blob
store. -/
structure KeepsApart (conf : Conf P) (myAddr : P) (n : Node P) (a : NodeAction P) : Prop where
  stores : ∀ key, n.StoresUnder conf myAddr key a → ¬n.Lists key
  enters : ∀ key, Enters myAddr key a → ¬n.Holds key

/-- What an action writes. -/
structure Writes (conf : Conf P) (myAddr : P) (n : Node P) (a : NodeAction P) (n' : Node P) :
    Prop where
  holds : ∀ key, n'.Holds key ↔ n.Holds key ∨ n.StoresUnder conf myAddr key a
  lists : ∀ key, n'.Lists key ↔ n.Lists key ∨ Enters myAddr key a

variable {conf : Conf P} {myAddr : P} {n n' : Node P} {a : NodeAction P} {key : Bytes}

theorem holds_of_eq (h : n'.blobs = n.blobs) : n'.Holds key ↔ n.Holds key := by
  unfold Holds
  rw [h]

theorem holds_of_set (key' val : Bytes) (h : n'.blobs = n.blobs.set key' val) :
    n'.Holds key ↔ n.Holds key ∨ key = key' := by
  unfold Holds
  rw [h, ByteStore.get_set]
  split
  · next heq => exact iff_of_true ⟨val, rfl⟩ (.inr heq)
  · next hne => rw [or_iff_left hne]

theorem lists_of_eq (h : n'.catalog = n.catalog) : n'.Lists key ↔ n.Lists key := by
  unfold Lists
  rw [h]

/-- An action which writes nothing. -/
theorem Writes.of_eq (hblobs : n'.blobs = n.blobs) (hcatalog : n'.catalog = n.catalog)
    (hstores : ∀ key, ¬n.StoresUnder conf myAddr key a)
    (henters : ∀ key, ¬Enters myAddr key a) : Writes conf myAddr n a n' where
  holds key := by rw [holds_of_eq hblobs, or_iff_left (hstores key)]
  lists key := by rw [lists_of_eq hcatalog, or_iff_left (henters key)]

theorem writes_uploadRead {id i : ℕ} {r : Read} (h : n.uploadRead conf i r = some n') :
    Writes conf myAddr n (.call id (.uploadRead i r)) n' where
  holds key := by
    rw [uploadRead] at h
    split at h
    · next metafile chunkList hi =>
        have hstores : n.StoresUnder conf myAddr key (.call id (.uploadRead i r)) ↔
            r.err = none ∧ key = hexBytes (conf.sha256 r.data) ∨
              r.err = some .eof ∧ metafile ≠ [] ∧ key = hexBytes (conf.sha256 chunkList) := by
          simp only [StoresUnder, hi, Option.some.injEq, Uploading.reading.injEq]
          constructor
          · rintro ⟨_, _, ⟨rfl, rfl⟩, hkey⟩
            exact hkey
          · intro hkey
            exact ⟨_, _, ⟨rfl, rfl⟩, hkey⟩
        rw [hstores]
        split at h
        · next herr =>
            have hblobs :
                n'.blobs = (finishUpload conf.sha256 ⟨n.blobs, metafile, chunkList⟩).2 := by
              rw [← Option.some.inj h]
              rfl
            simp only [herr, reduceCtorEq, false_and, false_or, true_and]
            by_cases hmetafile : metafile = []
            · rw [finishUpload, if_pos hmetafile] at hblobs
              rw [or_iff_left fun hand => hand.1 hmetafile]
              exact holds_of_eq hblobs
            · rw [finishUpload, if_neg hmetafile] at hblobs
              rw [and_iff_right hmetafile]
              exact holds_of_set _ _ hblobs
        · next text herr =>
            obtain rfl := Option.some.inj h
            simp only [herr, reduceCtorEq, Option.some.injEq, false_and, or_self, or_false]
            exact holds_of_eq rfl
        · next herr =>
            obtain rfl := Option.some.inj h
            simp only [herr, reduceCtorEq, false_and, or_false, true_and]
            exact holds_of_set _ _ rfl
    · cases h
  lists key := by
    rw [lists_of_eq (uploadRead_fields h).2, or_iff_left]
    exact fun henters => henters

/-- No action writes a key on both sides. -/
theorem not_enters_of_storesUnder (h : n.StoresUnder conf myAddr key a) :
    ¬Enters myAddr key a := by
  intro henters
  cases a with
  | call id c =>
      cases c with
      | updateCatalog key' peer => exact h
      | _ => exact henters
  | receive pkt order neighbours ok =>
      obtain ⟨_, _, _, hreply⟩ := h
      obtain ⟨_, _, _, hsearch, _⟩ := henters
      rw [hreply] at hsearch
      cases hsearch

variable [DecidableEq P]

theorem writes_call {id : ℕ} {c : Call P} {sent : List (Packet P)}
    (h : n.call conf myAddr id c = some (n', sent)) :
    Writes conf myAddr n (.call id c) n' := by
  have hstep := call_callStep h
  have hblobs : (∀ i r, c ≠ .uploadRead i r) → n'.blobs = n.blobs := by
    intro hc
    rcases hstep.blobs with ⟨heq, _⟩ | ⟨i, r, hc', _⟩
    · exact heq
    · exact absurd hc' (hc i r)
  have hcatalog : (∀ key peer, c ≠ .updateCatalog key peer) → n'.catalog = n.catalog := by
    intro hc
    rcases hstep.catalog with heq | ⟨key, peer, hc', _⟩
    · exact heq
    · exact absurd hc' (hc key peer)
  cases c with
  | uploadRead i r =>
      obtain ⟨m, hm, heq⟩ := Option.map_eq_some_iff.mp h
      obtain ⟨rfl, -⟩ := Prod.mk.inj heq
      exact writes_uploadRead hm
  | updateCatalog key' peer =>
      obtain ⟨rfl, -⟩ := Prod.mk.inj (Option.some.inj h)
      constructor
      · intro key
        have hstores : ¬n.StoresUnder conf myAddr key (.call id (.updateCatalog key' peer)) :=
          fun hstores => hstores
        rw [or_iff_left hstores]
        exact holds_of_eq rfl
      · intro key
        simp only [Lists, Enters, mem_addEntry, Prod.mk.injEq, exists_or, exists_and_left,
          exists_eq, and_true]
  | _ =>
      refine .of_eq (hblobs ?_) (hcatalog ?_) (fun _ hstores => hstores) (fun _ henters => henters)
      · intro i r hc
        cases hc
      · intro key peer hc
        cases hc

theorem writes_receive (pkt : Packet P) (order : List Bytes) (neighbours : List P) (ok : Bool) :
    Writes conf myAddr n (.receive pkt order neighbours ok)
      (n.receive conf myAddr pkt order neighbours ok).1 := by
  have hstep := receive_receiveStep conf myAddr n pkt order neighbours ok
  -- a packet which is not a reply for this node
  have hother : (∀ requestID key val, ¬(pkt.header.destination = myAddr ∧
        pkt.msg = .dataReply requestID key (some val))) →
      (∀ requestID responses, ¬(pkt.header.destination = myAddr ∧
        pkt.msg = .searchReply requestID responses)) →
      (n.receive conf myAddr pkt order neighbours ok).1.catalog = n.catalog →
      Writes conf myAddr n (.receive pkt order neighbours ok)
        (n.receive conf myAddr pkt order neighbours ok).1 := by
    intro hdata hsearch hcatalog
    refine .of_eq ?_ hcatalog ?_ ?_
    · rcases hstep.blobs with heq | ⟨requestID, key, val, hdest, hmsg, _⟩
      · exact heq
      · exact absurd ⟨hdest, hmsg⟩ (hdata requestID key val)
    · rintro key ⟨hdest, requestID, val, hmsg⟩
      exact hdata requestID key val ⟨hdest, hmsg⟩
    · rintro key ⟨hdest, requestID, responses, hmsg, _⟩
      exact hsearch requestID responses ⟨hdest, hmsg⟩
  by_cases hdest : pkt.header.destination = myAddr
  · cases hmsg : pkt.msg with
    | dataReply requestID key' value =>
        have heq : (n.receive conf myAddr pkt order neighbours ok).1 =
            n.execDataReplyMessage requestID key' value := by
          rw [receive, if_pos hdest, hmsg]
          rfl
        rw [heq]
        constructor
        · intro key
          simp only [StoresUnder, hdest, hmsg, Message.dataReply.injEq, true_and]
          cases value with
          | none =>
              rw [or_iff_left (by simp)]
              exact holds_of_eq rfl
          | some val =>
              refine (holds_of_set key' val rfl).trans (or_congr_right ?_)
              simp [eq_comm]
        · intro key
          simp only [Enters, hmsg, reduceCtorEq, false_and, exists_false, and_false, or_false]
          exact lists_of_eq rfl
    | searchReply requestID responses =>
        have heq : (n.receive conf myAddr pkt order neighbours ok).1 =
            n.execSearchReplyMessage requestID responses pkt.header.source := by
          rw [receive, if_pos hdest, hmsg]
          rfl
        rw [heq]
        have hanswered :=
          answered_execSearchReplyMessage n requestID responses pkt.header.source
        constructor
        · intro key
          simp only [StoresUnder, hmsg, reduceCtorEq, exists_false, and_false, or_false]
          exact holds_of_eq hanswered.blobs
        · intro key
          have henters : Enters myAddr key (.receive pkt order neighbours ok) ↔
              Reports responses key := by
            simp only [Enters, hdest, hmsg, Message.searchReply.injEq, true_and]
            constructor
            · rintro ⟨_, _, ⟨rfl, rfl⟩, hreports⟩
              exact hreports
            · intro hreports
              exact ⟨_, _, ⟨rfl, rfl⟩, hreports⟩
          rw [henters]
          simp only [Lists, mem_catalog_execSearchReplyMessage, exists_or, exists_and_right,
            exists_eq, true_and]
    | _ =>
        apply hother
        · simp [hmsg]
        · simp [hmsg]
        · rcases hstep.catalog with heq | ⟨requestID, responses, hmsg', _⟩
          · exact heq
          · rw [hmsg] at hmsg'
            cases hmsg'
  · apply hother
    · exact fun _ _ _ hand => hdest hand.1
    · exact fun _ _ hand => hdest hand.1
    · rw [receive, if_neg hdest]
      split
      · rfl
      · rfl

theorem writes_step (h : n.step conf myAddr a = some n') : Writes conf myAddr n a n' := by
  cases a with
  | call id c =>
      obtain ⟨⟨m, sent⟩, hcall, rfl⟩ := Option.map_eq_some_iff.mp h
      exact writes_call hcall
  | receive pkt order neighbours ok =>
      rw [step] at h
      split at h
      · obtain rfl := Option.some.inj h
        exact writes_receive pkt order neighbours ok
      · cases h

theorem apart_step_iff (h : n.Apart) (hstep : n.step conf myAddr a = some n') :
    n'.Apart ↔ n.KeepsApart conf myAddr a := by
  obtain ⟨hholds, hlists⟩ := writes_step hstep
  constructor
  · intro h'
    constructor
    · intro key hstores hkey
      exact h' key ((hlists key).mpr (.inl hkey)) ((hholds key).mpr (.inr hstores))
    · intro key henters hkey
      exact h' key ((hlists key).mpr (.inr henters)) ((hholds key).mpr (.inl hkey))
  · intro hkeeps key hkey hkey'
    rcases (hlists key).mp hkey with hold | henters
    · rcases (hholds key).mp hkey' with hold' | hstores
      · exact h key hold hold'
      · exact hkeeps.stores key hstores hold
    · rcases (hholds key).mp hkey' with hold' | hstores
      · exact hkeeps.enters key henters hold'
      · exact not_enters_of_storesUnder hstores henters

end Node

/-- In every run of a node, the catalog has no key of the blob store in any
state exactly if no upload and no data reply stores a key of the catalog, and no
search reply and no call of `UpdateCatalog` enters a key of the blob store. -/
theorem own_catalog_iff [DecidableEq P] (conf : Conf P) (myAddr : P)
    (blobs naming : ByteStore) (routingTable : NodeRT P) (acts : List (NodeAction P)) :
    let S := dataNode conf myAddr blobs naming routingTable
    S.Always Node.Apart S.init acts ↔ S.Along (Node.KeepsApart conf myAddr) S.init acts := by
  intro S
  apply TransitionSystem.always_iff_along
  · exact fun _ _ _ _ h hstep => Node.apart_step_iff h hstep
  · exact .init
  · rintro key ⟨addr, hmem⟩
    exact absurd hmem List.not_mem_nil

/-- The blob of a key for which the catalog has a provider arrives. -/
def blobArrives : List (NodeAction ℕ) :=
  [.call 0 (.updateCatalog [1] 1), .receive ⟨0, ⟨1, 1, 0⟩, .dataReply 0 [1] (some [2])⟩ [] [] true]

theorem provider_kept :
    let conf : Conf ℕ := ⟨id, fun _ => 0, fun _ => none⟩
    let S := dataNode conf 0 .empty .empty .new
    ¬S.Always Node.Apart S.init blobArrives := by
  rintro conf S ⟨-, hfirst⟩
  obtain ⟨-, hsecond⟩ := hfirst _ rfl
  have hapart := (hsecond _ rfl).head
  exact hapart [1] ⟨1, List.mem_singleton.mpr rfl⟩ ⟨[2], rfl⟩

end Minotor.DataSharing
