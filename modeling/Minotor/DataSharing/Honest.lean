import Minotor.DataSharing.Contents

/-!
# Downloads among honest peers

When every blob that a peer stores has the value which `G` gives for its key,
so have the data replies on the network, and a call of `Download` which returns
without an error returns the file of its metahash, whatever the catalogs and
the routing tables are and whatever happens to the packets.
-/

namespace Minotor.DataSharing

variable {P : Type*}

/-- Every blob of the store has the value which `G` gives for its key. -/
def AgreesWith (G : Bytes → Bytes) (blobs : ByteStore) : Prop :=
  Stores (fun key val => val = G key) blobs

/-- A data reply has no value, or the value which `G` gives for its key. -/
def Message.AgreesWith (G : Bytes → Bytes) : Message P → Prop
  | .dataReply _ key (some val) => val = G key
  | _ => True

/-- No reply is forged, and what an upload stores agrees with `G`. -/
def Honest [DecidableEq P] (conf : Conf P) (G : Bytes → Bytes) (st : Network P) :
    Action P → Prop
  | .forge _ _ _ _ _ => False
  | .call p (.uploadRead i r) =>
      ∀ n, (st.nodes p).uploadRead conf i r = some n → AgreesWith G n.blobs
  | _ => True

variable {G : Bytes → Bytes}

theorem Message.AgreesWith.of_isRequest {msg : Message P} (h : msg.IsRequest) :
    msg.AgreesWith G := by
  cases msg with
  | dataReply requestID key value => exact h.elim
  | _ => trivial

theorem AgreesWith.dataReply {blobs : ByteStore} (h : AgreesWith G blobs) (requestID : ℕ)
    (key : Bytes) : (.dataReply requestID key (blobs.get key) : Message P).AgreesWith G := by
  cases hget : blobs.get key with
  | none => trivial
  | some val => exact h key val hget

theorem flatten_of_forall₂ {keys chunks : List Bytes}
    (h : List.Forall₂ (fun key val => val = G key) keys chunks) :
    chunks.flatten = keys.flatMap G := by
  induction h with
  | nil => rfl
  | cons hval _ ih => rw [List.flatten_cons, List.flatMap_cons, hval, ih]

/-- What is built of the values of `G` is the file of the metahash. -/
theorem Built.eq_flatMap {metahash data : Bytes} {keys : List Bytes}
    (h : Built (fun key val => val = G key) metahash data) (hkeys : ∀ k ∈ keys, IsHexWord k)
    (hmeta : G metahash = List.intercalate metafileSep keys) : data = keys.flatMap G := by
  obtain ⟨metafile, chunks, rfl, hchunks, rfl⟩ := h
  have hfields : fields (G metahash) = keys := by
    rw [hmeta]
    exact fields_intercalate hkeys
  rw [hfields] at hchunks
  exact flatten_of_forall₂ hchunks

section

variable [DecidableEq P] {conf : Conf P} {setup : P → Setup P}

theorem keeps_of_reachable (hsetup : ∀ p, AgreesWith G (setup p).blobs) {st : Network P}
    (hst : (dataSharing conf setup).ReachableUnder (Honest conf G) st) (p : P) :
    (st.nodes p).Keeps fun key val => val = G key := by
  have hall := invariant_of_steps (C := Honest conf G)
    (N := fun _ n => n.Keeps fun key val => val = G key)
    (M := fun msg => msg.AgreesWith G) ?_ ?_ ?_ ?_ hst
  · exact hall.1 p
  · intro q
    exact ⟨hsetup q, fun d hd => absurd hd List.not_mem_nil⟩
  · intro st q c n sent hC hn hcall
    have hstep := Node.call_callStep hcall
    constructor
    · apply hn.call hstep
      rintro i r rfl hread
      exact hC n hread
    · exact fun pkt hpkt => .of_isRequest (hstep.sent pkt hpkt)
  · intro st k order neighbours ok pkt n sent _ _ hn hmsg hreceive
    have hstep := Node.receive_receiveStep conf pkt.dest (st.nodes pkt.dest) pkt order
      neighbours ok
    rw [hreceive] at hstep
    constructor
    · apply hn.receive hstep
      intro requestID key val _ heq
      rw [heq] at hmsg
      exact hmsg
    · intro pkt' hpkt'
      rcases hstep.sent pkt' hpkt' with ⟨hsame, _⟩ | ⟨requestID, key, heq⟩ |
        ⟨requestID, origin, dest, matchString, order, rfl⟩
      · rw [hsame]
        exact hmsg
      · rw [heq]
        exact AgreesWith.dataReply hn.blobs requestID key
      · trivial
  · intro st dest header requestID key value hC
    exact hC.elim

end

/-- Among honest peers every store keeps to `G`, and a call of `Download` which
does not fail returns the blobs under the keys which the metafile lists. -/
theorem download_all_or_nothing [DecidableEq P] (conf : Conf P) (setup : P → Setup P)
    (G : Bytes → Bytes) (hsetup : ∀ p, AgreesWith G (setup p).blobs) {st : Network P}
    (hst : (dataSharing conf setup).ReachableUnder (Honest conf G) st) :
    (∀ p, AgreesWith G (st.nodes p).blobs) ∧
      ∀ p, ∀ d ∈ (st.nodes p).downloads, ∀ keys, (∀ k ∈ keys, IsHexWord k) →
        G d.metahash = List.intercalate metafileSep keys →
        ∀ data, d.pc = .returned (.ok data) → data = keys.flatMap G := by
  constructor
  · intro p
    exact (keeps_of_reachable hsetup hst p).blobs
  · intro p d hd keys hkeys hmeta data hpc
    have hbuilds := (keeps_of_reachable hsetup hst p).downloads d hd
    rw [Download.Builds, hpc] at hbuilds
    exact hbuilds.eq_flatMap hkeys hmeta

/-! ## A remote download -/

/-- A file with the metahash `aa` and one chunk `bb`. -/
def oneFile (key : Bytes) : Bytes :=
  if key = [0x61, 0x61] then [0x62, 0x62] else if key = [0x62, 0x62] then [1, 2] else []

/-- The second node stores the file, and the first one knows it. -/
def oneFileSetup (p : Fin 2) : Setup (Fin 2) where
  blobs :=
    if p = 0 then .empty
    else (ByteStore.empty.set [0x61, 0x61] [0x62, 0x62]).set [0x62, 0x62] [1, 2]
  naming := .empty
  catalog := [([0x61, 0x61], 1), ([0x62, 0x62], 1)]
  routingTable := ((Gossip.NodeRT.new.addEntry 0 0).addEntry 1 1)

def oneFileConf : Conf (Fin 2) where
  sha256 := sha256
  retry := fun _ => 3
  compile := fun _ => none

/-- The action neither forges a reply nor uploads. -/
def Action.isHonest : Action P → Bool
  | .forge _ _ _ _ _ => false
  | .call _ (.uploadRead _ _) => false
  | _ => true

/-- The metafile and the chunk are requested, sent and read one after the
other. -/
def oneFileRun : List (Action (Fin 2)) :=
  [.call 0 (.download [0x61, 0x61]), .call 0 (.downloadStep 0),
   .call 0 (.downloadRequest 0 1 true), .deliver 0 [] [] true, .deliver 0 [] [] true,
   .call 0 (.downloadStep 0), .call 0 (.downloadStep 0), .call 0 (.downloadStep 0),
   .call 0 (.downloadRequest 0 1 true), .deliver 0 [] [] true, .deliver 0 [] [] true,
   .call 0 (.downloadStep 0), .call 0 (.downloadStep 0)]

theorem agreesWith_oneFile (p : Fin 2) : AgreesWith oneFile (oneFileSetup p).blobs := by
  intro key val hget
  rw [oneFileSetup] at hget
  simp only at hget
  split at hget
  · exact absurd hget (by simp)
  · rw [ByteStore.get_set, ByteStore.get_set] at hget
    split at hget
    · next hkey =>
        rw [← Option.some.inj hget, hkey]
        decide
    · split at hget
      · next hkey =>
          rw [← Option.some.inj hget, hkey]
          decide
      · exact absurd hget (by simp)

theorem download_all_or_nothing_of_oneFile :
    ∃ st, (dataSharing oneFileConf oneFileSetup).ReachableUnder (Honest oneFileConf oneFile) st ∧
      AgreesWith oneFile (st.nodes 0).blobs ∧
      (st.nodes 0).downloads = [⟨[0x61, 0x61], .returned (.ok [1, 2])⟩] ∧
      [1, 2] = [([0x62, 0x62] : Bytes)].flatMap oneFile := by
  obtain ⟨st, hst, hdownloads⟩ := TransitionSystem.exists_of_replay
    (S := dataSharing oneFileConf oneFileSetup) (fun _ a => a.isHonest = true) oneFileRun
    (fun st => (st.nodes 0).downloads = [⟨[0x61, 0x61], .returned (.ok [1, 2])⟩])
    (by decide +kernel)
  have hhonest : ∀ (st : Network (Fin 2)) (a : Action (Fin 2)), a.isHonest = true →
      Honest oneFileConf oneFile st a := by
    intro st a ha
    cases a with
    | forge dest header requestID key value => exact absurd ha (by simp [Action.isHonest])
    | call p c =>
        cases c with
        | uploadRead i r => exact absurd ha (by simp [Action.isHonest])
        | _ => trivial
    | _ => trivial
  have hreach := hst.mono hhonest
  obtain ⟨hblobs, hfile⟩ := download_all_or_nothing oneFileConf oneFileSetup oneFile
    agreesWith_oneFile hreach
  refine ⟨st, hreach, hblobs 0, hdownloads, ?_⟩
  exact hfile 0 ⟨[0x61, 0x61], .returned (.ok [1, 2])⟩
    (by rw [hdownloads]; exact List.mem_cons_self) [[0x62, 0x62]] (by decide +kernel)
    (by decide +kernel) [1, 2] rfl

end Minotor.DataSharing
