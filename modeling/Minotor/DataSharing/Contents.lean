import Minotor.DataSharing.Steps

/-!
# What a download is made of

For a relation between keys and the values which may be stored under them: as
long as the blob store of a node keeps to it, a call of `Download` returns the
concatenation of values for the keys which a value for its metahash lists.
-/

namespace Minotor.DataSharing

variable {P : Type*}

/-- Every blob of the store has a value which its key allows. -/
def Stores (Val : Bytes → Bytes → Prop) (blobs : ByteStore) : Prop :=
  ∀ key val, blobs.get key = some val → Val key val

/-- Values for the keys which a value for the metahash lists. -/
def Built (Val : Bytes → Bytes → Prop) (metahash data : Bytes) : Prop :=
  ∃ metafile chunks, Val metahash metafile ∧ List.Forall₂ Val (fields metafile) chunks ∧
    data = chunks.flatten

/-- The data is made of values for the first keys of a metafile, and `rest` are
its further keys. -/
def Collected (Val : Bytes → Bytes → Prop) (metahash data : Bytes) (rest : List Bytes) :
    Prop :=
  ∃ metafile keys chunks, Val metahash metafile ∧ fields metafile = keys ++ rest ∧
    List.Forall₂ Val keys chunks ∧ data = chunks.flatten

/-- The key fits what a call of `Download` does with its value. -/
def Goal.Fits (Val : Bytes → Bytes → Prop) (metahash key : Bytes) : Goal → Prop
  | .metafile => key = metahash
  | .chunk data rest => Collected Val metahash data (key :: rest)

/-- A call of `Download` has collected values which the keys allow. -/
def Download.Builds (Val : Bytes → Bytes → Prop) (d : Download P) : Prop :=
  match d.pc with
  | .get goal key => goal.Fits Val d.metahash key
  | .request goal key => goal.Fits Val d.metahash key
  | .wait goal key _ _ _ _ => goal.Fits Val d.metahash key
  | .read goal key => goal.Fits Val d.metahash key
  | .returned (.ok data) => Built Val d.metahash data
  | .returned (.error _) => True

/-- The blobs of a node and its calls of `Download` keep to the relation. -/
structure Node.Keeps (Val : Bytes → Bytes → Prop) (n : Node P) : Prop where
  blobs : Stores Val n.blobs
  downloads : ∀ d ∈ n.downloads, d.Builds Val

variable {Val : Bytes → Bytes → Prop}

theorem Stores.set {blobs : ByteStore} (h : Stores Val blobs) {key val : Bytes}
    (hval : Val key val) : Stores Val (blobs.set key val) := by
  intro key' val' hget
  rw [ByteStore.get_set] at hget
  split at hget
  · next heq => rwa [heq, ← Option.some.inj hget]
  · exact h key' val' hget

theorem Collected.built {metahash data : Bytes} (h : Collected Val metahash data []) :
    Built Val metahash data := by
  obtain ⟨metafile, keys, chunks, hmeta, hfields, hchunks, hdata⟩ := h
  rw [List.append_nil] at hfields
  exact ⟨metafile, chunks, hmeta, hfields ▸ hchunks, hdata⟩

theorem Collected.next {metahash data key val : Bytes} {rest : List Bytes}
    (h : Collected Val metahash data (key :: rest)) (hval : Val key val) :
    Collected Val metahash (data ++ val) rest := by
  obtain ⟨metafile, keys, chunks, hmeta, hfields, hchunks, rfl⟩ := h
  refine ⟨metafile, keys ++ [key], chunks ++ [val], hmeta, ?_, ?_, ?_⟩
  · rw [hfields, List.append_assoc, List.singleton_append]
  · exact List.rel_append hchunks (.cons hval .nil)
  · rw [List.flatten_append, List.flatten_singleton]

/-! ## Steps of a call -/

theorem builds_nextChunk {metahash data : Bytes} {keys : List Bytes}
    (h : Collected Val metahash data keys) :
    (⟨metahash, Node.nextChunk data keys⟩ : Download P).Builds Val := by
  cases keys with
  | nil => exact h.built
  | cons key keys => exact h

theorem builds_of_asks {d : Download P} {goal : Goal} {key : Bytes}
    (h : d.pc.asks = some (goal, key)) : d.Builds Val ↔ goal.Fits Val d.metahash key := by
  obtain ⟨metahash, pc⟩ := d
  cases pc with
  | returned result => exact absurd h (by simp [DownloadPC.asks])
  | _ =>
      obtain ⟨rfl, rfl⟩ := Prod.mk.inj (Option.some.inj h)
      exact Iff.rfl

theorem Download.Builds.step {n : Node P} {d d' : Download P} (hblobs : Stores Val n.blobs)
    (h : d.Builds Val) (hmeta : d'.metahash = d.metahash) (hstep : n.Downloads d.pc d'.pc) :
    d'.Builds Val := by
  obtain ⟨metahash, pc'⟩ := d'
  obtain rfl : metahash = d.metahash := hmeta
  change n.Downloads d.pc pc' at hstep
  cases hstep with
  | @finds goal key val hasks hget =>
      have hval := hblobs key val hget
      rw [builds_of_asks hasks] at h
      cases goal with
      | metafile =>
          obtain rfl : key = d.metahash := h
          exact builds_nextChunk ⟨val, [], [], hval, rfl, .nil, rfl⟩
      | chunk data rest => exact builds_nextChunk (Collected.next h hval)
  | keeps hasks hasks' =>
      rw [builds_of_asks hasks] at h
      rw [builds_of_asks (d := ⟨d.metahash, pc'⟩) hasks']
      exact h
  | fails e => trivial

namespace Node

variable [DecidableEq P] {conf : Conf P} {n n' : Node P}

theorem Keeps.call {c : Call P} {sent : List (Packet P)} (h : n.Keeps Val)
    (hstep : CallStep conf n c n' sent)
    (hupload : ∀ i r, c = .uploadRead i r → n.uploadRead conf i r = some n' →
      Stores Val n'.blobs) : n'.Keeps Val where
  blobs := by
    rcases hstep.blobs with ⟨hblobs, _⟩ | ⟨i, r, hc, hread⟩
    · rw [hblobs]
      exact h.blobs
    · exact hupload i r hc hread
  downloads := by
    intro d' hd'
    rcases hstep.downloads d' hd' with hd | hget | ⟨d, hd, hmeta, hdown⟩
    · exact h.downloads d' hd
    · rw [builds_of_asks (by rw [hget]; rfl)]
      rfl
    · exact (h.downloads d hd).step h.blobs hmeta hdown

theorem Keeps.receive {myAddr : P} {pkt : Packet P} {sent : List (Packet P)}
    (h : n.Keeps Val) (hstep : ReceiveStep conf myAddr n pkt n' sent)
    (hreply : ∀ requestID key val, pkt.header.destination = myAddr →
      pkt.msg = .dataReply requestID key (some val) → Val key val) : n'.Keeps Val where
  blobs := by
    rcases hstep.blobs with hblobs | ⟨requestID, key, val, hdest, hmsg, hblobs⟩
    · rw [hblobs]
      exact h.blobs
    · rw [hblobs]
      exact h.blobs.set (hreply requestID key val hdest hmsg)
  downloads := by
    rw [hstep.downloads]
    exact h.downloads

end Node
end Minotor.DataSharing
