import Minotor.Peer.Chain

/-!
# The order of TLC messages

Messages of future steps are buffered, but clearing the instance at the end of
a step empties the whole buffer.  So the order of delivery matters, and it
matters exactly through the cuts below: a node gets past a step together with
the following steps whose messages had all arrived by then, and starts counting
from zero.
-/

namespace Minotor

/-- The delivered steps `seg` complete step `a` with their last message, and the
node moves on to step `a'`: every step between has its threshold of messages in
`seg`, and `a'` has not. -/
structure Epoch (threshold a a' : ℕ) (seg : List ℕ) : Prop where
  lt : a < a'
  completes : ∃ pre, seg = pre ++ [a] ∧ pre.count a + 1 = threshold
  full : ∀ t, a < t → t < a' → threshold ≤ seg.count t
  stops : seg.count a' < threshold

/-- The delivered steps can be cut into epochs which lead from step `a` to step
`k`, with a remainder that does not complete step `k`. -/
inductive Epochs (threshold : ℕ) : ℕ → List ℕ → ℕ → Prop where
  | rest {a : ℕ} {l : List ℕ} (h : l.count a < threshold) : Epochs threshold a l a
  | epoch {a a' k : ℕ} {seg l : List ℕ} (h : Epoch threshold a a' seg)
      (hl : Epochs threshold a' l k) : Epochs threshold a (seg ++ l) k

theorem Epoch.next_unique {threshold a a' a'' : ℕ} {seg : List ℕ}
    (h' : Epoch threshold a a' seg) (h'' : Epoch threshold a a'' seg) : a' = a'' := by
  rcases lt_trichotomy a' a'' with hlt | heq | hgt
  · have := h''.full a' h'.lt hlt
    have := h'.stops
    omega
  · exact heq
  · have := h'.full a'' h''.lt hgt
    have := h''.stops
    omega

namespace PaxosNode

/-- TLC messages are handled one after the other. -/
def handleTLCs (conf : Configuration) (n : PaxosNode) (msgs : List TLCMessage) :
    PaxosNode :=
  msgs.foldl (fun n msg => (n.respondToTLCMsg conf msg).2) n

/-- A node at step `a` which has received the steps `pre` since it got there. -/
structure Waiting (conf : Configuration) (n : PaxosNode) (a : ℕ) (pre : List ℕ) :
    Prop where
  threshold : n.handler.threshold = conf.threshold
  step : n.handler.step = a
  count : ∀ t, a ≤ t → (n.handler.tlcMap.at t).length = pre.count t
  below : pre.count a < conf.threshold

variable {conf : Configuration} {n : PaxosNode} {a : ℕ} {pre : List ℕ}

theorem waiting_new (conf : Configuration) : Waiting conf (.new conf) 0 [] where
  threshold := rfl
  step := rfl
  count _ _ := rfl
  below := conf.one_le_threshold

theorem count_append_at (m : TLCMap) (msg : TLCMessage) (t : ℕ) :
    ((m ++ [msg] : TLCMap).at t).length = (m.at t).length + [msg.step].count t := by
  by_cases h : msg.step = t
  · simp [TLCMap.at, h]
  · simp [TLCMap.at, h]

/-- A message is counted, or it completes an epoch. -/
theorem Waiting.step_cases (h : Waiting conf n a pre) (msg : TLCMessage) :
    Waiting conf (n.respondToTLCMsg conf msg).2 a (pre ++ [msg.step]) ∨
      ∃ a', Epoch conf.threshold a a' (pre ++ [msg.step]) ∧
        Waiting conf (n.respondToTLCMsg conf msg).2 a' [] := by
  have hT : 1 ≤ n.handler.threshold := h.threshold ▸ conf.one_le_threshold
  have hcount : ∀ t, a ≤ t → ((n.handler.tlcMap ++ [msg] : TLCMap).at t).length =
      (pre ++ [msg.step]).count t := by
    intro t ht
    rw [count_append_at, h.count t ht, List.count_append]
  rcases n.respondToTLCMsg_cases conf msg hT with
    ⟨hlt, heq⟩ | ⟨hle, hbelow, heq⟩ | ⟨hstep, hfull, bs, n', hleave, heq⟩
  · rw [h.step] at hlt
    have hnot : ∀ t, a ≤ t → [msg.step].count t = 0 := by
      intro t ht
      rw [List.count_eq_zero, List.mem_singleton]
      omega
    left
    rw [heq]
    refine ⟨h.threshold, h.step, fun t ht => ?_, ?_⟩
    · rw [List.count_append, hnot t ht, h.count t ht, Nat.add_zero]
    · rw [List.count_append, hnot a le_rfl]
      exact h.below
  · left
    rw [heq]
    refine ⟨h.threshold, h.step, hcount, ?_⟩
    by_cases hstep : msg.step = n.handler.step
    · rw [← hcount a le_rfl, ← h.step, ← hstep, ← h.threshold]
      exact hbelow hstep
    · have hnot : [msg.step].count a = 0 := by
        rw [List.count_eq_zero, List.mem_singleton, ← h.step]
        exact fun heq' => hstep heq'.symm
      rw [List.count_append, hnot]
      exact h.below
  · rw [h.step] at hstep
    right
    refine ⟨a + 1 + bs.length, ⟨by omega, ⟨pre, by rw [hstep], ?_⟩, ?_, ?_⟩, ?_⟩
    · have hbelow := h.below
      rw [hstep, hcount a le_rfl, List.count_append, hstep, List.count_singleton_self,
        h.threshold] at hfull
      omega
    · intro t hat hta'
      have hcaught := hleave.caughtUp.full (t - (a + 1)) (by omega)
      rw [h.step, show a + 1 + (t - (a + 1)) = t by omega, hcount t (by omega),
        h.threshold] at hcaught
      exact hcaught
    · have hstop := hleave.stopped
      rw [h.step, hcount _ (by omega), h.threshold] at hstop
      exact hstop
    · rw [heq]
      refine ⟨?_, ?_, fun t _ => ?_, conf.one_le_threshold⟩
      · rw [hleave.handler, PaxosHandler.advance_threshold]
      · rw [hleave.handler, PaxosHandler.advance_step, h.step]
      · rw [hleave.handler, PaxosHandler.advance_tlcMap]
        rfl

/-- Every delivery order is cut into epochs which lead to the step the node
ends in. -/
theorem Waiting.epochs (h : Waiting conf n a pre) (msgs : List TLCMessage) :
    Epochs conf.threshold a (pre ++ msgs.map TLCMessage.step)
      (n.handleTLCs conf msgs).handler.step := by
  induction msgs generalizing n a pre with
  | nil =>
      rw [List.map_nil, List.append_nil]
      exact h.step ▸ .rest (h.step ▸ h.below)
  | cons msg msgs ih =>
      rw [List.map_cons, List.append_cons]
      rcases h.step_cases msg with hwait | ⟨a', hepoch, hwait⟩
      · exact ih hwait
      · exact .epoch hepoch (ih hwait)

/-- Below the threshold of its step a node stays where it is. -/
theorem Waiting.stays (h : Waiting conf n a pre) (msgs : List TLCMessage)
    (hbelow : (pre ++ msgs.map TLCMessage.step).count a < conf.threshold) :
    Waiting conf (n.handleTLCs conf msgs) a (pre ++ msgs.map TLCMessage.step) := by
  induction msgs generalizing n pre with
  | nil =>
      rw [List.map_nil, List.append_nil]
      exact h
  | cons msg msgs ih =>
      rw [List.map_cons, List.append_cons] at hbelow ⊢
      rcases h.step_cases msg with hwait | ⟨a', ⟨-, ⟨pre', hseg, hcount⟩, -, -⟩, -⟩
      · exact ih hwait hbelow
      · rw [hseg, List.count_append, List.count_append, List.count_singleton_self] at hbelow
        omega

/-- An epoch moves a node from its first step to its last. -/
theorem Waiting.epoch (h : Waiting conf n a []) {a' : ℕ} (msgs : List TLCMessage)
    (hepoch : Epoch conf.threshold a a' (msgs.map TLCMessage.step)) :
    Waiting conf (n.handleTLCs conf msgs) a' [] := by
  obtain ⟨pre, hseg, hcount⟩ := hepoch.completes
  obtain ⟨front, rest, rfl, hfront, hrest⟩ := List.map_eq_append_iff.mp hseg
  obtain ⟨last, rfl, hlast⟩ := List.map_eq_singleton_iff.mp hrest
  have hstays := h.stays front (by rw [List.nil_append, hfront]; omega)
  rw [List.nil_append, hfront] at hstays
  rw [handleTLCs, List.foldl_append]
  change Waiting conf ((n.handleTLCs conf front).respondToTLCMsg conf last).2 a' []
  rcases hstays.step_cases last with hwait | ⟨a'', hepoch', hwait⟩
  · have hbelow := hwait.below
    rw [hlast, List.count_append, List.count_singleton_self] at hbelow
    omega
  · rw [hseg] at hepoch
    rw [hlast] at hepoch'
    rwa [hepoch.next_unique hepoch']

/-- A cut into epochs tells the step the node ends in. -/
theorem Waiting.step_of_epochs {k : ℕ} {l : List ℕ}
    (hepochs : Epochs conf.threshold a l k) :
    ∀ {n : PaxosNode} (msgs : List TLCMessage), Waiting conf n a [] →
      msgs.map TLCMessage.step = l → (n.handleTLCs conf msgs).handler.step = k := by
  induction hepochs with
  | rest hbelow =>
      intro n msgs h hmsgs
      have hstays := h.stays msgs (by rw [hmsgs]; exact hbelow)
      exact hstays.step
  | epoch hepoch hl ih =>
      intro n msgs h hmsgs
      obtain ⟨front, rest, rfl, hfront, hrest⟩ := List.map_eq_append_iff.mp hmsgs
      have hnext := h.epoch front (hfront ▸ hepoch)
      have := ih rest hnext hrest
      rwa [handleTLCs, List.foldl_append]

theorem handleTLCs_eq_handleAll (sha256 : Bytes → Bytes) (conf : Configuration)
    (n : PaxosNode) (msgs : List TLCMessage) :
    n.handleTLCs conf msgs =
      n.handleAll sha256 conf (msgs.map (AcceptorMessage.tlc (P := Unit))) := by
  rw [handleTLCs, handleAll, List.foldl_map]
  rfl

end PaxosNode

/-- The node ends with step at least `k` and the blocks below `k` stored. -/
def CaughtUpTo (sha256 : Bytes → Bytes) (v : ℕ → PaxosValue) (k : ℕ)
    (n : PaxosNode) : Prop :=
  k ≤ n.handler.step ∧ ∀ i < k,
    n.storage.blockchain.get (hexEncode (chainBlock sha256 v i).hash) =
      some (.block (chainBlock sha256 v i))

/-- A node which handles TLC messages of one chain in some order ends at step
`k` or later with the blocks below `k` exactly when the order can be cut into
epochs which lead to such a step. -/
theorem tlc_order_exact (sha256 : Bytes → Bytes) (conf : Configuration)
    (v : ℕ → PaxosValue) (k : ℕ) (msgs : List TLCMessage)
    (hmsgs : ∀ msg ∈ msgs, msg.block = chainBlock sha256 v msg.step)
    (hdistinct : DistinctHashes sha256 v
      ((PaxosNode.new conf).handleTLCs conf msgs).handler.step) :
    CaughtUpTo sha256 v k ((PaxosNode.new conf).handleTLCs conf msgs) ↔
      ∃ k', k ≤ k' ∧ Epochs conf.threshold 0 (msgs.map TLCMessage.step) k' := by
  have hwait := PaxosNode.waiting_new conf
  have hfrom : ∀ msg ∈ msgs.map (AcceptorMessage.tlc (P := Unit)),
      FromChain sha256 v msg := by
    intro msg hmsg
    obtain ⟨tlc, htlc, rfl⟩ := List.mem_map.mp hmsg
    exact hmsgs tlc htlc
  have hfollows := (followsChain_new sha256 conf v).handleAll hfrom
  rw [← PaxosNode.handleTLCs_eq_handleAll] at hfollows
  have hholds := holdsChain_chainStorage hdistinct
  rw [← hfollows.storage] at hholds
  constructor
  · intro hcaught
    exact ⟨_, hcaught.1, by simpa using hwait.epochs msgs⟩
  · rintro ⟨k', hk, hepochs⟩
    have hstep := PaxosNode.Waiting.step_of_epochs hepochs msgs hwait rfl
    refine ⟨by omega, fun i hi => hholds.block i (by omega)⟩

/-- Both messages of step 1 arrive before the last one of step 0, and the node
moves on to step 2 at once. -/
theorem tlc_order_exact_of_early :
    let v : ℕ → PaxosValue := fun i => ⟨toString i, "file", toString i⟩
    CaughtUpTo sha256 v 2 ((PaxosNode.new (.majority 2 1)).handleTLCs (.majority 2 1)
      ([1, 0, 1, 0].map fun s => ⟨s, chainBlock sha256 v s⟩)) := by
  intro v
  refine (tlc_order_exact sha256 _ v 2 _ ?_ ?_).mpr ⟨2, le_rfl, ?_⟩
  · simp
  · exact ⟨by decide +kernel, by decide +kernel⟩
  · have hfull : ∀ t < 2, 0 < t → 2 ≤ [1, 0, 1, 0].count t := by decide
    have hepoch : Epoch 2 0 2 [1, 0, 1, 0] :=
      ⟨by decide, ⟨[1, 0, 1], rfl, by decide⟩, fun t ht ht' => hfull t ht' ht, by decide⟩
    exact .epoch (l := []) hepoch (.rest (by decide))

/-- With threshold 2, a message of step 1 that arrives before step 0 completes
is lost, whatever the hash function and the values of the chain. -/
theorem tlc_order_loses_early :
    (∀ s < 2, (Configuration.majority 2 1).threshold ≤ [1, 0, 0, 1].count s) ∧
      ∀ sha256 v, ¬ CaughtUpTo sha256 v 2
        ((PaxosNode.new (.majority 2 1)).handleTLCs (.majority 2 1)
          ([1, 0, 0, 1].map fun s => ⟨s, chainBlock sha256 v s⟩)) := by
  refine ⟨by decide, fun sha256 v hcaught => ?_⟩
  have hepoch : Epoch 2 0 1 [1, 0, 0] :=
    ⟨by decide, ⟨[1, 0], rfl, by decide⟩, by omega, by decide⟩
  have hepochs : Epochs (Configuration.majority 2 1).threshold 0 [1, 0, 0, 1] 1 :=
    .epoch hepoch (.rest (by decide))
  have hstep := PaxosNode.Waiting.step_of_epochs hepochs
    ([1, 0, 0, 1].map fun s => ⟨s, chainBlock sha256 v s⟩) (PaxosNode.waiting_new _) rfl
  have := hcaught.1
  omega

end Minotor
