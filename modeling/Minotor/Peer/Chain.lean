import Minotor.Peer.CatchUp

/-!
# The chain follows the step

A node started on empty stores which is fed messages of one chain of blocks
stores exactly the blocks below its step, whatever mix of prepare, propose,
accept and TLC messages it handles.
-/

namespace Minotor

/-- The messages which an acceptor and learner handles. -/
inductive AcceptorMessage (P : Type*) where
  | prepare (msg : PaxosPrepareMessage P)
  | propose (msg : PaxosProposeMessage)
  | accept (msg : PaxosAcceptMessage)
  | tlc (msg : TLCMessage)
deriving DecidableEq, Repr

namespace PaxosNode

variable {P : Type*}

/-- A node started on empty stores. -/
def new (conf : Configuration) : PaxosNode :=
  { handler := newPaxosHandler conf, storage := .new }

/-- One message is handled. -/
def handle (sha256 : Bytes → Bytes) (conf : Configuration) (n : PaxosNode) :
    AcceptorMessage P → PaxosNode
  | .prepare msg => { n with handler := (n.handler.respondToPrepareMsg msg).2 }
  | .propose msg => { n with handler := (n.handler.respondToProposeMsg msg).2 }
  | .accept msg => (n.respondToAcceptMsg sha256 conf msg).2
  | .tlc msg => (n.respondToTLCMsg conf msg).2

/-- Messages are handled one after the other. -/
def handleAll (sha256 : Bytes → Bytes) (conf : Configuration) (n : PaxosNode)
    (msgs : List (AcceptorMessage P)) : PaxosNode :=
  msgs.foldl (handle sha256 conf) n

end PaxosNode

/-! ## Chains -/

/-- The chain of blocks for values `v`: each block is what `buildBlock` makes
of its index, its value and the hash of the block before it. -/
def chainBlock (sha256 : Bytes → Bytes) (v : ℕ → PaxosValue) : ℕ → BlockchainBlock
  | 0 => mkBlock sha256 0 (v 0) zeroHash
  | i + 1 => mkBlock sha256 (i + 1) (v (i + 1)) (chainBlock sha256 v i).hash

theorem chainBlock_value (sha256 : Bytes → Bytes) (v : ℕ → PaxosValue) (i : ℕ) :
    (chainBlock sha256 v i).value = v i := by
  cases i <;> rfl

/-- The stores after the blocks below `k` have been stored in order. -/
def chainStorage (sha256 : Bytes → Bytes) (v : ℕ → PaxosValue) (k : ℕ) : Storage :=
  storeBlocks ((List.range k).map (chainBlock sha256 v)) .new

section

variable {sha256 : Bytes → Bytes} {v : ℕ → PaxosValue}

theorem chainStorage_succ (k : ℕ) :
    chainStorage sha256 v (k + 1) =
      storeBlock (chainBlock sha256 v k) (chainStorage sha256 v k) := by
  simp [chainStorage, List.range_succ, storeBlocks_append]

/-- Storing the next blocks of the chain one after the other. -/
theorem storeBlocks_chainStorage {k : ℕ} {bs : List BlockchainBlock}
    (hbs : ∀ i b, bs[i]? = some b → b = chainBlock sha256 v (k + i)) :
    storeBlocks bs (chainStorage sha256 v k) =
      chainStorage sha256 v (k + bs.length) := by
  induction bs generalizing k with
  | nil => rfl
  | cons b bs ih =>
      have hb : b = chainBlock sha256 v k := hbs 0 b rfl
      rw [storeBlocks_cons, hb, ← chainStorage_succ, ih]
      · rw [List.length_cons, show k + 1 + bs.length = k + (bs.length + 1) by omega]
      · intro i c hc
        rw [hbs (i + 1) c (by simpa using hc), show k + (i + 1) = k + 1 + i by omega]

/-- `buildBlock` on the stores of a chain makes the next block of the chain. -/
theorem mkBlock_chainStorage (k : ℕ) :
    mkBlock sha256 k (v k) (chainStorage sha256 v k).lastBlock =
      chainBlock sha256 v k := by
  cases k with
  | zero => simp [chainStorage, chainBlock]
  | succ k => rw [chainStorage_succ, lastBlock_storeBlock, chainBlock]

/-- A message of the chain: an accept message of step `s` carries the value
`v s`, a TLC message of step `s` carries the block `s`. -/
def FromChain {P : Type*} (sha256 : Bytes → Bytes) (v : ℕ → PaxosValue) :
    AcceptorMessage P → Prop
  | .accept msg => msg.value = v msg.step
  | .tlc msg => msg.block = chainBlock sha256 v msg.step
  | _ => True

/-- The invariant: the stores are those of the chain up to the step, and only
blocks of the chain are buffered. -/
structure FollowsChain (sha256 : Bytes → Bytes) (conf : Configuration)
    (v : ℕ → PaxosValue) (n : PaxosNode) : Prop where
  threshold : n.handler.threshold = conf.threshold
  storage : n.storage = chainStorage sha256 v n.handler.step
  buffered : ∀ msg ∈ n.handler.tlcMap, msg.block = chainBlock sha256 v msg.step

variable {conf : Configuration} {n : PaxosNode}

theorem followsChain_new (sha256 : Bytes → Bytes) (conf : Configuration)
    (v : ℕ → PaxosValue) : FollowsChain sha256 conf v (PaxosNode.new conf) where
  threshold := rfl
  storage := rfl
  buffered := nofun

/-- Leaving a step with its block of the chain keeps the invariant, however
many steps are caught up with. -/
theorem FollowsChain.leavesStep (h : FollowsChain sha256 conf v n)
    {m : TLCMap} {bs : List BlockchainBlock} {n' : PaxosNode}
    (hm : ∀ msg ∈ m, msg.block = chainBlock sha256 v msg.step)
    (hleave : n.LeavesStep conf m (chainBlock sha256 v n.handler.step) bs n') :
    FollowsChain sha256 conf v n' where
  threshold := by rw [hleave.handler, PaxosHandler.advance_threshold]
  storage := by
    rw [hleave.storage, h.storage, storeBlocks_cons, ← chainStorage_succ,
      storeBlocks_chainStorage, hleave.handler, PaxosHandler.advance_step]
    intro i b hb
    obtain ⟨msg, hmsg, rfl⟩ := hleave.caughtUp.buffered i b hb
    rw [TLCMap.mem_at] at hmsg
    rw [hm msg hmsg.1, hmsg.2]
  buffered := by
    rw [hleave.handler, PaxosHandler.advance_tlcMap]
    nofun

/-- Every message of the chain keeps the invariant. -/
theorem FollowsChain.handle {P : Type*} (h : FollowsChain sha256 conf v n)
    {msg : AcceptorMessage P} (hmsg : FromChain sha256 v msg) :
    FollowsChain sha256 conf v (n.handle sha256 conf msg) := by
  have hT : 1 ≤ n.handler.threshold := h.threshold ▸ conf.one_le_threshold
  cases msg with
  | prepare msg =>
      simp only [PaxosNode.handle, PaxosHandler.respondToPrepareMsg]
      split_ifs
      · exact h
      · exact h
      · exact ⟨h.threshold, h.storage, h.buffered⟩
  | propose msg =>
      simp only [PaxosNode.handle, PaxosHandler.respondToProposeMsg]
      split_ifs
      · exact h
      · exact h
      · exact ⟨h.threshold, h.storage, h.buffered⟩
      · exact ⟨h.threshold, h.storage, h.buffered⟩
  | accept msg =>
      have hvalue : msg.value = v msg.step := hmsg
      rcases n.respondToAcceptMsg_cases sha256 conf msg hT with
        ⟨-, heq⟩ | ⟨-, -, heq⟩ | ⟨hstep, -, bs, n', hleave, heq⟩
      · rw [PaxosNode.handle, heq]
        exact h
      · rw [PaxosNode.handle, heq]
        exact ⟨h.threshold, h.storage, h.buffered⟩
      · rw [PaxosNode.handle, heq]
        rw [hvalue, ← hstep, h.storage, mkBlock_chainStorage] at hleave
        exact h.leavesStep h.buffered hleave
  | tlc msg =>
      have hblock : msg.block = chainBlock sha256 v msg.step := hmsg
      have hbuffered : ∀ x ∈ n.handler.tlcMap ++ [msg],
          x.block = chainBlock sha256 v x.step := by
        intro x hx
        rw [List.mem_append, List.mem_singleton] at hx
        rcases hx with hx | rfl
        · exact h.buffered x hx
        · exact hblock
      rcases n.respondToTLCMsg_cases conf msg hT with
        ⟨-, heq⟩ | ⟨-, -, heq⟩ | ⟨hstep, -, bs, n', hleave, heq⟩
      · rw [PaxosNode.handle, heq]
        exact h
      · rw [PaxosNode.handle, heq]
        exact ⟨h.threshold, h.storage, hbuffered⟩
      · rw [PaxosNode.handle, heq]
        rw [hblock, hstep] at hleave
        exact h.leavesStep hbuffered hleave

theorem FollowsChain.handleAll {P : Type*} (h : FollowsChain sha256 conf v n)
    {msgs : List (AcceptorMessage P)} (hmsgs : ∀ msg ∈ msgs, FromChain sha256 v msg) :
    FollowsChain sha256 conf v (n.handleAll sha256 conf msgs) := by
  induction msgs generalizing n with
  | nil => exact h
  | cons msg msgs ih =>
      rw [List.forall_mem_cons] at hmsgs
      exact ih (h.handle hmsgs.1) hmsgs.2

/-! ## What the stores of a chain hold -/

/-- The first `k` hashes of the chain are distinct and none is the all-zero
key. -/
structure DistinctHashes (sha256 : Bytes → Bytes) (v : ℕ → PaxosValue) (k : ℕ) :
    Prop where
  injOn : ∀ i < k, ∀ j < k,
    (chainBlock sha256 v i).hash = (chainBlock sha256 v j).hash → i = j
  ne_lastBlockKey : ∀ i < k, hexEncode (chainBlock sha256 v i).hash ≠ lastBlockKey

theorem DistinctHashes.of_le {j k : ℕ} (h : DistinctHashes sha256 v k) (hjk : j ≤ k) :
    DistinctHashes sha256 v j where
  injOn i hi i' hi' := h.injOn i (by omega) i' (by omega)
  ne_lastBlockKey i hi := h.ne_lastBlockKey i (by omega)

/-- The blocks below `k` under their hex hashes, the last hash under
`LastBlockKey` and nothing else; the names of their values in order. -/
structure HoldsChain (sha256 : Bytes → Bytes) (v : ℕ → PaxosValue) (k : ℕ)
    (s : Storage) : Prop where
  block : ∀ i < k, s.blockchain.get (hexEncode (chainBlock sha256 v i).hash) =
    some (.block (chainBlock sha256 v i))
  last : s.blockchain.get lastBlockKey =
    if k = 0 then none else some (.hash (chainBlock sha256 v (k - 1)).hash)
  only : ∀ key entry, s.blockchain.get key = some entry →
    (key = lastBlockKey ∧ 0 < k) ∨
      ∃ i < k, key = hexEncode (chainBlock sha256 v i).hash
  naming : s.naming =
    (List.range k).foldl (fun s i => s.set (v i).filename (v i).metahash) .empty

theorem holdsChain_chainStorage {k : ℕ} (hdistinct : DistinctHashes sha256 v k) :
    HoldsChain sha256 v k (chainStorage sha256 v k) := by
  induction k with
  | zero =>
      exact ⟨by simp, by simp [chainStorage, Storage.new],
        by simp [chainStorage, Storage.new], rfl⟩
  | succ k ih =>
      have hold := ih (hdistinct.of_le (Nat.le_succ k))
      have hkey := hdistinct.ne_lastBlockKey k (Nat.lt_succ_self k)
      rw [chainStorage_succ]
      refine ⟨?_, ?_, ?_, ?_⟩
      · intro i hi
        have hne := hdistinct.ne_lastBlockKey i hi
        rw [storeBlock, Store.get_set_ne _ _ hne]
        by_cases hik : i = k
        · rw [hik, Store.get_set_self]
        · rw [Store.get_set_ne, hold.block i (by omega)]
          intro heq
          exact hik (hdistinct.injOn i hi k (by omega) (hexEncode_injective heq))
      · rw [storeBlock, Store.get_set_self]
        simp
      · intro key entry hget
        rw [storeBlock, Store.get_set] at hget
        split at hget
        · next hlast => exact .inl ⟨hlast, Nat.succ_pos k⟩
        · rw [Store.get_set] at hget
          split at hget
          · next hk => exact .inr ⟨k, Nat.lt_succ_self k, hk⟩
          · rcases hold.only key entry hget with ⟨hlast, -⟩ | ⟨i, hi, hkey'⟩
            · exact .inl ⟨hlast, Nat.succ_pos k⟩
            · exact .inr ⟨i, by omega, hkey'⟩
      · rw [storeBlock, hold.naming, List.range_succ, List.foldl_append, chainBlock_value]
        rfl

/-- For every threshold and every sequence of messages of one chain, the
stores of a node at step `k` hold the chain up to `k`. -/
theorem chain_follows_step {P : Type*} (sha256 : Bytes → Bytes)
    (conf : Configuration) (v : ℕ → PaxosValue) (msgs : List (AcceptorMessage P))
    (hmsgs : ∀ msg ∈ msgs, FromChain sha256 v msg) (k : ℕ)
    (hstep : ((PaxosNode.new conf).handleAll sha256 conf msgs).handler.step = k)
    (hdistinct : DistinctHashes sha256 v k) :
    HoldsChain sha256 v k ((PaxosNode.new conf).handleAll sha256 conf msgs).storage := by
  have hfollows := (followsChain_new sha256 conf v).handleAll hmsgs
  rw [hfollows.storage, hstep]
  exact holdsChain_chainStorage hdistinct

end

/-- Two accept messages complete step 0, two TLC messages step 1; the accept
message after them is late. -/
theorem chain_follows_step_of_two :
    let v : ℕ → PaxosValue := fun i => ⟨toString i, "file", toString i⟩
    HoldsChain sha256 v 2
      ((PaxosNode.new (.majority 2 1)).handleAll sha256 (.majority 2 1)
        [.prepare ⟨0, 1, ()⟩, .accept ⟨0, 1, v 0⟩, .tlc ⟨1, chainBlock sha256 v 1⟩,
          .accept ⟨0, 1, v 0⟩, .tlc ⟨1, chainBlock sha256 v 1⟩,
          .tlc ⟨1, chainBlock sha256 v 1⟩, .accept ⟨0, 1, v 0⟩]).storage := by
  intro v
  refine chain_follows_step sha256 _ v _ ?_ 2 (by decide +kernel) ?_
  · simp [FromChain]
  · exact ⟨by decide +kernel, by decide +kernel⟩

end Minotor
