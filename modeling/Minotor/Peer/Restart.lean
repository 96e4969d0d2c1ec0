import Minotor.Peer.Responses
import Minotor.Support.TransitionSystem

/-!
# The chain across restarts

The blocks are in the stores, the step is only in the handler.  A node which is
started again on its stores begins at step 0, so its chain stays valid exactly if
nothing had been stored before.
-/

namespace Minotor

variable {P : Type*}

/-- The walk from the hash `h` along `PrevHash` visits the blocks `bs` and ends at
32 zero bytes. -/
inductive Walk (s : Storage) : Bytes → List BlockchainBlock → Prop where
  | ends : Walk s zeroHash []
  | visits {h : Bytes} {b : BlockchainBlock} {bs : List BlockchainBlock}
      (hne : h ≠ zeroHash) (hget : s.blockchain.get (hexEncode h) = some (.block b))
      (hrest : Walk s b.prevHash bs) : Walk s h (b :: bs)

def ChainEntry.isBlock : ChainEntry → Bool
  | .block _ => true
  | .hash _ => false

/-- The number of blocks in the blockchain store. -/
def Storage.blockCount (s : Storage) : ℕ :=
  s.blockchain.values.countP ChainEntry.isBlock

/-- The walk from the last block visits blocks with the indexes below `step` in
decreasing order, and there are `step` blocks in the store. -/
structure ValidChain (s : Storage) (step : ℕ) : Prop where
  walk : ∃ bs, Walk s s.lastBlock bs ∧
    bs.map BlockchainBlock.index = (List.range step).reverse
  count : s.blockCount = step

/-- `LastBlockKey` holds nothing: no block was ever stored. -/
def Storage.NoBlock (s : Storage) : Prop :=
  s.blockchain.get lastBlockKey = none

instance (s : Storage) : Decidable s.NoBlock :=
  inferInstanceAs (Decidable (_ = _))

/-- The block `b` is the next one for the stores at `step`: it has the index and
the previous hash, and its own hash is neither zero nor that of a stored block. -/
structure Fits (s : Storage) (step : ℕ) (b : BlockchainBlock) : Prop where
  index : b.index = step
  prevHash : b.prevHash = s.lastBlock
  notZero : hexEncode b.hash ≠ lastBlockKey
  unused : s.blockchain.get (hexEncode b.hash) = none

/-- The blocks fit one after the other. -/
def FitsAll : Storage → ℕ → List BlockchainBlock → Prop
  | _, _, [] => True
  | s, step, b :: bs => Fits s step b ∧ FitsAll (storeBlock b s) (step + 1) bs

theorem fits_iff {s : Storage} {step : ℕ} {b : BlockchainBlock} :
    Fits s step b ↔ b.index = step ∧ b.prevHash = s.lastBlock ∧
      hexEncode b.hash ≠ lastBlockKey ∧ s.blockchain.get (hexEncode b.hash) = none :=
  ⟨fun h => ⟨h.index, h.prevHash, h.notZero, h.unused⟩,
    fun ⟨hindex, hprev, hzero, hunused⟩ => ⟨hindex, hprev, hzero, hunused⟩⟩

instance (s : Storage) (step : ℕ) (b : BlockchainBlock) : Decidable (Fits s step b) :=
  decidable_of_iff' _ fits_iff

instance decidableFitsAll : ∀ s step bs, Decidable (FitsAll s step bs)
  | _, _, [] => isTrue trivial
  | s, step, b :: bs =>
      have := decidableFitsAll (storeBlock b s) (step + 1) bs
      inferInstanceAs (Decidable (_ ∧ _))

/-! ## Storing the next block -/

theorem hexEncode_zeroHash : hexEncode zeroHash = lastBlockKey := by
  decide +kernel

section

variable {s : Storage} {step : ℕ} {b : BlockchainBlock}

/-- A walk does not see a block stored under an unused key. -/
theorem Walk.storeBlock {h : Bytes} {bs : List BlockchainBlock} (hwalk : Walk s h bs)
    (hunused : s.blockchain.get (hexEncode b.hash) = none) :
    Walk (storeBlock b s) h bs := by
  induction hwalk with
  | ends => exact .ends
  | visits hne hget hrest ih =>
      refine .visits hne ?_ ih
      rw [Minotor.storeBlock, Store.get_set_ne, Store.get_set_ne, hget]
      · rintro heq
        rw [heq, hunused] at hget
        cases hget
      · rintro heq
        exact hne (hexEncode_injective (heq.trans hexEncode_zeroHash.symm))

/-- A valid chain, and under `LastBlockKey` nothing but a hash. -/
structure ChainInv (s : Storage) (step : ℕ) : Prop where
  valid : ValidChain s step
  last : ∀ old, s.blockchain.get lastBlockKey = some old → ∃ h ≠ zeroHash, old = .hash h

theorem chainInv_new : ChainInv .new 0 where
  valid :=
    { walk := ⟨[], by
        rw [lastBlock_new]
        exact .ends, rfl⟩
      count := rfl }
  last old hold := by
    rw [Storage.new, Store.get_empty] at hold
    cases hold

theorem Fits.hash_ne_zeroHash (hfits : Fits s step b) : b.hash ≠ zeroHash :=
  fun heq => hfits.notZero (heq ▸ hexEncode_zeroHash)

theorem ChainInv.blockCount_storeBlock (h : ChainInv s step) (hfits : Fits s step b) :
    (Minotor.storeBlock b s).blockCount = s.blockCount + 1 := by
  have hunused : ∀ old, s.blockchain.get (hexEncode b.hash) = some old →
      old.isBlock = false := by
    intro old hold
    rw [hfits.unused] at hold
    cases hold
  have hlast' : ∀ old,
      (s.blockchain.set (hexEncode b.hash) (.block b)).get lastBlockKey = some old →
        old.isBlock = false := by
    intro old hold
    rw [Store.get_set_ne _ _ hfits.notZero.symm] at hold
    obtain ⟨hash, -, rfl⟩ := h.last old hold
    rfl
  rw [Storage.blockCount, Minotor.storeBlock, Store.countP_set hlast', Store.countP_set hunused]
  rfl

/-- The next block makes the chain one longer. -/
theorem ChainInv.storeBlock (h : ChainInv s step) (hfits : Fits s step b) :
    ChainInv (storeBlock b s) (step + 1) where
  valid :=
    { walk := by
        obtain ⟨bs, hwalk, hindexes⟩ := h.valid.walk
        refine ⟨b :: bs, ?_, ?_⟩
        · rw [lastBlock_storeBlock]
          refine .visits hfits.hash_ne_zeroHash ?_ ?_
          · rw [Minotor.storeBlock, Store.get_set_ne _ _ hfits.notZero, Store.get_set_self]
          · rw [hfits.prevHash]
            exact hwalk.storeBlock hfits.unused
        · rw [List.map_cons, hindexes, hfits.index, List.range_succ, List.reverse_append]
          rfl
      count := by rw [h.blockCount_storeBlock hfits, h.valid.count] }
  last := by
    intro old hold
    rw [Minotor.storeBlock, Store.get_set_self] at hold
    cases hold
    exact ⟨b.hash, hfits.hash_ne_zeroHash, rfl⟩

theorem ChainInv.storeBlocks {bs : List BlockchainBlock} (h : ChainInv s step)
    (hfits : FitsAll s step bs) : ChainInv (storeBlocks bs s) (step + bs.length) := by
  induction bs generalizing s step with
  | nil => exact h
  | cons b bs ih =>
      rw [storeBlocks_cons, List.length_cons, ← Nat.add_assoc, Nat.add_right_comm]
      exact ih (h.storeBlock hfits.1) hfits.2

theorem Walk.eq_nil {bs : List BlockchainBlock} (h : Walk s zeroHash bs) : bs = [] := by
  cases h with
  | ends => rfl
  | visits hne => exact absurd rfl hne

/-- Starting again at step 0 keeps a valid chain valid exactly if there is no
block. -/
theorem ChainInv.restart_iff (h : ChainInv s step) : ValidChain s 0 ↔ s.NoBlock := by
  constructor
  · intro hzero
    obtain ⟨bs, hwalk, hindexes⟩ := hzero.walk
    have hnil : bs = [] := List.map_eq_nil_iff.mp hindexes
    rw [hnil] at hwalk
    cases hget : s.blockchain.get lastBlockKey with
    | none => exact hget
    | some old =>
        obtain ⟨hash, hne, rfl⟩ := h.last old hget
        rw [Storage.lastBlock, hget] at hwalk
        cases hwalk
        exact absurd rfl hne
  · intro hno
    have hlast : s.lastBlock = zeroHash := by
      rw [Storage.lastBlock, hno]
    obtain ⟨bs, hwalk, hindexes⟩ := h.valid.walk
    rw [hlast] at hwalk
    rw [hwalk.eq_nil, List.map_nil] at hindexes
    have hstep : step = 0 := by
      have hlength := congrArg List.length hindexes
      rw [List.length_reverse, List.length_range, List.length_nil] at hlength
      exact hlength.symm
    exact hstep ▸ h.valid

end

/-! ## Runs with restarts -/

/-- A message is handled, or the node is stopped and started again on its
stores. -/
inductive RestartAction (P : Type*) where
  | message (msg : AcceptorMessage P)
  | restart
deriving DecidableEq, Repr

/-- Runs of a node on its stores, which are empty in the beginning. -/
def restartSystem (P : Type*) (sha256 : Bytes → Bytes) (conf : Configuration) :
    TransitionSystem PaxosNode (RestartAction P) where
  init := .start conf .new
  next n
    | .message msg => some (n.handle sha256 conf msg)
    | .restart => some (.start conf n.storage)

namespace PaxosNode

/-- The blocks which a message makes the node store: the decided one and those of
the following steps whose buffer is full. -/
def storedBy (sha256 : Bytes → Bytes) (n : PaxosNode) :
    AcceptorMessage P → List BlockchainBlock
  | .accept msg =>
      if n.handler.step = msg.step ∧
          n.handler.threshold ≤ n.handler.acceptedValues msg.value + 1 then
        mkBlock sha256 n.handler.step msg.value n.storage.lastBlock ::
          n.handler.tlcMap.blocksFrom n.handler.threshold n.handler.tlcMap.length
            (n.handler.step + 1)
      else []
  | .tlc msg =>
      let m : TLCMap := n.handler.tlcMap ++ [msg]
      if msg.step = n.handler.step ∧ n.handler.threshold ≤ (m.at msg.step).length then
        msg.block :: m.blocksFrom n.handler.threshold m.length (n.handler.step + 1)
      else []
  | _ => []

variable {sha256 : Bytes → Bytes} {conf : Configuration} {n n' : PaxosNode}

theorem LeavesStep.stores {m : TLCMap} {block : BlockchainBlock}
    {bs stored : List BlockchainBlock} (h : n.LeavesStep conf m block bs n')
    (hstored : stored = block ::
      m.blocksFrom n.handler.threshold m.length (n.handler.step + 1)) :
    n'.storage = storeBlocks stored n.storage ∧
      n'.handler.step = n.handler.step + stored.length := by
  rw [← h.blocks] at hstored
  rw [hstored]
  refine ⟨h.storage, ?_⟩
  rw [h.handler, PaxosHandler.advance_step, List.length_cons]
  omega

/-- A message stores these blocks and moves the node past their steps. -/
theorem Responds.stores {msg : AcceptorMessage P} {o : Option Response}
    (h : Responds sha256 conf n msg o n') :
    n'.storage = storeBlocks (n.storedBy sha256 msg) n.storage ∧
      n'.handler.step = n.handler.step + (n.storedBy sha256 msg).length := by
  cases h with
  | ignored msg hignores =>
      cases msg with
      | accept msg =>
          rw [storedBy, if_neg fun h => hignores h.1]
          exact ⟨rfl, rfl⟩
      | tlc msg =>
          rw [storedBy, if_neg fun h => (Nat.ne_of_lt hignores) h.1]
          exact ⟨rfl, rfl⟩
      | prepare msg => exact ⟨rfl, rfl⟩
      | propose msg => exact ⟨rfl, rfl⟩
  | promised msg => exact ⟨rfl, rfl⟩
  | accepted msg => exact ⟨rfl, rfl⟩
  | countedAccept msg hstep hbelow =>
      rw [storedBy, if_neg fun h => (Nat.not_le.mpr hbelow) h.2]
      exact ⟨rfl, rfl⟩
  | buffered msg hle hbelow =>
      rw [storedBy, if_neg fun h => (Nat.not_le.mpr (hbelow h.1)) h.2]
      exact ⟨rfl, rfl⟩
  | decided msg bs n' hstep hfull hleave =>
      refine hleave.stores ?_
      rw [storedBy, if_pos ⟨hstep, hfull⟩]
  | finished msg bs n' hstep hfull hleave =>
      refine hleave.stores ?_
      rw [storedBy, if_pos ⟨hstep, hfull⟩]

end PaxosNode

/-- A message makes the node store only blocks which fit, and the node is started
again only while there is no block. -/
def KeepsChain (sha256 : Bytes → Bytes) (n : PaxosNode) : RestartAction P → Prop
  | .message msg => FitsAll n.storage n.handler.step (n.storedBy sha256 msg)
  | .restart => n.storage.NoBlock

instance (sha256 : Bytes → Bytes) (n : PaxosNode) :
    ∀ a : RestartAction P, Decidable (KeepsChain sha256 n a)
  | .message _ => inferInstanceAs (Decidable (FitsAll _ _ _))
  | .restart => inferInstanceAs (Decidable (Storage.NoBlock _))

/-- What holds of a node in every such run. -/
structure RestartInv (conf : Configuration) (n : PaxosNode) : Prop where
  threshold : n.handler.threshold = conf.threshold
  chain : ChainInv n.storage n.handler.step

section

variable {sha256 : Bytes → Bytes} {conf : Configuration} {n : PaxosNode}

theorem RestartInv.message (h : RestartInv conf n) {msg : AcceptorMessage P}
    (hfits : FitsAll n.storage n.handler.step (n.storedBy sha256 msg)) :
    RestartInv conf (n.handle sha256 conf msg) := by
  have hresp : PaxosNode.Responds sha256 conf n msg _ _ :=
    PaxosNode.respond_responds (h.threshold ▸ conf.one_le_threshold) msg
  rw [← PaxosNode.respond_fst]
  obtain ⟨hstorage, hstep⟩ := hresp.stores
  refine ⟨hresp.threshold h.threshold, ?_⟩
  rw [hstorage, hstep]
  exact h.chain.storeBlocks hfits

theorem RestartInv.restart (h : RestartInv conf n) (hno : n.storage.NoBlock) :
    RestartInv conf (.start conf n.storage) where
  threshold := rfl
  chain := ⟨h.chain.restart_iff.mpr hno, h.chain.last⟩

theorem restartInv_of_reachable
    (hn : (restartSystem P sha256 conf).ReachableUnder (KeepsChain sha256) n) :
    RestartInv conf n := by
  refine hn.invariant ⟨rfl, chainInv_new⟩ ?_
  rintro n n' (msg | -) - h hkeeps hnext
  · cases hnext
    exact h.message hkeeps
  · cases hnext
    exact h.restart hkeeps

end

/-- In every run in which only fitting blocks are stored and the node is started
again only while there is no block, the chain is valid at the handler's step and
the next block built has the number of stored blocks as its index; and from every
state of such a run, starting again keeps the chain valid only while there is no
block. -/
theorem chain_valid_across_restarts (sha256 : Bytes → Bytes) (conf : Configuration)
    (n : PaxosNode)
    (hn : (restartSystem P sha256 conf).ReachableUnder (KeepsChain sha256) n) :
    ValidChain n.storage n.handler.step ∧
      (∀ v, (n.buildBlock sha256 v).1.index = n.storage.blockCount) ∧
      (ValidChain (PaxosNode.start conf n.storage).storage
          (PaxosNode.start conf n.storage).handler.step ↔ n.storage.NoBlock) := by
  have hinv := restartInv_of_reachable hn
  exact ⟨hinv.chain.valid, fun _ => hinv.chain.valid.count.symm, hinv.chain.restart_iff⟩

/-- A node is started twice before it decides two blocks. -/
theorem chain_valid_across_restarts_of_two :
    ∃ n : PaxosNode, ValidChain n.storage n.handler.step ∧ n.handler.step = 2 := by
  obtain ⟨n, hn, hstep⟩ := TransitionSystem.exists_of_replay
    (S := restartSystem Unit sha256 (.majority 1 1)) (KeepsChain sha256)
    [.restart, .message (.accept ⟨0, 1, ⟨"1", "file", "a"⟩⟩),
      .message (.accept ⟨1, 1, ⟨"2", "file", "b"⟩⟩)]
    (fun n => n.handler.step = 2) (by decide +kernel)
  exact ⟨n, (chain_valid_across_restarts sha256 _ n hn).1, hstep⟩

/-- A node decides one block and is started again: its step is 0, and the walk
visits a block. -/
theorem restart_forgets_step :
    ∃ n, (restartSystem Unit sha256 (.majority 1 1)).Reachable n ∧
      ¬ ValidChain n.storage n.handler.step ∧
      ∀ v, (n.buildBlock sha256 v).1.index ≠ n.storage.blockCount := by
  obtain ⟨n, hn, hstep, hlast, hcount⟩ := TransitionSystem.exists_of_replay
    (S := restartSystem Unit sha256 (.majority 1 1)) (fun _ _ => True)
    [.message (.accept ⟨0, 1, ⟨"1", "file", "a"⟩⟩), .restart]
    (fun n => n.handler.step = 0 ∧ n.storage.lastBlock ≠ zeroHash ∧
      n.storage.blockCount = 1) (by decide +kernel)
  refine ⟨n, hn, fun hvalid => ?_, fun v => ?_⟩
  · obtain ⟨bs, hwalk, hindexes⟩ := hvalid.walk
    rw [hstep] at hindexes
    have hnil : bs = [] := List.map_eq_nil_iff.mp hindexes
    rw [hnil] at hwalk
    generalize n.storage.lastBlock = last at hwalk hlast
    cases hwalk
    exact hlast rfl
  · change n.handler.step ≠ n.storage.blockCount
    rw [hstep, hcount]
    decide

end Minotor
