import Minotor.Peer.Chain
import Minotor.Wire.Messages

/-!
# The page of the blockchain

The page which shows the blockchain of a node reads the hash of the last block and then each
block under the hash which the one after it names.  A node which has handled messages of one
chain shows all blocks below its step, the last one first.
-/

namespace Minotor.Wire

/-- A block with the number of bits which the program has for its index. -/
def BlockchainBlock.ofBlock (b : Minotor.BlockchainBlock) : BlockchainBlock where
  index := UInt64.ofNat b.index
  hash := some b.hash
  value := ⟨b.value.uniqID, b.value.filename, b.value.metahash⟩
  prevHash := some b.prevHash

/-- What the blockchain store holds: the text of a block, or a hash. -/
def entryBytes : ChainEntry → Bytes
  | .block b => (blockchainBlock.marshal (.ofBlock b)).getD []
  | .hash h => h

/-- `Get` of the blockchain store; a key which is not there has no bytes. -/
def getBytes (s : Storage) (key : String) : Bytes :=
  ((s.blockchain.get key).map entryBytes).getD []

structure ViewBlock where
  index : UInt64
  hash : String
  valueID : String
  name : String
  metahash : String
  prevHash : String
deriving DecidableEq

def viewBlock (b : BlockchainBlock) : ViewBlock where
  index := b.index
  hash := hexEncode (b.hash.getD [])
  valueID := b.value.uniqID
  name := b.value.filename
  metahash := b.value.metahash
  prevHash := hexEncode (b.prevHash.getD [])

/-- The hash before that of the first block. -/
def endBlockHashHex : String := hexEncode (List.replicate 32 0)

/-- The loop of `blockchainGet`, as long as there is fuel. -/
def readBlocks (s : Storage) :
    ℕ → String → List ViewBlock → Option (Except String (List ViewBlock))
  | 0, lastBlockHashHex, blocks =>
      if lastBlockHashHex = endBlockHashHex then some (.ok blocks) else none
  | fuel + 1, lastBlockHashHex, blocks =>
      if lastBlockHashHex = endBlockHashHex then some (.ok blocks)
      else
        match blockchainBlock.unmarshal (getBytes s lastBlockHashHex) with
        | none => some (.error "failed to unmarshal block")
        | some lastBlock =>
            readBlocks s fuel (hexEncode (lastBlock.prevHash.getD []))
              (blocks ++ [viewBlock lastBlock])

/-- `blockchainGet`. -/
def blockchainGet (s : Storage) (fuel : ℕ) : Option (Except String (List ViewBlock)) :=
  let lastBlockHashHex := hexEncode (getBytes s lastBlockKey)
  readBlocks s fuel (if lastBlockHashHex = "" then endBlockHashHex else lastBlockHashHex) []

/-! ## Reading the chain -/

theorem endBlockHashHex_eq : endBlockHashHex = lastBlockKey := by decide +kernel

theorem canonical_blockchainBlock (b : BlockchainBlock) : blockchainBlock.Canonical b :=
  ⟨trivial, trivial, ⟨trivial, trivial, trivial, trivial⟩, trivial, trivial⟩

/-- A block is read back from what is stored of it. -/
theorem unmarshal_entryBytes (b : Minotor.BlockchainBlock) :
    blockchainBlock.unmarshal (entryBytes (.block b)) = some (.ofBlock b) := by
  obtain ⟨j, -, hmarshal, hunmarshal⟩ :=
    blockchainBlock.unmarshal_marshal (canonical_blockchainBlock (.ofBlock b))
  rw [entryBytes, hmarshal, Option.getD_some, hunmarshal]

section

variable {sha256 : Bytes → Bytes} {v : ℕ → Minotor.PaxosValue} {s : Storage} {k : ℕ}

/-- What the page shows of a block of the chain. -/
def chainView (sha256 : Bytes → Bytes) (v : ℕ → Minotor.PaxosValue) (i : ℕ) : ViewBlock :=
  viewBlock (.ofBlock (chainBlock sha256 v i))

/-- The key under which the loop looks when the blocks from `i` on have been read. -/
def keyBefore (sha256 : Bytes → Bytes) (v : ℕ → Minotor.PaxosValue) : ℕ → String
  | 0 => endBlockHashHex
  | i + 1 => hexEncode (chainBlock sha256 v i).hash

theorem prevHash_chainBlock (i : ℕ) :
    hexEncode (chainBlock sha256 v i).prevHash = keyBefore sha256 v i := by
  cases i with
  | zero => rfl
  | succ i => rfl

/-- The loop reads the blocks below `i`, which are in the store. -/
theorem readBlocks_chain (hdistinct : DistinctHashes sha256 v k) (hs : HoldsChain sha256 v k s)
    {i fuel : ℕ} (hi : i ≤ k) (hfuel : i ≤ fuel) (blocks : List ViewBlock) :
    readBlocks s fuel (keyBefore sha256 v i) blocks =
      some (.ok (blocks ++ (List.range i).reverse.map (chainView sha256 v))) := by
  induction i generalizing fuel blocks with
  | zero =>
      rw [List.range_zero, List.reverse_nil, List.map_nil, List.append_nil]
      cases fuel with
      | zero => exact if_pos rfl
      | succ fuel => exact if_pos rfl
  | succ i ih =>
      obtain ⟨fuel, rfl⟩ := Nat.exists_eq_add_of_le' hfuel
      have hne : keyBefore sha256 v (i + 1) ≠ endBlockHashHex := by
        rw [endBlockHashHex_eq]
        exact hdistinct.ne_lastBlockKey i hi
      have hget : getBytes s (keyBefore sha256 v (i + 1)) =
          entryBytes (.block (chainBlock sha256 v i)) := by
        rw [getBytes, keyBefore, hs.block i hi, Option.map_some, Option.getD_some]
      rw [← Nat.add_assoc, readBlocks, if_neg hne, hget, unmarshal_entryBytes]
      dsimp only [BlockchainBlock.ofBlock]
      rw [Option.getD_some, prevHash_chainBlock,
        ih (Nat.le_of_succ_le hi) (Nat.le_add_left i fuel), List.append_assoc, List.range_succ,
        List.reverse_append, List.map_append]
      rfl

theorem blockchainGet_chain (hdistinct : DistinctHashes sha256 v k)
    (hs : HoldsChain sha256 v k s) {fuel : ℕ} (hfuel : k ≤ fuel)
    (hempty : ∀ i < k, (chainBlock sha256 v i).hash ≠ []) :
    blockchainGet s fuel = some (.ok ((List.range k).reverse.map (chainView sha256 v))) := by
  have hkey : (if hexEncode (getBytes s lastBlockKey) = "" then endBlockHashHex
      else hexEncode (getBytes s lastBlockKey)) = keyBefore sha256 v k := by
    have hlast := hs.last
    cases k with
    | zero =>
        rw [if_pos rfl] at hlast
        rw [getBytes, hlast, if_pos (by decide +kernel)]
        rfl
    | succ k =>
        rw [if_neg (Nat.succ_ne_zero k), Nat.add_sub_cancel] at hlast
        rw [getBytes, hlast, Option.map_some, Option.getD_some, entryBytes, if_neg]
        · rfl
        · intro hnil
          apply hempty k (Nat.lt_succ_self k)
          exact hexEncode_injective hnil
  rw [blockchainGet, hkey, readBlocks_chain hdistinct hs le_rfl hfuel, List.nil_append]

end

/-- For every threshold and every sequence of messages of one chain, the page of a node at step
`k` shows the blocks below `k`, the last one first. -/
theorem page_shows_chain {P : Type*} (sha256 : Bytes → Bytes) (conf : Configuration)
    (v : ℕ → Minotor.PaxosValue) (msgs : List (AcceptorMessage P))
    (hmsgs : ∀ msg ∈ msgs, FromChain sha256 v msg) (k : ℕ)
    (hstep : ((PaxosNode.new conf).handleAll sha256 conf msgs).handler.step = k)
    (hdistinct : DistinctHashes sha256 v k)
    (hempty : ∀ i < k, (chainBlock sha256 v i).hash ≠ []) {fuel : ℕ} (hfuel : k ≤ fuel) :
    blockchainGet ((PaxosNode.new conf).handleAll sha256 conf msgs).storage fuel =
      some (.ok ((List.range k).reverse.map (chainView sha256 v))) := by
  have hfollows := (followsChain_new sha256 conf v).handleAll hmsgs
  rw [hfollows.storage, hstep]
  exact blockchainGet_chain hdistinct (holdsChain_chainStorage hdistinct) hfuel hempty

/-- The page of a node with two blocks. -/
theorem page_shows_chain_of_two :
    let v : ℕ → Minotor.PaxosValue := fun i => ⟨toString i, "file", toString i⟩
    blockchainGet ((PaxosNode.new (.majority 2 1)).handleAll Minotor.sha256 (.majority 2 1)
        [.prepare ⟨0, 1, ()⟩, .accept ⟨0, 1, v 0⟩, .accept ⟨0, 1, v 0⟩,
          .tlc ⟨1, chainBlock Minotor.sha256 v 1⟩, .tlc ⟨1, chainBlock Minotor.sha256 v 1⟩]).storage
      2 = some (.ok [chainView Minotor.sha256 v 1, chainView Minotor.sha256 v 0]) := by
  intro v
  refine page_shows_chain Minotor.sha256 (.majority 2 1) v _ ?_ 2 (by decide +kernel) ?_
    (by decide +kernel) le_rfl
  · simp [FromChain]
  · exact ⟨by decide +kernel, by decide +kernel⟩

end Minotor.Wire
