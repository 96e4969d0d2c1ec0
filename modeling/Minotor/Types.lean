import Minotor.Support.Digest

/-!
# Messages of the consensus layer

The message types of `types/consensus_def.go`, with the private message in
which promises travel.  Peer addresses are an arbitrary type.  Unsigned
counters are natural numbers.
-/

namespace Minotor

/-- `types.PaxosValue`: the value on which Paxos makes a consensus. -/
structure PaxosValue where
  uniqID : String
  filename : String
  metahash : String
deriving DecidableEq, Repr

/-- The zero value `types.PaxosValue{}`. -/
def PaxosValue.empty : PaxosValue := ⟨"", "", ""⟩

theorem PaxosValue.ne_empty_of_uniqID {v : PaxosValue} (h : v.uniqID ≠ "") :
    v ≠ PaxosValue.empty := by
  rintro rfl
  exact h rfl

/-- `types.BlockchainBlock`. -/
structure BlockchainBlock where
  index : ℕ
  hash : Bytes
  value : PaxosValue
  prevHash : Bytes
deriving DecidableEq, Repr

/-- `types.PaxosPrepareMessage`. -/
structure PaxosPrepareMessage (P : Type*) where
  step : ℕ
  id : ℕ
  source : P
deriving DecidableEq, Repr

/-- `types.PaxosPromiseMessage`. -/
structure PaxosPromiseMessage where
  step : ℕ
  id : ℕ
  acceptedID : ℕ
  acceptedValue : Option PaxosValue
deriving DecidableEq, Repr

/-- `types.PaxosProposeMessage`. -/
structure PaxosProposeMessage where
  step : ℕ
  id : ℕ
  value : PaxosValue
deriving DecidableEq, Repr

/-- `types.PaxosAcceptMessage`. -/
structure PaxosAcceptMessage where
  step : ℕ
  id : ℕ
  value : PaxosValue
deriving DecidableEq, Repr

/-- `types.TLCMessage`. -/
structure TLCMessage where
  step : ℕ
  block : BlockchainBlock
deriving DecidableEq, Repr

/-- The messages of the consensus layer as they are broadcast.  A promise is
wrapped in a `types.PrivateMessage` with one recipient. -/
inductive Message (P : Type*) where
  | prepare (msg : PaxosPrepareMessage P)
  | promise (recipient : P) (msg : PaxosPromiseMessage)
  | propose (msg : PaxosProposeMessage)
  | accept (msg : PaxosAcceptMessage)
  | tlc (msg : TLCMessage)
deriving DecidableEq, Repr

/-- `types.Rumor`. -/
structure Rumor (P : Type*) where
  origin : P
  sequence : ℕ
  msg : Message P
deriving DecidableEq, Repr

end Minotor
