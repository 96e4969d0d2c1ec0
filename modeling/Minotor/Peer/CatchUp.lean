import Minotor.Peer.Handler
import Mathlib.Data.List.Basic
import Mathlib.Tactic

/-!
# Finishing a step

One description of what storing a decided block does: the block is stored,
then one buffered block for every following step which has a full buffer, and
the handler is cleared at the first step which has not.  Later modules use
these lemmas and never unfold the loop.
-/

namespace Minotor

/-- Store blocks in order. -/
def storeBlocks (bs : List BlockchainBlock) (s : Storage) : Storage :=
  bs.foldl (fun s b => storeBlock b s) s

@[simp] theorem storeBlocks_nil (s : Storage) : storeBlocks [] s = s := rfl

@[simp] theorem storeBlocks_cons (b : BlockchainBlock)
    (bs : List BlockchainBlock) (s : Storage) :
    storeBlocks (b :: bs) s = storeBlocks bs (storeBlock b s) := rfl

theorem storeBlocks_append (bs cs : List BlockchainBlock) (s : Storage) :
    storeBlocks (bs ++ cs) s = storeBlocks cs (storeBlocks bs s) :=
  List.foldl_append

/-- After a block is stored, its hash is the previous hash for the next one. -/
theorem lastBlock_storeBlock (b : BlockchainBlock) (s : Storage) :
    (storeBlock b s).lastBlock = b.hash := by
  simp [Storage.lastBlock, storeBlock]

@[simp] theorem lastBlock_new : Storage.new.lastBlock = zeroHash := by
  simp [Storage.lastBlock, Storage.new]

theorem TLCMap.mem_at {m : TLCMap} {step : ℕ} {msg : TLCMessage} :
    msg ∈ m.at step ↔ msg ∈ m ∧ msg.step = step := by
  simp [TLCMap.at]

/-- `bs` are buffered blocks for consecutive steps from `step` on, each of a
step with a full buffer. -/
structure CaughtUp (m : TLCMap) (threshold step : ℕ)
    (bs : List BlockchainBlock) : Prop where
  buffered : ∀ i b, bs[i]? = some b → ∃ msg ∈ m.at (step + i), msg.block = b
  full : ∀ i < bs.length, threshold ≤ (m.at (step + i)).length

theorem CaughtUp.nil (m : TLCMap) (threshold step : ℕ) :
    CaughtUp m threshold step [] where
  buffered := by simp
  full := by simp

theorem CaughtUp.cons {m : TLCMap} {threshold step : ℕ} {msg : TLCMessage}
    {bs : List BlockchainBlock} (hmsg : msg ∈ m.at step)
    (hfull : threshold ≤ (m.at step).length)
    (h : CaughtUp m threshold (step + 1) bs) :
    CaughtUp m threshold step (msg.block :: bs) where
  buffered := by
    intro i b hb
    cases i with
    | zero => exact ⟨msg, hmsg, by simpa using hb⟩
    | succ i =>
        obtain ⟨msg', hmem, hblock⟩ := h.buffered i b (by simpa using hb)
        exact ⟨msg', by rwa [show step + 1 + i = step + (i + 1) by omega] at hmem, hblock⟩
  full := by
    intro i hi
    cases i with
    | zero => exact hfull
    | succ i =>
        rw [show step + (i + 1) = step + 1 + i by omega]
        exact h.full i (by simpa using hi)

/-- The blocks which the loop of `catchUp` stores from `step` on: of every step
with a full buffer the block of the message which filled it. -/
def TLCMap.blocksFrom (m : TLCMap) (threshold : ℕ) : ℕ → ℕ → List BlockchainBlock
  | 0, _ => []
  | fuel + 1, step =>
      if threshold ≤ (m.at step).length then
        match (m.at step)[threshold - 1]? with
        | some msg => msg.block :: m.blocksFrom threshold fuel (step + 1)
        | none => []
      else []

/-- Moving past a step with a buffered message leaves fewer messages ahead. -/
theorem ahead_length_lt {m : TLCMap} {step : ℕ} {msg : TLCMessage}
    (hmsg : msg ∈ m.at step) :
    (m.filter fun x => step + 1 ≤ x.step).length <
      (m.filter fun x => step ≤ x.step).length := by
  rw [TLCMap.mem_at] at hmsg
  have hsub : (m.filter fun x => step + 1 ≤ x.step).Sublist
      (m.filter fun x => step ≤ x.step) := by
    apply List.monotone_filter_right
    intro x hx
    simp only [decide_eq_true_eq] at hx ⊢
    omega
  refine lt_of_le_of_ne hsub.length_le fun heq => ?_
  have hmem : msg ∈ m.filter fun x => step + 1 ≤ x.step := by
    rw [hsub.eq_of_length heq, List.mem_filter]
    exact ⟨hmsg.1, by simp [hmsg.2]⟩
  rw [List.mem_filter, decide_eq_true_eq, hmsg.2] at hmem
  omega

/-- With fuel for all messages ahead, the loop catches up to the first step whose
buffer is not full. -/
theorem caughtUp_blocksFrom {m : TLCMap} {threshold : ℕ} (hT : 1 ≤ threshold) (fuel : ℕ) :
    ∀ step, (m.filter fun x => step ≤ x.step).length ≤ fuel →
      CaughtUp m threshold step (m.blocksFrom threshold fuel step) ∧
        (m.at (step + (m.blocksFrom threshold fuel step).length)).length < threshold := by
  induction fuel with
  | zero =>
      intro step hfuel
      have hnone : m.at step = [] := by
        rw [List.eq_nil_iff_forall_not_mem]
        intro msg hmsg
        have hlt := ahead_length_lt hmsg
        omega
      refine ⟨.nil _ _ _, ?_⟩
      simp only [TLCMap.blocksFrom, List.length_nil, Nat.add_zero, hnone]
      omega
  | succ fuel ih =>
      intro step hfuel
      rw [TLCMap.blocksFrom]
      by_cases hfull : threshold ≤ (m.at step).length
      · have hlt : threshold - 1 < (m.at step).length := by omega
        have hmem := List.getElem_mem hlt
        rw [if_pos hfull, List.getElem?_eq_getElem hlt]
        have hahead := ahead_length_lt hmem
        obtain ⟨hbs, hstop⟩ := ih (step + 1) (by omega)
        refine ⟨hbs.cons hmem hfull, ?_⟩
        rwa [List.length_cons, Nat.add_comm _ 1, ← Nat.add_assoc]
      · rw [if_neg hfull]
        exact ⟨.nil _ _ _, Nat.not_le.mp hfull⟩

namespace PaxosHandler

/-- The handler after it has left its step for `step`, with `v` decided. -/
def advance (conf : Configuration) (h : PaxosHandler) (step : ℕ)
    (v : PaxosValue) : PaxosHandler :=
  { h with step := step, finalValue := v }.clearInstance conf

section

variable (conf : Configuration) (h : PaxosHandler) (step : ℕ) (v : PaxosValue)

@[simp] theorem advance_locked : (h.advance conf step v).locked = h.locked := rfl

@[simp] theorem advance_running : (h.advance conf step v).running = false := rfl

@[simp] theorem advance_step : (h.advance conf step v).step = step := rfl

@[simp] theorem advance_maxID : (h.advance conf step v).maxID = 0 := rfl

@[simp] theorem advance_bestID : (h.advance conf step v).bestID = 0 := rfl

@[simp] theorem advance_acceptedID : (h.advance conf step v).acceptedID = 0 := rfl

@[simp] theorem advance_promises : (h.advance conf step v).promises = 0 := rfl

@[simp] theorem advance_currentPhase :
    (h.advance conf step v).currentPhase = .phase1 := rfl

@[simp] theorem advance_paxosID :
    (h.advance conf step v).paxosID = conf.paxosID := rfl

@[simp] theorem advance_nPeers :
    (h.advance conf step v).nPeers = conf.totalPeers := rfl

@[simp] theorem advance_threshold :
    (h.advance conf step v).threshold = conf.threshold := rfl

@[simp] theorem advance_bestValue : (h.advance conf step v).bestValue = .empty := rfl

@[simp] theorem advance_acceptedValue :
    (h.advance conf step v).acceptedValue = .empty := rfl

@[simp] theorem advance_proposedValue :
    (h.advance conf step v).proposedValue = .empty := rfl

@[simp] theorem advance_finalValue : (h.advance conf step v).finalValue = v := rfl

@[simp] theorem advance_acceptedValues :
    (h.advance conf step v).acceptedValues = fun _ => 0 := rfl

@[simp] theorem advance_tlcMap : (h.advance conf step v).tlcMap = [] := rfl

@[simp] theorem advance_promiseChannel :
    (h.advance conf step v).promiseChannel = h.promiseChannel + 1 := rfl

@[simp] theorem advance_valueChannel :
    (h.advance conf step v).valueChannel = h.valueChannel + 1 := rfl

@[simp] theorem advance_instanceChannel :
    (h.advance conf step v).instanceChannel = h.instanceChannel + 1 := rfl

theorem advance_promiseChans :
    (h.advance conf step v).promiseChans =
      Function.update h.promiseChans (h.promiseChannel + 1) (Chan.make 1) := rfl

theorem advance_valueChans :
    (h.advance conf step v).valueChans =
      Function.update
        (Function.update h.valueChans h.valueChannel
          (((h.valueChans h.valueChannel).send v h.valueReady).close h.valueReady.1))
        (h.valueChannel + 1) (Chan.make 1) := rfl

theorem advance_instanceChans :
    (h.advance conf step v).instanceChans =
      Function.update
        (Function.update h.instanceChans h.instanceChannel
          ((h.instanceChans h.instanceChannel).close h.instanceOpen))
        (h.instanceChannel + 1) (Chan.make 0) := rfl

end

end PaxosHandler

namespace PaxosNode

/-- The loop of `catchUp` stores the blocks of the buffer and moves past their
steps. -/
theorem catchUpLoop_eq (fuel : ℕ) : ∀ n : PaxosNode,
    n.catchUpLoop fuel =
      { handler := { n.handler with step := n.handler.step +
          (n.handler.tlcMap.blocksFrom n.handler.threshold fuel n.handler.step).length }
        storage := storeBlocks
          (n.handler.tlcMap.blocksFrom n.handler.threshold fuel n.handler.step) n.storage } := by
  induction fuel with
  | zero => exact fun n => rfl
  | succ fuel ih =>
      intro n
      rw [catchUpLoop, TLCMap.blocksFrom]
      by_cases hfull : n.handler.threshold ≤ (n.handler.tlcMap.at n.handler.step).length
      · rw [if_pos hfull, if_pos hfull]
        cases hget : (n.handler.tlcMap.at n.handler.step)[n.handler.threshold - 1]? with
        | none => rfl
        | some msg =>
            simp only [ih, List.length_cons, storeBlocks_cons, PaxosNode.mk.injEq, and_true]
            rw [Nat.add_right_comm, Nat.add_assoc]
      · rw [if_neg hfull, if_neg hfull]
        rfl

/-- The effect of leaving a step with a decided block: the block and the blocks
caught up with are stored, and the handler is at the first step whose buffer is
not full. -/
structure LeavesStep (conf : Configuration) (n : PaxosNode) (m : TLCMap)
    (block : BlockchainBlock) (bs : List BlockchainBlock) (n' : PaxosNode) :
    Prop where
  blocks : bs = m.blocksFrom n.handler.threshold m.length (n.handler.step + 1)
  caughtUp : CaughtUp m n.handler.threshold (n.handler.step + 1) bs
  stopped : (m.at (n.handler.step + 1 + bs.length)).length < n.handler.threshold
  handler : n'.handler =
    n.handler.advance conf (n.handler.step + 1 + bs.length) block.value
  storage : n'.storage = storeBlocks (block :: bs) n.storage

theorem finishStep_spec (conf : Configuration) {n : PaxosNode}
    (block : BlockchainBlock) (hT : 1 ≤ n.handler.threshold)
    (hfinal : n.handler.finalValue = block.value) :
    ∃ bs, n.LeavesStep conf n.handler.tlcMap block bs (n.finishStep conf block) := by
  obtain ⟨hcaught, hstop⟩ := caughtUp_blocksFrom (m := n.handler.tlcMap) hT
    n.handler.tlcMap.length (n.handler.step + 1) (List.length_filter_le _ _)
  refine ⟨_, rfl, hcaught, hstop, ?_, ?_⟩
  · simp only [finishStep, catchUp, catchUpLoop_eq, PaxosHandler.advance, ← hfinal]
  · simp only [finishStep, catchUp, catchUpLoop_eq, storeBlocks_cons]

/-- What `respondToAcceptMsg` can do: ignore the message, count it, or decide
its value. -/
theorem respondToAcceptMsg_cases (sha256 : Bytes → Bytes) (conf : Configuration)
    (n : PaxosNode) (msg : PaxosAcceptMessage) (hT : 1 ≤ n.handler.threshold) :
    (n.handler.step ≠ msg.step ∧
      n.respondToAcceptMsg sha256 conf msg = (none, n)) ∨
    (n.handler.step = msg.step ∧
      n.handler.acceptedValues msg.value + 1 < n.handler.threshold ∧
      n.respondToAcceptMsg sha256 conf msg =
        (none, { n with handler := { n.handler with
          running := true
          acceptedValues := Function.update n.handler.acceptedValues msg.value
            (n.handler.acceptedValues msg.value + 1) } })) ∨
    (n.handler.step = msg.step ∧
      n.handler.threshold ≤ n.handler.acceptedValues msg.value + 1 ∧
      ∃ bs n',
        n.LeavesStep conf n.handler.tlcMap
          (mkBlock sha256 n.handler.step msg.value n.storage.lastBlock) bs n' ∧
        n.respondToAcceptMsg sha256 conf msg =
          (some { step := n.handler.step
                  block := mkBlock sha256 n.handler.step msg.value n.storage.lastBlock },
            n')) := by
  by_cases hstep : n.handler.step = msg.step
  · by_cases hfull : n.handler.threshold ≤ n.handler.acceptedValues msg.value + 1
    · right; right
      obtain ⟨bs, hleave⟩ := finishStep_spec conf
        (n := { n with handler := { n.handler with
          running := true
          acceptedValues := Function.update n.handler.acceptedValues msg.value
            (n.handler.acceptedValues msg.value + 1)
          finalValue := msg.value } })
        (mkBlock sha256 n.handler.step msg.value n.storage.lastBlock) hT rfl
      refine ⟨hstep, hfull, bs, _,
        ⟨hleave.blocks, hleave.caughtUp, hleave.stopped, hleave.handler, hleave.storage⟩, ?_⟩
      simp [respondToAcceptMsg, hstep, hfull, buildBlock]
    · right; left
      refine ⟨hstep, by omega, ?_⟩
      simp [respondToAcceptMsg, hstep, hfull]
  · left
    exact ⟨hstep, by simp [respondToAcceptMsg, hstep]⟩

/-- What `respondToTLCMsg` can do: ignore a message of an earlier step, buffer
it, or decide its block. -/
theorem respondToTLCMsg_cases (conf : Configuration) (n : PaxosNode)
    (msg : TLCMessage) (hT : 1 ≤ n.handler.threshold) :
    (msg.step < n.handler.step ∧ n.respondToTLCMsg conf msg = (true, n)) ∨
    (n.handler.step ≤ msg.step ∧
      (msg.step = n.handler.step →
        ((n.handler.tlcMap ++ [msg] : TLCMap).at msg.step).length <
          n.handler.threshold) ∧
      n.respondToTLCMsg conf msg =
        (true, { n with handler := { n.handler with
          running := if msg.step = n.handler.step then true else n.handler.running
          tlcMap := n.handler.tlcMap ++ [msg] } })) ∨
    (msg.step = n.handler.step ∧
      n.handler.threshold ≤
        ((n.handler.tlcMap ++ [msg] : TLCMap).at msg.step).length ∧
      ∃ bs n',
        n.LeavesStep conf (n.handler.tlcMap ++ [msg]) msg.block bs n' ∧
        n.respondToTLCMsg conf msg = (false, n')) := by
  by_cases hlt : msg.step < n.handler.step
  · left
    exact ⟨hlt, by simp [respondToTLCMsg, hlt]⟩
  · by_cases hstep : msg.step = n.handler.step
    · by_cases hfull : n.handler.threshold ≤
          ((n.handler.tlcMap ++ [msg] : TLCMap).at msg.step).length
      · right; right
        obtain ⟨bs, hleave⟩ := finishStep_spec conf
          (n := { n with handler := { n.handler with
            running := true
            tlcMap := n.handler.tlcMap ++ [msg]
            finalValue := msg.block.value } })
          msg.block hT rfl
        refine ⟨hstep, hfull, bs, _,
          ⟨hleave.blocks, hleave.caughtUp, hleave.stopped, hleave.handler, hleave.storage⟩, ?_⟩
        rw [hstep] at hfull
        simp [respondToTLCMsg, hstep, hfull]
      · right; left
        refine ⟨by omega, fun _ => by omega, ?_⟩
        rw [hstep] at hfull
        simp [respondToTLCMsg, hstep, hfull]
    · right; left
      refine ⟨by omega, fun h => absurd h hstep, ?_⟩
      simp [respondToTLCMsg, hlt, hstep]

end PaxosNode
end Minotor
