import Minotor.Peer.Responses
import Mathlib.Data.List.Infix

/-!
# At most one TLC message per step

`respondToAcceptMsg` and `respondToTLCMsg` decide on their own whether a TLC
message is broadcast.  Both do so only when the node leaves its step, so no step
is announced twice, whatever steps are skipped by catching up.
-/

namespace Minotor

variable {P : Type*}

/-- The steps of the TLC messages which are broadcast, in order. -/
def tlcSteps (log : List (ℕ × Response)) : List ℕ :=
  log.filterMap fun
    | (_, .tlc msg) => some msg.step
    | _ => none

theorem tlcSteps_append (log log' : List (ℕ × Response)) :
    tlcSteps (log ++ log') = tlcSteps log ++ tlcSteps log' :=
  List.filterMap_append

/-- With the broadcast of `t` the node stores the block of `t`, which is the block
of its step, and then the blocks of the steps it catches up with. -/
structure StoresWithBroadcast (n : PaxosNode) (t : TLCMessage) (n' : PaxosNode) :
    Prop where
  step : t.step = n.handler.step
  stores : ∃ m bs, (m = n.handler.tlcMap ∨ m = n.handler.tlcMap ++ [t]) ∧
    CaughtUp m n.handler.threshold (t.step + 1) bs ∧
    n'.storage = storeBlocks bs (storeBlock t.block n.storage) ∧
    n'.handler.step = t.step + 1 + bs.length

section

variable {sha256 : Bytes → Bytes} {conf : Configuration} {n n' : PaxosNode}
  {msg : AcceptorMessage P} {o : Option Response} {log : List (ℕ × Response)}

theorem PaxosNode.LeavesStep.storesWithBroadcast {m : TLCMap} {t : TLCMessage}
    {bs : List BlockchainBlock} (hleave : n.LeavesStep conf m t.block bs n')
    (hstep : t.step = n.handler.step)
    (hm : m = n.handler.tlcMap ∨ m = n.handler.tlcMap ++ [t]) :
    StoresWithBroadcast n t n' := by
  refine ⟨hstep, m, bs, hm, hstep ▸ hleave.caughtUp, hleave.storage, ?_⟩
  rw [hleave.handler, PaxosHandler.advance_step, hstep]

theorem PaxosNode.Responds.storesWithBroadcast {t : TLCMessage}
    (h : PaxosNode.Responds sha256 conf n msg (some (.tlc t)) n') :
    StoresWithBroadcast n t n' := by
  cases h with
  | decided msg bs n' hstep hfull hleave => exact hleave.storesWithBroadcast rfl (.inl rfl)
  | finished msg bs n' hstep hfull hleave =>
      exact hleave.storesWithBroadcast hstep (.inr rfl)

/-- The announced steps increase and lie below the step of the node. -/
structure AnnouncedBelow (log : List (ℕ × Response)) (n : PaxosNode) : Prop where
  increasing : (tlcSteps log).Pairwise (· < ·)
  below : ∀ s ∈ tlcSteps log, s < n.handler.step

theorem announcedBelow_nil (n : PaxosNode) : AnnouncedBelow [] n where
  increasing := .nil
  below := nofun

theorem AnnouncedBelow.responds (hresp : PaxosNode.Responds sha256 conf n msg o n')
    (h : AnnouncedBelow log n) :
    AnnouncedBelow (log ++ (o.map fun r => (n.handler.step, r)).toList) n' := by
  by_cases ho : ∃ t, o = some (.tlc t)
  · obtain ⟨t, rfl⟩ := ho
    obtain ⟨hstep, m, bs, hleave⟩ := hresp.leaves
    have hlog : tlcSteps (log ++ [(n.handler.step, .tlc t)]) =
        tlcSteps log ++ [n.handler.step] := by
      rw [tlcSteps_append, ← hstep]
      rfl
    constructor
    · rw [Option.map_some, Option.toList_some, hlog, List.pairwise_append]
      refine ⟨h.increasing, List.pairwise_singleton _ _, ?_⟩
      intro s hs s' hs'
      rw [List.mem_singleton.mp hs']
      exact h.below s hs
    · rw [Option.map_some, Option.toList_some, hlog, List.forall_mem_append,
        List.forall_mem_singleton]
      exact ⟨fun s hs => (h.below s hs).trans hleave.step_lt, hleave.step_lt⟩
  · have hlog : tlcSteps (log ++ (o.map fun r => (n.handler.step, r)).toList) =
        tlcSteps log := by
      rw [tlcSteps_append]
      rcases o with - | (promise | accept | t)
      · exact List.append_nil _
      · exact List.append_nil _
      · exact List.append_nil _
      · exact absurd ⟨t, rfl⟩ ho
    have hstays := hresp.stays fun t ht => ho ⟨t, ht⟩
    constructor
    · rw [hlog]
      exact h.increasing
    · rw [hlog, hstays.1]
      exact h.below

end

/-- For every threshold and every sequence of messages which a node handles, the
steps of the TLC messages it broadcasts are strictly increasing, and each of
them goes with storing the block of its step right before catching up. -/
theorem tlc_broadcast_once (sha256 : Bytes → Bytes) (conf : Configuration) (s : Storage)
    (msgs : List (AcceptorMessage P)) :
    (tlcSteps ((PaxosNode.start conf s).log sha256 conf msgs)).Pairwise (· < ·) ∧
      ∀ pre msg t, pre ++ [msg] <+: msgs →
        (((PaxosNode.start conf s).after sha256 conf pre).respond sha256 conf msg).2 =
          some (.tlc t) →
        StoresWithBroadcast ((PaxosNode.start conf s).after sha256 conf pre) t
          ((PaxosNode.start conf s).after sha256 conf (pre ++ [msg])) := by
  constructor
  · have hinv : AnnouncedBelow ((PaxosNode.start conf s).log sha256 conf msgs)
        ((PaxosNode.start conf s).after sha256 conf msgs) :=
      PaxosNode.log_invariant (fun _ _ _ _ _ hresp h => h.responds hresp) rfl
        (announcedBelow_nil _) msgs
    exact hinv.increasing
  · intro pre msg t _ ho
    have hT : ((PaxosNode.start conf s).after sha256 conf pre).handler.threshold =
        conf.threshold :=
      PaxosNode.after_threshold rfl pre
    have hresp : PaxosNode.Responds sha256 conf
        ((PaxosNode.start conf s).after sha256 conf pre) msg _ _ :=
      PaxosNode.respond_responds (hT ▸ conf.one_le_threshold) msg
    rw [ho] at hresp
    rw [PaxosNode.after_append]
    exact hresp.storesWithBroadcast

end Minotor
