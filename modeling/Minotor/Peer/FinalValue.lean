import Minotor.Peer.TlcBroadcast

/-!
# The final value reaches the waiting proposer

A proposer takes the current value channel and waits on it while the node goes on
handling messages.  `clearInstance` sends the final value on that channel, closes
it and makes a new one, once for every time the node leaves a step; so what the
proposer is sent is the value of the block stored when its step was left.
-/

namespace Minotor

variable {P : Type*}

/-- A message is handled, or a proposer receives from the value channel `ch`. -/
inductive ChannelEvent (P : Type*) where
  | message (msg : AcceptorMessage P)
  | receive (ch : ℕ)

namespace PaxosNode

/-- `<-valueChannel` by a proposer, and the value it took off the channel.  The
zero value of a drained closed channel is not on the channel, and a proposer for
whom there is nothing goes on waiting. -/
def receive (n : PaxosNode) (ch : ℕ) : PaxosNode × Option PaxosValue :=
  match n.handler.recvValue ch with
  | some (_, h) => ({ n with handler := h }, (n.handler.valueChans ch).buf.head?)
  | none => (n, none)

/-- The node together with the proposers that wait on it; a value is logged with
the channel it was received from. -/
def withProposers (P : Type*) (sha256 : Bytes → Bytes) (conf : Configuration) :
    Service PaxosNode (ChannelEvent P) (Option (ℕ × PaxosValue)) where
  call n
    | .message msg => ((n.respond sha256 conf msg).1, none)
    | .receive ch => ((n.receive ch).1, (n.receive ch).2.map fun v => (ch, v))

/-- The node after a sequence of events. -/
abbrev afterEvents (sha256 : Bytes → Bytes) (conf : Configuration) (n : PaxosNode)
    (evs : List (ChannelEvent P)) : PaxosNode :=
  (withProposers P sha256 conf).after n evs

/-- The values received from the channel `ch`, in order. -/
def received (sha256 : Bytes → Bytes) (conf : Configuration) (n : PaxosNode) (ch : ℕ)
    (evs : List (ChannelEvent P)) : List PaxosValue :=
  ((withProposers P sha256 conf).answers n evs).reduceOption.filterMap fun e =>
    if e.1 = ch then some e.2 else none

end PaxosNode

/-- The values sent on the channel `ch` from `n` on: those which were received and
those which are still waiting. -/
def valuesSent (sha256 : Bytes → Bytes) (conf : Configuration) (n : PaxosNode) (ch : ℕ)
    (evs : List (ChannelEvent P)) : List PaxosValue :=
  n.received sha256 conf ch evs ++
    ((n.afterEvents sha256 conf evs).handler.valueChans ch).buf

/-- In the course of `evs` the node leaves the step of `n` with a TLC message for
the block it stores. -/
def LeavesWith (sha256 : Bytes → Bytes) (conf : Configuration) (n : PaxosNode)
    (evs : List (ChannelEvent P)) (block : BlockchainBlock) : Prop :=
  ∃ before msg, before ++ [.message msg] <+: evs ∧
    (n.afterEvents sha256 conf before).handler.step = n.handler.step ∧
    ((n.afterEvents sha256 conf before).respond sha256 conf msg).2 =
      some (.tlc ⟨n.handler.step, block⟩) ∧
    StoresWithBroadcast (n.afterEvents sha256 conf before) ⟨n.handler.step, block⟩
      (n.afterEvents sha256 conf (before ++ [.message msg]))

/-- The proposers of the step of `n` have been told the value `v`. -/
structure Told (n : PaxosNode) (got : List PaxosValue) (n' : PaxosNode) (v : PaxosValue) :
    Prop where
  left : n.handler.step < n'.handler.step
  value : got ++ (n'.handler.valueChans n.handler.valueChannel).buf = [v]
  closed : (n'.handler.valueChans n.handler.valueChannel).closed = true
  replaced : n.handler.valueChannel < n'.handler.valueChannel
  instanceClosed : (n'.handler.instanceChans n.handler.instanceChannel).closed = true
  instanceReplaced : n.handler.instanceChannel < n'.handler.instanceChannel

/-- The proposers of the step of `n` still wait. -/
structure StillWaiting (n : PaxosNode) (got : List PaxosValue) (n' : PaxosNode) : Prop where
  step : n'.handler.step = n.handler.step
  channel : n'.handler.valueChannel = n.handler.valueChannel
  instanceChannel : n'.handler.instanceChannel = n.handler.instanceChannel
  got : got = []

section

variable {sha256 : Bytes → Bytes} {conf : Configuration} {n n' n'' : PaxosNode}

/-- Nothing is received, or the oldest value on a channel which is not the
current one. -/
theorem PaxosNode.receive_cases (n : PaxosNode) (ch : ℕ) :
    n.receive ch = (n, none) ∨
    ∃ v c hfresh, (n.handler.valueChans ch).buf = v :: c.buf ∧
      c.closed = (n.handler.valueChans ch).closed ∧
      n.receive ch = ({ n with handler := { n.handler with
        valueChans := Function.update n.handler.valueChans ch c
        valueFresh := hfresh } }, some v) := by
  unfold PaxosNode.receive PaxosHandler.recvValue
  split
  · next v h heq =>
      split at heq
      · next w c hrecv =>
          simp only [Option.some.injEq, Prod.mk.injEq] at heq
          obtain ⟨-, rfl⟩ := heq
          cases w with
          | none =>
              left
              obtain ⟨rfl, hbuf, -⟩ := Chan.recv_zero hrecv
              simp only [hbuf, List.head?_nil, Function.update_eq_self]
          | some w =>
              right
              obtain ⟨hbuf, hclosed, -⟩ := Chan.recv_value hrecv
              have hne : n.handler.valueChannel ≠ ch := by
                rintro rfl
                rw [n.handler.valueFresh, Chan.make_buf] at hbuf
                cases hbuf
              have hfresh : Function.update n.handler.valueChans ch c
                  n.handler.valueChannel = Chan.make 1 := by
                rw [Function.update_of_ne hne]
                exact n.handler.valueFresh
              rw [hbuf, List.head?_cons]
              exact ⟨w, c, hfresh, rfl, hclosed, rfl⟩
      · cases heq
  · exact .inl rfl

/-- Without a TLC message the channels stay as they are. -/
theorem PaxosNode.Responds.channels {msg : AcceptorMessage P} {o : Option Response}
    (hresp : PaxosNode.Responds sha256 conf n msg o n') (ho : ∀ t, o ≠ some (.tlc t)) :
    n'.handler.valueChannel = n.handler.valueChannel ∧
      n'.handler.valueChans = n.handler.valueChans ∧
      n'.handler.instanceChannel = n.handler.instanceChannel ∧
      n'.handler.instanceChans = n.handler.instanceChans := by
  cases hresp with
  | decided => exact absurd rfl (ho _)
  | finished => exact absurd rfl (ho _)
  | _ => exact ⟨rfl, rfl, rfl, rfl⟩

variable {got : List PaxosValue} {v : PaxosValue}

/-- When the step is left its proposers are sent the value of the block. -/
theorem StillWaiting.leaves (h : StillWaiting n got n') {m : TLCMap}
    {block : BlockchainBlock} {bs : List BlockchainBlock}
    (hleave : n'.LeavesStep conf m block bs n'') : Told n got n'' block.value := by
  have hchannel := h.channel
  have hinstance := h.instanceChannel
  have hne : n'.handler.valueChannel ≠ n'.handler.valueChannel + 1 := Nat.ne_add_one _
  have hne' : n'.handler.instanceChannel ≠ n'.handler.instanceChannel + 1 :=
    Nat.ne_add_one _
  have hchan : n''.handler.valueChans n.handler.valueChannel =
      ((n'.handler.valueChans n'.handler.valueChannel).send block.value
        n'.handler.valueReady).close n'.handler.valueReady.1 := by
    rw [hleave.handler, PaxosHandler.advance_valueChans, ← hchannel,
      Function.update_of_ne hne, Function.update_self]
  have hempty : (n'.handler.valueChans n'.handler.valueChannel).buf = [] := by
    rw [n'.handler.valueFresh, Chan.make_buf]
  constructor
  · exact h.step ▸ hleave.step_lt
  · rw [h.got, hchan]
    change [] ++ ((n'.handler.valueChans n'.handler.valueChannel).buf ++ [block.value]) = _
    rw [hempty, List.nil_append, List.nil_append]
  · rw [hchan]
    rfl
  · rw [hleave.handler, PaxosHandler.advance_valueChannel, hchannel]
    exact Nat.lt_succ_self _
  · rw [hleave.handler, PaxosHandler.advance_instanceChans, ← hinstance,
      Function.update_of_ne hne', Function.update_self]
    rfl
  · rw [hleave.handler, PaxosHandler.advance_instanceChannel, hinstance]
    exact Nat.lt_succ_self _

/-- The channels of later steps are other channels. -/
theorem Told.leaves (h : Told n got n' v) {m : TLCMap} {block : BlockchainBlock}
    {bs : List BlockchainBlock} (hleave : n'.LeavesStep conf m block bs n'') :
    Told n got n'' v := by
  have hreplaced := h.replaced
  have hinstance := h.instanceReplaced
  have hchan : n''.handler.valueChans n.handler.valueChannel =
      n'.handler.valueChans n.handler.valueChannel := by
    rw [hleave.handler, PaxosHandler.advance_valueChans,
      Function.update_of_ne (by omega), Function.update_of_ne (by omega)]
  have hinstanceChan : n''.handler.instanceChans n.handler.instanceChannel =
      n'.handler.instanceChans n.handler.instanceChannel := by
    rw [hleave.handler, PaxosHandler.advance_instanceChans,
      Function.update_of_ne (by omega), Function.update_of_ne (by omega)]
  constructor
  · exact h.left.trans hleave.step_lt
  · rw [hchan]
    exact h.value
  · rw [hchan]
    exact h.closed
  · rw [hleave.handler, PaxosHandler.advance_valueChannel]
    omega
  · rw [hinstanceChan]
    exact h.instanceClosed
  · rw [hleave.handler, PaxosHandler.advance_instanceChannel]
    omega

theorem Told.message (h : Told n got n' v) {msg : AcceptorMessage P} {o : Option Response}
    (hresp : PaxosNode.Responds sha256 conf n' msg o n'') : Told n got n'' v := by
  by_cases ho : ∃ t, o = some (.tlc t)
  · obtain ⟨t, rfl⟩ := ho
    obtain ⟨-, m, bs, hleave⟩ := hresp.leaves
    exact h.leaves hleave
  · have hstays := hresp.stays fun t ht => ho ⟨t, ht⟩
    obtain ⟨hvalue, hvalues, hinstance, hinstances⟩ :=
      hresp.channels fun t ht => ho ⟨t, ht⟩
    exact ⟨hstays.1 ▸ h.left, hvalues ▸ h.value, hvalues ▸ h.closed, hvalue ▸ h.replaced,
      hinstances ▸ h.instanceClosed, hinstance ▸ h.instanceReplaced⟩

/-- Receiving moves a value from the channel to what was received. -/
theorem Told.receive (h : Told n got n' v) (ch : ℕ) :
    Told n (got ++ if ch = n.handler.valueChannel then (n'.receive ch).2.toList else [])
      (n'.receive ch).1 v := by
  rcases n'.receive_cases ch with heq | ⟨w, c, hfresh, hbuf, hclosed, heq⟩
  · rw [heq]
    simpa using h
  · rw [heq]
    by_cases hch : ch = n.handler.valueChannel
    · refine ⟨h.left, ?_, ?_, h.replaced, h.instanceClosed, h.instanceReplaced⟩
      · have hvalue := h.value
        rw [← hch, hbuf, List.append_cons] at hvalue
        simpa [hch] using hvalue
      · have hwas := h.closed
        rw [← hch, ← hclosed] at hwas
        simpa [hch] using hwas
    · have hne : n.handler.valueChannel ≠ ch := fun heq => hch heq.symm
      refine ⟨h.left, ?_, ?_, h.replaced, h.instanceClosed, h.instanceReplaced⟩
      · simpa [hch, hne] using h.value
      · simpa [hne] using h.closed

/-- Nothing is received while the step lasts. -/
theorem StillWaiting.receive (h : StillWaiting n got n') (ch : ℕ) :
    StillWaiting n
      (got ++ if ch = n.handler.valueChannel then (n'.receive ch).2.toList else [])
      (n'.receive ch).1 := by
  rcases n'.receive_cases ch with heq | ⟨w, c, hfresh, hbuf, hclosed, heq⟩
  · rw [heq]
    simpa using h
  · have hch : ch ≠ n.handler.valueChannel := by
      rintro rfl
      rw [← h.channel, n'.handler.valueFresh, Chan.make_buf] at hbuf
      cases hbuf
    rw [heq]
    refine ⟨h.step, h.channel, h.instanceChannel, ?_⟩
    simpa [hch] using h.got

theorem PaxosNode.received_concat_message (n : PaxosNode) (ch : ℕ)
    (evs : List (ChannelEvent P)) (msg : AcceptorMessage P) :
    n.received sha256 conf ch (evs ++ [.message msg]) = n.received sha256 conf ch evs := by
  rw [received, Service.answers_append, List.reduceOption_append, List.filterMap_append]
  exact List.append_nil _

theorem PaxosNode.received_concat_receive (n : PaxosNode) (ch c : ℕ)
    (evs : List (ChannelEvent P)) :
    n.received sha256 conf c (evs ++ [.receive ch]) =
      n.received sha256 conf c evs ++
        if ch = c then ((n.afterEvents sha256 conf evs).receive ch).2.toList else [] := by
  have hanswers : (withProposers P sha256 conf).answers (n.afterEvents sha256 conf evs)
      [.receive ch] =
        [((n.afterEvents sha256 conf evs).receive ch).2.map fun v => (ch, v)] := rfl
  rw [received, Service.answers_append, List.reduceOption_append, List.filterMap_append,
    hanswers, List.reduceOption_singleton]
  cases ((n.afterEvents sha256 conf evs).receive ch).2 with
  | none =>
      rw [Option.toList_none, ite_self]
      rfl
  | some v =>
      by_cases hch : ch = c
      · simp [received, hch]
      · simp [received, hch]

/-- A message leaves the proposers waiting, or it makes the node store a block and
tell them its value. -/
theorem StillWaiting.message (h : StillWaiting n got n') {msg : AcceptorMessage P}
    {o : Option Response} (hresp : PaxosNode.Responds sha256 conf n' msg o n'') :
    StillWaiting n got n'' ∨
      ∃ block, o = some (.tlc ⟨n.handler.step, block⟩) ∧
        StoresWithBroadcast n' ⟨n.handler.step, block⟩ n'' ∧ Told n got n'' block.value := by
  by_cases ho : ∃ t, o = some (.tlc t)
  · right
    obtain ⟨⟨step, block⟩, rfl⟩ := ho
    have hstores := hresp.storesWithBroadcast
    obtain ⟨hstep, m, bs, hleave⟩ := hresp.leaves
    have hs : step = n.handler.step := hstep.trans h.step
    subst hs
    exact ⟨block, rfl, hstores, h.leaves hleave⟩
  · left
    have hstays := hresp.stays fun t ht => ho ⟨t, ht⟩
    obtain ⟨hvalue, -, hinstance, -⟩ := hresp.channels fun t ht => ho ⟨t, ht⟩
    exact ⟨hstays.1.trans h.step, hvalue.trans h.channel,
      hinstance.trans h.instanceChannel, h.got⟩

theorem LeavesWith.mono {evs evs' : List (ChannelEvent P)} {block : BlockchainBlock}
    (h : LeavesWith sha256 conf n evs block) (hevs : evs <+: evs') :
    LeavesWith sha256 conf n evs' block := by
  obtain ⟨before, msg, hbefore, hleaves⟩ := h
  exact ⟨before, msg, hbefore.trans hevs, hleaves⟩

theorem PaxosNode.receive_threshold (n : PaxosNode) (ch : ℕ) :
    (n.receive ch).1.handler.threshold = n.handler.threshold := by
  rcases n.receive_cases ch with heq | ⟨v, c, hfresh, -, -, heq⟩
  · rw [heq]
  · rw [heq]

/-- No event changes the threshold. -/
theorem PaxosNode.afterEvents_threshold (hT : n.handler.threshold = conf.threshold)
    (evs : List (ChannelEvent P)) :
    (n.afterEvents sha256 conf evs).handler.threshold = conf.threshold := by
  induction evs using List.reverseRecOn with
  | nil => exact hT
  | append_singleton evs ev ih =>
      rw [afterEvents, Service.after_append]
      cases ev with
      | receive ch => exact (receive_threshold _ ch).trans ih
      | message msg =>
          exact (respond_responds (ih ▸ conf.one_le_threshold) msg).threshold ih

/-- The proposers of the step of `n` still wait, or they have been told the value
of the block stored when the step was left. -/
theorem stillWaiting_or_told (hT : n.handler.threshold = conf.threshold)
    (evs : List (ChannelEvent P)) :
    StillWaiting n (n.received sha256 conf n.handler.valueChannel evs)
        (n.afterEvents sha256 conf evs) ∨
      ∃ block, LeavesWith sha256 conf n evs block ∧
        Told n (n.received sha256 conf n.handler.valueChannel evs)
          (n.afterEvents sha256 conf evs) block.value := by
  induction evs using List.reverseRecOn with
  | nil => exact .inl ⟨rfl, rfl, rfl, rfl⟩
  | append_singleton evs ev ih =>
      have hprefix : evs <+: evs ++ [ev] := List.prefix_append _ _
      cases ev with
      | receive ch =>
          have hafter : n.afterEvents sha256 conf (evs ++ [.receive ch]) =
              ((n.afterEvents sha256 conf evs).receive ch).1 := Service.after_append ..
          rw [hafter, PaxosNode.received_concat_receive]
          rcases ih with hwait | ⟨block, hleaves, htold⟩
          · exact .inl (hwait.receive ch)
          · exact .inr ⟨block, hleaves.mono hprefix, htold.receive ch⟩
      | message msg =>
          have hafter : n.afterEvents sha256 conf (evs ++ [.message msg]) =
              ((n.afterEvents sha256 conf evs).respond sha256 conf msg).1 :=
            Service.after_append ..
          have hT' : (n.afterEvents sha256 conf evs).handler.threshold = conf.threshold :=
            PaxosNode.afterEvents_threshold hT evs
          have hresp : PaxosNode.Responds sha256 conf (n.afterEvents sha256 conf evs) msg
              ((n.afterEvents sha256 conf evs).respond sha256 conf msg).2
              (n.afterEvents sha256 conf (evs ++ [.message msg])) :=
            hafter ▸ PaxosNode.respond_responds (hT' ▸ conf.one_le_threshold) msg
          rw [PaxosNode.received_concat_message]
          rcases ih with hwait | ⟨block, hleaves, htold⟩
          · rcases hwait.message hresp with hwait | ⟨block, ho, hstores, htold⟩
            · exact .inl hwait
            · exact .inr ⟨block, ⟨evs, msg, List.prefix_rfl, hwait.step, ho, hstores⟩, htold⟩
          · exact .inr ⟨block, hleaves.mono hprefix, htold.message hresp⟩

end

/-- For every threshold and every run of a node, a value channel taken at some
step is sent nothing while the node is at that step; once the node has left it,
the channel has been sent exactly one value, the value of the block which was
stored then, and is closed.  The current channels always take the next send and
the next close, and a closed channel is never the current one again. -/
theorem proposer_told_decision (sha256 : Bytes → Bytes) (conf : Configuration)
    (s : Storage) (pre rest : List (ChannelEvent P)) :
    let n := (PaxosNode.start conf s).afterEvents sha256 conf pre
    let n' := n.afterEvents sha256 conf rest
    let ch := n.handler.valueChannel
    n.handler.step ≤ n'.handler.step ∧
    (n'.handler.step = n.handler.step →
      valuesSent sha256 conf n ch rest = [] ∧ (n'.handler.valueChans ch).closed = false) ∧
    (n.handler.step < n'.handler.step →
      ∃ block, LeavesWith sha256 conf n rest block ∧
        valuesSent sha256 conf n ch rest = [block.value] ∧
        (n'.handler.valueChans ch).closed = true ∧ ch < n'.handler.valueChannel ∧
        (n'.handler.instanceChans n.handler.instanceChannel).closed = true ∧
        n.handler.instanceChannel < n'.handler.instanceChannel) ∧
    (n'.handler.valueChans n'.handler.valueChannel).Ready ∧
    (n'.handler.instanceChans n'.handler.instanceChannel).closed = false := by
  intro n n' ch
  have hT : n.handler.threshold = conf.threshold :=
    PaxosNode.afterEvents_threshold (n := PaxosNode.start conf s) rfl pre
  rcases stillWaiting_or_told hT rest with hwait | ⟨block, hleaves, htold⟩
  · have hchannel : n'.handler.valueChannel = ch := hwait.channel
    have hfresh := n'.handler.valueFresh
    rw [hchannel] at hfresh
    refine ⟨hwait.step.ge, fun _ => ⟨?_, ?_⟩, fun hlt => ?_, n'.handler.valueReady,
      n'.handler.instanceOpen⟩
    · change n.received sha256 conf ch rest ++ (n'.handler.valueChans ch).buf = []
      rw [hwait.got, hfresh, Chan.make_buf, List.nil_append]
    · rw [hfresh]
      rfl
    · exact absurd hwait.step hlt.ne'
  · refine ⟨htold.left.le, fun heq => ?_, fun _ => ?_, n'.handler.valueReady,
      n'.handler.instanceOpen⟩
    · exact absurd heq htold.left.ne'
    · exact ⟨block, hleaves, htold.value, htold.closed, htold.replaced,
        htold.instanceClosed, htold.instanceReplaced⟩

end Minotor
