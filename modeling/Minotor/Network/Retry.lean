import Minotor.Network.LastDecision
import Minotor.Support.Runs

/-!
# Retries of a proposer

`clearInstance` keeps the final value.  The ticker of phase 2 therefore finds a
value from the second instance of a node on, takes the instance for decided and
starts the call again, which then waits for the instance it runs itself.  A
history variable records in which step a call has started its instance, the ID
of its last prepare message and whether the ticker has fired since.
-/

namespace Minotor

variable {P : Type*}

/-! ## What a call has begun -/

/-- The step in which a call has started an instance, the ID of the last prepare
message of the call, and whether the ticker of phase 2 has fired since. -/
structure Mark where
  began : Option ℕ
  prepared : ℕ
  fired : Bool
deriving DecidableEq, Repr

/-- The mark of a call after a step. -/
def TagPc.mark (h : PaxosHandler) (pc : TagPc P) (c : Choice) (m : Mark) : Mark :=
  match pc, c with
  | .initInstance, .run => if h.running = true then m else ⟨some h.step, 0, false⟩
  | .promiseChan _ prep, .run => { m with prepared := prep.id, fired := false }
  | .awaitValue _ _, .tick => { m with fired := true }
  | _, _ => m

/-- The marks of the calls of a peer after an action of the network. -/
def remember [DecidableEq P] (p : P) (st : System P) :
    Action P → (ℕ → Mark) → ℕ → Mark
  | .call q i c, marks =>
      if q = p then
        match (st.peers p).calls[i]? with
        | some call =>
            Function.update marks i (call.pc.mark (st.peers p).node.handler c (marks i))
        | none => marks
      else marks
  | _, marks => marks

/-- The network with the marks of the calls of `p`. -/
def marked [DecidableEq P] (sha256 : Bytes → Bytes) (conf : P → Configuration) (p : P) :
    TransitionSystem (System P × (ℕ → Mark)) (Action P) :=
  (network sha256 conf).withHistory (fun _ => ⟨none, 0, false⟩) (remember p)

/-- The program point is one on the way from the ticker of phase 2 to a prepare
message of the same step with this ID. -/
def TagPc.GoesOn (source : P) (totalPeers : ℕ) (h : PaxosHandler) (id : ℕ) : TagPc P → Prop
  | .readFinal start => start = h.step
  | .retryPropose start => start = h.step ∧ h.paxosID + totalPeers = id
  | .readStep start => start = h.step ∧ h.paxosID = id
  | .prepare start => start = h.step ∧ h.paxosID = id
  | .promiseChan start prep => start = h.step ∧ prep = ⟨h.step, id, source⟩
  | _ => False

/-- The call waits on an instance channel. -/
def TagPc.AwaitsInstance : TagPc P → Prop
  | .awaitInstance _ => True
  | _ => False

/-- A call which runs the undecided instance of the node and whose ticker in
phase 2 has fired goes on to its next prepare message, with its ID increased by
the number of peers.  It does not wait for the instance it has started itself. -/
structure TagPc.Proceeds (source : P) (totalPeers : ℕ) (h : PaxosHandler) (pc : TagPc P)
    (m : Mark) : Prop where
  retries : m.began = some h.step → m.fired = true →
    pc.GoesOn source totalPeers h (m.prepared + totalPeers)
  neverWaits : m.began = some h.step → ¬pc.AwaitsInstance

/-- All calls of the peer proceed. -/
def Peer.Proceeds (conf : Configuration) (self : P) (peer : Peer P) (marks : ℕ → Mark) :
    Prop :=
  ∀ i (call : TagCall P), peer.calls[i]? = some call →
    call.pc.Proceeds self conf.totalPeers peer.node.handler (marks i)

/-- When a call which has started the undecided instance of the node reads the
final value after its ticker, the node has decided no block before. -/
def Peer.FirstInstance (self : P) (peer : Peer P) (marks : ℕ → Mark) (a : Action P) : Prop :=
  ∀ i call start, a = .call self i .run → peer.calls[i]? = some call →
    call.pc = .readFinal start → (marks i).began = some peer.node.handler.step →
    peer.node.handler.step = 0

/-! ## What the marks say -/

/-- The value channel of the handler is empty and open. -/
theorem PaxosHandler.recvValue_fresh (h : PaxosHandler) :
    h.recvValue h.valueChannel = none := by
  have hrecv : (h.valueChans h.valueChannel).recv = none := by
    rw [h.valueFresh]
    rfl
  unfold recvValue
  split
  · next hsome =>
      rw [hrecv] at hsome
      cases hsome
  · rfl

namespace TagPc

/-- The step from which the call is in its instance. -/
def start? : TagPc P → Option ℕ
  | .readStep start => some start
  | .prepare start => some start
  | .promiseChan start _ => some start
  | .sendPrepare start _ _ _ => some start
  | .awaitPromise start _ _ => some start
  | .retryPrepare start => some start
  | .propose start _ _ => some start
  | .valueChan start _ => some start
  | .sendPropose start _ _ _ => some start
  | .awaitValue start _ => some start
  | .readFinal start => some start
  | .retryPropose start => some start
  | _ => none

/-- The value channel which the call is to wait on. -/
def valueChannel? : TagPc P → Option ℕ
  | .sendPropose _ _ ch _ => some ch
  | .awaitValue _ ch => some ch
  | _ => none

/-- A call which runs its own undecided instance is here only after its ticker
has fired. -/
def AfterTick : TagPc P → Prop
  | .lookup => True
  | .setName => True
  | .initInstance => True
  | .awaitInstance _ => True
  | .lookupAgain => True
  | .readFinal _ => True
  | _ => False

/-- The ID of the round which the call is in. -/
def roundID? (prepared : ℕ) : TagPc P → Option ℕ
  | .promiseChan _ prep => some prep.id
  | .sendPrepare _ _ _ _ => some prepared
  | .awaitPromise _ _ _ => some prepared
  | .propose _ _ _ => some prepared
  | .valueChan _ _ => some prepared
  | .sendPropose _ _ _ _ => some prepared
  | .awaitValue _ _ => some prepared
  | .readFinal _ => some prepared
  | _ => none

/-- What the mark of a call says about its program point. -/
structure Marked (h : PaxosHandler) (pc : TagPc P) (m : Mark) : Prop where
  began_le : ∀ b, m.began = some b → b ≤ h.step
  running : m.began = some h.step → h.running = true
  readStart : pc = .readStart → m.began ≠ none
  start_le : ∀ start, pc.start? = some start → start ≤ h.step
  began : ∀ start, pc.start? = some start → ∃ b, m.began = some b ∧ b ≤ start
  channel : m.began = some h.step → ∀ ch, pc.valueChannel? = some ch → ch = h.valueChannel
  fired : m.began = some h.step → pc.AfterTick → m.fired = true
  late : m.began = some h.step → m.fired = true → 0 < h.step →
    pc.AfterTick ∨ ∃ err, pc = .returned err

theorem marked_lookup (h : PaxosHandler) : (lookup : TagPc P).Marked h ⟨none, 0, false⟩ where
  began_le b hb := by cases hb
  running hb := by cases hb
  readStart hpc := by cases hpc
  start_le start hstart := by cases hstart
  began start hstart := by cases hstart
  channel hb := by cases hb
  fired hb := by cases hb
  late hb := by cases hb

variable {h h' : PaxosHandler} {pc : TagPc P} {m : Mark}

/-- A call which runs the instance of the node is in the step of the node. -/
theorem Marked.start_eq (hm : pc.Marked h m) (hb : m.began = some h.step) {start : ℕ}
    (hpc : pc.start? = some start) : start = h.step := by
  obtain ⟨b, hb', hle⟩ := hm.began start hpc
  have hstart := hm.start_le start hpc
  rw [hb, Option.some.injEq] at hb'
  omega

/-- The handler goes on within the step. -/
theorem Marked.frame (hm : pc.Marked h m) (hstep : h'.step = h.step)
    (hchannel : h'.valueChannel = h.valueChannel)
    (hrunning : h.running = true → h'.running = true) : pc.Marked h' m where
  began_le := by rw [hstep]; exact hm.began_le
  running := by rw [hstep]; exact fun hb => hrunning (hm.running hb)
  readStart := hm.readStart
  start_le := by rw [hstep]; exact hm.start_le
  began := hm.began
  channel := by rw [hstep, hchannel]; exact hm.channel
  fired := by rw [hstep]; exact hm.fired
  late := by rw [hstep]; exact hm.late

/-- The handler leaves the step. -/
theorem Marked.leave (hm : pc.Marked h m) (hlt : h.step < h'.step) : pc.Marked h' m := by
  have hne : m.began ≠ some h'.step := by
    intro hb
    have := hm.began_le _ hb
    omega
  constructor
  · exact fun b hb => (hm.began_le b hb).trans hlt.le
  · exact fun hb => absurd hb hne
  · exact hm.readStart
  · exact fun start hstart => (hm.start_le start hstart).trans hlt.le
  · exact hm.began
  · exact fun hb => absurd hb hne
  · exact fun hb => absurd hb hne
  · exact fun hb => absurd hb hne

/-- The call moves on with its mark. -/
theorem Marked.move {pc' : TagPc P} (hm : pc.Marked h m) (hread : pc' ≠ .readStart)
    (hstart : pc'.start? = none ∨ pc'.start? = pc.start?)
    (hchannel : pc'.valueChannel? = none ∨ pc'.valueChannel? = pc.valueChannel?)
    (hfired : m.began = some h.step → pc'.AfterTick → pc.AfterTick)
    (hlate : 0 < h.step → pc.AfterTick ∨ (∃ err, pc = .returned err) →
      pc'.AfterTick ∨ ∃ err, pc' = .returned err) : pc'.Marked h m := by
  have hold : ∀ {o o' : Option ℕ} {x : ℕ}, o' = none ∨ o' = o → o' = some x → o = some x := by
    rintro o _ x (rfl | rfl) hx
    · cases hx
    · exact hx
  constructor
  · exact hm.began_le
  · exact hm.running
  · exact fun hpc => absurd hpc hread
  · exact fun start hpc => hm.start_le start (hold hstart hpc)
  · exact fun start hpc => hm.began start (hold hstart hpc)
  · exact fun hb ch hpc => hm.channel hb ch (hold hchannel hpc)
  · exact fun hb hpc => hm.fired hb (hfired hb hpc)
  · exact fun hb hfired hpos => hlate hpos (hm.late hb hfired hpos)

/-- The call returns. -/
theorem Marked.returned (hm : pc.Marked h m) (err : Option String) :
    (TagPc.returned err : TagPc P).Marked h m :=
  hm.move (fun hpc => by cases hpc) (.inl rfl) (.inl rfl) (fun _ hpc => hpc.elim)
    fun _ _ => .inr ⟨err, rfl⟩

/-- The call moves on within its instance. -/
theorem Marked.advance {pc' : TagPc P} {start : ℕ} (hm : pc.Marked h m)
    (hpc : pc.start? = some start) (hpc' : pc'.start? = some start)
    (hchannel : pc'.valueChannel? = none ∨ pc'.valueChannel? = pc.valueChannel?)
    (hafter : ¬pc.AfterTick) (hafter' : ¬pc'.AfterTick) : pc'.Marked h m := by
  refine hm.move ?_ (.inr (hpc'.trans hpc.symm)) hchannel
    (fun _ hpc => absurd hpc hafter') ?_
  · rintro rfl
    cases hpc'
  · rintro - (hpc'' | ⟨err, rfl⟩)
    · exact absurd hpc'' hafter
    · cases hpc

/-- The call moves on after its ticker outside its instance. -/
theorem Marked.again {pc' : TagPc P} (hm : pc.Marked h m) (hpc' : pc'.start? = none)
    (hafter : m.began = some h.step → pc.AfterTick) (hafter' : pc'.AfterTick) :
    pc'.Marked h m := by
  refine hm.move ?_ (.inl hpc') (.inl ?_) (fun hb _ => hafter hb) fun _ _ => .inl hafter'
  · rintro rfl
    exact hafter'
  · cases pc' <;> first | exact hafter'.elim | rfl

/-- The call reads the step from which it is in its instance. -/
theorem Marked.begin (hm : (TagPc.readStart : TagPc P).Marked h m) :
    (TagPc.readStep h.step : TagPc P).Marked h m where
  began_le := hm.began_le
  running := hm.running
  readStart hpc := by cases hpc
  start_le start hstart := by
    cases hstart
    exact le_rfl
  began start hstart := by
    cases hstart
    obtain ⟨b, hb⟩ := Option.ne_none_iff_exists'.mp (hm.readStart rfl)
    exact ⟨b, hb, hm.began_le b hb⟩
  channel _ ch hch := by cases hch
  fired _ hafter := hafter.elim
  late hb hm' hpos := by
    rcases hm.late hb hm' hpos with hafter | ⟨err, herr⟩
    · exact hafter.elim
    · cases herr

/-- The ticker of phase 2 fires. -/
theorem Marked.tick {start ch : ℕ} (hm : (awaitValue start ch : TagPc P).Marked h m) :
    (readFinal start : TagPc P).Marked h { m with fired := true } where
  began_le := hm.began_le
  running := hm.running
  readStart hpc := by cases hpc
  start_le := hm.start_le
  began := hm.began
  channel _ ch' hch := by cases hch
  fired _ _ := rfl
  late _ _ _ := .inl trivial

/-- The call starts an instance. -/
theorem Marked.init (hrunning : h.running = true) :
    (TagPc.readStart : TagPc P).Marked h ⟨some h.step, 0, false⟩ where
  began_le b hb := by
    cases hb
    exact le_rfl
  running _ := hrunning
  readStart _ := Option.some_ne_none _
  start_le start hstart := by cases hstart
  began start hstart := by cases hstart
  channel _ ch hch := by cases hch
  fired _ hafter := hafter.elim
  late _ hfired := by cases hfired

/-- The call has made its prepare message. -/
theorem Marked.send {start : ℕ} {prep : PaxosPrepareMessage P}
    (hm : (promiseChan start prep : TagPc P).Marked h m) (ch : ℕ) (j : Job P) :
    (sendPrepare start prep ch j).Marked h { m with prepared := prep.id, fired := false } where
  began_le := hm.began_le
  running := hm.running
  readStart hpc := by cases hpc
  start_le := hm.start_le
  began := hm.began
  channel _ ch' hch := by cases hch
  fired _ hafter := hafter.elim
  late _ hfired := by cases hfired

/-- The call takes the value channel of the handler. -/
theorem Marked.proposes {start : ℕ} {msg : PaxosProposeMessage}
    (hm : (valueChan start msg : TagPc P).Marked h m) (j : Job P) :
    (sendPropose start msg h.valueChannel j).Marked h m where
  began_le := hm.began_le
  running := hm.running
  readStart hpc := by cases hpc
  start_le := hm.start_le
  began := hm.began
  channel _ ch hch := by
    cases hch
    rfl
  fired _ hafter := hafter.elim
  late hb hfired hpos := by
    rcases hm.late hb hfired hpos with hafter | ⟨err, herr⟩
    · exact hafter.elim
    · cases herr

/-- A step of a broadcast. -/
theorem Marked.withNext (hm : pc.Marked h m) {j : Job P} (hj : pc.job? = some j)
    (next : Next P) : (pc.withNext next).Marked h m := by
  cases pc with
  | sendPrepare start prep ch job =>
      cases next with
      | failed err => exact hm.returned (some err)
      | _ => exact hm.advance rfl rfl (.inl rfl) id id
  | sendPropose start msg ch job =>
      cases next with
      | failed err => exact hm.returned (some err)
      | _ => exact hm.advance rfl rfl (.inr rfl) id id
  | _ => cases hj

end TagPc

section

variable {conf : Configuration} {self : P} {i : ℕ} {n n' : Node P} {call : TagCall P}
  {c : Choice} {pc : TagPc P} {m : Mark}

theorem TagCall.Quiet.marked
    (hfinal : n.handler.finalValue = .empty ↔ n.handler.step = 0)
    (hm : call.pc.Marked n.handler m) (hquiet : call.Quiet conf n c pc) :
    pc.Marked n.handler (call.pc.mark n.handler c m) := by
  cases hquiet with
  | nameTaken _ hpc =>
      rw [hpc] at hm ⊢
      exact hm.returned _
  | alone hpc =>
      rw [hpc] at hm ⊢
      exact hm.again rfl (fun _ => trivial) trivial
  | free hpc =>
      rw [hpc] at hm ⊢
      exact hm.again rfl (fun _ => trivial) trivial
  | wait hpc hrunning =>
      rw [hpc] at hm ⊢
      rw [TagPc.mark, if_pos hrunning]
      exact hm.again rfl (fun _ => trivial) trivial
  | wake _ hpc =>
      rw [hpc] at hm ⊢
      exact hm.again rfl (fun _ => trivial) trivial
  | start hpc =>
      rw [hpc] at hm ⊢
      exact hm.begin
  | sameStep start hpc =>
      rw [hpc] at hm ⊢
      exact hm.advance rfl rfl (.inl rfl) id id
  | newStep start hpc hne =>
      rw [hpc] at hm ⊢
      exact hm.again rfl (fun hb => absurd (hm.start_eq hb rfl) hne) trivial
  | boundSince _ hpc =>
      rw [hpc] at hm ⊢
      exact hm.returned _
  | freeStill hpc =>
      rw [hpc] at hm ⊢
      exact hm.again rfl (fun _ => trivial) trivial
  | tickPrepare start prep ch hpc =>
      rw [hpc] at hm ⊢
      exact hm.advance rfl rfl (.inl rfl) id id
  | tickPropose start ch hpc =>
      rw [hpc] at hm ⊢
      exact hm.tick
  | decidedOwn start hpc =>
      rw [hpc] at hm ⊢
      exact hm.returned _
  | decidedOther start hpc =>
      rw [hpc] at hm ⊢
      exact hm.again rfl (fun _ => trivial) trivial
  | undecided start hpc hempty =>
      rw [hpc] at hm ⊢
      refine hm.move (fun hpc => by cases hpc) (.inr rfl) (.inl rfl)
        (fun _ hafter => hafter.elim) fun hpos _ => ?_
      have := hfinal.mp hempty
      omega
  | stop hpc =>
      have hmark : call.pc.mark n.handler .stop m = m := by
        rcases hpc with ⟨ch, hpc⟩ | ⟨start, prep, ch, hpc⟩ | ⟨start, ch, hpc⟩ <;>
          rw [hpc] <;> rfl
      rw [hmark]
      exact hm.returned _

/-- An own step of a call. -/
theorem TagCall.OwnStep.marked
    (hfinal : n.handler.finalValue = .empty ↔ n.handler.step = 0)
    (hm : call.pc.Marked n.handler m) (hown : call.OwnStep conf self i n c n' pc) :
    pc.Marked n'.handler (call.pc.mark n.handler c m) := by
  cases hown with
  | quiet _ _ hquiet => exact hquiet.marked hfinal hm
  | setName hpc =>
      rw [hpc] at hm ⊢
      exact hm.returned none
  | initInstance hpc hlock hidle =>
      rw [hpc] at hm ⊢
      rw [TagPc.mark, if_neg (Bool.eq_false_iff.mp hidle)]
      exact .init rfl
  | prepare start uniqID hpc =>
      rw [hpc] at hm ⊢
      refine TagPc.Marked.frame (h := n.handler) ?_ rfl rfl fun hrunning => hrunning
      exact hm.advance rfl rfl (.inl rfl) id id
  | promiseChan start prep hpc =>
      rw [hpc] at hm ⊢
      exact hm.send _ _
  | recvPromise start prep ch value h hpc hrecv _ hnext =>
      rw [hpc] at hm ⊢
      obtain ⟨c, hc, -, rfl⟩ := PaxosHandler.recvPromise_eq hrecv
      refine TagPc.Marked.frame (h := n.handler) ?_ rfl rfl fun hrunning => hrunning
      rw [hnext]
      split
      · exact hm.returned none
      · exact hm.advance rfl rfl (.inl rfl) id id
  | retryPrepare start hpc =>
      rw [hpc] at hm ⊢
      refine TagPc.Marked.frame (h := n.handler) ?_ rfl rfl fun hrunning => hrunning
      exact hm.advance rfl rfl (.inl rfl) id id
  | propose start prep value hpc =>
      rw [hpc] at hm ⊢
      exact hm.advance rfl rfl (.inl rfl) id id
  | valueChan start msg hpc =>
      rw [hpc] at hm ⊢
      exact hm.proposes _
  | recvValue start ch finalValue h hpc hrecv _ hnext =>
      rw [hpc] at hm ⊢
      obtain ⟨cs, hcs, rfl⟩ := PaxosHandler.recvValue_eq hrecv
      refine TagPc.Marked.frame (h := n.handler) ?_ rfl rfl fun hrunning => hrunning
      rw [hnext]
      split
      · exact hm.returned none
      · refine hm.again rfl (fun hb => ?_) trivial
        -- while the instance is undecided, its value channel is empty
        obtain rfl := hm.channel hb ch rfl
        rw [PaxosHandler.recvValue_fresh] at hrecv
        cases hrecv
  | retryPropose start hpc =>
      rw [hpc] at hm ⊢
      refine TagPc.Marked.frame (h := n.handler) ?_ rfl rfl fun hrunning => hrunning
      exact hm.advance rfl rfl (.inl rfl) id id

/-- A step changes the proposal number only within an instance. -/
theorem TagCall.OwnStep.paxosID_eq
    (hown : call.OwnStep conf self i n c n' pc) :
    n'.handler.paxosID = n.handler.paxosID ∨ ∃ start, call.pc.start? = some start := by
  cases hown with
  | recvPromise start _ _ _ _ hpc => exact .inr ⟨start, by rw [hpc]; rfl⟩
  | recvValue start _ _ _ hpc => exact .inr ⟨start, by rw [hpc]; rfl⟩
  | retryPrepare start hpc => exact .inr ⟨start, by rw [hpc]; rfl⟩
  | retryPropose start hpc => exact .inr ⟨start, by rw [hpc]; rfl⟩
  | _ => exact .inl rfl

/-- A call keeps the ID of its round and starts a round with the proposal number
of the handler. -/
theorem TagCall.OwnStep.roundID
    (hown : call.OwnStep conf self i n c n' pc)
    (hround : ∀ id, call.pc.roundID? m.prepared = some id → id = n.handler.paxosID) :
    ∀ id, pc.roundID? (call.pc.mark n.handler c m).prepared = some id →
      id = n'.handler.paxosID := by
  cases hown with
  | quiet _ _ hquiet =>
      cases hquiet with
      | tickPropose start ch hpc =>
          rw [hpc] at hround ⊢
          exact hround
      | _ => exact fun _ hid => by cases hid
  | prepare start uniqID hpc =>
      intro id hid
      cases hid
      rfl
  | promiseChan start prep hpc =>
      rw [hpc] at hround ⊢
      exact hround
  | recvPromise start prep ch value h hpc hrecv _ hnext =>
      rw [hpc] at hround ⊢
      obtain ⟨c, hc, -, rfl⟩ := PaxosHandler.recvPromise_eq hrecv
      rw [hnext]
      split
      · exact fun _ hid => by cases hid
      · exact hround
  | propose start prep value hpc =>
      rw [hpc] at hround ⊢
      exact hround
  | valueChan start msg hpc =>
      rw [hpc] at hround ⊢
      exact hround
  | recvValue start ch finalValue h hpc hrecv _ hnext =>
      rw [hnext]
      split <;> exact fun _ hid => by cases hid
  | _ => exact fun _ hid => by cases hid

theorem TagPc.roundID?_withNext {pc : TagPc P} {j : Job P} (hj : pc.job? = some j)
    {next : Next P} {prepared id : ℕ} (hid : (pc.withNext next).roundID? prepared = some id) :
    pc.roundID? prepared = some id := by
  cases pc with
  | sendPrepare => cases next <;> first | exact hid | cases hid
  | sendPropose => cases next <;> first | exact hid | cases hid
  | _ => cases hj

end

/-! ## The marks of a peer -/

theorem TagPc.exists_start {pc : TagPc P} {prepared id : ℕ}
    (hid : pc.roundID? prepared = some id) : ∃ start, pc.start? = some start := by
  cases pc <;> first | exact ⟨_, rfl⟩ | cases hid

/-- What the marks say about the calls of a peer. -/
structure Remembers (h : PaxosHandler) (calls : List (TagCall P)) (marks : ℕ → Mark) :
    Prop where
  marked : ∀ i (call : TagCall P), calls[i]? = some call → call.pc.Marked h (marks i)
  fresh : ∀ i, calls[i]? = none → marks i = ⟨none, 0, false⟩
  unique : ∀ i k, (marks i).began = some h.step → (marks k).began = some h.step → i = k
  round : h.step = 0 → ∀ i (call : TagCall P), calls[i]? = some call →
    (marks i).began = some h.step →
    ∀ id, call.pc.roundID? (marks i).prepared = some id → id = h.paxosID

namespace Remembers

variable {h h' : PaxosHandler} {calls : List (TagCall P)} {marks : ℕ → Mark}

theorem exists_call (hrem : Remembers h calls marks) {i b : ℕ}
    (hb : (marks i).began = some b) : ∃ call, calls[i]? = some call := by
  cases hcall : calls[i]? with
  | none =>
      rw [hrem.fresh i hcall] at hb
      cases hb
  | some call => exact ⟨call, rfl⟩

/-- In the first step a call in an instance runs the instance of the node. -/
theorem began_of_start (hrem : Remembers h calls marks) (hstep : h.step = 0) {i start : ℕ}
    {call : TagCall P} (hcall : calls[i]? = some call)
    (hstart : call.pc.start? = some start) : (marks i).began = some h.step := by
  have hm := hrem.marked i call hcall
  obtain ⟨b, hb, hle⟩ := hm.began start hstart
  have := hm.start_le start hstart
  rw [hb]
  congr 1
  omega

theorem leave (hrem : Remembers h calls marks) (hlt : h.step < h'.step) :
    Remembers h' calls marks := by
  have hne : ∀ i, (marks i).began ≠ some h'.step := by
    intro i hb
    obtain ⟨call, hcall⟩ := hrem.exists_call hb
    have := (hrem.marked i call hcall).began_le _ hb
    omega
  constructor
  · exact fun i call hcall => (hrem.marked i call hcall).leave hlt
  · exact hrem.fresh
  · exact fun i _ hb => absurd hb (hne i)
  · exact fun _ i _ _ hb => absurd hb (hne i)

theorem stay (hrem : Remembers h calls marks) (hstays : h.Stays h') :
    Remembers h' calls marks where
  marked i call hcall :=
    (hrem.marked i call hcall).frame hstays.step hstays.valueChannel hstays.running
  fresh := hrem.fresh
  unique := by rw [hstays.step]; exact hrem.unique
  round := by rw [hstays.step, hstays.paxosID]; exact hrem.round

theorem tag (hrem : Remembers h calls marks) (name mh : String) :
    Remembers h (calls ++ [⟨name, mh, .lookup⟩]) marks where
  marked i call hcall := by
    rw [List.getElem?_append] at hcall
    split at hcall
    · exact hrem.marked i call hcall
    · next hlt =>
        rw [hrem.fresh i (List.getElem?_eq_none (not_lt.mp hlt))]
        rw [List.getElem?_singleton] at hcall
        split at hcall
        · cases hcall
          exact TagPc.marked_lookup h
        · cases hcall
  fresh i hnone := by
    rw [List.getElem?_eq_none_iff, List.length_append] at hnone
    exact hrem.fresh i (List.getElem?_eq_none (by omega))
  unique := hrem.unique
  round hstep i call hcall hb := by
    rw [List.getElem?_append] at hcall
    split at hcall
    · exact hrem.round hstep i call hcall hb
    · next hlt =>
        rw [hrem.fresh i (List.getElem?_eq_none (not_lt.mp hlt))] at hb
        cases hb

end Remembers

section

variable {conf : Configuration} {self : P} {peer : Peer P} {n : Node P} {marks : ℕ → Mark}

/-- After a step of a job within the step. -/
theorem Remembers.afterJob {h : PaxosHandler} (hrem : Remembers h peer.calls marks)
    {t : Peer.Thread} {j : Job P} (hj : peer.job? t = some j) (next : Next P) :
    Remembers h (peer.afterJob t n next).calls marks where
  marked i call hcall := by
    obtain ⟨old, hold, rfl⟩ := Peer.getElem?_afterJob hcall
    split
    · next ht =>
        subst ht
        rw [Peer.job?, hold] at hj
        exact (hrem.marked i old hold).withNext hj next
    · exact hrem.marked i old hold
  fresh i hnone := by
    cases hcall : peer.calls[i]? with
    | none => exact hrem.fresh i hcall
    | some call =>
        obtain ⟨call', hcall', -⟩ : ∃ call', (peer.afterJob t n next).calls[i]? = some call' ∧
          _ ∧ _ := Peer.exists_afterJob hcall
        rw [hnone] at hcall'
        cases hcall'
  unique := hrem.unique
  round hstep i call hcall hb id hid := by
    obtain ⟨old, hold, rfl⟩ := Peer.getElem?_afterJob hcall
    refine hrem.round hstep i old hold hb id ?_
    split at hid
    · next ht =>
        subst ht
        rw [Peer.job?, hold] at hj
        exact TagPc.roundID?_withNext hj hid
    · exact hid

theorem TagPc.mark_began {h : PaxosHandler} (hrunning : h.running = true) (pc : TagPc P)
    (c : Choice) (m : Mark) : (pc.mark h c m).began = m.began := by
  cases pc <;> cases c <;> first | rfl | exact congrArg Mark.began (if_pos hrunning)

/-- In the first step no other call changes the proposal number. -/
theorem Remembers.paxosID_eq (hrem : Remembers peer.node.handler peer.calls marks)
    (hstep : peer.node.handler.step = 0) {i k : ℕ} {call : TagCall P} {c : Choice}
    {pc : TagPc P} (hcall : peer.calls[i]? = some call)
    (hown : call.OwnStep conf self i peer.node c n pc) (hk : k ≠ i)
    (hb : (marks k).began = some peer.node.handler.step) :
    n.handler.paxosID = peer.node.handler.paxosID := by
  rcases hown.paxosID_eq with heq | ⟨start, hstart⟩
  · exact heq
  · exact absurd (hrem.unique k i hb (hrem.began_of_start hstep hcall hstart)) hk

/-- Only one call runs the instance of the node after a step of call `i`. -/
theorem Remembers.unique_mark {h : PaxosHandler} {calls : List (TagCall P)}
    (hrem : Remembers h calls marks) (i : ℕ) (pc : TagPc P) (c : Choice) (k l : ℕ)
    (hk : (Function.update marks i (pc.mark h c (marks i)) k).began = some h.step)
    (hl : (Function.update marks i (pc.mark h c (marks i)) l).began = some h.step) :
    k = l := by
  by_cases hrunning : h.running = true
  · have hbegan : ∀ k, (Function.update marks i (pc.mark h c (marks i)) k).began =
        (marks k).began := by
      intro k
      by_cases hk : k = i
      · subst hk
        rw [Function.update_self, TagPc.mark_began hrunning]
      · rw [Function.update_of_ne hk]
    rw [hbegan] at hk hl
    exact hrem.unique k l hk hl
  · -- no other call runs the instance of an idle node
    have hidle : ∀ k, k ≠ i →
        (Function.update marks i (pc.mark h c (marks i)) k).began ≠ some h.step := by
      intro k hk hb
      rw [Function.update_of_ne hk] at hb
      obtain ⟨old, hold⟩ := hrem.exists_call hb
      exact hrunning ((hrem.marked k old hold).running hb)
    rw [not_not.mp fun hne => hidle k hne hk, not_not.mp fun hne => hidle l hne hl]

/-- After an own step of call `i`. -/
theorem Remembers.movePc (hrem : Remembers peer.node.handler peer.calls marks)
    (hfinal : peer.node.handler.finalValue = .empty ↔ peer.node.handler.step = 0)
    {i : ℕ} {call : TagCall P} {c : Choice} {pc : TagPc P}
    (hcall : peer.calls[i]? = some call)
    (hown : call.OwnStep conf self i peer.node c n pc) :
    Remembers n.handler (peer.movePc n i fun _ => pc).calls
      (Function.update marks i (call.pc.mark peer.node.handler c (marks i))) := by
  have hkeeps := hown.keeps
  constructor
  · intro k call' hcall'
    obtain ⟨old, hold, rfl⟩ := Peer.getElem?_movePc hcall'
    by_cases hk : k = i
    · subst hk
      rw [if_pos rfl, Function.update_self]
      exact hown.marked hfinal (hrem.marked k call hcall)
    · rw [if_neg hk, Function.update_of_ne hk]
      exact (hrem.marked k old hold).frame hkeeps.step hkeeps.valueChannel hkeeps.running
  · intro k hnone
    have hnone' : peer.calls[k]? = none := by
      rw [List.getElem?_eq_none_iff] at hnone ⊢
      rwa [Peer.movePc, List.length_modify] at hnone
    have hk : k ≠ i := by
      rintro rfl
      rw [hcall] at hnone'
      cases hnone'
    rw [Function.update_of_ne hk]
    exact hrem.fresh k hnone'
  · rw [hkeeps.step]
    exact hrem.unique_mark i call.pc c
  · rw [hkeeps.step]
    intro hstep k call' hcall' hb id hid
    obtain ⟨old, hold, rfl⟩ := Peer.getElem?_movePc hcall'
    by_cases hk : k = i
    · subst hk
      rw [if_pos rfl, Function.update_self] at hid
      refine hown.roundID (fun id hid => ?_) id hid
      obtain ⟨start, hstart⟩ := TagPc.exists_start hid
      exact hrem.round hstep k call hcall (hrem.began_of_start hstep hcall hstart) id hid
    · rw [if_neg hk, Function.update_of_ne hk] at hid
      rw [Function.update_of_ne hk] at hb
      rw [hrem.round hstep k old hold hb id hid, hrem.paxosID_eq hstep hcall hown hk hb]

end

/-! ## Steps of a marked peer -/

/-- What an action of the network does to the calls of a peer and to their
marks. -/
inductive Peer.Moves [DecidableEq P] (sha256 : Bytes → Bytes) (conf : Configuration)
    (self : P) (peer : Peer P) (marks : ℕ → Mark) (a : Action P) :
    Peer P → (ℕ → Mark) → Prop where
  | other (peer' : Peer P) (hpaxos : peer'.node.paxos = peer.node.paxos)
      (hcalls : peer'.calls = peer.calls) (ha : ∀ i c, a ≠ .call self i c) :
      Moves sha256 conf self peer marks a peer' marks
  | tag (name mh : String) (ha : ∀ i c, a ≠ .call self i c) :
      Moves sha256 conf self peer marks a
        { peer with calls := peer.calls ++ [⟨name, mh, .lookup⟩] } marks
  | job (t : Thread) (j : Job P) (n : Node P) (next : Next P)
      (ha : a.thread? = some (self, t)) (hj : peer.job? t = some j)
      (hstep : peer.node.JobStep sha256 conf self j n next) :
      Moves sha256 conf self peer marks a (peer.afterJob t n next) marks
  | own (i : ℕ) (call : TagCall P) (c : Choice) (n : Node P) (pc : TagPc P)
      (ha : a = .call self i c) (hcall : peer.calls[i]? = some call)
      (hown : call.OwnStep conf self i peer.node c n pc) :
      Moves sha256 conf self peer marks a (peer.movePc n i fun _ => pc)
        (Function.update marks i (call.pc.mark peer.node.handler c (marks i)))

theorem TagPc.mark_of_job {h : PaxosHandler} {pc : TagPc P} {j : Job P}
    (hj : pc.job? = some j) (c : Choice) (m : Mark) : pc.mark h c m = m := by
  cases pc <;> first | rfl | cases hj

section

variable [DecidableEq P] {sha256 : Bytes → Bytes} {conf : P → Configuration}
  {st st' : System P} {a : Action P} {p : P} {marks : ℕ → Mark}

theorem remember_of_job {q : P} {t : Peer.Thread} {j : Job P}
    (ha : a.thread? = some (q, t)) (hj : (st.peers q).job? t = some j) :
    remember p st a marks = marks := by
  cases a with
  | call r i c =>
      cases ha
      rw [remember]
      split
      · next hq =>
          subst hq
          split
          · next call hcall =>
              simp only [Peer.job?, hcall, Option.bind_some] at hj
              rw [TagPc.mark_of_job hj, Function.update_eq_self]
          · rfl
      · rfl
  | _ => rfl

theorem System.Step.moves (hstep : Step sha256 conf st a st') (p : P) (marks : ℕ → Mark) :
    (st.peers p).Moves sha256 (conf p) p marks a (st'.peers p) (remember p st a marks) := by
  have hflags : ∀ (q : P) (peer : Peer P), peer.node.paxos = (st.peers q).node.paxos →
      peer.calls = (st.peers q).calls → (∀ i c, a ≠ .call p i c) →
      (st.peers p).Moves sha256 (conf p) p marks a ((st.setPeer q peer).peers p) marks := by
    intro q peer hpaxos hcalls ha
    by_cases hq : p = q
    · subst hq
      rw [setPeer_self]
      exact .other peer hpaxos hcalls ha
    · rw [setPeer_of_ne _ _ hq]
      exact .other _ rfl rfl ha
  cases hstep with
  | tag q name mh =>
      by_cases hq : p = q
      · subst hq
        rw [setPeer_self]
        exact .tag name mh (fun i c ha => by cases ha)
      · rw [setPeer_of_ne _ _ hq]
        exact .other _ rfl rfl (fun i c ha => by cases ha)
  | deliver q => exact hflags q _ rfl rfl (fun i c ha => by cases ha)
  | job _ q t j n next ha hj hstep =>
      rw [remember_of_job ha hj]
      by_cases hq : p = q
      · subst hq
        rw [setPeer_self]
        exact .job t j n next ha hj hstep
      · rw [setPeer_of_ne _ _ hq]
        refine .other _ rfl rfl ?_
        rintro i c rfl
        cases ha
        exact hq rfl
  | own q i c call n pc hcall hj hfresh _ hown =>
      by_cases hq : p = q
      · subst hq
        simp only [remember, if_pos, hcall, setPeer_self]
        exact .own i call c n pc rfl hcall hown
      · simp only [remember, if_neg (Ne.symm hq), setPeer_of_ne _ _ hq]
        refine .other _ rfl rfl ?_
        rintro k c' ha
        cases ha
        exact hq rfl
  | stop q => exact hflags q _ rfl rfl (fun i c ha => by cases ha)

end

section

variable [DecidableEq P] {sha256 : Bytes → Bytes} {conf : Configuration} {p : P}
  {a : Action P} {peer peer' : Peer P} {marks marks' : ℕ → Mark}

theorem Peer.Moves.remembers
    (hfinal : peer.node.handler.finalValue = .empty ↔ peer.node.handler.step = 0)
    (hrem : Remembers peer.node.handler peer.calls marks)
    (hmoves : peer.Moves sha256 conf p marks a peer' marks') :
    Remembers peer'.node.handler peer'.calls marks' := by
  cases hmoves with
  | other _ hpaxos hcalls =>
      rw [Node.handler, hpaxos, hcalls]
      exact hrem
  | tag name mh => exact hrem.tag name mh
  | job t j n next ha hj hstep =>
      rw [Node.handler, (Peer.afterJob_agrees peer n t next).paxos]
      rcases hstep.stays_or_leaves with hstays | hleaves
      · exact (hrem.stay hstays).afterJob hj next
      · exact (hrem.leave hleaves.step).afterJob hj next
  | own i call c n pc ha hcall hown => exact hrem.movePc hfinal hcall hown

end

/-! ## Calls which proceed -/

namespace TagPc.Proceeds

variable {self : P} {totalPeers : ℕ} {h h' : PaxosHandler} {pc pc' : TagPc P} {m : Mark}

theorem of_ne (hne : m.began ≠ some h.step) : pc.Proceeds self totalPeers h m where
  retries hb := absurd hb hne
  neverWaits hb := absurd hb hne

/-- The handler goes on within the step, in the first step with its proposal
number. -/
theorem frame (hP : pc.Proceeds self totalPeers h m) (hm : pc.Marked h m)
    (hstep : h'.step = h.step)
    (hpaxosID : m.began = some h.step → h.step = 0 → h'.paxosID = h.paxosID) :
    pc.Proceeds self totalPeers h' m where
  retries hb hfired := by
    rw [hstep] at hb
    have hgoes := hP.retries hb hfired
    rcases Nat.eq_zero_or_pos h.step with hzero | hpos
    · have hid := hpaxosID hb hzero
      cases pc <;> simp only [GoesOn, hstep, hid] at hgoes ⊢ <;> exact hgoes
    · rcases hm.late hb hfired hpos with hafter | ⟨err, rfl⟩
      · cases pc <;> first | exact hgoes.elim | exact hafter.elim | exact hgoes.trans hstep.symm
      · exact hgoes.elim
  neverWaits := by rw [hstep]; exact hP.neverWaits

/-- The ticker has not fired since the last prepare message. -/
theorem of_not (hP : pc.Proceeds self totalPeers h m)
    (hnot : ∀ id, ¬pc.GoesOn self totalPeers h id) (hstep : h'.step = h.step)
    (hpc' : ¬pc'.AwaitsInstance) : pc'.Proceeds self totalPeers h' m where
  retries hb hfired := by
    rw [hstep] at hb
    exact absurd (hP.retries hb hfired) (hnot _)
  neverWaits _ := hpc'

/-- The call is outside its instance and has not started that of the node. -/
theorem outside (hP : pc.Proceeds self totalPeers h m) (hm : pc.Marked h m)
    (hafter : pc.AfterTick) (hnot : ∀ id, ¬pc.GoesOn self totalPeers h id) :
    pc'.Proceeds self totalPeers h m :=
  of_ne fun hb => hnot _ (hP.retries hb (hm.fired hb hafter))

theorem withNext (hP : pc.Proceeds self totalPeers h m) {j : Job P} (hj : pc.job? = some j)
    (next : Next P) : (pc.withNext next).Proceeds self totalPeers h m := by
  refine hP.of_not ?_ rfl ?_
  · cases pc <;> first | exact fun _ hgoes => hgoes | cases hj
  · cases pc with
    | sendPrepare => cases next <;> exact id
    | sendPropose => cases next <;> exact id
    | _ => cases hj

end TagPc.Proceeds

section

variable {conf : Configuration} {self : P} {i : ℕ} {n n' : Node P} {call : TagCall P}
  {c : Choice} {pc : TagPc P} {m : Mark}

/-- A call reads the final value after its ticker only before the first decision. -/
def TagCall.FirstInstance (h : PaxosHandler) (call : TagCall P) (c : Choice) (m : Mark) :
    Prop :=
  ∀ start, c = .run → call.pc = .readFinal start → m.began = some h.step → h.step = 0

theorem TagCall.Quiet.proceeds
    (hfinal : n.handler.finalValue = .empty ↔ n.handler.step = 0)
    (hm : call.pc.Marked n.handler m)
    (hround : n.handler.step = 0 → m.began = some n.handler.step →
      ∀ id, call.pc.roundID? m.prepared = some id → id = n.handler.paxosID)
    (hP : call.pc.Proceeds self conf.totalPeers n.handler m)
    (hfirst : call.FirstInstance n.handler c m) (hquiet : call.Quiet conf n c pc) :
    pc.Proceeds self conf.totalPeers n.handler (call.pc.mark n.handler c m) := by
  cases hquiet with
  | nameTaken _ hpc =>
      rw [hpc] at hm hP ⊢
      exact hP.outside hm trivial fun _ => id
  | alone hpc =>
      rw [hpc] at hm hP ⊢
      exact hP.outside hm trivial fun _ => id
  | free hpc =>
      rw [hpc] at hm hP ⊢
      exact hP.outside hm trivial fun _ => id
  | wait hpc hrunning =>
      rw [hpc] at hm hP ⊢
      rw [TagPc.mark, if_pos hrunning]
      exact hP.outside hm trivial fun _ => id
  | wake ch hpc =>
      rw [hpc] at hm hP ⊢
      exact hP.outside hm trivial fun _ => id
  | start hpc =>
      rw [hpc] at hP ⊢
      exact hP.of_not (fun _ => id) rfl id
  | sameStep start hpc hstart =>
      rw [hpc] at hP ⊢
      exact ⟨hP.retries, fun _ => id⟩
  | newStep start hpc hne =>
      rw [hpc] at hP ⊢
      exact hP.of_not (fun _ hgoes => hne hgoes.1) rfl id
  | boundSince _ hpc =>
      rw [hpc] at hm hP ⊢
      exact hP.outside hm trivial fun _ => id
  | freeStill hpc =>
      rw [hpc] at hm hP ⊢
      exact hP.outside hm trivial fun _ => id
  | tickPrepare start prep ch hpc =>
      rw [hpc] at hP ⊢
      exact hP.of_not (fun _ => id) rfl id
  | tickPropose start ch hpc =>
      rw [hpc] at hm ⊢
      exact ⟨fun hb _ => hm.start_eq hb rfl, fun _ => id⟩
  | decidedOwn start hpc hdecided =>
      refine .of_ne fun hb => hdecided (hfinal.mpr (hfirst start rfl hpc ?_))
      rw [hpc] at hb
      exact hb
  | decidedOther start hpc hdecided =>
      refine .of_ne fun hb => hdecided (hfinal.mpr (hfirst start rfl hpc ?_))
      rw [hpc] at hb
      exact hb
  | undecided start hpc hempty =>
      rw [hpc] at hround hP ⊢
      refine ⟨fun hb hfired => ⟨hP.retries hb hfired, ?_⟩, fun _ => id⟩
      have hid := hround (hfinal.mp hempty) hb _ rfl
      exact congrArg (· + conf.totalPeers) hid.symm
  | stop hpc =>
      rcases hpc with ⟨ch, hpc⟩ | ⟨start, prep, ch, hpc⟩ | ⟨start, ch, hpc⟩
      · rw [hpc] at hm hP ⊢
        exact hP.outside hm trivial fun _ => id
      · rw [hpc] at hP ⊢
        exact hP.of_not (fun _ => id) rfl id
      · rw [hpc] at hP ⊢
        exact hP.of_not (fun _ => id) rfl id

/-- An own step of a call which proceeds. -/
theorem TagCall.OwnStep.proceeds
    (hfinal : n.handler.finalValue = .empty ↔ n.handler.step = 0)
    (hpeers : n.handler.nPeers = conf.totalPeers)
    (hm : call.pc.Marked n.handler m)
    (hround : n.handler.step = 0 → m.began = some n.handler.step →
      ∀ id, call.pc.roundID? m.prepared = some id → id = n.handler.paxosID)
    (hP : call.pc.Proceeds self conf.totalPeers n.handler m)
    (hfirst : call.FirstInstance n.handler c m) (hown : call.OwnStep conf self i n c n' pc) :
    pc.Proceeds self conf.totalPeers n'.handler (call.pc.mark n.handler c m) := by
  have hstep := hown.keeps.step
  cases hown with
  | quiet _ _ hquiet => exact hquiet.proceeds hfinal hm hround hP hfirst
  | setName hpc =>
      rw [hpc] at hm hP ⊢
      exact hP.outside hm trivial fun _ => id
  | initInstance hpc hlock hidle =>
      rw [hpc, TagPc.mark, if_neg (Bool.eq_false_iff.mp hidle)]
      exact ⟨fun _ hfired => (by cases hfired), fun _ => id⟩
  | prepare start uniqID hpc =>
      rw [hpc] at hP ⊢
      refine ⟨fun hb hfired => ?_, fun _ => id⟩
      obtain ⟨hstart, hid⟩ := hP.retries hb hfired
      exact ⟨hstart, congrArg (PaxosPrepareMessage.mk _ · self) hid⟩
  | promiseChan start prep hpc =>
      rw [hpc]
      exact ⟨fun _ hfired => (by cases hfired), fun _ => id⟩
  | recvPromise start prep ch value h hpc hrecv _ hnext =>
      rw [hpc] at hP ⊢
      refine hP.of_not (fun _ => id) hstep ?_
      rw [hnext]
      split <;> exact id
  | retryPrepare start hpc =>
      rw [hpc] at hP ⊢
      exact hP.of_not (fun _ => id) hstep id
  | propose start prep value hpc =>
      rw [hpc] at hP ⊢
      exact hP.of_not (fun _ => id) hstep id
  | valueChan start msg hpc =>
      rw [hpc] at hP ⊢
      exact hP.of_not (fun _ => id) hstep id
  | recvValue start ch finalValue h hpc hrecv _ hnext =>
      rw [hpc] at hP ⊢
      refine hP.of_not (fun _ => id) hstep ?_
      rw [hnext]
      split <;> exact id
  | retryPropose start hpc =>
      rw [hpc] at hP ⊢
      refine ⟨fun hb hfired => ?_, fun _ => id⟩
      obtain ⟨hstart, hid⟩ := hP.retries hb hfired
      refine ⟨hstart, ?_⟩
      change n.handler.paxosID + n.handler.nPeers = _
      rw [hpeers]
      exact hid

/-- The step at `getFinalValue` without a final value goes on. -/
theorem TagCall.OwnStep.of_readFinal (hown : call.OwnStep conf self i n .run n' pc)
    {start : ℕ} (hpc : call.pc = .readFinal start) :
    n.handler.finalValue = .empty ∨ pc = .returned none ∨ pc = .lookup := by
  cases hown with
  | quiet _ _ hquiet =>
      cases hquiet with
      | decidedOwn => exact .inr (.inl rfl)
      | decidedOther => exact .inr (.inr rfl)
      | undecided _ _ hempty => exact .inl hempty
      | _ => simp_all
  | _ => simp_all

/-- A call which proceeds has not read the final value of an earlier decision. -/
theorem TagCall.OwnStep.firstInstance
    (hfinal : n.handler.finalValue = .empty ↔ n.handler.step = 0)
    (hm : call.pc.Marked n.handler m) (hown : call.OwnStep conf self i n c n' pc)
    (hP' : pc.Proceeds self conf.totalPeers n'.handler (call.pc.mark n.handler c m)) :
    call.FirstInstance n.handler c m := by
  rintro start rfl hpc hb
  have hstep := hown.keeps.step
  rw [hpc] at hm hP'
  have hfired := hm.fired hb trivial
  rcases hown.of_readFinal hpc with hempty | rfl | rfl
  · exact hfinal.mp hempty
  · exact (hP'.retries (hstep ▸ hb) hfired).elim
  · exact (hP'.retries (hstep ▸ hb) hfired).elim

/-- A call on the way to its prepare message waits for nothing but the lock of the
handler. -/
theorem TagCall.stepOwn_of_goesOn {source : P} {totalPeers id : ℕ} (uniqID : String)
    (hlock : n.handler.locked = false)
    (hgoes : call.pc.GoesOn source totalPeers n.handler id) :
    ∃ c ∈ [Choice.run, .fresh uniqID], (call.stepOwn conf self i n c).isSome := by
  obtain ⟨name, mh, pc⟩ := call
  cases pc with
  | prepare => exact ⟨.fresh uniqID, by simp, by simp [stepOwn, hlock]⟩
  | readFinal => exact ⟨.run, by simp, by simp [stepOwn, hlock]⟩
  | retryPropose => exact ⟨.run, by simp, by simp [stepOwn, hlock]⟩
  | readStep => exact ⟨.run, by simp, by simp [stepOwn, hlock]⟩
  | promiseChan => exact ⟨.run, by simp, by simp [stepOwn, hlock]⟩
  | _ => exact hgoes.elim

end

section

variable [DecidableEq P] {sha256 : Bytes → Bytes} {conf : Configuration} {p : P}
  {a : Action P} {peer peer' : Peer P} {marks marks' : ℕ → Mark}

/-- A step of a job. -/
theorem Peer.Proceeds.afterJob {t : Thread} {j : Job P} {n : Node P} {next : Next P}
    (hP : peer.Proceeds conf p marks)
    (hrem : Remembers peer.node.handler peer.calls marks) (hj : peer.job? t = some j)
    (hstep : peer.node.JobStep sha256 conf p j n next) :
    (peer.afterJob t n next).Proceeds conf p marks := by
  intro i call hcall
  rw [Node.handler, (afterJob_agrees peer n t next).paxos]
  obtain ⟨old, hold, rfl⟩ := getElem?_afterJob hcall
  rcases hstep.stays_or_leaves with hstays | hleaves
  · have hP' := (hP i old hold).frame (hrem.marked i old hold) hstays.step
      fun _ _ => hstays.paxosID
    split
    · next ht =>
        subst ht
        rw [job?, hold] at hj
        exact hP'.withNext hj next
    · exact hP'
  · refine .of_ne fun hb => ?_
    have := (hrem.marked i old hold).began_le _ hb
    exact absurd hleaves.step (not_lt.mpr this)

omit [DecidableEq P] in
/-- An own step of call `i`. -/
theorem Peer.Proceeds.movePc {i : ℕ} {call : TagCall P} {c : Choice} {n : Node P}
    {pc : TagPc P} (hP : peer.Proceeds conf p marks)
    (hfinal : peer.node.handler.finalValue = .empty ↔ peer.node.handler.step = 0)
    (hpeers : peer.node.handler.nPeers = conf.totalPeers)
    (hrem : Remembers peer.node.handler peer.calls marks)
    (hcall : peer.calls[i]? = some call) (hown : call.OwnStep conf p i peer.node c n pc)
    (hfirst : call.FirstInstance peer.node.handler c (marks i)) :
    (peer.movePc n i fun _ => pc).Proceeds conf p
      (Function.update marks i (call.pc.mark peer.node.handler c (marks i))) := by
  intro k call' hcall'
  obtain ⟨old, hold, rfl⟩ := getElem?_movePc hcall'
  by_cases hk : k = i
  · subst hk
    rw [if_pos rfl, Function.update_self]
    exact hown.proceeds hfinal hpeers (hrem.marked k call hcall)
      (fun hstep hb => hrem.round hstep k call hcall hb) (hP k call hcall) hfirst
  · rw [if_neg hk, Function.update_of_ne hk]
    exact (hP k old hold).frame (hrem.marked k old hold) hown.keeps.step
      fun hb hstep => hrem.paxosID_eq hstep hcall hown hk hb

/-- A step of a peer whose calls proceed. -/
theorem Peer.Moves.proceeds_iff
    (hfinal : peer.node.handler.finalValue = .empty ↔ peer.node.handler.step = 0)
    (hpeers : peer.node.handler.nPeers = conf.totalPeers)
    (hrem : Remembers peer.node.handler peer.calls marks)
    (hP : peer.Proceeds conf p marks)
    (hmoves : peer.Moves sha256 conf p marks a peer' marks') :
    peer'.Proceeds conf p marks' ↔ peer.FirstInstance p marks a := by
  cases hmoves with
  | other _ hpaxos hcalls ha =>
      refine iff_of_true ?_ fun i call start ha' => absurd ha' (ha i .run)
      rw [Proceeds, hcalls, Node.handler, hpaxos]
      exact hP
  | tag name mh ha =>
      refine iff_of_true ?_ fun i call start ha' => absurd ha' (ha i .run)
      intro i call hcall
      rw [List.getElem?_append] at hcall
      split at hcall
      · exact hP i call hcall
      · next hlt =>
          rw [hrem.fresh i (List.getElem?_eq_none (not_lt.mp hlt))]
          exact .of_ne (Option.some_ne_none _).symm
  | job t j n next ha hj hstep =>
      refine iff_of_true (hP.afterJob hrem hj hstep) ?_
      rintro i call start rfl hcall hpc
      cases ha
      rw [job?, hcall] at hj
      change call.pc.job? = some j at hj
      rw [hpc] at hj
      cases hj
  | own i call c n pc ha hcall hown =>
      constructor
      · rintro hP' k call' start rfl hcall' hpc hb
        cases ha
        rw [hcall] at hcall'
        cases hcall'
        have hmoved := hP' i { call with pc := pc } (by simp [movePc, hcall])
        rw [Function.update_self] at hmoved
        exact hown.firstInstance hfinal (hrem.marked i call hcall) hmoved start rfl hpc hb
      · intro hfirst
        refine hP.movePc hfinal hpeers hrem hcall hown ?_
        rintro start rfl hpc hb
        exact hfirst i call start ha hcall hpc hb

end

section

variable [DecidableEq P] {sha256 : Bytes → Bytes} {conf : P → Configuration} {p : P}

theorem remembers_of_reachable {s : System P × (ℕ → Mark)}
    (h : (marked sha256 conf p).Reachable s) :
    Remembers (s.1.peers p).node.handler (s.1.peers p).calls s.2 := by
  refine h.invariant (I := fun s => Remembers (s.1.peers p).node.handler
    (s.1.peers p).calls s.2) ?_ ?_
  · constructor
    · exact fun _ _ hcall => by cases hcall
    · exact fun _ _ => rfl
    · exact fun _ _ hb => by cases hb
    · exact fun _ _ _ hcall => by cases hcall
  · intro s s' a hs hrem _ hnext
    obtain ⟨hnext, heq⟩ := TransitionSystem.withHistory_next.mp hnext
    have hst : (network sha256 conf).Reachable s.1 := hs.of_history
    have hstep := System.step_of_next (configured_of_reachable hst) hnext
    rw [heq]
    exact (hstep.moves p s.2).remembers (finalValue_eq_empty_iff hst p) hrem

/-- A proposer goes on after its ticker and never waits for itself exactly if
the ticker of phase 2 is served only while the node has decided no block. -/
theorem never_waits_for_itself_iff (acts : List (Action P)) :
    (marked sha256 conf p).Always (fun s => (s.1.peers p).Proceeds (conf p) p s.2)
        (marked sha256 conf p).init acts ↔
      (marked sha256 conf p).Along (fun s a => (s.1.peers p).FirstInstance p s.2 a)
        (marked sha256 conf p).init acts := by
  refine TransitionSystem.always_iff_along ?_ .init fun _ _ hcall => by cases hcall
  intro s a s' hs hP hnext
  have hrem := remembers_of_reachable hs
  obtain ⟨hnext, heq⟩ := TransitionSystem.withHistory_next.mp hnext
  have hst : (network sha256 conf).Reachable s.1 := hs.of_history
  have hconf := configured_of_reachable hst
  have hmoves := (System.step_of_next hconf hnext).moves p s.2
  rw [heq]
  exact hmoves.proceeds_iff (finalValue_eq_empty_iff hst p) (hconf p).nPeers hrem hP

end

/-- Peer 0 decides a first block, and so does peer 1.  The next call of peer 0
comes to phase 2 of the second instance and its ticker fires. -/
def Action.secondInstance : List (Action (Fin 2)) :=
  tagRun ++ handles 1 0 4 3 ++ .tag 0 "other" "meta" :: opens 0 1 "id2" ++
    handles 1 0 5 1 ++ handles 1 0 6 4 ++ handles 0 1 3 1 ++ handles 0 1 4 1 ++
    .call 0 1 .recv :: steps 0 1 6 ++ .call 0 1 .tick :: steps 0 1 3

/-- The call finds the value of the first block, starts again, and waits for the
instance it has started itself. -/
theorem waits_for_itself :
    ¬ ∀ acts, (marked (fun b => b) (majorityNetwork 2) 0).Always
      (fun s => (s.1.peers 0).Proceeds (majorityNetwork 2 0) 0 s.2)
      (marked (fun b => b) (majorityNetwork 2) 0).init acts := by
  intro h
  have hrun : ((marked (fun b => b) (majorityNetwork 2) 0).replay (fun _ _ => True)
      Action.secondInstance (marked (fun b => b) (majorityNetwork 2) 0).init).map
        (fun s => ((s.1.peers 0).calls[1]?, (s.2 1).began, (s.1.peers 0).node.handler.step)) =
      some (some ⟨"other", "meta", .awaitInstance 1⟩, some 1, 1) := by
    decide +kernel
  obtain ⟨s, hs, heq⟩ := Option.map_eq_some_iff.mp hrun
  simp only [Prod.mk.injEq] at heq
  obtain ⟨hcall, hbegan, hstep⟩ := heq
  refine ((h Action.secondInstance).of_replay hs 1 _ hcall).neverWaits ?_ trivial
  rw [hbegan, hstep]

end Minotor
