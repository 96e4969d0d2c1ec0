import Minotor.Network.Steps

/-!
# Guards on runs

Decidable conditions on a state and the action taken in it.  Each of them rules
out one kind of step: a goroutine processes a message, or a call is at a
program point, in a state in which the code goes wrong.
-/

namespace Minotor

variable {P : Type*}

namespace System

/-- If the action is a step of a job, the job satisfies `G`. -/
def OnJob (st : System P) (G : P → Job P → Prop) (a : Action P) : Prop :=
  match a.thread? with
  | some (p, t) => ∀ j ∈ (st.peers p).job? t, G p j
  | none => True

instance (st : System P) (G : P → Job P → Prop) [∀ p j, Decidable (G p j)]
    (a : Action P) : Decidable (st.OnJob G a) := by
  unfold OnJob
  split <;> infer_instance

/-- If the action is a step of a call, the call satisfies `G`. -/
def OnCall (st : System P) (G : P → TagCall P → Prop) : Action P → Prop
  | .call p i _ => ∀ call ∈ (st.peers p).calls[i]?, G p call
  | _ => True

instance (st : System P) (G : P → TagCall P → Prop) [∀ p call, Decidable (G p call)]
    (a : Action P) : Decidable (st.OnCall G a) :=
  match a with
  | .call p i _ => inferInstanceAs (Decidable (∀ call ∈ (st.peers p).calls[i]?, G p call))
  | .tag _ _ _ | .deliver _ _ _ | .listen _ | .stop _ => isTrue trivial

theorem OnJob.of_job {st : System P} {G : P → Job P → Prop} {a : Action P}
    (h : st.OnJob G a) {p : P} {t : Peer.Thread} {j : Job P}
    (ha : a.thread? = some (p, t)) (hj : (st.peers p).job? t = some j) : G p j := by
  rw [OnJob, ha] at h
  exact h j hj

theorem OnCall.of_call {st : System P} {G : P → TagCall P → Prop} {p : P} {i : ℕ}
    {c : Choice} (h : st.OnCall G (.call p i c)) {call : TagCall P}
    (hcall : (st.peers p).calls[i]? = some call) : G p call :=
  h call hcall

end System

/-- The point before `createPrepareMessage`. -/
def TagPc.AtPrepare : TagPc P → Prop
  | .prepare _ => True
  | _ => False

instance (pc : TagPc P) : Decidable pc.AtPrepare := by
  unfold TagPc.AtPrepare
  split <;> infer_instance

namespace System

/-- A new round starts only when the promise channel is empty. -/
def FreshChannel (st : System P) : Action P → Prop :=
  st.OnCall fun p call => call.pc.AtPrepare →
    ((st.peers p).node.handler.promiseChans
      (st.peers p).node.handler.promiseChannel).buf = []

instance (st : System P) (a : Action P) : Decidable (st.FreshChannel a) := by
  unfold FreshChannel
  infer_instance

end System

/-- The message is an accept message. -/
def Message.IsAccept : Message P → Prop
  | .accept _ => True
  | _ => False

instance (msg : Message P) : Decidable msg.IsAccept := by
  unfold Message.IsAccept
  split <;> infer_instance

/-- The accept message of a counted accept for this step and value. -/
def Event.acceptFor? (step : ℕ) (v : PaxosValue) :
    Event P → Option (Rumor P × PaxosAcceptMessage)
  | .countedAccept r msg => if msg.step = step ∧ msg.value = v then some (r, msg) else none
  | _ => none

/-- The accepts which a peer has counted for a step and a value. -/
def Node.acceptsFor (n : Node P) (step : ℕ) (v : PaxosValue) :
    List (Rumor P × PaxosAcceptMessage) :=
  n.history.filterMap (Event.acceptFor? step v)

/-- The accept adds to a count of accepts of one ID from other peers. -/
def Node.SingleBallot [DecidableEq P] (n : Node P) : Job P → Prop
  | .exec ⟨origin, _, .accept msg⟩ =>
      n.handler.step = msg.step → ∀ x ∈ n.acceptsFor msg.step msg.value,
        x.2.id = msg.id ∧ x.1.origin ≠ origin
  | _ => True

instance [DecidableEq P] (n : Node P) (j : Job P) : Decidable (n.SingleBallot j) := by
  unfold Node.SingleBallot
  split <;> infer_instance

/-- No accept is counted together with one of another ID or with an earlier one
of the same peer. -/
def System.SingleBallot [DecidableEq P] (st : System P) : Action P → Prop :=
  st.OnJob fun p => (st.peers p).node.SingleBallot

instance [DecidableEq P] (st : System P) (a : Action P) : Decidable (st.SingleBallot a) := by
  unfold System.SingleBallot
  infer_instance

/-- A promise that is counted is for the current ID. -/
def Node.OwnRound (self : P) (n : Node P) : Job P → Prop
  | .exec ⟨_, _, .promise recipient msg⟩ =>
      recipient = self → n.handler.step = msg.step → n.handler.currentPhase = .phase1 →
        msg.id = n.handler.paxosID
  | _ => True

instance [DecidableEq P] (self : P) (n : Node P) (j : Job P) :
    Decidable (n.OwnRound self j) := by
  unfold Node.OwnRound
  split <;> infer_instance

/-- The step and the ID of the prepare message are the current ones. -/
def Node.Live (n : Node P) (prep : PaxosPrepareMessage P) : Prop :=
  prep.step = n.handler.step ∧ prep.id = n.handler.paxosID

instance (n : Node P) (prep : PaxosPrepareMessage P) : Decidable (n.Live prep) := by
  unfold Node.Live
  infer_instance

/-- At `createProposeMessage`, the step and the ID are still those of the prepare
message. -/
def Node.SameRound (n : Node P) : TagPc P → Prop
  | .propose _ prep _ => n.Live prep
  | _ => True

instance (n : Node P) (pc : TagPc P) : Decidable (n.SameRound pc) := by
  unfold Node.SameRound
  split <;> infer_instance

namespace System

/-- No promise for an earlier ID is counted. -/
def OwnRound [DecidableEq P] (st : System P) : Action P → Prop :=
  st.OnJob fun p => (st.peers p).node.OwnRound p

instance [DecidableEq P] (st : System P) (a : Action P) : Decidable (st.OwnRound a) := by
  unfold OwnRound
  infer_instance

/-- A call proposes in the round it prepared. -/
def SameRound (st : System P) : Action P → Prop :=
  st.OnCall fun p call => (st.peers p).node.SameRound call.pc

instance (st : System P) (a : Action P) : Decidable (st.SameRound a) := by
  unfold SameRound
  infer_instance

/-- The guard for proposals with a quorum of promises. -/
structure CleanRounds [DecidableEq P] (st : System P) (a : Action P) : Prop where
  inOrder : st.InOrder a
  ownRound : st.OwnRound a
  freshChannel : st.FreshChannel a
  sameRound : st.SameRound a

instance [DecidableEq P] (st : System P) (a : Action P) : Decidable (st.CleanRounds a) :=
  decidable_of_iff
    (st.InOrder a ∧ st.OwnRound a ∧ st.FreshChannel a ∧ st.SameRound a)
    ⟨fun ⟨h₁, h₂, h₃, h₄⟩ => ⟨h₁, h₂, h₃, h₄⟩, fun ⟨h₁, h₂, h₃, h₄⟩ => ⟨h₁, h₂, h₃, h₄⟩⟩

end System
/-- `Tag` has returned. -/
def TagPc.IsReturned : TagPc P → Prop
  | .returned _ => True
  | _ => False

instance (pc : TagPc P) : Decidable pc.IsReturned := by
  unfold TagPc.IsReturned
  split <;> infer_instance

/-- At `createProposeMessage`, the step is still that of the prepare message. -/
def Node.SameStep (n : Node P) : TagPc P → Prop
  | .propose _ prep _ => prep.step = n.handler.step
  | _ => True

instance (n : Node P) (pc : TagPc P) : Decidable (n.SameStep pc) := by
  unfold Node.SameStep
  split <;> infer_instance

namespace System

/-- A peer is asked to tag a name only when its earlier calls have returned. -/
def OneCall (st : System P) : Action P → Prop
  | .tag p _ _ => ∀ call ∈ (st.peers p).calls, call.pc.IsReturned
  | _ => True

instance (st : System P) (a : Action P) : Decidable (st.OneCall a) :=
  match a with
  | .tag p _ _ => inferInstanceAs (Decidable (∀ call ∈ (st.peers p).calls, call.pc.IsReturned))
  | .deliver _ _ _ | .listen _ | .call _ _ _ | .stop _ => isTrue trivial

/-- A call proposes in the step it prepared. -/
def SameStep (st : System P) : Action P → Prop :=
  st.OnCall fun p call => (st.peers p).node.SameStep call.pc

instance (st : System P) (a : Action P) : Decidable (st.SameStep a) := by
  unfold SameStep
  infer_instance

end System

/-! ## Ballots that follow the rules of Paxos -/

/-- The ID of an accepted proposal of this step. -/
def Event.acceptedIn? (step : ℕ) : Event P → Option ℕ
  | .accepted msg => if msg.step = step then some msg.id else none
  | _ => none

/-- The IDs of the proposals of a step which a node has accepted. -/
def Node.acceptedIDs (n : Node P) (step : ℕ) : List ℕ :=
  n.history.filterMap (Event.acceptedIn? step)

/-- The counted promise of this step. -/
def Event.reportIn? (step : ℕ) : Event P → Option PaxosPromiseMessage
  | .countedPromise _ msg => if msg.step = step then some msg else none
  | _ => none

/-- The promises of a step which a node has counted. -/
def Node.reports (n : Node P) (step : ℕ) : List PaxosPromiseMessage :=
  n.history.filterMap (Event.reportIn? step)

/-- A node that is about to promise has recorded the largest ID it accepted. -/
def Node.TrueReport (n : Node P) : Job P → Prop
  | .exec ⟨_, _, .prepare msg⟩ => n.handler.step = msg.step → n.handler.maxID < msg.id →
      ∀ id ∈ n.acceptedIDs n.handler.step, id ≤ n.handler.acceptedID
  | _ => True

instance (n : Node P) (j : Job P) : Decidable (n.TrueReport j) := by
  unfold Node.TrueReport
  split <;> infer_instance

/-- A promise is marshalled in the step it was made in. -/
def Node.LiveMarshal (n : Node P) : Job P → Prop
  | .marshal _ draft => draft.step = n.handler.step
  | _ => True

instance (n : Node P) (j : Job P) : Decidable (n.LiveMarshal j) := by
  unfold Node.LiveMarshal
  split <;> infer_instance

/-- A counted promise whose report is passed over for the best value reports that
value, or nothing newer than a counted promise which did. -/
def Node.KeepsNewest [DecidableEq P] (self : P) (n : Node P) : Job P → Prop
  | .exec ⟨_, _, .promise recipient msg⟩ =>
      recipient = self → n.handler.step = msg.step → n.handler.currentPhase = .phase1 →
        0 < msg.acceptedID → msg.acceptedID ≤ n.handler.bestID →
        ∃ best ∈ msg :: n.reports n.handler.step,
          best.acceptedValue = some n.handler.bestValue ∧ msg.acceptedID ≤ best.acceptedID
  | _ => True

instance [DecidableEq P] (self : P) (n : Node P) (j : Job P) :
    Decidable (n.KeepsNewest self j) := by
  unfold Node.KeepsNewest
  split <;> infer_instance

namespace System

/-- Every promise reports the largest ID accepted in its step. -/
def TrueReport [DecidableEq P] (st : System P) : Action P → Prop :=
  st.OnJob fun p => (st.peers p).node.TrueReport

instance [DecidableEq P] (st : System P) (a : Action P) : Decidable (st.TrueReport a) := by
  unfold TrueReport
  infer_instance

/-- No step ends between making a promise and marshalling it. -/
def LiveMarshal [DecidableEq P] (st : System P) : Action P → Prop :=
  st.OnJob fun p => (st.peers p).node.LiveMarshal

instance [DecidableEq P] (st : System P) (a : Action P) : Decidable (st.LiveMarshal a) := by
  unfold LiveMarshal
  infer_instance

/-- No report is passed over for an older one. -/
def KeepsNewest [DecidableEq P] (st : System P) : Action P → Prop :=
  st.OnJob fun p => (st.peers p).node.KeepsNewest p

instance [DecidableEq P] (st : System P) (a : Action P) : Decidable (st.KeepsNewest a) := by
  unfold KeepsNewest
  infer_instance

/-- The guard for agreement. -/
structure CleanBallots [DecidableEq P] (st : System P) (a : Action P) : Prop where
  cleanRounds : st.CleanRounds a
  singleBallot : st.SingleBallot a
  trueReport : st.TrueReport a
  liveMarshal : st.LiveMarshal a
  keepsNewest : st.KeepsNewest a

instance [DecidableEq P] (st : System P) (a : Action P) : Decidable (st.CleanBallots a) :=
  decidable_of_iff
    (st.CleanRounds a ∧ st.SingleBallot a ∧ st.TrueReport a ∧ st.LiveMarshal a ∧
      st.KeepsNewest a)
    ⟨fun ⟨h₁, h₂, h₃, h₄, h₅⟩ => ⟨h₁, h₂, h₃, h₄, h₅⟩,
      fun ⟨h₁, h₂, h₃, h₄, h₅⟩ => ⟨h₁, h₂, h₃, h₄, h₅⟩⟩

/-- A call creates a value only for a name which its peer has not bound. -/
def NameFree (st : System P) : Action P → Prop :=
  st.OnCall fun p call => call.pc.AtPrepare →
    (st.peers p).node.storage.naming.get call.name = none

instance (st : System P) (a : Action P) : Decidable (st.NameFree a) := by
  unfold NameFree
  infer_instance

/-- The guard for the uniqueness of names. -/
structure CleanNames [DecidableEq P] (st : System P) (a : Action P) : Prop where
  cleanBallots : st.CleanBallots a
  nameFree : st.NameFree a

instance [DecidableEq P] (st : System P) (a : Action P) : Decidable (st.CleanNames a) :=
  decidable_of_iff (st.CleanBallots a ∧ st.NameFree a)
    ⟨fun ⟨h₁, h₂⟩ => ⟨h₁, h₂⟩, fun ⟨h₁, h₂⟩ => ⟨h₁, h₂⟩⟩

end System
end Minotor
