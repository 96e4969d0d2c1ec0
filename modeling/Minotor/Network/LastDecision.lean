import Minotor.Network.Validity

/-!
# The last decision of a peer

Within a step a peer keeps its proposal number, its value channel and its final
value, and a running instance goes on.  `clearInstance` leaves the final value
as it is, so after its first decision a peer always has one.
-/

namespace Minotor

variable {P : Type*}

/-- What the handler keeps within a step. -/
structure PaxosHandler.KeepsStep (h h' : PaxosHandler) : Prop where
  step : h'.step = h.step
  finalValue : h'.finalValue = h.finalValue
  valueChannel : h'.valueChannel = h.valueChannel
  running : h.running = true → h'.running = true

/-- What the handler keeps when a job takes a step within its step. -/
structure PaxosHandler.Stays (h h' : PaxosHandler) : Prop extends h.KeepsStep h' where
  paxosID : h'.paxosID = h.paxosID

/-- The handler leaves its step with a value which the job carries. -/
structure PaxosHandler.Leaves (j : Job P) (h h' : PaxosHandler) : Prop where
  step : h.step < h'.step
  finalValue : ∀ C, j.Carries C → C h'.finalValue

section

variable [DecidableEq P] {sha256 : Bytes → Bytes} {conf : Configuration} {self : P}
  {n n' : Node P} {j : Job P} {next : Next P}

theorem Node.JobStep.stays_or_leaves (hjob : n.JobStep sha256 conf self j n' next) :
    n.handler.Stays n'.handler ∨ n.handler.Leaves j n'.handler := by
  have hsame : n.handler.Stays n.handler := ⟨⟨rfl, rfl, rfl, fun hrunning => hrunning⟩, rfl⟩
  cases hjob with
  | ignored => exact .inl hsame
  | promised => exact .inl ⟨⟨rfl, rfl, rfl, fun _ => rfl⟩, rfl⟩
  | accepted => exact .inl ⟨⟨rfl, rfl, rfl, fun _ => rfl⟩, rfl⟩
  | chosen r msg h' _ _ _ _ _ _ hh =>
      subst hh
      exact .inl ⟨⟨rfl, rfl, rfl, fun hrunning => hrunning⟩, rfl⟩
  | blocks r msg h' _ _ _ _ _ _ hh =>
      subst hh
      exact .inl ⟨⟨rfl, rfl, rfl, fun hrunning => hrunning⟩, rfl⟩
  | countedAccept => exact .inl ⟨⟨rfl, rfl, rfl, fun _ => rfl⟩, rfl⟩
  | buffered r msg =>
      refine .inl ⟨⟨rfl, rfl, rfl, fun hrunning => ?_⟩, rfl⟩
      change (if _ then _ else _) = true
      split
      · rfl
      · exact hrunning
  | decided r msg block bs px hmsg _ _ _ hblock hleave =>
      refine .inr ⟨hleave.step_lt, fun C hj => ?_⟩
      change C px.handler.finalValue
      rw [hleave.handler, PaxosHandler.advance_finalValue, hblock]
      rw [Job.Carries, hmsg] at hj
      exact hj
  | finished r msg bs px hmsg _ _ _ hleave =>
      refine .inr ⟨hleave.step_lt, fun C hj => ?_⟩
      change C px.handler.finalValue
      rw [hleave.handler, PaxosHandler.advance_finalValue]
      rw [Job.Carries, hmsg] at hj
      exact hj
  | _ => exact .inl ⟨⟨rfl, rfl, rfl, fun hrunning => hrunning⟩, rfl⟩

omit [DecidableEq P] in
/-- An own step of a call leaves all but the proposal number as it is. -/
theorem TagCall.OwnStep.keeps {i : ℕ} {call : TagCall P} {c : Choice} {pc : TagPc P}
    (hown : call.OwnStep conf self i n c n' pc) : n.handler.KeepsStep n'.handler := by
  cases hown with
  | initInstance => exact ⟨rfl, rfl, rfl, fun _ => rfl⟩
  | recvPromise _ _ _ _ _ _ hrecv =>
      obtain ⟨c, hc, -, rfl⟩ := PaxosHandler.recvPromise_eq hrecv
      exact ⟨rfl, rfl, rfl, fun hrunning => hrunning⟩
  | recvValue _ _ _ _ _ hrecv =>
      obtain ⟨cs, hcs, rfl⟩ := PaxosHandler.recvValue_eq hrecv
      exact ⟨rfl, rfl, rfl, fun hrunning => hrunning⟩
  | _ => exact ⟨rfl, rfl, rfl, fun hrunning => hrunning⟩

end

/-- A peer has a final value from its first decision on. -/
theorem finalValue_eq_empty_iff [DecidableEq P] {sha256 : Bytes → Bytes}
    {conf : P → Configuration} {C : System P → Action P → Prop} {st : System P}
    (h : (network sha256 conf).ReachableUnder C st) (p : P) :
    (st.peers p).node.handler.finalValue = .empty ↔ (st.peers p).node.handler.step = 0 := by
  revert p
  refine network_invariant (I := fun st => ∀ p : P,
    (st.peers p).node.handler.finalValue = .empty ↔ (st.peers p).node.handler.step = 0)
    (fun _ => iff_of_true rfl rfl) ?_ h
  intro st st' a hst hI _ hstep
  have hjobs := (System.carriesCreated_of_reachable hst).jobs
  refine hstep.forall_node (I := fun _ n => n.handler.finalValue = .empty ↔ n.handler.step = 0)
    hI ?_ ?_ ?_
  · intro p n n' hpaxos _ _ hn
    rw [Node.handler, hpaxos]
    exact hn
  · intro p t j n next _ hj _ hjob
    rcases hjob.stays_or_leaves with hstays | hleaves
    · rw [hstays.finalValue, hstays.step]
      exact hI p
    · have hne := (hleaves.finalValue _ (hjobs p t j hj)).ne_empty
      have hlt := hleaves.step
      exact iff_of_false hne (by omega)
  · intro p i c call n pc _ _ _ _ hown
    rw [hown.keeps.step, hown.keeps.finalValue]
    exact hI p

end Minotor
