import Minotor.Network.Steps

/-!
# Where messages come from

Rumors are never changed or forged: what a goroutine processes is a rumor of
its origin, and the messages which a peer counts are among the rumors of their
origin.
-/

namespace Minotor

variable {P : Type*}

/-- `r` is a rumor of its origin. -/
def System.Authentic (st : System P) (r : Rumor P) : Prop :=
  0 < r.sequence ∧ (st.peers r.origin).node.rumors[r.sequence - 1]? = some r.msg

theorem System.Authentic.mem {st : System P} {r : Rumor P} (h : st.Authentic r) :
    r.msg ∈ (st.peers r.origin).node.rumors :=
  List.mem_of_getElem? h.2

/-- The rumor of a job is authentic. -/
def System.AuthenticJob (st : System P) : Job P → Prop
  | .exec r => st.Authentic r
  | _ => True

/-- The rumor of a counted message is authentic and carries the message. -/
def System.AuthenticEvent (st : System P) (p : P) : Event P → Prop
  | .countedPromise r msg => st.Authentic r ∧ r.msg = .promise p msg
  | .countedAccept r msg => st.Authentic r ∧ r.msg = .accept msg
  | _ => True

/-- Everything processed and everything counted is authentic. -/
structure System.NoForgery (st : System P) : Prop where
  jobs : ∀ p t j, (st.peers p).job? t = some j → st.AuthenticJob j
  events : ∀ p, ∀ e ∈ (st.peers p).node.history, st.AuthenticEvent p e

namespace System

variable [DecidableEq P] {sha256 : Bytes → Bytes} {conf : P → Configuration}
  {st st' : System P} {a : Action P}

theorem Authentic.step {r : Rumor P} (h : st.Authentic r)
    (hstep : Step sha256 conf st a st') : st'.Authentic r := by
  refine ⟨h.1, ?_⟩
  obtain ⟨hlt, -⟩ := List.getElem?_eq_some_iff.mp h.2
  obtain ⟨rest, hrest⟩ := hstep.rumors_prefix r.origin
  rw [← hrest, List.getElem?_append_left hlt]
  exact h.2

theorem AuthenticJob.step {j : Job P} (h : st.AuthenticJob j)
    (hstep : Step sha256 conf st a st') : st'.AuthenticJob j := by
  cases j with
  | exec r => exact Authentic.step h hstep
  | _ => trivial

theorem AuthenticEvent.step {p : P} {e : Event P} (h : st.AuthenticEvent p e)
    (hstep : Step sha256 conf st a st') : st'.AuthenticEvent p e := by
  cases e with
  | countedPromise r msg => exact ⟨h.1.step hstep, h.2⟩
  | countedAccept r msg => exact ⟨h.1.step hstep, h.2⟩
  | _ => trivial

/-- The jobs which a job step creates are authentic. -/
theorem AuthenticJob.jobStep {conf : Configuration} {p : P} {n n' : Node P} {j j' : Job P}
    (hnode : n'.Agrees (st'.peers p).node)
    (hjob : n.JobStep sha256 conf p j n' (.job j')) : st'.AuthenticJob j' := by
  cases hjob with
  | broadcast msg =>
      refine ⟨Nat.succ_pos _, ?_⟩
      rw [hnode.rumors]
      simp
  | _ => trivial

/-- A job step which processes an authentic rumor records authentic events. -/
theorem AuthenticEvent.jobStep {conf : Configuration} {p : P} {n n' : Node P} {j : Job P}
    {next : Next P} (hj : st.AuthenticJob j)
    (h : ∀ e ∈ n.history, st.AuthenticEvent p e)
    (hjob : n.JobStep sha256 conf p j n' next) :
    ∀ e ∈ n'.history, st.AuthenticEvent p e := by
  cases hjob with
  | promised => exact List.forall_mem_cons.mpr ⟨trivial, h⟩
  | accepted => exact List.forall_mem_cons.mpr ⟨trivial, h⟩
  | counted r msg hmsg => exact List.forall_mem_cons.mpr ⟨⟨hj, hmsg⟩, h⟩
  | chosen r msg _ hmsg =>
      exact List.forall_mem_cons.mpr ⟨trivial, List.forall_mem_cons.mpr ⟨⟨hj, hmsg⟩, h⟩⟩
  | blocks r msg _ hmsg =>
      exact List.forall_mem_cons.mpr ⟨trivial, List.forall_mem_cons.mpr ⟨⟨hj, hmsg⟩, h⟩⟩
  | panics r msg _ hmsg => exact List.forall_mem_cons.mpr ⟨⟨hj, hmsg⟩, h⟩
  | countedAccept r msg hmsg => exact List.forall_mem_cons.mpr ⟨⟨hj, hmsg⟩, h⟩
  | decided r msg _ _ _ hmsg =>
      exact List.forall_mem_cons.mpr ⟨trivial, List.forall_mem_cons.mpr ⟨⟨hj, hmsg⟩, h⟩⟩
  | _ => exact h

omit [DecidableEq P] in
theorem AuthenticEvent.ownStep {conf : Configuration} {p : P} {i : ℕ} {n n' : Node P}
    {call : TagCall P} {c : Choice} {pc : TagPc P}
    (h : ∀ e ∈ n.history, st.AuthenticEvent p e)
    (hown : call.OwnStep conf p i n c n' pc) :
    ∀ e ∈ n'.history, st.AuthenticEvent p e := by
  cases hown with
  | prepare => exact List.forall_mem_cons.mpr ⟨trivial, h⟩
  | propose => exact List.forall_mem_cons.mpr ⟨trivial, h⟩
  | _ => exact h

theorem NoForgery.step (h : st.NoForgery) (hstep : Step sha256 conf st a st') :
    st'.NoForgery where
  jobs := by
    refine hstep.forall_job (J := fun _ => st.AuthenticJob) h.jobs
      (fun _ _ hj => hj.step hstep) ?_ ?_ ?_
    · intro p origin sequence msg _ hpos hmsg
      exact Authentic.step ⟨hpos, hmsg⟩ hstep
    · intro p t j n j' _ _ hnode hjob
      exact AuthenticJob.jobStep hnode hjob
    · intro p i c call n pc j' _ _ _ _ hown hj'
      rcases hown.broadcasts hj' with ⟨_, _, _, rfl⟩ | ⟨_, _, _, rfl⟩
      · trivial
      · trivial
  events := by
    have hevents : ∀ p, ∀ e ∈ (st'.peers p).node.history, st.AuthenticEvent p e := by
      refine hstep.forall_node (I := fun p n => ∀ e ∈ n.history, st.AuthenticEvent p e)
        h.events ?_ ?_ ?_
      · intro p n n' _ _ hhistory hn
        rwa [hhistory]
      · intro p t j n next _ hj _ hjob
        exact AuthenticEvent.jobStep (h.jobs p t j hj) (h.events p) hjob
      · intro p i c call n pc _ _ _ _ hown
        exact AuthenticEvent.ownStep (h.events p) hown
    intro p e he
    exact (hevents p e he).step hstep

theorem noForgery_of_reachable {C : System P → Action P → Prop}
    (h : (network sha256 conf).ReachableUnder C st) : st.NoForgery := by
  refine network_invariant ?_ (fun _ _ _ _ hI _ hstep => hI.step hstep) h
  refine ⟨fun p t j hj => ?_, fun p => by exact nofun⟩
  cases t <;> cases hj

end System
end Minotor
