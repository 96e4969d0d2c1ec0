import Minotor.Network.Provenance
import Minotor.Support.SingleUse

/-!
# Nothing happens twice

Rumors of one origin arrive in sequence order, so a peer counts a rumor at most
once.  The IDs it promises in a step increase, so it sends at most one promise
for a step and an ID.
-/

namespace Minotor

variable {P : Type*}

/-! ## Rumors are counted once -/

/-- The rumor which a job processes. -/
def Job.rumorID : Job P → Option (P × ℕ)
  | .exec r => some (r.origin, r.sequence)
  | _ => none

/-- The rumor which an event has counted. -/
def Event.rumorID : Event P → Option (P × ℕ)
  | .countedPromise r _ => some (r.origin, r.sequence)
  | .countedAccept r _ => some (r.origin, r.sequence)
  | _ => none

/-- The rumors which a node has counted. -/
def Node.countedRumors (n : Node P) : List (P × ℕ) :=
  n.history.filterMap Event.rumorID

def Peer.processing (peer : Peer P) (t : Peer.Thread) : Option (P × ℕ) :=
  (peer.job? t).bind Job.rumorID

/-- A peer processes and counts only rumors it has seen, each of them once. -/
structure Peer.CountsOnce (p : P) (peer : Peer P) : Prop where
  own : peer.node.sequenceMap p = peer.node.rumors.length
  processing : ∀ t id, peer.processing t = some id → id.2 ≤ peer.node.sequenceMap id.1
  counted : ∀ id ∈ peer.node.countedRumors, id.2 ≤ peer.node.sequenceMap id.1
  single : SingleUse peer.processing peer.node.countedRumors

section

variable [DecidableEq P] {sha256 : Bytes → Bytes} {conf : Configuration} {self : P}
  {n n' : Node P}

/-- A job step appends a rumor and goes on with it, or it may count the rumor it
processes and goes on with no rumor. -/
theorem Node.JobStep.counted_cases {j : Job P} {next : Next P}
    (hjob : n.JobStep sha256 conf self j n' next) :
    (∃ msg, j = .broadcast msg ∧ n' = n.append self msg ∧
      next = .job (.exec ⟨self, n.rumors.length + 1, msg⟩)) ∨
    (n'.sequenceMap = n.sequenceMap ∧ n'.rumors = n.rumors ∧
      (∀ j', next = .job j' → j'.rumorID = none) ∧
      (n'.countedRumors = n.countedRumors ∨
        ∃ id, j.rumorID = some id ∧ n'.countedRumors = id :: n.countedRumors)) := by
  cases hjob with
  | broadcast msg => exact .inl ⟨msg, rfl, rfl, rfl⟩
  | counted r msg => exact .inr ⟨rfl, rfl, nofun, .inr ⟨_, rfl, rfl⟩⟩
  | chosen r msg => exact .inr ⟨rfl, rfl, nofun, .inr ⟨_, rfl, rfl⟩⟩
  | blocks r msg =>
      refine .inr ⟨rfl, rfl, ?_, .inr ⟨_, rfl, rfl⟩⟩
      rintro j' ⟨⟩
      rfl
  | panics r msg => exact .inr ⟨rfl, rfl, nofun, .inr ⟨_, rfl, rfl⟩⟩
  | countedAccept r msg => exact .inr ⟨rfl, rfl, nofun, .inr ⟨_, rfl, rfl⟩⟩
  | decided r msg =>
      refine .inr ⟨rfl, rfl, ?_, .inr ⟨_, rfl, rfl⟩⟩
      rintro j' ⟨⟩
      rfl
  | _ =>
      refine .inr ⟨rfl, rfl, ?_, .inl rfl⟩
      first
        | rintro j' ⟨⟩
          rfl
        | exact nofun

omit [DecidableEq P] in
/-- What a goroutine holds after a job step, it got from the step or held
before. -/
theorem Peer.bind_afterJob {β : Type*} (held : Job P → Option β) {peer : Peer P}
    {t t' : Peer.Thread} {j : Job P} {next : Next P} (hj : peer.job? t = some j) {id : β}
    (hid : ((peer.afterJob t n next).job? t').bind held = some id) :
    (t' = t ∧ ∃ j', next = .job j' ∧ held j' = some id) ∨
      t' ≠ t ∧ (peer.job? t').bind held = some id := by
  rw [Peer.job?_afterJob hj] at hid
  split at hid
  · next ht =>
      left
      cases next with
      | job j' => exact ⟨ht, j', rfl, hid⟩
      | done => cases hid
      | failed err => cases hid
  · next ht => exact .inr ⟨ht, hid⟩

omit [DecidableEq P] in
/-- A step which neither sees nor counts a rumor. -/
theorem Peer.CountsOnce.mono {peer peer' : Peer P} (h : peer.CountsOnce self)
    (hmap : peer'.node.sequenceMap = peer.node.sequenceMap)
    (hrumors : peer'.node.rumors = peer.node.rumors)
    (hcounted : peer'.node.countedRumors = peer.node.countedRumors)
    (hprocessing : ∀ t id, peer'.processing t = some id → peer.processing t = some id) :
    peer'.CountsOnce self where
  own := by
    rw [hmap, hrumors]
    exact h.own
  processing := by
    intro t id hid
    rw [hmap]
    exact h.processing t id (hprocessing t id hid)
  counted := by
    rw [hmap, hcounted]
    exact h.counted
  single := by
    rw [hcounted]
    exact h.single.mono hprocessing

theorem Peer.CountsOnce.job {peer : Peer P} (h : peer.CountsOnce self) {t : Peer.Thread}
    {j : Job P} {next : Next P} (hj : peer.job? t = some j)
    (hjob : peer.node.JobStep sha256 conf self j n next) :
    (peer.afterJob t n next).CountsOnce self := by
  have hagrees := Peer.afterJob_agrees peer n t next
  have hcounted : (peer.afterJob t n next).node.countedRumors = n.countedRumors := by
    rw [Node.countedRumors, hagrees.history]
    rfl
  rcases hjob.counted_cases with ⟨msg, rfl, rfl, rfl⟩ | ⟨hmap, hrumors, hnone, hcases⟩
  · -- a new rumor gets the next own sequence number
    have hmap : ∀ id : P × ℕ, id.2 ≤ peer.node.sequenceMap id.1 →
        id.2 ≤ (peer.node.append self msg).sequenceMap id.1 := by
      intro id hid
      rw [Node.append_sequenceMap]
      by_cases hself : id.1 = self
      · rw [hself, h.own] at hid
        rw [hself, Function.update_self]
        omega
      · rwa [Function.update_of_ne hself]
    refine ⟨?_, ?_, ?_, ?_⟩
    · rw [hagrees.sequenceMap, hagrees.rumors]
      simp
    · intro t' id hid
      rw [hagrees.sequenceMap]
      rcases Peer.bind_afterJob Job.rumorID hj hid with ⟨-, j', ⟨⟩, hj'⟩ | ⟨-, hid⟩
      · cases hj'
        simp
      · exact hmap id (h.processing t' id hid)
    · intro id hid
      rw [hcounted] at hid
      rw [hagrees.sequenceMap]
      exact hmap id (h.counted id hid)
    · rw [hcounted]
      refine h.single.take t (self, peer.node.rumors.length + 1) ?_ ?_ ?_
      · intro t' id hid
        rcases Peer.bind_afterJob Job.rumorID hj hid with ⟨ht, j', ⟨⟩, hj'⟩ | ⟨-, hid⟩
        · cases hj'
          exact .inr ⟨ht, rfl⟩
        · exact .inl hid
      · intro t' hid
        have := h.processing t' _ hid
        dsimp only at this
        rw [h.own] at this
        omega
      · intro hid
        have := h.counted _ hid
        dsimp only at this
        rw [h.own] at this
        omega
  · have hprocessing : ∀ t' id, (peer.afterJob t n next).processing t' = some id →
        t' ≠ t ∧ peer.processing t' = some id := by
      intro t' id hid
      rcases Peer.bind_afterJob Job.rumorID hj hid with ⟨-, j', hj', hid⟩ | hold
      · rw [hnone j' hj'] at hid
        cases hid
      · exact hold
    refine ⟨?_, ?_, ?_, ?_⟩
    · rw [hagrees.sequenceMap, hagrees.rumors, hmap, hrumors]
      exact h.own
    · intro t' id hid
      rw [hagrees.sequenceMap, hmap]
      exact h.processing t' id (hprocessing t' id hid).2
    · intro id hid
      rw [hcounted] at hid
      rw [hagrees.sequenceMap, hmap]
      rcases hcases with heq | ⟨id', hid', heq⟩
      · exact h.counted id (heq ▸ hid)
      · rw [heq, List.mem_cons] at hid
        rcases hid with rfl | hid
        · exact h.processing t id (by rw [Peer.processing, hj]; exact hid')
        · exact h.counted id hid
    · rw [hcounted]
      rcases hcases with heq | ⟨id', hid', heq⟩
      · rw [heq]
        exact h.single.mono fun t' id hid => (hprocessing t' id hid).2
      · refine h.single.use (t := t) ?_ hprocessing (List.Perm.of_eq heq)
        rw [Peer.processing, hj]
        exact hid'

omit [DecidableEq P] in
theorem Peer.CountsOnce.own_step {peer : Peer P} (h : peer.CountsOnce self) {i : ℕ}
    {call : TagCall P} {c : Choice} {pc : TagPc P} (hcall : peer.calls[i]? = some call)
    (hown : call.OwnStep conf self i peer.node c n pc) :
    (peer.movePc n i fun _ => pc).CountsOnce self := by
  have hnode : n.sequenceMap = peer.node.sequenceMap ∧ n.rumors = peer.node.rumors ∧
      n.countedRumors = peer.node.countedRumors := by
    cases hown <;> exact ⟨rfl, rfl, rfl⟩
  have hprocessing : ∀ t id, (peer.movePc n i fun _ => pc).processing t = some id →
      peer.processing t = some id := by
    intro t id hid
    rw [Peer.processing, Peer.job?_movePc hcall] at hid
    split at hid
    · cases hj : pc.job? with
      | none =>
          rw [hj] at hid
          cases hid
      | some j =>
          rw [hj] at hid
          rcases hown.broadcasts hj with ⟨_, _, _, rfl⟩ | ⟨_, _, _, rfl⟩
          · cases hid
          · cases hid
    · exact hid
  exact h.mono hnode.1 hnode.2.1 hnode.2.2 hprocessing

/-- The next rumor of another origin is a new one. -/
theorem Peer.CountsOnce.receive {peer : Peer P} (h : peer.CountsOnce self) {origin : P}
    {sequence : ℕ} {msg : Message P} (hne : origin ≠ self)
    (hnext : sequence = peer.node.sequenceMap origin + 1) :
    (System.receive peer ⟨origin, sequence, msg⟩).CountsOnce self := by
  have hmap : (System.receive peer ⟨origin, sequence, msg⟩).node.sequenceMap =
      Function.update peer.node.sequenceMap origin sequence := if_pos hnext
  have hle : ∀ id : P × ℕ, id.2 ≤ peer.node.sequenceMap id.1 →
      id.2 ≤ (System.receive peer ⟨origin, sequence, msg⟩).node.sequenceMap id.1 := by
    intro id hid
    rw [hmap]
    by_cases horigin : id.1 = origin
    · rw [horigin] at hid
      rw [horigin, Function.update_self]
      omega
    · rwa [Function.update_of_ne horigin]
  have hprocessing : ∀ t id,
      (System.receive peer ⟨origin, sequence, msg⟩).processing t = some id →
      peer.processing t = some id ∨ t = .listener ∧ id = (origin, sequence) := by
    intro t id hid
    cases t with
    | listener =>
        cases hid
        exact .inr ⟨rfl, rfl⟩
    | call k => exact .inl hid
  refine ⟨?_, ?_, ?_, ?_⟩
  · rw [hmap, Function.update_of_ne (Ne.symm hne)]
    exact h.own
  · intro t id hid
    rcases hprocessing t id hid with hid | ⟨-, rfl⟩
    · exact hle id (h.processing t id hid)
    · rw [hmap, Function.update_self]
  · exact fun id hid => hle id (h.counted id hid)
  · refine h.single.take .listener (origin, sequence) hprocessing ?_ ?_
    · intro t hid
      have := h.processing t _ hid
      dsimp only at this
      omega
    · intro hid
      have := h.counted _ hid
      dsimp only at this
      omega

end

section

variable [DecidableEq P] {sha256 : Bytes → Bytes} {conf : P → Configuration}
  {C : System P → Action P → Prop} {st : System P}

/-- If rumors arrive in order, no peer counts a rumor twice. -/
theorem countsOnce_of_reachable (hC : ∀ st a, C st a → st.InOrder a)
    (h : (network sha256 conf).ReachableUnder C st) (p : P) :
    (st.peers p).CountsOnce p := by
  revert p
  refine network_invariant (I := fun st => ∀ p, (st.peers p).CountsOnce p) ?_ ?_ h
  · intro p
    refine ⟨rfl, ?_, nofun, SingleUse.empty ?_⟩
    · intro t id hid
      cases t <;> cases hid
    · intro t
      cases t <;> rfl
  · intro st st' a _ hI hCa hstep
    refine hstep.forall_peer hI ?_ ?_ ?_ ?_ ?_
    · intro p name mh _
      refine (hI p).mono rfl rfl rfl fun t id hid => ?_
      rwa [Peer.processing, Peer.job?_append] at hid
    · intro p origin sequence msg ha _ _ _
      subst ha
      obtain ⟨hne, hnext⟩ := hC _ _ hCa
      exact (hI p).receive hne hnext
    · intro p t j n next _ hj _ hjob
      exact (hI p).job hj hjob
    · intro p i c call n pc _ hcall _ _ _ hown
      exact (hI p).own_step hcall hown
    · intro p _
      refine (hI p).mono rfl rfl rfl fun t id hid => ?_
      cases t <;> exact hid

end

/-! ## Promises are sent once -/

/-- The step and the ID of a promise. -/
def Message.promiseID : Message P → Option (ℕ × ℕ)
  | .promise _ msg => some (msg.step, msg.id)
  | _ => none

/-- The step and the ID of the promise which a job is about to send. -/
def Job.promiseID : Job P → Option (ℕ × ℕ)
  | .marshal _ draft => some (draft.step, draft.id)
  | .broadcast msg => msg.promiseID
  | _ => none

def Node.promisesSent (n : Node P) : List (ℕ × ℕ) :=
  n.rumors.filterMap Message.promiseID

def Peer.promising (peer : Peer P) (t : Peer.Thread) : Option (ℕ × ℕ) :=
  (peer.job? t).bind Job.promiseID

/-- The promises which a peer has sent or is about to send are for distinct steps
and IDs. -/
def Peer.PromisesOnce (peer : Peer P) : Prop :=
  SingleUse peer.promising peer.node.promisesSent

/-- The promise is for an earlier step, or for this one and an ID already
promised. -/
def PaxosHandler.HasPromised (h : PaxosHandler) (id : ℕ × ℕ) : Prop :=
  id.1 ≤ h.step ∧ (id.1 = h.step → id.2 ≤ h.maxID)

section

variable {self : P} {n : Node P}

theorem Node.Issued.hasPromised {msg : Message P} (h : n.Issued self msg)
    (haccounts : n.Accounts) {id : ℕ × ℕ} (hid : msg.promiseID = some id) :
    n.handler.HasPromised id := by
  cases msg with
  | promise q msg =>
      obtain ⟨draft, v, hevent, rfl⟩ := h
      cases hid
      exact haccounts _ hevent
  | _ => cases hid

theorem Node.IssuedJob.hasPromised {j : Job P} (h : n.IssuedJob self j)
    (haccounts : n.Accounts) {id : ℕ × ℕ} (hid : j.promiseID = some id) :
    n.handler.HasPromised id := by
  cases j with
  | marshal q draft =>
      cases hid
      exact haccounts _ h
  | broadcast msg => exact Node.Issued.hasPromised h haccounts hid
  | _ => cases hid

variable [DecidableEq P] {sha256 : Bytes → Bytes} {conf : Configuration} {n' : Node P}

/-- What a job step does to promises: it makes one for a larger ID, sends the one
it holds, or does neither. -/
theorem Node.JobStep.promise_cases {j : Job P} {next : Next P}
    (hjob : n.JobStep sha256 conf self j n' next) :
    (∃ j' id, next = .job j' ∧ j'.promiseID = some (n.handler.step, id) ∧
      n.handler.maxID < id ∧ n'.promisesSent = n.promisesSent) ∨
    (∃ id, j.promiseID = some id ∧ (∀ j', next = .job j' → j'.promiseID = none) ∧
      n'.promisesSent.Perm (id :: n.promisesSent)) ∨
    ((∀ j' id, next = .job j' → j'.promiseID = some id → j.promiseID = some id) ∧
      n'.promisesSent = n.promisesSent) := by
  cases hjob with
  | promised r msg _ _ _ hid => exact .inl ⟨_, msg.id, rfl, rfl, hid, rfl⟩
  | marshalled q draft =>
      refine .inr (.inr ⟨?_, rfl⟩)
      rintro j' id ⟨⟩ hid
      exact hid
  | broadcast msg =>
      right
      have hsent : (n.append self msg).promisesSent =
          n.promisesSent ++ [msg].filterMap Message.promiseID := by
        rw [Node.promisesSent, Node.append_rumors, List.filterMap_append]
        rfl
      rw [hsent]
      cases hid : msg.promiseID with
      | none =>
          right
          refine ⟨?_, by simp [hid]⟩
          rintro j' id ⟨⟩ hid
          cases hid
      | some id =>
          left
          refine ⟨id, hid, ?_, ?_⟩
          · rintro j' ⟨⟩
            rfl
          · simp only [List.filterMap_cons, hid, List.filterMap_nil]
            exact List.perm_append_singleton id _
  | _ =>
      refine .inr (.inr ⟨?_, rfl⟩)
      first
        | rintro j' id ⟨⟩ hid
          cases hid
        | exact nofun

theorem Peer.PromisesOnce.job {peer : Peer P} (h : peer.PromisesOnce)
    (haccounts : peer.node.Accounts)
    (hissued : ∀ msg ∈ peer.node.rumors, peer.node.Issued self msg)
    (hjobs : ∀ t j, peer.job? t = some j → peer.node.IssuedJob self j)
    {t : Peer.Thread} {j : Job P} {next : Next P} (hj : peer.job? t = some j)
    (hjob : peer.node.JobStep sha256 conf self j n next) :
    (peer.afterJob t n next).PromisesOnce := by
  have hsent : (peer.afterJob t n next).node.promisesSent = n.promisesSent := by
    rw [Node.promisesSent, (Peer.afterJob_agrees peer n t next).rumors]
    rfl
  rw [Peer.PromisesOnce, hsent]
  rcases hjob.promise_cases with
    ⟨j', id, rfl, hj', hlt, heq⟩ | ⟨id, hid, hnone, hperm⟩ | ⟨hkeep, heq⟩
  · rw [heq]
    refine h.take t (peer.node.handler.step, id) ?_ ?_ ?_
    · intro t' id' hid'
      rcases Peer.bind_afterJob Job.promiseID hj hid' with ⟨ht, _, ⟨⟩, hid'⟩ | ⟨-, hid'⟩
      · rw [hj'] at hid'
        cases hid'
        exact .inr ⟨ht, rfl⟩
      · exact .inl hid'
    · intro t' hid'
      rw [Peer.promising, Option.bind_eq_some_iff] at hid'
      obtain ⟨k, hk, hid'⟩ := hid'
      have := ((hjobs t' k hk).hasPromised haccounts hid').2 rfl
      dsimp only at this
      omega
    · intro hmem
      obtain ⟨msg, hmsg, hid'⟩ := List.mem_filterMap.mp hmem
      have := ((hissued msg hmsg).hasPromised haccounts hid').2 rfl
      dsimp only at this
      omega
  · refine h.use (t := t) ?_ ?_ hperm
    · rw [Peer.promising, hj]
      exact hid
    · intro t' id' hid'
      rcases Peer.bind_afterJob Job.promiseID hj hid' with ⟨-, j', hj', hid'⟩ | hold
      · rw [hnone j' hj'] at hid'
        cases hid'
      · exact hold
  · rw [heq]
    refine h.mono fun t' id' hid' => ?_
    rcases Peer.bind_afterJob Job.promiseID hj hid' with ⟨rfl, j', hj', hid'⟩ | ⟨-, hid'⟩
    · rw [Peer.promising, hj]
      exact hkeep j' id' hj' hid'
    · exact hid'

end

section

variable [DecidableEq P] {sha256 : Bytes → Bytes} {conf : P → Configuration}
  {C : System P → Action P → Prop} {st : System P}

/-- No peer sends two promises for one step and ID. -/
theorem promisesOnce_of_reachable (h : (network sha256 conf).ReachableUnder C st) (p : P) :
    (st.peers p).PromisesOnce := by
  revert p
  refine network_invariant (I := fun st => ∀ p, (st.peers p).PromisesOnce) ?_ ?_ h
  · intro p
    refine SingleUse.empty fun t => ?_
    cases t <;> rfl
  · intro st st' a hst hI _ hstep
    have hprov := System.provenance_of_reachable hst
    refine hstep.forall_peer hI ?_ ?_ ?_ ?_ ?_
    · intro p name mh _
      refine (hI p).mono fun t id hid => ?_
      rwa [Peer.promising, Peer.job?_append] at hid
    · intro p origin sequence msg _ _ _ _
      refine (hI p).mono fun t id hid => ?_
      cases t with
      | listener => cases hid
      | call k => exact hid
    · intro p t j n next _ hj _ hjob
      exact (hI p).job (hprov.accounts p) (hprov.rumors p) (hprov.jobs p) hj hjob
    · intro p i c call n pc _ hcall _ _ _ hown
      rw [Peer.PromisesOnce, Peer.movePc_node, Node.promisesSent, hown.rumors_eq]
      refine (hI p).mono fun t id hid => ?_
      rw [Peer.promising, Peer.job?_movePc hcall] at hid
      split at hid
      · rw [Option.bind_eq_some_iff] at hid
        obtain ⟨j, hj, hid⟩ := hid
        rcases hown.broadcasts hj with ⟨_, _, _, rfl⟩ | ⟨_, _, _, rfl⟩
        · cases hid
        · cases hid
      · exact hid
    · intro p _
      refine (hI p).mono fun t id hid => ?_
      cases t <;> exact hid

end

end Minotor
