import Minotor.Peer.Responses
import Mathlib.Data.List.Infix

/-!
# The acceptor

Promises are kept: whatever the node handles, the promises of a step have
increasing IDs and an accept message carries the ID of the last of them.  What a
promise reports is another matter: it is the first proposal which was accepted
in the step, not the last one.
-/

namespace Minotor

variable {P : Type*}

/-- The IDs of the promises given at step `s`, in order. -/
def promisedIDs (s : ℕ) (log : List (ℕ × Response)) : List ℕ :=
  log.filterMap fun
    | (t, .promise msg) => if t = s then some msg.id else none
    | _ => none

/-- The ID of the last promise given at step `s`, and 0 if there is none. -/
def lastPromised (s : ℕ) (log : List (ℕ × Response)) : ℕ :=
  (promisedIDs s log).getLast?.getD 0

theorem promisedIDs_append (s : ℕ) (log log' : List (ℕ × Response)) :
    promisedIDs s (log ++ log') = promisedIDs s log ++ promisedIDs s log' :=
  List.filterMap_append

/-- Promises carry the step they are given in and have increasing IDs there; an
accept message carries the step and the ID of the last promise. -/
structure KeepsPromises (log : List (ℕ × Response)) : Prop where
  promise_step : ∀ s msg, (s, .promise msg) ∈ log → msg.step = s
  increasing : ∀ s, (promisedIDs s log).Pairwise (· < ·)
  accept : ∀ before s msg, before ++ [(s, .accept msg)] <+: log →
    msg.step = s ∧ msg.id = lastPromised s before ∧
      ∀ id ∈ promisedIDs s before, id ≤ msg.id

theorem keepsPromises_nil : KeepsPromises [] where
  promise_step := by simp
  increasing s := .nil
  accept before s msg h := by simp at h

/-- The last promise of a step has the largest ID. -/
theorem KeepsPromises.le_lastPromised {log : List (ℕ × Response)} (h : KeepsPromises log)
    {s id : ℕ} (hid : id ∈ promisedIDs s log) : id ≤ lastPromised s log := by
  have hincreasing := h.increasing s
  unfold lastPromised
  generalize promisedIDs s log = ids at hid hincreasing
  rcases List.eq_nil_or_concat ids with rfl | ⟨front, last, rfl⟩
  · simp at hid
  · rw [List.concat_eq_append, List.mem_append, List.mem_singleton] at hid
    rw [List.concat_eq_append, List.pairwise_append] at hincreasing
    rw [List.concat_eq_append, List.getLast?_concat, Option.getD_some]
    rcases hid with hid | rfl
    · exact (hincreasing.2.2 id hid last (List.mem_singleton_self last)).le
    · exact le_rfl

/-- A response which keeps the promises in `log` when it is given at step `s`. -/
def Response.Keeps (log : List (ℕ × Response)) (s : ℕ) : Response → Prop
  | .promise msg => msg.step = s ∧ lastPromised s log < msg.id
  | .accept msg => msg.step = s ∧ msg.id = lastPromised s log
  | .tlc _ => True

theorem KeepsPromises.concat {log : List (ℕ × Response)} (h : KeepsPromises log) {s : ℕ}
    {r : Response} (hr : r.Keeps log s) : KeepsPromises (log ++ [(s, r)]) where
  promise_step := by
    intro t msg hmem
    rw [List.mem_append, List.mem_singleton] at hmem
    rcases hmem with hmem | heq
    · exact h.promise_step t msg hmem
    · cases heq
      exact hr.1
  increasing := by
    intro t
    rw [promisedIDs_append, List.pairwise_append]
    refine ⟨h.increasing t, ?_, ?_⟩
    · cases r with
      | promise msg =>
          by_cases hst : s = t
          · simp [promisedIDs, hst]
          · simp [promisedIDs, hst]
      | accept msg => exact .nil
      | tlc msg => exact .nil
    · intro id hid id' hid'
      cases r with
      | promise msg =>
          by_cases hst : s = t
          · have heq : id' = msg.id := by simpa [promisedIDs, hst] using hid'
            have hlast := h.le_lastPromised hid
            have hlt := hr.2
            rw [hst] at hlt
            omega
          · simp [promisedIDs, hst] at hid'
      | accept msg => simp [promisedIDs] at hid'
      | tlc msg => simp [promisedIDs] at hid'
  accept := by
    intro before t msg hprefix
    rw [List.prefix_concat_iff] at hprefix
    rcases hprefix with heq | hprefix
    · obtain ⟨rfl, hlast⟩ := List.append_inj' heq rfl
      cases hlast
      exact ⟨hr.1, hr.2, fun id hid => hr.2 ▸ h.le_lastPromised hid⟩
    · exact h.accept before t msg hprefix

/-- The handler's `maxID` is the last promise of its step, and no later step has
been promised anything. -/
structure PromiseInv (log : List (ℕ × Response)) (n : PaxosNode) : Prop where
  kept : KeepsPromises log
  last : n.handler.maxID = lastPromised n.handler.step log
  future : ∀ s, n.handler.step < s → promisedIDs s log = []

section

variable {sha256 : Bytes → Bytes} {conf : Configuration} {n n' : PaxosNode}

theorem promiseInv_start (conf : Configuration) (s : Storage) :
    PromiseInv [] (.start conf s) where
  kept := keepsPromises_nil
  last := rfl
  future _ _ := rfl

/-- A response other than a promise, after which the node is at the same step
with the same `maxID`. -/
theorem PromiseInv.other {log : List (ℕ × Response)} (h : PromiseInv log n)
    {new : List (ℕ × Response)} (hkept : KeepsPromises (log ++ new))
    (hnew : ∀ s, promisedIDs s new = []) (hstep : n'.handler.step = n.handler.step)
    (hmax : n'.handler.maxID = n.handler.maxID) : PromiseInv (log ++ new) n' where
  kept := hkept
  last := by
    rw [lastPromised, promisedIDs_append, hnew, List.append_nil, hmax, hstep]
    exact h.last
  future s hs := by
    rw [promisedIDs_append, hnew, List.append_nil]
    exact h.future s (hstep ▸ hs)

/-- A TLC message is sent when the step is left, and the next step begins
without promises. -/
theorem PromiseInv.leaves {log : List (ℕ × Response)} (h : PromiseInv log n) (t : TLCMessage)
    (hstep : n.handler.step < n'.handler.step) (hfresh : n'.handler.Fresh) :
    PromiseInv (log ++ [(n.handler.step, .tlc t)]) n' where
  kept := h.kept.concat (r := .tlc t) trivial
  last := by
    rw [hfresh.maxID, lastPromised, promisedIDs_append, h.future _ hstep]
    rfl
  future s hs := by
    rw [promisedIDs_append, h.future s (hstep.trans hs)]
    rfl

/-- Every message keeps the invariant. -/
theorem PromiseInv.responds {log : List (ℕ × Response)} {msg : AcceptorMessage P}
    {o : Option Response} (hresp : PaxosNode.Responds sha256 conf n msg o n')
    (h : PromiseInv log n) :
    PromiseInv (log ++ (o.map fun r => (n.handler.step, r)).toList) n' := by
  cases hresp with
  | ignored _ hignores => exact h.other (by simpa using h.kept) (fun _ => rfl) rfl rfl
  | countedAccept msg hstep hbelow =>
      exact h.other (by simpa using h.kept) (fun _ => rfl) rfl rfl
  | buffered msg hle hbelow =>
      exact h.other (by simpa using h.kept) (fun _ => rfl) rfl rfl
  | promised msg hstep hid =>
      refine ⟨h.kept.concat ⟨rfl, h.last ▸ hid⟩, ?_, fun s hs => ?_⟩
      · simp [lastPromised, promisedIDs, PaxosHandler.promised, PromiseDraft.marshal,
          PaxosHandler.draft]
      · have hne : n.handler.step ≠ s := hs.ne
        rw [promisedIDs_append, h.future s hs]
        simp [promisedIDs, hne]
  | accepted msg hstep hid =>
      exact h.other (h.kept.concat ⟨hstep.symm, hid.trans h.last⟩) (fun _ => rfl) rfl rfl
  | decided msg bs n' hstep hfull hleave =>
      exact h.leaves _ hleave.step_lt hleave.fresh
  | finished msg bs n' hstep hfull hleave =>
      exact h.leaves _ hleave.step_lt hleave.fresh

theorem PaxosNode.Responds.step_le {msg : AcceptorMessage P} {o : Option Response}
    (hresp : PaxosNode.Responds sha256 conf n msg o n') :
    n.handler.step ≤ n'.handler.step := by
  cases hresp with
  | decided msg bs n' hstep hfull hleave => exact hleave.step_lt.le
  | finished msg bs n' hstep hfull hleave => exact hleave.step_lt.le
  | _ => exact le_rfl

/-- The step never decreases. -/
theorem step_le_after (hT : n.handler.threshold = conf.threshold)
    (msgs : List (AcceptorMessage P)) :
    n.handler.step ≤ (n.after sha256 conf msgs).handler.step :=
  PaxosNode.log_invariant (I := fun _ n' => n.handler.step ≤ n'.handler.step)
    (fun _ _ _ _ _ hresp hle => hle.trans hresp.step_le) hT le_rfl msgs

end

/-- For every threshold and every sequence of messages which a node handles, the
step never decreases, the promises of each step have increasing IDs, and every
accept message of a step carries the ID of the last promise before it. -/
theorem promises_kept (sha256 : Bytes → Bytes) (conf : Configuration) (s : Storage)
    (msgs : List (AcceptorMessage P)) :
    (∀ pre, pre <+: msgs →
      ((PaxosNode.start conf s).after sha256 conf pre).handler.step ≤
        ((PaxosNode.start conf s).after sha256 conf msgs).handler.step) ∧
      KeepsPromises ((PaxosNode.start conf s).log sha256 conf msgs) := by
  constructor
  · rintro pre ⟨rest, rfl⟩
    have hT : ((PaxosNode.start conf s).after sha256 conf pre).handler.threshold =
        conf.threshold :=
      PaxosNode.after_threshold rfl pre
    rw [PaxosNode.after_append]
    exact step_le_after hT rest
  · have hinv : PromiseInv ((PaxosNode.start conf s).log sha256 conf msgs)
        ((PaxosNode.start conf s).after sha256 conf msgs) :=
      PaxosNode.log_invariant (fun _ _ _ _ _ hresp h => h.responds hresp) rfl
        (promiseInv_start conf s) msgs
    exact hinv.kept

/-! ## What a promise reports -/

/-- The accept messages given at step `s`, in order; each repeats the propose
message it answers. -/
def acceptsOf (s : ℕ) (log : List (ℕ × Response)) : List PaxosAcceptMessage :=
  log.filterMap fun
    | (t, .accept msg) => if t = s then some msg else none
    | _ => none

theorem acceptsOf_append (s : ℕ) (log log' : List (ℕ × Response)) :
    acceptsOf s (log ++ log') = acceptsOf s log ++ acceptsOf s log' :=
  List.filterMap_append

/-- A promise reports the last of these accepted proposals, which is also the
highest-numbered of them, or nothing if there is none. -/
def PaxosPromiseMessage.ReportsLast (accepts : List PaxosAcceptMessage)
    (msg : PaxosPromiseMessage) : Prop :=
  match accepts.getLast? with
  | none => msg.acceptedID = 0 ∧ msg.acceptedValue = none
  | some last =>
      msg.acceptedID = last.id ∧ msg.acceptedValue = some last.value ∧
        ∀ accept ∈ accepts, accept.id ≤ last.id

/-- Every promise reports the last proposal accepted before it in its step. -/
def ReportsLastAccept (log : List (ℕ × Response)) : Prop :=
  ∀ before s msg, before ++ [(s, .promise msg)] <+: log →
    msg.ReportsLast (acceptsOf s before)

/-- A message of a proposer. -/
def FromProposer : AcceptorMessage P → Prop
  | .prepare _ => True
  | .propose _ => True
  | _ => False

/-- The larger of `m` and the ID of a prepare message of step `s`. -/
def raise (s m : ℕ) : AcceptorMessage P → ℕ
  | .prepare msg => if msg.step = s then max m msg.id else m
  | _ => m

/-- The highest ID of the prepare messages of step `s`. -/
def highestID (s : ℕ) (msgs : List (AcceptorMessage P)) : ℕ :=
  msgs.foldl (raise s) 0

/-- The propose messages of step `s` whose ID is the highest ID prepared before
them. -/
def proposals (s : ℕ) : ℕ → List (AcceptorMessage P) → List PaxosProposeMessage
  | _, [] => []
  | m, .propose msg :: msgs =>
      if msg.step = s ∧ msg.id = m then msg :: proposals s m msgs else proposals s m msgs
  | m, msg :: msgs => proposals s (raise s m msg) msgs

/-- The value of a proposal is not the zero value. -/
def PaxosProposeMessage.hasValue (p : PaxosProposeMessage) : Bool :=
  decide (p.value ≠ .empty)

theorem value_ne_of_find {ps : List PaxosProposeMessage} {first : PaxosProposeMessage}
    (hfind : ps.find? PaxosProposeMessage.hasValue = some first) : first.value ≠ .empty := by
  have hvalue := List.find?_some hfind
  exact of_decide_eq_true hvalue

/-- There are no proposals, or the first one with a value is the last one, in ID
and value. -/
def FirstIsLast (ps : List PaxosProposeMessage) : Prop :=
  ∀ last ∈ ps.getLast?, ∃ first ∈ ps.find? PaxosProposeMessage.hasValue,
    first.id = last.id ∧ first.value = last.value

/-- Whenever a prepare message of step `s` raises the highest ID, the proposals
before it satisfy `FirstIsLast`. -/
def PreparedAfterFirst (s : ℕ) (msgs : List (AcceptorMessage P)) : Prop :=
  ∀ pre msg, pre ++ [.prepare msg] <+: msgs → msg.step = s → highestID s pre < msg.id →
    FirstIsLast (proposals s 0 pre)

theorem highestID_concat (s : ℕ) (msgs : List (AcceptorMessage P)) (msg : AcceptorMessage P) :
    highestID s (msgs ++ [msg]) = raise s (highestID s msgs) msg := by
  rw [highestID, List.foldl_append]
  rfl

theorem proposals_append (s m : ℕ) (msgs msgs' : List (AcceptorMessage P)) :
    proposals s m (msgs ++ msgs') =
      proposals s m msgs ++ proposals s (msgs.foldl (raise s) m) msgs' := by
  induction msgs generalizing m with
  | nil => rfl
  | cons msg msgs ih =>
      cases msg with
      | propose msg =>
          rw [List.cons_append, proposals, proposals, ih]
          split
          · rfl
          · rfl
      | prepare msg => exact ih _
      | accept msg => exact ih _
      | tlc msg => exact ih _

theorem le_raise (s m : ℕ) (msg : AcceptorMessage P) : m ≤ raise s m msg := by
  cases msg with
  | prepare msg =>
      rw [raise]
      split
      · exact le_max_left _ _
      · exact le_rfl
  | _ => exact le_rfl

theorem le_of_mem_proposals {s m : ℕ} {msgs : List (AcceptorMessage P)}
    {p : PaxosProposeMessage} (hp : p ∈ proposals s m msgs) : m ≤ p.id := by
  induction msgs generalizing m with
  | nil => simp [proposals] at hp
  | cons msg msgs ih =>
      cases msg with
      | propose msg =>
          rw [proposals] at hp
          split at hp
          · next hmsg =>
              rcases List.mem_cons.mp hp with rfl | hp
              · exact hmsg.2.ge
              · exact ih hp
          · exact ih hp
      | prepare msg => exact (le_raise s m _).trans (ih hp)
      | accept msg => exact ih hp
      | tlc msg => exact ih hp

/-- The proposals accepted in a step come with increasing IDs. -/
theorem proposals_pairwise (s m : ℕ) (msgs : List (AcceptorMessage P)) :
    (proposals s m msgs).Pairwise fun p q => p.id ≤ q.id := by
  induction msgs generalizing m with
  | nil => exact .nil
  | cons msg msgs ih =>
      cases msg with
      | propose msg =>
          rw [proposals]
          split
          · next hmsg => exact .cons (fun q hq => hmsg.2 ▸ le_of_mem_proposals hq) (ih m)
          · exact ih m
      | prepare msg => exact ih _
      | accept msg => exact ih _
      | tlc msg => exact ih _

/-- The ID and the value which the acceptor keeps of the proposals it accepts:
those of the first one with a value, until then those of the last one. -/
def keptProposal (ps : List PaxosProposeMessage) : ℕ × PaxosValue :=
  match ps.find? PaxosProposeMessage.hasValue with
  | some first => (first.id, first.value)
  | none => ((ps.getLast?.map fun p => p.id).getD 0, .empty)

theorem keptProposal_concat (ps : List PaxosProposeMessage) (p : PaxosProposeMessage) :
    keptProposal (ps ++ [p]) =
      if (keptProposal ps).2 = .empty then (p.id, p.value) else keptProposal ps := by
  unfold keptProposal
  cases hfind : ps.find? PaxosProposeMessage.hasValue with
  | none =>
      by_cases hp : p.value = .empty
      · simp [List.find?_append, hfind, PaxosProposeMessage.hasValue, hp]
      · simp [List.find?_append, hfind, PaxosProposeMessage.hasValue, hp]
  | some first =>
      have hfirst : first.value ≠ .empty := value_ne_of_find hfind
      simp [List.find?_append, hfind, hfirst]

/-- The promise which an acceptor gives after the proposals `ps` reports the
last of them exactly if the first one with a value is the last one. -/
theorem reportsLast_iff {h : PaxosHandler} {ps : List PaxosProposeMessage} (id : ℕ)
    (hkept : (h.acceptedID, h.acceptedValue) = keptProposal ps)
    (hsorted : ps.Pairwise fun p q => p.id ≤ q.id) :
    ((h.draft id).marshal h.acceptedValue).ReportsLast
        (ps.map PaxosProposeMessage.accept) ↔ FirstIsLast ps := by
  rcases List.eq_nil_or_concat ps with rfl | ⟨front, last, hps⟩
  · obtain ⟨hid, hvalue⟩ := Prod.mk.inj hkept
    simp [PaxosPromiseMessage.ReportsLast, FirstIsLast, PromiseDraft.marshal,
      PaxosHandler.draft, hid, hvalue]
  · rw [List.concat_eq_append] at hps
    have hlast : ps.getLast? = some last := by rw [hps, List.getLast?_concat]
    have hmax : ∀ accept ∈ ps.map PaxosProposeMessage.accept, accept.id ≤ last.id := by
      intro accept haccept
      obtain ⟨p, hp, rfl⟩ := List.mem_map.mp haccept
      rw [hps, List.mem_append, List.mem_singleton] at hp
      rw [hps, List.pairwise_append] at hsorted
      rcases hp with hp | rfl
      · exact hsorted.2.2 p hp last (List.mem_singleton_self last)
      · exact le_rfl
    unfold keptProposal at hkept
    simp only [PaxosPromiseMessage.ReportsLast, FirstIsLast, List.getLast?_map, hlast,
      Option.map_some, Option.mem_def, Option.some.injEq, forall_eq']
    cases hfind : ps.find? PaxosProposeMessage.hasValue with
    | none =>
        rw [hfind] at hkept
        obtain ⟨-, hvalue⟩ := Prod.mk.inj hkept
        simp [PromiseDraft.marshal, PaxosHandler.draft, hvalue]
    | some first =>
        have hfirst : first.value ≠ .empty := value_ne_of_find hfind
        rw [hfind] at hkept
        obtain ⟨hid, hvalue⟩ := Prod.mk.inj hkept
        simp only [PromiseDraft.marshal, PaxosHandler.draft, hid, hvalue, hfirst, ne_eq,
          not_false_eq_true, decide_true, if_true, Option.some.injEq]
        exact ⟨fun h => ⟨first, rfl, h.1, h.2.1⟩,
          fun ⟨_, heq, h⟩ => heq ▸ ⟨h.1, h.2, hmax⟩⟩

/-- What a fresh acceptor of step `s` has become after messages of proposers. -/
structure AcceptorInv (s : ℕ) (msgs : List (AcceptorMessage P))
    (log : List (ℕ × Response)) (n : PaxosNode) : Prop where
  step : n.handler.step = s
  maxID : n.handler.maxID = highestID s msgs
  kept : (n.handler.acceptedID, n.handler.acceptedValue) =
    keptProposal (proposals s 0 msgs)
  accepts : acceptsOf s log = (proposals s 0 msgs).map PaxosProposeMessage.accept

section

variable {sha256 : Bytes → Bytes} {conf : Configuration} {n n' : PaxosNode}

theorem acceptorInv_fresh (hfresh : n.handler.Fresh) :
    AcceptorInv (P := P) n.handler.step [] [] n where
  step := rfl
  maxID := hfresh.maxID
  kept := by
    rw [hfresh.acceptedID, hfresh.acceptedValue]
    rfl
  accepts := rfl

variable {s : ℕ} {msgs : List (AcceptorMessage P)} {log : List (ℕ × Response)}
  {o : Option Response}

/-- A prepare message, promised or ignored. -/
theorem AcceptorInv.prepare (h : AcceptorInv s msgs log n) {msg : PaxosPrepareMessage P}
    (hresp : PaxosNode.Responds sha256 conf n (.prepare msg) o n') :
    AcceptorInv s (msgs ++ [.prepare msg])
      (log ++ (o.map fun r => (n.handler.step, r)).toList) n' := by
  have hproposals : proposals s 0 (msgs ++ [.prepare msg]) = proposals s 0 msgs := by
    rw [proposals_append]
    exact List.append_nil _
  cases hresp with
  | ignored _ hignores =>
      refine ⟨h.step, ?_, hproposals ▸ h.kept, ?_⟩
      · rw [highestID_concat, raise, h.maxID]
        rcases hignores with hstep | hid
        · rw [if_neg fun heq => hstep (h.step.trans heq.symm)]
        · rw [max_eq_left (h.maxID ▸ hid), ite_self]
      · rw [hproposals, ← h.accepts]
        exact congrArg _ (List.append_nil log)
  | promised msg hstep hid =>
      refine ⟨h.step, ?_, hproposals ▸ h.kept, ?_⟩
      · rw [highestID_concat, raise, if_pos (hstep ▸ h.step), ← h.maxID]
        exact (max_eq_right hid.le).symm
      · rw [hproposals, acceptsOf_append, h.accepts]
        exact List.append_nil _

/-- A propose message, accepted or ignored. -/
theorem AcceptorInv.propose (h : AcceptorInv s msgs log n) {msg : PaxosProposeMessage}
    (hresp : PaxosNode.Responds (P := P) sha256 conf n (.propose msg) o n') :
    AcceptorInv (P := P) s (msgs ++ [.propose msg])
      (log ++ (o.map fun r => (n.handler.step, r)).toList) n' := by
  have hproposals : proposals (P := P) s 0 (msgs ++ [.propose msg]) =
      proposals s 0 msgs ++ if msg.step = s ∧ msg.id = highestID s msgs then [msg] else [] := by
    rw [proposals_append, ← highestID]
    rfl
  have hhighest : highestID s (msgs ++ [.propose msg]) = highestID s msgs :=
    highestID_concat ..
  cases hresp with
  | ignored _ hignores =>
      have hnot : ¬ (msg.step = s ∧ msg.id = highestID s msgs) := by
        rintro ⟨hstep, hid⟩
        rcases hignores with hne | hne
        · exact hne (h.step.trans hstep.symm)
        · exact hne (hid.trans h.maxID.symm)
      rw [if_neg hnot, List.append_nil] at hproposals
      refine ⟨h.step, hhighest ▸ h.maxID, hproposals ▸ h.kept, ?_⟩
      rw [hproposals, ← h.accepts]
      exact congrArg _ (List.append_nil log)
  | accepted msg hstep hid =>
      have htaken : msg.step = s ∧ msg.id = highestID s msgs :=
        ⟨hstep.symm.trans h.step, hid.trans h.maxID⟩
      rw [if_pos htaken] at hproposals
      refine ⟨h.step, hhighest ▸ h.maxID, ?_, ?_⟩
      · rw [hproposals, keptProposal_concat, ← h.kept]
        simp only [PaxosHandler.accepted]
        split
        · rfl
        · rfl
      · rw [hproposals, acceptsOf_append, h.accepts, List.map_append]
        simp [acceptsOf, h.step]

theorem AcceptorInv.responds (h : AcceptorInv s msgs log n) {msg : AcceptorMessage P}
    (hmsg : FromProposer msg) (hresp : PaxosNode.Responds sha256 conf n msg o n') :
    AcceptorInv s (msgs ++ [msg])
      (log ++ (o.map fun r => (n.handler.step, r)).toList) n' := by
  cases msg with
  | prepare msg => exact h.prepare hresp
  | propose msg => exact h.propose hresp
  | accept msg => exact hmsg.elim
  | tlc msg => exact hmsg.elim

/-- A promise is given exactly for a prepare message of the step which raises
the highest ID. -/
theorem AcceptorInv.reports_iff (h : AcceptorInv s msgs log n) {msg : AcceptorMessage P}
    (hmsg : FromProposer msg) (hresp : PaxosNode.Responds sha256 conf n msg o n') :
    (∀ promise, o = some (.promise promise) → promise.ReportsLast (acceptsOf s log)) ↔
      ∀ prepare, msg = .prepare prepare → prepare.step = s →
        highestID s msgs < prepare.id → FirstIsLast (proposals s 0 msgs) := by
  cases hresp with
  | ignored _ hignores =>
      constructor
      · rintro - prepare rfl hstep hid
        rcases hignores with hne | hle
        · exact absurd (h.step.trans hstep.symm) hne
        · rw [h.maxID] at hle
          omega
      · rintro - _ ⟨⟩
  | promised prepare hstep hid =>
      have hiff := reportsLast_iff prepare.id h.kept (proposals_pairwise s 0 msgs)
      rw [← h.accepts] at hiff
      constructor
      · intro hreports _ _ _ _
        exact hiff.mp (hreports _ rfl)
      · intro hfirst promise heq
        cases heq
        exact hiff.mpr (hfirst prepare rfl (hstep.symm.trans h.step) (h.maxID ▸ hid))
  | accepted msg hstep hid =>
      constructor
      · rintro - _ ⟨⟩
      · rintro - _ ⟨⟩
  | countedAccept msg => exact hmsg.elim
  | buffered msg => exact hmsg.elim
  | decided msg => exact hmsg.elim
  | finished msg => exact hmsg.elim

theorem reportsLastAccept_concat (entry : Option (ℕ × Response)) :
    ReportsLastAccept (log ++ entry.toList) ↔
      ReportsLastAccept log ∧
        ∀ s promise, entry = some (s, .promise promise) →
          promise.ReportsLast (acceptsOf s log) := by
  cases entry with
  | none => simp [ReportsLastAccept]
  | some entry =>
      rw [Option.toList_some]
      constructor
      · intro h
        refine ⟨fun before t msg hprefix => h before t msg ?_, ?_⟩
        · exact hprefix.trans (List.prefix_append _ _)
        · rintro s promise heq
          cases heq
          exact h log s promise List.prefix_rfl
      · rintro ⟨hlog, hentry⟩ before t msg hprefix
        rw [List.prefix_concat_iff] at hprefix
        rcases hprefix with heq | hprefix
        · obtain ⟨rfl, hlast⟩ := List.append_inj' heq rfl
          cases hlast
          exact hentry t msg rfl
        · exact hlog before t msg hprefix

theorem preparedAfterFirst_concat (msg : AcceptorMessage P) :
    PreparedAfterFirst s (msgs ++ [msg]) ↔
      PreparedAfterFirst s msgs ∧
        ∀ prepare, msg = .prepare prepare → prepare.step = s →
          highestID s msgs < prepare.id → FirstIsLast (proposals s 0 msgs) := by
  constructor
  · intro h
    refine ⟨fun pre prepare hprefix => h pre prepare ?_, ?_⟩
    · exact hprefix.trans (List.prefix_append _ _)
    · rintro prepare rfl
      exact h msgs prepare List.prefix_rfl
  · rintro ⟨hmsgs, hmsg⟩ pre prepare hprefix
    rw [List.prefix_concat_iff] at hprefix
    rcases hprefix with heq | hprefix
    · obtain ⟨rfl, hlast⟩ := List.append_inj' heq rfl
      cases hlast
      exact hmsg prepare rfl
    · exact hmsgs pre prepare hprefix

end

/-- For every sequence of prepare and propose messages from the beginning of a
step on, every promise reports the last proposal which was accepted exactly if,
whenever a promise is given, the first accepted proposal with a value is the
last accepted one. -/
theorem reports_last_accept_iff (sha256 : Bytes → Bytes) (conf : Configuration)
    (n : PaxosNode) (hfresh : n.handler.Fresh)
    (hT : n.handler.threshold = conf.threshold) (msgs : List (AcceptorMessage P))
    (hmsgs : ∀ msg ∈ msgs, FromProposer msg) :
    ReportsLastAccept (n.log sha256 conf msgs) ↔
      PreparedAfterFirst n.handler.step msgs := by
  have hboth : AcceptorInv n.handler.step msgs (n.log sha256 conf msgs)
        (n.after sha256 conf msgs) ∧
      (ReportsLastAccept (n.log sha256 conf msgs) ↔
        PreparedAfterFirst n.handler.step msgs) := by
    induction msgs using List.reverseRecOn with
    | nil =>
        refine ⟨acceptorInv_fresh hfresh, ?_⟩
        simp [ReportsLastAccept, PreparedAfterFirst, PaxosNode.log, Service.answers]
    | append_singleton msgs msg ih =>
        rw [List.forall_mem_append, List.forall_mem_singleton] at hmsgs
        obtain ⟨hinv, hiff⟩ := ih hmsgs.1
        have hresp : PaxosNode.Responds sha256 conf (n.after sha256 conf msgs) msg _ _ :=
          PaxosNode.respond_responds
            (PaxosNode.after_threshold hT msgs ▸ conf.one_le_threshold) msg
        have hafter : n.after sha256 conf (msgs ++ [msg]) =
            ((n.after sha256 conf msgs).respond sha256 conf msg).1 :=
          PaxosNode.after_append ..
        rw [PaxosNode.log_append_singleton, hafter, reportsLastAccept_concat,
          preparedAfterFirst_concat, hiff, ← hinv.reports_iff hmsgs.2 hresp]
        refine ⟨hinv.responds hmsgs.2 hresp, and_congr_right fun _ => ?_⟩
        simp only [Option.map_eq_some_iff, Prod.mk.injEq]
        constructor
        · intro h promise heq
          exact hinv.step ▸ h _ promise ⟨_, heq, rfl, rfl⟩
        · rintro h _ promise ⟨r, heq, rfl, rfl⟩
          exact hinv.step.symm ▸ h promise heq
  exact hboth.2

/-- One proposal is accepted between two promises, and the second promise
reports it. -/
theorem reports_last_accept_iff_of_one :
    ReportsLastAccept ((PaxosNode.start (.majority 2 1) .new).log sha256 (.majority 2 1)
      [.prepare ⟨0, 1, ()⟩, .propose ⟨0, 1, ⟨"1", "file", "a"⟩⟩, .prepare ⟨0, 2, ()⟩]) := by
  refine (reports_last_accept_iff sha256 _ _ (fresh_newPaxosHandler _) rfl _ ?_).mpr ?_
  · simp [FromProposer]
  · change PreparedAfterFirst 0 ([] ++ [_] ++ [_] ++ [_])
    rw [preparedAfterFirst_concat, preparedAfterFirst_concat, preparedAfterFirst_concat]
    refine ⟨⟨⟨by simp [PreparedAfterFirst], ?_⟩, ?_⟩, ?_⟩
    · rintro _ ⟨⟩ - -
      simp [FirstIsLast, proposals]
    · rintro _ ⟨⟩
    · rintro _ ⟨⟩ - -
      simp [FirstIsLast, proposals, raise, PaxosProposeMessage.hasValue, PaxosValue.empty]

/-- Two different values are accepted under the IDs 1 and 2, and the promise for
ID 3 reports the first of them. -/
theorem promise_reports_first_accept :
    ¬ ReportsLastAccept ((PaxosNode.start (.majority 2 1) .new).log sha256 (.majority 2 1)
      [.prepare ⟨0, 1, ()⟩, .propose ⟨0, 1, ⟨"1", "file", "a"⟩⟩, .prepare ⟨0, 2, ()⟩,
        .propose ⟨0, 2, ⟨"2", "file", "b"⟩⟩, .prepare ⟨0, 3, ()⟩]) := by
  intro h
  have hreports := h
    [(0, .promise ⟨0, 1, 0, none⟩), (0, .accept ⟨0, 1, ⟨"1", "file", "a"⟩⟩),
      (0, .promise ⟨0, 2, 1, some ⟨"1", "file", "a"⟩⟩),
      (0, .accept ⟨0, 2, ⟨"2", "file", "b"⟩⟩)]
    0 ⟨0, 3, 1, some ⟨"1", "file", "a"⟩⟩ ⟨[], rfl⟩
  exact absurd hreports.1 (by decide)

end Minotor
