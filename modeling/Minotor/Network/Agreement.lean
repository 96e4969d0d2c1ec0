import Minotor.Support.Voting
import Minotor.Network.Learner
import Minotor.Network.Choices
import Minotor.Network.Decisions

/-!
# Agreement

The proposals and acceptances of a step keep the rules of voting in ballots, as
long as the guards of the previous modules hold.  So the decisions of a step
agree, all peers follow the chain of the decided values, and two stored blocks
of one index are the same.
-/

namespace Minotor

variable {P : Type*}

/-- At least two peers with the distinct IDs 1 to their number, of which a
majority is needed. -/
structure ByMajority [Fintype P] (conf : P → Configuration) : Prop where
  two_le : 2 ≤ Fintype.card P
  numbered : Numbered (Fintype.card P) conf
  threshold : ∀ p, (conf p).threshold = Fintype.card P / 2 + 1

theorem ByMajority.two_le_totalPeers [Fintype P] {conf : P → Configuration}
    (hconf : ByMajority conf) (p : P) : 2 ≤ (conf p).totalPeers := by
  rw [hconf.numbered.totalPeers]
  exact hconf.two_le

theorem byMajority_majority {n : ℕ} (hn : 2 ≤ n) : ByMajority (majorityNetwork n) := by
  constructor
  · rwa [Fintype.card_fin]
  · rw [Fintype.card_fin]
    exact numbered_majority n
  · intro p
    rw [Fintype.card_fin]
    rfl

namespace System

/-- The proposals and acceptances of a step. -/
def voting (st : System P) (step : ℕ) : Voting P ℕ PaxosValue where
  Proposed := st.Proposed step
  Voted p id v := .accepted ⟨step, id, v⟩ ∈ (st.peers p).node.history

/-- Two quorums of one round would need more promises than there are peers. -/
theorem quorumsFor_unique [Fintype P] {st : System P} {p : P} {conf : P → Configuration}
    (hforge : st.NoForgery) (honce : (st.peers p).CountsOnce p)
    (hpromises : ∀ q, (st.peers q).PromisesOnce)
    (hcounts : (st.peers p).node.CountsPromises (conf p))
    (hcard : Fintype.card P < 2 * (conf p).threshold) {step id : ℕ} {v w : PaxosValue}
    (hv : v ∈ (st.peers p).node.quorumsFor step id)
    (hw : w ∈ (st.peers p).node.quorumsFor step id) : v = w := by
  have hle : (conf p).threshold * ((st.peers p).node.quorumsFor step id).length ≤
      Fintype.card P := by
    calc (conf p).threshold * ((st.peers p).node.quorumsFor step id).length
        ≤ ((st.peers p).node.promisesFor step id).length := hcounts.quorum step id
      _ = (((st.peers p).node.promisesFor step id).map fun x => x.1.origin).length :=
          (List.length_map _).symm
      _ ≤ Fintype.card P :=
          (nodup_promisesFor hforge honce hpromises step id).length_le_card
  cases hchoices : (st.peers p).node.quorumsFor step id with
  | nil =>
      rw [hchoices] at hv
      exact absurd hv List.not_mem_nil
  | cons x rest =>
      cases rest with
      | nil =>
          rw [hchoices, List.mem_singleton] at hv hw
          rw [hv, hw]
      | cons y rest =>
          rw [hchoices, List.length_cons, List.length_cons, Nat.mul_succ, Nat.mul_succ] at hle
          omega

variable [Fintype P] [DecidableEq P] {sha256 : Bytes → Bytes} {conf : P → Configuration}
  {C : System P → Action P → Prop} {st : System P}

/-- Proposers and acceptors keep the rules of voting. -/
theorem voting_sound (hconf : ByMajority conf) (hC : ∀ st a, C st a → st.CleanBallots a)
    (h : (network sha256 conf).ReachableUnder C st) (step : ℕ) :
    (st.voting step).Sound fun Q => Fintype.card P / 2 + 1 ≤ Q.card := by
  have hrounds : ∀ st a, C st a → st.CleanRounds a := fun st a hCa => (hC st a hCa).cleanRounds
  have hforge := noForgery_of_reachable h
  have hprov := provenance_of_reachable h
  have hbehind := quorumsBehind_of_reachable hrounds h
  constructor
  · rintro id v w ⟨p, hp⟩ ⟨q, hq⟩
    -- the ID tells the proposer, which had one quorum for it
    obtain rfl : p = q := hconf.numbered.eq_of_ownID
      ((ownIDs_of_reachable h p).events _ hp) ((ownIDs_of_reachable h q).events _ hq)
    apply quorumsFor_unique hforge
      (countsOnce_of_reachable (fun st a hCa => (hrounds st a hCa).inOrder) h p)
      (promisesOnce_of_reachable h) (hbehind.counts p)
    · rw [hconf.threshold]
      omega
    · exact hbehind.proposed p _ hp _ rfl
    · exact hbehind.proposed p _ hq _ rfl
  · intro a id v hvoted
    exact hprov.events a _ hvoted
  · rintro id v ⟨p, hp⟩
    have hquorum : .quorum step id v ∈ (st.peers p).node.history :=
      Node.mem_quorumsFor.mp (hbehind.proposed p _ hp _ rfl)
    obtain ⟨Q, hcard, hQ⟩ :=
      choicesBacked_of_reachable hconf.numbered hC h p step id v hquorum
    rw [hconf.threshold] at hcard
    refine ⟨Q, hcard, fun a ha => ?_⟩
    obtain ⟨draft, hdraft, rfl, rfl, hcover⟩ := hQ a ha
    intro c w hvoted hlt
    obtain ⟨q, hq⟩ := hprov.events a _ hvoted
    obtain ⟨k, hk⟩ : (conf q).OwnID c := (ownIDs_of_reachable h q).events _ hq
    have hpos := hconf.numbered.pos q
    rcases keepsPromises_of_reachable (fun st a hCa => (hC st a hCa).trueReport) h a p draft _
      hdraft hvoted rfl with hle | hge
    · obtain ⟨d, hreported, hd, hproposed⟩ := hcover (by dsimp only at hle; omega)
      exact ⟨d, hle.trans hreported, hd, hproposed⟩
    · exact absurd hlt (Nat.not_lt.mpr hge)

/-- The decisions of a step agree. -/
theorem decided_unique (hconf : ByMajority conf) (hC : ∀ st a, C st a → st.CleanBallots a)
    (h : (network sha256 conf).ReachableUnder C st) {step : ℕ} {p q : P} {v w : PaxosValue}
    (hv : .decided step v ∈ (st.peers p).node.history)
    (hw : .decided step w ∈ (st.peers q).node.history) : v = w := by
  have hprov := provenance_of_reachable h
  have hchosen : ∀ {p : P} {v : PaxosValue}, .decided step v ∈ (st.peers p).node.history →
      ∃ id, ∃ Q : Finset P, Fintype.card P / 2 + 1 ≤ Q.card ∧
        (st.voting step).ChosenBy Q id v := by
    intro p v hdecided
    obtain ⟨id, Q, hcard, hQ⟩ := (countsAccepts_of_reachable
      (fun st a hCa => (hC st a hCa).singleBallot) h p).quorum (noForgery_of_reachable h)
      hdecided
    rw [hconf.threshold] at hcard
    exact ⟨id, Q, hcard, fun a ha => hprov.rumors a _ (hQ a ha)⟩
  obtain ⟨id, Q, hQ, hchosenv⟩ := hchosen hv
  obtain ⟨id', Q', hQ', hchosenw⟩ := hchosen hw
  have hinter := Voting.intersecting_of_card (A := P) (k := Fintype.card P / 2 + 1) (by omega)
  exact (voting_sound hconf hC h step).agreement hinter hQ hQ' hchosenv hchosenw

theorem exists_decides (hconf : ByMajority conf) (hC : ∀ st a, C st a → st.CleanBallots a)
    (h : (network sha256 conf).ReachableUnder C st) : ∃ v, st.Decides v := by
  have hvalue : ∀ step, ∃ w, ∀ p x, .decided step x ∈ (st.peers p).node.history → w = x := by
    intro step
    by_cases hdecided : st.Decided step
    · obtain ⟨p, w, hw⟩ := hdecided
      exact ⟨w, fun q x hx => decided_unique hconf hC h hw hx⟩
    · exact ⟨.empty, fun p x hx => absurd ⟨p, x, hx⟩ hdecided⟩
  choose v hv using hvalue
  exact ⟨v, fun p step w hw => hv step p w hw⟩

end System

/-- In every run under the guards, two peers that have stored a block of one index
have stored the same block. -/
theorem blocks_agree [Fintype P] [DecidableEq P] (sha256 : Bytes → Bytes)
    (conf : P → Configuration) (hconf : ByMajority conf) (st : System P)
    (h : (network sha256 conf).ReachableUnder System.CleanBallots st) (p q : P)
    (b b' : BlockchainBlock) (hb : (st.peers p).node.storage.HasBlock b)
    (hb' : (st.peers q).node.storage.HasBlock b') (hindex : b.index = b'.index) :
    b = b' := by
  obtain ⟨v, hv⟩ := System.exists_decides hconf (fun _ _ hCa => hCa) h
  have hchain := System.onChain_of_reachable hconf.two_le_totalPeers h hv
  rw [Node.storage, (hchain.nodes p).follows.storage] at hb
  rw [Node.storage, (hchain.nodes q).follows.storage] at hb'
  obtain ⟨i, -, rfl⟩ := hasBlock_chainStorage hb
  obtain ⟨k, -, rfl⟩ := hasBlock_chainStorage hb'
  rw [chainBlock_index, chainBlock_index] at hindex
  rw [hindex]

/-- Both peers decide the value of peer 0. -/
theorem blocks_agree_of_tagRun :
    ∃ st, (network sha256 (majorityNetwork 2)).ReachableUnder System.CleanBallots st ∧
      ∃ b b', (st.peers 0).node.storage.HasBlock b ∧
        (st.peers 1).node.storage.HasBlock b' ∧ b = b' := by
  obtain ⟨st, hst, hb, hb'⟩ := TransitionSystem.exists_of_replay
    (S := network sha256 (majorityNetwork 2)) System.CleanBallots
    (Action.tagRun ++ Action.handles 1 0 4 3)
    (fun st => (st.peers 0).node.storage.HasBlock
        (mkBlock sha256 0 ⟨"id", "file", "meta"⟩ zeroHash) ∧
      (st.peers 1).node.storage.HasBlock
        (mkBlock sha256 0 ⟨"id", "file", "meta"⟩ zeroHash)) (by decide +kernel)
  exact ⟨st, hst, _, _, hb, hb',
    blocks_agree sha256 _ (byMajority_majority le_rfl) st hst 0 1 _ _ hb hb' rfl⟩

/-- Peers 1 and 2 accept the value of peer 2 under ID 3, and peer 1 decides it.
Peer 0 has accepted its own value under ID 1; in its round of ID 4 it counts its
own report first, takes ID 4 for the ID of the best value and passes over the
report of peer 1.  It proposes its value again, counts its second accept and
decides. -/
theorem blocks_disagree :
    ∃ st, (network sha256 (majorityNetwork 3)).ReachableUnder System.InOrder st ∧
      ∃ b b', (st.peers 0).node.storage.HasBlock b ∧
        (st.peers 1).node.storage.HasBlock b' ∧ b.index = b'.index ∧ b ≠ b' := by
  obtain ⟨st, hst, hb, hb'⟩ := TransitionSystem.exists_of_replay
    (S := network sha256 (majorityNetwork 3)) System.InOrder
    (.tag 0 "file" "meta" :: .tag 2 "file" "other" :: Action.opens 0 0 "id" ++
      Action.handles 1 0 1 4 ++ Action.handles 0 1 1 1 ++ .call 0 0 .recv ::
      Action.steps 0 0 6 ++ Action.opens 2 0 "id'" ++ Action.handles 1 2 1 4 ++
      Action.handles 2 1 1 1 ++ Action.handles 2 1 2 1 ++ .call 2 0 .recv ::
      Action.steps 2 0 6 ++ Action.handles 1 2 2 1 ++ Action.handles 1 2 3 3 ++
      .call 0 0 .tick :: Action.steps 0 0 3 ++ .call 0 0 (.fresh "id''") ::
      Action.steps 0 0 6 ++ Action.handles 1 0 2 1 ++ Action.handles 1 0 3 1 ++
      Action.handles 1 0 4 1 ++ Action.handles 1 0 5 4 ++ Action.handles 1 2 4 1 ++
      Action.handles 0 1 2 1 ++ Action.handles 0 1 3 1 ++ Action.handles 0 1 4 1 ++
      .call 0 0 .recv :: Action.steps 0 0 6)
    (fun st => (st.peers 0).node.storage.HasBlock
        (mkBlock sha256 0 ⟨"id", "file", "meta"⟩ zeroHash) ∧
      (st.peers 1).node.storage.HasBlock
        (mkBlock sha256 0 ⟨"id'", "file", "other"⟩ zeroHash)) (by decide +kernel)
  refine ⟨st, hst, _, _, hb, hb', rfl, fun heq => ?_⟩
  exact absurd (congrArg BlockchainBlock.value heq) (by decide)

end Minotor
