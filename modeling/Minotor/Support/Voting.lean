import Mathlib.Data.Fintype.Card
import Mathlib.Order.WellFounded

/-!
# Voting in ballots

Acceptors vote for values in ordered ballots.  If every ballot has one proposal
and every proposal takes over a value which covers the earlier votes of a
quorum, no two quorums choose different values.  Nothing here depends on how
votes and proposals travel.
-/

namespace Minotor

/-- What has been proposed and voted for, by acceptors `A` in ballots `B`. -/
structure Voting (A B V : Type*) where
  Proposed : B → V → Prop
  Voted : A → B → V → Prop

namespace Voting

variable {A B V : Type*} [LinearOrder B] {r : Voting A B V}

/-- Every acceptor of `Q` voted for `v` in the ballot `b`. -/
def ChosenBy (r : Voting A B V) (Q : Finset A) (b : B) (v : V) : Prop :=
  ∀ a ∈ Q, r.Voted a b v

/-- Below `b`, every vote of `a` has a proposal of `v` at its ballot or above. -/
def Covers (r : Voting A B V) (a : A) (b : B) (v : V) : Prop :=
  ∀ c w, r.Voted a c w → c < b → ∃ d, c ≤ d ∧ d < b ∧ r.Proposed d v

/-- The rules which proposers and acceptors keep. -/
structure Sound (IsQuorum : Finset A → Prop) (r : Voting A B V) : Prop where
  unique : ∀ b v w, r.Proposed b v → r.Proposed b w → v = w
  proposed : ∀ a b v, r.Voted a b v → r.Proposed b v
  covers : ∀ b v, r.Proposed b v → ∃ Q, IsQuorum Q ∧ ∀ a ∈ Q, r.Covers a b v

variable {IsQuorum : Finset A → Prop} {Q Q' : Finset A} {b c : B} {v w : V}

/-- Every two quorums have a member in common. -/
def Intersecting (IsQuorum : Finset A → Prop) : Prop :=
  ∀ Q Q', IsQuorum Q → IsQuorum Q' → ∃ a, a ∈ Q ∧ a ∈ Q'

/-- Sets of more than half of the acceptors intersect. -/
theorem intersecting_of_card [Fintype A] [DecidableEq A] {k : ℕ}
    (hk : Fintype.card A < 2 * k) : Intersecting fun Q : Finset A => k ≤ Q.card := by
  intro Q Q' hQ hQ'
  have hcard : (Finset.univ : Finset A).card < Q.card + Q'.card := by
    rw [Finset.card_univ]
    omega
  obtain ⟨a, ha⟩ := Finset.inter_nonempty_of_card_lt_card_add_card
    (Finset.subset_univ Q) (Finset.subset_univ Q') hcard
  exact ⟨a, Finset.mem_inter.mp ha⟩

/-- Once a value is chosen, no later ballot proposes another one. -/
theorem Sound.proposed_eq [WellFoundedLT B] (h : r.Sound IsQuorum)
    (hinter : Intersecting IsQuorum) (hQ : IsQuorum Q) (hchosen : r.ChosenBy Q b v) :
    ∀ c w, b ≤ c → r.Proposed c w → w = v := by
  intro c
  induction c using WellFoundedLT.induction with
  | ind c ih =>
      intro w hbc hproposed
      rcases hbc.eq_or_lt with rfl | hlt
      · obtain ⟨a, ha, -⟩ := hinter Q Q hQ hQ
        exact h.unique _ _ _ hproposed (h.proposed a _ v (hchosen a ha))
      · -- an acceptor common to both quorums leads to an earlier proposal of `w`
        obtain ⟨Q', hQ', hcovers⟩ := h.covers c w hproposed
        obtain ⟨a, ha, ha'⟩ := hinter Q Q' hQ hQ'
        obtain ⟨d, hbd, hdc, hd⟩ := hcovers a ha' b v (hchosen a ha) hlt
        exact ih d hdc w hbd hd

/-- Agreement: two quorums choose the same value. -/
theorem Sound.agreement [WellFoundedLT B] (h : r.Sound IsQuorum)
    (hinter : Intersecting IsQuorum) (hQ : IsQuorum Q) (hQ' : IsQuorum Q')
    (hv : r.ChosenBy Q b v) (hw : r.ChosenBy Q' c w) : v = w := by
  have hproposed : ∀ {Q : Finset A} {b : B} {v : V}, IsQuorum Q → r.ChosenBy Q b v →
      r.Proposed b v := by
    intro Q b v hQ hchosen
    obtain ⟨a, ha, -⟩ := hinter Q Q hQ hQ
    exact h.proposed a b v (hchosen a ha)
  rcases le_total b c with hbc | hcb
  · exact (h.proposed_eq hinter hQ hv c w hbc (hproposed hQ' hw)).symm
  · exact h.proposed_eq hinter hQ' hw b v hcb (hproposed hQ hv)

end Voting
end Minotor
