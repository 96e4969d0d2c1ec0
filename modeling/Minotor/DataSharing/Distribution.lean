import Minotor.DataSharing.Node
import Minotor.Support.Budget

/-!
# The distribution of a search budget

The loop of `sendSearchReq` deals out the whole budget when there is a
neighbour, and every request it sends carries at least one.
-/

namespace Minotor.DataSharing

variable {P : Type*}

theorem length_dealRound (shares : List ℕ) (budg : ℕ) :
    (dealRound shares budg).1.length = shares.length := by
  induction shares generalizing budg with
  | nil => rfl
  | cons share shares ih =>
      cases budg with
      | zero => rfl
      | succ budg => exact congrArg (· + 1) (ih budg)

/-- A pass moves budget into the shares. -/
theorem sum_dealRound (shares : List ℕ) (budg : ℕ) :
    (dealRound shares budg).1.sum + (dealRound shares budg).2 = shares.sum + budg := by
  induction shares generalizing budg with
  | nil => rfl
  | cons share shares ih =>
      cases budg with
      | zero => rfl
      | succ budg =>
          have htail := ih budg
          simp only [dealRound, List.sum_cons]
          omega

theorem dealRound_le (shares : List ℕ) (budg : ℕ) : (dealRound shares budg).2 ≤ budg := by
  induction shares generalizing budg with
  | nil => exact le_rfl
  | cons share shares ih =>
      cases budg with
      | zero => exact le_rfl
      | succ budg => exact (ih budg).trans (Nat.le_succ budg)

theorem dealRound_lt {shares : List ℕ} (h : shares ≠ []) (budg : ℕ) :
    (dealRound shares (budg + 1)).2 < budg + 1 := by
  cases shares with
  | nil => exact absurd rfl h
  | cons share shares => exact Nat.lt_succ_of_le (dealRound_le shares budg)

/-- Enough passes deal out the whole budget. -/
theorem sum_deal {fuel budg : ℕ} (hfuel : budg ≤ fuel) {shares : List ℕ} (h : shares ≠ []) :
    (deal fuel shares budg).sum = shares.sum + budg := by
  induction fuel generalizing shares budg with
  | zero =>
      obtain rfl := Nat.le_zero.mp hfuel
      rfl
  | succ fuel ih =>
      rw [deal]
      split
      · next hzero => rw [hzero, Nat.add_zero]
      · next hzero =>
          obtain ⟨b, rfl⟩ := Nat.exists_eq_add_one_of_ne_zero hzero
          have hlt := dealRound_lt h b
          have hne : (dealRound shares (b + 1)).1 ≠ [] := by
            intro hnil
            have hlength := length_dealRound shares (b + 1)
            rw [hnil] at hlength
            exact h (List.length_eq_zero_iff.mp hlength.symm)
          rw [ih (by omega) hne]
          exact sum_dealRound shares (b + 1)

theorem sum_distribution {nbNeighbours : ℕ} (h : nbNeighbours ≠ 0) (budg : ℕ) :
    (distribution nbNeighbours budg).sum = budg := by
  have hne : List.replicate nbNeighbours 0 ≠ [] := by
    intro hnil
    exact h (by simpa using hnil)
  rw [distribution, sum_deal le_rfl hne, List.sum_replicate, nsmul_zero, Nat.zero_add]

theorem toNat_ofNat_of_le {share : ℕ} {budg : UInt64} (h : share ≤ budg.toNat) :
    (UInt64.ofNat share).toNat = share :=
  UInt64.toNat_ofNat_of_lt' (h.trans_lt budg.toNat_lt)

/-! ## Requests -/

/-- The budget which a request carries for the search `id`. -/
def SearchReq.cost (id : ℕ) (r : SearchReq P) : ℕ :=
  if r.requestID = id then r.budget.toNat else 0

/-- The budget which requests carry for the search `id`. -/
def reqsCost (id : ℕ) (reqs : List (SearchReq P)) : ℕ := (reqs.map (SearchReq.cost id)).sum

@[simp] theorem reqsCost_nil (id : ℕ) : reqsCost id ([] : List (SearchReq P)) = 0 := rfl

@[simp] theorem reqsCost_cons (id : ℕ) (r : SearchReq P) (reqs : List (SearchReq P)) :
    reqsCost id (r :: reqs) = r.cost id + reqsCost id reqs := List.sum_cons

theorem reqsCost_eq_zero {id : ℕ} {reqs : List (SearchReq P)}
    (h : ∀ r ∈ reqs, r.requestID ≠ id) : reqsCost id reqs = 0 := by
  induction reqs with
  | nil => rfl
  | cons r reqs ih =>
      rw [reqsCost_cons, ih fun r' hr' => h r' (List.mem_cons_of_mem _ hr'), SearchReq.cost,
        if_neg (h r List.mem_cons_self)]

theorem mem_sendSearchReq {neighbours : List P} {id : ℕ} {budg : UInt64} {pattern : Bytes}
    {org : P} {r : SearchReq P} (h : r ∈ sendSearchReq neighbours id budg pattern org) :
    r.neighbour ∈ neighbours ∧ r.requestID = id ∧ r.origin = org ∧ 0 < r.budget.toNat := by
  rw [sendSearchReq] at h
  split at h
  · exact absurd h List.not_mem_nil
  · next hne =>
      rw [List.mem_filterMap] at h
      obtain ⟨⟨addr, share⟩, hmem, hsome⟩ := h
      simp only at hsome
      split at hsome
      · next hpos =>
          obtain rfl := Option.some.inj hsome
          refine ⟨(List.of_mem_zip hmem).1, rfl, rfl, ?_⟩
          have hle : share ≤ budg.toNat := by
            rw [← sum_distribution hne budg.toNat]
            exact List.single_le_sum (fun _ _ => Nat.zero_le _) _ (List.of_mem_zip hmem).2
          change 0 < (UInt64.ofNat share).toNat
          rw [toNat_ofNat_of_le hle]
          exact hpos
      · exact absurd hsome (by simp)

/-- Requests which do not exceed their shares carry at most the shares' sum. -/
theorem reqsCost_filterMap_zip_le {id : ℕ} {f : P × ℕ → Option (SearchReq P)}
    (hf : ∀ x r, f x = some r → r.cost id ≤ x.2) (addrs : List P) (shares : List ℕ) :
    reqsCost id ((addrs.zip shares).filterMap f) ≤ shares.sum := by
  induction addrs generalizing shares with
  | nil => exact Nat.zero_le _
  | cons addr addrs ih =>
      cases shares with
      | nil => exact Nat.zero_le _
      | cons share shares =>
          have htail := ih shares
          rw [List.zip_cons_cons, List.filterMap_cons, List.sum_cons]
          split
          · exact htail.trans (Nat.le_add_left _ _)
          · next r hr =>
              rw [reqsCost_cons]
              exact Nat.add_le_add (hf _ r hr) htail

/-- The requests carry the whole budget of their search, or nothing without a
neighbour. -/
theorem reqsCost_sendSearchReq_le (neighbours : List P) (id : ℕ) (budg : UInt64)
    (pattern : Bytes) (org : P) :
    reqsCost id (sendSearchReq neighbours id budg pattern org) ≤ budg.toNat := by
  rw [sendSearchReq]
  split
  · exact Nat.zero_le _
  · next hne =>
      refine (reqsCost_filterMap_zip_le ?_ neighbours _).trans
        (sum_distribution hne budg.toNat).le
      intro x r hr
      simp only [Option.ite_none_right_eq_some, Option.some.injEq] at hr
      obtain ⟨-, rfl⟩ := hr
      rw [SearchReq.cost, if_pos rfl]
      change (UInt64.ofNat x.2).toNat ≤ x.2
      rw [UInt64.toNat_ofNat']
      exact Nat.mod_le _ _

end Minotor.DataSharing
