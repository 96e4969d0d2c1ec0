import Minotor.DataSharing.Network
import Minotor.DataSharing.Distribution

/-!
# One hop of a search request

`ExecSearchRequestMessage` takes one unit off the budget of a request and deals
out the rest among the neighbours which are neither the source nor the origin.
The budget is a `uint`: a unit taken off 0 leaves the greatest one.
-/

namespace Minotor.DataSharing

variable {P : Type*}

/-! ## The shares of the neighbours -/

/-- One pass over equal shares. -/
theorem dealRound_replicate (k s b : ℕ) :
    dealRound (List.replicate k s) b =
      (List.replicate (min b k) (s + 1) ++ List.replicate (k - b) s, b - k) := by
  induction k generalizing b with
  | zero => simp [dealRound]
  | succ k ih =>
      cases b with
      | zero => simp [dealRound, List.replicate_succ]
      | succ b =>
          rw [List.replicate_succ, dealRound, ih, Nat.succ_min_succ, List.replicate_succ,
            List.cons_append, Nat.succ_sub_succ, Nat.succ_sub_succ]

/-- Any two shares differ by at most one. -/
def Balanced (shares : List ℕ) : Prop := ∀ x ∈ shares, ∀ y ∈ shares, x ≤ y + 1

theorem balanced_replicate (k s : ℕ) : Balanced (List.replicate k s) := by
  intro x hx y hy
  rw [List.eq_of_mem_replicate hx, List.eq_of_mem_replicate hy]
  exact Nat.le_succ s

theorem balanced_append (k l s : ℕ) :
    Balanced (List.replicate k (s + 1) ++ List.replicate l s) := by
  have hmem : ∀ x ∈ List.replicate k (s + 1) ++ List.replicate l s, x = s + 1 ∨ x = s :=
    fun x hx => (List.mem_append.mp hx).imp List.eq_of_mem_replicate List.eq_of_mem_replicate
  intro x hx y hy
  have hx' := hmem x hx
  have hy' := hmem y hy
  omega

/-- The passes keep the shares equal until the budget runs out in one. -/
theorem balanced_deal (fuel k s b : ℕ) : Balanced (deal fuel (List.replicate k s) b) := by
  induction fuel generalizing s b with
  | zero => exact balanced_replicate k s
  | succ fuel ih =>
      rw [deal, dealRound_replicate]
      split
      · exact balanced_replicate k s
      · rcases Nat.le_total k b with hkb | hbk
        · simp only [Nat.min_eq_right hkb, Nat.sub_eq_zero_of_le hkb, List.replicate_zero,
            List.append_nil]
          exact ih (s + 1) (b - k)
        · simp only [Nat.sub_eq_zero_of_le hbk]
          cases fuel with
          | zero => exact balanced_append _ _ s
          | succ fuel => exact balanced_append _ _ s

theorem length_deal (fuel : ℕ) (shares : List ℕ) (b : ℕ) :
    (deal fuel shares b).length = shares.length := by
  induction fuel generalizing shares b with
  | zero => rfl
  | succ fuel ih =>
      rw [deal]
      split
      · rfl
      · rw [ih, length_dealRound]

theorem length_distribution (nbNeighbours b : ℕ) :
    (distribution nbNeighbours b).length = nbNeighbours := by
  rw [distribution, length_deal, List.length_replicate]

/-! ## The requests of one hop -/

/-- The budget of a search request. -/
def Packet.budget (pkt : Packet P) : ℕ :=
  match pkt.msg with
  | .searchRequest _ _ _ budget => budget.toNat
  | _ => 0

/-- The packets split the budget `total` among the neighbours `entries`. -/
structure SplitsExactly (entries : List P) (total : ℕ) (packets : List (Packet P)) : Prop where
  sum : (packets.map Packet.budget).sum = total
  shares : ∃ shares, shares.length = entries.length ∧ Balanced shares ∧
    packets.map (fun pkt => (pkt.dest, pkt.budget)) =
      (entries.zip shares).filter fun e => 0 < e.2
  positive : ∀ pkt ∈ packets, 0 < pkt.budget

/-- The shares which are sent, those above 0, are the whole budget. -/
theorem sum_map_filter_pos (l : List (P × ℕ)) :
    ((l.filter fun e => 0 < e.2).map Prod.snd).sum = (l.map Prod.snd).sum := by
  induction l with
  | nil => rfl
  | cons e l ih =>
      rw [List.filter_cons, List.map_cons, List.sum_cons, ← ih]
      split
      · rfl
      · next hzero =>
          have hz : e.2 = 0 := by simpa using hzero
          rw [hz, Nat.zero_add]

theorem map_packet_sendSearchReq {entries : List P} (hne : entries ≠ []) (myAddr : P) (id : ℕ)
    (budg : UInt64) (pattern : Bytes) (org : P) :
    ((sendSearchReq entries id budg pattern org).map (SearchReq.packet myAddr)).map
        (fun pkt => (pkt.dest, pkt.budget)) =
      (entries.zip (distribution entries.length budg.toNat)).filter fun e => 0 < e.2 := by
  have hlen : entries.length ≠ 0 := fun h => hne (List.length_eq_zero_iff.mp h)
  rw [sendSearchReq, if_neg hlen, List.map_map, List.map_filterMap, ← List.filterMap_eq_filter]
  apply List.filterMap_congr
  rintro ⟨addr, share⟩ hmem
  have hle : share ≤ budg.toNat := by
    rw [← sum_distribution hlen budg.toNat]
    exact List.single_le_sum (fun _ _ => Nat.zero_le _) _ (List.of_mem_zip hmem).2
  by_cases hpos : 0 < share
  · simp [hpos, Option.guard, SearchReq.packet, Packet.budget, toNat_ofNat_of_le hle]
  · simp [hpos, Option.guard]

/-- `sendSearchReq` splits its budget if there is a neighbour. -/
theorem splitsExactly_sendSearchReq {entries : List P} (hne : entries ≠ []) (myAddr : P)
    (id : ℕ) (budg : UInt64) (pattern : Bytes) (org : P) :
    SplitsExactly entries budg.toNat
      ((sendSearchReq entries id budg pattern org).map (SearchReq.packet myAddr)) where
  sum := by
    have hlen : entries.length ≠ 0 := fun h => hne (List.length_eq_zero_iff.mp h)
    have hmap := congrArg (List.map Prod.snd)
      (map_packet_sendSearchReq hne myAddr id budg pattern org)
    rw [List.map_map] at hmap
    change List.map Packet.budget _ = _ at hmap
    rw [hmap, sum_map_filter_pos, List.map_snd_zip, sum_distribution hlen]
    rw [length_distribution]
  shares := ⟨distribution entries.length budg.toNat, length_distribution _ _,
    balanced_deal _ _ _ _, map_packet_sendSearchReq hne myAddr id budg pattern org⟩
  positive := by
    intro pkt hpkt
    obtain ⟨r, hr, rfl⟩ := List.mem_map.mp hpkt
    exact (mem_sendSearchReq hr).2.2.2

/-- Nothing is sent. -/
theorem splitsExactly_nil (entries : List P) : SplitsExactly entries 0 [] where
  sum := rfl
  shares := by
    refine ⟨List.replicate entries.length 0, List.length_replicate, balanced_replicate _ _, ?_⟩
    symm
    rw [List.map_nil, List.filter_eq_nil_iff]
    rintro ⟨addr, share⟩ hmem
    rw [List.eq_of_mem_replicate (List.of_mem_zip hmem).2]
    simp
  positive := List.forall_mem_nil _

namespace Node

variable [DecidableEq P]

/-- The listening routine sends its search requests, at most `k`, and no send
fails. -/
def forwardAll (myAddr : P) : ℕ → Node P → List (Packet P)
  | 0, _ => []
  | k + 1, n =>
      match n.forward myAddr true with
      | none => []
      | some (n, sent) => sent ++ forwardAll myAddr k n

/-- What a node sends on for a search request while no send fails. -/
def passesOn (conf : Conf P) (myAddr : P) (n : Node P) (header : Header P) (requestID : ℕ)
    (origin : P) (pattern : Bytes) (budget : UInt64) (order : List Bytes)
    (neighbours : List P) : List (Packet P) :=
  let n := (n.handle conf myAddr header order neighbours true
    (.searchRequest requestID origin pattern budget)).1
  n.forwardAll myAddr n.forwards.length

omit [DecidableEq P] in
theorem forwardAll_eq (myAddr : P) (n : Node P) :
    n.forwardAll myAddr n.forwards.length = n.forwards.map (SearchReq.packet myAddr) := by
  induction hfwd : n.forwards generalizing n with
  | nil => rfl
  | cons r rest ih =>
      have hforward : n.forward myAddr true =
          some ({ n with forwards := rest }, [r.packet myAddr]) := by
        rw [forward, hfwd]
        rfl
      rw [List.length_cons, forwardAll, hforward]
      exact congrArg (r.packet myAddr :: ·) (ih { n with forwards := rest } rfl)

theorem passesOn_of_compile {conf : Conf P} {matchString : Bytes → Bool} {pattern : Bytes}
    (h : conf.compile pattern = some matchString) (myAddr : P) (n : Node P) (header : Header P)
    (requestID : ℕ) (origin : P) (budget : UInt64) (order : List Bytes)
    (neighbours : List P) :
    n.passesOn conf myAddr header requestID origin pattern budget order neighbours =
      (sendSearchReq (forwardTo header.source origin neighbours) requestID (budget - 1)
        pattern origin).map (SearchReq.packet myAddr) := by
  rw [passesOn, forwardAll_eq, handle, execSearchRequestMessage, h]
  rfl

/-- `MustCompile` panics before a request is forwarded. -/
theorem passesOn_of_not_compile {conf : Conf P} {pattern : Bytes} {n : Node P}
    (h : conf.compile pattern = none) (hn : n.forwards = []) (myAddr : P) (header : Header P)
    (requestID : ℕ) (origin : P) (budget : UInt64) (order : List Bytes)
    (neighbours : List P) :
    n.passesOn conf myAddr header requestID origin pattern budget order neighbours = [] := by
  rw [passesOn, forwardAll_eq, handle, execSearchRequestMessage, h]
  simp only [Option.map_none, fail, hn, List.map_nil]

end Node

theorem SplitsExactly.iff {entries : List P} {total t : ℕ} {packets : List (Packet P)}
    (h : SplitsExactly entries t packets) : SplitsExactly entries total packets ↔ total = t := by
  constructor
  · intro htotal
    exact htotal.sum.symm.trans h.sum
  · rintro rfl
    exact h

/-- A unit can be taken off a budget unless it is 0. -/
theorem toNat_sub_one_iff (budget : UInt64) :
    max budget.toNat 1 - 1 = (budget - 1).toNat ↔ budget ≠ 0 := by
  have hlt := budget.toNat_lt
  have hzero : budget = 0 ↔ budget.toNat = 0 := UInt64.toNat_inj.symm
  rw [UInt64.toNat_sub, ne_eq, hzero]
  change _ = (2 ^ 64 - 1 + budget.toNat) % 2 ^ 64 ↔ _
  omega

/-- Whatever a node receives and whatever neighbours it has, the requests it
passes on split the budget less one exactly if no neighbour is left, or the
pattern compiles and the budget is not 0, or the pattern does not compile and
the budget is not more than 1. -/
theorem one_hop_splits_iff [DecidableEq P] (conf : Conf P) (myAddr : P) {n : Node P}
    (hn : n.Listens) (header : Header P) (requestID : ℕ) (origin : P) (pattern : Bytes)
    (budget : UInt64) (order : List Bytes) (neighbours : List P) :
    let entries := Node.forwardTo header.source origin neighbours
    SplitsExactly entries (if entries = [] then 0 else max budget.toNat 1 - 1)
        (n.passesOn conf myAddr header requestID origin pattern budget order neighbours) ↔
      entries = [] ∨ conf.compile pattern ≠ none ∧ budget ≠ 0 ∨
        conf.compile pattern = none ∧ budget.toNat ≤ 1 := by
  intro entries
  cases hcompile : conf.compile pattern with
  | none =>
      rw [Node.passesOn_of_not_compile hcompile hn.2, (splitsExactly_nil entries).iff]
      by_cases hempty : entries = []
      · simp [hempty]
      · rw [if_neg hempty]
        simp only [hempty, ne_eq, not_true_eq_false, false_and, true_and, false_or]
        omega
  | some matchString =>
      rw [Node.passesOn_of_compile hcompile]
      by_cases hempty : entries = []
      · have hnil : sendSearchReq entries requestID (budget - 1) pattern origin = [] := by
          rw [hempty]
          rfl
        rw [hnil, List.map_nil, (splitsExactly_nil entries).iff, if_pos hempty]
        simp [hempty]
      · rw [(splitsExactly_sendSearchReq hempty _ _ _ _ _).iff, if_neg hempty,
          toNat_sub_one_iff]
        simp [hempty]

/-- A node with two neighbours. -/
def twoNeighbours : Node ℕ :=
  Setup.start ⟨.empty, .empty, [], Gossip.NodeRT.new.addEntries [2, 3]⟩

/-- Every pattern compiles. -/
def compilesAll : Conf ℕ where
  sha256 := Minotor.sha256
  retry := fun _ => 0
  compile := fun _ => some fun _ => true

theorem one_hop_splits_iff_of_four :
    SplitsExactly [2, 3] 3
      (twoNeighbours.passesOn compilesAll 0 ⟨1, 1, 0⟩ 0 1 [] 4 [] [2, 3]) :=
  (one_hop_splits_iff compilesAll 0 (by decide) ⟨1, 1, 0⟩ 0 1 [] 4 [] [2, 3]).mpr
    (.inr (.inl ⟨by decide, by decide⟩))

/-- From a request without budget the greatest budget is passed on. -/
theorem zero_budget_passed_on :
    twoNeighbours.Listens ∧ Node.forwardTo 1 1 [2, 3] = [2, 3] ∧
      ¬SplitsExactly [2, 3] (max (0 : UInt64).toNat 1 - 1)
        (twoNeighbours.passesOn compilesAll 0 ⟨1, 1, 0⟩ 0 1 [] 0 [] [2, 3]) := by
  refine ⟨by decide, by decide, ?_⟩
  have hall : Node.forwardTo 1 1 [2, 3] = [2, 3] := by decide
  have hcompile : compilesAll.compile [] = some fun _ => true := rfl
  rw [Node.passesOn_of_compile hcompile, hall,
    (splitsExactly_sendSearchReq (by decide) 0 0 (0 - 1) [] 1).iff]
  decide

end Minotor.DataSharing
