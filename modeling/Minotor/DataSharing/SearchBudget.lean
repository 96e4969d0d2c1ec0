import Minotor.DataSharing.Search

/-!
# The budget of a search

For every search the requests sent so far, the budgets left on the requests in
flight and the budgets of the requests still to be sent are together at most
the budget of the search.  A step at one node moves budget between these and
never adds to it.
-/

namespace Minotor.DataSharing

variable {P : Type*}

/-! ## Accounts -/

/-- The message is a request of the search `id`. -/
def Message.isSearch (id : ℕ) : Message P → Bool
  | .searchRequest requestID _ _ _ => requestID = id
  | _ => false

/-- The budget which is left for the search `id` after a request has arrived. -/
def Message.left (id : ℕ) : Message P → ℕ
  | .searchRequest requestID _ _ budget => if requestID = id then budget.toNat - 1 else 0
  | _ => 0

/-- The number of requests for the search `id`. -/
def sentFor (id : ℕ) (packets : List (Packet P)) : ℕ :=
  packets.countP fun pkt => pkt.msg.isSearch id

/-- The budgets left on the requests for the search `id`. -/
def leftFor (id : ℕ) (packets : List (Packet P)) : ℕ :=
  (packets.map fun pkt => pkt.msg.left id).sum

/-- What a node still holds of the budget of the search `id`. -/
def Node.held (id : ℕ) (n : Node P) : ℕ :=
  reqsCost id n.forwards + (n.searchAlls.map fun s => reqsCost id s.pc.pending).sum +
    (n.searchFirsts.map fun s => reqsCost id s.pc.pending).sum

/-- What the network has used and carries of the budget of the search `id`. -/
def Network.account (id : ℕ) (st : Network P) : ℕ :=
  sentFor id st.sent + leftFor id st.packets

theorem sentFor_append (id : ℕ) (xs ys : List (Packet P)) :
    sentFor id (xs ++ ys) = sentFor id xs + sentFor id ys := List.countP_append

theorem leftFor_append (id : ℕ) (xs ys : List (Packet P)) :
    leftFor id (xs ++ ys) = leftFor id xs + leftFor id ys := by
  rw [leftFor, List.map_append, List.sum_append]
  rfl

theorem leftFor_eraseIdx (id : ℕ) {packets : List (Packet P)} {k : ℕ} {pkt : Packet P}
    (h : packets[k]? = some pkt) :
    leftFor id (packets.eraseIdx k) + pkt.msg.left id = leftFor id packets := by
  induction packets generalizing k with
  | nil => exact absurd h (by simp)
  | cons p packets ih =>
      cases k with
      | zero =>
          obtain rfl := Option.some.inj h
          exact Nat.add_comm _ _
      | succ k =>
          have htail := ih (k := k) h
          simp only [leftFor, List.eraseIdx_cons_succ, List.map_cons, List.sum_cons] at htail ⊢
          omega

/-- Packets which are no search requests use no budget. -/
theorem used_eq_zero {id : ℕ} {packets : List (Packet P)}
    (h : ∀ pkt ∈ packets, pkt.msg.isSearch id = false) :
    sentFor id packets + leftFor id packets = 0 := by
  induction packets with
  | nil => rfl
  | cons pkt packets ih =>
      have htail := ih fun q hq => h q (List.mem_cons_of_mem _ hq)
      have hsearch := h pkt List.mem_cons_self
      have hleft : pkt.msg.left id = 0 := by
        cases hmsg : pkt.msg with
        | searchRequest requestID origin pattern budget =>
            rw [hmsg, Message.isSearch, decide_eq_false_iff_not] at hsearch
            exact if_neg hsearch
        | _ => rfl
      rw [sentFor, leftFor, List.countP_cons, List.map_cons, List.sum_cons, hleft, hsearch]
      rw [sentFor, leftFor] at htail
      simpa using htail

/-- Sending a request uses one and carries the rest of its budget. -/
theorem used_packet {id : ℕ} {myAddr : P} {r : SearchReq P} (h : 0 < r.budget.toNat) :
    sentFor id [r.packet myAddr] + leftFor id [r.packet myAddr] = r.cost id := by
  rw [sentFor, leftFor, List.countP_singleton, List.map_singleton, List.sum_singleton,
    SearchReq.cost]
  simp only [SearchReq.packet, Message.isSearch, Message.left, decide_eq_true_eq]
  split
  · omega
  · rfl

theorem Sends.used_le {myAddr : P} {reqs reqs' : List (SearchReq P)}
    {sent : List (Packet P)} (h : Sends myAddr reqs reqs' sent) (id : ℕ)
    (hpos : ∀ r ∈ reqs, 0 < r.budget.toNat) :
    sentFor id sent + leftFor id sent + reqsCost id reqs' ≤ reqsCost id reqs := by
  rcases h with ⟨r, rfl, rfl⟩ | ⟨rfl, rfl⟩
  · rw [used_packet (hpos r List.mem_cons_self), reqsCost_cons]
  · exact Nat.zero_le _

/-! ## The requests of a node -/

/-- A property of every request which a node has still to send. -/
structure Node.Pending (Q : SearchReq P → Prop) (n : Node P) : Prop where
  forwards : ∀ r ∈ n.forwards, Q r
  alls : ∀ s ∈ n.searchAlls, ∀ r ∈ s.pc.pending, Q r
  firsts : ∀ s ∈ n.searchFirsts, ∀ r ∈ s.pc.pending, Q r

theorem Sends.pending {Q : SearchReq P → Prop} {myAddr : P} {reqs reqs' : List (SearchReq P)}
    {sent : List (Packet P)} (h : Sends myAddr reqs reqs' sent) (hreqs : ∀ r ∈ reqs, Q r) :
    (∀ r ∈ reqs', Q r) ∧ ∀ pkt ∈ sent, ∃ r, Q r ∧ pkt = r.packet myAddr := by
  rcases h with ⟨r, rfl, rfl⟩ | ⟨rfl, rfl⟩
  · constructor
    · exact fun r' hr' => hreqs r' (List.mem_cons_of_mem _ hr')
    · intro pkt hpkt
      exact ⟨r, hreqs r List.mem_cons_self, List.mem_singleton.mp hpkt⟩
  · exact ⟨fun r hr => absurd hr List.not_mem_nil, fun pkt hpkt => absurd hpkt List.not_mem_nil⟩

namespace Node

variable {myAddr : P} {id : ℕ} {n n' : Node P} {sent : List (Packet P)}

/-- A call keeps a property which the requests of its node have and the new
requests of a search of the node get. -/
theorem Searches.pending {Q : SearchReq P → Prop} (h : n.Searches myAddr id sent n')
    (hn : n.Pending Q)
    (hnew : ∀ requestID neighbours budget pattern,
      (requestID = id ∨ ∃ s ∈ n.searchFirsts, s.requestID = requestID) →
      ∀ r ∈ sendSearchReq neighbours requestID budget pattern myAddr, Q r) :
    n'.Pending Q ∧ ∀ pkt ∈ sent, pkt.msg.IsDataRequest ∨ ∃ r, Q r ∧ pkt = r.packet myAddr := by
  have hnil : ∀ pkt ∈ ([] : List (Packet P)),
      pkt.msg.IsDataRequest ∨ ∃ r, Q r ∧ pkt = r.packet myAddr :=
    fun pkt hpkt => absurd hpkt List.not_mem_nil
  cases h with
  | idle hforwards halls hfirsts hsent =>
      refine ⟨⟨?_, ?_, ?_⟩, fun pkt hpkt => .inl (hsent pkt hpkt)⟩
      · rw [hforwards]
        exact hn.forwards
      · rw [halls]
        exact hn.alls
      · rw [hfirsts]
        exact hn.firsts
  | startAll hforwards halls hfirsts hsent =>
      rw [hsent]
      refine ⟨⟨?_, ?_, ?_⟩, hnil⟩
      · rw [hforwards]
        exact hn.forwards
      · rw [halls]
        intro s hs
        rcases List.mem_append.mp hs with hs | hs
        · exact hn.alls s hs
        · rw [List.mem_singleton.mp hs]
          exact hnew id _ _ _ (.inl rfl)
      · rw [hfirsts]
        exact hn.firsts
  | @all i s pc hforwards hi halls hfirsts hsends =>
      obtain ⟨hpc, hpackets⟩ := hsends.pending (hn.alls s (List.mem_of_getElem? hi))
      refine ⟨⟨?_, ?_, ?_⟩, fun pkt hpkt => .inr (hpackets pkt hpkt)⟩
      · rw [hforwards]
        exact hn.forwards
      · rw [halls]
        intro s' hs'
        rcases List.mem_or_eq_of_mem_set hs' with hs' | rfl
        · exact hn.alls s' hs'
        · exact hpc
      · rw [hfirsts]
        exact hn.firsts
  | @startFirst s hforwards halls hfirsts hid hpending hsent =>
      rw [hsent]
      refine ⟨⟨?_, ?_, ?_⟩, hnil⟩
      · rw [hforwards]
        exact hn.forwards
      · rw [halls]
        exact hn.alls
      · rw [hfirsts]
        intro s' hs'
        rcases List.mem_append.mp hs' with hs' | hs'
        · exact hn.firsts s' hs'
        · rw [List.mem_singleton.mp hs']
          rcases hpending with hpending | ⟨neighbours, budget, pattern, hpending⟩
          · rw [hpending]
            exact fun r hr => absurd hr List.not_mem_nil
          · rw [hpending]
            exact hnew id _ _ _ (.inl rfl)
  | @first i s s' hforwards halls hi hfirsts hid hsends =>
      have hpending : (∀ r ∈ s'.pc.pending, Q r) ∧
          ∀ pkt ∈ sent, ∃ r, Q r ∧ pkt = r.packet myAddr := by
        rcases hsends with hsends | ⟨rfl, neighbours, budget, pattern, hpending⟩
        · exact hsends.pending (hn.firsts s (List.mem_of_getElem? hi))
        · rw [hpending]
          exact ⟨hnew s.requestID _ _ _ (.inr ⟨s, List.mem_of_getElem? hi, rfl⟩),
            fun pkt hpkt => absurd hpkt List.not_mem_nil⟩
      refine ⟨⟨?_, ?_, ?_⟩, fun pkt hpkt => .inr (hpending.2 pkt hpkt)⟩
      · rw [hforwards]
        exact hn.forwards
      · rw [halls]
        exact hn.alls
      · rw [hfirsts]
        intro t ht
        rcases List.mem_or_eq_of_mem_set ht with ht | rfl
        · exact hn.firsts t ht
        · exact hpending.1
  | forward halls hfirsts hsends =>
      obtain ⟨hforwards, hpackets⟩ := hsends.pending hn.forwards
      refine ⟨⟨hforwards, ?_, ?_⟩, fun pkt hpkt => .inr (hpackets pkt hpkt)⟩
      · rw [halls]
        exact hn.alls
      · rw [hfirsts]
        exact hn.firsts

/-- A call adds nothing to the budget of a search which it does not start. -/
theorem Searches.held_le (h : n.Searches myAddr id sent n')
    (hn : n.Pending fun r => 0 < r.budget.toNat) {search : ℕ} (hne : search ≠ id)
    (hfirst : ∀ s ∈ n.searchFirsts, s.requestID ≠ search) :
    sentFor search sent + leftFor search sent + n'.held search ≤ n.held search := by
  have hother : ∀ {neighbours : List P} {requestID : ℕ} {budget : UInt64} {pattern : Bytes},
      requestID ≠ search →
      reqsCost search (sendSearchReq neighbours requestID budget pattern myAddr) = 0 := by
    intro neighbours requestID budget pattern hid
    apply reqsCost_eq_zero
    intro r hr
    rw [(mem_sendSearchReq hr).2.1]
    exact hid
  have hnil : sentFor search ([] : List (Packet P)) + leftFor search ([] : List (Packet P)) = 0 :=
    rfl
  cases h with
  | idle hforwards halls hfirsts hsent =>
      have hzero : sentFor search sent + leftFor search sent = 0 := by
        apply used_eq_zero
        intro pkt hpkt
        obtain ⟨requestID, key, hmsg⟩ := hsent pkt hpkt
        rw [hmsg]
        rfl
      rw [hzero, held, held, hforwards, halls, hfirsts, Nat.zero_add]
  | startAll hforwards halls hfirsts hsent =>
      rw [hsent, hnil, held, held, hforwards, halls, hfirsts, List.map_append, List.sum_append,
        List.map_singleton, List.sum_singleton, SearchPC.pending, hother (Ne.symm hne)]
      omega
  | @all i s pc hforwards hi halls hfirsts hsends =>
      have hused := hsends.used_le search (hn.alls s (List.mem_of_getElem? hi))
      have hset := sum_map_set (fun s : SearchAll P => reqsCost search s.pc.pending) hi
        { s with pc := pc }
      rw [held, held, hforwards, halls, hfirsts]
      simp only at hset
      omega
  | @startFirst s hforwards halls hfirsts hid hpending hsent =>
      have hzero : reqsCost search s.pc.pending = 0 := by
        rcases hpending with hpending | ⟨neighbours, budget, pattern, hpending⟩
        · rw [hpending]
          rfl
        · rw [hpending]
          exact hother (Ne.symm hne)
      rw [hsent, hnil, held, held, hforwards, halls, hfirsts, List.map_append, List.sum_append,
        List.map_singleton, List.sum_singleton, hzero]
      omega
  | @first i s s' hforwards halls hi hfirsts hid hsends =>
      have hmem := List.mem_of_getElem? hi
      have hused : sentFor search sent + leftFor search sent + reqsCost search s'.pc.pending ≤
          reqsCost search s.pc.pending := by
        rcases hsends with hsends | ⟨rfl, neighbours, budget, pattern, hpending⟩
        · exact hsends.used_le search (hn.firsts s hmem)
        · rw [hpending, hother (hfirst s hmem), hnil]
          exact Nat.zero_le _
      have hset := sum_map_set (fun s : SearchFirst P => reqsCost search s.pc.pending) hi s'
      rw [held, held, hforwards, halls, hfirsts]
      omega
  | forward halls hfirsts hsends =>
      have hused := hsends.used_le search hn.forwards
      rw [held, held, halls, hfirsts]
      omega

/-- The calls of `SearchAll` stay the same searches, or one is started. -/
theorem Searches.searchAlls_cases (h : n.Searches myAddr id sent n') :
    (∀ s' ∈ n'.searchAlls, ∃ s ∈ n.searchAlls,
      s'.requestID = s.requestID ∧ s'.budget = s.budget) ∨
    ∃ s, s.requestID = id ∧ n'.searchAlls = n.searchAlls ++ [s] ∧
      n'.searchFirsts = n.searchFirsts ∧ sent = [] ∧
      n'.held id ≤ n.held id + s.budget.toNat := by
  have hsame : n'.searchAlls = n.searchAlls → ∀ s' ∈ n'.searchAlls, ∃ s ∈ n.searchAlls,
      s'.requestID = s.requestID ∧ s'.budget = s.budget := by
    intro halls s' hs'
    rw [halls] at hs'
    exact ⟨s', hs', rfl, rfl⟩
  cases h with
  | idle _ halls _ _ => exact .inl (hsame halls)
  | @startAll pattern budget neighbours hforwards halls hfirsts hsent =>
      right
      refine ⟨_, rfl, halls, hfirsts, hsent, ?_⟩
      have hcost := reqsCost_sendSearchReq_le neighbours id budget pattern myAddr
      rw [held, held, hforwards, halls, hfirsts, List.map_append, List.sum_append,
        List.map_singleton, List.sum_singleton, SearchPC.pending]
      change _ ≤ _ + budget.toNat
      omega
  | @all i s pc _ hi halls _ _ =>
      left
      intro s' hs'
      rw [halls] at hs'
      rcases List.mem_or_eq_of_mem_set hs' with hs' | rfl
      · exact ⟨s', hs', rfl, rfl⟩
      · exact ⟨s, List.mem_of_getElem? hi, rfl, rfl⟩
  | startFirst _ halls _ _ _ _ => exact .inl (hsame halls)
  | first _ halls _ _ _ _ => exact .inl (hsame halls)
  | forward halls _ _ => exact .inl (hsame halls)

theorem Searches.searchFirsts_cases (h : n.Searches myAddr id sent n') :
    ∀ s' ∈ n'.searchFirsts,
      (∃ s ∈ n.searchFirsts, s'.requestID = s.requestID) ∨ s'.requestID = id := by
  have hsame : n'.searchFirsts = n.searchFirsts → ∀ s' ∈ n'.searchFirsts,
      (∃ s ∈ n.searchFirsts, s'.requestID = s.requestID) ∨ s'.requestID = id := by
    intro hfirsts s' hs'
    rw [hfirsts] at hs'
    exact .inl ⟨s', hs', rfl⟩
  cases h with
  | idle _ _ hfirsts _ => exact hsame hfirsts
  | startAll _ _ hfirsts _ => exact hsame hfirsts
  | all _ _ _ hfirsts _ => exact hsame hfirsts
  | @startFirst s _ _ hfirsts hid _ _ =>
      intro s' hs'
      rw [hfirsts] at hs'
      rcases List.mem_append.mp hs' with hs' | hs'
      · exact .inl ⟨s', hs', rfl⟩
      · rw [List.mem_singleton.mp hs']
        exact .inr hid
  | @first i s t _ _ hi hfirsts hid _ =>
      intro s' hs'
      rw [hfirsts] at hs'
      rcases List.mem_or_eq_of_mem_set hs' with hs' | rfl
      · exact .inl ⟨s', hs', rfl⟩
      · exact .inl ⟨s, List.mem_of_getElem? hi, hid⟩
  | forward _ hfirsts _ => exact hsame hfirsts

/-- The handler of a packet holds no more than the packet leaves. -/
theorem Handles.held_le {pkt : Packet P} (h : n.Handles myAddr pkt n' sent)
    (hidle : n.forwards = [])
    (hbudget : ∀ requestID origin pattern budget,
      pkt.msg = .searchRequest requestID origin pattern budget → 0 < budget.toNat)
    (search : ℕ) : n'.held search ≤ n.held search + pkt.msg.left search := by
  obtain ⟨f, hf, hfirsts⟩ := h.searchFirsts
  have hmap : (n'.searchFirsts.map fun s => reqsCost search s.pc.pending) =
      n.searchFirsts.map fun s => reqsCost search s.pc.pending := by
    rw [hfirsts, List.map_map]
    apply List.map_congr_left
    intro s _
    exact congrArg (fun pc => reqsCost search pc.pending) (hf s).2
  rw [held, held, h.searchAlls, hmap]
  rcases h.forwards with hforwards | ⟨requestID, origin, pattern, budget, nbs, hmsg, hforwards⟩
  · rw [hforwards]
    omega
  · have hpos := hbudget requestID origin pattern budget hmsg
    have hsub : (budget - 1).toNat = budget.toNat - 1 :=
      UInt64.toNat_sub_of_le budget 1 (UInt64.le_iff_toNat_le.mpr hpos)
    rw [hforwards, hidle, reqsCost_nil, hmsg, Message.left]
    split
    · next hid =>
        obtain rfl := hid
        have hcost := reqsCost_sendSearchReq_le nbs requestID (budget - 1) pattern origin
        omega
    · next hid =>
        have hzero : reqsCost search
            (sendSearchReq nbs requestID (budget - 1) pattern origin) = 0 := by
          apply reqsCost_eq_zero
          intro r hr
          rw [(mem_sendSearchReq hr).2.1]
          exact hid
        omega

end Node

/-! ## The network -/

/-- A request which carries a budget and the ID of a search that has
started. -/
def SearchReq.Issued (next : ℕ) (r : SearchReq P) : Prop :=
  0 < r.budget.toNat ∧ r.requestID < next

/-- A packet with a search request is one of an issued request, addressed to
its neighbour. -/
def Packet.Issued (next : ℕ) (pkt : Packet P) : Prop :=
  ∀ requestID origin pattern budget,
    pkt.msg = .searchRequest requestID origin pattern budget →
    0 < budget.toNat ∧ requestID < next ∧ pkt.header.destination = pkt.dest

/-- Only searches which have started have requests. -/
structure Network.Issued (st : Network P) : Prop where
  pending : ∀ p, (st.nodes p).Pending (SearchReq.Issued st.nextID)
  firsts : ∀ p, ∀ s ∈ (st.nodes p).searchFirsts, s.requestID < st.nextID
  packets : ∀ pkt ∈ st.packets, pkt.Issued st.nextID
  sent : ∀ pkt ∈ st.sent, pkt.Issued st.nextID

/-- The search `id` is one of `SearchAll` and stays within its budget. -/
structure Network.Bounded (st : Network P) (id bound : ℕ) : Prop where
  issued : id < st.nextID
  firsts : ∀ p, ∀ s ∈ (st.nodes p).searchFirsts, s.requestID ≠ id
  within : WithinBudget (fun p => (st.nodes p).held id) (st.account id) bound

theorem SearchReq.Issued.mono {next next' : ℕ} {r : SearchReq P} (h : r.Issued next)
    (hle : next ≤ next') : r.Issued next' :=
  ⟨h.1, h.2.trans_le hle⟩

theorem Packet.Issued.mono {next next' : ℕ} {pkt : Packet P} (h : pkt.Issued next)
    (hle : next ≤ next') : pkt.Issued next' := by
  intro requestID origin pattern budget hmsg
  obtain ⟨hpos, hid, hdest⟩ := h requestID origin pattern budget hmsg
  exact ⟨hpos, hid.trans_le hle, hdest⟩

theorem Node.Pending.mono {Q R : SearchReq P → Prop} {n : Node P} (h : n.Pending Q)
    (hQR : ∀ r, Q r → R r) : n.Pending R where
  forwards r hr := hQR r (h.forwards r hr)
  alls s hs r hr := hQR r (h.alls s hs r hr)
  firsts s hs r hr := hQR r (h.firsts s hs r hr)

theorem issued_packet {next : ℕ} {myAddr : P} {r : SearchReq P} (h : r.Issued next) :
    (r.packet myAddr).Issued next := by
  intro requestID origin pattern budget hmsg
  obtain ⟨rfl, _, _, rfl⟩ := Message.searchRequest.inj hmsg
  exact ⟨h.1, h.2, rfl⟩

namespace Network

variable {st : Network P}

theorem Issued.held_eq_zero (h : st.Issued) {id : ℕ} (hid : st.nextID ≤ id) (p : P) :
    (st.nodes p).held id = 0 := by
  have hzero : ∀ reqs : List (SearchReq P), (∀ r ∈ reqs, r.Issued st.nextID) →
      reqsCost id reqs = 0 := by
    intro reqs hreqs
    apply reqsCost_eq_zero
    intro r hr heq
    exact absurd (hreqs r hr).2 (by omega)
  have halls : ((st.nodes p).searchAlls.map fun s => reqsCost id s.pc.pending).sum = 0 := by
    apply List.sum_eq_zero
    intro x hx
    obtain ⟨s, hs, rfl⟩ := List.mem_map.mp hx
    exact hzero _ ((h.pending p).alls s hs)
  have hfirsts : ((st.nodes p).searchFirsts.map fun s => reqsCost id s.pc.pending).sum = 0 := by
    apply List.sum_eq_zero
    intro x hx
    obtain ⟨s, hs, rfl⟩ := List.mem_map.mp hx
    exact hzero _ ((h.pending p).firsts s hs)
  rw [Node.held, hzero _ (h.pending p).forwards, halls, hfirsts]

theorem Issued.used_eq_zero (h : st.Issued) {id : ℕ} (hid : st.nextID ≤ id) :
    st.account id = 0 := by
  have hsearch : ∀ pkt : Packet P, pkt.Issued st.nextID → pkt.msg.isSearch id = false := by
    intro pkt hpkt
    cases hmsg : pkt.msg with
    | searchRequest requestID origin pattern budget =>
        have hlt := (hpkt requestID origin pattern budget hmsg).2.1
        rw [Message.isSearch, decide_eq_false_iff_not]
        omega
    | _ => rfl
  have hsent := DataSharing.used_eq_zero fun pkt hpkt => hsearch pkt (h.sent pkt hpkt)
  have hpackets := DataSharing.used_eq_zero fun pkt hpkt => hsearch pkt (h.packets pkt hpkt)
  rw [account]
  omega

/-- The account after the arrival of a packet. -/
theorem account_eraseIdx {k : ℕ} {pkt : Packet P} (hpkt : st.packets[k]? = some pkt) (id : ℕ) :
    account id { st with packets := st.packets.eraseIdx k } + pkt.msg.left id =
      st.account id := by
  have hleft := leftFor_eraseIdx id hpkt
  change sentFor id st.sent + leftFor id (st.packets.eraseIdx k) + _ = _
  rw [account]
  omega

theorem Issued.erase (h : st.Issued) (k : ℕ) :
    Issued { st with packets := st.packets.eraseIdx k } where
  pending := h.pending
  firsts := h.firsts
  packets pkt hpkt := h.packets pkt (List.mem_of_mem_eraseIdx hpkt)
  sent := h.sent

/-- The handler of a packet sends no search request itself. -/
theorem Issued.isSearch_of_handles (h : st.Issued) {k : ℕ} {pkt pkt' : Packet P} {n : Node P}
    {sent : List (Packet P)} (hpkt : st.packets[k]? = some pkt)
    (hhandles : (st.nodes pkt.dest).Handles pkt.dest pkt n sent) (hpkt' : pkt' ∈ sent)
    (id : ℕ) : pkt'.msg.isSearch id = false := by
  rcases hhandles.sent pkt' hpkt' with ⟨hdest, hmsg⟩ | hreply
  · rw [hmsg]
    cases hcase : pkt.msg with
    | searchRequest requestID origin pattern budget =>
        have hissued := h.packets pkt (List.mem_of_getElem? hpkt)
        exact absurd (hissued requestID origin pattern budget hcase).2.2 hdest
    | _ => rfl
  · cases hcase : pkt'.msg with
    | searchRequest requestID origin pattern budget =>
        rw [hcase] at hreply
        exact hreply.elim
    | _ => rfl

/-- The packets of the network change and use no more of the budget. -/
theorem Bounded.packets {id bound : ℕ} (h : st.Bounded id bound) {packets : List (Packet P)}
    (hle : leftFor id packets ≤ leftFor id st.packets) :
    Bounded { st with packets := packets } id bound where
  issued := h.issued
  firsts := h.firsts
  within := h.within.mono (Nat.add_le_add_left hle _)

variable [DecidableEq P]

theorem held_put (id : ℕ) (p : P) (n : Node P) (sent : List (Packet P)) :
    (fun q => ((st.put p n sent).nodes q).held id) =
      Function.update (fun q => (st.nodes q).held id) p (n.held id) :=
  Function.comp_update (Node.held id) st.nodes p n

theorem account_put (id : ℕ) (p : P) (n : Node P) (sent : List (Packet P)) :
    (st.put p n sent).account id =
      st.account id + (sentFor id sent + leftFor id sent) := by
  rw [account, account, put, sentFor_append, leftFor_append]
  omega

/-- A node changes while its requests stay issued. -/
theorem Issued.put (h : st.Issued) {p : P} {n : Node P} {sent : List (Packet P)}
    (hn : n.Pending (SearchReq.Issued (st.nextID + 1)))
    (hfirsts : ∀ s ∈ n.searchFirsts, s.requestID < st.nextID + 1)
    (hsent : ∀ pkt ∈ sent, pkt.Issued (st.nextID + 1)) : (st.put p n sent).Issued := by
  have hle : st.nextID ≤ st.nextID + 1 := Nat.le_succ _
  constructor
  · exact forall_put (N := fun _ m => m.Pending (SearchReq.Issued (st.nextID + 1)))
      (fun q => (h.pending q).mono fun r hr => hr.mono hle) hn
  · exact forall_put (N := fun _ m => ∀ s ∈ m.searchFirsts, s.requestID < st.nextID + 1)
      (fun q s hs => (h.firsts q s hs).trans_le hle) hfirsts
  · intro pkt hpkt
    rcases List.mem_append.mp hpkt with hpkt | hpkt
    · exact (h.packets pkt hpkt).mono hle
    · exact hsent pkt hpkt
  · intro pkt hpkt
    rcases List.mem_append.mp hpkt with hpkt | hpkt
    · exact (h.sent pkt hpkt).mono hle
    · exact hsent pkt hpkt

/-- A node and the packets change and add nothing to the budget of a search. -/
theorem Bounded.put {id bound : ℕ} (h : st.Bounded id bound) {p : P} {n : Node P}
    {packets sent : List (Packet P)} (hfirsts : ∀ s ∈ n.searchFirsts, s.requestID ≠ id)
    (hle : account id { st with packets := packets } + (sentFor id sent + leftFor id sent) +
      n.held id ≤ st.account id + (st.nodes p).held id) :
    (Network.put { st with packets := packets } p n sent).Bounded id bound where
  issued := h.issued.trans (Nat.lt_succ_self _)
  firsts := forall_put (N := fun _ m => ∀ s ∈ m.searchFirsts, s.requestID ≠ id)
    h.firsts hfirsts
  within := by
    rw [held_put, account_put]
    exact h.within.update hle

/-! ## Steps -/

variable {conf : Conf P} {p : P} {n : Node P} {sent : List (Packet P)}

theorem Issued.call {c : Call P} (h : st.Issued)
    (hcall : (st.nodes p).call conf p st.nextID c = some (n, sent)) :
    (st.put p n sent).Issued := by
  have hsearches := Node.call_searches hcall
  have hnew : ∀ requestID neighbours budget pattern,
      (requestID = st.nextID ∨ ∃ s ∈ (st.nodes p).searchFirsts, s.requestID = requestID) →
      ∀ r ∈ sendSearchReq neighbours requestID budget pattern p,
        r.Issued (st.nextID + 1) := by
    intro requestID neighbours budget pattern hid r hr
    obtain ⟨_, hrid, _, hpos⟩ := mem_sendSearchReq hr
    refine ⟨hpos, ?_⟩
    rw [hrid]
    rcases hid with rfl | ⟨s, hs, rfl⟩
    · exact Nat.lt_succ_self _
    · exact (h.firsts p s hs).trans (Nat.lt_succ_self _)
  obtain ⟨hpending, hpackets⟩ := hsearches.pending
    ((h.pending p).mono fun r hr => hr.mono (Nat.le_succ _)) hnew
  apply h.put hpending
  · intro s' hs'
    rcases hsearches.searchFirsts_cases s' hs' with ⟨s, hs, hid⟩ | hid
    · rw [hid]
      exact (h.firsts p s hs).trans (Nat.lt_succ_self _)
    · rw [hid]
      exact Nat.lt_succ_self _
  · intro pkt hpkt
    rcases hpackets pkt hpkt with ⟨requestID, key, hmsg⟩ | ⟨r, hr, rfl⟩
    · intro _ _ _ _ hsearch
      rw [hmsg] at hsearch
      exact absurd hsearch (by simp)
    · exact issued_packet hr

theorem Bounded.call {c : Call P} {id bound : ℕ} (h : st.Bounded id bound) (hst : st.Issued)
    (hcall : (st.nodes p).call conf p st.nextID c = some (n, sent)) :
    (st.put p n sent).Bounded id bound := by
  have hsearches := Node.call_searches hcall
  have hne : id ≠ st.nextID := Nat.ne_of_lt h.issued
  refine h.put ?_ ?_
  · intro s' hs'
    rcases hsearches.searchFirsts_cases s' hs' with ⟨s, hs, hid⟩ | hid
    · rw [hid]
      exact h.firsts p s hs
    · rw [hid]
      exact Ne.symm hne
  · have hle := hsearches.held_le ((hst.pending p).mono fun r hr => hr.1) hne (h.firsts p)
    rw [Nat.add_assoc]
    exact Nat.add_le_add_left hle _

/-- A search which has just started is within its budget. -/
theorem Bounded.start {s : SearchAll P} (hst : st.Issued)
    (hid : s.requestID = st.nextID) (hfirsts : n.searchFirsts = (st.nodes p).searchFirsts)
    (hsent : sent = [])
    (hheld : n.held st.nextID ≤ (st.nodes p).held st.nextID + s.budget.toNat) :
    (st.put p n sent).Bounded s.requestID s.budget.toNat := by
  have hzero : ∀ q, (st.nodes q).held st.nextID = 0 := hst.held_eq_zero le_rfl
  rw [hid]
  constructor
  · exact Nat.lt_succ_self _
  · apply forall_put (N := fun _ m => ∀ t ∈ m.searchFirsts, t.requestID ≠ st.nextID)
    · intro q t ht
      exact Nat.ne_of_lt (hst.firsts q t ht)
    · rw [hfirsts]
      intro t ht
      exact Nat.ne_of_lt (hst.firsts p t ht)
  · rw [held_put, account_put, hst.used_eq_zero le_rfl, hsent]
    have hwithin := withinBudget_of_zero hzero (le_refl s.budget.toNat)
    apply hwithin.update
    rw [hzero p] at hheld
    have hnil : sentFor st.nextID ([] : List (Packet P)) +
        leftFor st.nextID ([] : List (Packet P)) = 0 := rfl
    omega

theorem Issued.deliver {k : ℕ} {pkt : Packet P} (h : st.Issued)
    (hpkt : st.packets[k]? = some pkt)
    (hhandles : (st.nodes pkt.dest).Handles pkt.dest pkt n sent) :
    (Network.put { st with packets := st.packets.eraseIdx k } pkt.dest n sent).Issued := by
  obtain ⟨f, hf, hfirsts⟩ := hhandles.searchFirsts
  have hold := (h.pending pkt.dest).mono fun r hr => hr.mono (Nat.le_succ st.nextID)
  apply (h.erase k).put
  · constructor
    · rcases hhandles.forwards with heq | ⟨requestID, origin, pattern, budget, nbs, hmsg, heq⟩
      · rw [heq]
        exact hold.forwards
      · rw [heq]
        intro r hr
        obtain ⟨_, hid, _, hpos⟩ := mem_sendSearchReq hr
        have hissued := h.packets pkt (List.mem_of_getElem? hpkt)
        refine ⟨hpos, ?_⟩
        rw [hid]
        exact (hissued requestID origin pattern budget hmsg).2.1.trans (Nat.lt_succ_self _)
    · rw [hhandles.searchAlls]
      exact hold.alls
    · rw [hfirsts]
      intro s' hs'
      obtain ⟨s, hs, rfl⟩ := List.mem_map.mp hs'
      rw [(hf s).2]
      exact hold.firsts s hs
  · rw [hfirsts]
    intro s' hs'
    obtain ⟨s, hs, rfl⟩ := List.mem_map.mp hs'
    rw [(hf s).1]
    exact (h.firsts pkt.dest s hs).trans (Nat.lt_succ_self _)
  · intro pkt' hpkt' requestID origin pattern budget hmsg
    have hsearch := h.isSearch_of_handles hpkt hhandles hpkt' requestID
    rw [hmsg, Message.isSearch, decide_eq_false_iff_not] at hsearch
    exact absurd rfl hsearch

theorem Bounded.deliver {k : ℕ} {pkt : Packet P} {id bound : ℕ} (h : st.Bounded id bound)
    (hst : st.Issued) (hpkt : st.packets[k]? = some pkt)
    (hidle : (st.nodes pkt.dest).forwards = [])
    (hhandles : (st.nodes pkt.dest).Handles pkt.dest pkt n sent) :
    (Network.put { st with packets := st.packets.eraseIdx k } pkt.dest n sent).Bounded
      id bound := by
  obtain ⟨f, hf, hfirsts⟩ := hhandles.searchFirsts
  have hissued := hst.packets pkt (List.mem_of_getElem? hpkt)
  refine h.put ?_ ?_
  · rw [hfirsts]
    intro s' hs'
    obtain ⟨s, hs, rfl⟩ := List.mem_map.mp hs'
    rw [(hf s).1]
    exact h.firsts pkt.dest s hs
  · have hused := DataSharing.used_eq_zero fun pkt' hpkt' =>
      hst.isSearch_of_handles hpkt hhandles hpkt' id
    have haccount := account_eraseIdx hpkt id
    have hheld := hhandles.held_le hidle
      (fun requestID origin pattern budget hmsg =>
        (hissued requestID origin pattern budget hmsg).1) id
    omega

/-! ## Runs -/

/-- Only searches which have started have requests, and every call of
`SearchAll` stays within its budget. -/
structure Budgeted (st : Network P) : Prop where
  issued : st.Issued
  bounded : ∀ p, ∀ s ∈ (st.nodes p).searchAlls, st.Bounded s.requestID s.budget.toNat

theorem Budgeted.call {c : Call P} (h : st.Budgeted)
    (hcall : (st.nodes p).call conf p st.nextID c = some (n, sent)) :
    (st.put p n sent).Budgeted := by
  refine ⟨h.issued.call hcall, ?_⟩
  have hold : ∀ q, ∀ s ∈ (st.nodes q).searchAlls,
      (st.put p n sent).Bounded s.requestID s.budget.toNat :=
    fun q s hs => (h.bounded q s hs).call h.issued hcall
  apply forall_put (N := fun _ m => ∀ s ∈ m.searchAlls,
    (st.put p n sent).Bounded s.requestID s.budget.toNat) hold
  intro s' hs'
  rcases (Node.call_searches hcall).searchAlls_cases with
    hsame | ⟨s, hid, halls, hfirsts, hsent, hheld⟩
  · obtain ⟨s, hs, hid, hbudget⟩ := hsame s' hs'
    rw [hid, hbudget]
    exact hold p s hs
  · rw [halls] at hs'
    rcases List.mem_append.mp hs' with hs' | hs'
    · exact hold p s' hs'
    · rw [List.mem_singleton.mp hs']
      exact .start h.issued hid hfirsts hsent hheld

theorem Budgeted.next {st' : Network P} {a : Action P} (h : st.Budgeted)
    (hdup : ∀ k, a ≠ .duplicate k) (hnext : st.next conf a = some st') : st'.Budgeted := by
  rcases step_of_next hnext with
    hcall | ⟨hpkt, hlistens, hvisits, hshuffles, hreceive⟩ | _ | hpkt | _
  · exact h.call hcall
  · next k order neighbours ok pkt n sent =>
      have hhandles := Node.receive_handles conf pkt.dest (st.nodes pkt.dest) pkt order
        neighbours ok
      rw [hreceive] at hhandles
      refine ⟨h.issued.deliver hpkt hhandles, ?_⟩
      have hold : ∀ q, ∀ s ∈ (st.nodes q).searchAlls, Bounded
          (Network.put { st with packets := st.packets.eraseIdx k } pkt.dest n sent)
          s.requestID s.budget.toNat :=
        fun q s hs => (h.bounded q s hs).deliver h.issued hpkt hlistens.2 hhandles
      refine forall_put (N := fun _ m => ∀ s ∈ m.searchAlls, Bounded
        (Network.put { st with packets := st.packets.eraseIdx k } pkt.dest n sent)
        s.requestID s.budget.toNat) hold ?_
      rw [hhandles.searchAlls]
      exact hold pkt.dest
  · next k pkt hpkt => exact absurd rfl (hdup k)
  · next k pkt =>
      refine ⟨h.issued.erase k, ?_⟩
      intro q s hs
      have hleft := leftFor_eraseIdx s.requestID hpkt
      exact (h.bounded q s hs).packets (by omega)
  · next dest header requestID key value =>
      constructor
      · refine ⟨h.issued.pending, h.issued.firsts, ?_, h.issued.sent⟩
        intro pkt hpkt
        rcases List.mem_append.mp hpkt with hpkt | hpkt
        · exact h.issued.packets pkt hpkt
        · rw [List.mem_singleton.mp hpkt]
          intro _ _ _ _ hmsg
          exact absurd hmsg (by simp)
      · intro q s hs
        apply (h.bounded q s hs).packets
        rw [leftFor_append]
        exact le_rfl

end Network

theorem budgeted_of_reachable [DecidableEq P] {conf : Conf P} {setup : P → Setup P}
    {st : Network P}
    (hst : (dataSharing conf setup).ReachableUnder (fun _ a => ∀ k, a ≠ .duplicate k) st) :
    st.Budgeted := by
  apply hst.invariant
  · constructor
    · constructor
      · intro p
        exact ⟨fun r hr => absurd hr List.not_mem_nil, fun s hs => absurd hs List.not_mem_nil,
          fun s hs => absurd hs List.not_mem_nil⟩
      · exact fun p s hs => absurd hs List.not_mem_nil
      · exact fun pkt hpkt => absurd hpkt List.not_mem_nil
      · exact fun pkt hpkt => absurd hpkt List.not_mem_nil
    · exact fun p s hs => absurd hs List.not_mem_nil
  · intro st st' a _ h hdup hnext
    exact h.next hdup hnext

/-- Every request of a search in flight carries a budget, and the requests sent
for the search together with what is left on those in flight stay within the
budget of the search. -/
theorem search_budget [DecidableEq P] (conf : Conf P) (setup : P → Setup P) {st : Network P}
    (hst : (dataSharing conf setup).ReachableUnder (fun _ a => ∀ k, a ≠ .duplicate k) st) :
    ∀ p, ∀ s ∈ (st.nodes p).searchAlls,
      (∀ pkt ∈ st.packets, ∀ origin pattern budget,
        pkt.msg = .searchRequest s.requestID origin pattern budget → 1 ≤ budget.toNat) ∧
      sentFor s.requestID st.sent + leftFor s.requestID st.packets ≤ s.budget.toNat := by
  have h := budgeted_of_reachable hst
  intro p s hs
  constructor
  · intro pkt hpkt origin pattern budget hmsg
    exact (h.issued.packets pkt hpkt s.requestID origin pattern budget hmsg).1
  · exact (h.bounded p s hs).within.account_le

/-! ## A search in a triangle -/

/-- Three nodes which are all neighbours of each other. -/
def triangleSetup (p : Fin 3) : Setup (Fin 3) where
  blobs := .empty
  naming := .empty
  catalog := []
  routingTable := Gossip.NodeRT.new.addEntries ([0, 1, 2].filter (· ≠ p))

def triangleConf : Conf (Fin 3) where
  sha256 := sha256
  retry := fun _ => 3
  compile := fun _ => some fun _ => true

def Action.isDuplicate : Action P → Bool
  | .duplicate _ => true
  | _ => false

/-- The first node searches with a budget of four, and the second node forwards
its request to the third. -/
def triangleRun : List (Action (Fin 3)) :=
  [.call 0 (.searchAll [] 4 [1, 2]), .call 0 (.searchAllSend 0 true),
   .call 0 (.searchAllSend 0 true), .deliver 0 [] [0, 2] true, .call 1 (.forward true)]

theorem search_budget_of_triangle :
    ∃ st, (dataSharing triangleConf triangleSetup).ReachableUnder
        (fun _ a => ∀ k, a ≠ .duplicate k) st ∧
      (st.nodes 0).searchAlls = [⟨0, [], 4, .sending []⟩] ∧ sentFor 0 st.sent = 3 ∧
      (∀ pkt ∈ st.packets, ∀ origin pattern budget,
        pkt.msg = .searchRequest 0 origin pattern budget → 1 ≤ budget.toNat) ∧
      sentFor 0 st.sent + leftFor 0 st.packets ≤ 4 := by
  obtain ⟨st, hst, hsearch, hsent⟩ := TransitionSystem.exists_of_replay
    (S := dataSharing triangleConf triangleSetup) (fun _ a => a.isDuplicate = false)
    triangleRun (fun st => (st.nodes 0).searchAlls = [⟨0, [], 4, .sending []⟩] ∧
      sentFor 0 st.sent = 3) (by decide +kernel)
  have hno : ∀ (st : Network (Fin 3)) (a : Action (Fin 3)), a.isDuplicate = false →
      ∀ k, a ≠ .duplicate k := by
    rintro st a ha k rfl
    exact absurd ha (by simp [Action.isDuplicate])
  have hreach := hst.mono hno
  have hbudget := search_budget triangleConf triangleSetup hreach 0
    ⟨0, [], 4, .sending []⟩ (by rw [hsearch]; exact List.mem_cons_self)
  exact ⟨st, hreach, hsearch, hsent, hbudget⟩

end Minotor.DataSharing
