import Mathlib.Combinatorics.SimpleGraph.Connectivity.Connected
import Mathlib.Data.List.AList

/-!
# Random topologies

`Generate` of `internal/graph`, which chooses the neighbours of the peers in polypus and in the
tests.  It takes the peers one after the other and joins each to some of those before it, in as
many passes over them as it takes to join it to one.

`rand.Float64` returns the numbers of a sequence, one after the other, in any linear order, and
`half` is the number 0.5.  The loop which waits for a connection has fuel.
-/

namespace Minotor.Topology

variable {F P : Type*}

/-- `Graph`. -/
structure Graph (F : Type*) where
  p : F

/-- The variables of `Generate`, with the number of calls of `rand.Float64` and the edges in
`out`. -/
structure Locals (P : Type*) where
  drawn : ℕ
  out : List (ℕ × ℕ)
  peersNeighboors : AList fun _ : P => List P

namespace Locals

variable [DecidableEq P]

/-- `peersNeighboors[k]`. -/
def neighboors (s : Locals P) (k : P) : List P := (s.peersNeighboors.lookup k).getD []

/-- The edge from peer `i` to peer `j` is printed, and `peersNeighboors[k]` gets `v`. -/
def connect (s : Locals P) (i j : ℕ) (k v : P) : Locals P where
  drawn := s.drawn
  out := s.out ++ [(i + 1, j + 1)]
  peersNeighboors := s.peersNeighboors.insert k (s.neighboors k ++ [v])

/-- Who has whom as a neighbour, in either direction. -/
def graph (s : Locals P) : SimpleGraph P := SimpleGraph.fromRel fun k v => v ∈ s.neighboors k

end Locals

section

variable [LinearOrder F] [DecidableEq P] (g : Graph F) (half : F) (float64 : ℕ → F)

/-- The body of the innermost loop, for `peers[i]` and `peers[j]`. -/
def turn (i : ℕ) (peer : P) (s : Locals P × Bool) (other : P × ℕ) : Locals P × Bool :=
  let (s, connected) := s
  let (peer', j) := other
  if g.p ≤ float64 s.drawn then ({ s with drawn := s.drawn + 1 }, connected)
  else
    let inverse := half < float64 (s.drawn + 1)
    let s := { s with drawn := s.drawn + 2 }
    (if inverse then s.connect j i peer' peer else s.connect i j peer peer', true)

/-- The loop over `j`. -/
def pass (before : List P) (peer : P) (s : Locals P) : Locals P × Bool :=
  before.zipIdx.foldl (turn g half float64 before.length peer) (s, false)

/-- The loop which ends when `connected` is true. -/
def connectPeer (before : List P) (peer : P) : ℕ → Locals P → Option (Locals P)
  | 0, _ => none
  | fuel + 1, s =>
      match pass g half float64 before peer s with
      | (s, true) => some s
      | (s, false) => connectPeer before peer fuel s

/-- The loop over `i`, with the peers before it and the others. -/
def connectPeers (fuel : ℕ) (before : List P) : List P → Locals P → Option (Locals P)
  | [], s => some s
  | peer :: rest, s =>
      (connectPeer g half float64 before peer fuel s).bind
        (connectPeers fuel (before ++ [peer]) rest)

/-- `Generate` up to the calls of `AddPeer`. -/
def generate (fuel : ℕ) (peers : List P) : Option (Locals P) :=
  connectPeers g half float64 fuel (peers.take 1) (peers.drop 1) ⟨0, [], ∅⟩

end

/-! ## One edge -/

namespace Locals

variable [DecidableEq P] {s s' : Locals P} {peers before : List P} {i j : ℕ} {k v a b : P}

theorem neighboors_connect (s : Locals P) (i j : ℕ) (k v a : P) :
    (s.connect i j k v).neighboors a =
      if a = k then s.neighboors k ++ [v] else s.neighboors a := by
  rw [neighboors, connect]
  by_cases ha : a = k
  · rw [if_pos ha, ha, AList.lookup_insert, Option.getD_some]
  · rw [if_neg ha, AList.lookup_insert_ne ha]
    rfl

theorem mem_neighboors_connect :
    b ∈ (s.connect i j k v).neighboors a ↔ b ∈ s.neighboors a ∨ a = k ∧ b = v := by
  rw [neighboors_connect]
  split
  · next ha =>
      rw [List.mem_append, List.mem_singleton, ha]
      simp
  · next ha => simp [ha]

/-- The lists of neighbours are the edges in the output. -/
def Printed (peers : List P) (s : Locals P) : Prop :=
  ∀ a, s.neighboors a = s.out.filterMap fun e =>
    if peers[e.1 - 1]? = some a then peers[e.2 - 1]? else none

theorem Printed.connect (h : s.Printed peers) (hi : peers[i]? = some k)
    (hj : peers[j]? = some v) : (s.connect i j k v).Printed peers := by
  intro a
  rw [neighboors_connect, Locals.connect, List.filterMap_append, ← h a]
  by_cases ha : a = k
  · simp [ha, hi, hj]
  · simp [Ne.symm ha, hi, ha]

/-- No edge is there twice or in both directions, and only `pairs` are joined. -/
structure Simple (pairs : P → P → Prop) (s : Locals P) : Prop where
  nodup : ∀ a, (s.neighboors a).Nodup
  asymm : ∀ a b, b ∈ s.neighboors a → a ∉ s.neighboors b
  mem : ∀ a b, b ∈ s.neighboors a → pairs a b ∨ pairs b a

theorem Simple.mono {pairs pairs' : P → P → Prop} (h : s.Simple pairs)
    (hle : ∀ a b, pairs a b → pairs' a b) : s.Simple pairs' :=
  ⟨h.nodup, h.asymm, fun a b hb => (h.mem a b hb).imp (hle a b) (hle b a)⟩

/-- A new pair is joined. -/
theorem Simple.connect {pairs pairs' : P → P → Prop} (h : s.Simple pairs) (hne : k ≠ v)
    (hkv : ¬pairs k v) (hvk : ¬pairs v k) (hle : ∀ a b, pairs a b → pairs' a b)
    (hnew : pairs' k v ∨ pairs' v k) : (s.connect i j k v).Simple pairs' := by
  have hv : v ∉ s.neighboors k := fun hmem => (h.mem k v hmem).elim hkv hvk
  have hk : k ∉ s.neighboors v := fun hmem => (h.mem v k hmem).elim hvk hkv
  constructor
  · intro a
    rw [neighboors_connect]
    split
    · exact List.nodup_append.mpr ⟨h.nodup k, List.nodup_singleton v, fun b hb c hc heq =>
        hv (List.mem_singleton.mp hc ▸ heq ▸ hb)⟩
    · exact h.nodup a
  · intro a b hb ha
    rw [mem_neighboors_connect] at hb ha
    rcases hb with hb | ⟨rfl, rfl⟩
    · rcases ha with ha | ⟨rfl, rfl⟩
      · exact h.asymm a b hb ha
      · exact hk hb
    · rcases ha with ha | ⟨heq, -⟩
      · exact hk ha
      · exact hne heq.symm
  · intro a b hb
    rcases mem_neighboors_connect.mp hb with hb | ⟨rfl, rfl⟩
    · exact (h.mem a b hb).imp (hle a b) (hle b a)
    · exact hnew

theorem graph_le_connect (s : Locals P) (i j : ℕ) (k v : P) :
    s.graph ≤ (s.connect i j k v).graph := by
  intro a b
  simp only [graph, SimpleGraph.fromRel_adj, mem_neighboors_connect]
  rintro ⟨hne, hab | hba⟩
  · exact ⟨hne, .inl (.inl hab)⟩
  · exact ⟨hne, .inr (.inl hba)⟩

theorem graph_connect_adj (s : Locals P) (i j : ℕ) (hne : k ≠ v) :
    (s.connect i j k v).graph.Adj k v :=
  (SimpleGraph.fromRel_adj _ _ _).mpr ⟨hne, .inl (mem_neighboors_connect.mpr (.inr ⟨rfl, rfl⟩))⟩

end Locals

/-! ## A pass -/

section

variable [LinearOrder F] [DecidableEq P] {g : Graph F} {half : F} {float64 : ℕ → F}
  {peers before visited : List P} {i j : ℕ} {peer other : P} {s s' : Locals P}
  {connected : Bool}

/-- A turn takes a number which is too large, or joins two peers. -/
theorem turn_cases (g : Graph F) (half : F) (float64 : ℕ → F) (i : ℕ) (peer : P) (s : Locals P)
    (connected : Bool) (other : P) (j : ℕ) :
    g.p ≤ float64 s.drawn ∧ turn g half float64 i peer (s, connected) (other, j) =
        ({ s with drawn := s.drawn + 1 }, connected) ∨
      float64 s.drawn < g.p ∧ (turn g half float64 i peer (s, connected) (other, j) =
          (Locals.connect { s with drawn := s.drawn + 2 } i j peer other, true) ∨
        turn g half float64 i peer (s, connected) (other, j) =
          (Locals.connect { s with drawn := s.drawn + 2 } j i other peer, true)) := by
  unfold turn
  by_cases hp : g.p ≤ float64 s.drawn
  · exact .inl ⟨hp, if_pos hp⟩
  · refine .inr ⟨lt_of_not_ge hp, ?_⟩
    simp only [if_neg hp]
    split
    · exact .inr rfl
    · exact .inl rfl

/-- The pairs between which there may be an edge, when the turns for `visited` are over. -/
def Settled (before : List P) (peer : P) (visited : List P) (a b : P) : Prop :=
  a ∈ before ∧ b ∈ before ∨ a = peer ∧ b ∈ visited

/-- What holds in a pass. -/
structure Passing (peers before : List P) (peer : P) (visited : List P)
    (st : Locals P × Bool) : Prop where
  printed : st.1.Printed peers
  simple : st.1.Simple (Settled before peer visited)
  reachable : ∀ a ∈ before, ∀ b ∈ before, st.1.graph.Reachable a b
  connected : st.2 = true → ∃ v ∈ before, st.1.graph.Adj peer v

theorem Passing.turn (h : Passing peers before peer visited (s, connected))
    (hi : peers[i]? = some peer) (hj : peers[j]? = some other) (hpeer : peer ∉ before)
    (hother : other ∈ before) (hnew : other ∉ visited) :
    Passing peers before peer (visited ++ [other])
      (turn g half float64 i peer (s, connected) (other, j)) := by
  have hne : peer ≠ other := fun heq => hpeer (heq ▸ hother)
  have hle : ∀ a b, Settled before peer visited a b →
      Settled before peer (visited ++ [other]) a b :=
    fun a b hab => hab.imp id fun ⟨ha, hb⟩ => ⟨ha, List.mem_append_left _ hb⟩
  have hsettled : Settled before peer (visited ++ [other]) peer other :=
    .inr ⟨rfl, List.mem_append_right _ List.mem_cons_self⟩
  have hpo : ¬Settled before peer visited peer other := by
    rintro (⟨hmem, -⟩ | ⟨-, hmem⟩)
    · exact hpeer hmem
    · exact hnew hmem
  have hop : ¬Settled before peer visited other peer := by
    rintro (⟨-, hmem⟩ | ⟨heq, -⟩)
    · exact hpeer hmem
    · exact hne heq.symm
  have hdrawn : ∀ n, Passing peers before peer visited ({ s with drawn := n }, connected) :=
    fun n => ⟨h.printed, ⟨h.simple.nodup, h.simple.asymm, h.simple.mem⟩, h.reachable, h.connected⟩
  rcases turn_cases g half float64 i peer s connected other j with
    ⟨-, heq⟩ | ⟨-, heq | heq⟩
  · rw [heq]
    have h' := hdrawn (s.drawn + 1)
    exact ⟨h'.printed, h'.simple.mono hle, h'.reachable, h'.connected⟩
  · rw [heq]
    have h' := hdrawn (s.drawn + 2)
    refine ⟨h'.printed.connect hi hj, h'.simple.connect hne hpo hop hle (.inl hsettled), ?_, ?_⟩
    · intro a ha b hb
      exact (h'.reachable a ha b hb).mono (Locals.graph_le_connect ..)
    · exact fun _ => ⟨other, hother, Locals.graph_connect_adj _ _ _ hne⟩
  · rw [heq]
    have h' := hdrawn (s.drawn + 2)
    refine ⟨h'.printed.connect hj hi, h'.simple.connect hne.symm hop hpo hle (.inr hsettled),
      ?_, ?_⟩
    · intro a ha b hb
      exact (h'.reachable a ha b hb).mono (Locals.graph_le_connect ..)
    · exact fun _ => ⟨other, hother, (Locals.graph_connect_adj _ _ _ hne.symm).symm⟩

/-- A pass in which nobody is joined only takes numbers, all of them too large. -/
theorem foldl_turn_eq_false {l : List (P × ℕ)}
    (h : l.foldl (turn g half float64 i peer) (s, connected) = (s', false)) :
    connected = false ∧ s' = { s with drawn := s.drawn + l.length } ∧
      ∀ k < l.length, g.p ≤ float64 (s.drawn + k) := by
  induction l generalizing s connected with
  | nil =>
      obtain ⟨rfl, rfl⟩ := Prod.mk.inj h
      exact ⟨rfl, rfl, fun k hk => absurd hk (Nat.not_lt_zero k)⟩
  | cons x l ih =>
      obtain ⟨other, j⟩ := x
      rw [List.foldl_cons] at h
      rcases turn_cases g half float64 i peer s connected other j with
        ⟨hp, heq⟩ | ⟨-, heq | heq⟩
      · rw [heq] at h
        obtain ⟨hfalse, rfl, hlarge⟩ := ih h
        refine ⟨hfalse, ?_, ?_⟩
        · rw [List.length_cons, Nat.add_comm l.length, ← Nat.add_assoc]
        · intro k hk
          cases k with
          | zero => exact hp
          | succ k =>
              have hk' := hlarge k (Nat.lt_of_succ_lt_succ hk)
              rwa [Nat.add_right_comm, Nat.add_assoc] at hk'
      · rw [heq] at h
        cases (ih h).1
      · rw [heq] at h
        cases (ih h).1

/-! ## All peers -/

/-- The peers in `before` are joined. -/
structure Joined (peers before : List P) (s : Locals P) : Prop where
  printed : s.Printed peers
  simple : s.Simple fun a b => a ∈ before ∧ b ∈ before
  reachable : ∀ a ∈ before, ∀ b ∈ before, s.graph.Reachable a b

theorem Joined.passing_foldl {rest l : List P} {st : Locals P × Bool}
    (hpeers : peers = before ++ peer :: rest) (hnodup : peers.Nodup)
    (hbefore : before = visited ++ l) (h : Passing peers before peer visited st) :
    Passing peers before peer before
      ((l.zipIdx visited.length).foldl (Topology.turn g half float64 before.length peer) st) := by
  induction l generalizing visited st with
  | nil =>
      rw [List.append_nil] at hbefore
      rw [hbefore] at h ⊢
      exact h
  | cons other l ih =>
      rw [hpeers] at hnodup
      have hpeer : peer ∉ before := fun hmem =>
        (List.nodup_append.mp hnodup).2.2 peer hmem peer List.mem_cons_self rfl
      have hnew : other ∉ visited := fun hmem => by
        have hvisited := (List.nodup_append.mp hnodup).1
        rw [hbefore] at hvisited
        exact (List.nodup_append.mp hvisited).2.2 other hmem other List.mem_cons_self rfl
      have hi : peers[before.length]? = some peer := by simp [hpeers]
      have hj : peers[visited.length]? = some other := by simp [hpeers, hbefore]
      have hother : other ∈ before := hbefore ▸ List.mem_append_right _ List.mem_cons_self
      rw [List.zipIdx_cons, List.foldl_cons]
      have hlength : (visited ++ [other]).length = visited.length + 1 := List.length_append
      rw [← hlength]
      apply ih
      · rw [hbefore, List.append_assoc, List.singleton_append]
      · exact h.turn hi hj hpeer hother hnew

theorem Joined.pass (h : Joined peers before s) (g : Graph F) (half : F) (float64 : ℕ → F)
    {rest : List P} (hpeers : peers = before ++ peer :: rest) (hnodup : peers.Nodup) :
    Passing peers before peer before (pass g half float64 before peer s) := by
  apply Joined.passing_foldl hpeers hnodup (List.nil_append before).symm
  refine ⟨h.printed, h.simple.mono fun _ _ => .inl, h.reachable, ?_⟩
  rintro ⟨⟩

/-- A pass in which the peer is joined. -/
theorem Passing.joined (h : Passing peers before peer before (s, true)) :
    Joined peers (before ++ [peer]) s := by
  obtain ⟨v, hv, hadj⟩ := h.connected rfl
  refine ⟨h.printed, h.simple.mono ?_, ?_⟩
  · rintro a b (⟨ha, hb⟩ | ⟨rfl, hb⟩)
    · exact ⟨List.mem_append_left _ ha, List.mem_append_left _ hb⟩
    · exact ⟨List.mem_append_right _ List.mem_cons_self, List.mem_append_left _ hb⟩
  · have hall : ∀ a ∈ before ++ [peer], s.graph.Reachable v a := by
      intro a ha
      rcases List.mem_append.mp ha with ha | ha
      · exact h.reachable v hv a ha
      · rw [List.mem_singleton.mp ha]
        exact hadj.symm.reachable
    exact fun a ha b hb => (hall a ha).symm.trans (hall b hb)

theorem Joined.connectPeer (h : Joined peers before s) {rest : List P} {fuel : ℕ}
    (hpeers : peers = before ++ peer :: rest) (hnodup : peers.Nodup)
    (hs : connectPeer g half float64 before peer fuel s = some s') :
    Joined peers (before ++ [peer]) s' := by
  induction fuel generalizing s with
  | zero => cases hs
  | succ fuel ih =>
      have hpass := h.pass g half float64 hpeers hnodup
      rw [Topology.connectPeer] at hs
      split at hs
      · next s₁ heq =>
          rw [heq] at hpass
          obtain rfl := Option.some.inj hs
          exact hpass.joined
      · next s₁ heq =>
          obtain ⟨-, rfl, -⟩ := foldl_turn_eq_false heq
          have h₁ : Joined peers before { s with drawn := s.drawn + before.zipIdx.length } :=
            ⟨h.printed, ⟨h.simple.nodup, h.simple.asymm, h.simple.mem⟩, h.reachable⟩
          exact ih h₁ hs

theorem Joined.connectPeers {rest : List P} {fuel : ℕ} (h : Joined peers before s)
    (hpeers : peers = before ++ rest) (hnodup : peers.Nodup)
    (hs : connectPeers g half float64 fuel before rest s = some s') : Joined peers peers s' := by
  induction rest generalizing before s with
  | nil =>
      obtain rfl := Option.some.inj hs
      rw [List.append_nil] at hpeers
      exact hpeers ▸ h
  | cons peer rest ih =>
      obtain ⟨s₁, hs₁, hs⟩ := Option.bind_eq_some_iff.mp hs
      apply ih (h.connectPeer hpeers hnodup hs₁) _ hs
      rw [hpeers, List.append_assoc, List.singleton_append]

theorem Joined.initial (peers : List P) : Joined peers (peers.take 1) ⟨0, [], ∅⟩ where
  printed _ := rfl
  simple := ⟨fun _ => List.nodup_nil, fun _ _ hb => absurd hb List.not_mem_nil,
    fun _ _ hb => absurd hb List.not_mem_nil⟩
  reachable a ha b hb := by
    cases peers with
    | nil => cases ha
    | cons peer peers =>
        rw [List.mem_singleton.mp ha, List.mem_singleton.mp hb]

theorem joined_of_generate {fuel : ℕ} (hnodup : peers.Nodup)
    (hs : generate g half float64 fuel peers = some s) : Joined peers peers s :=
  (Joined.initial peers).connectPeers (List.take_append_drop 1 peers).symm hnodup hs

/-! ## The loops end -/

theorem connectPeer_mono {fuel fuel' : ℕ} (hle : fuel ≤ fuel')
    (hs : connectPeer g half float64 before peer fuel s = some s') :
    connectPeer g half float64 before peer fuel' s = some s' := by
  induction fuel generalizing fuel' s with
  | zero => cases hs
  | succ fuel ih =>
      obtain ⟨fuel', rfl⟩ := Nat.exists_eq_add_of_le' (Nat.lt_of_lt_of_le (Nat.succ_pos _) hle)
      rw [connectPeer] at hs ⊢
      split at hs
      · exact hs
      · exact ih (Nat.le_of_succ_le_succ hle) hs

theorem connectPeers_mono {fuel fuel' : ℕ} (hle : fuel ≤ fuel') {rest : List P}
    (hs : connectPeers g half float64 fuel before rest s = some s') :
    connectPeers g half float64 fuel' before rest s = some s' := by
  induction rest generalizing before s with
  | nil => exact hs
  | cons peer rest ih =>
      obtain ⟨s₁, hs₁, hs⟩ := Option.bind_eq_some_iff.mp hs
      exact Option.bind_eq_some_iff.mpr ⟨s₁, connectPeer_mono hle hs₁, ih hs⟩

/-- The next small number joins the peer, at the latest. -/
theorem exists_connectPeer (half : F) (hbefore : before ≠ []) (peer : P) {m : ℕ}
    (hm : float64 m < g.p) (s : Locals P) (hle : s.drawn ≤ m) :
    ∃ fuel s', connectPeer g half float64 before peer fuel s = some s' := by
  induction hn : m - s.drawn using Nat.strong_induction_on generalizing s with
  | _ n ih =>
      cases hpass : pass g half float64 before peer s with
      | mk s₁ connected =>
          cases connected with
          | true =>
              refine ⟨1, s₁, ?_⟩
              rw [connectPeer, hpass]
          | false =>
              obtain ⟨-, rfl, hlarge⟩ := foldl_turn_eq_false hpass
              rw [List.length_zipIdx] at hpass hlarge
              have hpos := List.length_pos_iff.mpr hbefore
              -- the small number has not been taken
              have hnot : ¬m - s.drawn < before.length := by
                intro hlt
                have hp := hlarge _ hlt
                rw [Nat.add_sub_cancel' hle] at hp
                exact absurd hm (not_lt_of_ge hp)
              obtain ⟨fuel, s', hs'⟩ := ih (m - (s.drawn + before.length)) (by omega)
                { s with drawn := s.drawn + before.length } (by simp only; omega) rfl
              refine ⟨fuel + 1, s', ?_⟩
              rw [connectPeer, hpass]
              exact hs'

theorem exists_connectPeers (half : F) (hsmall : ∀ n, ∃ m, n ≤ m ∧ float64 m < g.p)
    (hbefore : before ≠ [])
    (rest : List P) (s : Locals P) :
    ∃ fuel s', connectPeers g half float64 fuel before rest s = some s' := by
  induction rest generalizing before s with
  | nil => exact ⟨0, s, rfl⟩
  | cons peer rest ih =>
      obtain ⟨m, hle, hm⟩ := hsmall s.drawn
      obtain ⟨fuel₁, s₁, hs₁⟩ := exists_connectPeer half hbefore peer hm s hle
      obtain ⟨fuel₂, s₂, hs₂⟩ := ih (List.append_ne_nil_of_left_ne_nil hbefore [peer]) s₁
      refine ⟨max fuel₁ fuel₂, s₂, Option.bind_eq_some_iff.mpr ⟨s₁, ?_, ?_⟩⟩
      · exact connectPeer_mono (Nat.le_max_left _ _) hs₁
      · exact connectPeers_mono (Nat.le_max_right _ _) hs₂

/-- Without small numbers a peer is never joined. -/
theorem connectPeer_eq_none (hlarge : ∀ n, g.p ≤ float64 n) (before : List P) (peer : P)
    (fuel : ℕ) (s : Locals P) : connectPeer g half float64 before peer fuel s = none := by
  induction fuel generalizing s with
  | zero => rfl
  | succ fuel ih =>
      have hfalse : ∀ (l : List (P × ℕ)) s, (l.foldl (turn g half float64 before.length peer)
          (s, false)).2 = false := by
        intro l
        induction l with
        | nil => exact fun _ => rfl
        | cons x l ihl =>
            intro s
            rw [List.foldl_cons, show turn g half float64 before.length peer (s, false) x =
              ({ s with drawn := s.drawn + 1 }, false) from if_pos (hlarge _)]
            exact ihl _
      rw [connectPeer]
      split
      · next heq =>
          have htrue := hfalse before.zipIdx s
          rw [show before.zipIdx.foldl _ _ = _ from heq] at htrue
          cases htrue
      · exact ih _

end

/-- Whatever the random numbers are, the topology which `Generate` has chosen connects all
peers.  No peer is its own neighbour, no two peers are neighbours twice or in both directions,
and the edges in the output are those between neighbours, in the same order. -/
theorem generate_connects [LinearOrder F] [DecidableEq P] {g : Graph F} {half : F}
    {float64 : ℕ → F} {fuel : ℕ} {peers : List P} {s : Locals P} (hnodup : peers.Nodup)
    (h : generate g half float64 fuel peers = some s) :
    (∀ a ∈ peers, ∀ b ∈ peers, s.graph.Reachable a b) ∧
      (∀ a, (s.neighboors a).Nodup) ∧
      (∀ a b, b ∈ s.neighboors a → a ≠ b ∧ a ∈ peers ∧ b ∈ peers ∧ a ∉ s.neighboors b) ∧
      ∀ a, s.neighboors a = s.out.filterMap fun e =>
        if peers[e.1 - 1]? = some a then peers[e.2 - 1]? else none := by
  have hjoined := joined_of_generate hnodup h
  refine ⟨hjoined.reachable, hjoined.simple.nodup, ?_, hjoined.printed⟩
  intro a b hb
  have hasymm := hjoined.simple.asymm a b hb
  have hne : a ≠ b := by
    rintro rfl
    exact hasymm hb
  rcases hjoined.simple.mem a b hb with ⟨ha, hb⟩ | ⟨hb, ha⟩
  · exact ⟨hne, ha, hb, hasymm⟩
  · exact ⟨hne, ha, hb, hasymm⟩

/-- The second peer is joined to the first one in the second pass, and the third one to the
second in one pass. -/
theorem generate_connects_of_three : ∃ s, generate (P := ℕ) ⟨3⟩ 5
      (fun n => [7, 1, 9, 4, 2, 0].getD n 0) 2 [10, 20, 30] = some s ∧
    s.out = [(1, 2), (3, 2)] ∧ s.graph.Reachable 10 30 ∧ s.neighboors 30 = [20] := by
  obtain ⟨s, hs, hout⟩ : ∃ s, generate (P := ℕ) ⟨3⟩ 5
      (fun n => [7, 1, 9, 4, 2, 0].getD n 0) 2 [10, 20, 30] = some s ∧
        s.out = [(1, 2), (3, 2)] := ⟨_, rfl, rfl⟩
  obtain ⟨hreachable, -, -, hprinted⟩ := generate_connects (by decide) hs
  refine ⟨s, hs, hout, hreachable 10 (by decide) 30 (by decide), ?_⟩
  rw [hprinted, hout]
  rfl

/-- `Generate` returns if there is always another random number below the probability, and with
two peers or more it does not return if there is none. -/
theorem generate_returns [LinearOrder F] [DecidableEq P] (g : Graph F) (half : F)
    (float64 : ℕ → F) (peers : List P) :
    ((∀ n, ∃ m, n ≤ m ∧ float64 m < g.p) →
        ∃ fuel, (generate g half float64 fuel peers).isSome) ∧
      (1 < peers.length → (∀ n, g.p ≤ float64 n) →
        ∀ fuel, generate g half float64 fuel peers = none) := by
  constructor
  · intro hsmall
    cases peers with
    | nil => exact ⟨0, rfl⟩
    | cons peer rest =>
        obtain ⟨fuel, s, hs⟩ := exists_connectPeers half hsmall
          (List.cons_ne_nil peer []) rest ⟨0, [], ∅⟩
        exact ⟨fuel, Option.isSome_iff_exists.mpr ⟨s, hs⟩⟩
  · intro hlength hlarge fuel
    obtain ⟨peer, peer', rest, rfl⟩ : ∃ peer peer' rest, peers = peer :: peer' :: rest := by
      match peers, hlength with
      | peer :: peer' :: rest, _ => exact ⟨peer, peer', rest, rfl⟩
    change (connectPeer g half float64 [peer] peer' fuel _).bind _ = none
    rw [connectPeer_eq_none hlarge]
    rfl

theorem generate_returns_of_two :
    (∃ fuel, (generate (P := ℕ) ⟨1⟩ 5 (fun _ => 0) fuel [10, 20]).isSome) ∧
      ∀ fuel, generate (P := ℕ) ⟨0⟩ 5 (fun _ => 0) fuel [10, 20] = none :=
  ⟨(generate_returns ⟨1⟩ 5 (fun _ => 0) [10, 20]).1 fun n => ⟨n, le_rfl, Nat.zero_lt_one⟩,
    (generate_returns ⟨0⟩ 5 (fun _ => 0) [10, 20]).2 (by decide) fun _ => le_rfl⟩

end Minotor.Topology
