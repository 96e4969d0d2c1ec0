import Minotor.Gossip.Routes

/-!
# Addresses of packets

A node sends packets to its neighbours and to the sources of the packets it
works on.  If it is not among its own neighbours, and handles no message as
its own sender, then it never sends to itself.
-/

namespace Minotor.Gossip

variable {P M : Type*}

/-- A packet which `p` created or relays does not go to `p`. -/
def Header.Avoids (p : P) (header : Header P) : Prop :=
  header.source = p ∨ header.relayedBy = p → header.destination ≠ p

variable [DecidableEq P]

namespace Node

/-- The node `q` sends only own packets again, the rumors on which it works
are not from itself, and `p` is not its own neighbour. -/
structure Avoids (p q : P) (n : Node P M) : Prop where
  neighbours : q = p → p ∉ n.routingTable.neighbours
  waits : ∀ w ∈ n.waits, w.pkt.header.source = q ∧ w.pkt.header.relayedBy = q ∧
    (q = p → p ∉ w.neighbours)
  source : ∀ l, n.listener = some l → l.header.source ≠ q
  origin : ∀ l m rest, n.listener = some l → l.pc = .handling m rest → m.origin ≠ q

variable {p q : P} {n n' : Node P M} {id : ℕ} {c : Choices P} {shuffle : List P}
  {sent : List (Packet P M)}

omit [DecidableEq P] in
theorem Avoids.not_mem_shuffle (h : n.Avoids p q) (hshuffle : n.Shuffles shuffle)
    (hq : q = p) : p ∉ shuffle :=
  fun hmem => h.neighbours hq (hshuffle.mem_iff.mp hmem)

omit [DecidableEq P] in
/-- What `q` sends itself avoids `p` unless `q` is `p` and sends it to `p`. -/
theorem avoids_of_own {header : Header P} (hsource : header.source = q)
    (hrelay : header.relayedBy = q) (hdest : q = p → header.destination ≠ p) :
    header.Avoids p := by
  rintro (hp | hp)
  · exact hdest (hsource.symm.trans hp)
  · exact hdest (hrelay.symm.trans hp)

theorem Avoids.addPeer (h : n.Avoids p q) {addr : List P} (haddr : q = p → p ∉ addr) :
    Avoids p q { n with routingTable := n.routingTable.addEntries addr } where
  neighbours hq hmem := by
    rw [NodeRT.neighbours_addEntries, List.mem_append] at hmem
    rcases hmem with hmem | hmem
    · exact h.neighbours hq hmem
    · exact haddr hq hmem
  waits := h.waits
  source := h.source
  origin := h.origin

theorem Avoids.broadcast (h : n.Avoids p q) (id : ℕ) (hshuffle : n.Shuffles shuffle)
    (msg : M) :
    (n.broadcast q id msg shuffle).1.Avoids p q ∧
      ∀ pkt ∈ (n.broadcast q id msg shuffle).2, pkt.header.Avoids p := by
  unfold Node.broadcast
  simp only
  split
  · refine ⟨⟨h.neighbours, h.waits, h.source, h.origin⟩, ?_⟩
    exact fun pkt hpkt => absurd hpkt List.not_mem_nil
  · next dest hdest =>
    have hmem : dest ∈ shuffle := (searchNeighbour_eq_some hdest).1
    refine ⟨⟨h.neighbours, ?_, h.source, h.origin⟩, ?_⟩
    · intro w hw
      rcases List.mem_append.mp hw with hw | hw
      · exact h.waits w hw
      · obtain rfl := List.mem_singleton.mp hw
        exact ⟨rfl, rfl, h.not_mem_shuffle hshuffle⟩
    · intro pkt hpkt
      obtain rfl := List.mem_singleton.mp hpkt
      apply avoids_of_own (q := q) rfl rfl
      rintro hq rfl
      exact h.not_mem_shuffle hshuffle hq hmem

omit [DecidableEq P] in
theorem Avoids.createChannel (h : n.Avoids p q) {i : ℕ}
    (hn : n.createChannel i = some n') : n'.Avoids p q := by
  obtain ⟨w, hw, rfl⟩ := createChannel_eq hn
  refine ⟨h.neighbours, ?_, h.source, h.origin⟩
  intro v hv
  rcases List.mem_or_eq_of_mem_set hv with hv | rfl
  · exact h.waits v hv
  · exact h.waits w (List.mem_of_getElem? hw)

theorem Avoids.waitAck (h : n.Avoids p q) {i : ℕ} (hn : n.waitAck i = some (n', sent)) :
    n'.Avoids p q ∧ ∀ pkt ∈ sent, pkt.header.Avoids p := by
  obtain ⟨w, hw, ⟨rfl, rfl⟩ | ⟨dest, pkt, _, hdest, rfl, rfl, rfl⟩⟩ := waitAck_cases hn
  · refine ⟨⟨h.neighbours, ?_, h.source, h.origin⟩, ?_⟩
    · exact fun v hv => h.waits v (List.mem_of_mem_eraseIdx hv)
    · exact fun pkt hpkt => absurd hpkt List.not_mem_nil
  · obtain ⟨hsource, hrelay, hneighbours⟩ := h.waits w (List.mem_of_getElem? hw)
    refine ⟨⟨h.neighbours, ?_, h.source, h.origin⟩, ?_⟩
    · intro v hv
      rcases List.mem_or_eq_of_mem_set hv with hv | rfl
      · exact h.waits v hv
      · exact ⟨hsource, hrelay, hneighbours⟩
    · intro pkt hpkt
      obtain rfl := List.mem_singleton.mp hpkt
      refine avoids_of_own (q := q) hsource hrelay ?_
      rintro hq rfl
      exact hneighbours hq (searchNeighbour_eq_some hdest).1

/-- The listening routine works on rumors of others and accepts none of its
own. -/
theorem Avoids.processRumors (h : n.Avoids p q) {header : Header P}
    {rumors rest : List (Rumor P M)} {processedRumor : Bool} (hsource : header.source ≠ q)
    (hown : ∀ m ∈ rest, n.rumorsHandler.IsNext m → m.origin ≠ q) :
    (n.processRumors header rumors processedRumor rest).Avoids p q := by
  unfold Node.processRumors
  rcases n.rumorsHandler.processRumors_cases processedRumor rest with
    ⟨skipped, m, rest', rfl, _, hnext, heq⟩ | ⟨_, heq⟩
  · have hm : m.origin ≠ q := hown m (List.mem_append_right _ List.mem_cons_self) hnext
    rw [heq]
    refine ⟨?_, h.waits, ?_, ?_⟩
    · intro hq hmem
      rcases NodeRT.mem_neighbours_updateRT _ hmem with hmem | ⟨_, horigin, _⟩
      · exact h.neighbours hq hmem
      · exact hm (horigin.symm.trans hq.symm)
    · rintro l ⟨⟩
      exact hsource
    · rintro l m' rest'' ⟨⟩ ⟨⟩
      exact hm
  · rw [heq]
    refine ⟨h.neighbours, h.waits, ?_, ?_⟩
    · rintro l ⟨⟩
      exact hsource
    · rintro l m' rest'' ⟨⟩ ⟨⟩

theorem Avoids.handlerReturns (h : n.Avoids p q) {err : Bool}
    (hn : n.handlerReturns err = some n')
    (hown : ∀ l m rest, n.listener = some l → l.pc = .handling m rest →
      ∀ m' ∈ rest, n.rumorsHandler.IsNext m' → m'.origin ≠ q) : n'.Avoids p q := by
  obtain ⟨header, rumors, m, rest, hlistener, ⟨-, rfl⟩ | ⟨-, rfl⟩⟩ := handlerReturns_cases hn
  · exact ⟨h.neighbours, h.waits, by rintro l ⟨⟩, by rintro l m' rest' ⟨⟩⟩
  · exact h.processRumors (h.source _ hlistener) (hown _ _ _ hlistener rfl)

theorem Avoids.finish (h : n.Avoids p q) (hshuffle : n.Shuffles shuffle)
    (hn : n.finish q id shuffle = some (n', sent)) :
    n'.Avoids p q ∧ ∀ pkt ∈ sent, pkt.header.Avoids p := by
  obtain ⟨header, rumors, discovered, hlistener, rfl, -, hsent⟩ := finish_cases hn
  have hsource : header.source ≠ q := h.source _ hlistener
  refine ⟨⟨h.neighbours, h.waits, by rintro l ⟨⟩, by rintro l m' rest' ⟨⟩⟩, ?_⟩
  intro pkt hpkt
  rcases hsent pkt hpkt with rfl | ⟨dest, -, hdest, rfl⟩
  · -- the acknowledgement goes to the source
    apply avoids_of_own (q := q) rfl rfl
    rintro rfl
    exact hsource
  · obtain ⟨hmem, hnot⟩ := searchNeighbour_eq_some hdest
    -- a relayed packet keeps its source, to which it is not sent
    rintro (hp | hp) heq
    · have hsame : dest = header.source := heq.trans hp.symm
      exact hnot (hsame ▸ List.mem_cons_self)
    · have hsame : dest = p := heq
      exact h.not_mem_shuffle hshuffle hp (hsame ▸ hmem)

theorem Avoids.execStatusMessage (h : n.Avoids p q) (hshuffle : n.Shuffles c.shuffle)
    {source : P} {status : SequenceMap P} (hsource : q = p → source ≠ p)
    (hn : n.execStatusMessage q id source status c = some sent) :
    ∀ pkt ∈ sent, pkt.header.Avoids p := by
  obtain ⟨missing, _, hsent⟩ := mem_execStatusMessage hn
  intro pkt hpkt
  rcases hsent pkt hpkt with rfl | ⟨-, rfl⟩ | ⟨dest, hdest, rfl⟩
  · exact avoids_of_own (q := q) rfl rfl hsource
  · exact avoids_of_own (q := q) rfl rfl hsource
  · apply avoids_of_own (q := q) rfl rfl
    rintro hq rfl
    exact h.not_mem_shuffle hshuffle hq (searchNeighbour_eq_some hdest).1

theorem Avoids.handleStatus (h : n.Avoids p q) (hshuffle : n.Shuffles c.shuffle)
    {source : P} {status : SequenceMap P} (hsource : q = p → source ≠ p) :
    (n.handleStatus q id source status c).1.Avoids p q ∧
      ∀ pkt ∈ (n.handleStatus q id source status c).2, pkt.header.Avoids p := by
  unfold Node.handleStatus
  split
  · refine ⟨⟨h.neighbours, h.waits, h.source, h.origin⟩, ?_⟩
    exact fun pkt hpkt => absurd hpkt List.not_mem_nil
  · next packets hpackets =>
    exact ⟨h, h.execStatusMessage hshuffle hsource hpackets⟩

theorem Avoids.receive (h : n.Avoids p q) (id : ℕ) (hshuffle : n.Shuffles c.shuffle)
    {pkt : Packet P M} (hdest : pkt.header.destination = q) (hpkt : pkt.header.Avoids p)
    (hown : ∀ rumors, pkt.msg = .rumors rumors →
      ∀ m ∈ rumors, n.rumorsHandler.IsNext m → m.origin ≠ q) :
    (n.receive q id pkt c).1.Avoids p q ∧
      ∀ pkt' ∈ (n.receive q id pkt c).2, pkt'.header.Avoids p := by
  have hsource : q = p → pkt.header.source ≠ p :=
    fun hq hp => hpkt (.inl hp) (hdest.trans hq)
  unfold Node.receive
  split
  · next rumors hmsg =>
    split
    · exact ⟨h, fun pkt' hpkt' => absurd hpkt' List.not_mem_nil⟩
    · next hne =>
      refine ⟨h.processRumors ?_ (hown rumors hmsg), ?_⟩
      · rw [← hdest]
        exact hne
      · exact fun pkt' hpkt' => absurd hpkt' List.not_mem_nil
  · exact h.handleStatus hshuffle hsource
  · have hsame : Avoids p q
        { n with acksHandler := n.acksHandler.erase pkt.header.packetID } :=
      ⟨h.neighbours, h.waits, h.source, h.origin⟩
    exact hsame.handleStatus hshuffle hsource

end Node

/-! ## Steps of a network -/

namespace Network

variable {st st' : Network P M} {p : P} {a : Action P M}

/-- No packet which `p` created or relays goes to `p`. -/
structure Avoids (p : P) (st : Network P M) : Prop where
  nodes : ∀ q, (st.nodes q).Avoids p q
  packets : ∀ pkt ∈ st.packets, pkt.header.Avoids p

/-- `AddPeer` of `p` does not get `p`, and the rumors of `p` have no embedded
status message. -/
def Apart (p : P) : Action P M → Prop
  | .addPeer q addr => q = p → p ∉ addr
  | .execStatus q source _ _ => q = p → source ≠ p
  | _ => True

theorem avoids_initial (p : P) : (initial : Network P M).Avoids p where
  nodes q :=
    { neighbours := fun _ => List.not_mem_nil
      waits := fun _ hw => absurd hw List.not_mem_nil
      source := by rintro l ⟨⟩
      origin := by rintro l m rest ⟨⟩ }
  packets _ hpkt := absurd hpkt List.not_mem_nil

theorem Avoids.put (h : st.Avoids p) {q : P} {n : Node P M} {sent : List (Packet P M)}
    (hn : n.Avoids p q) (hsent : ∀ pkt ∈ sent, pkt.header.Avoids p) :
    (st.put q n sent).Avoids p where
  nodes r := by
    change (Function.update st.nodes q n r).Avoids p r
    by_cases hr : r = q
    · rw [hr, Function.update_self]
      exact hn
    · rw [Function.update_of_ne hr]
      exact h.nodes r
  packets pkt hpkt := (List.mem_append.mp hpkt).elim (h.packets pkt) (hsent pkt)

/-- The rumors in a packet which are next at `q` are not its own. -/
theorem origin_ne_of_packet (hsound : st.Sound) (hlearned : st.Learned)
    {pkt : Packet P M} (hpkt : pkt ∈ st.packets) (q : P) (rumors : List (Rumor P M))
    (hmsg : pkt.msg = .rumors rumors) :
    ∀ m ∈ rumors, (st.nodes q).rumorsHandler.IsNext m → m.origin ≠ q :=
  fun m hm => hlearned.origin_ne ((hsound.packets pkt hpkt rumors hmsg).known m hm).2

/-- Nor are those which its listening routine has before it. -/
theorem origin_ne_of_listener (hsound : st.Sound) (hlearned : st.Learned) (q : P) :
    ∀ l m rest, (st.nodes q).listener = some l → l.pc = .handling m rest →
      ∀ m' ∈ rest, (st.nodes q).rumorsHandler.IsNext m' → m'.origin ≠ q := by
  intro l m rest hl hpc m' hm'
  obtain ⟨hcarried, hprogress⟩ := (hsound.nodes q).listener l hl
  rw [ExecRumors.Progress, hpc] at hprogress
  obtain ⟨_, pre, hsplit⟩ := hprogress
  have hmem : m' ∈ l.rumors := by
    rw [hsplit]
    exact List.mem_append_right _ (List.mem_cons_of_mem _ hm')
  exact hlearned.origin_ne (hcarried.known m' hmem).2

theorem Avoids.step (h : st.Avoids p) (hsound : st.Sound) (hlearned : st.Learned)
    (ha : Apart p a) (hnext : st.next a = some st') : st'.Avoids p := by
  have hnil : ∀ pkt ∈ ([] : List (Packet P M)), pkt.header.Avoids p :=
    fun pkt hpkt => absurd hpkt List.not_mem_nil
  cases step_of_next hnext with
  | addPeer q addr => exact h.put ((h.nodes q).addPeer ha) hnil
  | broadcast q msg shuffle hshuffle =>
      obtain ⟨hn, hsent⟩ := (h.nodes q).broadcast st.nextID hshuffle msg
      exact h.put hn hsent
  | createChannel q i n hn => exact h.put ((h.nodes q).createChannel hn) hnil
  | waitAck q i n sent hn =>
      obtain ⟨hn, hsent⟩ := (h.nodes q).waitAck hn
      exact h.put hn hsent
  | deliver i c pkt hpkt _ _ hallows =>
      have hmem : pkt ∈ st.packets := List.mem_of_getElem? hpkt
      obtain ⟨hn, hsent⟩ := (h.nodes pkt.header.destination).receive st.nextID
        hallows.2 rfl (h.packets pkt hmem) (origin_ne_of_packet hsound hlearned hmem _)
      have herased : Avoids p { st with packets := st.packets.eraseIdx i } :=
        ⟨h.nodes, fun pkt hpkt => h.packets pkt (List.mem_of_mem_eraseIdx hpkt)⟩
      exact herased.put hn hsent
  | handlerReturns q err n hn =>
      have hown := origin_ne_of_listener hsound hlearned q
      exact h.put ((h.nodes q).handlerReturns hn hown) hnil
  | finish q shuffle n sent hshuffle hn =>
      obtain ⟨hn, hsent⟩ := (h.nodes q).finish hshuffle hn
      exact h.put hn hsent
  | execStatus q source status c sent hallows hsent =>
      exact h.put (h.nodes q) ((h.nodes q).execStatusMessage hallows.2 ha hsent)
  | drop i =>
      exact ⟨h.nodes, fun pkt hpkt => h.packets pkt (List.mem_of_mem_eraseIdx hpkt)⟩
  | stop q =>
      have hn := h.nodes q
      exact h.put ⟨hn.neighbours, hn.waits, hn.source, hn.origin⟩ hnil
  | closeAcks q =>
      have hn := h.nodes q
      exact h.put ⟨hn.neighbours, hn.waits, hn.source, hn.origin⟩ hnil

end Network
end Minotor.Gossip
