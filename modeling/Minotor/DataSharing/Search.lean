import Minotor.DataSharing.Distribution
import Minotor.DataSharing.Steps

/-!
# Search requests

What a step does to the search requests of a node.  A routine sends the first
of its requests, gives all of them up, or starts with the requests of
`sendSearchReq`; the listening routine turns a request into requests with one
less of budget.
-/

namespace Minotor.DataSharing

variable {P : Type*}

/-- The requests which a call of `SearchAll` or `SearchFirst` has still to
send. -/
def SearchPC.pending {α : Type*} : SearchPC P α → List (SearchReq P)
  | .sending rest => rest
  | .returned _ => []

/-- The message is a reply. -/
def Message.IsReply : Message P → Prop
  | .dataReply _ _ _ => True
  | .searchReply _ _ => True
  | _ => False

/-- A routine sends the first of its requests, or gives them up. -/
def Sends (myAddr : P) (reqs reqs' : List (SearchReq P)) (sent : List (Packet P)) : Prop :=
  (∃ r, reqs = r :: reqs' ∧ sent = [r.packet myAddr]) ∨ reqs' = [] ∧ sent = []

namespace Node

/-- What a call does to the searches of a node. -/
inductive Searches (myAddr : P) (id : ℕ) (n : Node P) (sent : List (Packet P)) :
    Node P → Prop where
  | idle {n' : Node P} (hforwards : n'.forwards = n.forwards)
      (halls : n'.searchAlls = n.searchAlls) (hfirsts : n'.searchFirsts = n.searchFirsts)
      (hsent : ∀ pkt ∈ sent, pkt.msg.IsDataRequest) : Searches myAddr id n sent n'
  | startAll {n' : Node P} {pattern : Bytes} {budget : UInt64} {neighbours : List P}
      (hforwards : n'.forwards = n.forwards)
      (halls : n'.searchAlls = n.searchAlls ++
        [⟨id, pattern, budget, .sending (sendSearchReq neighbours id budget pattern myAddr)⟩])
      (hfirsts : n'.searchFirsts = n.searchFirsts) (hsent : sent = []) :
      Searches myAddr id n sent n'
  | all {n' : Node P} {i : ℕ} {s : SearchAll P} {pc : SearchPC P (List Bytes)}
      (hforwards : n'.forwards = n.forwards) (hi : n.searchAlls[i]? = some s)
      (halls : n'.searchAlls = n.searchAlls.set i { s with pc := pc })
      (hfirsts : n'.searchFirsts = n.searchFirsts)
      (hsends : Sends myAddr s.pc.pending pc.pending sent) : Searches myAddr id n sent n'
  | startFirst {n' : Node P} {s : SearchFirst P} (hforwards : n'.forwards = n.forwards)
      (halls : n'.searchAlls = n.searchAlls) (hfirsts : n'.searchFirsts = n.searchFirsts ++ [s])
      (hid : s.requestID = id)
      (hpending : s.pc.pending = [] ∨ ∃ neighbours budget pattern,
        s.pc.pending = sendSearchReq neighbours id budget pattern myAddr)
      (hsent : sent = []) : Searches myAddr id n sent n'
  | first {n' : Node P} {i : ℕ} {s s' : SearchFirst P} (hforwards : n'.forwards = n.forwards)
      (halls : n'.searchAlls = n.searchAlls) (hi : n.searchFirsts[i]? = some s)
      (hfirsts : n'.searchFirsts = n.searchFirsts.set i s')
      (hid : s'.requestID = s.requestID)
      (hsends : Sends myAddr s.pc.pending s'.pc.pending sent ∨
        sent = [] ∧ ∃ neighbours budget pattern,
          s'.pc.pending = sendSearchReq neighbours s.requestID budget pattern myAddr) :
      Searches myAddr id n sent n'
  | forward {n' : Node P} (halls : n'.searchAlls = n.searchAlls)
      (hfirsts : n'.searchFirsts = n.searchFirsts)
      (hsends : Sends myAddr n.forwards n'.forwards sent) : Searches myAddr id n sent n'

variable {conf : Conf P} {myAddr : P} {id : ℕ} {n n' : Node P} {sent : List (Packet P)}

theorem searchAllSend_searches {i : ℕ} {ok : Bool}
    (h : n.searchAllSend myAddr i ok = some (n', sent)) : n.Searches myAddr id sent n' := by
  rw [searchAllSend] at h
  split at h
  · next requestID pattern budget r rest hi =>
      split at h
      · obtain ⟨rfl, rfl⟩ := Prod.mk.inj (Option.some.inj h)
        exact .all rfl hi rfl rfl (.inl ⟨r, rfl, rfl⟩)
      · obtain ⟨rfl, rfl⟩ := Prod.mk.inj (Option.some.inj h)
        exact .all rfl hi rfl rfl (.inr ⟨rfl, rfl⟩)
  · exact absurd h (by simp)

theorem retrieve_searches {i : ℕ} {filenames : List Bytes}
    (h : n.retrieve conf i filenames = some n') : n.Searches myAddr id [] n' := by
  rw [retrieve] at h
  split at h
  · next requestID pattern budget hi =>
      obtain ⟨matchString, _, h⟩ := Option.bind_eq_some_iff.mp h
      split at h
      · obtain rfl := Option.some.inj h
        exact .all rfl hi rfl rfl (.inr ⟨rfl, rfl⟩)
      · exact absurd h (by simp)
  · exact absurd h (by simp)

theorem searchFirst_searches {pattern : Bytes} {ring : ExpandingRing} {order : List Bytes}
    {neighbours : List P}
    (h : n.searchFirst conf myAddr id pattern ring order neighbours = some n') :
    n.Searches myAddr id [] n' := by
  obtain ⟨matchString, _, h⟩ := Option.map_eq_some_iff.mp h
  simp only at h
  split at h
  · obtain rfl := h
    exact .startFirst rfl rfl rfl rfl (.inl rfl) rfl
  · obtain rfl := h
    exact .startFirst rfl rfl rfl rfl (.inr ⟨neighbours, ring.initial, pattern, rfl⟩) rfl

theorem returnSearchFirst_searches {i : ℕ} {s : SearchFirst P}
    (hi : n.searchFirsts[i]? = some s) (name : Bytes) :
    n.Searches myAddr id [] (n.returnSearchFirst i s name) :=
  .first rfl rfl hi rfl rfl (.inl (.inr ⟨rfl, rfl⟩))

theorem searchFirstSend_searches {i : ℕ} {ok : Bool}
    (h : n.searchFirstSend myAddr i ok = some (n', sent)) : n.Searches myAddr id sent n' := by
  obtain ⟨s, hi, h⟩ := Option.bind_eq_some_iff.mp h
  split at h
  · next r rest hpc =>
      split at h
      · obtain ⟨rfl, rfl⟩ := Prod.mk.inj (Option.some.inj h)
        refine .first rfl rfl hi rfl rfl (.inl (.inl ⟨r, ?_, rfl⟩))
        rw [hpc]
        rfl
      · obtain ⟨rfl, rfl⟩ := Prod.mk.inj (Option.some.inj h)
        exact returnSearchFirst_searches hi []
  · exact absurd h (by simp)

theorem searchFirstRecv_searches {i : ℕ} (h : n.searchFirstRecv i = some n') :
    n.Searches myAddr id [] n' := by
  obtain ⟨s, hi, h⟩ := Option.bind_eq_some_iff.mp h
  split at h
  · split at h
    · obtain rfl := Option.some.inj h
      exact returnSearchFirst_searches hi _
    · split at h
      · exact absurd h (by simp)
      · obtain rfl := Option.some.inj h
        exact returnSearchFirst_searches hi []
  · exact absurd h (by simp)

theorem searchFirstTick_searches {i : ℕ} {neighbours : List P}
    (h : n.searchFirstTick myAddr i neighbours = some n') : n.Searches myAddr id [] n' := by
  obtain ⟨s, hi, h⟩ := Option.bind_eq_some_iff.mp h
  split at h
  · split at h
    · obtain rfl := Option.some.inj h
      exact returnSearchFirst_searches hi []
    · obtain rfl := Option.some.inj h
      exact .first rfl rfl hi rfl rfl
        (.inr ⟨rfl, neighbours, s.budget * s.conf.factor, s.pattern, rfl⟩)
  · exact absurd h (by simp)

theorem forward_searches {ok : Bool} (h : n.forward myAddr ok = some (n', sent)) :
    n.Searches myAddr id sent n' := by
  rw [forward] at h
  split at h
  · exact absurd h (by simp)
  · next r rest hforwards =>
      split at h
      · obtain ⟨rfl, rfl⟩ := Prod.mk.inj (Option.some.inj h)
        exact .forward rfl rfl (.inl ⟨r, hforwards, rfl⟩)
      · obtain ⟨rfl, rfl⟩ := Prod.mk.inj (Option.some.inj h)
        exact .forward rfl rfl (.inr ⟨rfl, rfl⟩)

/-- What a packet does to the searches of the node which receives it. -/
structure Handles (myAddr : P) (n : Node P) (pkt : Packet P) (n' : Node P)
    (sent : List (Packet P)) : Prop where
  searchAlls : n'.searchAlls = n.searchAlls
  searchFirsts : ∃ f : SearchFirst P → SearchFirst P,
    (∀ s, (f s).requestID = s.requestID ∧ (f s).pc = s.pc) ∧
      n'.searchFirsts = n.searchFirsts.map f
  forwards : n'.forwards = n.forwards ∨
    ∃ requestID origin pattern budget neighbours,
      pkt.msg = .searchRequest requestID origin pattern budget ∧
        n'.forwards = sendSearchReq neighbours requestID (budget - 1) pattern origin
  sent : ∀ pkt' ∈ sent,
    (pkt.header.destination ≠ myAddr ∧ pkt'.msg = pkt.msg) ∨ pkt'.msg.IsReply

/-- A packet which leaves the searches as they are. -/
theorem Handles.of_eq {pkt : Packet P} (halls : n'.searchAlls = n.searchAlls)
    (hfirsts : n'.searchFirsts = n.searchFirsts) (hforwards : n'.forwards = n.forwards)
    (hsent : ∀ pkt' ∈ sent,
      (pkt.header.destination ≠ myAddr ∧ pkt'.msg = pkt.msg) ∨ pkt'.msg.IsReply) :
    Handles myAddr n pkt n' sent where
  searchAlls := halls
  searchFirsts := ⟨fun s => s, fun _ => ⟨rfl, rfl⟩, hfirsts.trans (List.map_id _).symm⟩
  forwards := .inl hforwards
  sent := hsent

variable [DecidableEq P]

theorem call_searches {c : Call P} (h : n.call conf myAddr id c = some (n', sent)) :
    n.Searches myAddr id sent n' := by
  cases c with
  | upload =>
      obtain ⟨rfl, rfl⟩ := Prod.mk.inj (Option.some.inj h)
      exact .idle rfl rfl rfl (List.forall_mem_nil _)
  | uploadRead i r =>
      obtain ⟨m, hm, heq⟩ := Option.map_eq_some_iff.mp h
      obtain ⟨rfl, rfl⟩ := Prod.mk.inj heq
      rw [uploadRead] at hm
      split at hm
      · split at hm
        · obtain rfl := Option.some.inj hm
          exact .idle rfl rfl rfl (List.forall_mem_nil _)
        · obtain rfl := Option.some.inj hm
          exact .idle rfl rfl rfl (List.forall_mem_nil _)
        · obtain rfl := Option.some.inj hm
          exact .idle rfl rfl rfl (List.forall_mem_nil _)
      · exact absurd hm (by simp)
  | downloadStep i =>
      obtain ⟨d, hd, hmap⟩ := Option.bind_eq_some_iff.mp h
      obtain ⟨pc, hpc, heq⟩ := Option.map_eq_some_iff.mp hmap
      obtain ⟨rfl, rfl⟩ := Prod.mk.inj heq
      exact .idle rfl rfl rfl (List.forall_mem_nil _)
  | downloadRequest i randomPeer ok =>
      obtain ⟨d, hd, hmap⟩ := Option.bind_eq_some_iff.mp h
      obtain ⟨⟨pc, channels, sent'⟩, hpc, heq⟩ := Option.map_eq_some_iff.mp hmap
      obtain ⟨rfl, rfl⟩ := Prod.mk.inj heq
      exact .idle rfl rfl rfl (downloadRequest_downloads hpc).2
  | downloadTick i ok =>
      obtain ⟨d, hd, hmap⟩ := Option.bind_eq_some_iff.mp h
      obtain ⟨⟨pc, sent'⟩, hpc, heq⟩ := Option.map_eq_some_iff.mp hmap
      obtain ⟨rfl, rfl⟩ := Prod.mk.inj heq
      exact .idle rfl rfl rfl (downloadTick_downloads (n := n) hpc).2
  | searchAll pattern budget neighbours =>
      simp only [call] at h
      split at h
      · obtain ⟨rfl, rfl⟩ := Prod.mk.inj (Option.some.inj h)
        exact .startAll rfl rfl rfl rfl
      · exact absurd h (by simp)
  | searchAllSend i ok => exact searchAllSend_searches h
  | retrieve i filenames =>
      obtain ⟨m, hm, heq⟩ := Option.map_eq_some_iff.mp h
      obtain ⟨rfl, rfl⟩ := Prod.mk.inj heq
      exact retrieve_searches hm
  | searchFirst pattern ring order neighbours =>
      simp only [call] at h
      split at h
      · obtain ⟨m, hm, heq⟩ := Option.map_eq_some_iff.mp h
        obtain ⟨rfl, rfl⟩ := Prod.mk.inj heq
        exact searchFirst_searches hm
      · exact absurd h (by simp)
  | searchFirstSend i ok => exact searchFirstSend_searches h
  | searchFirstRecv i =>
      obtain ⟨m, hm, heq⟩ := Option.map_eq_some_iff.mp h
      obtain ⟨rfl, rfl⟩ := Prod.mk.inj heq
      exact searchFirstRecv_searches hm
  | searchFirstTick i neighbours =>
      simp only [call] at h
      split at h
      · obtain ⟨m, hm, heq⟩ := Option.map_eq_some_iff.mp h
        obtain ⟨rfl, rfl⟩ := Prod.mk.inj heq
        exact searchFirstTick_searches hm
      · exact absurd h (by simp)
  | forward ok => exact forward_searches h
  | download | updateCatalog | setRoutingTable | setName | stop =>
      obtain ⟨rfl, rfl⟩ := Prod.mk.inj (Option.some.inj h)
      exact .idle rfl rfl rfl (List.forall_mem_nil _)

theorem receive_handles (conf : Conf P) (myAddr : P) (n : Node P) (pkt : Packet P)
    (order : List Bytes) (neighbours : List P) (ok : Bool) :
    Handles myAddr n pkt (n.receive conf myAddr pkt order neighbours ok).1
      (n.receive conf myAddr pkt order neighbours ok).2 := by
  rw [receive]
  split
  · cases hmsg : pkt.msg with
    | dataRequest requestID key =>
        rw [handle]
        split
        · exact .of_eq rfl rfl rfl (List.forall_mem_nil _)
        · next reply hreply =>
            split
            · refine .of_eq rfl rfl rfl ?_
              intro pkt' hpkt'
              obtain ⟨addr, _, hreply⟩ := Option.map_eq_some_iff.mp hreply
              rw [List.mem_singleton.mp hpkt', ← hreply]
              exact .inr trivial
            · exact .of_eq rfl rfl rfl (List.forall_mem_nil _)
    | dataReply requestID key value =>
        exact .of_eq rfl rfl rfl (List.forall_mem_nil _)
    | searchRequest requestID origin pattern budget =>
        rw [handle]
        split
        · exact .of_eq rfl rfl rfl (List.forall_mem_nil _)
        · next reply requests hreply =>
            obtain ⟨matchString, _, hreply⟩ := Option.map_eq_some_iff.mp hreply
            obtain ⟨rfl, rfl⟩ := Prod.mk.inj hreply
            split
            · constructor
              · rfl
              · exact ⟨fun s => s, fun _ => ⟨rfl, rfl⟩, (List.map_id _).symm⟩
              · exact .inr ⟨requestID, origin, pattern, budget,
                  forwardTo pkt.header.source origin neighbours, hmsg, rfl⟩
              · intro pkt' hpkt'
                rw [List.mem_singleton.mp hpkt']
                exact .inr trivial
            · exact .of_eq rfl rfl rfl (List.forall_mem_nil _)
    | searchReply requestID responses =>
        have h := answered_execSearchReplyMessage n requestID responses pkt.header.source
        constructor
        · exact h.searchAlls
        · exact h.searchFirsts
        · exact .inl h.forwards
        · exact List.forall_mem_nil _
  · next hdest =>
      split
      · refine .of_eq rfl rfl rfl ?_
        intro pkt' hpkt'
        rw [List.mem_singleton.mp hpkt']
        exact .inl ⟨hdest, rfl⟩
      · exact .of_eq rfl rfl rfl (List.forall_mem_nil _)

end Node
end Minotor.DataSharing
