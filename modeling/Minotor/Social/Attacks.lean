import Minotor.Gossip.AntiEntropy
import Minotor.Social.Publications

/-!
# Attacks

Gossiping nodes some of which are malicious: they append publications, and publish them one
after the other in attacks.  Every node reacts to a publication when it runs the handler of its
rumor.

Calls of `AppendPublications` at one node do not overlap, since they share the counter without a
lock.  Private messages are left out, and only attacks broadcast publications.
-/

namespace Minotor.Social

open Gossip Wire

variable {P : Type*}

/-- Gossiping nodes with the fields of their `MaliciousNode`. -/
structure SocialNetwork (P : Type*) where
  proc : Processing P Transport.Message
  publications : P → List BinaryPublication
  publicationIDCounter : P → ℕ
  published : P → List BinaryPublication
  /-- what the calls of `Attack` have still to publish -/
  attacks : P → List (List BinaryPublication)

inductive SocialAction (P : Type*) where
  | step (a : ProcessingAction P Transport.Message)
  | appendPublications (p : P) (contents : List String) (truthValues : List Bool)
  | attack (p : P)
  /-- a turn of the loop of the `k`-th call of `Attack` -/
  | publish (p : P) (k : ℕ) (shuffle : List P)

/-- The loop of `AppendPublications`. -/
def newPublications (name : String) (publicationIDCounter : ℕ) :
    List (String × Bool) → List BinaryPublication
  | [] => []
  | (content, truthValue) :: rest =>
      { id := toString publicationIDCounter
        author := name
        content := content
        truthValue := truthValue } :: newPublications name (publicationIDCounter + 1) rest

/-- The publications which `AppendPublications` appends. -/
def appendPublications (name : String) (publicationIDCounter : ℕ) (contents : List String)
    (truthValues : List Bool) : Except String (List BinaryPublication) :=
  if contents.length ≠ truthValues.length then
    .error "error: contents and truthvalues should have the same length"
  else .ok (newPublications name publicationIDCounter (contents.zip truthValues))

/-- The action broadcasts no publication and no private message. -/
def quiet : ProcessingAction P Transport.Message → Bool
  | .step (.broadcast _ msg _) =>
      msg.type ≠ MessageType.binaryPublicationMessage.name ∧
        msg.type ≠ MessageType.privateMessage.name
  | _ => true

def SocialAction.Apart (p : P) : SocialAction P → Prop
  | .step a => a.Apart p
  | _ => True

namespace SocialNetwork

section

variable [DecidableEq P] (role : P → Role) (addr : P → String) (st : SocialNetwork P)

def next : SocialAction P → Option (SocialNetwork P)
  | .step a =>
      if quiet a then (st.proc.next a).map fun proc => { st with proc := proc } else none
  | .appendPublications p contents truthValues =>
      if role p = .malicious then
        match appendPublications (addr p) (st.publicationIDCounter p) contents truthValues with
        | .error _ => some st
        | .ok publications => some { st with
            publications :=
              Function.update st.publications p (st.publications p ++ publications)
            publicationIDCounter := Function.update st.publicationIDCounter p
              (st.publicationIDCounter p + publications.length) }
      else none
  | .attack p =>
      if role p = .malicious then
        some { st with
          attacks := Function.update st.attacks p (st.attacks p ++ [st.publications p]) }
      else none
  | .publish p k shuffle =>
      match (st.attacks p)[k]? with
      | some (publication :: rest) =>
          match publicationMessage publication with
          | .error _ => some { st with
              attacks := Function.update st.attacks p ((st.attacks p).eraseIdx k) }
          | .ok msg => (st.proc.next (.step (.broadcast p msg shuffle))).map fun proc =>
              { st with
                proc := proc
                published := Function.update st.published p (st.published p ++ [publication])
                attacks := Function.update st.attacks p ((st.attacks p).set k rest) }
      | _ => none

/-- The reactions of `p`. -/
def reactions (p : P) : Reactions :=
  ((st.proc.executed p).map fun e => e.1.msg).foldl ((role p).process (addr p)) ∅

end

end SocialNetwork

/-- The transition system of new nodes with these roles and addresses. -/
def social [DecidableEq P] (role : P → Role) (addr : P → String) :
    TransitionSystem (SocialNetwork P) (SocialAction P) where
  init := ⟨processing.init, fun _ => [], fun _ => 0, fun _ => [], fun _ => []⟩
  next := SocialNetwork.next role addr

/-! ## What a step does -/

namespace SocialNetwork

variable [DecidableEq P] {role : P → Role} {addr : P → String} {st st' : SocialNetwork P}

/-- The steps of the nodes. -/
inductive Step (addr : P → String) (st : SocialNetwork P) :
    SocialAction P → SocialNetwork P → Prop
  | step (a : ProcessingAction P Transport.Message) (proc : Processing P Transport.Message)
      (hquiet : quiet a = true) (hstep : st.proc.next a = some proc) :
      Step addr st (.step a) { st with proc := proc }
  | rejects (p : P) (contents : List String) (truthValues : List Bool) :
      Step addr st (.appendPublications p contents truthValues) st
  | appends (p : P) (contents : List String) (truthValues : List Bool)
      (publications : List BinaryPublication)
      (hnew : Social.appendPublications (addr p) (st.publicationIDCounter p) contents
        truthValues = .ok publications) :
      Step addr st (.appendPublications p contents truthValues) { st with
        publications := Function.update st.publications p (st.publications p ++ publications)
        publicationIDCounter := Function.update st.publicationIDCounter p
          (st.publicationIDCounter p + publications.length) }
  | attacks (p : P) :
      Step addr st (.attack p) { st with
        attacks := Function.update st.attacks p (st.attacks p ++ [st.publications p]) }
  | publishes (p : P) (k : ℕ) (shuffle : List P) (bp : BinaryPublication)
      (rest : List BinaryPublication) (msg : Transport.Message)
      (proc : Processing P Transport.Message) (hk : (st.attacks p)[k]? = some (bp :: rest))
      (hmsg : publicationMessage bp = .ok msg)
      (hstep : st.proc.next (.step (.broadcast p msg shuffle)) = some proc) :
      Step addr st (.publish p k shuffle) { st with
        proc := proc
        published := Function.update st.published p (st.published p ++ [bp])
        attacks := Function.update st.attacks p ((st.attacks p).set k rest) }

theorem step_of_next {a : SocialAction P} (hnext : st.next role addr a = some st') :
    Step addr st a st' := by
  cases a with
  | step a =>
      simp only [next, Option.ite_none_right_eq_some] at hnext
      obtain ⟨hquiet, hnext⟩ := hnext
      obtain ⟨proc, hstep, rfl⟩ := Option.map_eq_some_iff.mp hnext
      exact .step a proc hquiet hstep
  | appendPublications p contents truthValues =>
      simp only [next, Option.ite_none_right_eq_some] at hnext
      obtain ⟨-, hnext⟩ := hnext
      split at hnext
      · obtain rfl := Option.some.inj hnext
        exact .rejects p contents truthValues
      · next publications hnew =>
          obtain rfl := Option.some.inj hnext
          exact .appends p contents truthValues publications hnew
  | attack p =>
      simp only [next, Option.ite_none_right_eq_some] at hnext
      obtain rfl := Option.some.inj hnext.2
      exact .attacks p
  | publish p k shuffle =>
      simp only [next] at hnext
      split at hnext
      · next bp rest hk =>
          split at hnext
          · -- a publication can always be marshalled
            next err herr =>
              obtain ⟨msg, hmsg⟩ := exists_publicationMessage bp
              cases herr.symm.trans hmsg
          · next msg hmsg =>
              obtain ⟨proc, hstep, rfl⟩ := Option.map_eq_some_iff.mp hnext
              exact .publishes p k shuffle bp rest msg proc hk hmsg hstep
      · cases hnext

end SocialNetwork

/-! ## Publications are what their authors have appended -/

theorem toString_injective {m n : ℕ} (h : toString m = toString n) : m = n := by
  have hlist := congrArg String.toList h
  simp only [Nat.toString_eq_repr, Nat.toList_repr] at hlist
  rw [← Nat.ofDigitChars_ten_toDigits (n := m), hlist, Nat.ofDigitChars_ten_toDigits]

theorem author_newPublications {name : String} {k : ℕ} {l : List (String × Bool)}
    {p : BinaryPublication} (hp : p ∈ newPublications name k l) : p.author = name := by
  induction l generalizing k with
  | nil => cases hp
  | cons x l ih =>
      rcases List.mem_cons.mp hp with rfl | hp
      · rfl
      · exact ih hp

theorem ids_newPublications (name : String) (k : ℕ) (l : List (String × Bool)) :
    (newPublications name k l).map (·.id) = (List.range' k l.length).map toString := by
  induction l generalizing k with
  | nil => rfl
  | cons x l ih =>
      rw [newPublications, List.map_cons, ih, List.length_cons, List.range'_succ, List.map_cons]

namespace SocialNetwork

variable [DecidableEq P] {role : P → Role} {addr : P → String} {st st' : SocialNetwork P}

/-- The publications of a node are its own and numbered, and it attacks with nothing else.  What
it broadcasts as a publication is one of them. -/
structure Authentic (addr : P → String) (st : SocialNetwork P) : Prop where
  author : ∀ p, ∀ bp ∈ st.publications p, bp.author = addr p
  ids : ∀ p, (st.publications p).map (·.id) =
    (List.range (st.publicationIDCounter p)).map toString
  attacks : ∀ p, ∀ l ∈ st.attacks p, l ⊆ st.publications p
  own : ∀ p, ∀ r ∈ st.proc.net.own p, ∀ bp, publicationOf r.msg = some bp →
    bp ∈ st.publications p
  published : ∀ p, ∀ bp ∈ st.published p, ∃ r ∈ st.proc.net.own p,
    publicationOf r.msg = some bp

/-- A node has one publication with an ID. -/
theorem Authentic.eq_of_id (h : st.Authentic addr) {p : P} {bp bp' : BinaryPublication}
    (hbp : bp ∈ st.publications p) (hbp' : bp' ∈ st.publications p) (hid : bp.id = bp'.id) :
    bp = bp' := by
  have hnodup : ((st.publications p).map (·.id)).Nodup := by
    rw [h.ids]
    exact List.nodup_range.map fun _ _ => toString_injective
  exact List.inj_on_of_nodup_map hnodup hbp hbp' hid

/-- A quiet step broadcasts no publication. -/
theorem publicationOf_created {proc : Processing P Transport.Message}
    {a : ProcessingAction P Transport.Message} (hquiet : quiet a = true) {p : P} :
    ∀ r ∈ a.created proc p, publicationOf r.msg = none := by
  intro r hr
  cases a with
  | step a =>
      cases a with
      | broadcast q msg shuffle =>
          obtain ⟨hne, -⟩ := of_decide_eq_true hquiet
          simp only [ProcessingAction.created, Gossip.Action.created] at hr
          split at hr
          · obtain rfl := List.mem_singleton.mp hr
            exact if_neg hne
          · exact absurd hr List.not_mem_nil
      | _ => exact absurd hr List.not_mem_nil
  | _ => exact absurd hr List.not_mem_nil

/-- What a node publishes is its next rumor. -/
theorem created_publish {proc : Processing P Transport.Message} {p : P} {msg : Transport.Message}
    {shuffle : List P} {r : Gossip.Rumor P Transport.Message} {q : P}
    (hr : r ∈ ProcessingAction.created proc q (.step (.broadcast p msg shuffle))) :
    p = q ∧ r.msg = msg := by
  simp only [ProcessingAction.created, Gossip.Action.created] at hr
  split at hr
  · next hp =>
      obtain rfl := List.mem_singleton.mp hr
      exact ⟨hp, rfl⟩
  · exact absurd hr List.not_mem_nil

theorem exists_created_publish (proc : Processing P Transport.Message) (p : P)
    (msg : Transport.Message) (shuffle : List P) :
    ∃ r ∈ ProcessingAction.created proc p (.step (.broadcast p msg shuffle)), r.msg = msg := by
  simp only [ProcessingAction.created, Gossip.Action.created, if_true]
  exact ⟨_, List.mem_cons_self, rfl⟩

/-- The network has changed, and not the publications. -/
theorem Authentic.of_proc (h : st.Authentic addr) (hproc : st.proc.net.Faithful)
    {a : ProcessingAction P Transport.Message} {proc : Processing P Transport.Message}
    (hnext : st.proc.next a = some proc)
    (hcreated : ∀ p, ∀ r ∈ a.created st.proc p, ∀ bp, publicationOf r.msg = some bp →
      bp ∈ st.publications p) : Authentic addr { st with proc := proc } where
  author := h.author
  ids := h.ids
  attacks := h.attacks
  own p r hr bp hbp := by
    rw [Processing.own_next hproc hnext] at hr
    rcases List.mem_append.mp hr with hr | hr
    · exact h.own p r hr bp hbp
    · exact hcreated p r hr bp hbp
  published p bp hbp := by
    obtain ⟨r, hr, hmsg⟩ := h.published p bp hbp
    refine ⟨r, ?_, hmsg⟩
    rw [Processing.own_next hproc hnext]
    exact List.mem_append_left _ hr

theorem Authentic.appendPublications (h : st.Authentic addr) {p : P} {contents : List String}
    {truthValues : List Bool} {publications : List BinaryPublication}
    (hnew : Social.appendPublications (addr p) (st.publicationIDCounter p) contents truthValues =
      .ok publications) :
    Authentic addr { st with
      publications := Function.update st.publications p (st.publications p ++ publications)
      publicationIDCounter := Function.update st.publicationIDCounter p
        (st.publicationIDCounter p + publications.length) } := by
  obtain rfl : newPublications (addr p) (st.publicationIDCounter p) (contents.zip truthValues) =
      publications := by
    unfold Social.appendPublications at hnew
    split at hnew
    · cases hnew
    · exact Except.ok.inj hnew
  have hsub : ∀ q, st.publications q ⊆ Function.update st.publications p (st.publications p ++
      newPublications (addr p) (st.publicationIDCounter p) (contents.zip truthValues)) q := by
    intro q bp hbp
    by_cases hq : q = p
    · subst hq
      rw [Function.update_self]
      exact List.mem_append_left _ hbp
    · rw [Function.update_of_ne hq]
      exact hbp
  constructor
  · intro q bp hbp
    by_cases hq : q = p
    · subst hq
      simp only [Function.update_self] at hbp
      exact (List.mem_append.mp hbp).elim (h.author q bp) author_newPublications
    · simp only [Function.update_of_ne hq] at hbp
      exact h.author q bp hbp
  · intro q
    by_cases hq : q = p
    · subst hq
      have hlength := congrArg List.length
        (ids_newPublications (addr q) (st.publicationIDCounter q) (contents.zip truthValues))
      simp only [List.length_map, List.length_range'] at hlength
      have hrange := List.range'_append_1 (s := 0) (m := st.publicationIDCounter q)
        (n := (contents.zip truthValues).length)
      rw [Nat.zero_add] at hrange
      simp only [Function.update_self, List.map_append, h.ids, ids_newPublications, hlength]
      rw [← List.map_append, List.range_eq_range', List.range_eq_range', hrange]
    · simp only [Function.update_of_ne hq]
      exact h.ids q
  · exact fun q l hl => List.Subset.trans (h.attacks q l hl) (hsub q)
  · exact fun q r hr bp hbp => hsub q (h.own q r hr bp hbp)
  · exact h.published

/-- A call of `Attack` starts or goes on. -/
theorem Authentic.of_attacks (h : st.Authentic addr) {p : P}
    {attacks : List (List BinaryPublication)}
    (hattacks : ∀ l ∈ attacks, l ⊆ st.publications p) :
    Authentic addr { st with attacks := Function.update st.attacks p attacks } where
  author := h.author
  ids := h.ids
  attacks q l hl := by
    by_cases hq : q = p
    · subst hq
      simp only [Function.update_self] at hl
      exact hattacks l hl
    · simp only [Function.update_of_ne hq] at hl
      exact h.attacks q l hl
  own := h.own
  published := h.published

/-- An attack publishes its next publication. -/
theorem Authentic.publish (h : st.Authentic addr) (hproc : st.proc.net.Faithful) {p : P} {k : ℕ}
    {bp : BinaryPublication} {rest : List BinaryPublication} {msg : Transport.Message}
    {shuffle : List P} {proc : Processing P Transport.Message}
    (hk : (st.attacks p)[k]? = some (bp :: rest)) (hmsg : publicationMessage bp = .ok msg)
    (hnext : st.proc.next (.step (.broadcast p msg shuffle)) = some proc) :
    Authentic addr { st with
      proc := proc
      published := Function.update st.published p (st.published p ++ [bp])
      attacks := Function.update st.attacks p ((st.attacks p).set k rest) } := by
  have hmem := h.attacks p _ (List.mem_of_getElem? hk)
  have hbp := publicationOf_publicationMessage hmsg
  have hrest := h.of_attacks (forall_mem_set (i := k) (h.attacks p)
    fun bp' hbp' => hmem (List.mem_cons_of_mem bp hbp'))
  have hproc' := hrest.of_proc hproc hnext (by
    intro q r hr bp' hbp'
    obtain ⟨rfl, rfl⟩ := created_publish hr
    rw [hbp] at hbp'
    obtain rfl := Option.some.inj hbp'
    exact hmem List.mem_cons_self)
  refine ⟨hproc'.author, hproc'.ids, hproc'.attacks, hproc'.own, ?_⟩
  intro q bp' hbp'
  by_cases hq : q = p
  · subst hq
    simp only [Function.update_self] at hbp'
    rcases List.mem_append.mp hbp' with hold | hnew
    · exact hproc'.published q bp' hold
    · obtain rfl := List.mem_singleton.mp hnew
      obtain ⟨r, hr, hrmsg⟩ := exists_created_publish st.proc q msg shuffle
      refine ⟨r, ?_, hrmsg ▸ hbp⟩
      change r ∈ proc.net.own q
      rw [Processing.own_next hproc hnext]
      exact List.mem_append_right _ hr
  · simp only [Function.update_of_ne hq] at hbp'
    exact hproc'.published q bp' hbp'

theorem Authentic.step (h : st.Authentic addr) (hproc : st.proc.net.Faithful) {a : SocialAction P}
    (hnext : st.next role addr a = some st') : st'.Authentic addr := by
  cases step_of_next hnext with
  | step a proc hquiet hstep =>
      apply h.of_proc hproc hstep
      intro p r hr bp hbp
      rw [publicationOf_created hquiet r hr] at hbp
      cases hbp
  | rejects p contents truthValues => exact h
  | appends p contents truthValues publications hnew => exact h.appendPublications hnew
  | attacks p => exact h.of_attacks (forall_mem_concat (h.attacks p) (List.Subset.refl _))
  | publishes p k shuffle bp rest msg proc hk hmsg hstep => exact h.publish hproc hk hmsg hstep

/-! ## Runs -/

/-- A step is one of the gossiping nodes, or leaves them as they are. -/
theorem proc_next {a : SocialAction P} (ha : ∀ p, a.Apart p)
    (hnext : st.next role addr a = some st') :
    st'.proc = st.proc ∨ ∃ b, (∀ p, ProcessingAction.Apart p b) ∧
      st.proc.next b = some st'.proc := by
  cases step_of_next hnext with
  | step a proc _ hstep => exact .inr ⟨a, ha, hstep⟩
  | rejects p contents truthValues => exact .inl rfl
  | appends p contents truthValues publications _ => exact .inl rfl
  | attacks p => exact .inl rfl
  | publishes p k shuffle bp rest msg proc _ _ hstep =>
      exact .inr ⟨.step (.broadcast p msg shuffle), fun _ => trivial, hstep⟩

theorem proc_of_reachable
    (h : (social role addr).ReachableUnder (fun _ a => ∀ p, a.Apart p) st) :
    processing.ReachableUnder (fun _ a => ∀ p, ProcessingAction.Apart p a) st.proc := by
  induction h with
  | init => exact .init
  | step _ ha hnext ih =>
      rcases proc_next ha hnext with heq | ⟨b, hb, hstep⟩
      · rw [heq]
        exact ih
      · exact ih.step hb hstep

theorem authentic_of_reachable
    (h : (social role addr).ReachableUnder (fun _ a => ∀ p, a.Apart p) st) :
    st.Authentic addr := by
  apply h.invariant
  · exact
      { author := fun _ _ hbp => absurd hbp List.not_mem_nil
        ids := fun _ => rfl
        attacks := fun _ _ hl => absurd hl List.not_mem_nil
        own := fun _ _ hr => absurd hr List.not_mem_nil
        published := fun _ _ hbp => absurd hbp List.not_mem_nil }
  · intro st st' a hst hauthentic _ hnext
    exact hauthentic.step (Processing.faithful_of_reachable (proc_of_reachable hst)) hnext

/-- Node `p` has run the handler of a rumor with this publication. -/
def Heard (st : SocialNetwork P) (p : P) (bp : BinaryPublication) : Prop :=
  ∃ e ∈ st.proc.executed p, publicationOf e.1.msg = some bp

/-- What a node has heard of as a publication, its author has appended. -/
theorem Heard.exists_author (h : st.Authentic addr) {p : P}
    (hst : processing.ReachableUnder (fun _ a => ProcessingAction.Apart p a) st.proc)
    {bp : BinaryPublication} (hbp : st.Heard p bp) :
    ∃ o, bp.author = addr o ∧ bp ∈ st.publications o := by
  obtain ⟨e, he, hmsg⟩ := hbp
  have hmem := h.own e.1.origin e.1 (Processing.mem_own_of_executed hst he) bp hmsg
  exact ⟨e.1.origin, h.author _ bp hmem, hmem⟩

/-- A node which has heard of a publication has reacted to it in its way. -/
theorem Heard.get_reactions (h : st.Authentic addr) (haddr : Function.Injective addr) {p : P}
    (hst : processing.ReachableUnder (fun _ a => ProcessingAction.Apart p a) st.proc) {o : P}
    {id : String} {b : Bool} :
    (st.reactions role addr p).get (addr o) id = some b ↔
      ∃ bp ∈ st.publications o, bp.id = id ∧ st.Heard p bp ∧
        (role p).reactToPublication (addr p) bp = b := by
  have hsound : ∀ b, (st.reactions role addr p).get (addr o) id = some b →
      ∃ bp ∈ st.publications o, bp.id = id ∧ st.Heard p bp ∧
        (role p).reactToPublication (addr p) bp = b := by
    intro b hb
    rcases Role.exists_of_get_process hb with hb | ⟨msg, hmsg, bp, hbp, hauthor, hid, hreact⟩
    · cases hb
    · obtain ⟨e, he, rfl⟩ := List.mem_map.mp hmsg
      have hheard : st.Heard p bp := ⟨e, he, hbp⟩
      obtain ⟨o', ho', hmem⟩ := hheard.exists_author h hst
      obtain rfl := haddr (ho'.symm.trans hauthor)
      exact ⟨bp, hmem, hid, hheard, hreact⟩
  constructor
  · exact hsound b
  · rintro ⟨bp, hmem, rfl, hheard, rfl⟩
    obtain ⟨e, he, hmsg⟩ := hheard
    have hsome : ((st.reactions role addr p).get bp.author bp.id).isSome :=
      Role.isSome_get_of_mem (List.mem_map.mpr ⟨e, he, rfl⟩) hmsg
    rw [h.author o bp hmem] at hsome
    obtain ⟨b, hb⟩ := Option.isSome_iff_exists.mp hsome
    obtain ⟨bp', hmem', hid, -, hreact⟩ := hsound b hb
    obtain rfl := h.eq_of_id hmem' hmem hid
    rw [hreact]
    exact hb

end SocialNetwork

/-- The actions by which the network repairs itself. -/
def SocialAction.Repairs : SocialAction P → Prop
  | .step a => a.Repairs
  | _ => False

theorem quiet_of_repairs {a : ProcessingAction P Transport.Message} (ha : a.Repairs) :
    quiet a = true := by
  cases a with
  | step a =>
      cases a with
      | broadcast p msg shuffle => cases ha
      | _ => rfl
  | _ => rfl

variable [DecidableEq P] {role : P → Role} {addr : P → String} {st : SocialNetwork P}

/-- The gossiping nodes repair themselves, and the publications stay as they are. -/
theorem exists_leadsTo_of_repairsTo {proc : Processing P Transport.Message}
    (h : st.proc.RepairsTo proc) :
    (social role addr).LeadsTo (fun _ a => a.Repairs) st { st with proc := proc } := by
  induction h with
  | refl => exact .refl
  | @tail proc₁ proc₂ _ hstep ih =>
      obtain ⟨a, ha, hnext⟩ := hstep
      have hsocial : SocialNetwork.next role addr { st with proc := proc₁ } (.step a) =
          some { st with proc := proc₂ } := by
        simp only [SocialNetwork.next, quiet_of_repairs ha, if_true]
        rw [show proc₁.next a = some proc₂ from hnext]
        rfl
      exact ih.tail ⟨.step a, ha, hsocial⟩

/-- An honest node and a malicious one. -/
def sampleRole (p : Fin 2) : Role := if p = 0 then .honest else .malicious

def sampleAddr (p : Fin 2) : String := if p = 0 then "127.0.0.1:1" else "127.0.0.1:2"

theorem sampleAddr_injective : Function.Injective sampleAddr := by
  intro p q
  revert p q
  decide

/-- Steps with other peers and without embedded status messages. -/
def SocialAction.addsOthers : SocialAction (Fin 2) → Bool
  | .step (.step (.addPeer q addr)) => !addr.contains q
  | .step (.step (.execStatus _ _ _ _)) => false
  | _ => true

theorem SocialAction.apart_of_addsOthers {a : SocialAction (Fin 2)} (ha : a.addsOthers = true)
    (p : Fin 2) : a.Apart p := by
  cases a with
  | step a =>
      cases a with
      | step a =>
          cases a with
          | addPeer q addr =>
              rintro rfl
              intro hmem
              rw [addsOthers, List.contains_iff_mem.mpr hmem] at ha
              cases ha
          | execStatus q source status c => cases ha
          | _ => trivial
      | _ => trivial
  | _ => trivial

end Minotor.Social
