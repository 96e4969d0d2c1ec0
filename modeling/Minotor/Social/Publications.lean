import Minotor.Wire.RoundTrip

/-!
# Publications and reactions

The nodes of `peer/performance` like or dislike the publications of others as soon as they hear
of them.  An honest node likes what is true, a malicious node its own publications, and a Sybil
node those of its parent.
-/

namespace Minotor.Social

open Wire

/-- `peer.Publication`. -/
structure Publication where
  id : String
  author : String
  content : String
deriving DecidableEq

structure BinaryPublication extends Publication where
  truthValue : Bool
deriving DecidableEq

def LIKE : Bool := true

def DISLIKE : Bool := false

def BinaryPublication.isFake (p : BinaryPublication) : Bool := !p.truthValue

/-! ## Messages -/

def publicationFromMessage (msg : PublicationMessage) : Publication where
  id := msg.id
  author := msg.author
  content := msg.content

/-- `none` is the panic of a nil pointer. -/
def binaryPublicationFromMessage (msg : BinaryPublicationMessage) : Option BinaryPublication :=
  msg.message.map fun message =>
    { publicationFromMessage message with truthValue := msg.truthValue }

def publicationToMessage (p : Publication) : PublicationMessage where
  id := p.id
  author := p.author
  content := p.content

def binaryPublicationToMessage (p : BinaryPublication) : BinaryPublicationMessage where
  message := some (publicationToMessage p.toPublication)
  truthValue := p.truthValue

/-- The message which `Publish` broadcasts. -/
def publicationMessage (p : BinaryPublication) : Except String Transport.Message :=
  marshalMessage ⟨.binaryPublicationMessage, binaryPublicationToMessage p⟩

/-- The publication to which a node reacts when its registry processes a message. -/
def publicationOf (msg : Transport.Message) : Option BinaryPublication :=
  if msg.type = MessageType.binaryPublicationMessage.name then
    (unmarshalMessage msg .binaryPublicationMessage
      MessageType.binaryPublicationMessage.codec.zero).toOption.bind binaryPublicationFromMessage
  else none

/-- A publication arrives as it was published. -/
theorem publicationOf_publicationMessage {p : BinaryPublication} {msg : Transport.Message}
    (h : publicationMessage p = .ok msg) : publicationOf msg = some p := by
  let m : Wire.Message := ⟨.binaryPublicationMessage, binaryPublicationToMessage p⟩
  have hm : m.Canonical := fun e he => absurd he List.not_mem_nil
  obtain ⟨j, hmarshal, hdecode, -⟩ := marshalMessage_spec hm
  have hmsg : (Except.ok ⟨m.type.name, some j.print⟩ : Except String _) = .ok msg :=
    hmarshal.symm.trans h
  obtain rfl := Except.ok.inj hmsg
  have hread : unmarshalMessage ⟨m.type.name, some j.print⟩ m.type m.type.codec.zero =
      .ok m.content := by
    simp only [unmarshalMessage, Option.getD_some, Json.parse_print, hdecode]
  rw [publicationOf, if_pos rfl, show unmarshalMessage _ _ _ = _ from hread]
  rfl

theorem exists_publicationMessage (p : BinaryPublication) :
    ∃ msg, publicationMessage p = .ok msg := by
  let m : Wire.Message := ⟨.binaryPublicationMessage, binaryPublicationToMessage p⟩
  have hm : m.Canonical := fun e he => absurd he List.not_mem_nil
  obtain ⟨j, hmarshal, -, -⟩ := marshalMessage_spec hm
  exact ⟨_, hmarshal⟩

/-! ## Reactions -/

/-- The kinds of nodes. -/
inductive Role where
  | honest
  | malicious
  | sybil (parent : String)
deriving DecidableEq

/-- `reactToPublication` of the kinds of nodes. -/
def Role.reactToPublication (role : Role) (name : String) (p : BinaryPublication) : Bool :=
  match role with
  | honest => if p.isFake then DISLIKE else LIKE
  | malicious => if p.author = name then LIKE else DISLIKE
  | sybil parent => if p.author = parent then LIKE else DISLIKE

theorem Role.reactToPublication_honest (name : String) (p : BinaryPublication) :
    honest.reactToPublication name p = p.truthValue := by
  unfold reactToPublication BinaryPublication.isFake
  cases p.truthValue with
  | false => rfl
  | true => rfl

/-- `reactions`: by author, and then by ID. -/
abbrev Reactions := AList fun _ : String => AList fun _ : String => Bool

namespace Reactions

def addReaction (reactions : Reactions) (author id : String) (value : Bool) : Reactions :=
  reactions.insert author (((reactions.lookup author).getD ∅).insert id value)

/-- `reactions[author][id]`. -/
def get (reactions : Reactions) (author id : String) : Option Bool :=
  (reactions.lookup author).bind fun r => r.lookup id

variable {author id author' id' : String}

theorem get_addReaction (reactions : Reactions) (value : Bool) :
    (reactions.addReaction author id value).get author' id' =
      if author' = author ∧ id' = id then some value else reactions.get author' id' := by
  unfold addReaction get
  by_cases hauthor : author' = author
  · subst hauthor
    rw [AList.lookup_insert, Option.bind_some]
    by_cases hid : id' = id
    · rw [if_pos ⟨rfl, hid⟩, hid, AList.lookup_insert]
    · rw [if_neg fun h => hid h.2, AList.lookup_insert_ne hid]
      cases reactions.lookup author' with
      | none => rfl
      | some r => rfl
  · rw [if_neg fun h => hauthor h.1, AList.lookup_insert_ne hauthor]

end Reactions

/-- What a node with this role and name does when it processes a message. -/
def Role.process (role : Role) (name : String) (reactions : Reactions)
    (msg : Transport.Message) : Reactions :=
  match publicationOf msg with
  | none => reactions
  | some p => reactions.addReaction p.author p.id (role.reactToPublication name p)

section

variable {role : Role} {name : String} {msgs : List Transport.Message} {author id : String}
  {reactions : Reactions}

/-- A reaction comes from a message. -/
theorem Role.exists_of_get_process {value : Bool}
    (h : (msgs.foldl (role.process name) reactions).get author id = some value) :
    reactions.get author id = some value ∨ ∃ msg ∈ msgs, ∃ p, publicationOf msg = some p ∧
      p.author = author ∧ p.id = id ∧ role.reactToPublication name p = value := by
  induction msgs generalizing reactions with
  | nil => exact .inl h
  | cons msg msgs ih =>
      rw [List.foldl_cons] at h
      rcases ih h with h | ⟨msg', hmsg', hp⟩
      · cases hmsg : publicationOf msg with
        | none =>
            rw [process, hmsg] at h
            exact .inl h
        | some p =>
            rw [process, hmsg, Reactions.get_addReaction] at h
            split at h
            · next heq =>
                exact .inr ⟨msg, List.mem_cons_self, p, hmsg, heq.1.symm, heq.2.symm,
                  Option.some.inj h⟩
            · exact .inl h
      · exact .inr ⟨msg', List.mem_cons_of_mem msg hmsg', hp⟩

theorem Role.isSome_get_process (h : (reactions.get author id).isSome) :
    ((msgs.foldl (role.process name) reactions).get author id).isSome := by
  induction msgs generalizing reactions with
  | nil => exact h
  | cons msg msgs ih =>
      rw [List.foldl_cons]
      apply ih
      unfold process
      split
      · exact h
      · rw [Reactions.get_addReaction]
        split
        · rfl
        · exact h

/-- A message with a publication leads to a reaction. -/
theorem Role.isSome_get_of_mem {msg : Transport.Message} {p : BinaryPublication}
    (hmem : msg ∈ msgs) (hmsg : publicationOf msg = some p) :
    ((msgs.foldl (role.process name) reactions).get p.author p.id).isSome := by
  obtain ⟨before, after, rfl⟩ := List.append_of_mem hmem
  rw [List.foldl_append, List.foldl_cons]
  apply isSome_get_process
  rw [process, hmsg, Reactions.get_addReaction, if_pos ⟨rfl, rfl⟩]
  rfl

end

end Minotor.Social
