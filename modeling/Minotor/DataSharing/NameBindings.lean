import Minotor.DataSharing.Node

/-!
# Names in search replies

A search reply binds every name it carries, also a name which the naming store
binds already.  After the reply the name is bound to the metahash of the last
response with this name.
-/

namespace Minotor.DataSharing

variable {P : Type*}

/-- A `types.SearchReplyMessage` and its source. -/
structure SearchReply (P : Type*) where
  requestID : ℕ
  responses : List FileInfo
  source : P

/-- The metahash of the last response with this name. -/
def lastMetahash (responses : List FileInfo) (name : Bytes) : Option Bytes :=
  (responses.reverse.find? (·.name = name)).map (·.metahash)

theorem lastMetahash_append (responses : List FileInfo) (res : FileInfo) (name : Bytes) :
    lastMetahash (responses ++ [res]) name =
      if res.name = name then some res.metahash else lastMetahash responses name := by
  rw [lastMetahash, List.reverse_append, List.reverse_singleton, List.singleton_append,
    List.find?_cons]
  by_cases hname : res.name = name
  · simp [hname]
  · simp [hname, lastMetahash]

/-- A loop over the responses which binds the name of each. -/
theorem get_foldl {σ : Type*} {f : σ → FileInfo → σ} {N : σ → ByteStore}
    (hf : ∀ s res, N (f s res) = (N s).set res.name res.metahash) (s : σ)
    (responses : List FileInfo) (name : Bytes) :
    (N (responses.foldl f s)).get name =
      (lastMetahash responses name).or ((N s).get name) := by
  induction responses using List.reverseRecOn with
  | nil => rfl
  | append_singleton responses res ih =>
      rw [List.foldl_append, List.foldl_cons, List.foldl_nil, lastMetahash_append, hf,
        ByteStore.get_set, ih]
      by_cases hname : name = res.name
      · rw [if_pos hname, if_pos hname.symm, Option.some_or]
      · rw [if_neg hname, if_neg (Ne.symm hname)]

namespace Node

variable [DecidableEq P]

/-- The replies are handled one after the other. -/
def execReplies (n : Node P) (replies : List (SearchReply P)) : Node P :=
  replies.foldl (fun n reply => n.execSearchReplyMessage reply.requestID reply.responses
    reply.source) n

/-- The name is bound to the metahash. -/
def Binds (n : Node P) (name metahash : Bytes) : Prop := n.naming.get name = some metahash

/-- The last response of the reply with a bound name has the metahash to which the
name is bound. -/
def AgreesWith (n : Node P) (reply : SearchReply P) : Prop :=
  ∀ name metahash, n.Binds name metahash →
    ∀ metahash', lastMetahash reply.responses name = some metahash' → metahash' = metahash

/-- The second loop binds the names to what they are bound to. -/
theorem naming_checkAvailabilityAndTrigger (n : Node P) (requestID : ℕ)
    (responses : List FileInfo) (source : P) (name : Bytes) :
    (n.checkAvailabilityAndTrigger requestID responses source).naming.get name =
        (lastMetahash responses name).or (n.naming.get name) ∨
      (n.checkAvailabilityAndTrigger requestID responses source).naming.get name =
        n.naming.get name := by
  rw [checkAvailabilityAndTrigger]
  split
  · left
    have hloop := get_foldl (f := checkResponse requestID source) (N := fun s => s.1.naming)
      (fun _ _ => rfl) (n, none) responses name
    rw [← hloop]
    split
    · next heq => rw [heq]
    · next heq =>
      rw [heq]
      rfl
  · exact .inr rfl

/-- What a reply binds a name to. -/
theorem naming_execSearchReplyMessage (n : Node P) (requestID : ℕ)
    (responses : List FileInfo) (source : P) (name : Bytes) :
    (n.execSearchReplyMessage requestID responses source).naming.get name =
      (lastMetahash responses name).or (n.naming.get name) := by
  have hfirst := get_foldl (f := execResponse requestID source) (N := naming)
    (fun _ _ => rfl) n responses name
  rw [execSearchReplyMessage]
  rcases naming_checkAvailabilityAndTrigger
    (responses.foldl (execResponse requestID source) n) requestID responses source name
    with heq | heq
  · rw [heq, hfirst, ← Option.or_assoc, Option.or_self]
  · rw [heq, hfirst]

variable {n n' : Node P} {reply : SearchReply P} {replies : List (SearchReply P)}

/-- A reply keeps the names of `n`, which are bound so far, exactly if it agrees
with them. -/
theorem binds_execReplies_singleton (hkept : ∀ name metahash, n.Binds name metahash →
      n'.Binds name metahash) :
    (∀ name metahash, n.Binds name metahash →
      (n'.execReplies [reply]).Binds name metahash) ↔ n.AgreesWith reply := by
  constructor
  · intro h name metahash hbinds metahash' hlast
    have hafter := h name metahash hbinds
    rw [Binds, execReplies, List.foldl_cons, List.foldl_nil, naming_execSearchReplyMessage,
      hlast, Option.some_or] at hafter
    exact Option.some.inj hafter
  · intro h name metahash hbinds
    rw [Binds, execReplies, List.foldl_cons, List.foldl_nil, naming_execSearchReplyMessage]
    cases hlast : lastMetahash reply.responses name with
    | none =>
        rw [Option.none_or]
        exact hkept name metahash hbinds
    | some metahash' =>
        rw [Option.some_or, h name metahash hbinds metahash' hlast]

end Node

/-- A node which binds the name `a`. -/
def bindsA : Node ℕ :=
  Setup.start ⟨.empty, ByteStore.empty.set [0x61] [0x6d], [], .new⟩

end Minotor.DataSharing
