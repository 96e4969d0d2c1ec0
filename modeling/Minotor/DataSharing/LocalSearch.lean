import Minotor.DataSharing.Network

/-!
# The search in the node's own stores

`SearchFirst` first asks `localFullyKnowsFile`, which goes through the naming
store until its callback returns `false`.  The callback does so for a name which
it has found, and also for a name which does not match.
-/

namespace Minotor.DataSharing

variable {P : Type*}

namespace Node

/-- The metafile of the name and all its chunks are in the blob store. -/
def FullyKnows (n : Node P) (name : Bytes) : Prop :=
  ∃ metahash metafile, n.naming.get name = some metahash ∧
    n.blobs.get metahash = some metafile ∧
    ∀ c ∈ metafile.splitOn 0x0a, ∃ chunk, n.blobs.get c = some chunk

/-- A name which is not empty, matches the pattern and is fully known. -/
structure FullMatch (n : Node P) (matchString : Bytes → Bool) (name : Bytes) : Prop where
  nonempty : name ≠ []
  matches_eq : matchString name = true
  known : n.FullyKnows name

/-- The local search finds a full match if there is one. -/
def FindsFullMatch (n : Node P) (matchString : Bytes → Bool) (order : List Bytes) : Prop :=
  n.FullMatch matchString (n.localFullyKnowsFile matchString order) ↔
    ∃ name, n.FullMatch matchString name

/-- `SearchFirst` returns at once, without a request. -/
def ReturnsAtOnce [DecidableEq P] (conf : Conf P) (n : Node P) (pattern : Bytes)
    (order : List Bytes) : Prop :=
  ∀ myAddr id ring neighbours,
    ∃ name, n.searchFirst conf myAddr id pattern ring order neighbours =
      some { n with
        searchFirsts := n.searchFirsts ++
          [⟨id, pattern, ring, ring.initial, 1, none, .returned name⟩] }

/-- The walk through the naming store comes to a full match, and before it only
to names which match and are not fully known. -/
def MeetsFullMatch (n : Node P) (matchString : Bytes → Bool) (order : List Bytes) : Prop :=
  ∃ before name rest, order = before ++ name :: rest ∧
    (∀ key ∈ before, matchString key = true ∧ ¬n.FullyKnows key) ∧
    n.FullMatch matchString name

variable {n : Node P} {matchString : Bytes → Bool} {order : List Bytes} {name : Bytes}

theorem fullyKnows_iff {metafile : Bytes}
    (h : (n.naming.get name).bind n.blobs.get = some metafile) :
    n.FullyKnows name ↔
      ((metafile.splitOn 0x0a).all fun c => (n.blobs.get c).isSome) = true := by
  obtain ⟨metahash, hnaming, hblob⟩ := Option.bind_eq_some_iff.mp h
  simp only [List.all_eq_true, Option.isSome_iff_exists]
  constructor
  · rintro ⟨metahash', metafile', hnaming', hblob', hchunks⟩
    obtain rfl := Option.some.inj (hnaming.symm.trans hnaming')
    obtain rfl := Option.some.inj (hblob.symm.trans hblob')
    exact hchunks
  · intro hchunks
    exact ⟨metahash, metafile, hnaming, hblob, hchunks⟩

/-- The callback stops at a name which does not match. -/
theorem localFullyKnowsFile_of_not_matches (hname : matchString name = false)
    (rest : List Bytes) : n.localFullyKnowsFile matchString (name :: rest) = [] := by
  rw [localFullyKnowsFile, if_pos hname]

/-- The callback stops at a match which is fully known. -/
theorem localFullyKnowsFile_of_fullyKnows (hname : matchString name = true)
    (hknown : n.FullyKnows name) (rest : List Bytes) :
    n.localFullyKnowsFile matchString (name :: rest) = name := by
  obtain ⟨metahash, metafile, hnaming, hblob, -⟩ := id hknown
  have hbind : (n.naming.get name).bind n.blobs.get = some metafile := by
    rw [hnaming, Option.bind_some, hblob]
  rw [localFullyKnowsFile, if_neg (by simp [hname])]
  simp only [hbind]
  rw [if_pos ((fullyKnows_iff hbind).mp hknown)]

/-- The callback goes on after a match which is not fully known. -/
theorem localFullyKnowsFile_of_not_fullyKnows (hname : matchString name = true)
    (hknown : ¬n.FullyKnows name) (rest : List Bytes) :
    n.localFullyKnowsFile matchString (name :: rest) =
      n.localFullyKnowsFile matchString rest := by
  rw [localFullyKnowsFile, if_neg (by simp [hname])]
  split
  · rfl
  · next metafile hbind =>
    rw [fullyKnows_iff hbind] at hknown
    rw [if_neg hknown]

theorem MeetsFullMatch.eq (h : n.MeetsFullMatch matchString order) :
    n.FullMatch matchString (n.localFullyKnowsFile matchString order) := by
  obtain ⟨before, name, rest, rfl, hbefore, hname⟩ := h
  induction before with
  | nil =>
      rw [List.nil_append, localFullyKnowsFile_of_fullyKnows hname.matches_eq hname.known]
      exact hname
  | cons key before ih =>
      rw [List.forall_mem_cons] at hbefore
      rw [List.cons_append, localFullyKnowsFile_of_not_fullyKnows hbefore.1.1 hbefore.1.2]
      exact ih hbefore.2

/-- A name is returned only if the walk comes to it. -/
theorem meetsFullMatch_of_ne_nil (h : n.localFullyKnowsFile matchString order ≠ []) :
    n.MeetsFullMatch matchString order := by
  induction order with
  | nil => exact absurd rfl h
  | cons key order ih =>
      cases hkey : matchString key with
      | false => exact absurd (localFullyKnowsFile_of_not_matches hkey order) h
      | true =>
          by_cases hknown : n.FullyKnows key
          · rw [localFullyKnowsFile_of_fullyKnows hkey hknown] at h
            exact ⟨[], key, order, rfl, List.forall_mem_nil _, h, hkey, hknown⟩
          · rw [localFullyKnowsFile_of_not_fullyKnows hkey hknown] at h
            obtain ⟨before, name, rest, rfl, hbefore, hname⟩ := ih h
            exact ⟨key :: before, name, rest, rfl,
              List.forall_mem_cons.mpr ⟨⟨hkey, hknown⟩, hbefore⟩, hname⟩

theorem returnsAtOnce_of_ne_nil [DecidableEq P] {conf : Conf P} {pattern : Bytes}
    (hcompile : conf.compile pattern = some matchString)
    (h : n.localFullyKnowsFile matchString order ≠ []) :
    n.ReturnsAtOnce conf pattern order := by
  intro myAddr id ring neighbours
  refine ⟨n.localFullyKnowsFile matchString order, ?_⟩
  rw [searchFirst, hcompile, Option.map_some, if_pos h]

end Node

/-- For all stores, every pattern and every order of the naming store the local
search finds a full match if there is one, and `SearchFirst` then sends no
request, exactly if there is no full match or the walk comes to one before any
name which does not match and before the empty name, if that is fully known. -/
theorem local_search_complete_iff [DecidableEq P] (n : Node P) (matchString : Bytes → Bool)
    (order : List Bytes) :
    (n.FindsFullMatch matchString order ∧
      ((∃ name, n.FullMatch matchString name) → ∀ conf pattern,
        conf.compile pattern = some matchString → n.ReturnsAtOnce conf pattern order)) ↔
      (¬∃ name, n.FullMatch matchString name) ∨ n.MeetsFullMatch matchString order := by
  constructor
  · rintro ⟨hfinds, -⟩
    by_cases hmatch : ∃ name, n.FullMatch matchString name
    · exact .inr (Node.meetsFullMatch_of_ne_nil (hfinds.mpr hmatch).nonempty)
    · exact .inl hmatch
  · rintro (hnone | hmeets)
    · constructor
      · exact ⟨fun hname => ⟨_, hname⟩, fun hname => absurd hname hnone⟩
      · exact fun hname => absurd hname hnone
    · have hname := hmeets.eq
      constructor
      · exact ⟨fun _ => ⟨_, hname⟩, fun _ => hname⟩
      · intro _ conf pattern hcompile
        exact Node.returnsAtOnce_of_ne_nil hcompile hname.nonempty

/-- A node with the files `x` and `a`; the metafile of both has one chunk. -/
def twoNames : Node ℕ :=
  Setup.start
    { blobs := ByteStore.setAll .empty [([0x6d], [0x63]), ([0x63], [0x64])]
      naming := ByteStore.setAll .empty [([0x78], [0x6d]), ([0x61], [0x6d])]
      catalog := []
      routingTable := .new }

/-- A pattern which only `a` matches is searched for, and the walk begins with
`x`. -/
theorem local_search_misses :
    let matchString : Bytes → Bool := fun name => name = [0x61]
    twoNames.Visits [[0x78], [0x61]] ∧ twoNames.FullMatch matchString [0x61] ∧
      twoNames.localFullyKnowsFile matchString [[0x78], [0x61]] = [] ∧
      ¬twoNames.FindsFullMatch matchString [[0x78], [0x61]] := by
  intro matchString
  have hbind : (twoNames.naming.get [0x61]).bind twoNames.blobs.get = some [0x63] := by
    decide
  have hmatch : twoNames.FullMatch matchString [0x61] :=
    ⟨by decide, by decide, (Node.fullyKnows_iff hbind).mpr (by decide)⟩
  have hempty : twoNames.localFullyKnowsFile matchString [[0x78], [0x61]] = [] := by decide
  refine ⟨by decide, hmatch, hempty, fun hfinds => ?_⟩
  exact (hfinds.mpr ⟨_, hmatch⟩).nonempty hempty

end Minotor.DataSharing
