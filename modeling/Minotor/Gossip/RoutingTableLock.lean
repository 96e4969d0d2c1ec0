import Minotor.Gossip.RoutingTable
import Minotor.Support.Linearizable

/-!
# The lock of the routing table

The methods of `nodeRT.go` statement by statement under the lock of the table.  Every history
of concurrent calls is that of the functions of `NodeRT` called one after the other, as the
gossip layer calls them.
-/

namespace Minotor.Gossip

variable {P : Type*}

/-- A call of a method of `nodeRT` with its arguments; `getNeighbours` comes with the order
into which it shuffles. -/
inductive TableCall (P : Type*) where
  | addEntry (k v : P)
  | addEntries (addr : List P)
  | getAddr (dest : P)
  | delete (key : P)
  | getNeighbours (shuffle : Arrangement P)
  | updateRT (source relay : P)

inductive TableResult (P : Type*) where
  | done
  | addr (addr : Option P)
  | neighbours (addrs : List P)

/-- What a method has in hand. -/
inductive TableLocal (P : Type*) where
  | start
  | done
  /-- the addresses which `addEntries` is still to add -/
  | adding (rest : List P)
  /-- `addEntries` has written the entry and is to append the neighbour -/
  | appending (k : P) (rest : List P)
  /-- the copy of the first neighbours -/
  | copying (n : ℕ) (copyN : List P)
  /-- the neighbours which `updateRT` is still to compare with the source -/
  | comparing (rest : List P)
  /-- `updateRT` is to write the entry -/
  | writing

/-- What a method does next. -/
abbrev TableStep (P : Type*) :=
  TableLocal P → NodeRT P → (TableLocal P × NodeRT P) ⊕ TableResult P

namespace TableCall

variable [DecidableEq P]

/-- Statements of `addEntry`. -/
def addEntryStep (k v : P) : TableStep P
  | .start, nRT => .inl (.done, { nRT with routingTable := nRT.routingTable.insert k v })
  | _, _ => .inr .done

/-- Statements of `addEntries`. -/
def addEntriesStep (addr : List P) : TableStep P
  | .start, nRT => .inl (.adding addr, nRT)
  | .adding (k :: rest), nRT =>
      .inl (.appending k rest, { nRT with routingTable := nRT.routingTable.insert k k })
  | .appending k rest, nRT => .inl (.adding rest, { nRT with neighbours := nRT.neighbours ++ [k] })
  | _, _ => .inr .done

/-- Statements of `getAddr`. -/
def getAddrStep (dest : P) : TableStep P
  | _, nRT => .inr (.addr (nRT.routingTable.lookup dest))

/-- Statements of `delete`. -/
def deleteStep (key : P) : TableStep P
  | .start, nRT => .inl (.done, { nRT with routingTable := nRT.routingTable.erase key })
  | _, _ => .inr .done

/-- Statements of `getNeighbours`. -/
def getNeighboursStep (shuffle : Arrangement P) : TableStep P
  | .copying n copyN, nRT =>
      match nextToCopy nRT.neighbours copyN n with
      | some k => .inl (.copying n (copyN ++ [k]), nRT)
      | none => .inr (.neighbours (shuffle.1 copyN))
  | _, nRT => .inl (.copying nRT.neighbours.length [], nRT)

/-- Statements of `updateRT`. -/
def updateRTStep (source relay : P) : TableStep P
  | .start, nRT => .inl (.comparing nRT.neighbours, nRT)
  | .comparing (n :: rest), nRT =>
      if source = n then .inr .done else .inl (.comparing rest, nRT)
  | .comparing [], nRT =>
      .inl (.writing,
        if source = relay then { nRT with neighbours := nRT.neighbours ++ [source] } else nRT)
  | .writing, nRT =>
      .inl (.done, { nRT with routingTable := nRT.routingTable.insert source relay })
  | _, _ => .inr .done

/-- The body of a method. -/
def step : TableCall P → TableStep P
  | .addEntry k v => addEntryStep k v
  | .addEntries addr => addEntriesStep addr
  | .getAddr dest => getAddrStep dest
  | .delete key => deleteStep key
  | .getNeighbours shuffle => getNeighboursStep shuffle
  | .updateRT source relay => updateRTStep source relay

/-- The methods which take the lock for writing. -/
def writes : TableCall P → Bool
  | .getAddr _ => false
  | .getNeighbours _ => false
  | _ => true

omit [DecidableEq P] in
theorem getNeighboursStep_reads {shuffle : Arrangement P} {l l' : TableLocal P}
    {nRT nRT' : NodeRT P} (h : getNeighboursStep shuffle l nRT = .inl (l', nRT')) :
    nRT' = nRT := by
  cases l with
  | copying n copyN =>
      simp only [getNeighboursStep] at h
      split at h
      · cases h
        rfl
      · cases h
  | _ =>
      cases h
      rfl

/-- The methods of the routing table. -/
def methods : Methods (NodeRT P) (TableLocal P) (TableCall P) (TableResult P) where
  writes := writes
  start _ := .start
  move := step
  readonly i l s l' s' hw h := by
    cases i with
    | getAddr dest => cases h
    | getNeighbours shuffle => exact getNeighboursStep_reads h
    | _ => cases hw

/-- The table and the result after a call of a function of the gossip layer. -/
def call (nRT : NodeRT P) : TableCall P → NodeRT P × TableResult P
  | .addEntry k v => (nRT.addEntry k v, .done)
  | .addEntries addr => (nRT.addEntries addr, .done)
  | .getAddr dest => (nRT, .addr (nRT.getAddr dest))
  | .delete key => (nRT.delete key, .done)
  | .getNeighbours shuffle => (nRT, .neighbours (shuffle.1 nRT.neighbours))
  | .updateRT source relay => (nRT.updateRT source relay, .done)

/-! ## The bodies -/

section

variable {s s' : NodeRT P} {o : TableResult P}

/-- Methods which change the table in their first step and end. -/
theorem body_of_changes {i : TableCall P} {f : NodeRT P → NodeRT P}
    (hstart : ∀ t, i.step .start t = .inl (.done, f t))
    (hdone : ∀ t, i.step .done t = .inr .done) (h : methods.Body i s o s') :
    (f s, .done) = (s', o) := by
  obtain ⟨l, hI, hend⟩ := h.invariant
    (I := fun l t => l = .start ∧ t = s ∨ l = .done ∧ t = f s) (Or.inl ⟨rfl, rfl⟩) (by
      rintro l t l' t' (⟨rfl, rfl⟩ | ⟨rfl, rfl⟩) hmove
      · cases (hstart t).symm.trans hmove
        exact Or.inr ⟨rfl, rfl⟩
      · cases (hdone _).symm.trans hmove)
  rcases hI with ⟨rfl, rfl⟩ | ⟨rfl, rfl⟩
  · cases (hstart s').symm.trans hend
  · cases (hdone _).symm.trans hend
    rfl

/-- The loop of `addEntries`: what is added so far and what is still to add make up the result. -/
theorem addEntries_body {addr : List P} (h : methods.Body (.addEntries addr) s o s') :
    call s (.addEntries addr) = (s', o) := by
  obtain ⟨l, hI, hend⟩ := h.invariant
    (I := fun l t =>
      (l = .start ∧ t = s) ∨
      (∃ rest, l = .adding rest ∧ t.addEntries rest = s.addEntries addr) ∨
      ∃ k rest, l = .appending k rest ∧
        NodeRT.addEntries { t with neighbours := t.neighbours ++ [k] } rest = s.addEntries addr)
    (Or.inl ⟨rfl, rfl⟩) (by
      rintro l t l' t' (⟨rfl, rfl⟩ | ⟨rest, rfl, heq⟩ | ⟨k, rest, rfl, heq⟩) hmove
      · cases hmove
        exact Or.inr (Or.inl ⟨addr, rfl, rfl⟩)
      · cases rest with
        | nil => cases hmove
        | cons k rest =>
            cases hmove
            exact Or.inr (Or.inr ⟨k, rest, rfl, heq⟩)
      · cases hmove
        exact Or.inr (Or.inl ⟨rest, rfl, heq⟩))
  rcases hI with ⟨rfl, rfl⟩ | ⟨rest, rfl, heq⟩ | ⟨k, rest, rfl, heq⟩
  · cases hend
  · cases rest with
    | nil =>
        cases hend
        rw [call, ← heq]
        rfl
    | cons k rest => cases hend
  · cases hend

theorem getAddr_body {dest : P} (h : methods.Body (.getAddr dest) s o s') :
    call s (.getAddr dest) = (s', o) := by
  obtain ⟨l, rfl, hend⟩ := h.invariant (I := fun _ t => t = s) rfl
    (fun _ _ _ _ _ hmove => by cases hmove)
  cases hend
  rfl

theorem getNeighbours_body {shuffle : Arrangement P}
    (h : methods.Body (.getNeighbours shuffle) s o s') :
    call s (.getNeighbours shuffle) = (s', o) := by
  obtain ⟨l, hI, hend⟩ := h.invariant
    (I := fun l t => t = s ∧ (l = .start ∨
      ∃ copyN, l = .copying s.neighbours.length copyN ∧ copyN <+: s.neighbours))
    ⟨rfl, Or.inl rfl⟩ (by
      rintro l t l' t' ⟨rfl, rfl | ⟨copyN, rfl, hcopy⟩⟩ hmove
      · cases hmove
        exact ⟨rfl, Or.inr ⟨[], rfl, List.nil_prefix⟩⟩
      · have hsame : getNeighboursStep shuffle (.copying t.neighbours.length copyN) t =
            .inl (l', t') := hmove
        obtain rfl := getNeighboursStep_reads hsame
        simp only [methods, step, getNeighboursStep] at hmove
        split at hmove
        · next k hk =>
            cases hmove
            exact ⟨rfl, Or.inr ⟨_, rfl, prefix_concat_of_nextToCopy hcopy hk⟩⟩
        · cases hmove)
  obtain ⟨rfl, rfl | ⟨copyN, rfl, hcopy⟩⟩ := hI
  · cases hend
  · simp only [methods, step, getNeighboursStep] at hend
    split at hend
    · cases hend
    · next hnone =>
        cases hend
        rw [eq_of_nextToCopy hcopy hnone]
        rfl

/-- `updateRT` ends early if the source is a neighbour. -/
theorem updateRT_body {source relay : P} (h : methods.Body (.updateRT source relay) s o s') :
    call s (.updateRT source relay) = (s', o) := by
  obtain ⟨l, hI, hend⟩ := h.invariant
    (I := fun l t =>
      (l = .start ∧ t = s) ∨
      (∃ seen rest, l = .comparing rest ∧ t = s ∧ seen ++ rest = s.neighbours ∧ source ∉ seen) ∨
      (l = .writing ∧ source ∉ s.neighbours ∧
        t = if source = relay then { s with neighbours := s.neighbours ++ [source] } else s) ∨
      (l = .done ∧ t = s.updateRT source relay))
    (Or.inl ⟨rfl, rfl⟩) (by
      rintro l t l' t' (⟨rfl, rfl⟩ | ⟨seen, rest, rfl, rfl, heq, hnot⟩ | ⟨rfl, hnot, rfl⟩ |
        ⟨rfl, rfl⟩) hmove
      · cases hmove
        exact Or.inr (Or.inl ⟨[], _, rfl, rfl, rfl, List.not_mem_nil⟩)
      · cases rest with
        | nil =>
            cases hmove
            rw [List.append_nil] at heq
            exact Or.inr (Or.inr (Or.inl ⟨rfl, heq ▸ hnot, rfl⟩))
        | cons n rest =>
            simp only [methods, step, updateRTStep] at hmove
            split at hmove
            · cases hmove
            · next hne =>
                cases hmove
                refine Or.inr (Or.inl ⟨seen ++ [n], rest, rfl, rfl, ?_, ?_⟩)
                · rw [List.append_assoc]
                  exact heq
                · rw [List.mem_append, List.mem_singleton]
                  exact not_or.mpr ⟨hnot, hne⟩
      · cases hmove
        refine Or.inr (Or.inr (Or.inr ⟨rfl, ?_⟩))
        rw [NodeRT.updateRT, if_neg hnot]
        split <;> rfl
      · cases hmove)
  rcases hI with ⟨rfl, rfl⟩ | ⟨seen, rest, rfl, rfl, heq, hnot⟩ | ⟨rfl, hnot, rfl⟩ | ⟨rfl, rfl⟩
  · cases hend
  · cases rest with
    | nil => cases hend
    | cons n rest =>
        simp only [methods, step, updateRTStep] at hend
        split at hend
        · next hsource =>
            cases hend
            have hmem : source ∈ s'.neighbours := by
              rw [← heq, hsource]
              exact List.mem_append_right _ List.mem_cons_self
            rw [call, NodeRT.updateRT, if_pos hmem]
        · cases hend
  · cases hend
  · cases hend
    rfl

/-- The body of each method does what the function does at once. -/
theorem call_of_body (i : TableCall P) (h : methods.Body i s o s') : call s i = (s', o) := by
  cases i with
  | addEntry k v => exact body_of_changes (fun _ => rfl) (fun _ => rfl) h
  | addEntries addr => exact addEntries_body h
  | getAddr dest => exact getAddr_body h
  | delete key => exact body_of_changes (fun _ => rfl) (fun _ => rfl) h
  | getNeighbours shuffle => exact getNeighbours_body h
  | updateRT source relay => exact updateRT_body h

end

/-- The calls of the methods of a routing table are linearizable: the functions of the gossip
layer may be taken for them. -/
theorem table_linearizes {st : Protected (NodeRT P) (TableLocal P) (TableCall P) (TableResult P)}
    {hist : List (CallEvent (TableCall P) (TableResult P))}
    {lin : List (ℕ × TableCall P × TableResult P)} {s₀ : NodeRT P}
    (h : (methods.traced s₀).Reachable (st, hist, lin)) :
    Linearizes (fun i s o s' => call s i = (s', o)) s₀ hist lin :=
  (Methods.linearizes h).map id fun i _ _ _ hbody => call_of_body i hbody

theorem table_linearizes_sample : ∃ st hist lin,
    (methods.traced (NodeRT.new (P := ℕ))).Reachable (st, hist, lin) ∧ lin.length = 2 ∧
      Linearizes (fun i s o s' => call s i = (s', o)) NodeRT.new hist lin := by
  obtain ⟨⟨st, hist, lin⟩, hreach, hlin⟩ :=
    (methods.traced (NodeRT.new (P := ℕ))).exists_of_replay (fun _ _ => True)
      ([.invoke (.updateRT 1 1), .invoke (.getAddr 1)] ++ List.replicate 7 (.run 0) ++
        List.replicate 4 (.run 1))
      (fun s => s.2.2.length = 2) (by decide +kernel)
  exact ⟨st, hist, lin, hreach, hlin, table_linearizes hreach⟩

end TableCall

end Minotor.Gossip
