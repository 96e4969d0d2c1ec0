import Minotor.Support.Linearizable

/-!
# Concurrent slices

`Slice` of `datastructures/concurrent`.  Its methods run step by step under the lock of the
slice; the loops read the slice in each turn.

Every history of concurrent calls is that of the same calls made one after the other.
-/

namespace Minotor.Concurrent

variable {T : Type*}

/-- A call of a method of `Slice` with its arguments.  `RandomElement` takes what the source
of randomness draws. -/
inductive SliceCall (T : Type*) where
  | append (elem : T)
  | appendAll (elems : List T)
  | elements
  | get (i : ℤ)
  | randomElement (draw : ℕ)
  | len
  | forEach
  | find (predicate : T → Bool)

inductive SliceResult (T : Type*) where
  | done
  | elements (res : List T)
  | element (elem : T)
  /-- an index out of range -/
  | panicked
  | random (res : Except String T)
  | len (n : ℕ)
  /-- the elements which the consumer was called with -/
  | consumed (elems : List T)
  | found (res : Option T)

/-- What a method has in hand. -/
inductive SliceLocal (T : Type*) where
  | start
  | done
  | copying (n : ℕ) (res : List T)
  | drawn (idx : ℕ)
  | ranging (rest seen : List T)

/-- What a method does next. -/
abbrev SliceStep (T : Type*) := SliceLocal T → List T → (SliceLocal T × List T) ⊕ SliceResult T

namespace Slice

/-- `Append`. -/
def append (elem : T) : SliceStep T
  | .start, s => .inl (.done, s ++ [elem])
  | _, _ => .inr .done

/-- `AppendAll`. -/
def appendAll (elems : List T) : SliceStep T
  | .start, s => .inl (.done, s ++ elems)
  | _, _ => .inr .done

/-- `Elements`; `copy` goes on as long as there is an element. -/
def elements : SliceStep T
  | .copying n res, s =>
      match nextToCopy s res n with
      | some elem => .inl (.copying n (res ++ [elem]), s)
      | none => .inr (.elements res)
  | _, s => .inl (.copying s.length [], s)

/-- `Get`. -/
def get (i : ℤ) : SliceStep T
  | _, s =>
      match if i < 0 then none else s[i.toNat]? with
      | some elem => .inr (.element elem)
      | none => .inr .panicked

/-- `RandomElement`. -/
def randomElement (draw : ℕ) : SliceStep T
  | .drawn idx, s =>
      match s[idx]? with
      | some elem => .inr (.random (.ok elem))
      | none => .inr .panicked
  | _, s =>
      if s.length = 0 then .inr (.random (.error "empty slice"))
      else .inl (.drawn (draw % s.length), s)

/-- `Len`. -/
def len : SliceStep T
  | _, s => .inr (.len s.length)

/-- `ForEach`. -/
def forEach : SliceStep T
  | .ranging [] seen, _ => .inr (.consumed seen)
  | .ranging (elem :: rest) seen, s => .inl (.ranging rest (seen ++ [elem]), s)
  | _, s => .inl (.ranging s [], s)

/-- `Find`. -/
def find (predicate : T → Bool) : SliceStep T
  | .ranging [] _, _ => .inr (.found none)
  | .ranging (elem :: rest) seen, s =>
      if predicate elem then .inr (.found (some elem))
      else .inl (.ranging rest (seen ++ [elem]), s)
  | _, s => .inl (.ranging s [], s)

end Slice

/-- The body of a method. -/
def SliceCall.step : SliceCall T → SliceStep T
  | .append elem => Slice.append elem
  | .appendAll elems => Slice.appendAll elems
  | .elements => Slice.elements
  | .get i => Slice.get i
  | .randomElement draw => Slice.randomElement draw
  | .len => Slice.len
  | .forEach => Slice.forEach
  | .find predicate => Slice.find predicate

/-- The methods which take the lock for writing. -/
def SliceCall.writes : SliceCall T → Bool
  | .append _ => true
  | .appendAll _ => true
  | .elements => true
  | _ => false

/-- A method which changes nothing. -/
def SliceStep.Reads (step : SliceStep T) : Prop :=
  ∀ l s l' s', step l s = .inl (l', s') → s' = s

namespace Slice

theorem elements_reads : SliceStep.Reads (elements (T := T)) := by
  intro l s l' s' h
  cases l with
  | copying n res =>
      simp only [elements] at h
      split at h
      · cases h
        rfl
      · cases h
  | _ =>
      cases h
      rfl

theorem get_reads (i : ℤ) : SliceStep.Reads (get (T := T) i) := by
  intro l s l' s' h
  simp only [get] at h
  split at h
  · cases h
  · cases h

theorem randomElement_reads (draw : ℕ) : SliceStep.Reads (randomElement (T := T) draw) := by
  intro l s l' s' h
  cases l with
  | drawn idx =>
      simp only [randomElement] at h
      split at h
      · cases h
      · cases h
  | _ =>
      simp only [randomElement] at h
      split at h
      · cases h
      · cases h
        rfl

theorem forEach_reads : SliceStep.Reads (forEach (T := T)) := by
  intro l s l' s' h
  cases l with
  | ranging rest seen =>
      cases rest with
      | nil => cases h
      | cons elem rest =>
          cases h
          rfl
  | _ =>
      cases h
      rfl

theorem find_reads (predicate : T → Bool) : SliceStep.Reads (find predicate) := by
  intro l s l' s' h
  cases l with
  | ranging rest seen =>
      cases rest with
      | nil => cases h
      | cons elem rest =>
          simp only [find] at h
          split at h
          · cases h
          · cases h
            rfl
  | _ =>
      cases h
      rfl

end Slice

/-- The methods of a slice. -/
def sliceMethods : Methods (List T) (SliceLocal T) (SliceCall T) (SliceResult T) where
  writes := SliceCall.writes
  start _ := .start
  move := SliceCall.step
  readonly i l s l' s' hw h := by
    cases i with
    | append elem => cases hw
    | appendAll elems => cases hw
    | elements => cases hw
    | get i => exact Slice.get_reads i l s l' s' h
    | randomElement draw => exact Slice.randomElement_reads draw l s l' s' h
    | len => cases h
    | forEach => exact Slice.forEach_reads l s l' s' h
    | find predicate => exact Slice.find_reads predicate l s l' s' h

/-! ## One call after the other -/

/-- The slice and the result after a call which is executed at once. -/
def callSlice (s : List T) : SliceCall T → List T × SliceResult T
  | .append elem => (s ++ [elem], .done)
  | .appendAll elems => (s ++ elems, .done)
  | .elements => (s, .elements s)
  | .get i =>
      (s, match if i < 0 then none else s[i.toNat]? with
        | some elem => .element elem
        | none => .panicked)
  | .randomElement draw =>
      (s, .random (match s[draw % s.length]? with
        | some elem => .ok elem
        | none => .error "empty slice"))
  | .len => (s, .len s.length)
  | .forEach => (s, .consumed s)
  | .find predicate => (s, .found (s.find? predicate))

section

variable {s s' : List T} {o : SliceResult T}

theorem append_body {elem : T} (h : sliceMethods.Body (.append elem) s o s') :
    callSlice s (.append elem) = (s', o) := by
  obtain ⟨l, hI, hend⟩ := h.invariant
    (I := fun l t => l = .start ∧ t = s ∨ l = .done ∧ t = s ++ [elem]) (Or.inl ⟨rfl, rfl⟩) (by
      rintro l t l' t' (⟨rfl, rfl⟩ | ⟨rfl, rfl⟩) hmove
      · cases hmove
        exact Or.inr ⟨rfl, rfl⟩
      · cases hmove)
  rcases hI with ⟨rfl, rfl⟩ | ⟨rfl, rfl⟩
  · cases hend
  · cases hend
    rfl

theorem appendAll_body {elems : List T} (h : sliceMethods.Body (.appendAll elems) s o s') :
    callSlice s (.appendAll elems) = (s', o) := by
  obtain ⟨l, hI, hend⟩ := h.invariant
    (I := fun l t => l = .start ∧ t = s ∨ l = .done ∧ t = s ++ elems) (Or.inl ⟨rfl, rfl⟩) (by
      rintro l t l' t' (⟨rfl, rfl⟩ | ⟨rfl, rfl⟩) hmove
      · cases hmove
        exact Or.inr ⟨rfl, rfl⟩
      · cases hmove)
  rcases hI with ⟨rfl, rfl⟩ | ⟨rfl, rfl⟩
  · cases hend
  · cases hend
    rfl

theorem elements_body (h : sliceMethods.Body .elements s o s') :
    callSlice s .elements = (s', o) := by
  obtain ⟨l, hI, hend⟩ := h.invariant
    (I := fun l t => t = s ∧ (l = .start ∨ ∃ res, l = .copying s.length res ∧ res <+: s))
    ⟨rfl, Or.inl rfl⟩ (by
      rintro l t l' t' ⟨rfl, rfl | ⟨res, rfl, hres⟩⟩ hmove
      · cases hmove
        exact ⟨rfl, Or.inr ⟨[], rfl, List.nil_prefix⟩⟩
      · obtain rfl : t' = t := Slice.elements_reads (.copying t.length res) t l' t' hmove
        simp only [sliceMethods, SliceCall.step, Slice.elements] at hmove
        split at hmove
        · next elem helem =>
            cases hmove
            exact ⟨rfl, Or.inr ⟨_, rfl, prefix_concat_of_nextToCopy hres helem⟩⟩
        · cases hmove)
  obtain ⟨rfl, rfl | ⟨res, rfl, hres⟩⟩ := hI
  · cases hend
  · simp only [sliceMethods, SliceCall.step, Slice.elements] at hend
    split at hend
    · cases hend
    · next hnone =>
        cases hend
        rw [eq_of_nextToCopy hres hnone]
        rfl

theorem randomElement_body {draw : ℕ} (h : sliceMethods.Body (.randomElement draw) s o s') :
    callSlice s (.randomElement draw) = (s', o) := by
  obtain ⟨l, hI, hend⟩ := h.invariant
    (I := fun l t => t = s ∧ (l = .start ∨ s.length ≠ 0 ∧ l = .drawn (draw % s.length)))
    ⟨rfl, Or.inl rfl⟩ (by
      rintro l t l' t' ⟨rfl, rfl | ⟨hne, rfl⟩⟩ hmove
      · obtain rfl : t' = t := Slice.randomElement_reads draw .start t l' t' hmove
        simp only [sliceMethods, SliceCall.step, Slice.randomElement] at hmove
        split at hmove
        · cases hmove
        · next hne =>
            cases hmove
            exact ⟨rfl, Or.inr ⟨hne, rfl⟩⟩
      · simp only [sliceMethods, SliceCall.step, Slice.randomElement] at hmove
        split at hmove
        · cases hmove
        · cases hmove)
  obtain ⟨rfl, rfl | ⟨hne, rfl⟩⟩ := hI
  · simp only [sliceMethods, SliceCall.step, Slice.randomElement] at hend
    split at hend
    · next hempty =>
        cases hend
        rw [List.length_eq_zero_iff] at hempty
        subst hempty
        rfl
    · cases hend
  · have hlt : draw % s'.length < s'.length := Nat.mod_lt _ (Nat.pos_of_ne_zero hne)
    simp only [sliceMethods, SliceCall.step, Slice.randomElement,
      List.getElem?_eq_getElem hlt] at hend
    cases hend
    simp only [callSlice, List.getElem?_eq_getElem hlt]

theorem forEach_body (h : sliceMethods.Body .forEach s o s') :
    callSlice s .forEach = (s', o) := by
  obtain ⟨l, hI, hend⟩ := h.invariant
    (I := fun l t => t = s ∧ (l = .start ∨ ∃ rest seen, l = .ranging rest seen ∧
      seen ++ rest = s)) ⟨rfl, Or.inl rfl⟩ (by
      rintro l t l' t' ⟨rfl, rfl | ⟨rest, seen, rfl, heq⟩⟩ hmove
      · cases hmove
        exact ⟨rfl, Or.inr ⟨_, [], rfl, rfl⟩⟩
      · cases rest with
        | nil => cases hmove
        | cons elem rest =>
            cases hmove
            exact ⟨rfl, Or.inr ⟨rest, _, rfl, by rw [List.append_assoc]; exact heq⟩⟩)
  obtain ⟨rfl, rfl | ⟨rest, seen, rfl, heq⟩⟩ := hI
  · cases hend
  · cases rest with
    | nil =>
        cases hend
        rw [List.append_nil] at heq
        rw [heq]
        rfl
    | cons elem rest => cases hend

theorem find_body {predicate : T → Bool} (h : sliceMethods.Body (.find predicate) s o s') :
    callSlice s (.find predicate) = (s', o) := by
  obtain ⟨l, hI, hend⟩ := h.invariant
    (I := fun l t => t = s ∧ (l = .start ∨ ∃ rest seen, l = .ranging rest seen ∧
      seen ++ rest = s ∧ seen.find? predicate = none)) ⟨rfl, Or.inl rfl⟩ (by
      rintro l t l' t' ⟨rfl, rfl | ⟨rest, seen, rfl, heq, hnone⟩⟩ hmove
      · cases hmove
        exact ⟨rfl, Or.inr ⟨_, [], rfl, rfl, rfl⟩⟩
      · cases rest with
        | nil => cases hmove
        | cons elem rest =>
            simp only [sliceMethods, SliceCall.step, Slice.find] at hmove
            split at hmove
            · cases hmove
            · next hfalse =>
                cases hmove
                refine ⟨rfl, Or.inr ⟨rest, _, rfl, by rw [List.append_assoc]; exact heq, ?_⟩⟩
                rw [List.find?_append, hnone]
                simp [hfalse])
  obtain ⟨rfl, rfl | ⟨rest, seen, rfl, heq, hnone⟩⟩ := hI
  · cases hend
  · cases rest with
    | nil =>
        cases hend
        rw [List.append_nil] at heq
        rw [callSlice, ← heq, hnone]
    | cons elem rest =>
        simp only [sliceMethods, SliceCall.step, Slice.find] at hend
        split at hend
        · next htrue =>
            cases hend
            rw [callSlice, ← heq, List.find?_append, hnone, List.find?_cons_of_pos htrue]
            rfl
        · cases hend

/-- Methods which end in their first step. -/
theorem body_of_ends {i : SliceCall T} {r : SliceResult T}
    (hends : ∀ l t, t = s → i.step l t = .inr r) (h : sliceMethods.Body i s o s') :
    (s, r) = (s', o) := by
  obtain ⟨l, rfl, hend⟩ := h.invariant (I := fun _ t => t = s) rfl (by
    intro l t l' t' heq hmove
    cases (hends l t heq).symm.trans hmove)
  cases (hends l s' rfl).symm.trans hend
  rfl

theorem get_body {i : ℤ} (h : sliceMethods.Body (.get i) s o s') :
    callSlice s (.get i) = (s', o) := by
  apply body_of_ends _ h
  rintro l t rfl
  simp only [SliceCall.step, Slice.get]
  split <;> simp_all

/-- The body of each method does what the call does at once. -/
theorem callSlice_of_body (i : SliceCall T) (h : sliceMethods.Body i s o s') :
    callSlice s i = (s', o) := by
  cases i with
  | append elem => exact append_body h
  | appendAll elems => exact appendAll_body h
  | elements => exact elements_body h
  | get i => exact get_body h
  | randomElement draw => exact randomElement_body h
  | len => exact body_of_ends (fun _ _ heq => by rw [heq]; rfl) h
  | forEach => exact forEach_body h
  | find predicate => exact find_body h

end

/-- The calls of the methods of a slice are linearizable. -/
theorem slice_linearizes {st : Protected (List T) (SliceLocal T) (SliceCall T) (SliceResult T)}
    {hist : List (CallEvent (SliceCall T) (SliceResult T))}
    {lin : List (ℕ × SliceCall T × SliceResult T)} {s₀ : List T}
    (h : (sliceMethods.traced s₀).Reachable (st, hist, lin)) :
    Linearizes (fun i s o s' => callSlice s i = (s', o)) s₀ hist lin :=
  (Methods.linearizes h).map id fun i _ _ _ hbody => callSlice_of_body i hbody

theorem slice_linearizes_sample : ∃ st hist lin,
    (sliceMethods.traced ([] : List ℕ)).Reachable (st, hist, lin) ∧ lin.length = 2 ∧
      Linearizes (fun i s o s' => callSlice s i = (s', o)) [] hist lin := by
  obtain ⟨⟨st, hist, lin⟩, hreach, hlin⟩ :=
    (sliceMethods.traced ([] : List ℕ)).exists_of_replay (fun _ _ => True)
      ([.invoke (.append 1), .invoke .elements] ++ List.replicate 6 (.run 0) ++
        List.replicate 7 (.run 1))
      (fun s => s.2.2.length = 2) (by decide +kernel)
  exact ⟨st, hist, lin, hreach, hlin, slice_linearizes hreach⟩

end Minotor.Concurrent
