import Minotor.Support.Linearizable
import Mathlib.Data.List.AList
import Mathlib.Data.Set.Insert

/-!
# Concurrent maps and sets

`Map` and `Set` of `datastructures/concurrent`.  Some of their methods call others; the
methods which take the lock run step by step, and a loop over a map reads it in each turn,
in the order which the call comes with.

Every history of concurrent calls is that of the same calls made one after the other on a
finite map, or a set.  `Entries` and `Values` give all entries of one moment.
-/

namespace Minotor.Concurrent

variable {K V : Type*}

/-- The methods of `Map` which take its lock.  A loop over the map comes with the order of the
keys. -/
inductive MapCall (K V : Type*) where
  | len
  | add (key : K) (value : V)
  | delete (key : K)
  | get (key : K)
  | forEach (order : Arrangement K)

inductive MapAnswer (K V : Type*) where
  | done
  | len (n : ℕ)
  | got (value : Option V)
  /-- the entries which the consumer was called with -/
  | consumed (kvs : List (K × V))

/-- What a method has in hand. -/
inductive MapLocal (K V : Type*) where
  | start
  | done
  | ranging (rest : List K) (seen : List (K × V))

/-- The content of a map. -/
abbrev Content (K V : Type*) := AList fun _ : K => V

/-- What a method does next. -/
abbrev MapStep (K V : Type*) :=
  MapLocal K V → Content K V → (MapLocal K V × Content K V) ⊕ MapAnswer K V

section

variable [DecidableEq K]

namespace Map

/-- `Len`. -/
def len : MapStep K V
  | _, m => .inr (.len m.keys.length)

/-- `Add`. -/
def add (key : K) (value : V) : MapStep K V
  | .start, m => .inl (.done, m.insert key value)
  | _, _ => .inr .done

/-- `Delete`. -/
def delete (key : K) : MapStep K V
  | .start, m => .inl (.done, m.erase key)
  | _, _ => .inr .done

/-- `Get`. -/
def get (key : K) : MapStep K V
  | _, m => .inr (.got (m.lookup key))

/-- `ForEach`. -/
def forEach (order : Arrangement K) : MapStep K V
  | .ranging [] seen, _ => .inr (.consumed seen)
  | .ranging (key :: rest) seen, m =>
      match m.lookup key with
      | some value => .inl (.ranging rest (seen ++ [(key, value)]), m)
      | none => .inl (.ranging rest seen, m)
  | _, m => .inl (.ranging (order.1 m.keys) [], m)

end Map

/-- The body of a method. -/
def MapCall.step : MapCall K V → MapStep K V
  | .len => Map.len
  | .add key value => Map.add key value
  | .delete key => Map.delete key
  | .get key => Map.get key
  | .forEach order => Map.forEach order

/-- The methods which take the lock for writing. -/
def MapCall.writes : MapCall K V → Bool
  | .add _ _ => true
  | .delete _ => true
  | _ => false

theorem Map.forEach_reads {order : Arrangement K} {l l' : MapLocal K V} {m m' : Content K V}
    (h : Map.forEach order l m = .inl (l', m')) : m' = m := by
  cases l with
  | ranging rest seen =>
      cases rest with
      | nil => cases h
      | cons key rest =>
          simp only [Map.forEach] at h
          split at h
          · cases h
            rfl
          · cases h
            rfl
  | _ =>
      cases h
      rfl

/-- The methods of a map which take its lock. -/
def lockedMap : Methods (Content K V) (MapLocal K V) (MapCall K V) (MapAnswer K V) where
  writes := MapCall.writes
  start _ := .start
  move := MapCall.step
  readonly i l m l' m' hw h := by
    cases i with
    | len => cases h
    | add key value => cases hw
    | delete key => cases hw
    | get key => cases h
    | forEach order => exact Map.forEach_reads h

/-! ## All methods -/

/-- A call of a method of `Map` with its arguments. -/
inductive MapMethod (K V : Type*) where
  | len
  | entries (order : Arrangement K)
  | add (key : K) (value : V)
  | set (key : K) (value : V)
  | update (key : K) (value : V)
  | delete (key : K)
  | get (key : K)
  | getOrDefault (key : K) (defaultValue : V)
  | forEach (order : Arrangement K)

inductive MapResult (K V : Type*) where
  | done
  | len (n : ℕ)
  | entries (res : Content K V)
  | got (value : Option V)
  | value (v : V)
  | consumed (kvs : List (K × V))

/-- Which method takes the lock. -/
def MapMethod.call : MapMethod K V → MapCall K V
  | .len => .len
  | .entries order => .forEach order
  | .add key value => .add key value
  | .set key value => .add key value
  | .update key value => .add key value
  | .delete key => .delete key
  | .get key => .get key
  | .getOrDefault key _ => .get key
  | .forEach order => .forEach order

/-- The map which the consumer of `Entries` makes. -/
def entriesOf (kvs : List (K × V)) : Content K V :=
  kvs.foldl (fun res kv => res.insert kv.1 kv.2) ∅

/-- What a method returns. -/
def MapMethod.result : MapMethod K V → MapAnswer K V → MapResult K V
  | .entries _, .consumed kvs => .entries (entriesOf kvs)
  | .getOrDefault _ defaultValue, .got value => .value (value.getD defaultValue)
  | _, .done => .done
  | _, .len n => .len n
  | _, .got value => .got value
  | _, .consumed kvs => .consumed kvs

/-- The methods of a map. -/
def mapMethods : Methods (Content K V) (MapLocal K V) (MapMethod K V) (MapResult K V) :=
  lockedMap.wrap MapMethod.call MapMethod.result

/-! ## One call after the other -/

/-- The content and the result after a call which is executed at once, for a map as a function
of the keys. -/
def CallMap (m : K → Option V) (o : MapResult K V) (m' : K → Option V) : MapMethod K V → Prop
  | .len => m' = m ∧
      ∃ ks : List K, ks.Nodup ∧ (∀ k, k ∈ ks ↔ (m k).isSome) ∧ o = .len ks.length
  | .entries _ => m' = m ∧ ∃ res : Content K V, (∀ k, res.lookup k = m k) ∧ o = .entries res
  | .add key value => m' = Function.update m key (some value) ∧ o = .done
  | .set key value => m' = Function.update m key (some value) ∧ o = .done
  | .update key value => m' = Function.update m key (some value) ∧ o = .done
  | .delete key => m' = Function.update m key none ∧ o = .done
  | .get key => m' = m ∧ o = .got (m key)
  | .getOrDefault key defaultValue => m' = m ∧ o = .value ((m key).getD defaultValue)
  | .forEach _ => m' = m ∧ ∃ kvs : List (K × V), (kvs.map Prod.fst).Nodup ∧
      (∀ k v, (k, v) ∈ kvs ↔ m k = some v) ∧ o = .consumed kvs

/-- A map as a function of the keys. -/
def asFunction (m : Content K V) (k : K) : Option V := m.lookup k

theorem asFunction_insert (m : Content K V) (key : K) (value : V) :
    asFunction (m.insert key value) = Function.update (asFunction m) key (some value) := by
  funext k
  by_cases hk : k = key
  · rw [hk, Function.update_self]
    exact AList.lookup_insert m
  · rw [Function.update_of_ne hk]
    exact AList.lookup_insert_ne hk

theorem asFunction_erase (m : Content K V) (key : K) :
    asFunction (m.erase key) = Function.update (asFunction m) key none := by
  funext k
  by_cases hk : k = key
  · rw [hk, Function.update_self]
    exact AList.lookup_erase key m
  · rw [Function.update_of_ne hk]
    exact AList.lookup_erase_ne hk

theorem mem_keys_iff {m : Content K V} {k : K} : k ∈ m.keys ↔ (asFunction m k).isSome := by
  rw [← AList.mem_keys]
  exact AList.lookup_isSome.symm

section

variable {m m' : Content K V} {o : MapAnswer K V} {order : Arrangement K}

/-- Methods which end in their first step. -/
theorem lockedMap_ends {i : MapCall K V} {r : MapAnswer K V}
    (hends : ∀ l t, t = m → i.step l t = .inr r) (h : lockedMap.Body i m o m') :
    m' = m ∧ o = r := by
  obtain ⟨l, rfl, hend⟩ := h.invariant (I := fun _ t => t = m) rfl (by
    intro l t l' t' heq hmove
    cases (hends l t heq).symm.trans hmove)
  cases (hends l m' rfl).symm.trans hend
  exact ⟨rfl, rfl⟩

/-- Methods which change the map in their first step and end. -/
theorem lockedMap_changes {i : MapCall K V} {f : Content K V → Content K V}
    (hstart : ∀ t, i.step .start t = .inl (.done, f t))
    (hdone : ∀ t, i.step .done t = .inr .done) (h : lockedMap.Body i m o m') :
    m' = f m ∧ o = .done := by
  obtain ⟨l, hI, hend⟩ := h.invariant
    (I := fun l t => l = .start ∧ t = m ∨ l = .done ∧ t = f m) (Or.inl ⟨rfl, rfl⟩) (by
      rintro l t l' t' (⟨rfl, rfl⟩ | ⟨rfl, rfl⟩) hmove
      · cases (hstart t).symm.trans hmove
        exact Or.inr ⟨rfl, rfl⟩
      · cases (hdone _).symm.trans hmove)
  rcases hI with ⟨rfl, rfl⟩ | ⟨rfl, rfl⟩
  · cases (hstart m').symm.trans hend
  · cases (hdone _).symm.trans hend
    exact ⟨rfl, rfl⟩

/-- The entries at some keys. -/
def entriesAt (m : Content K V) (ks : List K) : List (K × V) :=
  ks.filterMap fun k => (m.lookup k).map fun v => (k, v)

/-- A loop over a map meets the entries at its keys. -/
theorem lockedMap_forEach (h : lockedMap.Body (.forEach order) m o m') :
    m' = m ∧ o = .consumed (entriesAt m (order.1 m.keys)) := by
  obtain ⟨l, hI, hend⟩ := h.invariant
    (I := fun l t => t = m ∧ (l = .start ∨ ∃ rest seen, l = .ranging rest seen ∧
      seen ++ entriesAt m rest = entriesAt m (order.1 m.keys))) ⟨rfl, Or.inl rfl⟩ (by
      rintro l t l' t' ⟨rfl, rfl | ⟨rest, seen, rfl, heq⟩⟩ hmove
      · cases hmove
        exact ⟨rfl, Or.inr ⟨_, [], rfl, rfl⟩⟩
      · cases rest with
        | nil => cases hmove
        | cons key rest =>
            simp only [lockedMap, MapCall.step, Map.forEach] at hmove
            split at hmove
            · next value hvalue =>
                cases hmove
                refine ⟨rfl, Or.inr ⟨rest, _, rfl, ?_⟩⟩
                rw [← heq, entriesAt, entriesAt, List.filterMap_cons, hvalue, List.append_assoc]
                rfl
            · next hvalue =>
                cases hmove
                refine ⟨rfl, Or.inr ⟨rest, seen, rfl, ?_⟩⟩
                rw [← heq, entriesAt, entriesAt, List.filterMap_cons, hvalue]
                rfl)
  obtain ⟨rfl, rfl | ⟨rest, seen, rfl, heq⟩⟩ := hI
  · cases hend
  · cases rest with
    | nil =>
        cases hend
        rw [← heq, entriesAt, List.filterMap_nil, List.append_nil]
        exact ⟨rfl, rfl⟩
    | cons key rest =>
        simp only [lockedMap, MapCall.step, Map.forEach] at hend
        split at hend
        · cases hend
        · cases hend

theorem mem_entriesAt {ks : List K} (hks : ks.Perm m.keys) (k : K) (v : V) :
    (k, v) ∈ entriesAt m ks ↔ asFunction m k = some v := by
  rw [entriesAt, List.mem_filterMap]
  constructor
  · rintro ⟨k', -, hk'⟩
    obtain ⟨v', hv', heq⟩ := Option.map_eq_some_iff.mp hk'
    cases heq
    exact hv'
  · intro hv
    refine ⟨k, ?_, Option.map_eq_some_iff.mpr ⟨v, hv, rfl⟩⟩
    rw [hks.mem_iff, mem_keys_iff, hv]
    rfl

theorem map_fst_entriesAt {ks : List K} (hks : ∀ k ∈ ks, (asFunction m k).isSome) :
    (entriesAt m ks).map Prod.fst = ks := by
  induction ks with
  | nil => rfl
  | cons k ks ih =>
      obtain ⟨v, hv⟩ := Option.isSome_iff_exists.mp (hks k List.mem_cons_self)
      have hlookup : m.lookup k = some v := hv
      rw [entriesAt, List.filterMap_cons, hlookup, Option.map_some, List.map_cons]
      exact congrArg _ (ih fun k' hk' => hks k' (List.mem_cons_of_mem _ hk'))

theorem nodup_entriesAt {ks : List K} (hks : ks.Perm m.keys) :
    ((entriesAt m ks).map Prod.fst).Nodup := by
  rw [map_fst_entriesAt fun k hk => mem_keys_iff.mp (hks.mem_iff.mp hk)]
  exact hks.nodup_iff.mpr m.keys_nodup

/-- What is put into a map one after the other under different keys is all in it. -/
theorem lookup_foldl_insert {kvs : List (K × V)} (hnodup : (kvs.map Prod.fst).Nodup)
    (res : Content K V) (k : K) :
    (∀ v, (k, v) ∈ kvs →
      (kvs.foldl (fun res kv => res.insert kv.1 kv.2) res).lookup k = some v) ∧
    (k ∉ kvs.map Prod.fst →
      (kvs.foldl (fun res kv => res.insert kv.1 kv.2) res).lookup k = res.lookup k) := by
  induction kvs generalizing res with
  | nil => exact ⟨fun _ hv => absurd hv List.not_mem_nil, fun _ => rfl⟩
  | cons kv kvs ih =>
      rw [List.map_cons, List.nodup_cons] at hnodup
      obtain ⟨hmem, hnotMem⟩ := ih hnodup.2 (res.insert kv.1 kv.2)
      rw [List.foldl_cons]
      constructor
      · intro v hv
        rcases List.mem_cons.mp hv with rfl | hv
        · rw [hnotMem hnodup.1]
          exact AList.lookup_insert res
        · exact hmem v hv
      · intro hk
        rw [List.map_cons, List.mem_cons, not_or] at hk
        rw [hnotMem hk.2]
        exact AList.lookup_insert_ne hk.1

theorem lookup_entriesOf {ks : List K} (hks : ks.Perm m.keys) (k : K) :
    (entriesOf (entriesAt m ks)).lookup k = asFunction m k := by
  obtain ⟨hmem, hnotMem⟩ := lookup_foldl_insert (nodup_entriesAt hks) ∅ k
  cases hv : asFunction m k with
  | some v => exact hmem v ((mem_entriesAt hks k v).mpr hv)
  | none =>
      refine (hnotMem ?_).trans (AList.lookup_empty k)
      intro hk
      obtain ⟨⟨k', v⟩, hkv, rfl⟩ := List.mem_map.mp hk
      rw [mem_entriesAt hks, hv] at hkv
      cases hkv

end

/-- The body of each method does what the call does at once. -/
theorem callMap_of_body {m m' : Content K V} {o : MapResult K V} (i : MapMethod K V)
    (h : mapMethods.Body i m o m') : CallMap (asFunction m) o (asFunction m') i := by
  obtain ⟨a, hbody, rfl⟩ := Methods.Body.of_wrap h
  cases i with
  | len =>
      obtain ⟨rfl, rfl⟩ := lockedMap_ends (i := .len) (fun _ _ heq => by rw [heq]; rfl) hbody
      exact ⟨rfl, m'.keys, m'.keys_nodup, fun k => mem_keys_iff, rfl⟩
  | entries order =>
      obtain ⟨rfl, rfl⟩ := lockedMap_forEach hbody
      exact ⟨rfl, _, fun k => lookup_entriesOf (order.2 _) k, rfl⟩
  | add key value =>
      obtain ⟨rfl, rfl⟩ :=
        lockedMap_changes (i := .add key value) (fun _ => rfl) (fun _ => rfl) hbody
      exact ⟨asFunction_insert m key value, rfl⟩
  | set key value =>
      obtain ⟨rfl, rfl⟩ :=
        lockedMap_changes (i := .add key value) (fun _ => rfl) (fun _ => rfl) hbody
      exact ⟨asFunction_insert m key value, rfl⟩
  | update key value =>
      obtain ⟨rfl, rfl⟩ :=
        lockedMap_changes (i := .add key value) (fun _ => rfl) (fun _ => rfl) hbody
      exact ⟨asFunction_insert m key value, rfl⟩
  | delete key =>
      obtain ⟨rfl, rfl⟩ := lockedMap_changes (i := .delete key) (fun _ => rfl) (fun _ => rfl) hbody
      exact ⟨asFunction_erase m key, rfl⟩
  | get key =>
      obtain ⟨rfl, rfl⟩ := lockedMap_ends (i := .get key) (fun _ _ heq => by rw [heq]; rfl) hbody
      exact ⟨rfl, rfl⟩
  | getOrDefault key defaultValue =>
      obtain ⟨rfl, rfl⟩ := lockedMap_ends (i := .get key) (fun _ _ heq => by rw [heq]; rfl) hbody
      exact ⟨rfl, rfl⟩
  | forEach order =>
      obtain ⟨rfl, rfl⟩ := lockedMap_forEach hbody
      exact ⟨rfl, _, nodup_entriesAt (order.2 _), mem_entriesAt (order.2 _), rfl⟩

/-- The calls of the methods of a map are linearizable. -/
theorem map_linearizes
    {st : Protected (Content K V) (MapLocal K V) (MapMethod K V) (MapResult K V)}
    {hist : List (CallEvent (MapMethod K V) (MapResult K V))}
    {lin : List (ℕ × MapMethod K V × MapResult K V)}
    (h : (mapMethods.traced ∅).Reachable (st, hist, lin)) :
    Linearizes (fun i m o m' => CallMap m o m' i) (fun _ => none) hist lin := by
  have hempty : asFunction (∅ : Content K V) = fun _ => none := funext AList.lookup_empty
  rw [← hempty]
  exact (Methods.linearizes h).map asFunction fun i _ _ _ hbody => callMap_of_body i hbody

/-- The order in which the entries stand. -/
def asTheyStand (T : Type*) : Arrangement T := ⟨id, fun _ => List.Perm.refl _⟩

omit [DecidableEq K] in
theorem map_linearizes_sample : ∃ st hist lin,
    (mapMethods.traced (∅ : Content ℕ ℕ)).Reachable (st, hist, lin) ∧ lin.length = 2 ∧
      Linearizes (fun i m o m' => CallMap m o m' i) (fun _ => none) hist lin := by
  obtain ⟨⟨st, hist, lin⟩, hreach, hlin⟩ :=
    (mapMethods.traced (∅ : Content ℕ ℕ)).exists_of_replay (fun _ _ => True)
      ([.invoke (.set 1 2), .invoke (.entries (asTheyStand ℕ))] ++ List.replicate 6 (.run 0) ++
        List.replicate 6 (.run 1))
      (fun s => s.2.2.length = 2) (by decide +kernel)
  exact ⟨st, hist, lin, hreach, hlin, map_linearizes hreach⟩

/-! ## Sets -/

/-- A call of a method of `Set` with its arguments. -/
inductive SetMethod (T : Type*) where
  | add (t : T)
  | contains (t : T)
  | remove (t : T)
  | values (order : Arrangement T)

inductive SetResult (T : Type*) where
  | done
  | contains (ok : Bool)
  | values (res : Content T Unit)

/-- Which method of the underlying map is called. -/
def SetMethod.call : SetMethod K → MapMethod K Unit
  | .add t => .add t ()
  | .contains t => .get t
  | .remove t => .delete t
  | .values order => .entries order

/-- What a method returns. -/
def SetMethod.result : SetMethod K → MapResult K Unit → SetResult K
  | .contains _, .got value => .contains value.isSome
  | .values _, .entries res => .values res
  | _, _ => .done

/-- The methods of a set. -/
def setMethods : Methods (Content K Unit) (MapLocal K Unit) (SetMethod K) (SetResult K) :=
  mapMethods.wrap SetMethod.call SetMethod.result

/-- The set and the result after a call which is executed at once. -/
def CallSet (s : Set K) (o : SetResult K) (s' : Set K) : SetMethod K → Prop
  | .add t => s' = insert t s ∧ o = .done
  | .contains t => s' = s ∧ ∃ ok, (ok = true ↔ t ∈ s) ∧ o = .contains ok
  | .remove t => s' = s \ {t} ∧ o = .done
  | .values _ => s' = s ∧ ∃ res : Content K Unit, (∀ t, t ∈ res ↔ t ∈ s) ∧ o = .values res

/-- A map as the set of its keys. -/
def asSet (m : Content K Unit) : Set K := {t | (asFunction m t).isSome}

/-- The body of each method does what the call does at once. -/
theorem callSet_of_body {m m' : Content K Unit} {o : SetResult K} (i : SetMethod K)
    (h : setMethods.Body i m o m') : CallSet (asSet m) o (asSet m') i := by
  obtain ⟨a, hbody, rfl⟩ := Methods.Body.of_wrap h
  have hcall := callMap_of_body i.call hbody
  cases i with
  | add t =>
      obtain ⟨hm, rfl⟩ := hcall
      refine ⟨?_, rfl⟩
      ext t'
      by_cases ht : t' = t
      · simp [asSet, hm, ht]
      · simp [asSet, hm, ht]
  | contains t =>
      obtain ⟨hm, rfl⟩ := hcall
      exact ⟨by rw [asSet, hm]; rfl, _, Iff.rfl, rfl⟩
  | remove t =>
      obtain ⟨hm, rfl⟩ := hcall
      refine ⟨?_, rfl⟩
      ext t'
      by_cases ht : t' = t
      · simp [asSet, hm, ht]
      · simp [asSet, hm, ht]
  | values order =>
      obtain ⟨hm, res, hres, rfl⟩ := hcall
      refine ⟨by rw [asSet, hm]; rfl, res, fun t => ?_, rfl⟩
      rw [← AList.lookup_isSome, hres]
      rfl

/-- The calls of the methods of a set are linearizable. -/
theorem set_linearizes
    {st : Protected (Content K Unit) (MapLocal K Unit) (SetMethod K) (SetResult K)}
    {hist : List (CallEvent (SetMethod K) (SetResult K))}
    {lin : List (ℕ × SetMethod K × SetResult K)}
    (h : (setMethods.traced ∅).Reachable (st, hist, lin)) :
    Linearizes (fun i s o s' => CallSet s o s' i) ∅ hist lin := by
  have hempty : asSet (∅ : Content K Unit) = ∅ := by
    ext t
    simp [asSet, asFunction]
  rw [← hempty]
  exact (Methods.linearizes h).map asSet fun i _ _ _ hbody => callSet_of_body i hbody

omit [DecidableEq K] in
theorem set_linearizes_sample : ∃ st hist lin,
    (setMethods.traced (∅ : Content ℕ Unit)).Reachable (st, hist, lin) ∧ lin.length = 2 ∧
      Linearizes (fun i s o s' => CallSet s o s' i) ∅ hist lin := by
  obtain ⟨⟨st, hist, lin⟩, hreach, hlin⟩ :=
    (setMethods.traced (∅ : Content ℕ Unit)).exists_of_replay (fun _ _ => True)
      ([.invoke (.add 1), .invoke (.contains 1)] ++ List.replicate 6 (.run 0) ++
        List.replicate 4 (.run 1))
      (fun s => s.2.2.length = 2) (by decide +kernel)
  exact ⟨st, hist, lin, hreach, hlin, set_linearizes hreach⟩

end

end Minotor.Concurrent
