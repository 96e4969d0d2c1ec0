import Mathlib.Data.List.Basic

/-!
# Readers

A reader takes a value off the front of a list of tokens and leaves the rest.  The
combinators here are for words and for items between brackets, with spaces.

Two things are followed through them: what a reader makes of a text which some value
was written to, and what it makes of a text which goes on.  A reader which sees the
end of a value reads the value whatever comes next; others, as for numbers, need to
see where the value stops.
-/

namespace Minotor

/-- What is read off the front of a list, with the rest of it. -/
abbrev Reader (τ α : Type*) := List τ → Option (α × List τ)

namespace Reader

variable {τ α β : Type*} {p q : Reader τ α} {ts rest : List τ} {x : α}

/-- `p` reads `x` off `t` if the rest is as `stops` says. -/
def Reads (p : Reader τ α) (t : List τ) (x : α) (stops : List τ → Prop) : Prop :=
  ∀ rest, stops rest → p (t ++ rest) = some (x, rest)

/-- `q` reads what `p` reads, also when the text goes on after a rest. -/
def Extends (p q : Reader τ α) : Prop :=
  ∀ ts x rest s, p ts = some (x, rest) → rest ≠ [] ∨ s = [] → q (ts ++ s) = some (x, rest ++ s)

/-- `q` reads what `p` reads, also when the text goes on. -/
def Closes (p q : Reader τ α) : Prop :=
  ∀ ts x rest s, p ts = some (x, rest) → q (ts ++ s) = some (x, rest ++ s)

theorem Closes.extends (h : Closes p q) : Extends p q :=
  fun ts x rest s hp _ => h ts x rest s hp

theorem Reads.mono {stops stops' : List τ → Prop} (h : Reads p ts x stops)
    (hstops : ∀ rest, stops' rest → stops rest) : Reads p ts x stops' :=
  fun rest hrest => h rest (hstops rest hrest)

/-- A value which is all of a text is not read off a part of the text. -/
theorem Closes.take_eq_none (h : Closes p q) (hq : q ts = some (x, [])) {n : ℕ}
    (hn : n < ts.length) : p (ts.take n) = none := by
  cases hp : p (ts.take n) with
  | none => rfl
  | some r =>
      have hlong := h _ r.1 r.2 (ts.drop n) hp
      rw [List.take_append_drop, hq] at hlong
      have hdrop := (List.append_eq_nil_iff.mp (Prod.ext_iff.mp (Option.some.inj hlong)).2.symm).2
      rw [List.drop_eq_nil_iff] at hdrop
      omega

/-! ## Mapping -/

/-- Map what is read. -/
def map (f : α → β) (p : Reader τ α) : Reader τ β :=
  fun ts => (p ts).map fun r => (f r.1, r.2)

theorem map_eq_some {f : α → β} {y : β} :
    p.map f ts = some (y, rest) ↔ ∃ x, p ts = some (x, rest) ∧ f x = y := by
  simp [map]

theorem Reads.map {stops : List τ → Prop} (f : α → β) (h : Reads p ts x stops) :
    Reads (p.map f) ts (f x) stops :=
  fun rest hrest => map_eq_some.mpr ⟨x, h rest hrest, rfl⟩

theorem Extends.map (f : α → β) (h : Extends p q) : Extends (p.map f) (q.map f) := by
  intro ts y rest s hp hs
  obtain ⟨x, hx, rfl⟩ := map_eq_some.mp hp
  exact map_eq_some.mpr ⟨x, h ts x rest s hx hs, rfl⟩

theorem Closes.map (f : α → β) (h : Closes p q) : Closes (p.map f) (q.map f) := by
  intro ts y rest s hp
  obtain ⟨x, hx, rfl⟩ := map_eq_some.mp hp
  exact map_eq_some.mpr ⟨x, h ts x rest s hx, rfl⟩

/-! ## One reader after another -/

/-- Read with `p`, and then as what is read says. -/
def bind (p : Reader τ α) (f : α → Reader τ β) : Reader τ β :=
  fun ts => (p ts).bind fun r => f r.1 r.2

theorem bind_eq_some {f : α → Reader τ β} {y : β} :
    p.bind f ts = some (y, rest) ↔ ∃ x ts', p ts = some (x, ts') ∧ f x ts' = some (y, rest) := by
  simp [bind, Option.bind_eq_some_iff]

theorem Reads.bind {f : α → Reader τ β} {t t' : List τ} {y : β} {stops : List τ → Prop}
    (h : Reads p t x fun _ => True) (hf : Reads (f x) t' y stops) :
    Reads (p.bind f) (t ++ t') y stops := by
  intro rest hrest
  rw [List.append_assoc]
  exact bind_eq_some.mpr ⟨x, t' ++ rest, h _ trivial, hf rest hrest⟩

theorem Closes.bind {f g : α → Reader τ β} (h : Closes p q) (hf : ∀ x, Extends (f x) (g x)) :
    Extends (p.bind f) (q.bind g) := by
  intro ts y rest s hp hs
  obtain ⟨x, ts', hx, hy⟩ := bind_eq_some.mp hp
  exact bind_eq_some.mpr ⟨x, ts' ++ s, h ts x ts' s hx, hf x ts' y rest s hy hs⟩

/-! ## Words -/

section

variable [DecidableEq τ]

/-- A word which stands for `x`. -/
def word (w : List τ) (x : α) : Reader τ α :=
  fun ts => if w <+: ts then some (x, ts.drop w.length) else none

theorem reads_word (w : List τ) (x : α) : Reads (word w x) w x fun _ => True := by
  intro rest _
  rw [word, if_pos (List.prefix_append w rest), List.drop_left]

theorem word_closes (w : List τ) (x : α) : Closes (word w x) (word w x) := by
  intro ts y rest s hp
  simp only [word, Option.ite_none_right_eq_some] at hp
  obtain ⟨⟨t, rfl⟩, heq⟩ := hp
  rw [List.drop_left] at heq
  obtain ⟨rfl, rfl⟩ := Prod.ext_iff.mp (Option.some.inj heq)
  rw [List.append_assoc]
  exact reads_word w x _ trivial

end

/-! ## Spaces -/

theorem dropWhile_append_of_cons {space : τ → Bool} {t : τ} (s : List τ)
    (h : ts.dropWhile space = t :: rest) : (ts ++ s).dropWhile space = t :: (rest ++ s) := by
  rw [List.dropWhile_append, h]
  rfl

section

variable [DecidableEq τ]

/-- A token after spaces, and then what `p` reads. -/
def token (space : τ → Bool) (t : τ) (p : Reader τ α) : Reader τ α :=
  fun ts =>
    match ts.dropWhile space with
    | [] => none
    | t' :: ts => if t' = t then p ts else none

theorem Reads.token {space : τ → Bool} {t : τ} {stops : List τ → Prop} (ht : space t = false)
    (h : Reads p ts x stops) : Reads (token space t p) (t :: ts) x stops := by
  intro rest hrest
  have hdrop : (t :: (ts ++ rest)).dropWhile space = t :: (ts ++ rest) :=
    List.dropWhile_cons_of_neg (Bool.eq_false_iff.mp ht)
  simp only [Reader.token, List.cons_append, hdrop, if_true]
  exact h rest hrest

theorem Extends.token {space : τ → Bool} {t : τ} (h : Extends p q) :
    Extends (token space t p) (token space t q) := by
  intro ts x rest s hp hs
  simp only [Reader.token] at hp
  split at hp
  · cases hp
  · next t' ts' hdrop =>
      simp only [Reader.token, dropWhile_append_of_cons s hdrop]
      split at hp
      · next heq =>
          rw [if_pos heq]
          exact h ts' x rest s hp hs
      · cases hp

end

/-! ## Items -/

section

variable [DecidableEq τ]

/-- Items with a separator between them, up to the closing token. -/
def items (space : τ → Bool) (sep close : τ) (p : Reader τ α) : ℕ → Reader τ (List α)
  | 0, _ => none
  | n + 1, ts =>
      match p ts with
      | none => none
      | some (x, ts) =>
          match ts.dropWhile space with
          | [] => none
          | t :: ts =>
              if t = close then some ([x], ts)
              else if t = sep then (items space sep close p n ts).map fun r => (x :: r.1, r.2)
              else none

/-- Items up to the closing token, or none of them. -/
def seq (space : τ → Bool) (sep close : τ) (p : Reader τ α) (n : ℕ) : Reader τ (List α) :=
  fun ts =>
    match ts.dropWhile space with
    | [] => none
    | t :: rest => if t = close then some ([], rest) else items space sep close p n ts

variable {space : τ → Bool} {sep close : τ}

theorem items_last {n : ℕ} {ts' : List τ} (hp : p ts = some (x, ts'))
    (hdrop : ts'.dropWhile space = close :: rest) :
    items space sep close p (n + 1) ts = some ([x], rest) := by
  simp only [items, hp, hdrop, if_true]

theorem items_next {n : ℕ} {ts' : List τ} (hp : p ts = some (x, ts'))
    (hdrop : ts'.dropWhile space = sep :: rest) (hsep : sep ≠ close) :
    items space sep close p (n + 1) ts =
      (items space sep close p n rest).map fun r => (x :: r.1, r.2) := by
  simp only [items, hp, hdrop, if_neg hsep, if_true]

/-- What is read when items are read. -/
theorem of_items {n : ℕ} {xs : List α} (h : items space sep close p (n + 1) ts = some (xs, rest)) :
    ∃ x ts', p ts = some (x, ts') ∧
      (xs = [x] ∧ ts'.dropWhile space = close :: rest ∨
        ∃ ts'' xs', ts'.dropWhile space = sep :: ts'' ∧ sep ≠ close ∧
          items space sep close p n ts'' = some (xs', rest) ∧ xs = x :: xs') := by
  rw [items] at h
  split at h
  · cases h
  · next x ts' hx =>
      refine ⟨x, ts', hx, ?_⟩
      split at h
      · cases h
      · next t ts'' hdrop =>
          split at h
          · next hclose =>
              subst hclose
              obtain ⟨rfl, rfl⟩ := Prod.ext_iff.mp (Option.some.inj h)
              exact Or.inl ⟨rfl, hdrop⟩
          · next hclose =>
              split at h
              · next hsep =>
                  subst hsep
                  obtain ⟨⟨xs', rest'⟩, hitems, heq⟩ := Option.map_eq_some_iff.mp h
                  obtain ⟨rfl, rfl⟩ := Prod.ext_iff.mp heq
                  exact Or.inr ⟨ts'', xs', hdrop, hclose, hitems, rfl⟩
              · cases h

theorem Extends.items (h : Extends p q) {n m : ℕ} (hnm : n ≤ m) :
    Closes (items space sep close p n) (items space sep close q m) := by
  induction n generalizing m with
  | zero =>
      intro ts xs rest s hp
      cases hp
  | succ n ih =>
      obtain ⟨m, rfl⟩ := Nat.exists_eq_add_of_le' hnm
      rw [← Nat.add_assoc] at hnm ⊢
      intro ts xs rest s hp
      obtain ⟨x, ts', hx, hcases⟩ := of_items hp
      have hne : ts' ≠ [] := by
        rintro rfl
        rcases hcases with ⟨-, hdrop⟩ | ⟨ts'', xs', hdrop, -⟩
        · cases hdrop
        · cases hdrop
      have hx' := h ts x ts' s hx (Or.inl hne)
      rcases hcases with ⟨rfl, hdrop⟩ | ⟨ts'', xs', hdrop, hsep, hitems, rfl⟩
      · exact items_last hx' (dropWhile_append_of_cons s hdrop)
      · rw [items_next hx' (dropWhile_append_of_cons s hdrop) hsep,
          ih (Nat.le_of_succ_le_succ hnm) ts'' xs' rest s hitems]
        rfl

theorem Extends.seq (h : Extends p q) {n m : ℕ} (hnm : n ≤ m) :
    Closes (seq space sep close p n) (seq space sep close q m) := by
  intro ts xs rest s hp
  simp only [Reader.seq] at hp
  split at hp
  · cases hp
  · next t ts' hdrop =>
      simp only [Reader.seq, dropWhile_append_of_cons s hdrop]
      split at hp
      · next hclose =>
          obtain ⟨rfl, rfl⟩ := Prod.ext_iff.mp (Option.some.inj hp)
          rw [if_pos hclose]
      · next hclose =>
          rw [if_neg hclose]
          exact h.items hnm ts xs rest s hp

/-- Items with a separator between them are read. -/
theorem reads_items {print : α → List τ} {stops : List τ → Prop} (hspace : space sep = false)
    (hspace' : space close = false) (hsep : sep ≠ close)
    (hstops : ∀ rest, stops (sep :: rest)) (hstops' : ∀ rest, stops (close :: rest))
    {n : ℕ} {xs : List α} (hn : xs.length < n)
    (h : ∀ y ∈ x :: xs, Reads p (print y) y stops) :
    Reads (items space sep close p n)
      (List.intercalate [sep] ((x :: xs).map print) ++ [close]) (x :: xs) fun _ => True := by
  intro rest _
  rw [List.append_assoc, List.singleton_append]
  induction xs generalizing n x with
  | nil =>
      obtain ⟨n, rfl⟩ := Nat.exists_eq_succ_of_ne_zero (Nat.ne_of_gt hn)
      rw [List.map_singleton, List.intercalate_singleton]
      exact items_last (h x List.mem_cons_self _ (hstops' rest))
        (List.dropWhile_cons_of_neg (Bool.eq_false_iff.mp hspace'))
  | cons y xs ih =>
      obtain ⟨n, rfl⟩ := Nat.exists_eq_succ_of_ne_zero (Nat.ne_of_gt (Nat.zero_lt_of_lt hn))
      rw [List.map_cons, List.map_cons, List.intercalate_cons_cons, ← List.map_cons,
        List.append_assoc, List.append_assoc, List.singleton_append,
        items_next (h x List.mem_cons_self _ (hstops _))
          (List.dropWhile_cons_of_neg (Bool.eq_false_iff.mp hspace)) hsep,
        ih (Nat.lt_of_succ_lt_succ hn) fun z hz => h z (List.mem_cons_of_mem x hz)]
      rfl

/-- So are items between brackets, or none. -/
theorem reads_seq {print : α → List τ} {stops : List τ → Prop} (hspace : space sep = false)
    (hspace' : space close = false) (hsep : sep ≠ close)
    (hstops : ∀ rest, stops (sep :: rest)) (hstops' : ∀ rest, stops (close :: rest))
    {n : ℕ} {xs : List α} (hn : xs.length ≤ n)
    (h : ∀ y ∈ xs, Reads p (print y) y stops)
    (hfirst : ∀ y ∈ xs, ∃ t rest, print y = t :: rest ∧ space t = false ∧ t ≠ close) :
    Reads (seq space sep close p n)
      (List.intercalate [sep] (xs.map print) ++ [close]) xs fun _ => True := by
  intro rest _
  cases xs with
  | nil =>
      have hdrop : (close :: rest).dropWhile space = close :: rest :=
        List.dropWhile_cons_of_neg (Bool.eq_false_iff.mp hspace')
      simp only [List.map_nil, List.intercalate_nil, List.nil_append, List.singleton_append, seq,
        hdrop, if_true]
  | cons x xs =>
      obtain ⟨t, ts, hprint, hspace_t, hclose⟩ := hfirst x List.mem_cons_self
      have hitems := reads_items hspace hspace' hsep hstops hstops' hn h rest trivial
      have htext : List.intercalate [sep] ((x :: xs).map print) =
          t :: List.intercalate [sep] (ts :: xs.map print) := by
        rw [List.map_cons, hprint, List.intercalate_cons_cons_left]
      rw [htext] at hitems ⊢
      have hdrop := List.dropWhile_cons_of_neg (Bool.eq_false_iff.mp hspace_t)
        (l := List.intercalate [sep] (ts :: xs.map print) ++ [close] ++ rest)
      simp only [seq, List.cons_append, hdrop, if_neg hclose]
      exact hitems

end

end Reader
end Minotor
