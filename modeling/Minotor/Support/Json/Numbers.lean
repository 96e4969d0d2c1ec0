import Minotor.Support.Digest
import Minotor.Support.Reader
import Mathlib.Data.Nat.Digits.Lemmas

/-!
# The numbers of JSON

A number keeps the digits it is written with.  It is read as far as it goes, so the
byte after it has to be one with which no number goes on.
-/

namespace Minotor.Json

open Reader

/-- Where a number is after some of its bytes. -/
inductive NumState where
  | start
  /-- after the minus sign -/
  | neg
  /-- after a zero in front -/
  | zero
  | int
  | dot
  | frac
  | e
  /-- after the sign of the exponent -/
  | sign
  | exp
deriving DecidableEq, Repr

def isDigit (b : UInt8) : Bool := 0x30 ≤ b && b ≤ 0x39

namespace NumState

/-- A number may end here. -/
def accepts : NumState → Bool
  | .zero | .int | .frac | .exp => true
  | _ => false

/-- After the integer part. -/
def tail (b : UInt8) : Option NumState :=
  if b = 0x2e then some .dot else if b = 0x65 || b = 0x45 then some .e else none

def next (st : NumState) (b : UInt8) : Option NumState :=
  match st with
  | .start =>
      if b = 0x2d then some .neg else if b = 0x30 then some .zero
      else if isDigit b then some .int else none
  | .neg => if b = 0x30 then some .zero else if isDigit b then some .int else none
  | .zero => tail b
  | .int => if isDigit b then some .int else tail b
  | .dot => if isDigit b then some .frac else none
  | .frac => if isDigit b then some .frac else if b = 0x65 || b = 0x45 then some .e else none
  | .e =>
      if b = 0x2b || b = 0x2d then some .sign else if isDigit b then some .exp else none
  | .sign => if isDigit b then some .exp else none
  | .exp => if isDigit b then some .exp else none

end NumState

/-- The bytes of a number, as many as there are. -/
def scan (st : NumState) : Reader UInt8 Bytes
  | [] => if st.accepts then some ([], []) else none
  | b :: bs =>
      match st.next b with
      | none => if st.accepts then some ([], b :: bs) else none
      | some st' => (scan st' bs).map fun r => (b :: r.1, r.2)

/-- A number, with the digits it is written with. -/
structure Number where
  lit : Bytes
  valid : scan .start lit = some (lit, [])
deriving DecidableEq

/-- What is scanned is a number. -/
theorem scan_lit {st : NumState} {bs lit rest : Bytes} (h : scan st bs = some (lit, rest)) :
    scan st lit = some (lit, []) := by
  induction bs generalizing st lit with
  | nil =>
      simp only [scan, Option.ite_none_right_eq_some, Option.some.injEq, Prod.mk.injEq] at h
      obtain ⟨haccepts, rfl, rfl⟩ := h
      exact if_pos haccepts
  | cons b bs ih =>
      rw [scan] at h
      split at h
      · simp only [Option.ite_none_right_eq_some, Option.some.injEq, Prod.mk.injEq] at h
        obtain ⟨haccepts, rfl, rfl⟩ := h
        exact if_pos haccepts
      · next st' hnext =>
          obtain ⟨⟨lit', rest'⟩, hscan, heq⟩ := Option.map_eq_some_iff.mp h
          simp only [Prod.mk.injEq] at heq
          obtain ⟨rfl, rfl⟩ := heq
          simp only [scan, hnext, ih hscan, Option.map_some]

def readNumber : Reader UInt8 Number :=
  fun bs =>
    match h : scan .start bs with
    | none => none
    | some (lit, rest) => some (⟨lit, scan_lit h⟩, rest)

theorem readNumber_eq_some {n : Number} {bs rest : Bytes} :
    readNumber bs = some (n, rest) ↔ scan .start bs = some (n.lit, rest) := by
  rw [readNumber]
  split
  · next hscan => simp [hscan]
  · next lit rest' hscan =>
      obtain ⟨lit', hvalid⟩ := n
      simp [hscan]

/-- No number goes on with the first byte of the rest. -/
def Stops : Bytes → Prop
  | [] => True
  | b :: _ => isDigit b = false ∧ b ∉ [0x2e, 0x65, 0x45, 0x2b, 0x2d]

theorem next_eq_none {b : UInt8} {bs : Bytes} (h : Stops (b :: bs)) (st : NumState) :
    st.next b = none := by
  obtain ⟨hdigit, hother⟩ := h
  simp only [List.mem_cons, List.not_mem_nil, or_false, not_or] at hother
  have hzero : b ≠ 0x30 := by
    rintro rfl
    cases hdigit
  cases st <;> simp [NumState.next, NumState.tail, hdigit, hother, hzero]

theorem scan_append {st : NumState} {lit rest : Bytes} (h : scan st lit = some (lit, []))
    (hrest : Stops rest) : scan st (lit ++ rest) = some (lit, rest) := by
  induction lit generalizing st with
  | nil =>
      simp only [scan, Option.ite_none_right_eq_some] at h
      cases rest with
      | nil => exact if_pos h.1
      | cons b bs =>
          simp only [List.nil_append, scan, next_eq_none hrest]
          exact if_pos h.1
  | cons b bs ih =>
      rw [scan] at h
      rw [List.cons_append, scan]
      split at h
      · simp at h
      · next st' hnext =>
          obtain ⟨⟨lit, rest'⟩, hscan, heq⟩ := Option.map_eq_some_iff.mp h
          simp only [Prod.mk.injEq, List.cons.injEq, true_and] at heq
          obtain ⟨rfl, rfl⟩ := heq
          rw [ih hscan]
          rfl

theorem scan_extends (st : NumState) : Extends (scan st) (scan st) := by
  intro bs lit rest s h hs
  induction bs generalizing st lit with
  | nil =>
      simp only [scan, Option.ite_none_right_eq_some] at h
      obtain ⟨haccepts, heq⟩ := h
      obtain ⟨rfl, rfl⟩ := Prod.ext_iff.mp (Option.some.inj heq)
      obtain rfl : s = [] := by simpa using hs
      exact if_pos haccepts
  | cons b bs ih =>
      rw [scan] at h
      rw [List.cons_append, scan]
      split at h
      · next hnext =>
          simp only [Option.ite_none_right_eq_some] at h
          obtain ⟨haccepts, heq⟩ := h
          obtain ⟨rfl, rfl⟩ := Prod.ext_iff.mp (Option.some.inj heq)
          rw [if_pos haccepts]
          rfl
      · next st' hnext =>
          obtain ⟨⟨lit', rest'⟩, hscan, heq⟩ := Option.map_eq_some_iff.mp h
          simp only [Prod.mk.injEq] at heq
          obtain ⟨rfl, rfl⟩ := heq
          rw [ih st' lit' hscan]
          rfl

theorem reads_number (n : Number) : Reads readNumber n.lit n Stops :=
  fun _ hrest => readNumber_eq_some.mpr (scan_append n.valid hrest)

theorem readNumber_extends : Extends readNumber readNumber :=
  fun bs _ _ s h hs =>
    readNumber_eq_some.mpr (scan_extends .start bs _ _ s (readNumber_eq_some.mp h) hs)

/-! ## Decimal numbers -/

def digit (d : ℕ) : UInt8 := UInt8.ofNat (0x30 + d)

/-- The decimal digits of a number. -/
def decimal (n : ℕ) : Bytes :=
  if n = 0 then [0x30] else (Nat.digits 10 n).reverse.map digit

def ofDecimal (bs : Bytes) : Option ℕ :=
  if bs ≠ [] ∧ ∀ b ∈ bs, isDigit b = true then
    some (Nat.ofDigits 10 (bs.reverse.map fun b => b.toNat - 0x30))
  else none

theorem isDigit_digit {d : ℕ} (hd : d < 10) : isDigit (digit d) = true := by
  have hall : ∀ d < 10, isDigit (digit d) = true := by decide
  exact hall d hd

theorem toNat_digit {d : ℕ} (hd : d < 10) : (digit d).toNat - 0x30 = d := by
  have hall : ∀ d < 10, (digit d).toNat - 0x30 = d := by decide
  exact hall d hd

theorem digit_ne_zero {d : ℕ} (hd : d < 10) (hne : d ≠ 0) : digit d ≠ 0x30 := by
  have hall : ∀ d < 10, d ≠ 0 → digit d ≠ 0x30 := by decide
  exact hall d hd hne

theorem digits_lt {n d : ℕ} (hd : d ∈ Nat.digits 10 n) : d < 10 :=
  Nat.digits_lt_base (by decide) hd

theorem isDigit_of_mem {b : UInt8} {n : ℕ} (hb : b ∈ decimal n) : isDigit b = true := by
  rw [decimal] at hb
  split at hb
  · obtain rfl := List.mem_singleton.mp hb
    rfl
  · obtain ⟨d, hd, rfl⟩ := List.mem_map.mp hb
    exact isDigit_digit (digits_lt (List.mem_reverse.mp hd))

theorem decimal_ne_nil (n : ℕ) : decimal n ≠ [] := by
  rw [decimal]
  split
  · exact List.cons_ne_nil _ _
  · next hn =>
      rw [ne_eq, List.map_eq_nil_iff, List.reverse_eq_nil_iff]
      exact Nat.digits_ne_nil_iff_ne_zero.mpr hn

theorem ofDecimal_decimal (n : ℕ) : ofDecimal (decimal n) = some n := by
  rw [ofDecimal, if_pos ⟨decimal_ne_nil n, fun b hb => isDigit_of_mem hb⟩]
  by_cases hn : n = 0
  · subst hn
    simp [decimal]
  · have hvalues : ((Nat.digits 10 n).map digit).map (fun b => b.toNat - 0x30) =
        Nat.digits 10 n := by
      rw [List.map_map]
      exact (List.map_congr_left fun d hd => toNat_digit (digits_lt hd)).trans (List.map_id _)
    rw [decimal, if_neg hn, ← List.map_reverse, List.reverse_reverse, hvalues,
      Nat.ofDigits_digits]

theorem scan_digits {ds : List ℕ} (hlt : ∀ d ∈ ds, d < 10) :
    scan .int (ds.map digit) = some (ds.map digit, []) := by
  induction ds with
  | nil => rfl
  | cons d ds ih =>
      have hnext : NumState.next .int (digit d) = some .int :=
        if_pos (isDigit_digit (hlt d List.mem_cons_self))
      simp only [List.map_cons, scan, hnext, ih fun e he => hlt e (List.mem_cons_of_mem d he)]
      rfl

/-- The first digit of a number is not zero. -/
theorem reverse_digits {n : ℕ} (hn : n ≠ 0) :
    ∃ d ds, (Nat.digits 10 n).reverse = d :: ds ∧ d ≠ 0 ∧ ∀ e ∈ d :: ds, e < 10 := by
  have hne : Nat.digits 10 n ≠ [] := Nat.digits_ne_nil_iff_ne_zero.mpr hn
  refine ⟨(Nat.digits 10 n).getLast hne, (Nat.digits 10 n).dropLast.reverse, ?_,
    Nat.getLast_digit_ne_zero 10 hn, ?_⟩
  · rw [← List.reverse_concat, List.dropLast_append_getLast]
  · rw [← List.reverse_concat, List.dropLast_append_getLast]
    exact fun e he => digits_lt (List.mem_reverse.mp he)

theorem next_digit {st : NumState} (hst : st = .start ∨ st = .neg) {d : ℕ} (hd : d < 10)
    (hne : d ≠ 0) : st.next (digit d) = some .int := by
  have hzero := digit_ne_zero hd hne
  have hdigit := isDigit_digit hd
  have hminus : digit d ≠ 0x2d := by
    intro h
    rw [h] at hdigit
    cases hdigit
  rcases hst with rfl | rfl
  · simp [NumState.next, hminus, hzero, hdigit]
  · simp [NumState.next, hzero, hdigit]

theorem scan_decimal {st : NumState} (hst : st = .start ∨ st = .neg) (n : ℕ) :
    scan st (decimal n) = some (decimal n, []) := by
  by_cases hn : n = 0
  · subst hn
    rcases hst with rfl | rfl
    · rfl
    · rfl
  · obtain ⟨d, ds, hdigits, hne, hlt⟩ := reverse_digits hn
    have hd : d < 10 := hlt d List.mem_cons_self
    rw [decimal, if_neg hn, hdigits, List.map_cons, scan]
    simp only [next_digit hst hd hne, scan_digits fun e he => hlt e (List.mem_cons_of_mem d he)]
    rfl

def Number.ofNat (n : ℕ) : Number := ⟨decimal n, scan_decimal (Or.inl rfl) n⟩

def Number.ofInt : ℤ → Number
  | .ofNat n => .ofNat n
  | .negSucc n =>
      { lit := 0x2d :: decimal (n + 1)
        valid := by
          change (scan .neg _).map _ = _
          rw [scan_decimal (Or.inr rfl)]
          rfl }

def Number.toNat? (n : Number) : Option ℕ := ofDecimal n.lit

def Number.toInt? (n : Number) : Option ℤ :=
  match n.lit with
  | [] => none
  | b :: bs =>
      if b = 0x2d then (ofDecimal bs).map fun k => -(k : ℤ)
      else (ofDecimal (b :: bs)).map fun k => (k : ℤ)

theorem Number.toNat?_ofNat (n : ℕ) : (Number.ofNat n).toNat? = some n := ofDecimal_decimal n

theorem Number.toInt?_ofInt (i : ℤ) : (Number.ofInt i).toInt? = some i := by
  cases i with
  | ofNat n =>
      have hlit : (ofInt (.ofNat n)).lit = decimal n := rfl
      rw [toInt?, hlit]
      cases hdecimal : decimal n with
      | nil => exact absurd hdecimal (decimal_ne_nil n)
      | cons b bs =>
          have hminus : b ≠ 0x2d := by
            rintro rfl
            have hdigit := isDigit_of_mem (hdecimal ▸ List.mem_cons_self)
            cases hdigit
          simp only [if_neg hminus, ← hdecimal, ofDecimal_decimal]
          rfl
  | negSucc n =>
      simp only [ofInt, toInt?, if_true, ofDecimal_decimal]
      rfl

end Minotor.Json
