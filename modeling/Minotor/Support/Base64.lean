import Minotor.Support.Digest

/-!
# Base64

The standard encoding with padding.  Line breaks in a text are passed over, as are the bits
of the last digit which belong to no byte.
-/

namespace Minotor.Base64

/-- The digit of a number below 64. -/
def digit (n : ℕ) : UInt8 :=
  if n < 26 then UInt8.ofNat (65 + n)
  else if n < 52 then UInt8.ofNat (71 + n)
  else if n < 62 then UInt8.ofNat (n - 4)
  else if n = 62 then 0x2b
  else 0x2f

/-- The number of a digit. -/
def digitValue (c : UInt8) : Option ℕ :=
  if 0x41 ≤ c ∧ c ≤ 0x5a then some (c.toNat - 65)
  else if 0x61 ≤ c ∧ c ≤ 0x7a then some (c.toNat - 71)
  else if 0x30 ≤ c ∧ c ≤ 0x39 then some (c.toNat + 4)
  else if c = 0x2b then some 62
  else if c = 0x2f then some 63
  else none

/-- What fills up the last group. -/
def padding : UInt8 := 0x3d

def first (a : UInt8) : UInt8 := digit (a.toNat / 4)

def second (a b : UInt8) : UInt8 := digit (a.toNat % 4 * 16 + b.toNat / 16)

def third (b c : UInt8) : UInt8 := digit (b.toNat % 16 * 4 + c.toNat / 64)

def fourth (c : UInt8) : UInt8 := digit (c.toNat % 64)

/-- The text of a byte string. -/
def encode : Bytes → Bytes
  | [] => []
  | [a] => [first a, second a 0, padding, padding]
  | [a, b] => [first a, second a b, third b 0, padding]
  | a :: b :: c :: bs => first a :: second a b :: third b c :: fourth c :: encode bs

/-- The bytes of a group with one, two or three bytes. -/
def oneByte (x y : ℕ) : Bytes := [UInt8.ofNat (x * 4 + y / 16)]

def twoBytes (x y z : ℕ) : Bytes := oneByte x y ++ [UInt8.ofNat (y % 16 * 16 + z / 4)]

def threeBytes (x y z w : ℕ) : Bytes := twoBytes x y z ++ [UInt8.ofNat (z % 4 * 64 + w)]

/-- What a text without line breaks encodes. -/
def decodeGroups : Bytes → Option Bytes
  | [] => some []
  | a :: b :: c :: d :: cs => do
      let x ← digitValue a
      let y ← digitValue b
      if c = padding then
        if d = padding ∧ cs = [] then some (oneByte x y) else none
      else
        let z ← digitValue c
        if d = padding then
          if cs = [] then some (twoBytes x y z) else none
        else
          let w ← digitValue d
          let bytes ← decodeGroups cs
          some (threeBytes x y z w ++ bytes)
  | _ => none

def isLineBreak (c : UInt8) : Bool := c = 0x0a || c = 0x0d

/-- What a text encodes. -/
def decode (text : Bytes) : Option Bytes :=
  decodeGroups (text.filter fun c => !isLineBreak c)

/-! ## Digits -/

theorem digit_spec {n : ℕ} (h : n < 64) :
    digitValue (digit n) = some n ∧ digit n ≠ padding ∧ isLineBreak (digit n) = false := by
  revert n
  decide

theorem first_lt (a : UInt8) : a.toNat / 4 < 64 :=
  Nat.div_lt_of_lt_mul a.toNat_lt

theorem second_lt (a b : UInt8) : a.toNat % 4 * 16 + b.toNat / 16 < 64 := by
  have hb := b.toNat_lt
  omega

theorem third_lt (b c : UInt8) : b.toNat % 16 * 4 + c.toNat / 64 < 64 := by
  have hc := c.toNat_lt
  omega

theorem fourth_lt (c : UInt8) : c.toNat % 64 < 64 :=
  Nat.mod_lt _ (by decide)

/-! ## Groups -/

theorem oneByte_eq (a b : UInt8) :
    oneByte (a.toNat / 4) (a.toNat % 4 * 16 + b.toNat / 16) = [a] := by
  have hb := b.toNat_lt
  have heq : a.toNat / 4 * 4 + (a.toNat % 4 * 16 + b.toNat / 16) / 16 = a.toNat := by omega
  rw [oneByte, heq, UInt8.ofNat_toNat]

theorem twoBytes_eq (a b c : UInt8) :
    twoBytes (a.toNat / 4) (a.toNat % 4 * 16 + b.toNat / 16) (b.toNat % 16 * 4 + c.toNat / 64) =
      [a, b] := by
  have hb := b.toNat_lt
  have hc := c.toNat_lt
  have heq : (a.toNat % 4 * 16 + b.toNat / 16) % 16 * 16 + (b.toNat % 16 * 4 + c.toNat / 64) / 4 =
      b.toNat := by omega
  rw [twoBytes, oneByte_eq, heq, UInt8.ofNat_toNat, List.singleton_append]

theorem threeBytes_eq (a b c : UInt8) :
    threeBytes (a.toNat / 4) (a.toNat % 4 * 16 + b.toNat / 16) (b.toNat % 16 * 4 + c.toNat / 64)
      (c.toNat % 64) = [a, b, c] := by
  have hc := c.toNat_lt
  have heq : (b.toNat % 16 * 4 + c.toNat / 64) % 4 * 64 + c.toNat % 64 = c.toNat := by omega
  rw [threeBytes, twoBytes_eq, heq, UInt8.ofNat_toNat]
  rfl

theorem decodeGroups_encode (bytes : Bytes) : decodeGroups (encode bytes) = some bytes := by
  fun_induction encode bytes with
  | case1 => rfl
  | case2 a =>
      have hx := (digit_spec (first_lt a)).1
      have hy := (digit_spec (second_lt a 0)).1
      simp only [decodeGroups, first, second, hx, hy, Option.bind_eq_bind, Option.bind_some,
        if_true, and_self, oneByte_eq]
  | case3 a b =>
      have hx := (digit_spec (first_lt a)).1
      have hy := (digit_spec (second_lt a b)).1
      obtain ⟨hz, hne, -⟩ := digit_spec (third_lt b 0)
      simp only [decodeGroups, first, second, third, hx, hy, hz, if_neg hne, Option.bind_eq_bind,
        Option.bind_some, if_true, twoBytes_eq]
  | case4 a b c bs ih =>
      have hx := (digit_spec (first_lt a)).1
      have hy := (digit_spec (second_lt a b)).1
      obtain ⟨hz, hnez, -⟩ := digit_spec (third_lt b c)
      obtain ⟨hw, hnew, -⟩ := digit_spec (fourth_lt c)
      simp only [decodeGroups, first, second, third, fourth, hx, hy, hz, hw, if_neg hnez,
        if_neg hnew, Option.bind_eq_bind, Option.bind_some, ih, threeBytes_eq]
      rfl

theorem isLineBreak_of_mem_encode {bytes : Bytes} {c : UInt8} (h : c ∈ encode bytes) :
    isLineBreak c = false := by
  fun_induction encode bytes with
  | case1 => exact absurd h List.not_mem_nil
  | case2 a =>
      simp only [List.mem_cons, List.not_mem_nil, or_false] at h
      rcases h with rfl | rfl | rfl | rfl
      · exact (digit_spec (first_lt a)).2.2
      · exact (digit_spec (second_lt a 0)).2.2
      · rfl
      · rfl
  | case3 a b =>
      simp only [List.mem_cons, List.not_mem_nil, or_false] at h
      rcases h with rfl | rfl | rfl | rfl
      · exact (digit_spec (first_lt a)).2.2
      · exact (digit_spec (second_lt a b)).2.2
      · exact (digit_spec (third_lt b 0)).2.2
      · rfl
  | case4 a b c bs ih =>
      simp only [List.mem_cons] at h
      rcases h with rfl | rfl | rfl | rfl | h
      · exact (digit_spec (first_lt a)).2.2
      · exact (digit_spec (second_lt a b)).2.2
      · exact (digit_spec (third_lt b c)).2.2
      · exact (digit_spec (fourth_lt c)).2.2
      · exact ih h

theorem decode_encode (bytes : Bytes) : decode (encode bytes) = some bytes := by
  have hfilter : (encode bytes).filter (fun c => !isLineBreak c) = encode bytes := by
    rw [List.filter_eq_self]
    intro c hc
    rw [isLineBreak_of_mem_encode hc]
    rfl
  rw [decode, hfilter, decodeGroups_encode]

example : encode (stringBytes "Peer") = stringBytes "UGVlcg==" := by decide +kernel

end Minotor.Base64
