import Minotor.Support.Json.Numbers

/-!
# The strings of JSON

Byte strings between quotes, with escapes.  An escaped code is one of UTF-16, and
two of them may be the halves of one character.
-/

namespace Minotor.Json

open Reader

def hex (n : ℕ) : UInt8 := if n < 10 then UInt8.ofNat (0x30 + n) else UInt8.ofNat (0x57 + n)

def ofHex (b : UInt8) : Option ℕ :=
  if isDigit b then some (b.toNat - 0x30)
  else if 0x61 ≤ b ∧ b ≤ 0x66 then some (b.toNat - 0x57)
  else if 0x41 ≤ b ∧ b ≤ 0x46 then some (b.toNat - 0x37)
  else none

/-- The byte for the letter of a short escape. -/
def ofLetter (b : UInt8) : Option UInt8 :=
  if b = 0x22 ∨ b = 0x5c ∨ b = 0x2f then some b
  else if b = 0x62 then some 0x08
  else if b = 0x66 then some 0x0c
  else if b = 0x6e then some 0x0a
  else if b = 0x72 then some 0x0d
  else if b = 0x74 then some 0x09
  else none

/-- A byte in a string: quotes, backslashes, control characters and characters of HTML tags
are escaped. -/
def escape (b : UInt8) : Bytes :=
  if b = 0x22 ∨ b = 0x5c then [0x5c, b]
  else if b = 0x0a then [0x5c, 0x6e]
  else if b = 0x0d then [0x5c, 0x72]
  else if b = 0x09 then [0x5c, 0x74]
  else if b < 0x20 ∨ b = 0x3c ∨ b = 0x3e ∨ b = 0x26 then
    [0x5c, 0x75, 0x30, 0x30, hex (b.toNat / 16), hex (b.toNat % 16)]
  else [b]

/-- What stands in a string: bytes and escaped codes of UTF-16. -/
inductive Piece where
  | byte (b : UInt8)
  | code (n : ℕ)
deriving DecidableEq, Repr

def ofHex4 (a b c d : UInt8) : Option ℕ :=
  match ofHex a, ofHex b, ofHex c, ofHex d with
  | some a, some b, some c, some d => some (((a * 16 + b) * 16 + c) * 16 + d)
  | _, _, _, _ => none

def pieces : Bytes → Option (List Piece)
  | [] => some []
  | b :: bs =>
      if b = 0x5c then
        match bs with
        | 0x75 :: h₁ :: h₂ :: h₃ :: h₄ :: bs =>
            match ofHex4 h₁ h₂ h₃ h₄ with
            | none => none
            | some n => (pieces bs).map (.code n :: ·)
        | e :: bs =>
            match ofLetter e with
            | none => none
            | some b => (pieces bs).map (.byte b :: ·)
        | [] => none
      else (pieces bs).map (.byte b :: ·)

/-- The UTF-8 bytes of a code, or of the replacement character. -/
def utf8 (n : ℕ) : Bytes :=
  String.utf8EncodeChar (if n.isValidChar then Char.ofNat n else Char.ofNat 0xfffd)

/-- The bytes, with the halves of a surrogate pair put together. -/
def bytes : List Piece → Bytes
  | [] => []
  | .byte b :: ps => b :: bytes ps
  | .code n :: .code m :: ps =>
      if 0xd800 ≤ n ∧ n < 0xdc00 ∧ 0xdc00 ≤ m ∧ m < 0xe000 then
        utf8 (0x10000 + (n - 0xd800) * 0x400 + (m - 0xdc00)) ++ bytes ps
      else utf8 n ++ bytes (.code m :: ps)
  | .code n :: ps => utf8 n ++ bytes ps

/-- The escaped bytes up to the closing quote; `escaped` if a backslash is in front. -/
def readRaw (escaped : Bool) : Reader UInt8 Bytes
  | [] => none
  | b :: bs =>
      if escaped = false ∧ b = 0x22 then some ([], bs)
      else if b < 0x20 then none
      else (readRaw (!escaped && b = 0x5c) bs).map fun r => (b :: r.1, r.2)

/-- A string after its opening quote. -/
def readString : Reader UInt8 Bytes :=
  (readRaw false).bind fun raw bs => (pieces raw).map fun ps => (bytes ps, bs)

def printString (s : Bytes) : Bytes := 0x22 :: (s.flatMap escape ++ [0x22])

/-- A byte which stands for itself in a string. -/
def Plain (b : UInt8) : Prop := b ≠ 0x22 ∧ b ≠ 0x5c ∧ ¬b < 0x20

theorem readRaw_plain {b : UInt8} (hb : Plain b) (t : Bytes) :
    readRaw false (b :: t) = (readRaw false t).map fun r => (b :: r.1, r.2) := by
  simp [readRaw, hb.1, hb.2.1, hb.2.2]

theorem readRaw_pair {e : UInt8} (he : ¬e < 0x20) (t : Bytes) :
    readRaw false (0x5c :: e :: t) = (readRaw false t).map fun r => (0x5c :: e :: r.1, r.2) := by
  simp [readRaw, he, Function.comp_def]

theorem plain_hex {d : ℕ} (hd : d < 16) : Plain (hex d) := by
  have hall : ∀ d < 16, hex d ≠ 0x22 ∧ hex d ≠ 0x5c ∧ ¬hex d < 0x20 := by decide
  exact hall d hd

theorem ofHex_hex {d : ℕ} (hd : d < 16) : ofHex (hex d) = some d := by
  have hall : ∀ d < 16, ofHex (hex d) = some d := by decide
  exact hall d hd

theorem utf8_of_lt {n : ℕ} (hn : n < 0x80) : utf8 n = [UInt8.ofNat n] := by
  have hall : ∀ n < 0x80, utf8 n = [UInt8.ofNat n] := by decide
  exact hall n hn

/-- How a byte is escaped. -/
theorem escape_cases (b : UInt8) :
    (∃ e, escape b = [0x5c, e] ∧ ¬e < 0x20 ∧ e ≠ 0x75 ∧ ofLetter e = some b) ∨
    (escape b = [0x5c, 0x75, 0x30, 0x30, hex (b.toNat / 16), hex (b.toNat % 16)] ∧
      b.toNat < 0x80) ∨
    (escape b = [b] ∧ Plain b) := by
  unfold escape
  split
  · next h =>
      refine Or.inl ⟨b, rfl, ?_⟩
      rcases h with rfl | rfl
      · decide
      · decide
  · next hquote =>
      split
      · next h => exact Or.inl ⟨0x6e, rfl, by decide, by decide, h ▸ rfl⟩
      · split
        · next h => exact Or.inl ⟨0x72, rfl, by decide, by decide, h ▸ rfl⟩
        · split
          · next h => exact Or.inl ⟨0x74, rfl, by decide, by decide, h ▸ rfl⟩
          · split
            · next h =>
                refine Or.inr (Or.inl ⟨rfl, ?_⟩)
                rcases h with h | rfl | rfl | rfl
                · exact Nat.lt_trans h (by decide)
                · decide
                · decide
                · decide
            · next h =>
                push Not at hquote h
                exact Or.inr (Or.inr ⟨rfl, hquote.1, hquote.2, h.1⟩)

theorem readRaw_escape (b : UInt8) (t : Bytes) :
    readRaw false (escape b ++ t) = (readRaw false t).map fun r => (escape b ++ r.1, r.2) := by
  rcases escape_cases b with ⟨e, hb, he, -⟩ | ⟨hb, hlt⟩ | ⟨hb, hplain⟩
  · rw [hb]
    exact readRaw_pair he t
  · have hhigh : b.toNat / 16 < 16 := by omega
    have hlow : b.toNat % 16 < 16 := by omega
    have hzero : Plain 0x30 := plain_hex (by decide : 0 < 16)
    rw [hb]
    simp only [List.cons_append, List.nil_append]
    rw [readRaw_pair (by decide), readRaw_plain hzero, readRaw_plain hzero,
      readRaw_plain (plain_hex hhigh), readRaw_plain (plain_hex hlow)]
    simp only [Option.map_map]
    rfl
  · rw [hb]
    exact readRaw_plain hplain t

theorem pieces_plain {b : UInt8} (hb : b ≠ 0x5c) (t : Bytes) :
    pieces (b :: t) = (pieces t).map (.byte b :: ·) := by
  rw [pieces.eq_def]
  exact if_neg hb

theorem pieces_pair {b e : UInt8} (he : e ≠ 0x75) (hletter : ofLetter e = some b) (t : Bytes) :
    pieces (0x5c :: e :: t) = (pieces t).map (.byte b :: ·) := by
  simp [pieces, he, hletter]

theorem pieces_code {n : ℕ} (hn : n < 0x100) (t : Bytes) :
    pieces (0x5c :: 0x75 :: 0x30 :: 0x30 :: hex (n / 16) :: hex (n % 16) :: t) =
      (pieces t).map (.code n :: ·) := by
  have hcode : ofHex4 0x30 0x30 (hex (n / 16)) (hex (n % 16)) = some n := by
    have hzero : ofHex 0x30 = some 0 := rfl
    simp only [ofHex4, hzero, ofHex_hex (by omega : n / 16 < 16),
      ofHex_hex (by omega : n % 16 < 16), Option.some.injEq]
    omega
  rw [pieces.eq_def]
  simp only [if_true, hcode]

theorem bytes_code {n : ℕ} (hn : n < 0x80) (ps : List Piece) :
    bytes (.code n :: ps) = UInt8.ofNat n :: bytes ps := by
  have hne : ¬0xd800 ≤ n := by omega
  cases ps with
  | nil => simp [bytes, utf8_of_lt hn]
  | cons p ps =>
      cases p with
      | byte b => simp [bytes, utf8_of_lt hn]
      | code m => simp [bytes, utf8_of_lt hn, hne]

/-- The piece for an escaped byte. -/
theorem pieces_escape (b : UInt8) :
    ∃ p, (∀ t, pieces (escape b ++ t) = (pieces t).map (p :: ·)) ∧
      ∀ ps, bytes (p :: ps) = b :: bytes ps := by
  rcases escape_cases b with ⟨e, hb, -, he, hletter⟩ | ⟨hb, hlt⟩ | ⟨hb, hplain⟩
  · refine ⟨.byte b, fun t => ?_, fun ps => rfl⟩
    rw [hb]
    exact pieces_pair he hletter t
  · refine ⟨.code b.toNat, fun t => ?_, fun ps => ?_⟩
    · rw [hb]
      exact pieces_code b.toNat_lt t
    · rw [bytes_code hlt, UInt8.ofNat_toNat]
  · refine ⟨.byte b, fun t => ?_, fun ps => rfl⟩
    rw [hb]
    exact pieces_plain hplain.2.1 t

/-- A string is read up to its closing quote. -/
theorem reads_string (s : Bytes) :
    Reads readString (s.flatMap escape ++ [0x22]) s fun _ => True := by
  have hraw : ∀ rest, readRaw false (s.flatMap escape ++ 0x22 :: rest) =
      some (s.flatMap escape, rest) := by
    intro rest
    induction s with
    | nil => rfl
    | cons b s ih =>
        rw [List.flatMap_cons, List.append_assoc, readRaw_escape, ih]
        rfl
  have hpieces : ∃ ps, pieces (s.flatMap escape) = some ps ∧ bytes ps = s := by
    clear hraw
    induction s with
    | nil => exact ⟨[], rfl, rfl⟩
    | cons b s ih =>
        obtain ⟨ps, hps, hbytes⟩ := ih
        obtain ⟨p, hp, hcons⟩ := pieces_escape b
        refine ⟨p :: ps, ?_, ?_⟩
        · rw [List.flatMap_cons, hp, hps]
          rfl
        · rw [hcons, hbytes]
  intro rest _
  obtain ⟨ps, hps, hbytes⟩ := hpieces
  rw [List.append_assoc]
  refine bind_eq_some.mpr ⟨_, _, hraw rest, ?_⟩
  rw [hps, ← hbytes]
  rfl

theorem readRaw_closes (escaped : Bool) : Closes (readRaw escaped) (readRaw escaped) := by
  intro bs raw rest s h
  induction bs generalizing escaped raw with
  | nil => cases h
  | cons b bs ih =>
      rw [readRaw] at h
      rw [List.cons_append, readRaw]
      split at h
      · next hquote =>
          simp only [Option.some.injEq, Prod.mk.injEq] at h
          obtain ⟨rfl, rfl⟩ := h
          rw [if_pos hquote]
      · next hquote =>
          split at h
          · cases h
          · next hcontrol =>
              obtain ⟨⟨raw', rest'⟩, hraw, heq⟩ := Option.map_eq_some_iff.mp h
              simp only [Prod.mk.injEq] at heq
              obtain ⟨rfl, rfl⟩ := heq
              rw [if_neg hquote, if_neg hcontrol, ih _ raw' hraw]
              rfl

theorem readString_closes : Closes readString readString := by
  intro bs s rest t h
  obtain ⟨raw, bs', hraw, hs⟩ := bind_eq_some.mp h
  refine bind_eq_some.mpr ⟨raw, bs' ++ t, readRaw_closes false bs raw bs' t hraw, ?_⟩
  obtain ⟨ps, hps, heq⟩ := Option.map_eq_some_iff.mp hs
  simp only [Prod.mk.injEq] at heq
  obtain ⟨rfl, rfl⟩ := heq
  rw [hps]
  rfl

end Minotor.Json
