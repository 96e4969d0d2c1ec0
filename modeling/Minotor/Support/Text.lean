import Minotor.Support.Digest
import Mathlib.Data.List.Infix

/-!
# Texts as byte strings

A Go string is a byte string, so texts, keys and blobs are one type here.  The
module has the hexadecimal text of a byte string, `strings.Fields` with the
white space of `unicode.IsSpace`, and the texts of hexadecimal words which
both `strings.Fields` and `strings.Split` take apart again.
-/

namespace Minotor

/-! ## Hexadecimal texts -/

/-- One lower-case hexadecimal digit. -/
def hexDigitByte (n : ℕ) : UInt8 :=
  if n < 10 then UInt8.ofNat (48 + n) else UInt8.ofNat (87 + n)

def hexPairBytes (b : UInt8) : Bytes :=
  [hexDigitByte (b.toNat / 16), hexDigitByte (b.toNat % 16)]

/-- `hex.EncodeToString`. -/
def hexBytes (bytes : Bytes) : Bytes := bytes.flatMap hexPairBytes

/-- A byte which may stand in a hexadecimal text. -/
def IsHexDigit (b : UInt8) : Prop := 48 ≤ b ∧ b ≤ 57 ∨ 97 ≤ b ∧ b ≤ 102

instance (b : UInt8) : Decidable (IsHexDigit b) := by
  unfold IsHexDigit
  infer_instance

/-- A text of hexadecimal digits which is not empty. -/
def IsHexWord (w : Bytes) : Prop := w ≠ [] ∧ ∀ b ∈ w, IsHexDigit b

instance (w : Bytes) : Decidable (IsHexWord w) := by
  unfold IsHexWord
  infer_instance

theorem isHexDigit_hexDigitByte {n : ℕ} (hn : n < 16) : IsHexDigit (hexDigitByte n) := by
  have hall : ∀ a < 16, IsHexDigit (hexDigitByte a) := by decide
  exact hall n hn

theorem hexDigitByte_injOn {m n : ℕ} (hm : m < 16) (hn : n < 16)
    (h : hexDigitByte m = hexDigitByte n) : m = n := by
  have hall : ∀ a < 16, ∀ b < 16, hexDigitByte a = hexDigitByte b → a = b := by decide
  exact hall m hm n hn h

theorem hexPairBytes_injective {a b : UInt8} (h : hexPairBytes a = hexPairBytes b) :
    a = b := by
  have ha : a.toNat < 256 := a.toNat_lt
  have hb : b.toNat < 256 := b.toNat_lt
  simp only [hexPairBytes, List.cons.injEq, and_true] at h
  have hdiv := hexDigitByte_injOn (by omega) (by omega) h.1
  have hmod := hexDigitByte_injOn (by omega) (by omega) h.2
  exact UInt8.toNat_inj.mp (by omega)

@[simp] theorem length_hexBytes (bytes : Bytes) :
    (hexBytes bytes).length = 2 * bytes.length := by
  induction bytes with
  | nil => rfl
  | cons b bytes ih =>
      rw [hexBytes, List.flatMap_cons, List.length_append, ← hexBytes, ih, List.length_cons]
      simp only [hexPairBytes, List.length_cons, List.length_nil]
      omega

theorem hexBytes_injective : Function.Injective hexBytes := by
  intro xs ys h
  induction xs generalizing ys with
  | nil =>
      have hlen := congrArg List.length h
      rw [length_hexBytes, length_hexBytes, List.length_nil] at hlen
      exact (List.length_eq_zero_iff.mp (by omega)).symm
  | cons x xs ih =>
      cases ys with
      | nil =>
          have hlen := congrArg List.length h
          rw [length_hexBytes, length_hexBytes, List.length_nil, List.length_cons] at hlen
          omega
      | cons y ys =>
          simp only [hexBytes, List.flatMap_cons] at h
          have hsplit := List.append_inj h rfl
          rw [hexPairBytes_injective hsplit.1, ih hsplit.2]

theorem isHexDigit_of_mem_hexBytes {bytes : Bytes} {b : UInt8} (hb : b ∈ hexBytes bytes) :
    IsHexDigit b := by
  rw [hexBytes, List.mem_flatMap] at hb
  obtain ⟨a, _, hb⟩ := hb
  have ha : a.toNat < 256 := a.toNat_lt
  rw [hexPairBytes, List.mem_cons, List.mem_singleton] at hb
  rcases hb with rfl | rfl
  · exact isHexDigit_hexDigitByte (by omega)
  · exact isHexDigit_hexDigitByte (by omega)

theorem isHexWord_hexBytes {bytes : Bytes} (h : bytes ≠ []) : IsHexWord (hexBytes bytes) := by
  constructor
  · intro hnil
    have hlen := congrArg List.length hnil
    rw [length_hexBytes, List.length_nil] at hlen
    exact h (List.length_eq_zero_iff.mp (by omega))
  · intro b hb
    exact isHexDigit_of_mem_hexBytes hb

/-! ## White space -/

/-- The white space of `unicode.IsSpace`, in UTF-8. -/
def spaces : List Bytes :=
  [[0x09], [0x0a], [0x0b], [0x0c], [0x0d], [0x20], [0xc2, 0x85], [0xc2, 0xa0],
   [0xe1, 0x9a, 0x80], [0xe2, 0x80, 0x80], [0xe2, 0x80, 0x81], [0xe2, 0x80, 0x82],
   [0xe2, 0x80, 0x83], [0xe2, 0x80, 0x84], [0xe2, 0x80, 0x85], [0xe2, 0x80, 0x86],
   [0xe2, 0x80, 0x87], [0xe2, 0x80, 0x88], [0xe2, 0x80, 0x89], [0xe2, 0x80, 0x8a],
   [0xe2, 0x80, 0xa8], [0xe2, 0x80, 0xa9], [0xe2, 0x80, 0xaf], [0xe2, 0x81, 0x9f],
   [0xe3, 0x80, 0x80]]

/-- The number of bytes of the white space at the start of a text.  No UTF-8
continuation byte starts a white space, so the texts need not be decoded. -/
def spaceWidth (s : Bytes) : ℕ :=
  match spaces.find? (·.isPrefixOf s) with
  | none => 0
  | some space => space.length

/-- The rest of `strings.Fields` in the middle of the word `word`, when `skip`
bytes of a white space are still to come. -/
def fieldsFrom (skip : ℕ) (word : Bytes) : Bytes → List Bytes
  | [] => if word = [] then [] else [word]
  | b :: s =>
      match skip with
      | skip + 1 => fieldsFrom skip word s
      | 0 =>
          match spaceWidth (b :: s) with
          | 0 => fieldsFrom 0 (word ++ [b]) s
          | width + 1 =>
              if word = [] then fieldsFrom width [] s else word :: fieldsFrom width [] s

/-- `strings.Fields`. -/
def fields (s : Bytes) : List Bytes := fieldsFrom 0 [] s

theorem spaceWidth_of_isHexDigit {b : UInt8} (hb : IsHexDigit b) (s : Bytes) :
    spaceWidth (b :: s) = 0 := by
  have hspaces : ∀ space ∈ spaces, ∀ c ∈ space.head?, ¬ IsHexDigit c := by
    decide +kernel
  have hne : ∀ space ∈ spaces, space ≠ [] := by decide
  have hnone : spaces.find? (·.isPrefixOf (b :: s)) = none := by
    rw [List.find?_eq_none]
    intro space hmem
    cases space with
    | nil => exact absurd rfl (hne [] hmem)
    | cons c space =>
        have hc : ¬ c = b := by
          rintro rfl
          exact hspaces _ hmem c rfl hb
        simp [List.isPrefixOf, hc]
  rw [spaceWidth, hnone]

theorem fieldsFrom_append_of_isHexDigit {w : Bytes} (hw : ∀ b ∈ w, IsHexDigit b)
    (word s : Bytes) : fieldsFrom 0 word (w ++ s) = fieldsFrom 0 (word ++ w) s := by
  induction w generalizing word with
  | nil => rw [List.nil_append, List.append_nil]
  | cons b w ih =>
      rw [List.cons_append, fieldsFrom,
        spaceWidth_of_isHexDigit (hw b List.mem_cons_self),
        ih fun b hb => hw b (List.mem_cons_of_mem _ hb), List.append_assoc,
        List.singleton_append]

/-- Hexadecimal words on lines of their own are the fields of their text. -/
theorem fields_intercalate {ws : List Bytes} (hws : ∀ w ∈ ws, IsHexWord w) :
    fields (List.intercalate [0x0a] ws) = ws := by
  unfold fields
  induction ws with
  | nil => rfl
  | cons w ws ih =>
      have hw := hws w List.mem_cons_self
      have hrest : ∀ v ∈ ws, IsHexWord v := fun v hv => hws v (List.mem_cons_of_mem _ hv)
      cases ws with
      | nil =>
          rw [List.intercalate_singleton, ← List.append_nil w,
            fieldsFrom_append_of_isHexDigit hw.2, List.nil_append, fieldsFrom, List.append_nil,
            if_neg hw.1]
      | cons v ws =>
          have hnewline : ∀ s : Bytes, spaceWidth (0x0a :: s) = 1 := fun s => rfl
          rw [List.intercalate_cons_cons, List.append_assoc,
            fieldsFrom_append_of_isHexDigit hw.2, List.nil_append, List.singleton_append,
            fieldsFrom, hnewline]
          change (if w = [] then _ else w :: fieldsFrom 0 [] _) = w :: v :: ws
          rw [if_neg hw.1, ih hrest]

end Minotor
