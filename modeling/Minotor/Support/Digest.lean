import Mathlib.Algebra.Group.Nat.Defs
import Mathlib.Data.FinEnum

/-!
# Byte strings, hexadecimal keys and SHA-256

The standard-library functions through which blocks get their store keys.
Everything is computable, so that a concrete run can be replayed with the hash
function the program uses; results about the program leave the hash function
arbitrary.
-/

namespace Minotor

/-- A Go byte slice. -/
abbrev Bytes := List UInt8

/-- `[]byte(s)`. -/
def stringBytes (s : String) : Bytes :=
  s.toUTF8.toList

theorem toList_loop (bytes : ByteArray) (i : ℕ) (acc : Bytes) :
    ByteArray.toList.loop bytes i acc = acc.reverse ++ bytes.data.toList.drop i := by
  fun_induction ByteArray.toList.loop bytes i acc with
  | case1 i acc hlt ih =>
      have hi : i < bytes.data.toList.length := by
        rw [Array.length_toList]
        exact hlt
      have hget : bytes.get! i = bytes.data.toList[i] := by
        rw [Array.getElem_toList]
        exact getElem!_pos bytes.data i hlt
      rw [ih, List.reverse_cons, List.append_assoc, hget, List.drop_eq_getElem_cons hi]
      rfl
  | case2 i acc hge =>
      have hnil : bytes.data.toList.drop i = [] := by
        rw [List.drop_eq_nil_iff, Array.length_toList]
        exact Nat.le_of_not_lt hge
      rw [hnil, List.append_nil]

theorem stringBytes_eq (s : String) : stringBytes s = s.toByteArray.data.toList := by
  rw [stringBytes, String.toUTF8_eq_toByteArray, ByteArray.toList, toList_loop]
  rfl

theorem stringBytes_injective : Function.Injective stringBytes := by
  intro s t h
  rw [stringBytes_eq, stringBytes_eq] at h
  exact String.toByteArray_inj.mp (ByteArray.ext (Array.toList_inj.mp h))

/-! ## Hexadecimal encoding -/

/-- One lower-case hexadecimal digit. -/
def hexDigit (n : ℕ) : Char :=
  if n < 10 then Char.ofNat (48 + n) else Char.ofNat (87 + n)

def hexPair (b : UInt8) : List Char :=
  [hexDigit (b.toNat / 16), hexDigit (b.toNat % 16)]

/-- `hex.EncodeToString`. -/
def hexEncode (bytes : Bytes) : String :=
  String.ofList (bytes.flatMap hexPair)

theorem hexDigit_injOn {m n : ℕ} (hm : m < 16) (hn : n < 16)
    (h : hexDigit m = hexDigit n) : m = n := by
  have hall : ∀ a < 16, ∀ b < 16, hexDigit a = hexDigit b → a = b := by decide
  exact hall m hm n hn h

theorem hexPair_injective {a b : UInt8} (h : hexPair a = hexPair b) : a = b := by
  have ha : a.toNat < 256 := a.toNat_lt
  have hb : b.toNat < 256 := b.toNat_lt
  simp only [hexPair, List.cons.injEq, and_true] at h
  have hdiv := hexDigit_injOn (by omega) (by omega) h.1
  have hmod := hexDigit_injOn (by omega) (by omega) h.2
  exact UInt8.toNat_inj.mp (by omega)

theorem hexEncode_injective : Function.Injective hexEncode := by
  intro xs ys h
  have hlist : xs.flatMap hexPair = ys.flatMap hexPair := String.ofList_inj.mp h
  clear h
  induction xs generalizing ys with
  | nil =>
      cases ys with
      | nil => rfl
      | cons y ys => simp [hexPair] at hlist
  | cons x xs ih =>
      cases ys with
      | nil => simp [hexPair] at hlist
      | cons y ys =>
          rw [List.flatMap_cons, List.flatMap_cons] at hlist
          have hsplit := List.append_inj hlist rfl
          rw [hexPair_injective hsplit.1, ih hsplit.2]

/-! ## SHA-256 -/

namespace Sha256

/-- Fractional parts of the cube roots of the first 64 primes. -/
def roundConstants : List UInt32 :=
  [0x428a2f98, 0x71374491, 0xb5c0fbcf, 0xe9b5dba5, 0x3956c25b, 0x59f111f1,
   0x923f82a4, 0xab1c5ed5, 0xd807aa98, 0x12835b01, 0x243185be, 0x550c7dc3,
   0x72be5d74, 0x80deb1fe, 0x9bdc06a7, 0xc19bf174, 0xe49b69c1, 0xefbe4786,
   0x0fc19dc6, 0x240ca1cc, 0x2de92c6f, 0x4a7484aa, 0x5cb0a9dc, 0x76f988da,
   0x983e5152, 0xa831c66d, 0xb00327c8, 0xbf597fc7, 0xc6e00bf3, 0xd5a79147,
   0x06ca6351, 0x14292967, 0x27b70a85, 0x2e1b2138, 0x4d2c6dfc, 0x53380d13,
   0x650a7354, 0x766a0abb, 0x81c2c92e, 0x92722c85, 0xa2bfe8a1, 0xa81a664b,
   0xc24b8b70, 0xc76c51a3, 0xd192e819, 0xd6990624, 0xf40e3585, 0x106aa070,
   0x19a4c116, 0x1e376c08, 0x2748774c, 0x34b0bcb5, 0x391c0cb3, 0x4ed8aa4a,
   0x5b9cca4f, 0x682e6ff3, 0x748f82ee, 0x78a5636f, 0x84c87814, 0x8cc70208,
   0x90befffa, 0xa4506ceb, 0xbef9a3f7, 0xc67178f2]

/-- The eight working variables. -/
structure State where
  (a b c d e f g h : UInt32)

def State.initial : State :=
  ⟨0x6a09e667, 0xbb67ae85, 0x3c6ef372, 0xa54ff53a,
   0x510e527f, 0x9b05688c, 0x1f83d9ab, 0x5be0cd19⟩

def rotateRight (x n : UInt32) : UInt32 :=
  (x >>> n) ||| (x <<< (32 - n))

def wordBytes (n : UInt32) : Bytes :=
  [(n >>> 24).toUInt8, (n >>> 16).toUInt8, (n >>> 8).toUInt8, n.toUInt8]

/-- Big-endian words of a byte string. -/
def words : Bytes → List UInt32
  | a :: b :: c :: d :: rest =>
      (a.toUInt32 <<< 24 ||| b.toUInt32 <<< 16 ||| c.toUInt32 <<< 8 |||
        d.toUInt32) :: words rest
  | _ => []

/-- Extend the message schedule by `n` words, newest word first. -/
def extend : ℕ → List UInt32 → List UInt32
  | 0, ws => ws
  | n + 1, ws =>
      let w (i : ℕ) : UInt32 := ws.getD (i - 1) 0
      let s0 := rotateRight (w 15) 7 ^^^ rotateRight (w 15) 18 ^^^ (w 15 >>> 3)
      let s1 := rotateRight (w 2) 17 ^^^ rotateRight (w 2) 19 ^^^ (w 2 >>> 10)
      extend n ((w 16 + s0 + w 7 + s1) :: ws)

/-- One round, on a constant and a schedule word. -/
def round (s : State) (kw : UInt32 × UInt32) : State :=
  let s1 := rotateRight s.e 6 ^^^ rotateRight s.e 11 ^^^ rotateRight s.e 25
  let ch := (s.e &&& s.f) ^^^ (~~~s.e &&& s.g)
  let t1 := s.h + s1 + ch + kw.1 + kw.2
  let s0 := rotateRight s.a 2 ^^^ rotateRight s.a 13 ^^^ rotateRight s.a 22
  let maj := (s.a &&& s.b) ^^^ (s.a &&& s.c) ^^^ (s.b &&& s.c)
  ⟨t1 + (s0 + maj), s.a, s.b, s.c, s.d + t1, s.e, s.f, s.g⟩

def compress (s : State) (block : List UInt32) : State :=
  let schedule := (extend 48 block.reverse).reverse
  let r := (roundConstants.zip schedule).foldl round s
  ⟨s.a + r.a, s.b + r.b, s.c + r.c, s.d + r.d,
   s.e + r.e, s.f + r.f, s.g + r.g, s.h + r.h⟩

def compressBlocks : ℕ → State → List UInt32 → State
  | 0, s, _ => s
  | n + 1, s, ws => compressBlocks n (compress s (ws.take 16)) (ws.drop 16)

/-- The message, a one bit, zeros and the 64-bit length in bits. -/
def pad (m : Bytes) : Bytes :=
  let zeros := (119 - m.length % 64) % 64
  let bits := m.length * 8
  m ++ 0x80 :: List.replicate zeros 0 ++
    wordBytes (UInt32.ofNat (bits / 2 ^ 32)) ++ wordBytes (UInt32.ofNat bits)

end Sha256

open Sha256 in
/-- `crypto.SHA256`. -/
def sha256 (m : Bytes) : Bytes :=
  let padded := pad m
  let s := compressBlocks (padded.length / 64) State.initial (words padded)
  [s.a, s.b, s.c, s.d, s.e, s.f, s.g, s.h].flatMap wordBytes

theorem length_sha256 (m : Bytes) : (sha256 m).length = 32 := rfl

example : hexEncode (sha256 (stringBytes "abc")) =
    "ba7816bf8f01cfea414140de5dae2223b00361a396177a9cb410ff61f20015ad" := by
  decide +kernel

end Minotor
