import Minotor.Support.Json.Numbers
import Minotor.Support.Json.Strings

/-!
# JSON

JSON values, how they are printed without spaces, and how a text is read.  Strings
are byte strings and numbers keep their digits; the names in an object keep their
order and may repeat.

A value is read back from its text, and the text of an object is not read when its
end is cut off.
-/

namespace Minotor

open Reader

/-- A JSON value. -/
inductive Json where
  | null
  | bool (b : Bool)
  | num (n : Json.Number)
  | str (s : Bytes)
  | arr (elems : List Json)
  | obj (fields : List (Bytes × Json))

namespace Json

mutual

/-- The text of a value, without spaces. -/
def print : Json → Bytes
  | null => 0x6e :: [0x75, 0x6c, 0x6c]
  | bool true => 0x74 :: [0x72, 0x75, 0x65]
  | bool false => 0x66 :: [0x61, 0x6c, 0x73, 0x65]
  | num n => n.lit
  | str s => printString s
  | arr elems => 0x5b :: (List.intercalate [0x2c] (printElems elems) ++ [0x5d])
  | obj fields => 0x7b :: (List.intercalate [0x2c] (printFields fields) ++ [0x7d])

def printElems : List Json → List Bytes
  | [] => []
  | v :: vs => print v :: printElems vs

def printFields : List (Bytes × Json) → List Bytes
  | [] => []
  | (k, v) :: fields => (printString k ++ 0x3a :: print v) :: printFields fields

end

def isSpace (b : UInt8) : Bool := b = 0x20 || b = 0x09 || b = 0x0a || b = 0x0d

/-- A name in an object with its value. -/
def readField (value : Reader UInt8 Json) : Reader UInt8 (Bytes × Json) :=
  token isSpace 0x22 (readString.bind fun k => token isSpace 0x3a (value.map (Prod.mk k)))

def readElems (value : Reader UInt8 Json) (n : ℕ) : Reader UInt8 Json :=
  (seq isSpace 0x2c 0x5d value n).map arr

def readFields (value : Reader UInt8 Json) (n : ℕ) : Reader UInt8 Json :=
  (seq isSpace 0x2c 0x7d (readField value) n).map obj

/-- A value which begins with the byte `b`. -/
def readBody (value : Reader UInt8 Json) (n : ℕ) (b : UInt8) : Reader UInt8 Json :=
  if b = 0x7b then readFields value n
  else if b = 0x5b then readElems value n
  else if b = 0x22 then readString.map str
  else if b = 0x6e then word [0x75, 0x6c, 0x6c] null
  else if b = 0x74 then word [0x72, 0x75, 0x65] (bool true)
  else if b = 0x66 then word [0x61, 0x6c, 0x73, 0x65] (bool false)
  else fun bs => readNumber.map num (b :: bs)

/-- A value, with values inside it up to the given depth. -/
def readValue : ℕ → Reader UInt8 Json
  | 0, _ => none
  | n + 1, bs =>
      match bs.dropWhile isSpace with
      | [] => none
      | b :: bs => readBody (readValue n) n b bs

/-- A text with one value and spaces. -/
def parse (bs : Bytes) : Option Json :=
  match readValue (bs.length + 1) bs with
  | none => none
  | some (v, rest) => if rest.all isSpace then some v else none

/-! ## The end of a value -/

theorem readField_extends {p q : Reader UInt8 Json} (h : Extends p q) :
    Extends (readField p) (readField q) :=
  (readString_closes.bind fun k => (h.map (Prod.mk k)).token).token

theorem readFields_closes {p q : Reader UInt8 Json} (h : Extends p q) {n m : ℕ} (hnm : n ≤ m) :
    Closes (readFields p n) (readFields q m) :=
  ((readField_extends h).seq hnm).map obj

theorem readElems_closes {p q : Reader UInt8 Json} (h : Extends p q) {n m : ℕ} (hnm : n ≤ m) :
    Closes (readElems p n) (readElems q m) :=
  (h.seq hnm).map arr

theorem readBody_extends {p q : Reader UInt8 Json} (h : Extends p q) {n m : ℕ} (hnm : n ≤ m)
    (b : UInt8) : Extends (readBody p n b) (readBody q m b) := by
  unfold readBody
  split
  · exact (readFields_closes h hnm).extends
  · split
    · exact (readElems_closes h hnm).extends
    · split
      · exact (readString_closes.map str).extends
      · split
        · exact (word_closes _ _).extends
        · split
          · exact (word_closes _ _).extends
          · split
            · exact (word_closes _ _).extends
            · intro bs v rest s hv hs
              exact readNumber_extends.map num (b :: bs) v rest s hv hs

theorem readValue_extends {n m : ℕ} (hnm : n ≤ m) : Extends (readValue n) (readValue m) := by
  induction n generalizing m with
  | zero =>
      intro bs v rest s h
      cases h
  | succ n ih =>
      obtain ⟨m, rfl⟩ := Nat.exists_eq_add_of_le' hnm
      intro bs v rest s h hs
      rw [readValue] at h
      split at h
      · cases h
      · next b bs' hdrop =>
          rw [← Nat.add_assoc, readValue, dropWhile_append_of_cons s hdrop]
          have hnm' : n ≤ m + n := Nat.le_add_left n m
          exact readBody_extends (ih hnm') hnm' b bs' v rest s h hs

/-! ## Reading back -/

def printField (f : Bytes × Json) : Bytes := printString f.1 ++ 0x3a :: print f.2

theorem printElems_eq (vs : List Json) : printElems vs = vs.map print := by
  induction vs with
  | nil => rfl
  | cons v vs ih => rw [printElems, ih, List.map_cons]

theorem printFields_eq (fields : List (Bytes × Json)) :
    printFields fields = fields.map printField := by
  induction fields with
  | nil => rfl
  | cons f fields ih =>
      rw [printFields, ih, List.map_cons]
      rfl

theorem length_le_intercalate {c : UInt8} {t : Bytes} {texts : List Bytes} (h : t ∈ texts) :
    t.length ≤ (List.intercalate [c] texts).length := by
  induction texts with
  | nil => cases h
  | cons u texts ih =>
      cases texts with
      | nil =>
          rw [List.mem_singleton.mp h, List.intercalate_singleton]
      | cons w texts =>
          rw [List.intercalate_cons_cons, List.length_append, List.length_append]
          rcases List.mem_cons.mp h with rfl | h
          · omega
          · have hle := ih h
            omega

theorem length_le_length_intercalate {c : UInt8} (texts : List Bytes) :
    texts.length ≤ (List.intercalate [c] texts).length + 1 := by
  induction texts with
  | nil => exact Nat.zero_le _
  | cons u texts ih =>
      cases texts with
      | nil => exact Nat.le_add_left 1 _
      | cons w texts =>
          rw [List.intercalate_cons_cons, List.length_append, List.length_append]
          rw [List.length_cons, List.length_singleton]
          omega

/-- Items between brackets are fewer and shorter than the text. -/
theorem length_of_brackets {α : Type*} {xs : List α} {print : α → Bytes} {texts : List Bytes}
    {b c d : UInt8} {n : ℕ} (htexts : texts = xs.map print)
    (h : (b :: (List.intercalate [c] texts ++ [d])).length ≤ n + 1) :
    xs.length ≤ n ∧ ∀ x ∈ xs, (print x).length < n := by
  rw [List.length_cons, List.length_append, List.length_singleton] at h
  subst htexts
  constructor
  · have hle := length_le_length_intercalate (c := c) (xs.map print)
    rw [List.length_map] at hle
    omega
  · intro x hx
    have hle := length_le_intercalate (c := c) (List.mem_map_of_mem (f := print) hx)
    omega

/-- A number begins with a digit or a minus sign. -/
theorem number_first (n : Number) :
    ∃ b bs, n.lit = b :: bs ∧ (b = 0x2d ∨ isDigit b = true) := by
  cases hlit : n.lit with
  | nil =>
      have hvalid := n.valid
      rw [hlit] at hvalid
      cases hvalid
  | cons b bs =>
      refine ⟨b, bs, rfl, ?_⟩
      by_contra hother
      push Not at hother
      have hzero : b ≠ 0x30 := by
        rintro rfl
        exact hother.2 rfl
      have hnext : NumState.next .start b = none := by
        simp [NumState.next, hother.1, hother.2, hzero]
      have hvalid := n.valid
      rw [hlit, scan, hnext] at hvalid
      cases hvalid

theorem ne_of_number_first {b c : UInt8} (hb : b = 0x2d ∨ isDigit b = true)
    (hc : c ≠ 0x2d ∧ isDigit c = false) : b ≠ c := by
  rintro rfl
  rcases hb with rfl | hdigit
  · exact hc.1 rfl
  · exact Bool.noConfusion (hdigit.symm.trans hc.2)

theorem print_first (v : Json) : ∃ b bs, print v = b :: bs ∧ isSpace b = false ∧ b ≠ 0x5d := by
  cases v with
  | num n =>
      obtain ⟨b, bs, hlit, hb⟩ := number_first n
      have hne : ∀ c, c ≠ 0x2d ∧ isDigit c = false → b ≠ c := fun c => ne_of_number_first hb
      refine ⟨b, bs, hlit, ?_, hne _ (by decide)⟩
      simp [isSpace, hne 0x20 (by decide), hne 0x09 (by decide), hne 0x0a (by decide),
        hne 0x0d (by decide)]
  | bool b =>
      cases b with
      | true => exact ⟨_, _, rfl, rfl, by decide⟩
      | false => exact ⟨_, _, rfl, rfl, by decide⟩
  | _ => exact ⟨_, _, rfl, rfl, by decide⟩

theorem reads_of_body {n : ℕ} {b : UInt8} {bs : Bytes} {v : Json} {stops : Bytes → Prop}
    (hb : isSpace b = false) (h : Reads (readBody (readValue n) n b) bs v stops) :
    Reads (readValue (n + 1)) (b :: bs) v stops := by
  intro rest hrest
  have hdrop : (b :: (bs ++ rest)).dropWhile isSpace = b :: (bs ++ rest) :=
    List.dropWhile_cons_of_neg (Bool.eq_false_iff.mp hb)
  rw [List.cons_append, readValue, hdrop]
  exact h rest hrest

theorem reads_field {value : Reader UInt8 Json} {f : Bytes × Json}
    (h : Reads value (print f.2) f.2 Stops) :
    Reads (readField value) (printField f) f Stops := by
  have hvalue : Reads (token isSpace 0x3a (value.map (Prod.mk f.1))) (0x3a :: print f.2) f Stops :=
    (h.map (Prod.mk f.1)).token rfl
  have hname : Reads (readString.bind fun k => token isSpace 0x3a (value.map (Prod.mk k)))
      (f.1.flatMap escape ++ [0x22] ++ 0x3a :: print f.2) f Stops :=
    (reads_string f.1).bind hvalue
  exact hname.token rfl

theorem reads_elems {value : Reader UInt8 Json} {n : ℕ} {elems : List Json}
    (hn : elems.length ≤ n) (h : ∀ v ∈ elems, Reads value (print v) v Stops) :
    Reads (readElems value n) (List.intercalate [0x2c] (printElems elems) ++ [0x5d])
      (arr elems) fun _ => True := by
  rw [printElems_eq]
  apply Reads.map arr
  apply reads_seq rfl rfl (by decide) (fun _ => ⟨rfl, by decide⟩) (fun _ => ⟨rfl, by decide⟩) hn h
  intro v _
  exact print_first v

theorem reads_fields {value : Reader UInt8 Json} {n : ℕ} {fields : List (Bytes × Json)}
    (hn : fields.length ≤ n) (h : ∀ f ∈ fields, Reads value (print f.2) f.2 Stops) :
    Reads (readFields value n) (List.intercalate [0x2c] (printFields fields) ++ [0x7d])
      (obj fields) fun _ => True := by
  rw [printFields_eq]
  apply Reads.map obj
  apply reads_seq rfl rfl (by decide) (fun _ => ⟨rfl, by decide⟩) (fun _ => ⟨rfl, by decide⟩) hn
    (fun f hf => reads_field (h f hf))
  intro f _
  exact ⟨0x22, _, rfl, rfl, by decide⟩

theorem reads_number_body {value : Reader UInt8 Json} {n : ℕ} {m : Number} {b : UInt8} {bs : Bytes}
    (hlit : m.lit = b :: bs) (hb : b = 0x2d ∨ isDigit b = true) :
    Reads (readBody value n b) bs (num m) Stops := by
  have hne : ∀ c, c ≠ 0x2d ∧ isDigit c = false → b ≠ c := fun c => ne_of_number_first hb
  intro rest hrest
  rw [readBody, if_neg (hne _ (by decide)), if_neg (hne _ (by decide)), if_neg (hne _ (by decide)),
    if_neg (hne _ (by decide)), if_neg (hne _ (by decide)), if_neg (hne _ (by decide))]
  rw [← List.cons_append, ← hlit]
  exact (reads_number m).map num rest hrest

theorem length_of_field {f : Bytes × Json} {n : ℕ} (h : (printField f).length < n) :
    (print f.2).length < n := by
  rw [printField, List.length_append, List.length_cons] at h
  omega

/-- The text of a value is read, if it is not too long for the depth. -/
theorem reads_value {n : ℕ} {v : Json} (h : (print v).length ≤ n) :
    Reads (readValue (n + 1)) (print v) v Stops := by
  induction n generalizing v with
  | zero =>
      obtain ⟨b, bs, hprint, -⟩ := print_first v
      rw [hprint] at h
      cases h
  | succ n ih =>
      have hany : ∀ rest : Bytes, Stops rest → True := fun _ _ => trivial
      cases v with
      | null => exact reads_of_body rfl ((reads_word [0x75, 0x6c, 0x6c] null).mono hany)
      | bool b =>
          cases b with
          | true => exact reads_of_body rfl ((reads_word [0x72, 0x75, 0x65] (bool true)).mono hany)
          | false =>
              exact reads_of_body rfl ((reads_word [0x61, 0x6c, 0x73, 0x65] (bool false)).mono hany)
      | num m =>
          obtain ⟨b, bs, hlit, hb⟩ := number_first m
          have hspace : isSpace b = false := by
            obtain ⟨c, cs, hprint, hc, -⟩ := print_first (num m)
            rw [print, hlit] at hprint
            rwa [(List.cons.inj hprint).1]
          rw [print, hlit]
          exact reads_of_body hspace (reads_number_body hlit hb)
      | str s => exact reads_of_body rfl (((reads_string s).map str).mono hany)
      | arr elems =>
          obtain ⟨hn, hle⟩ := length_of_brackets (printElems_eq elems) h
          have hbody := reads_elems (hn.trans (Nat.le_succ n)) fun v hv => ih (hle v hv).le
          exact reads_of_body rfl (hbody.mono hany)
      | obj fields =>
          obtain ⟨hn, hle⟩ := length_of_brackets (printFields_eq fields) h
          have hbody := reads_fields (hn.trans (Nat.le_succ n)) fun f hf =>
            ih (length_of_field (hle f hf)).le
          exact reads_of_body rfl (hbody.mono hany)

theorem parse_print (v : Json) : parse (print v) = some v := by
  have hread := reads_value (v := v) le_rfl [] trivial
  rw [List.append_nil] at hread
  rw [parse, hread]
  rfl

/-- The text of an object is not read when its end is cut off. -/
theorem parse_take (fields : List (Bytes × Json)) {n : ℕ} (hn : n < (print (obj fields)).length) :
    parse ((print (obj fields)).take n) = none := by
  cases n with
  | zero => rfl
  | succ n =>
      let t := List.intercalate [0x2c] (printFields fields) ++ [0x7d]
      have hlength : (print (obj fields)).length = t.length + 1 := by
        rw [print, List.length_cons]
      obtain ⟨hle, hlt⟩ := length_of_brackets (printFields_eq fields) hlength.le
      have hreads : Reads (readFields (readValue (t.length + 1)) (t.length + 1)) t (obj fields)
          fun _ => True :=
        reads_fields (hle.trans (Nat.le_succ t.length))
          fun f hf => reads_value (length_of_field (hlt f hf)).le
      have hread := hreads [] trivial
      rw [List.append_nil] at hread
      have hfuel : (t.take n).length + 1 ≤ t.length + 1 :=
        Nat.succ_le_succ (List.length_take_le' n t)
      have hnone := (readFields_closes (readValue_extends hfuel) hfuel).take_eq_none hread
        (Nat.lt_of_succ_lt_succ (hn.trans_eq hlength))
      have hvalue : readValue ((t.take n).length + 1 + 1) (0x7b :: t.take n) = none := hnone
      rw [print, List.take_succ_cons, parse, List.length_cons, hvalue]

end Json
end Minotor
