import Minotor.Peer.Handler
import Mathlib.Data.Set.Function

/-!
# What a block hash binds

`buildBlock` hashes the decimal text of the step, the three strings of the value
and the previous hash, one after the other.  The hash binds the previous hash
and the text before it; nothing in the text says where one field ends.
-/

namespace Minotor

/-- `[]byte(s)` for a step, which is a `uint`, after `strconv.Itoa(int(step))`:
the text is negative from 2^63 on. -/
def itoaBytes (step : UInt64) : Bytes := stringBytes (toString step.toInt64.toInt)

/-- What is hashed before the previous hash. -/
def hashText (step : UInt64) (v : PaxosValue) : Bytes :=
  itoaBytes step ++ stringBytes v.uniqID ++ stringBytes v.filename ++ stringBytes v.metahash

/-- The block which `buildBlock` makes at a step. -/
def builtBlock (sha256 : Bytes → Bytes) (step : UInt64) (s : Storage) (v : PaxosValue) :
    BlockchainBlock where
  index := step.toNat
  hash := sha256 (hashText step v ++ s.lastBlock)
  value := v
  prevHash := s.lastBlock

theorem itoaBytes_ofNat {step : ℕ} (h : step < 2 ^ 63) :
    itoaBytes (.ofNat step) = stringBytes (toString step) := by
  have hint : (UInt64.ofNat step).toInt64.toInt = (step : ℤ) := by
    rw [← Int64.toInt_ofNat_of_lt h]
    rfl
  rw [itoaBytes, hint]
  rfl

/-- Below step 2^63 the natural numbers of the peers are the steps of the source. -/
theorem PaxosNode.buildBlock_eq (sha256 : Bytes → Bytes) (n : PaxosNode) (v : PaxosValue)
    (h : n.handler.step < 2 ^ 63) :
    (n.buildBlock sha256 v).1 = builtBlock sha256 (.ofNat n.handler.step) n.storage v := by
  have hstep : n.handler.step % 2 ^ 64 = n.handler.step := Nat.mod_eq_of_lt (by omega)
  rw [builtBlock, hashText, itoaBytes_ofNat h, UInt64.toNat_ofNat', hstep]
  rfl

section

variable {sha256 : Bytes → Bytes} {step step' : UInt64} {s s' : Storage} {v v' : PaxosValue}

theorem hash_eq_iff
    (hinj : Set.InjOn sha256 {hashText step v ++ s.lastBlock, hashText step' v' ++ s'.lastBlock})
    (hlen : s.lastBlock.length = s'.lastBlock.length) :
    (builtBlock sha256 step s v).hash = (builtBlock sha256 step' s' v').hash ↔
      s.lastBlock = s'.lastBlock ∧ hashText step v = hashText step' v' := by
  constructor
  · intro hhash
    have htext := hinj (by simp) (by simp) hhash
    exact (List.append_inj' htext hlen).symm
  · rintro ⟨hprev, htext⟩
    change sha256 _ = sha256 _
    rw [hprev, htext]

/-- The text of a step binds the value if it is known how long the fields are. -/
theorem value_eq_of_hashText (htext : hashText step v = hashText step v')
    (huniqID : (stringBytes v.uniqID).length = (stringBytes v'.uniqID).length)
    (hfilename : (stringBytes v.filename).length = (stringBytes v'.filename).length) :
    v = v' := by
  simp only [hashText, List.append_assoc, List.append_cancel_left_eq] at htext
  obtain ⟨h₁, hrest⟩ := List.append_inj htext huniqID
  obtain ⟨h₂, h₃⟩ := List.append_inj hrest hfilename
  obtain ⟨uniqID, filename, metahash⟩ := v
  simp only [stringBytes_injective.eq_iff] at h₁ h₂ h₃
  subst h₁ h₂ h₃
  rfl

/-- Storing a block replaces a block under its own key only. -/
theorem get_storeBlock {b c : BlockchainBlock} {t : Storage} {key : String}
    (h : (storeBlock b t).blockchain.get key = some (.block c)) :
    t.blockchain.get key = some (.block c) ∨ c = b ∧ key = hexEncode b.hash := by
  rw [storeBlock, Store.get_set] at h
  split at h
  · cases h
  · rw [Store.get_set] at h
    split at h
    · next hkey =>
        cases h
        exact .inr ⟨rfl, hkey⟩
    · exact .inl h

end

/-- Two blocks of `buildBlock` have the same hash exactly if they have the same
previous hash and the same text of index and value, and then they are the same
block if the steps and the lengths of the first two strings agree.  A stored block
is replaced only by one with the same previous hash and text. -/
theorem block_hash_binds {sha256 : Bytes → Bytes} {step step' : UInt64} {s s' : Storage}
    {v v' : PaxosValue}
    (hinj : Set.InjOn sha256 {hashText step v ++ s.lastBlock, hashText step' v' ++ s'.lastBlock})
    (hlen : s.lastBlock.length = 32) (hlen' : s'.lastBlock.length = 32) :
    let b := builtBlock sha256 step s v
    let b' := builtBlock sha256 step' s' v'
    (b.hash = b'.hash ↔ b.prevHash = b'.prevHash ∧ hashText step v = hashText step' v') ∧
      (b.hash = b'.hash → step = step' →
        (stringBytes v.uniqID).length = (stringBytes v'.uniqID).length →
        (stringBytes v.filename).length = (stringBytes v'.filename).length → b = b') ∧
      ∀ t c, t.blockchain.get (hexEncode b.hash) = some (.block b) →
        (storeBlock b' t).blockchain.get (hexEncode b.hash) = some (.block c) → c ≠ b →
          c = b' ∧ b.prevHash = b'.prevHash ∧ hashText step v = hashText step' v' := by
  intro b b'
  have hiff : b.hash = b'.hash ↔
      b.prevHash = b'.prevHash ∧ hashText step v = hashText step' v' :=
    hash_eq_iff hinj (hlen.trans hlen'.symm)
  refine ⟨hiff, ?_, ?_⟩
  · intro hhash hstep huniqID hfilename
    obtain ⟨hprev, htext⟩ := hiff.mp hhash
    subst hstep
    have hv : v = v' := value_eq_of_hashText htext huniqID hfilename
    have hlast : s.lastBlock = s'.lastBlock := hprev
    simp only [b, b', builtBlock, hv, hlast]
  · intro t c hget hget' hne
    rcases get_storeBlock hget' with hold | ⟨rfl, hkey⟩
    · rw [hget] at hold
      cases hold
      exact absurd rfl hne
    · exact ⟨rfl, hiff.mp (hexEncode_injective hkey)⟩

/-- Two values of the same step and unique ID: the letter b moves from the file name
to the metahash. -/
theorem block_hash_ambiguous :
    ∃ v v' : PaxosValue, v = ⟨"id", "ab", "c"⟩ ∧ v' = ⟨"id", "a", "bc"⟩ ∧
      ∀ sha256 : Bytes → Bytes,
        let b := builtBlock sha256 0 .new v
        let b' := builtBlock sha256 0 .new v'
        b.hash = b'.hash ∧ b ≠ b' ∧
          (hexEncode b.hash ≠ lastBlockKey →
            (storeBlock b .new).blockchain.get (hexEncode b.hash) = some (.block b) ∧
            (storeBlock b' (storeBlock b .new)).blockchain.get (hexEncode b.hash) =
              some (.block b')) := by
  refine ⟨_, _, rfl, rfl, ?_⟩
  intro sha256 b b'
  have htext : hashText 0 ⟨"id", "ab", "c"⟩ = hashText 0 ⟨"id", "a", "bc"⟩ := by decide +kernel
  have hhash : b.hash = b'.hash := by
    change sha256 _ = sha256 _
    rw [htext]
  refine ⟨hhash, ?_, ?_⟩
  · intro heq
    have hfilename : "ab" = "a" := congrArg (fun block => block.value.filename) heq
    revert hfilename
    decide
  · intro hkey
    rw [storeBlock, storeBlock, Store.get_set_ne _ _ hkey, Store.get_set_self,
      Store.get_set_ne _ _ hkey, hhash, Store.get_set_self]
    exact ⟨rfl, rfl⟩

theorem block_hash_binds_of_two :
    let v : PaxosValue := ⟨"id", "ab", "c"⟩
    let v' : PaxosValue := ⟨"id", "ab", "d"⟩
    (builtBlock sha256 0 .new v).hash = (builtBlock sha256 0 .new v').hash ↔
      (builtBlock sha256 0 .new v).prevHash = (builtBlock sha256 0 .new v').prevHash ∧
        hashText 0 v = hashText 0 v' := by
  intro v v'
  have hinj : Set.InjOn sha256
      {hashText 0 v ++ Storage.new.lastBlock, hashText 0 v' ++ Storage.new.lastBlock} := by
    rw [Set.injOn_pair]
    decide +kernel
  exact (block_hash_binds hinj (by decide) (by decide)).1

end Minotor
