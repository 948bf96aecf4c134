import Mathlib.Data.List.GetD
import Mathlib.Data.Nat.Basic

namespace BitMemory

/-- A memory of bytes, found by their addresses. -/
abbrev Bytes := Nat → BitVec 8

/-- The bits of a memory in a row, the most significant bit of each byte first. -/
def bit (m : Bytes) (p : Nat) : Bool := (m (p / 8)).getMsbD (p % 8)

/-- The word at an address of a memory whose words have their high byte first. -/
def word (m : Bytes) (a : Nat) : BitVec 32 := m a ++ m (a + 1) ++ m (a + 2) ++ m (a + 3)

def setWord (m : Bytes) (a : Nat) (w : BitVec 32) : Bytes := fun k =>
  if a ≤ k ∧ k < a + 4 then w.extractLsb' (8 * (3 - (k - a))) 8 else m k

/-- The memory with given bits. -/
def ofBits (f : Nat → Bool) : Bytes := fun a =>
  BitVec.ofBoolListBE [f (8 * a), f (8 * a + 1), f (8 * a + 2), f (8 * a + 3), f (8 * a + 4), f (8 * a + 5),
    f (8 * a + 6), f (8 * a + 7)]

/-- The bits of a memory with so many bits of a buffer at a place. -/
def copied (m buffer : Bytes) (p count q : Nat) : Bool := if p ≤ q ∧ q < p + count then bit buffer (q - p) else bit m q

/-- The bytes of a word as they lie in memory. -/
def wordBytes (w : BitVec 32) : List (BitVec 8) :=
  [w.extractLsb' 24 8, w.extractLsb' 16 8, w.extractLsb' 8 8, w.extractLsb' 0 8]

/-- The bits of a list of bytes in a row, false from its end on. -/
def listBit (bytes : List (BitVec 8)) (q : Nat) : Bool := (bytes.getD (q / 8) 0#8).getMsbD (q % 8)

variable {m : Bytes} {a i p q n : Nat} {w : BitVec 32} {bytes rest : List (BitVec 8)}

theorem getMsbD_word (hi : i < 32) : (word m a).getMsbD i = bit m (8 * a + i) := by
  unfold word bit
  simp only [BitVec.getMsbD_append]
  split
  next h =>
    rw [show (8 * a + i) / 8 = a + 3 by omega, show (8 * a + i) % 8 = i - (8 + 8 + 8) by omega]
  next h =>
    split
    next h' =>
      rw [show (8 * a + i) / 8 = a + 2 by omega, show (8 * a + i) % 8 = i - (8 + 8) by omega]
    next h' =>
      split
      next h'' => rw [show (8 * a + i) / 8 = a + 1 by omega, show (8 * a + i) % 8 = i - 8 by omega]
      next h'' => rw [show (8 * a + i) / 8 = a by omega, show (8 * a + i) % 8 = i by omega]

/-- Storing a word changes its own bits and no other. -/
theorem bit_setWord : bit (setWord m a w) p =
    if 8 * a ≤ p ∧ p < 8 * a + 32 then w.getMsbD (p - 8 * a) else bit m p := by
  unfold bit setWord
  by_cases h : a ≤ p / 8 ∧ p / 8 < a + 4
  · have hp : 8 * a ≤ p ∧ p < 8 * a + 32 := by omega
    rw [if_pos h, if_pos hp, BitVec.getMsbD_extractLsb', decide_eq_true (by omega : p % 8 < 8),
      decide_eq_true (by omega : 8 * (3 - (p / 8 - a)) + 8 - p % 8 ≤ 32), Bool.true_and, Bool.true_and]
    congr 1
    omega
  · rw [if_neg h, if_neg (by omega)]

theorem bit_ofBits (f : Nat → Bool) : bit (ofBits f) p = f p := by
  have hcases : p % 8 = 0 ∨ p % 8 = 1 ∨ p % 8 = 2 ∨ p % 8 = 3 ∨ p % 8 = 4 ∨ p % 8 = 5 ∨ p % 8 = 6 ∨ p % 8 = 7 := by
    omega
  unfold bit ofBits
  rw [BitVec.getMsbD_ofBoolListBE]
  rcases hcases with h | h | h | h | h | h | h | h <;> rw [h] <;>
    simp only [List.getD_cons_zero, List.getD_cons_succ] <;> congr 1 <;> omega

/-- A memory that holds other bits up to an address and is as before from there on. -/
def Written (before : Bytes) (target : Nat → Bool) (a : Nat) (m : Bytes) : Prop :=
  ∀ p, bit m p = if p < 8 * a then target p else bit before p

theorem Written.word {before : Bytes} {target : Nat → Bool} (h : Written before target a m)
    (hw : ∀ i < 32, w.getMsbD i = target (8 * a + i)) : Written before target (a + 4) (setWord m a w) := by
  intro q
  rw [bit_setWord]
  split
  next hq => rw [hw _ (by omega), if_pos (by omega), show 8 * a + (q - 8 * a) = q by omega]
  next hq =>
    rw [h q]
    by_cases hlow : q < 8 * a
    · rw [if_pos hlow, if_pos (by omega)]
    · rw [if_neg hlow, if_neg (by omega)]

/-- A memory that is to keep its bits up to an address. -/
theorem Written.start {target : Nat → Bool} (h : ∀ p < 8 * a, target p = bit m p) : Written m target a m := by
  intro q
  split
  next hq => exact (h q hq).symm
  next => rfl

theorem copied_inside {buffer : Bytes} {count : Nat} (h : q < count) : copied m buffer p count (p + q) = bit buffer q := by
  rw [copied, if_pos (by omega), Nat.add_sub_cancel_left]

theorem copied_before {buffer : Bytes} {count : Nat} (h : q < p) : copied m buffer p count q = bit m q := by
  rw [copied, if_neg (by omega)]

theorem copied_behind {buffer : Bytes} {count : Nat} (h : p + count ≤ q) : copied m buffer p count q = bit m q := by
  rw [copied, if_neg (by omega)]

theorem copied_none {buffer : Bytes} : copied m buffer p 0 q = bit m q := by
  rw [copied, if_neg (by omega)]

theorem length_wordBytes : (wordBytes w).length = 4 := rfl

theorem listBit_wordBytes (hq : q < 32) : listBit (wordBytes w) q = w.getMsbD q := by
  have hcases : q / 8 = 0 ∨ q / 8 = 1 ∨ q / 8 = 2 ∨ q / 8 = 3 := by omega
  unfold listBit wordBytes
  rcases hcases with h | h | h | h <;> rw [h] <;>
    simp only [List.getD_cons_zero, List.getD_cons_succ, BitVec.getMsbD_extractLsb'] <;>
    rw [decide_eq_true (by omega : q % 8 < 8), decide_eq_true (by omega), Bool.true_and, Bool.true_and] <;>
    congr 1 <;> omega

theorem listBit_take (hq : q < 8 * n) : listBit (bytes.take n) q = listBit bytes q := by
  unfold listBit
  rw [List.getD_eq_getElem?_getD, List.getElem?_take_of_lt (by omega), ← List.getD_eq_getElem?_getD]

theorem listBit_append_left (hq : q < 8 * bytes.length) : listBit (bytes ++ rest) q = listBit bytes q := by
  unfold listBit
  rw [List.getD_append _ _ _ _ (by omega)]

theorem listBit_append_right (hq : 8 * bytes.length ≤ q) :
    listBit (bytes ++ rest) q = listBit rest (q - 8 * bytes.length) := by
  unfold listBit
  rw [List.getD_append_right _ _ _ _ (by omega), show q / 8 - bytes.length = (q - 8 * bytes.length) / 8 by omega,
    show q % 8 = (q - 8 * bytes.length) % 8 by omega]

end BitMemory
