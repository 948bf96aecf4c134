import Mathlib.Data.Nat.Basic
import Mathlib.Algebra.Group.Nat.Defs

namespace Katcp

/-- The alignments that a byte and bit pair is flagged with. -/
structure Align where
  byte : Bool
  word : Bool
deriving DecidableEq, Repr

structure ByteBit where
  bByte : Nat
  bBit : Nat
  bAlign : Align
deriving DecidableEq, Repr

namespace ByteBit

variable {long : Nat} {bb next alpha beta sigma limit : ByteBit} {byte bit : Nat}

/-- The number of bits a pair stands for. -/
def bits (bb : ByteBit) : Nat := 8 * bb.bByte + bb.bBit

/-- A pair whose parts are an unsigned long of `long` bits and an unsigned char, and whose flags
say nothing that is not so. -/
structure Truthful (long : Nat) (bb : ByteBit) : Prop where
  byte_lt : bb.bByte < 2 ^ long
  bit_lt : bb.bBit < 256
  byte : bb.bAlign.byte = true → bb.bBit < 8
  word : bb.bAlign.word = true → bb.bByte % 4 = 0 ∧ bb.bBit < 32

/-- `long` is the width of an unsigned long. -/
def makeBb (long byte bit : Nat) : Option ByteBit :=
  let delta := bit / 8
  let bByte := (byte + delta) % 2 ^ long
  if bByte < byte then none
  else some ⟨bByte, bit - delta * 8, ⟨true, bByte % 4 == 0⟩⟩

def byteNormalise (long : Nat) (bb : ByteBit) : Option ByteBit :=
  if bb.bAlign.byte then some bb
  else
    let bByte := (bb.bByte + bb.bBit / 8) % 2 ^ long
    if bByte < bb.bByte then none
    else some ⟨bByte, bb.bBit % 8, ⟨true, bByte % 4 == 0⟩⟩

def wordNormalise (long : Nat) (bb : ByteBit) : Option ByteBit :=
  if bb.bAlign.word then some bb
  else do
    let tmp ← byteNormalise long bb
    let bBit := (tmp.bByte % 4 * 8 + tmp.bBit) % 256
    some ⟨tmp.bByte / 4 * 4, bBit, ⟨bBit < 8, true⟩⟩

/-- The flags of two pairs meet. -/
def meets (bb limit : ByteBit) : Bool :=
  bb.bAlign.byte && limit.bAlign.byte || bb.bAlign.word && limit.bAlign.word

def exceedsAligned (bb limit : ByteBit) : Bool :=
  if bb.bByte < limit.bByte then false
  else if limit.bByte < bb.bByte then true
  else decide (limit.bBit < bb.bBit)

/-- Whether a pair goes beyond a limit, none where a pair can not be normalised. The flags of
two pairs that were normalised by bytes meet. -/
def exceedsBb (long : Nat) (bb limit : ByteBit) : Option Bool :=
  if bb.meets limit then some (bb.exceedsAligned limit)
  else if bb.bAlign.byte then do
    let tmp ← byteNormalise long limit
    some (bb.exceedsAligned tmp)
  else do
    let tmp ← byteNormalise long bb
    if tmp.meets limit then some (tmp.exceedsAligned limit)
    else do
      let other ← byteNormalise long limit
      some (tmp.exceedsAligned other)

/-- The sum is always normalised by words: the test of the flags that goes before is an or
and never fails. That this may fail is not looked at. -/
def addBb (long : Nat) (alpha beta : ByteBit) : Option ByteBit :=
  let bByte := (alpha.bByte + beta.bByte) % 2 ^ long
  if bByte < alpha.bByte then none
  else
    let bBit := (alpha.bBit + beta.bBit) % 256
    if bBit < alpha.bBit then none
    else
      let tmp := ⟨bByte, bBit, ⟨false, false⟩⟩
      some ((wordNormalise long tmp).getD tmp)

/-- A sum that does not fall below its first part has not wrapped. -/
theorem sum_of_not_lt {a b size : Nat} (ha : a < size) (hb : b < size) (h : ¬(a + b) % size < a) :
    (a + b) % size = a + b := by
  apply Nat.mod_eq_of_lt
  by_contra hge
  have hlow : a + b - size < size := by omega
  rw [Nat.mod_eq_sub_mod (by omega), Nat.mod_eq_of_lt hlow] at h
  omega

theorem makeBb_spec (h : makeBb long byte bit = some bb) (hbyte : byte < 2 ^ long) (hbit : bit < 2 ^ long) :
    bb.bits = 8 * byte + bit ∧ bb.Truthful long ∧ bb.bAlign.byte = true := by
  unfold makeBb at h
  dsimp only at h
  split at h
  next => simp at h
  next hwrap =>
    cases Option.some.inj h
    have hsum := sum_of_not_lt hbyte (by omega) hwrap
    have hlt : (byte + bit / 8) % 2 ^ long < 2 ^ long := Nat.mod_lt _ (by omega)
    refine ⟨?_, ⟨hlt, ?_, fun _ => ?_, fun hword => ⟨by simpa using hword, ?_⟩⟩, rfl⟩
    · unfold bits
      dsimp only
      omega
    all_goals
      dsimp only
      omega

theorem byteNormalise_spec (h : byteNormalise long bb = some next) (hbb : bb.Truthful long) (hlong : 8 ≤ long) :
    next.bits = bb.bits ∧ next.Truthful long ∧ next.bAlign.byte = true := by
  have hpow : 2 ^ 8 ≤ 2 ^ long := Nat.pow_le_pow_right (by omega) hlong
  have hbit := hbb.bit_lt
  unfold byteNormalise at h
  dsimp only at h
  split at h
  next hbyte =>
    cases Option.some.inj h
    exact ⟨rfl, hbb, hbyte⟩
  next =>
    split at h
    next => simp at h
    next hwrap =>
      cases Option.some.inj h
      have hsum := sum_of_not_lt hbb.byte_lt (by omega) hwrap
      have hlt : (bb.bByte + bb.bBit / 8) % 2 ^ long < 2 ^ long := Nat.mod_lt _ (by omega)
      refine ⟨?_, ⟨hlt, ?_, fun _ => ?_, fun hword => ⟨by simpa using hword, ?_⟩⟩, rfl⟩
      · unfold bits
        dsimp only
        omega
      all_goals
        dsimp only
        omega

/-- A pair that is normalised by words keeps its bits, and its bit part fits in a word. -/
theorem wordNormalise_spec (h : wordNormalise long bb = some next) (hbb : bb.Truthful long) (hlong : 8 ≤ long) :
    next.bits = bb.bits ∧ next.Truthful long ∧ next.bAlign.word = true := by
  unfold wordNormalise at h
  split at h
  next hword =>
    cases Option.some.inj h
    exact ⟨rfl, hbb, hword⟩
  next =>
    obtain ⟨tmp, htmp, hnext⟩ := Option.bind_eq_some_iff.mp h
    cases Option.some.inj hnext
    obtain ⟨hbits, htruthful, hbyte⟩ := byteNormalise_spec htmp hbb hlong
    have hlow := htruthful.byte hbyte
    have hlt := htruthful.byte_lt
    have hfits : (tmp.bByte % 4 * 8 + tmp.bBit) % 256 = tmp.bByte % 4 * 8 + tmp.bBit :=
      Nat.mod_eq_of_lt (by omega)
    refine ⟨?_, ⟨?_, ?_, fun hb => by simpa using hb, fun _ => ⟨?_, ?_⟩⟩, rfl⟩
    · rw [← hbits]
      unfold bits
      dsimp only
      omega
    all_goals
      dsimp only
      omega

theorem exceedsAligned_of_meets (hmeets : bb.meets limit = true) (hbb : bb.Truthful long)
    (hlimit : limit.Truthful long) : bb.exceedsAligned limit = decide (limit.bits < bb.bits) := by
  have hsame : bb.bBit < 8 ∧ limit.bBit < 8 ∨
      (bb.bByte % 4 = 0 ∧ bb.bBit < 32) ∧ limit.bByte % 4 = 0 ∧ limit.bBit < 32 := by
    unfold meets at hmeets
    simp only [Bool.or_eq_true, Bool.and_eq_true] at hmeets
    exact hmeets.imp (fun h => ⟨hbb.byte h.1, hlimit.byte h.2⟩) fun h => ⟨hbb.word h.1, hlimit.word h.2⟩
  unfold exceedsAligned bits
  split
  next => exact (decide_eq_false (by omega)).symm
  next =>
    split
    next => exact (decide_eq_true (by omega)).symm
    next => exact decide_eq_decide.mpr (by omega)

theorem le_of_exceedsAligned (h : bb.exceedsAligned limit = false) (hmeets : bb.meets limit = true)
    (hbb : bb.Truthful long) (hlimit : limit.Truthful long) : bb.bits ≤ limit.bits := by
  rw [exceedsAligned_of_meets hmeets hbb hlimit] at h
  simpa using h

/-- Where a pair is found not to exceed a limit it does not. -/
theorem le_of_exceedsBb (h : exceedsBb long bb limit = some false) (hbb : bb.Truthful long)
    (hlimit : limit.Truthful long) (hlong : 8 ≤ long) : bb.bits ≤ limit.bits := by
  unfold exceedsBb at h
  split at h
  next hmeets => exact le_of_exceedsAligned (Option.some.inj h) hmeets hbb hlimit
  next =>
    split at h
    next hb =>
      obtain ⟨tmp, htmp, he⟩ := Option.bind_eq_some_iff.mp h
      obtain ⟨hbits, htruthful, hbyte⟩ := byteNormalise_spec htmp hlimit hlong
      rw [← hbits]
      exact le_of_exceedsAligned (Option.some.inj he) (by simp [meets, hb, hbyte]) hbb htruthful
    next =>
      obtain ⟨tmp, htmp, hrest⟩ := Option.bind_eq_some_iff.mp h
      obtain ⟨hbits, htruthful, hbyte⟩ := byteNormalise_spec htmp hbb hlong
      rw [← hbits]
      split at hrest
      next hmeets => exact le_of_exceedsAligned (Option.some.inj hrest) hmeets htruthful hlimit
      next =>
        obtain ⟨other, hother, he⟩ := Option.bind_eq_some_iff.mp hrest
        obtain ⟨hobits, hotruthful, hobyte⟩ := byteNormalise_spec hother hlimit hlong
        rw [← hobits]
        exact le_of_exceedsAligned (Option.some.inj he) (by simp [meets, hbyte, hobyte]) htruthful hotruthful

/-- The sum of two pairs normalised by words, which is not normalised itself where that wraps. -/
theorem addBb_spec (h : addBb long alpha beta = some sigma) (halpha : alpha.Truthful long)
    (hbeta : beta.Truthful long) (haword : alpha.bAlign.word = true) (hbword : beta.bAlign.word = true)
    (hlong : 8 ≤ long) :
    sigma.bits = alpha.bits + beta.bits ∧ sigma.Truthful long ∧
      (sigma.bAlign.word = true ∨ 8 * 2 ^ long ≤ sigma.bits) := by
  have ha := (halpha.word haword).2
  have hb := (hbeta.word hbword).2
  unfold addBb at h
  dsimp only at h
  split at h
  next => simp at h
  next hwrap =>
    split at h
    next => simp at h
    next =>
      have hbyte := sum_of_not_lt halpha.byte_lt hbeta.byte_lt hwrap
      have hbit : (alpha.bBit + beta.bBit) % 256 = alpha.bBit + beta.bBit := Nat.mod_eq_of_lt (by omega)
      have hlt : (alpha.bByte + beta.bByte) % 2 ^ long < 2 ^ long := Nat.mod_lt _ (by omega)
      rw [hbit, hbyte] at h
      rw [hbyte] at hlt
      have htmp : (⟨alpha.bByte + beta.bByte, alpha.bBit + beta.bBit, ⟨false, false⟩⟩ : ByteBit).Truthful long :=
        ⟨hlt, by dsimp only; omega, by simp, by simp⟩
      cases hn : wordNormalise long ⟨alpha.bByte + beta.bByte, alpha.bBit + beta.bBit, ⟨false, false⟩⟩ with
      | some tmp =>
        rw [hn, Option.getD_some] at h
        cases Option.some.inj h
        obtain ⟨hbits, htruthful, hword⟩ := wordNormalise_spec hn htmp hlong
        refine ⟨?_, htruthful, Or.inl hword⟩
        rw [hbits]
        unfold bits
        dsimp only
        omega
      | none =>
        rw [hn, Option.getD_none] at h
        cases Option.some.inj h
        refine ⟨?_, htmp, Or.inr ?_⟩
        · unfold bits
          dsimp only
          omega
        · unfold bits
          dsimp only
          by_contra hsmall
          have hsum : alpha.bByte + beta.bByte + (alpha.bBit + beta.bBit) / 8 < 2 ^ long := by omega
          simp [wordNormalise, byteNormalise, Nat.mod_eq_of_lt hsum] at hn

end ByteBit

end Katcp
