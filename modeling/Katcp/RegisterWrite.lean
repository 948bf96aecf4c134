import Katcp.ByteBit
import Katcp.RegisterWindow

namespace Katcp

section

open BitMemory

/-- The shifts of the host, which take six bits of a count and leave nothing from 32 on. -/
def slw (w : BitVec 32) (count : Nat) : BitVec 32 := if count % 64 < 32 then w <<< (count % 64) else 0

def srw (w : BitVec 32) (count : Nat) : BitVec 32 := if count % 64 < 32 then w >>> (count % 64) else 0

/-- The count 32 - n as an unsigned int. -/
def fromWord (n : Nat) : Nat := (2 ^ 32 + 32 - n) % 2 ^ 32

/-- A request to write a register that passed the checks: where in the mapping it starts and how
many words and bits it has. -/
structure WritePlan where
  ptrBase : Nat
  ptrOffset : Nat
  copyWordsFloor : Nat
  copyBits : Nat
deriving DecidableEq, Repr

/-- The length of a request as it is given, or else that of its data. The flags of the latter
are not initialised: they are what lies on the stack. -/
def writeLength (long blen : Nat) (length : Option (Nat × Nat)) (flags : Align) : Option ByteBit :=
  match length.bind fun given => ByteBit.makeBb long given.1 given.2 with
  | none =>
    let len : ByteBit := ⟨blen, 0, flags⟩
    some ((len.wordNormalise long).getD len)
  | some given => do
    let len := (given.wordNormalise long).getD given
    guard ((len.bByte * 8 + len.bBit) % 2 ^ 32 ≤ blen * 8 % 2 ^ 32)
    some len

/-- The checks of a request, before the fpga is read. The position is added to an offset that is
normalised already, and its flags are kept. -/
def writePlan (long : Nat) (win : FpgaWindow) (te : TbsEntry) (offset : Nat × Nat) (length : Option (Nat × Nat))
    (blen : Nat) (flags : Align) : Option WritePlan := do
  guard (win.rFpga = .ready)
  guard (te.eMode.writable = true)
  let off ← ByteBit.makeBb long offset.1 offset.2
  let registerBits := (te.eLenBase * 8 + te.eLenOffset) % 2 ^ 32
  let startBits := (off.bByte * 8 + off.bBit) % 2 ^ 32
  let len ← writeLength long blen length flags
  let copyBits := (len.bByte * 8 + len.bBit) % 2 ^ 32
  guard ((startBits + copyBits) % 2 ^ 32 ≤ registerBits)
  let moved : ByteBit := ⟨(off.bByte + te.ePosBase) % 2 ^ long, (off.bBit + te.ePosOffset) % 256, off.bAlign⟩
  let off := (moved.wordNormalise long).getD moved
  some ⟨off.bByte % 2 ^ 32, off.bBit, len.bByte / 4 % 2 ^ 32, copyBits⟩

/-- The loop over whole words of the data, which lie at the start of a buffer. -/
def storeWords (win : FpgaWindow) (buffer : Bytes) (ptrOffset : Nat) :
    Nat → Nat → Bytes → Nat → BitVec 32 → Option (Bytes × Nat × BitVec 32)
  | 0, _, m, ptrBase, prev => some (m, ptrBase, prev)
  | n + 1, i, m, ptrBase, prev => do
    let value := word buffer (4 * i)
    let m ← win.store m ptrBase (prev ||| srw value ptrOffset)
    storeWords win buffer ptrOffset n (i + 1) m ((ptrBase + 4) % 2 ^ 32) (slw value (fromWord ptrOffset))

/-- The last word of a request, the end of which is read from the fpga. -/
def writeLast (win : FpgaWindow) (m : Bytes) (ptrBase : Nat) (prev : BitVec 32) (prefixBits remaining : Nat) :
    Option (Bool × Bytes) :=
  if remaining = 0 then some (true, m)
  else if win.beyond ptrBase then some (false, m)
  else do
    let current ← win.load m ptrBase
    let update := prev &&& slw (BitVec.allOnes 32) (fromWord (prefixBits + remaining)) |||
      current &&& srw (BitVec.allOnes 32) (prefixBits + remaining)
    let m ← win.store m ptrBase update
    some (true, m)

/-- The bits left over after the whole words: perhaps another full word, and a last one. -/
def writeRest (win : FpgaWindow) (buffer m : Bytes) (plan : WritePlan) (ptrBase : Nat) (prev : BitVec 32) :
    Option (Bool × Bytes) :=
  let remaining := if 0 < plan.copyWordsFloor then
      (plan.ptrOffset + plan.copyBits + (2 ^ 32 - plan.copyWordsFloor * 32 % 2 ^ 32)) % 2 ^ 32
    else plan.copyBits
  let prefixBits := if 0 < plan.copyWordsFloor then 0 else plan.ptrOffset
  if remaining = 0 then some (true, m)
  else
    let value := word buffer (4 * plan.copyWordsFloor)
    let prev := prev ||| srw value plan.ptrOffset
    if 32 ≤ (plan.ptrOffset + remaining) % 2 ^ 32 then do
      let m ← win.store m ptrBase prev
      writeLast win m ((ptrBase + 4) % 2 ^ 32) (slw value (fromWord plan.ptrOffset)) prefixBits
        ((plan.ptrOffset + remaining) % 2 ^ 32 - 32)
    else writeLast win m ptrBase prev prefixBits remaining

/-- What is in the first word of a request before its bits. -/
def writeLead (win : FpgaWindow) (m : Bytes) (ptrBase ptrOffset : Nat) : Option (BitVec 32) :=
  if 0 < ptrOffset then do
    let current ← win.load m ptrBase
    some (current &&& slw (BitVec.allOnes 32) (fromWord ptrOffset))
  else some 0

/-- Writing a register: whether it is done and the memory that it leaves, none where it faults. -/
def writeRegister (win : FpgaWindow) (buffer m : Bytes) (plan : WritePlan) : Option (Bool × Bytes) := do
  let prev ← writeLead win m plan.ptrBase plan.ptrOffset
  let (m, ptrBase, prev) ← storeWords win buffer plan.ptrOffset plan.copyWordsFloor 0 m plan.ptrBase prev
  writeRest win buffer m plan ptrBase prev

/-- A request to write a register, whose data are at the start of a buffer. -/
def writeCmd (long : Nat) (win : FpgaWindow) (te : TbsEntry) (offset : Nat × Nat) (length : Option (Nat × Nat))
    (blen : Nat) (flags : Align) (buffer m : Bytes) : Option (Bool × Bytes) :=
  match writePlan long win te offset length blen flags with
  | none => some (false, m)
  | some plan => writeRegister win buffer m plan

end

section

open BitMemory

variable {win : FpgaWindow} {before buffer m next : Bytes} {i k n x base shift p count prefixBits remaining : Nat}
  {w value prev last : BitVec 32}

theorem getMsbD_slw (hx : x ≤ 32) : (slw w (fromWord x)).getMsbD k = w.getMsbD (k + (32 - x)) := by
  unfold slw
  by_cases hzero : x = 0
  · rw [hzero, if_neg (by decide), BitVec.getMsbD_of_ge w _ (by omega)]
    exact BitVec.getMsbD_zero
  · have hcount : fromWord x % 64 = 32 - x := by
      unfold fromWord
      omega
    rw [hcount, if_pos (by omega), BitVec.getMsbD_shiftLeft]

theorem slw_wide (hx : 32 < x) (hlt : x < 64) : slw w (fromWord x) = 0 := by
  unfold slw
  rw [if_neg]
  unfold fromWord
  omega

theorem srw_eq (hx : x < 32) : srw w x = w >>> x := by
  unfold srw
  rw [Nat.mod_eq_of_lt (by omega), if_pos hx]

theorem srw_wide (hx : 32 ≤ x) (hlt : x < 64) : srw w x = 0 := by
  unfold srw
  rw [if_neg (by omega)]

theorem getMsbD_ones (hx : x ≤ 32) :
    (slw (BitVec.allOnes 32) (fromWord x)).getMsbD k = decide (k < x) := by
  rw [getMsbD_slw hx, BitVec.getMsbD_allOnes]
  exact decide_eq_decide.mpr (by omega)

/-- What is carried to a word: the bits before its data. -/
def Carries (target : Nat → Bool) (base shift : Nat) (prev : BitVec 32) : Prop :=
  ∀ k < 32, prev.getMsbD k = (decide (k < shift) && target (8 * base + k))

/-- A word of the data is put behind what is carried to it. -/
theorem Carries.word (h : Carries (copied before buffer p count) base shift prev) (hshift : shift < 32)
    (hplace : 8 * base + shift = p + 32 * i) (hk : k < 32) (hfits : k < shift ∨ 32 * i + (k - shift) < count) :
    (prev ||| srw (word buffer (4 * i)) shift).getMsbD k = copied before buffer p count (8 * base + k) := by
  rw [BitVec.getMsbD_or, h k hk, srw_eq hshift, BitVec.getMsbD_ushiftRight, decide_eq_true hk, Bool.true_and]
  by_cases hlow : k < shift
  · simp [hlow]
  · rw [getMsbD_word (by omega), show 8 * base + k = p + (32 * i + (k - shift)) by omega, copied_inside (by omega),
      show 8 * (4 * i) + (k - shift) = 32 * i + (k - shift) by omega]
    simp [hlow]

/-- What a word of the data carries to the next one. -/
theorem carries_next (hshift : shift < 32) (hplace : 8 * base + shift = p + 32 * i)
    (hfits : 32 * (i + 1) ≤ count) :
    Carries (copied before buffer p count) (base + 4) shift (slw (word buffer (4 * i)) (fromWord shift)) := by
  intro k hk
  rw [getMsbD_slw (by omega)]
  by_cases hlow : k < shift
  · rw [getMsbD_word (by omega), show 8 * (base + 4) + k = p + (32 * i + (k + (32 - shift))) by omega,
      copied_inside (by omega), show 8 * (4 * i) + (k + (32 - shift)) = 32 * i + (k + (32 - shift)) by omega]
    simp [hlow]
  · rw [BitVec.getMsbD_of_ge _ _ (by omega)]
    simp [hlow]

/-- The loop over whole words writes what it goes through. -/
theorem storeWords_written (h : Carries (copied before buffer p count) base shift prev)
    (hm : Written before (copied before buffer p count) base m) (hshift : shift < 32)
    (hplace : 8 * base + shift = p + 32 * i) (hfits : 32 * (i + n) ≤ count)
    (hin : 0 < n → base + 4 * n ≤ win.rMapSize) :
    ∃ next last, storeWords win buffer shift n i m base prev = some (next, base + 4 * n, last) ∧
      Written before (copied before buffer p count) (base + 4 * n) next ∧
        Carries (copied before buffer p count) (base + 4 * n) shift last := by
  have hlt := win.mapSize_lt
  induction n generalizing i m base prev with
  | zero => exact ⟨m, prev, rfl, hm, h⟩
  | succ n ih =>
    have hroom := hin (Nat.succ_pos n)
    have hstored := hm.word fun k hk => h.word hshift hplace hk (by omega)
    obtain ⟨next, last, hrun, hwritten, hcarries⟩ := ih (carries_next hshift hplace (by omega)) hstored
      (by omega : 8 * (base + 4) + shift = p + 32 * (i + 1)) (by omega) (fun _ => by omega)
    rw [show base + 4 + 4 * n = base + 4 * (n + 1) by omega] at hrun hwritten hcarries
    refine ⟨next, last, ?_, hwritten, hcarries⟩
    rw [storeWords, FpgaWindow.store_eq (by omega), Option.bind_eq_bind, Option.bind_some, Nat.mod_eq_of_lt (by omega)]
    exact hrun

/-- The last word of a request: the bits that are left of the data, and then what was there. -/
theorem writeLast_written (hm : Written before (copied before buffer p count) base m)
    (hprev : ∀ k < prefixBits + remaining, prev.getMsbD k = copied before buffer p count (8 * base + k))
    (hsum : prefixBits + remaining < 32) (hpos : 0 < remaining)
    (hend : p + count = 8 * base + (prefixBits + remaining)) (hin : base + 4 ≤ win.rMapSize) :
    ∃ next, writeLast win m base prev prefixBits remaining = some (true, next) ∧
      ∀ q, bit next q = copied before buffer p count q := by
  have hword : Written before (copied before buffer p count) (base + 4) (setWord m base
      (prev &&& slw (BitVec.allOnes 32) (fromWord (prefixBits + remaining)) |||
        word m base &&& srw (BitVec.allOnes 32) (prefixBits + remaining))) := by
    apply hm.word
    intro k hk
    rw [BitVec.getMsbD_or, BitVec.getMsbD_and, getMsbD_ones (by omega), BitVec.getMsbD_and, srw_eq hsum,
      BitVec.getMsbD_ushiftRight, BitVec.getMsbD_allOnes, decide_eq_true hk, Bool.true_and]
    by_cases hlow : k < prefixBits + remaining
    · simp [hlow, hprev k hlow]
    · rw [getMsbD_word hk, hm, if_neg (by omega), copied_behind (by omega), decide_eq_true (by omega : k - _ < 32)]
      simp [hlow]
  have hlast : writeLast win m base prev prefixBits remaining = some (true, setWord m base
      (prev &&& slw (BitVec.allOnes 32) (fromWord (prefixBits + remaining)) |||
        word m base &&& srw (BitVec.allOnes 32) (prefixBits + remaining))) := by
    rw [writeLast, if_neg (by omega), FpgaWindow.beyond_of_le (by omega), if_neg Bool.false_ne_true,
      FpgaWindow.load_eq hin, Option.bind_eq_bind, Option.bind_some]
    dsimp only
    rw [FpgaWindow.store_eq hin]
    rfl
  refine ⟨_, hlast, fun q => ?_⟩
  rw [hword q]
  split
  next => rfl
  next => exact (copied_behind (by omega)).symm

end

section

open BitMemory

variable {win : FpgaWindow} {buffer m next : Bytes} {plan : WritePlan} {a count : Nat} {prev : BitVec 32}

/-- A request whose end does not go beyond the word that its last whole word is carried to. -/
def EndsWell (shift count : Nat) : Prop :=
  count = 0 ∨ count < 32 ∧ shift + count ≤ 32 ∨ 32 ≤ count ∧ 2 * shift + count % 32 < 32

/-- The words that so many bits touch, and the one that they start in, are in the mapping. -/
def Within (win : FpgaWindow) (a shift count : Nat) : Prop :=
  shift + count = 0 ∨ a + 4 * ((shift + count + 31) / 32) ≤ win.rMapSize

theorem leftover_eq {shift : Nat} (hshift : shift < 63) :
    (shift + count % 2 ^ 32 + (2 ^ 32 - count / 32 * 32 % 2 ^ 32)) % 2 ^ 32 = shift + count % 32 := by
  omega

/-- What is left over after the whole words is written. -/
theorem writeRest_written {before : Bytes} {base : Nat}
    (hwords : plan.copyWordsFloor = count / 32) (hbits : plan.copyBits = count % 2 ^ 32) (hshift : plan.ptrOffset < 32)
    (hends : EndsWell plan.ptrOffset count) (hbase : base = a + 4 * (count / 32))
    (h : Carries (copied before buffer (8 * a + plan.ptrOffset) count) base plan.ptrOffset prev)
    (hm : Written before (copied before buffer (8 * a + plan.ptrOffset) count) base m)
    (hin : Within win a plan.ptrOffset count) :
    ∃ next, writeRest win buffer m plan base prev = some (true, next) ∧
      ∀ q, bit next q = copied before buffer (8 * a + plan.ptrOffset) count q := by
  have hlt := win.mapSize_lt
  unfold EndsWell at hends
  unfold Within at hin
  have hplace : 8 * base + plan.ptrOffset = 8 * a + plan.ptrOffset + 32 * (count / 32) := by omega
  have hdone : 8 * a + plan.ptrOffset + count ≤ 8 * base → ∀ q, bit m q =
      copied before buffer (8 * a + plan.ptrOffset) count q := by
    intro hle q
    rw [hm q]
    split
    next => rfl
    next => exact (copied_behind (by omega)).symm
  unfold writeRest
  dsimp only
  rw [hwords, hbits]
  by_cases hzero : 0 < count / 32
  · rw [if_pos hzero, if_pos hzero, leftover_eq (by omega)]
    split
    next hnone => exact ⟨m, rfl, hdone (by omega)⟩
    next hsome =>
      rw [if_neg (by omega)]
      exact writeLast_written hm (fun k hk => h.word hshift hplace (by omega) (by omega)) (by omega) (by omega) (by omega)
        (by omega)
  · rw [if_neg hzero, if_neg hzero, Nat.mod_eq_of_lt (by omega : count < 2 ^ 32)]
    split
    next hnone =>
      refine ⟨m, rfl, fun q => ?_⟩
      rw [hm q, hnone, copied_none, ite_self]
    next hsome =>
      by_cases hfull : 32 ≤ (plan.ptrOffset + count) % 2 ^ 32
      · have hword := hm.word fun k hk => h.word hshift hplace hk (by omega)
        rw [if_pos hfull, FpgaWindow.store_eq (by omega), Option.bind_eq_bind, Option.bind_some, writeLast,
          if_pos (by omega)]
        refine ⟨_, rfl, fun q => ?_⟩
        rw [hword q]
        split
        next => rfl
        next => exact (copied_behind (by omega)).symm
      · rw [if_neg hfull]
        exact writeLast_written hm (fun k hk => h.word hshift hplace (by omega) (by omega)) (by omega) (by omega)
          (by omega) (by omega)

/-- A request that ends well writes its bits and no others. -/
theorem writeRegister_written (hbase : plan.ptrBase = a) (hwords : plan.copyWordsFloor = count / 32)
    (hbits : plan.copyBits = count % 2 ^ 32) (hshift : plan.ptrOffset < 32) (hends : EndsWell plan.ptrOffset count)
    (hin : Within win a plan.ptrOffset count) :
    ∃ next, writeRegister win buffer m plan = some (true, next) ∧
      ∀ q, bit next q = copied m buffer (8 * a + plan.ptrOffset) count q := by
  have hwithin := hin
  unfold Within at hwithin
  have hstart : ∃ prev, writeLead win m plan.ptrBase plan.ptrOffset = some prev ∧
      Carries (copied m buffer (8 * a + plan.ptrOffset) count) a plan.ptrOffset prev := by
    unfold writeLead
    split
    next hpos =>
      rw [hbase, FpgaWindow.load_eq (by omega)]
      refine ⟨_, rfl, fun k hk => ?_⟩
      rw [BitVec.getMsbD_and, getMsbD_word hk, getMsbD_ones (by omega), Bool.and_comm]
      by_cases hlow : k < plan.ptrOffset
      · rw [copied_before (by omega)]
      · simp [hlow]
    next hzero =>
      refine ⟨0, rfl, fun k hk => ?_⟩
      rw [decide_eq_false (by omega), Bool.false_and]
      exact BitVec.getMsbD_zero
  obtain ⟨prev, hprev, hcarries⟩ := hstart
  obtain ⟨stored, last, hrun, hwritten, hlast⟩ := storeWords_written hcarries
    (Written.start fun q hq => copied_before (by omega)) hshift (by omega : _ = _ + 32 * 0)
    (by omega : 32 * (0 + count / 32) ≤ count) (fun _ => by omega : 0 < count / 32 → a + 4 * (count / 32) ≤ win.rMapSize)
  obtain ⟨next, hrest, hnext⟩ := writeRest_written hwords hbits hshift hends rfl hlast hwritten hin
  refine ⟨next, ?_, hnext⟩
  unfold writeRegister
  rw [hprev]
  simp only [Option.bind_eq_bind, Option.bind_some, hbase, hwords, hrun]
  exact hrest

end

section

open BitMemory

variable {win : FpgaWindow} {buffer m next stored : Bytes} {plan : WritePlan}
  {i k n t base shift count prefixBits remaining : Nat} {prev last value : BitVec 32} {accepted : Bool}

/-- What the loop over whole words leaves. -/
structure LoopLeaves (win : FpgaWindow) (buffer m : Bytes) (shift n i base : Nat) (prev : BitVec 32)
    (next : Bytes) (k : Nat) (last : BitVec 32) : Prop where
  address : k = base + 4 * n
  inside : 0 < n → k ≤ win.rMapSize
  low : ∀ q < 8 * base, bit next q = bit m q
  high : ∀ q, 8 * win.rMapSize ≤ q → bit next q = bit m q
  first : 0 < n → word next base = (prev ||| srw (word buffer (4 * i)) shift)
  last : 0 < n → ∃ value : BitVec 32, last = slw value (fromWord shift)

theorem storeWords_leaves (h : storeWords win buffer shift n i m base prev = some (next, k, last)) :
    LoopLeaves win buffer m shift n i base prev next k last := by
  have hlt := win.mapSize_lt
  induction n generalizing i m base prev with
  | zero =>
    cases Option.some.inj h
    exact ⟨rfl, fun hpos => absurd hpos (Nat.lt_irrefl 0), fun _ _ => rfl, fun _ _ => rfl,
      fun hpos => absurd hpos (Nat.lt_irrefl 0), fun hpos => absurd hpos (Nat.lt_irrefl 0)⟩
  | succ n ih =>
    rw [storeWords] at h
    obtain ⟨written, hwritten, hrun⟩ := Option.bind_eq_some_iff.mp h
    obtain ⟨rfl, hin⟩ := FpgaWindow.store_some hwritten
    rw [Nat.mod_eq_of_lt (by omega)] at hrun
    have hrest := ih hrun
    refine ⟨by rw [hrest.address]; omega, fun _ => ?_, fun q hq => ?_, fun q hq => ?_, fun _ => ?_, fun _ => ?_⟩
    · rcases Nat.eq_zero_or_pos n with rfl | hpos
      · rw [hrest.address]
        exact hin
      · exact hrest.inside hpos
    · rw [hrest.low q (by omega), bit_setWord, if_neg (by omega)]
    · rw [hrest.high q hq, bit_setWord, if_neg (by omega)]
    · apply BitVec.eq_of_getMsbD_eq
      intro k hk
      rw [getMsbD_word hk, hrest.low _ (by omega), bit_setWord, if_pos (by omega), Nat.add_sub_cancel_left]
    · rcases Nat.eq_zero_or_pos n with rfl | hpos
      · cases Option.some.inj hrun
        exact ⟨_, rfl⟩
      · exact hrest.last hpos

/-- The ways the last word of a request is dealt with. -/
theorem writeLast_some (h : writeLast win m base prev prefixBits remaining = some (accepted, next)) :
    remaining = 0 ∧ accepted = true ∧ next = m ∨
    0 < remaining ∧ win.beyond base = true ∧ accepted = false ∧ next = m ∨
    0 < remaining ∧ base + 4 ≤ win.rMapSize ∧ accepted = true ∧ next = setWord m base
      (prev &&& slw (BitVec.allOnes 32) (fromWord (prefixBits + remaining)) |||
        word m base &&& srw (BitVec.allOnes 32) (prefixBits + remaining)) := by
  unfold writeLast at h
  split at h
  next hzero =>
    cases Option.some.inj h
    exact Or.inl ⟨hzero, rfl, rfl⟩
  next hzero =>
    split at h
    next hbeyond =>
      cases Option.some.inj h
      exact Or.inr (Or.inl ⟨by omega, hbeyond, rfl, rfl⟩)
    next =>
      obtain ⟨current, hcurrent, hstore⟩ := Option.bind_eq_some_iff.mp h
      obtain ⟨rfl, hin⟩ := FpgaWindow.load_some hcurrent
      obtain ⟨written, hwritten, hnext⟩ := Option.bind_eq_some_iff.mp hstore
      obtain ⟨rfl, _⟩ := FpgaWindow.store_some hwritten
      cases Option.some.inj hnext
      exact Or.inr (Or.inr ⟨by omega, hin, rfl, rfl⟩)

/-- A last word that takes more bits of what is carried than the data has left shows that. -/
theorem writeLast_breaks (h : writeLast win m base prev prefixBits remaining = some (accepted, next))
    (hpos : 0 < remaining) (hin : base ≤ win.rMapSize) (hlt : prefixBits + remaining < 64) (ht : t < prefixBits + remaining)
    (hword : t < 32) (hprev : prev.getMsbD t = false) : bit next (8 * base + t) = false := by
  rcases writeLast_some h with ⟨hzero, _⟩ | ⟨_, hbeyond, _⟩ | ⟨_, _, _, rfl⟩
  · omega
  · rw [FpgaWindow.beyond_of_le hin] at hbeyond
    simp at hbeyond
  · rw [bit_setWord, if_pos (by omega), Nat.add_sub_cancel_left, BitVec.getMsbD_or, BitVec.getMsbD_and, hprev,
      Bool.false_and, Bool.false_or, BitVec.getMsbD_and]
    by_cases hsmall : prefixBits + remaining < 32
    · rw [srw_eq hsmall, BitVec.getMsbD_ushiftRight]
      simp [ht]
    · rw [srw_wide (by omega) hlt]
      simp

/-- What a request goes through, after its whole words. -/
theorem writeRest_some {floor left : Nat} (h : writeRest win buffer m plan base prev = some (accepted, next))
    (hfloor : floor = plan.copyWordsFloor)
    (hleft : left = if 0 < plan.copyWordsFloor then
      (plan.ptrOffset + plan.copyBits + (2 ^ 32 - plan.copyWordsFloor * 32 % 2 ^ 32)) % 2 ^ 32 else plan.copyBits)
    (hsmall : plan.ptrOffset + left < 2 ^ 32) :
    left = 0 ∧ accepted = true ∧ next = m ∨
    0 < left ∧ plan.ptrOffset + left < 32 ∧ writeLast win m base (prev ||| srw (word buffer (4 * floor)) plan.ptrOffset)
      (if 0 < floor then 0 else plan.ptrOffset) left = some (accepted, next) ∨
    0 < left ∧ 32 ≤ plan.ptrOffset + left ∧ base + 4 ≤ win.rMapSize ∧
      writeLast win (setWord m base (prev ||| srw (word buffer (4 * floor)) plan.ptrOffset)) (base + 4)
        (slw (word buffer (4 * floor)) (fromWord plan.ptrOffset)) (if 0 < floor then 0 else plan.ptrOffset)
        (plan.ptrOffset + left - 32) = some (accepted, next) := by
  have hlt := win.mapSize_lt
  unfold writeRest at h
  dsimp only at h
  rw [← hleft, ← hfloor, Nat.mod_eq_of_lt hsmall] at h
  split at h
  next hzero =>
    cases Option.some.inj h
    exact Or.inl ⟨hzero, rfl, rfl⟩
  next hzero =>
    split at h
    next hfull =>
      obtain ⟨written, hwritten, hlast⟩ := Option.bind_eq_some_iff.mp h
      obtain ⟨rfl, hin⟩ := FpgaWindow.store_some hwritten
      rw [Nat.mod_eq_of_lt (by omega)] at hlast
      exact Or.inr (Or.inr ⟨by omega, hfull, hin, hlast⟩)
    next hpart => exact Or.inr (Or.inl ⟨by omega, by omega, h⟩)

theorem writeLead_some (h : writeLead win m base shift = some prev) :
    (0 < shift → base + 4 ≤ win.rMapSize) ∧ (32 < shift → shift < 64 → prev = 0) := by
  unfold writeLead at h
  split at h
  next hpos =>
    obtain ⟨current, hcurrent, hprev⟩ := Option.bind_eq_some_iff.mp h
    cases Option.some.inj hprev
    refine ⟨fun _ => (FpgaWindow.load_some hcurrent).2, fun hwide hlt => ?_⟩
    rw [slw_wide hwide hlt]
    exact BitVec.and_zero
  next hzero => exact ⟨fun hpos => absurd hpos hzero, fun hwide _ => by omega⟩

theorem writeRegister_some (h : writeRegister win buffer m plan = some (accepted, next)) :
    ∃ prev stored k last, writeLead win m plan.ptrBase plan.ptrOffset = some prev ∧
      LoopLeaves win buffer m plan.ptrOffset plan.copyWordsFloor 0 plan.ptrBase prev stored k last ∧
      writeRest win buffer stored plan k last = some (accepted, next) ∧
      (plan.copyWordsFloor = 0 → stored = m ∧ last = prev) := by
  unfold writeRegister at h
  obtain ⟨prev, hprev, h⟩ := Option.bind_eq_some_iff.mp h
  obtain ⟨⟨stored, k, last⟩, hloop, hrest⟩ := Option.bind_eq_some_iff.mp h
  refine ⟨prev, stored, k, last, hprev, storeWords_leaves hloop, hrest, fun hzero => ?_⟩
  rw [hzero] at hloop
  cases Option.some.inj hloop
  exact ⟨rfl, rfl⟩

end

end Katcp
