import Katcp.RegisterReads
import Katcp.RegisterWrite

namespace Katcp

section

open BitMemory

variable {long blen count : Nat} {win : FpgaWindow} {te : TbsEntry} {offset : Nat × Nat} {length : Option (Nat × Nat)}
  {flags : Align} {plan : WritePlan} {off len moved : ByteBit}

/-- The bits of an offset. -/
def offsetBits (offset : Nat × Nat) : Nat := 8 * offset.1 + offset.2

/-- The bits that a request is for: those of its length, or of its data where it gives none that
can be made sense of. -/
def requestedBits (long blen : Nat) (length : Option (Nat × Nat)) : Nat :=
  match length.bind fun given => ByteBit.makeBb long given.1 given.2 with
  | none => 8 * blen
  | some given => given.bits

/-- The word that a request of so many bits into a register starts in, and the bits before it
there. An offset of whole words is not normalised again. -/
def writeAddress (te : TbsEntry) (start : Nat) : Nat :=
  if start / 8 % 4 = 0 then start / 8 + te.ePosBase else (start / 8 + te.ePosBase) / 4 * 4

def writeShift (te : TbsEntry) (start : Nat) : Nat :=
  if start / 8 % 4 = 0 then start % 8 + te.ePosOffset
  else (start / 8 + te.ePosBase) % 4 * 8 + (start % 8 + te.ePosOffset)

theorem writeAddress_shift (te : TbsEntry) (start : Nat) :
    8 * writeAddress te start + writeShift te start = te.pos + start := by
  unfold writeAddress writeShift TbsEntry.pos
  split <;> omega

theorem writeShift_lt (te : TbsEntry) (start : Nat) : writeShift te start < 63 := by
  have hoff := te.posOffset_lt
  unfold writeShift
  split <;> omega

/-- What the checks of a request leave. -/
structure WritePlan.Fits (plan : WritePlan) (te : TbsEntry) (start count : Nat) : Prop where
  base : plan.ptrBase = writeAddress te start % 2 ^ 32
  shift : plan.ptrOffset = writeShift te start
  bits : plan.copyBits = count % 2 ^ 32
  words : plan.copyWordsFloor = count / 32 % 2 ^ 32

theorem mod_pow_mod {x : Nat} (hlong : 32 ≤ long) : x % 2 ^ long % 2 ^ 32 = x % 2 ^ 32 :=
  Nat.mod_mod_of_dvd x (Nat.pow_dvd_pow 2 hlong)

/-- A length that is normalised or not has the same whole words, and the same bits. -/
theorem writeLength_spec (h : writeLength long blen length flags = some len) (hlong : 32 ≤ long) (hblen : blen < 2 ^ 32)
    (hlength : ∀ given, length = some given → given.1 < 2 ^ long ∧ given.2 < 2 ^ long) :
    len.bits = requestedBits long blen length ∧ len.bByte / 4 = len.bits / 32 := by
  have hpow : 2 ^ 32 ≤ 2 ^ long := Nat.pow_le_pow_right (by omega) hlong
  unfold writeLength at h
  unfold requestedBits
  cases hgiven : length.bind fun given => ByteBit.makeBb long given.1 given.2 with
  | none =>
    rw [hgiven] at h
    cases Option.some.inj h
    dsimp only
    by_cases hword : flags.word = true
    · simp only [ByteBit.wordNormalise, hword, if_true, Option.getD_some, ByteBit.bits]
      omega
    · have hmod : blen % 2 ^ long = blen := Nat.mod_eq_of_lt (by omega)
      have hnorm : (ByteBit.mk blen 0 flags).wordNormalise long =
          some ⟨blen / 4 * 4, blen % 4 * 8, ⟨blen % 4 * 8 < 8, true⟩⟩ := by
        have hsmall : blen % 4 * 8 % 256 = blen % 4 * 8 := Nat.mod_eq_of_lt (by omega)
        by_cases hbyte : flags.byte = true
        · simp [ByteBit.wordNormalise, ByteBit.byteNormalise, hword, hbyte, hsmall]
        · simp [ByteBit.wordNormalise, ByteBit.byteNormalise, hword, hbyte, hsmall, hmod]
      rw [hnorm, Option.getD_some]
      unfold ByteBit.bits
      dsimp only
      omega
  | some given =>
    rw [hgiven] at h
    obtain ⟨_, h⟩ := guarded h
    obtain ⟨pair, hpair, hmake⟩ := Option.bind_eq_some_iff.mp hgiven
    obtain ⟨hbyte, hbit⟩ := hlength pair hpair
    obtain ⟨_, htruthful, haligned⟩ := ByteBit.makeBb_spec hmake hbyte hbit
    have hlow := htruthful.byte haligned
    obtain ⟨next, hnext⟩ : ∃ next, given.wordNormalise long = some next := by
      unfold ByteBit.wordNormalise ByteBit.byteNormalise
      rw [haligned]
      split
      next => exact ⟨_, rfl⟩
      next => exact ⟨_, rfl⟩
    obtain ⟨hbits, hntruthful, hword⟩ := ByteBit.wordNormalise_spec hnext htruthful (by omega)
    obtain ⟨hwords, hrest⟩ := hntruthful.word hword
    rw [hnext, Option.getD_some] at h
    cases Option.some.inj h
    refine ⟨hbits, ?_⟩
    unfold ByteBit.bits
    omega

/-- An offset that is moved to the register's position. -/
theorem moved_spec (hlong : 32 ≤ long) (htruthful : off.Truthful long) (hbyte : off.bAlign.byte = true)
    (hword : off.bAlign.word = (off.bByte % 4 == 0))
    (hmoved : moved = ⟨(off.bByte + te.ePosBase) % 2 ^ long, (off.bBit + te.ePosOffset) % 256, off.bAlign⟩) :
    ((moved.wordNormalise long).getD moved).bByte % 2 ^ 32 = writeAddress te off.bits % 2 ^ 32 ∧
      ((moved.wordNormalise long).getD moved).bBit = writeShift te off.bits := by
  have hoff := te.posOffset_lt
  have hlow := htruthful.byte hbyte
  have hdiv : off.bits / 8 = off.bByte := by
    unfold ByteBit.bits
    omega
  have hmod : off.bits % 8 = off.bBit := by
    unfold ByteBit.bits
    omega
  have hbase := mod_pow_mod (x := off.bByte + te.ePosBase) hlong
  have hquarter : (off.bByte + te.ePosBase) % 2 ^ long % 4 = (off.bByte + te.ePosBase) % 4 :=
    Nat.mod_mod_of_dvd _ (Nat.pow_dvd_pow 2 (by omega : 2 ≤ long))
  unfold writeAddress writeShift
  rw [hdiv, hmod, hmoved]
  by_cases haligned : off.bByte % 4 = 0
  · have htrue : off.bAlign.word = true := by
      rw [hword]
      simpa using haligned
    simp only [ByteBit.wordNormalise, htrue, if_true, Option.getD_some, if_pos haligned]
    omega
  · have hfalse : off.bAlign.word = false := by
      rw [hword]
      simpa using haligned
    simp only [ByteBit.wordNormalise, ByteBit.byteNormalise, hfalse, hbyte, if_true, Bool.false_eq_true, if_false,
      Option.bind_eq_bind, Option.bind_some, Option.getD_some, if_neg haligned]
    omega

theorem writePlan_fits (h : writePlan long win te offset length blen flags = some plan) (hlong : 32 ≤ long)
    (hblen : blen < 2 ^ 32) (hoffset : offset.1 < 2 ^ long ∧ offset.2 < 2 ^ long)
    (hlength : ∀ given, length = some given → given.1 < 2 ^ long ∧ given.2 < 2 ^ long) :
    plan.Fits te (offsetBits offset) (requestedBits long blen length) := by
  unfold writePlan at h
  obtain ⟨_, h⟩ := guarded h
  obtain ⟨_, h⟩ := guarded h
  obtain ⟨off, hoff, h⟩ := Option.bind_eq_some_iff.mp h
  obtain ⟨len, hlen, h⟩ := Option.bind_eq_some_iff.mp h
  obtain ⟨_, h⟩ := guarded h
  obtain ⟨hobits, htruthful, hbyte⟩ := ByteBit.makeBb_spec hoff hoffset.1 hoffset.2
  obtain ⟨hlbits, hlwords⟩ := writeLength_spec hlen hlong hblen hlength
  have hword : off.bAlign.word = (off.bByte % 4 == 0) := by
    unfold ByteBit.makeBb at hoff
    dsimp only at hoff
    split at hoff
    next => simp at hoff
    next =>
      cases Option.some.inj hoff
      rfl
  obtain ⟨hbase, hshift⟩ := @moved_spec long te off _ hlong htruthful hbyte hword rfl
  have hstart : off.bits = offsetBits offset := hobits
  rw [hstart] at hbase hshift
  cases Option.some.inj h
  refine ⟨hbase, hshift, ?_, ?_⟩
  · rw [← hlbits, ByteBit.bits, Nat.mul_comm]
  · dsimp only
    rw [hlwords, hlbits]

end

section

open BitMemory

variable {long blen count : Nat} {win : FpgaWindow} {te : TbsEntry} {offset : Nat × Nat} {length : Option (Nat × Nat)}
  {flags : Align} {buffer m next stored : Bytes} {plan : WritePlan} {base left q : Nat} {prev : BitVec 32}
  {accepted : Bool}

/-- A last word, and what is left over, are written within the mapping. -/
theorem writeLast_high {prefixBits remaining : Nat} (h : writeLast win m base prev prefixBits remaining = some (accepted, next))
    (hq : 8 * win.rMapSize ≤ q) : bit next q = bit m q := by
  rcases writeLast_some h with ⟨_, _, rfl⟩ | ⟨_, _, _, rfl⟩ | ⟨_, hin, _, rfl⟩
  · rfl
  · rfl
  · rw [bit_setWord, if_neg (by omega)]

theorem writeLast_low {prefixBits remaining : Nat} (h : writeLast win m base prev prefixBits remaining = some (accepted, next))
    (hq : q < 8 * base) : bit next q = bit m q := by
  rcases writeLast_some h with ⟨_, _, rfl⟩ | ⟨_, _, _, rfl⟩ | ⟨_, hin, _, rfl⟩
  · rfl
  · rfl
  · rw [bit_setWord, if_neg (by omega)]

/-- The bits that are left over after the whole words of a request. -/
def leftOver (plan : WritePlan) : Nat :=
  if 0 < plan.copyWordsFloor then
    (plan.ptrOffset + plan.copyBits + (2 ^ 32 - plan.copyWordsFloor * 32 % 2 ^ 32)) % 2 ^ 32
  else plan.copyBits

/-- What a request leaves before the word that its loop ends at and beyond the mapping. -/
theorem writeRest_frame (h : writeRest win buffer m plan base prev = some (accepted, next))
    (hsmall : plan.ptrOffset + leftOver plan < 2 ^ 32) :
    (∀ q < 8 * base, bit next q = bit m q) ∧ ∀ q, 8 * win.rMapSize ≤ q → bit next q = bit m q := by
  rcases writeRest_some h rfl rfl hsmall with ⟨_, _, rfl⟩ | ⟨_, _, hlast⟩ | ⟨_, _, hin, hlast⟩
  · exact ⟨fun _ _ => rfl, fun _ _ => rfl⟩
  · exact ⟨fun q hq => writeLast_low hlast hq, fun q hq => writeLast_high hlast hq⟩
  · constructor
    · intro q hq
      rw [writeLast_low hlast (by omega), bit_setWord, if_neg (by omega)]
    · intro q hq
      rw [writeLast_high hlast hq, bit_setWord, if_neg (by omega)]

/-- The data of a request, and nothing behind it. -/
def fullBuffer (count : Nat) : Bytes := ofBits fun q => decide (q < count)

theorem getMsbD_fullBuffer {i k : Nat} (hk : k < 32) : (word (fullBuffer count) (4 * i)).getMsbD k = decide (32 * i + k < count) := by
  rw [getMsbD_word hk, fullBuffer, bit_ofBits]
  exact decide_eq_decide.mpr (by omega)

theorem leftOver_eq (hwords : plan.copyWordsFloor = count / 32) (hbits : plan.copyBits = count % 2 ^ 32)
    (hoff : plan.ptrOffset < 63) :
    leftOver plan = if 0 < count / 32 then plan.ptrOffset + count % 32 else count := by
  unfold leftOver
  rw [hwords, hbits, leftover_eq hoff]
  split
  next => rfl
  next => omega

/-- A request that leaves ones where there were ones and writes nothing but ones starts within
the word that it reads. -/
theorem shift_of_ones (h : writeRegister win (fullBuffer count) (ofBits fun _ => true) plan = some (accepted, next))
    (hones : ∀ q, bit next q = true) (hoff : plan.ptrOffset < 63) (hcount : 0 < count)
    (hwords : plan.copyWordsFloor = count / 32) (hbits : plan.copyBits = count % 2 ^ 32) : plan.ptrOffset ≤ 32 := by
  by_contra hwide
  have hleft := leftOver_eq hwords hbits hoff
  obtain ⟨prev, stored, k, last, hlead, hloop, hrest, hnone⟩ := writeRegister_some h
  have hzero := (writeLead_some hlead).2 (by omega) (by omega)
  have hclear : ∀ v : BitVec 32, (0#32 ||| srw v plan.ptrOffset).getMsbD 0 = false := by
    intro v
    rw [srw_wide (by omega) (by omega)]
    decide
  rcases Nat.eq_zero_or_pos (count / 32) with hno | hsome
  · rw [hno, if_neg (Nat.lt_irrefl 0)] at hleft
    obtain ⟨rfl, rfl⟩ := hnone (by omega)
    have hk := hloop.address
    rcases writeRest_some hrest rfl hleft.symm (by omega) with ⟨_, _, _⟩ | ⟨_, _, _⟩ | ⟨_, _, _, hlast⟩
    · omega
    · omega
    · have hbit := writeLast_low hlast (by omega : 8 * k < 8 * (k + 4))
      rw [hones, bit_setWord, if_pos (by omega), Nat.sub_self, hzero] at hbit
      rw [show (0 : BitVec 32) = 0#32 from rfl, hclear] at hbit
      simp at hbit
  · rw [if_pos hsome] at hleft
    have hk := hloop.address
    have hbit := (writeRest_frame hrest (by omega)).1 (8 * plan.ptrBase + 0) (by omega)
    rw [hones, ← getMsbD_word (by omega), hloop.first (by omega), hzero] at hbit
    rw [show (0 : BitVec 32) = 0#32 from rfl, hclear] at hbit
    simp at hbit

/-- A request that leaves ones where there were ones and writes nothing but ones ends well. -/
theorem endsWell_of_ones (h : writeRegister win (fullBuffer count) (ofBits fun _ => true) plan = some (accepted, next))
    (hones : ∀ q, bit next q = true) (hoff : plan.ptrOffset < 63) (hcount : 0 < count)
    (hwords : plan.copyWordsFloor = count / 32) (hbits : plan.copyBits = count % 2 ^ 32) :
    plan.ptrOffset < 32 ∧ EndsWell plan.ptrOffset count := by
  have hshift := shift_of_ones h hones hoff hcount hwords hbits
  have hleft := leftOver_eq hwords hbits hoff
  obtain ⟨prev, stored, k, last, hlead, hloop, hrest, hnone⟩ := writeRegister_some h
  unfold EndsWell
  by_contra hbad
  rcases Nat.eq_zero_or_pos (count / 32) with hno | hsome
  · rw [hno, if_neg (Nat.lt_irrefl 0)] at hleft
    rcases writeRest_some hrest rfl hleft.symm (by omega) with ⟨_, _, _⟩ | ⟨_, _, _⟩ | ⟨_, _, hin, hlast⟩
    · omega
    · omega
    · rw [if_neg (by omega)] at hlast
      have hbit := writeLast_breaks (t := plan.ptrOffset + count - 32) hlast (by omega) hin (by omega) (by omega) (by omega) (by
        rw [getMsbD_slw hshift, getMsbD_fullBuffer (by omega)]
        exact decide_eq_false (by omega))
      rw [hones] at hbit
      simp at hbit
  · rw [if_pos hsome] at hleft
    obtain ⟨value, hvalue⟩ := hloop.last (by omega)
    rcases writeRest_some hrest rfl hleft.symm (by omega) with ⟨_, _, _⟩ | ⟨_, _, _⟩ | ⟨_, _, hin, hlast⟩
    · omega
    · omega
    · rw [if_pos (by omega)] at hlast
      by_cases hlow : plan.ptrOffset + count % 32 < 32
      · have hbit := writeLast_low hlast (by omega : 8 * k + (plan.ptrOffset + count % 32) < 8 * (k + 4))
        rw [hones, bit_setWord, if_pos (by omega), Nat.add_sub_cancel_left, BitVec.getMsbD_or, hvalue, getMsbD_slw hshift,
          BitVec.getMsbD_of_ge _ _ (by omega), srw_eq (by omega), BitVec.getMsbD_ushiftRight,
          show plan.ptrOffset + count % 32 - plan.ptrOffset = count % 32 by omega,
          getMsbD_fullBuffer (by omega), decide_eq_false (by omega : ¬32 * plan.copyWordsFloor + count % 32 < count)] at hbit
        simp at hbit
      · have hbit := writeLast_breaks (t := plan.ptrOffset + count % 32 - 32) hlast (by omega) hin (by omega) (by omega)
          (by omega) (by
            rw [getMsbD_slw hshift, getMsbD_fullBuffer (by omega)]
            exact decide_eq_false (by omega))
        rw [hones] at hbit
        simp at hbit

end

section

open BitMemory

variable {long blen start count : Nat} {win : FpgaWindow} {te : TbsEntry} {offset : Nat × Nat}
  {length : Option (Nat × Nat)} {flags : Align} {buffer m next : Bytes} {plan : WritePlan} {accepted : Bool}

/-- A request that is accepted is for bits of the register that there are data for, and it puts
them there and changes no other bit. -/
def BitsWritten (long : Nat) (win : FpgaWindow) (te : TbsEntry) (offset : Nat × Nat) (length : Option (Nat × Nat))
    (blen : Nat) (flags : Align) (buffer m : Bytes) : Prop :=
  ∃ accepted next, writeCmd long win te offset length blen flags buffer m = some (accepted, next) ∧
    (accepted = true →
      offsetBits offset + requestedBits long blen length ≤ te.len ∧ requestedBits long blen length ≤ 8 * blen ∧
      ∀ q, bit next q = copied m buffer (te.pos + offsetBits offset) (requestedBits long blen length) q)

/-- A request for less than a word at a word beyond the mapping, which is refused late. -/
def RefusedLate (win : FpgaWindow) (te : TbsEntry) (start count : Nat) : Prop :=
  writeShift te start = 0 ∧ count / 32 % 2 ^ 32 = 0 ∧ 0 < count % 32 ∧
    win.beyond (writeAddress te start % 2 ^ 32) = true

/-- A request that is written as it should be. -/
structure WriteFits (win : FpgaWindow) (te : TbsEntry) (start count blen : Nat) : Prop where
  register : start + count ≤ te.len
  data : count ≤ 8 * blen
  none : count = 0 → 0 < writeShift te start → writeAddress te start % 2 ^ 32 + 4 ≤ win.rMapSize
  some : 0 < count → writeShift te start < 32 ∧ EndsWell (writeShift te start) count ∧
    Within win (writeAddress te start) (writeShift te start) count

theorem leftOver_lt (hfits : plan.Fits te start count) : leftOver plan < 2 ^ 16 := by
  have hoff := writeShift_lt te start
  have hshift := hfits.shift
  have hbits := hfits.bits
  have hwords := hfits.words
  unfold leftOver
  split <;> omega

theorem writeRegister_refused (hfits : plan.Fits te start count) (h : RefusedLate win te start count) :
    writeRegister win buffer m plan = some (false, m) := by
  obtain ⟨hshift, hfloor, hpos, hbeyond⟩ := h
  have hwords := hfits.words.trans hfloor
  have hoff := hfits.shift.trans hshift
  have hbits := hfits.bits
  unfold writeRegister writeLead
  rw [hoff, if_neg (Nat.lt_irrefl 0)]
  simp only [Option.bind_eq_bind, Option.bind_some, hwords, storeWords]
  unfold writeRest
  dsimp only
  rw [hwords, if_neg (Nat.lt_irrefl 0), if_neg (Nat.lt_irrefl 0), if_neg (by omega), hoff, if_neg (by omega), writeLast,
    if_neg (by omega), hfits.base, hbeyond, if_pos rfl]

theorem writeRegister_none (hfits : plan.Fits te start 0)
    (hin : 0 < writeShift te start → writeAddress te start % 2 ^ 32 + 4 ≤ win.rMapSize) :
    writeRegister win buffer m plan = some (true, m) := by
  have hwords : plan.copyWordsFloor = 0 := hfits.words
  have hbits : plan.copyBits = 0 := hfits.bits
  have hlead : ∃ prev, writeLead win m plan.ptrBase plan.ptrOffset = some prev := by
    unfold writeLead
    split
    next hpos =>
      rw [hfits.base, FpgaWindow.load_eq (hin (hfits.shift ▸ hpos))]
      exact ⟨_, rfl⟩
    next => exact ⟨0, rfl⟩
  obtain ⟨prev, hprev⟩ := hlead
  unfold writeRegister
  rw [hprev]
  simp only [Option.bind_eq_bind, Option.bind_some, hwords, storeWords]
  unfold writeRest
  dsimp only
  rw [hwords, if_neg (Nat.lt_irrefl 0), hbits, if_pos rfl]

/-- A request that its checks let through is refused for lying beyond the mapping only. -/
theorem refusedLate_of_run (hfits : plan.Fits te start count)
    (h : writeRegister win buffer m plan = some (false, next)) : RefusedLate win te start count := by
  have hleft := leftOver_lt hfits
  have hoff := writeShift_lt te start
  have hbits := hfits.bits
  have hwords := hfits.words
  have hshift := hfits.shift
  obtain ⟨prev, stored, k, last, hlead, hloop, hrest, _⟩ := writeRegister_some h
  have hin := (writeLead_some hlead).1
  have hk := hloop.address
  have hinside := hloop.inside
  rcases writeRest_some hrest rfl rfl (by unfold leftOver at hleft; omega) with ⟨_, hbad, _⟩ | ⟨hpos, hlow, hlast⟩ |
    ⟨_, _, hroom, hlast⟩
  · simp at hbad
  · rcases writeLast_some hlast with ⟨_, hbad, _⟩ | ⟨_, hbeyond, _, _⟩ | ⟨_, _, hbad, _⟩
    · simp at hbad
    · have hfar : ¬k ≤ win.rMapSize := by
        intro hle
        rw [FpgaWindow.beyond_of_le hle] at hbeyond
        simp at hbeyond
      have hnone : plan.copyWordsFloor = 0 := by omega
      rw [if_neg (by omega)] at hpos hlow
      refine ⟨by omega, by omega, by omega, ?_⟩
      rw [← hfits.base, show plan.ptrBase = k by omega]
      exact hbeyond
    · simp at hbad
  · rcases writeLast_some hlast with ⟨_, hbad, _⟩ | ⟨_, hbeyond, _, _⟩ | ⟨_, _, hbad, _⟩
    · simp at hbad
    · rw [FpgaWindow.beyond_of_le hroom] at hbeyond
      simp at hbeyond
    · simp at hbad

/-- The words that a request goes through are in the mapping. -/
theorem within_of_run (h : writeRegister win buffer m plan = some (true, next)) (hoff : plan.ptrOffset < 32)
    (hcount : 0 < count) (hends : EndsWell plan.ptrOffset count) (hwords : plan.copyWordsFloor = count / 32)
    (hbits : plan.copyBits = count % 2 ^ 32) : Within win plan.ptrBase plan.ptrOffset count := by
  have hleft := leftOver_eq hwords hbits (by omega)
  unfold EndsWell at hends
  unfold Within
  obtain ⟨prev, stored, k, last, _, hloop, hrest, _⟩ := writeRegister_some h
  have hk := hloop.address
  have hinside := hloop.inside
  rcases writeRest_some hrest rfl hleft.symm (by split <;> omega) with ⟨hzero, _, _⟩ | ⟨hpos, hlow, hlast⟩ |
    ⟨hpos, hhigh, hroom, hlast⟩
  · split at hzero
    next => omega
    next => omega
  · rcases writeLast_some hlast with ⟨_, _, _⟩ | ⟨_, _, hbad, _⟩ | ⟨_, hroom, _, _⟩
    · omega
    · simp at hbad
    · split at hlow
      next => omega
      next => omega
  · split at hhigh
    next => omega
    next => omega

/-- A request whose bits are written reaches the mapping with its first one. -/
theorem start_lt_of_run {p : Nat} (h : writeRegister win (fullBuffer count) (ofBits fun _ => false) plan = some (accepted, next))
    (hcount : 0 < count) (hleft : plan.ptrOffset + leftOver plan < 2 ^ 32)
    (hbits : ∀ q, bit next q = copied (ofBits fun _ => false) (fullBuffer count) p count q) : p < 8 * win.rMapSize := by
  by_contra hfar
  obtain ⟨prev, stored, k, last, _, hloop, hrest, _⟩ := writeRegister_some h
  have hbit := hbits (p + 0)
  rw [copied_inside hcount, fullBuffer, bit_ofBits, decide_eq_true hcount, (writeRest_frame hrest hleft).2 _ (by omega),
    hloop.high _ (by omega), bit_ofBits] at hbit
  simp at hbit

/-- Whether an accepted request writes its bits and no others, whatever is in the fpga and in
its data, is a matter of where it lies and how many bits it is for. -/
theorem register_write_exact (hlong : 32 ≤ long) (hblen : blen < 2 ^ 32)
    (hoffset : offset.1 < 2 ^ long ∧ offset.2 < 2 ^ long)
    (hlength : ∀ given, length = some given → given.1 < 2 ^ long ∧ given.2 < 2 ^ long) :
    (∀ buffer m, BitsWritten long win te offset length blen flags buffer m) ↔
      ((writePlan long win te offset length blen flags).isSome = true →
        RefusedLate win te (offsetBits offset) (requestedBits long blen length) ∨
        WriteFits win te (offsetBits offset) (requestedBits long blen length) blen) := by
  have hmap := win.mapSize_lt
  cases hplan : writePlan long win te offset length blen flags with
  | none =>
    refine ⟨fun _ h => by simp at h, fun _ buffer m => ⟨false, m, ?_, by simp⟩⟩
    rw [writeCmd, hplan]
  | some plan =>
    have hfits := writePlan_fits hplan hlong hblen hoffset hlength
    have hplace := writeAddress_shift te (offsetBits offset)
    have hoff := writeShift_lt te (offsetBits offset)
    have hleft := leftOver_lt hfits
    have hcmd : ∀ buffer m, writeCmd long win te offset length blen flags buffer m = writeRegister win buffer m plan := by
      intro buffer m
      rw [writeCmd, hplan]
    unfold BitsWritten
    simp only [hcmd]
    generalize requestedBits long blen length = count at *
    constructor
    · intro hall _
      obtain ⟨accepted, next, hrun, hbits⟩ := hall (fullBuffer count) (ofBits fun _ => true)
      cases accepted with
      | false => exact Or.inl (refusedLate_of_run hfits hrun)
      | true =>
        obtain ⟨hregister, hdata, hwritten⟩ := hbits rfl
        have hwords : plan.copyWordsFloor = count / 32 := by
          rw [hfits.words]
          exact Nat.mod_eq_of_lt (by omega)
        refine Or.inr ⟨hregister, hdata, fun _ hpos => ?_, fun hpos => ?_⟩
        · obtain ⟨prev, _, _, _, hlead, _⟩ := writeRegister_some hrun
          rw [← hfits.base]
          exact (writeLead_some hlead).1 (by rw [hfits.shift]; exact hpos)
        · have hones : ∀ q, bit next q = true := by
            intro q
            rw [hwritten, copied]
            split
            next hq =>
              rw [fullBuffer, bit_ofBits]
              exact decide_eq_true (by omega)
            next => exact bit_ofBits _
          obtain ⟨hlow, hends⟩ := endsWell_of_ones hrun hones (by rw [hfits.shift]; exact hoff) hpos hwords hfits.bits
          have hwithin := within_of_run hrun hlow hpos hends hwords hfits.bits
          obtain ⟨again, other, hother, hsame⟩ := hall (fullBuffer count) (ofBits fun _ => false)
          have haddress : writeAddress te (offsetBits offset) < 2 ^ 32 := by
            cases again with
            | false =>
              obtain ⟨_, _, _, hbeyond⟩ := refusedLate_of_run hfits hother
              unfold Within at hwithin
              rw [← hfits.base, FpgaWindow.beyond_of_le (by omega)] at hbeyond
              simp at hbeyond
            | true =>
              have hstart := start_lt_of_run hother hpos (by rw [hfits.shift]; omega) (hsame rfl).2.2
              omega
          rw [hfits.shift] at hlow hends
          rw [hfits.shift, hfits.base, Nat.mod_eq_of_lt haddress] at hwithin
          exact ⟨hlow, hends, hwithin⟩
    · intro hcond buffer m
      rcases hcond rfl with hlate | hfit
      · exact ⟨false, m, writeRegister_refused hfits hlate, by simp⟩
      · have hregister := hfit.register
        have hdata := hfit.data
        rcases Nat.eq_zero_or_pos count with rfl | hpos
        · exact ⟨true, m, writeRegister_none hfits (hfit.none rfl), fun _ => ⟨hregister, hdata, fun q => copied_none.symm⟩⟩
        · obtain ⟨hlow, hends, hwithin⟩ := hfit.some hpos
          have hin := hwithin
          unfold Within at hin
          have haddress : plan.ptrBase = writeAddress te (offsetBits offset) := by
            rw [hfits.base]
            exact Nat.mod_eq_of_lt (by omega)
          have hwords : plan.copyWordsFloor = count / 32 := by
            rw [hfits.words]
            exact Nat.mod_eq_of_lt (by omega)
          rw [← hfits.shift] at hlow hends hwithin hplace
          obtain ⟨next, hrun, hbits⟩ := @writeRegister_written _ buffer m _ _ _ haddress hwords hfits.bits
            hlow hends hwithin
          rw [hplace] at hbits
          exact ⟨true, next, hrun, fun _ => ⟨hregister, hdata, hbits⟩⟩

/-- Four words, from the middle of the first word of the mapping on. -/
def halfEntry : TbsEntry :=
  ⟨0, 16, 16, 0, ⟨true, true⟩, TbsEntry.zero_base, TbsEntry.sixteen_base, by decide, TbsEntry.zero_offset⟩

theorem register_write_exact_word :
    (∀ buffer m, BitsWritten 32 pageWindow halfEntry (0, 0) (some (2, 0)) 2 ⟨false, false⟩ buffer m) ↔
      ((writePlan 32 pageWindow halfEntry (0, 0) (some (2, 0)) 2 ⟨false, false⟩).isSome = true →
        RefusedLate pageWindow halfEntry 0 16 ∨ WriteFits pageWindow halfEntry 0 16 2) :=
  register_write_exact (Nat.le_refl 32) (by decide) ⟨by decide, by decide⟩ (by
    intro given h
    cases Option.some.inj h
    exact ⟨by decide, by decide⟩)

/-- A word is written at half a word, with ones where there are ones: the bit behind it is lost. -/
theorem next_bit_lost : ∃ next,
    writeCmd 32 pageWindow halfEntry (0, 0) (some (4, 0)) 4 ⟨false, false⟩ (fullBuffer 32) (ofBits fun _ => true) =
      some (true, next) ∧ bit (ofBits fun _ => true) (16 + 32) = true ∧ bit next (16 + 32) = false :=
  ⟨_, rfl, by decide, by decide⟩

end

end Katcp
