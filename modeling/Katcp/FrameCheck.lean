import Katcp.TapFates

namespace Katcp

open BitMemory ByteBlock

/-- The generator of the standard crc32 without its highest power. -/
def crcPoly : BitVec 32 := 0x04c11db7

/-- One bit of a message on its way through the register of the standard. -/
def shiftIn (r : BitVec 32) (b : Bool) : BitVec 32 := (r <<< 1) ^^^ (if r.msb ^^ b then crcPoly else 0)

/-- The bits of an octet as they are sent. -/
def octetBits (b : BitVec 8) : List Bool := (List.range 8).map b.getLsbD

/-- The standard crc32: all ones before the first bit, and at the end the register in reverse and
complemented. -/
def crc32 (p : Octets) : BitVec 32 := ~~~((p.flatMap octetBits).foldl shiftIn 0xffffffff).reverse

/-- What the standard crc32 of a message with its check sequence is. -/
def crcResidue : BitVec 32 := 0x2144df1c

/-- One bit on its way through the register of the code. -/
def crcShift (r : BitVec 32) (b : Bool) : BitVec 32 :=
  (r >>> 1) ^^^ (if r.getLsbD 0 ^^ b then crcPolyLe else 0)

theorem reverse_xor (a b : BitVec 32) : (a ^^^ b).reverse = a.reverse ^^^ b.reverse := by
  apply BitVec.eq_of_getLsbD_eq
  intro i hi
  simp [BitVec.getLsbD_reverse]

theorem reverse_shiftLeft (r : BitVec 32) : (r <<< 1).reverse = r.reverse >>> 1 := by
  apply BitVec.eq_of_getLsbD_eq
  intro i hi
  rw [BitVec.getLsbD_reverse, BitVec.getLsbD_ushiftRight, BitVec.getLsbD_reverse,
    BitVec.getMsbD_shiftLeft, Nat.add_comm]

theorem reverse_shiftIn (r : BitVec 32) (b : Bool) : (shiftIn r b).reverse = crcShift r.reverse b := by
  have hpoly : crcPoly.reverse = crcPolyLe := by decide +kernel
  have hzero : (0 : BitVec 32).reverse = 0 := by decide +kernel
  rw [shiftIn, crcShift, reverse_xor, reverse_shiftLeft, BitVec.getLsbD_reverse]
  rw [BitVec.msb]
  split
  · rw [hpoly]
  · rw [hzero]

theorem reverse_foldl (bits : List Bool) (r : BitVec 32) :
    (bits.foldl shiftIn r).reverse = bits.foldl crcShift r.reverse := by
  induction bits generalizing r with
  | nil => rfl
  | cons b bits ih => rw [List.foldl_cons, List.foldl_cons, ih, reverse_shiftIn]

/-- The low bits of a word, lowest first. -/
def lowBits (w : BitVec 32) : Nat → List Bool
  | 0 => []
  | n + 1 => w.getLsbD 0 :: lowBits (w >>> 1) n

theorem repeat_succ {α : Type*} (f : α → α) (n : Nat) (a : α) :
    Nat.repeat f (n + 1) a = Nat.repeat f n (f a) := by
  induction n with
  | zero => rfl
  | succ n ih => exact congrArg f ih

theorem crcBit_xor (r w : BitVec 32) :
    crcBit (r ^^^ w) = crcShift r (w.getLsbD 0) ^^^ (w >>> 1) := by
  rw [crcBit, crcShift, BitVec.ushiftRight_xor_distrib, BitVec.getLsbD_xor, BitVec.xor_assoc,
    BitVec.xor_assoc, BitVec.xor_comm (w >>> 1)]

/-- The rounds of the code on a word are those of its bits one by one. -/
theorem repeat_crcBit (n : Nat) (r w : BitVec 32) (h : w >>> n = 0) :
    Nat.repeat crcBit n (r ^^^ w) = (lowBits w n).foldl crcShift r := by
  induction n generalizing r w with
  | zero =>
    rw [BitVec.ushiftRight_zero] at h
    rw [h]
    exact BitVec.xor_zero
  | succ n ih =>
    rw [repeat_succ, crcBit_xor, lowBits, List.foldl_cons, ih]
    rw [← BitVec.shiftRight_add, Nat.add_comm]
    exact h

theorem lowBits_octet (b : BitVec 8) : lowBits (b.setWidth 32) 8 = octetBits b := by
  simp [lowBits, octetBits, List.range_succ]

theorem octet_high (b : BitVec 8) : b.setWidth 32 >>> 8 = 0 := by
  apply BitVec.eq_of_getLsbD_eq
  intro i hi
  rw [BitVec.getLsbD_ushiftRight, BitVec.getLsbD_setWidth, BitVec.getLsbD_of_ge b (8 + i) (by omega)]
  simp

theorem crc32Le_bits (crc : BitVec 32) (p : Octets) :
    crc32Le crc p = (p.flatMap octetBits).foldl crcShift crc := by
  unfold crc32Le
  induction p generalizing crc with
  | nil => rfl
  | cons b p ih =>
    rw [List.foldl_cons, List.flatMap_cons, List.foldl_append, ih,
      repeat_crcBit 8 crc (b.setWidth 32) (octet_high b), lowBits_octet]

/-- The loop of the code is the standard crc32 before its complement. -/
theorem crc32_eq (p : Octets) : crc32 p = ~~~crc32Le 0xffffffff p := by
  have hones : (0xffffffff : BitVec 32).reverse = 0xffffffff := by decide +kernel
  rw [crc32, reverse_foldl, hones, crc32Le_bits]

theorem crcOctets_bits (tmp : BitVec 32) : (crcOctets tmp).flatMap octetBits = lowBits (~~~tmp) 32 := by
  unfold crcOctets wordBytes
  generalize ~~~tmp = w
  simp [octetBits, lowBits, List.range_succ]

theorem word_high (w : BitVec 32) : w >>> 32 = 0 := by
  apply BitVec.eq_of_getLsbD_eq
  intro i hi
  rw [BitVec.getLsbD_ushiftRight, BitVec.getLsbD_of_ge w (32 + i) (by omega)]
  simp

/-- A message with the check sequence of the code has the residue of the standard. -/
theorem crc32_sealed (x : Octets) : crc32 (x ++ crcOctets (crc32Le 0xffffffff x)) = crcResidue := by
  generalize htmp : crc32Le 0xffffffff x = tmp
  have hones : tmp ^^^ ~~~tmp = 0xffffffff := by
    rw [← BitVec.not_xor_right, BitVec.xor_self]
    decide
  have hfold : crc32Le 0xffffffff (x ++ crcOctets tmp) = Nat.repeat crcBit 32 0xffffffff := by
    rw [crc32Le_bits, List.flatMap_append, List.foldl_append, ← crc32Le_bits 0xffffffff x,
      htmp, crcOctets_bits, ← repeat_crcBit 32 _ _ (word_high _), hones]
  rw [crc32_eq, hfold]
  decide

def getapArpFrame : Nat := 72

/-- The sizes of the buffers that are given to the frame writer, and the lengths given with them:
an announcement or a request, new or kept; a reply turned around in the receive buffer; what has
been read from the kernel, new or kept; and a dhcp message. -/
inductive FrameCall : Nat → Nat → Prop
  | arp : FrameCall getapArpFrame 42
  | reply : FrameCall getapMaxFrame 42
  | user (rr : Nat) : runtLength ≤ rr → rr ≤ getapMaxFrame - sizeFrameHeader →
      FrameCall getapMaxFrame (rr + sizeFrameHeader)
  | dhcp : FrameCall getapDhcpBufferSize (getapDhcpBufferSize - 8)

/-- The image of a frame: padded with zeros to the least length that is four bytes short of a
multiple of eight, and no less than the minimum frame, with its check sequence behind. -/
def FrameImage (frame image : Octets) : Prop :=
  ∃ zeros fcs, image = frame ++ List.replicate zeros 0 ++ fcs ∧ fcs.length = 4 ∧
    image.length % 8 = 0 ∧ minFrame ≤ frame.length + zeros ∧
    image.length < max frame.length minFrame + 4 + 8 ∧ crc32 image = crcResidue

section

variable {size len : Nat} {data : Bytes}

theorem frameCall_pos (h : FrameCall size len) : 0 < len := by
  cases h with
  | arp => decide
  | reply => decide
  | user rr h _ =>
    unfold runtLength at h
    omega
  | dhcp => decide

/-- A frame that is not refused fits into the buffer that it is in, with its padding and check. -/
theorem frameCall_fits (h : FrameCall size len) (hmax : finalLength len ≤ getapMaxFrame) :
    finalLength len ≤ size := by
  cases h with
  | arp => decide
  | reply => decide
  | user rr _ _ => exact hmax
  | dhcp => decide

theorem finalLength_spec (len : Nat) :
    finalLength len % 8 = 0 ∧ max len minFrame + 4 ≤ finalLength len ∧
      finalLength len < max len minFrame + 4 + 8 := by
  unfold finalLength
  split
  next h =>
    rw [Nat.max_eq_right h]
    omega
  next h =>
    rw [Nat.max_eq_left (by omega)]
    omega

theorem padded_apply (data : Bytes) (len k : Nat) :
    padded data len k = if len ≤ k ∧ k < finalLength len - 4 then 0 else data k := by
  unfold padded
  by_cases hk : len ≤ k ∧ k < finalLength len - 4
  · rw [if_pos hk, if_pos (by omega), put, if_pos hk.1, List.getD_eq_getElem?_getD,
      List.getElem?_replicate, if_pos (by omega), Option.getD_some]
  · rw [if_neg hk]
    split
    · rcases Nat.lt_or_ge k len with hlt | hge
      · exact put_below hlt
      · exact put_above (by rw [List.length_replicate]; omega)
    · rfl

/-- Padding a padded frame changes nothing. -/
theorem padded_twice : padded (padded data len) len = padded data len := by
  funext k
  rw [padded_apply, padded_apply]
  split
  · rfl
  · rfl

theorem load_padding :
    ByteBlock.load (padded data len) 0 (finalLength len - 4) =
      ByteBlock.load data 0 len ++ List.replicate (finalLength len - 4 - len) 0 := by
  have hge := finalLength_ge len
  obtain ⟨n, hn⟩ : ∃ n, finalLength len - 4 = len + n := ⟨finalLength len - 4 - len, by omega⟩
  rw [hn, load_append, load_padded, Nat.add_sub_cancel_left, Nat.zero_add]
  congr 1
  apply List.ext_getElem?
  intro i
  rw [getElem?_load, List.getElem?_replicate]
  split
  next hi => rw [padded_apply, if_pos (by omega)]
  next => rfl

theorem length_crcOctets (tmp : BitVec 32) : (crcOctets tmp).length = 4 := rfl

/-- What is copied to the gateware. -/
theorem load_image :
    ByteBlock.load (sealed (padded data len) (finalLength len)) 0 (finalLength len) =
      ByteBlock.load data 0 len ++ List.replicate (finalLength len - 4 - len) 0 ++
        crcOctets (crc32Le 0xffffffff
          (ByteBlock.load data 0 len ++ List.replicate (finalLength len - 4 - len) 0)) := by
  have hge := finalLength_ge len
  have hload := load_append (sealed (padded data len) (finalLength len)) 0 (finalLength len - 4) 4
  rw [Nat.sub_add_cancel (by omega), Nat.zero_add] at hload
  rw [hload, ← load_padding]
  congr 1
  · exact load_put_below (Nat.le_of_eq (Nat.zero_add _))
  · exact load_put_self

theorem image_spec :
    FrameImage (ByteBlock.load data 0 len)
      (ByteBlock.load (sealed (padded data len) (finalLength len)) 0 (finalLength len)) := by
  obtain ⟨hmod, hge, hlt⟩ := finalLength_spec len
  refine ⟨finalLength len - 4 - len, _, load_image, length_crcOctets _, ?_, ?_, ?_, ?_⟩
  · rw [length_load]
    exact hmod
  · rw [length_load]
    omega
  · rw [length_load, length_load]
    exact hlt
  · rw [load_image]
    exact crc32_sealed _

theorem image_above {k : Nat} (hk : finalLength len ≤ k) :
    sealed (padded data len) (finalLength len) k = data k := by
  have hge := finalLength_ge len
  rw [sealed, put_above (by rw [length_crcOctets]; omega), padded_apply, if_neg (by omega)]

end

/-- What a call of the frame writer owes: it changes nothing outside of the buffer and nothing of
the frame; one that succeeds has put the image of the frame in the gateware; and after a busy one
the next call, whatever the gateware has done, is as if it had been the first. -/
structure FrameLaws (size : Nat) (sizes : BitVec 32) (tx : TapTx) (id : Nat) (maker : FrameMaker)
    (data : Bytes) (len : Nat) : Prop where
  inside : ∀ k, size ≤ k → (tx.writeFrameFpga sizes id maker data len).2.1 k = data k
  kept : ByteBlock.load (tx.writeFrameFpga sizes id maker data len).2.1 0 len =
    ByteBlock.load data 0 len
  sent : (tx.writeFrameFpga sizes id maker data len).1 = .done →
    ∃ image, (tx.writeFrameFpga sizes id maker data len).2.2.frames =
        tx.frames ++ [.ended id (.written maker image (announcedSizes sizes image.length))] ∧
      image.length ≤ getapMaxFrame ∧ FrameImage (ByteBlock.load data 0 len) image
  again : (tx.writeFrameFpga sizes id maker data len).1 = .busy → ∀ (sizes' : BitVec 32) (tx' : TapTx),
    tx'.writeFrameFpga sizes' id maker (tx.writeFrameFpga sizes id maker data len).2.1 len =
      tx'.writeFrameFpga sizes' id maker data len

theorem frame_emitted {size len : Nat} (h : FrameCall size len) (sizes : BitVec 32) (tx : TapTx)
    (id : Nat) (maker : FrameMaker) (data : Bytes) : FrameLaws size sizes tx id maker data len := by
  have hpos : len ≠ 0 := Nat.ne_of_gt (frameCall_pos h)
  by_cases hmax : getapMaxFrame < finalLength len
  · have hw : tx.writeFrameFpga sizes id maker data len = (.error, data, tx) := by
      rw [TapTx.writeFrameFpga, if_neg hpos, if_pos hmax]
    constructor
    · exact fun k _ => by rw [hw]
    · rw [hw]
    · rw [hw]
      exact nofun
    · rw [hw]
      exact nofun
  have hfits := frameCall_fits h (Nat.le_of_not_lt hmax)
  by_cases hbusy : sizes &&& 0xffff0000 ≠ 0
  · have hw : tx.writeFrameFpga sizes id maker data len =
        (.busy, padded data len, tx.note (.tried id (maker, ByteBlock.load data 0 len))) := by
      rw [TapTx.writeFrameFpga, if_neg hpos, if_neg hmax, if_pos hbusy]
    constructor
    · intro k hk
      rw [hw]
      dsimp only
      rw [padded_apply, if_neg (by omega)]
    · rw [hw]
      exact load_padded
    · rw [hw]
      exact nofun
    · intro _ sizes' tx'
      rw [hw]
      dsimp only
      simp only [TapTx.writeFrameFpga, padded_twice, load_padded, if_neg hpos, if_neg hmax]
  · have hw : tx.writeFrameFpga sizes id maker data len =
        (.done, sealed (padded data len) (finalLength len),
          { tx with
            sTxSmall := min tx.sTxSmall (finalLength len)
            sTxBig := max tx.sTxBig (finalLength len)
            frames := tx.frames ++ [.ended id (.written maker
              (ByteBlock.load (sealed (padded data len) (finalLength len)) 0 (finalLength len))
              (announcedSizes sizes (finalLength len)))] }) := by
      rw [TapTx.writeFrameFpga, if_neg hpos, if_neg hmax, if_neg hbusy]
    constructor
    · intro k hk
      rw [hw]
      exact image_above (Nat.le_trans hfits hk)
    · rw [hw]
      exact (load_sealed _ (finalLength_ge len)).trans load_padded
    · intro _
      rw [hw]
      refine ⟨_, ?_, ?_, image_spec⟩
      · dsimp only
        rw [length_load]
      · rw [length_load]
        exact Nat.le_of_not_lt hmax
    · rw [hw]
      exact nofun

/-- An arp announcement of zeros on a gateware that has sent everything. -/
def idleTx : TapTx := ⟨fun _ => 0, 42, fun _ => 0, 0, fun _ => 0, 0, 0, 0, 0, 0, 0, 0, 0, 1, []⟩

theorem frame_emitted_announcement :
    FrameLaws getapArpFrame 0 idleTx 0 .arp idleTx.sArpBuffer 42 :=
  frame_emitted .arp 0 idleTx 0 .arp idleTx.sArpBuffer

end Katcp
