import Katcp.ByteBit

namespace Katcp

namespace ByteBit

/-- What `byte_normalise_bb_katcl` leaves a pair at, also where it fails. -/
def byteLeft (long : Nat) (bb : ByteBit) : ByteBit :=
  if bb.bAlign.byte then bb
  else
    let bByte := (bb.bByte + bb.bBit / 8) % 2 ^ long
    ⟨bByte, bb.bBit % 8, if bByte < bb.bByte then bb.bAlign else ⟨true, bByte % 4 == 0⟩⟩

/-- What `word_normalise_bb_katcl` leaves a pair at, also where it fails. -/
def wordLeft (long : Nat) (bb : ByteBit) : ByteBit := (wordNormalise long bb).getD bb

/-- The function as it calls itself, up to so many calls deep; the inner `none` is where it
reports an error. -/
def exceedsCalls (long : Nat) : Nat → ByteBit → ByteBit → Option (Option Bool)
  | 0, _, _ => none
  | calls + 1, bb, limit =>
    if bb.meets limit then some (some (bb.exceedsAligned limit))
    else if bb.bAlign.byte then
      match byteNormalise long limit with
      | none => some none
      | some tmp => exceedsCalls long calls bb tmp
    else
      match byteNormalise long bb with
      | none => some none
      | some tmp => exceedsCalls long calls tmp limit

/-- A pair that has been normalised. -/
def Normal (bb : ByteBit) : Prop := bb.bAlign.byte = true ∨ bb.bAlign.word = true

/-- A number of bits that a normalised pair can stand for. -/
def Representable (long total : Nat) : Prop := ∃ bb : ByteBit, bb.Truthful long ∧ bb.Normal ∧ bb.bits = total

/-- Both normalisations keep the total, and leave a bit part in range. -/
structure KeepsTotal (long : Nat) (bb : ByteBit) : Prop where
  byteTotal : (byteLeft long bb).bits = bb.bits
  byteRange : (byteLeft long bb).bBit < 8
  wordTotal : (wordLeft long bb).bits = bb.bits
  wordRange : (wordLeft long bb).bBit < 32

/-- The comparison comes to an end, and says which total is the larger one. -/
def Orders (long : Nat) (bb limit : ByteBit) : Prop :=
  ∃ calls, exceedsCalls long calls bb limit = some (some (decide (limit.bits < bb.bits)))

/-- The sum succeeds where its total can be represented, and is normalised then. -/
structure AddsUp (long : Nat) (alpha beta : ByteBit) : Prop where
  succeeds : (addBb long alpha beta).isSome ↔ Representable long (alpha.bits + beta.bits)
  sums : ∀ sigma, addBb long alpha beta = some sigma →
    sigma.Normal ∧ sigma.Truthful long ∧ sigma.bits = alpha.bits + beta.bits

section

variable {long : Nat} {bb next limit alpha beta sigma : ByteBit}

theorem byteLeft_of_some (h : byteNormalise long bb = some next) : byteLeft long bb = next := by
  unfold byteNormalise at h
  unfold byteLeft
  dsimp only at h ⊢
  split at h
  next hbyte =>
    rw [if_pos hbyte]
    exact Option.some.inj h
  next hbyte =>
    rw [if_neg hbyte]
    split at h
    next => cases h
    next hwrap =>
      rw [if_neg hwrap]
      exact Option.some.inj h

theorem Truthful.lt_of_normal (hbb : bb.Truthful long) (hn : bb.Normal) (hlong : 8 ≤ long) :
    bb.bits < 8 * 2 ^ long := by
  have hlt := hbb.byte_lt
  have hfour : 2 ^ long = 4 * 2 ^ (long - 2) := by
    rw [show 4 = 2 ^ 2 from rfl, ← Nat.pow_add]
    congr 1
    omega
  unfold bits
  rcases hn with hbyte | hword
  · have hbit := hbb.byte hbyte
    omega
  · obtain ⟨hmod, hbit⟩ := hbb.word hword
    omega

theorem representable_iff (hlong : 8 ≤ long) {total : Nat} : Representable long total ↔ total < 8 * 2 ^ long := by
  constructor
  · rintro ⟨bb, hbb, hn, rfl⟩
    exact hbb.lt_of_normal hn hlong
  · intro hlt
    refine ⟨⟨total / 8, total % 8, ⟨true, total / 8 % 4 == 0⟩⟩, ⟨?_, ?_, ?_, ?_⟩, .inl rfl, ?_⟩
    · dsimp only
      omega
    · dsimp only
      omega
    · intro _
      dsimp only
      omega
    · intro hword
      have hmod : total / 8 % 4 = 0 := by simpa using hword
      exact ⟨hmod, by dsimp only; omega⟩
    · unfold bits
      dsimp only
      omega

/-- A pair whose total can be represented is normalised without fail. -/
theorem byteNormalise_of_lt (hlt : bb.bits < 8 * 2 ^ long) :
    ∃ next, byteNormalise long bb = some next := by
  unfold byteNormalise
  dsimp only
  split
  · exact ⟨_, rfl⟩
  · unfold bits at hlt
    have hsum : (bb.bByte + bb.bBit / 8) % 2 ^ long = bb.bByte + bb.bBit / 8 := Nat.mod_eq_of_lt (by omega)
    rw [hsum, if_neg (by omega)]
    exact ⟨_, rfl⟩

theorem wordNormalise_of_byte (h : byteNormalise long bb = some next) : ∃ last, wordNormalise long bb = some last := by
  unfold wordNormalise
  split
  · exact ⟨_, rfl⟩
  · rw [h]
    exact ⟨_, rfl⟩

theorem byteNormalise_of_normal (hbb : bb.Truthful long) (hn : bb.Normal) (hlong : 8 ≤ long) :
    ∃ next, byteNormalise long bb = some next := byteNormalise_of_lt (hbb.lt_of_normal hn hlong)

/-- The total is kept exactly where it can be represented: a byte part that wraps has been stored
when the wrap is found. -/
theorem keepsTotal_iff (hbb : bb.Truthful long) (hlong : 8 ≤ long) : KeepsTotal long bb ↔ bb.bits < 8 * 2 ^ long := by
  constructor
  · intro h
    have htotal := h.byteTotal
    have hlt := hbb.byte_lt
    have hpow : 2 ^ 8 ≤ 2 ^ long := Nat.pow_le_pow_right (by omega) hlong
    have hbit := hbb.bit_lt
    unfold byteLeft at htotal
    by_cases hbyte : bb.bAlign.byte = true
    · exact hbb.lt_of_normal (.inl hbyte) hlong
    · rw [if_neg hbyte] at htotal
      unfold bits at htotal ⊢
      dsimp only at htotal
      have hmod : (bb.bByte + bb.bBit / 8) % 2 ^ long < 2 ^ long := Nat.mod_lt _ (by omega)
      omega
  · intro hlt
    obtain ⟨next, hnext⟩ := byteNormalise_of_lt hlt
    obtain ⟨last, hlast⟩ := wordNormalise_of_byte hnext
    obtain ⟨hbits, htruthful, hbyte⟩ := byteNormalise_spec hnext hbb hlong
    obtain ⟨hlbits, hltruthful, hword⟩ := wordNormalise_spec hlast hbb hlong
    have hleft := byteLeft_of_some hnext
    have hwleft : wordLeft long bb = last := by rw [wordLeft, hlast, Option.getD_some]
    exact ⟨by rw [hleft, hbits], by rw [hleft]; exact htruthful.byte hbyte, by rw [hwleft, hlbits],
      by rw [hwleft]; exact (hltruthful.word hword).2⟩

theorem byte_of_byteNormalise (h : byteNormalise long bb = some next) : next.bAlign.byte = true := by
  unfold byteNormalise at h
  dsimp only at h
  split at h
  next hbyte =>
    cases Option.some.inj h
    exact hbyte
  next =>
    split at h
    next => cases h
    next =>
      cases Option.some.inj h
      rfl

theorem exceedsCalls_of_byte (hbyte : bb.bAlign.byte = true) (calls : Nat) :
    exceedsCalls long (calls + 2) bb limit = some (exceedsBb long bb limit) := by
  rw [exceedsCalls, exceedsBb]
  split
  · rfl
  · cases hn : byteNormalise long limit with
    | none => rfl
    | some tmp =>
      have hmeets : bb.meets tmp = true := by simp [meets, hbyte, byte_of_byteNormalise hn]
      dsimp only
      rw [exceedsCalls, if_pos hmeets]
      rfl

/-- The function calls itself at most twice. -/
theorem exceedsCalls_eq : exceedsCalls long 3 bb limit = some (exceedsBb long bb limit) := by
  by_cases hbyte : bb.bAlign.byte = true
  · exact exceedsCalls_of_byte hbyte 1
  · rw [exceedsCalls, exceedsBb]
    split
    · rfl
    · cases hn : byteNormalise long bb with
      | none => rfl
      | some tmp =>
        have htmp := byte_of_byteNormalise hn
        dsimp only
        rw [exceedsCalls_of_byte htmp 0, exceedsBb]
        split
        next hmeets =>
          show _ = some (if tmp.meets limit = true then _ else _)
          rw [if_pos hmeets]
        next hmeets =>
          show _ = some (if tmp.meets limit = true then _ else _)
          rw [if_neg hmeets]

/-- Of two normalised pairs the one that exceeds the other has the larger total. -/
theorem exceedsBb_of_normal (hbb : bb.Truthful long) (hn : bb.Normal) (hlimit : limit.Truthful long)
    (hln : limit.Normal) (hlong : 8 ≤ long) : exceedsBb long bb limit = some (decide (limit.bits < bb.bits)) := by
  obtain ⟨other, hother⟩ := byteNormalise_of_normal hlimit hln hlong
  obtain ⟨hobits, hotruthful, hobyte⟩ := byteNormalise_spec hother hlimit hlong
  obtain ⟨tmp, htmp⟩ := byteNormalise_of_normal hbb hn hlong
  obtain ⟨hbits, htruthful, hbyte⟩ := byteNormalise_spec htmp hbb hlong
  unfold exceedsBb
  rw [hother, htmp]
  split
  next hmeets => rw [exceedsAligned_of_meets hmeets hbb hlimit]
  next =>
    split
    next hb =>
      show some (bb.exceedsAligned other) = _
      rw [exceedsAligned_of_meets (by simp [meets, hb, hobyte]) hbb hotruthful, hobits]
    next =>
      show (if tmp.meets limit = true then some (tmp.exceedsAligned limit)
        else some (tmp.exceedsAligned other)) = _
      split
      next hmeets => rw [exceedsAligned_of_meets hmeets htruthful hlimit, hbits]
      next => rw [exceedsAligned_of_meets (by simp [meets, hbyte, hobyte]) htruthful hotruthful, hbits, hobits]

theorem orders_of_normal (hbb : bb.Truthful long) (hn : bb.Normal) (hlimit : limit.Truthful long)
    (hln : limit.Normal) (hlong : 8 ≤ long) : Orders long bb limit :=
  ⟨3, by rw [exceedsCalls_eq, exceedsBb_of_normal hbb hn hlimit hln hlong]⟩

theorem sum_of_normal (halpha : alpha.Truthful long) (hna : alpha.Normal) (hbeta : beta.Truthful long)
    (hnb : beta.Normal) : (alpha.bBit + beta.bBit) % 256 = alpha.bBit + beta.bBit := by
  have hlow : ∀ bb : ByteBit, bb.Truthful long → bb.Normal → bb.bBit < 32 := by
    intro bb hbb hn
    rcases hn with hbyte | hword
    · exact Nat.lt_trans (hbb.byte hbyte) (by decide)
    · exact (hbb.word hword).2
  have ha := hlow alpha halpha hna
  have hb := hlow beta hbeta hnb
  exact Nat.mod_eq_of_lt (by omega)

/-- The sum of two normalised pairs: whether the normalisation at its end has failed is not looked at. -/
theorem addBb_of_normal (halpha : alpha.Truthful long) (hna : alpha.Normal) (hbeta : beta.Truthful long)
    (hnb : beta.Normal) : addBb long alpha beta =
      if alpha.bByte + beta.bByte < 2 ^ long then
        some (wordLeft long ⟨alpha.bByte + beta.bByte, alpha.bBit + beta.bBit, ⟨false, false⟩⟩)
      else none := by
  have ha := halpha.byte_lt
  have hb := hbeta.byte_lt
  have hbit := sum_of_normal halpha hna hbeta hnb
  unfold addBb
  dsimp only
  rw [hbit]
  split
  next hwrap =>
    rw [if_neg]
    intro hlt
    rw [Nat.mod_eq_of_lt hlt] at hwrap
    omega
  next hwrap =>
    have hsum := sum_of_not_lt ha hb hwrap
    have hlt : (alpha.bByte + beta.bByte) % 2 ^ long < 2 ^ long := Nat.mod_lt _ (by omega)
    rw [hsum] at hlt ⊢
    rw [if_neg (by omega), if_pos hlt]
    rfl

theorem addsUp_iff (halpha : alpha.Truthful long) (hna : alpha.Normal) (hbeta : beta.Truthful long)
    (hnb : beta.Normal) (hlong : 8 ≤ long) : AddsUp long alpha beta ↔
      (alpha.bByte + beta.bByte < 2 ^ long → alpha.bits + beta.bits < 8 * 2 ^ long) := by
  have hbit := sum_of_normal halpha hna hbeta hnb
  have hadd := addBb_of_normal halpha hna hbeta hnb
  have hbits : alpha.bits + beta.bits = 8 * (alpha.bByte + beta.bByte) + (alpha.bBit + beta.bBit) := by
    unfold bits
    omega
  constructor
  · intro h hlt
    rw [← representable_iff hlong, ← h.succeeds, hadd, if_pos hlt]
    rfl
  · intro h
    by_cases hlt : alpha.bByte + beta.bByte < 2 ^ long
    · rw [if_pos hlt] at hadd
      have htmp : (⟨alpha.bByte + beta.bByte, alpha.bBit + beta.bBit, ⟨false, false⟩⟩ : ByteBit).Truthful long :=
        ⟨hlt, by dsimp only; omega, by simp, by simp⟩
      have hfits := h hlt
      rw [hbits] at hfits
      obtain ⟨tmp, hbyte⟩ := @byteNormalise_of_lt long
        ⟨alpha.bByte + beta.bByte, alpha.bBit + beta.bBit, ⟨false, false⟩⟩ hfits
      obtain ⟨last, hlast⟩ := wordNormalise_of_byte hbyte
      obtain ⟨htotal, htruthful, hword⟩ := wordNormalise_spec hlast htmp hlong
      rw [wordLeft, hlast, Option.getD_some] at hadd
      refine ⟨?_, fun sigma hsigma => ?_⟩
      · rw [hadd, representable_iff hlong, hbits]
        exact iff_of_true rfl hfits
      · cases Option.some.inj (hadd.symm.trans hsigma)
        exact ⟨.inr hword, htruthful, htotal.trans hbits.symm⟩
    · rw [if_neg hlt] at hadd
      refine ⟨?_, fun sigma hsigma => ?_⟩
      · rw [hadd, representable_iff hlong]
        exact iff_of_false (by decide) (by omega)
      · rw [hadd] at hsigma
        cases hsigma

/-- The offsets are as they should be except where a total can not be represented while its byte part can. -/
theorem offsets_exact_iff (hbb : bb.Truthful long) (halpha : alpha.Truthful long) (hna : alpha.Normal)
    (hbeta : beta.Truthful long) (hnb : beta.Normal) (hlong : 8 ≤ long) :
    (KeepsTotal long bb ∧ Orders long alpha beta ∧ AddsUp long alpha beta) ↔
      bb.bits < 8 * 2 ^ long ∧
        (alpha.bByte + beta.bByte < 2 ^ long → alpha.bits + beta.bits < 8 * 2 ^ long) := by
  rw [keepsTotal_iff hbb hlong, addsUp_iff halpha hna hbeta hnb hlong]
  have horders := orders_of_normal halpha hna hbeta hnb hlong
  exact ⟨fun h => ⟨h.1, h.2.2⟩, fun h => ⟨h.1, horders, h.2⟩⟩

end

/-- The last bit that can be addressed with a long of 32 bits. -/
def lastBit : ByteBit := ⟨2 ^ 32 - 1, 7, ⟨true, false⟩⟩

def oneBit : ByteBit := ⟨0, 1, ⟨true, true⟩⟩

theorem lastBit_truthful : lastBit.Truthful 32 := ⟨by decide, by decide, fun _ => by decide, by decide⟩

theorem oneBit_truthful : oneBit.Truthful 32 := ⟨by decide, by decide, fun _ => by decide, fun _ => by decide⟩

theorem offsets_exact_oneBit : KeepsTotal 32 lastBit ∧ Orders 32 oneBit oneBit ∧ AddsUp 32 oneBit oneBit :=
  (offsets_exact_iff lastBit_truthful oneBit_truthful (.inl rfl) oneBit_truthful (.inl rfl)
    (by decide)).mpr ⟨by decide, fun _ => by decide⟩

theorem offset_sum_lost : ∃ alpha beta sigma : ByteBit, alpha.Truthful 32 ∧ alpha.Normal ∧ beta.Truthful 32 ∧
    beta.Normal ∧ addBb 32 alpha beta = some sigma ∧ ¬ sigma.Normal ∧
      ¬ Representable 32 (alpha.bits + beta.bits) := by
  refine ⟨lastBit, oneBit, ⟨2 ^ 32 - 1, 8, ⟨false, false⟩⟩, lastBit_truthful, .inl rfl, oneBit_truthful, .inl rfl,
    by decide, by simp [Normal], ?_⟩
  rw [representable_iff (by decide)]
  decide

end ByteBit

end Katcp
