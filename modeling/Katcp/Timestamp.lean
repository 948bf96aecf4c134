import Katcp.BoundedCopy
import Katcp.TimeParse
import Mathlib.Data.Rat.Defs
import Mathlib.Tactic.FieldSimp
import Mathlib.Tactic.Ring

namespace Katcp

open Memory

/-- The sum of two `int`s, where it is one. -/
def addInt (a b : Int) : Option Int := if -2 ^ 31 ≤ a + b ∧ a + b < 2 ^ 31 then some (a + b) else none

/-- The loop that pads a fraction out, and the end of the text behind it. -/
def padFraction : Nat → List Byte → Int → Option (List Byte)
  | 0, dst, total => assign dst total 0
  | n + 1, dst, total => do
    let dst ← assign dst total (byte '0')
    padFraction n dst (total + 1)

/-- `fixup_timestamp_katcp` of version five, where `dst` is all of the memory at the destination;
there is no answer where it writes outside it or an `int` overflows. -/
def fixupTimestamp (src : Text) (dst : List Byte) (size : Int) : Option (List Byte × Int) :=
  if byte '.' ∈ src then
    let before := (src.takeWhile (· ≠ byte '.')).length
    if before < 10 then some (dst, -1)
    else do
      let suffix := asInt (src.length - before)
      let total ← addInt (asInt before) suffix
      if 4 ≤ suffix then
        if size ≤ total then
          let least ← addInt (asInt before) 4
          if size ≤ least then some (dst, -1)
          else do
            let dst ← memcpy dst 0 (src ++ [0]) (size - 1)
            let dst ← assign dst (size - 1) 0
            let dst ← memcpy dst 0 (src ++ [0]) (total + 1)
            some (dst, 0)
        else do
          let dst ← memcpy dst 0 (src ++ [0]) (total + 1)
          some (dst, 0)
      else if size ≤ before + 4 then some (dst, -1)
      else do
        let dst ← memcpy dst 0 (src ++ [0]) total
        let dst ← padFraction (4 - suffix).toNat dst total
        some (dst, 1)
  else do
    let total := asInt src.length
    if total < 13 then some (dst, -1)
    else
      let room ← addInt total 1
      if size ≤ room then some (dst, -1)
      else do
        let dst ← memcpy dst 0 (src ++ [0]) (total - 3)
        let dst ← assign dst (total - 3) (byte '.')
        let dst ← memcpy dst (total - 3 + 1) ((src ++ [0]).drop (total - 3).toNat) 4
        some (dst, 1)

/-- The seconds that the digits before and behind a point denote. -/
def secondsOf (whole frac : Text) : Option ℚ :=
  if whole.all isDigit && frac.all isDigit then some (digitsValue whole + digitsValue frac / 10 ^ frac.length)
  else none

/-- The instant that a timestamp denotes, in seconds: the old format has it in milliseconds. -/
def instant (s : Text) : Option ℚ :=
  if byte '.' ∈ s then secondsOf (s.takeWhile (· ≠ byte '.')) (s.dropWhile (· ≠ byte '.')).tail
  else if s.all isDigit then some (digitsValue s / 10 ^ 3)
  else none

/-- The fraction digits that version five has. -/
def Precise (s : Text) : Prop := ∃ whole frac, s = whole ++ byte '.' :: frac ∧ byte '.' ∉ whole ∧ 3 ≤ frac.length

/-- A timestamp is refused, or the destination holds one for the same instant. -/
def Normalised (src : Text) (dst : List Byte) (result : Option (List Byte × Int)) : Prop :=
  ∃ out code, result = some (out, code) ∧ out.length = dst.length ∧
    (0 ≤ code → ∃ text, 0 ∉ text ∧ text ++ [0] <+: out ∧ instant text = instant src ∧ Precise text)

/-- Cut short, the text is not a number either, or it only lacks zeros. -/
def OnlyZerosLost (src : Text) (n : Nat) : Prop := instant (src.take n) = none ∨ ∀ c ∈ src.drop n, c = byte '0'

/-- The timestamps that the code can handle: for texts whose length is an `int` they are all but those
with more than three fraction digits that the destination has room for three of, but not for all. -/
def Fixable (src : Text) (size : Int) : Prop :=
  if byte '.' ∈ src then
    let before := (src.takeWhile (· ≠ byte '.')).length
    let suffix := asInt (src.length - before)
    let total := asInt before + suffix
    before < 10 ∨ (-2 ^ 31 ≤ total ∧ total < 2 ^ 31) ∧
      if 4 ≤ suffix then if size ≤ total then size ≤ asInt before + 4 else src.length < 2 ^ 31
      else size ≤ before + 4 ∨ src.length < before + 4 ∨ 0 < suffix ∧ OnlyZerosLost src (before + suffix.toNat)
  else
    let total := asInt src.length
    total < 13 ∨ total + 1 < 2 ^ 31 ∧ (size ≤ total + 1 ∨ src.length < 2 ^ 31)

example : fixupTimestamp (textOf "1234567890.5") (List.replicate 15 1) 15 =
    some (textOf "1234567890.500" ++ [0], 1) := by decide

section

variable {src whole frac text : Text} {dst out : List Byte} {size : Int}

theorem point_split (h : byte '.' ∈ src) : ∃ whole frac, src = whole ++ byte '.' :: frac ∧ byte '.' ∉ whole :=
  List.eq_append_cons_of_mem h

theorem takeWhile_stop {c : Byte} (h : c ∉ whole) : (whole ++ c :: frac).takeWhile (· ≠ c) = whole := by
  rw [List.takeWhile_append_of_pos, List.takeWhile_cons, if_neg (by simp), List.append_nil]
  intro b hb
  simpa using fun heq : b = c => h (heq ▸ hb)

theorem dropWhile_point (h : byte '.' ∉ whole) :
    (whole ++ byte '.' :: frac).dropWhile (· ≠ byte '.') = byte '.' :: frac := by
  rw [List.dropWhile_append_of_pos, List.dropWhile_cons, if_neg (by simp)]
  intro c hc
  simpa using fun heq : c = byte '.' => h (heq ▸ hc)

theorem instant_point (h : byte '.' ∉ whole) : instant (whole ++ byte '.' :: frac) = secondsOf whole frac := by
  rw [instant, if_pos (by simp), takeWhile_stop h, dropWhile_point h]
  rfl

theorem Precise.of_point (h : byte '.' ∉ whole) (hfrac : 3 ≤ frac.length) : Precise (whole ++ byte '.' :: frac) :=
  ⟨whole, frac, rfl, h, hfrac⟩

theorem digitsValue_cons (c : Byte) (digits : Text) :
    digitsValue (c :: digits) = (c.toNat - 48) * 10 ^ digits.length + digitsValue digits := by
  have h := digitsValue_append [c] digits
  simpa [digitsValue] using h

theorem digitsValue_zero (h : frac.all isDigit) : digitsValue frac = 0 ↔ ∀ c ∈ frac, c = byte '0' := by
  induction frac with
  | nil => simp [digitsValue]
  | cons c frac ih =>
    rw [List.all_cons, Bool.and_eq_true] at h
    have hc : c.toNat - 48 = 0 ↔ c = byte '0' := by
      have hd := h.1
      simp only [isDigit, Bool.and_eq_true, decide_eq_true_eq, UInt8.le_iff_toNat_le] at hd
      have h0 : 48 ≤ c.toNat := hd.1
      rw [← UInt8.toNat_inj, show (byte '0').toNat = 48 by decide]
      omega
    have hpow : 10 ^ frac.length ≠ 0 := pow_ne_zero _ (by decide)
    rw [digitsValue_cons, Nat.add_eq_zero_iff, Nat.mul_eq_zero, or_iff_left hpow, hc, ih h.2, List.forall_mem_cons]

/-- A fraction that is cut short is the same one when it lacks zeros. -/
theorem secondsOf_cut (whole frac rest : Text) :
    secondsOf whole frac = secondsOf whole (frac ++ rest) ↔ secondsOf whole frac = none ∨ ∀ c ∈ rest, c = byte '0' := by
  unfold secondsOf
  rw [List.all_append, ← Bool.and_assoc]
  cases hfront : whole.all isDigit && frac.all isDigit with
  | false => simp
  | true =>
    cases hrest : rest.all isDigit with
    | false =>
      refine iff_of_false (by simp) ?_
      rintro (h | hzeros)
      · cases h
      · have hall : rest.all isDigit = true := List.all_eq_true.mpr fun c hc => by rw [hzeros c hc]; decide
        rw [hall] at hrest
        cases hrest
    | true =>
      have hpow : ((10 : ℚ) ^ frac.length) ≠ 0 := pow_ne_zero _ (by norm_num)
      have hpow' : ((10 : ℚ) ^ (frac ++ rest).length) ≠ 0 := pow_ne_zero _ (by norm_num)
      have hsum : (digitsValue (frac ++ rest) : ℚ) / 10 ^ (frac ++ rest).length =
          digitsValue frac / 10 ^ frac.length + digitsValue rest / 10 ^ (frac ++ rest).length := by
        rw [digitsValue_append, List.length_append]
        push_cast
        field_simp
        ring
      have hzero : (digitsValue rest : ℚ) / 10 ^ (frac ++ rest).length = 0 ↔ digitsValue rest = 0 := by
        rw [div_eq_zero_iff, or_iff_left hpow', Nat.cast_eq_zero]
      simp only [Bool.and_self, if_true, Option.some.injEq, reduceCtorEq, false_or]
      rw [hsum, ← add_assoc, left_eq_add, hzero, digitsValue_zero hrest]

theorem secondsOf_zeros (whole frac : Text) (k : Nat) :
    secondsOf whole (frac ++ List.replicate k (byte '0')) = secondsOf whole frac :=
  ((secondsOf_cut whole frac _).mpr (.inr fun _ hc => List.eq_of_mem_replicate hc)).symm

theorem instant_plain {front back : Text} (h : byte '.' ∉ front ++ back) (hback : back.length = 3) :
    instant (front ++ byte '.' :: back) = instant (front ++ back) := by
  rw [instant_point (fun hf => h (List.mem_append_left _ hf)), instant, if_neg h, secondsOf, List.all_append]
  split
  next =>
    rw [digitsValue_append, hback]
    congr 1
    push_cast
    field_simp
    norm_num
  next => rfl

/-- There is one text in a block that ends with the first zero. -/
theorem terminated_unique {a b : Text} (ha : 0 ∉ a) (hb : 0 ∉ b) (h : a ++ [0] <+: out) (h' : b ++ [0] <+: out) :
    a = b := by
  obtain ⟨rest, rfl⟩ := h
  obtain ⟨rest', heq⟩ := h'
  simp only [List.append_assoc, List.singleton_append] at heq
  rw [← takeWhile_stop hb, heq, takeWhile_stop ha]

theorem padFraction_behind {k : Nat} {done : List Byte} (h : done <+: dst) (hfits : done.length + k < dst.length) :
    ∃ zs, padFraction k dst done.length = some zs ∧ zs.length = dst.length ∧
      done ++ (List.replicate k (byte '0') ++ [0]) <+: zs := by
  induction k generalizing dst done with
  | zero => exact assign_behind h hfits
  | succ k ih =>
    obtain ⟨ys, hys, hylen, hyp⟩ := assign_behind (x := byte '0') h (by omega)
    obtain ⟨zs, hzs, hzlen, hzp⟩ := ih hyp (by rw [List.length_append, List.length_singleton]; omega)
    refine ⟨zs, ?_, hzlen.trans hylen, ?_⟩
    · rw [padFraction, hys]
      simpa using hzs
    · rw [List.replicate_succ]
      simpa using hzp

theorem addInt_some {a b : Int} (h : -2 ^ 31 ≤ a + b) (h' : a + b < 2 ^ 31) : addInt a b = some (a + b) :=
  if_pos ⟨h, h'⟩

/-- The branch for a text with a point that enough digits are before. -/
theorem fixupTimestamp_point (h : byte '.' ∉ whole) (hlen : 10 ≤ whole.length)
    (htotal : -2 ^ 31 ≤ asInt whole.length + asInt (frac.length + 1))
    (htotal' : asInt whole.length + asInt (frac.length + 1) < 2 ^ 31) :
    fixupTimestamp (whole ++ byte '.' :: frac) dst size =
      let suffix := asInt (frac.length + 1)
      let total := asInt whole.length + suffix
      if 4 ≤ suffix then
        if size ≤ total then
          if size ≤ asInt whole.length + 4 then some (dst, -1)
          else do
            let dst ← memcpy dst 0 (whole ++ byte '.' :: frac ++ [0]) (size - 1)
            let dst ← assign dst (size - 1) 0
            let dst ← memcpy dst 0 (whole ++ byte '.' :: frac ++ [0]) (total + 1)
            some (dst, 0)
        else do
          let dst ← memcpy dst 0 (whole ++ byte '.' :: frac ++ [0]) (total + 1)
          some (dst, 0)
      else if size ≤ whole.length + 4 then some (dst, -1)
      else (do
        let dst ← memcpy dst 0 (whole ++ byte '.' :: frac ++ [0]) total
        let dst ← padFraction (4 - suffix).toNat dst total
        some (dst, 1)) := by
  have hsuffix : (whole ++ byte '.' :: frac).length - whole.length = frac.length + 1 := by simp
  have hge := asInt_ge whole.length
  rw [fixupTimestamp, if_pos (by simp), takeWhile_stop h]
  dsimp only
  rw [if_neg (by omega), hsuffix, addInt_some htotal htotal', Option.bind_eq_bind, Option.bind_some]
  by_cases hlong : 4 ≤ asInt (frac.length + 1)
  · have hleast : addInt (asInt whole.length) 4 = some (asInt whole.length + 4) :=
      addInt_some (by omega) (by omega)
    rw [if_pos hlong, if_pos hlong, hleast, Option.bind_eq_bind, Option.bind_some]
  · rw [if_neg hlong, if_neg hlong]

theorem refused (src : Text) (dst : List Byte) : Normalised src dst (some (dst, -1)) :=
  ⟨dst, -1, rfl, rfl, fun h => absurd h (by decide)⟩

theorem Normalised.ends {code : Int} (h : Normalised src dst (some (out, code))) (hcode : 0 ≤ code) :
    ∃ text, 0 ∉ text ∧ text ++ [0] <+: out ∧ instant text = instant src ∧ Precise text := by
  obtain ⟨out', code', heq, -, hgood⟩ := h
  cases Option.some.inj heq
  exact hgood hcode

theorem not_normalised_none : ¬ Normalised src dst none := by
  rintro ⟨out, code, heq, -⟩
  cases heq

/-- A fraction of three digits or more is copied. -/
theorem fixup_copied (h : byte '.' ∉ whole) (hlen : 10 ≤ whole.length) (hfrac : 3 ≤ frac.length)
    (hint : (whole ++ byte '.' :: frac).length < 2 ^ 31) (hdst : dst.length = size.toNat)
    (hroom : (whole ++ byte '.' :: frac).length < size) (hsrc : 0 ∉ whole ++ byte '.' :: frac) :
    Normalised (whole ++ byte '.' :: frac) dst (fixupTimestamp (whole ++ byte '.' :: frac) dst size) := by
  have hlength : (whole ++ byte '.' :: frac).length = whole.length + (frac.length + 1) := by simp
  have hw : asInt whole.length = whole.length := asInt_small (by omega)
  have hf : asInt (frac.length + 1) = (frac.length + 1 : Nat) := asInt_small (by omega)
  rw [fixupTimestamp_point h hlen (by omega) (by omega)]
  dsimp only
  rw [if_pos (by omega), if_neg (by omega), hw, hf]
  obtain ⟨out, hout, holen, hop⟩ := @memcpy_front _ dst _ _
    (le_refl (whole ++ byte '.' :: frac ++ [0]).length) (by rw [List.length_append, List.length_singleton]; omega)
  have hcount : (whole.length : Int) + (frac.length + 1 : Nat) + 1 = ((whole ++ byte '.' :: frac ++ [0]).length : Nat) := by
    rw [List.length_append, hlength, List.length_singleton]
    omega
  rw [hcount, hout]
  rw [List.take_length] at hop
  exact ⟨out, 0, rfl, holen, fun _ => ⟨_, hsrc, hop, rfl, Precise.of_point h hfrac⟩⟩

/-- A shorter one is padded out. -/
theorem fixup_padded (h : byte '.' ∉ whole) (hlen : 10 ≤ whole.length) (hfrac : asInt (frac.length + 1) < 4)
    (hroom : whole.length + 4 < size) (hsize : size < 2 ^ 31) (hdst : dst.length = size.toNat)
    (hkept : 0 ≤ whole.length + asInt (frac.length + 1)) :
    ∃ out, fixupTimestamp (whole ++ byte '.' :: frac) dst size = some (out, 1) ∧ out.length = dst.length ∧
      (whole ++ byte '.' :: frac).take (whole.length + asInt (frac.length + 1)).toNat ++
        (List.replicate (4 - asInt (frac.length + 1)).toNat (byte '0') ++ [0]) <+: out := by
  have hlength : (whole ++ byte '.' :: frac).length = whole.length + (frac.length + 1) := by simp
  have hw : asInt whole.length = whole.length := asInt_small (by omega)
  have hle : asInt (frac.length + 1) ≤ frac.length + 1 := by
    have := asInt_cases (frac.length + 1)
    omega
  rw [fixupTimestamp_point h hlen (by omega) (by omega)]
  dsimp only
  rw [if_neg (by omega), if_neg (by omega), hw]
  obtain ⟨n, hn⟩ := Int.eq_ofNat_of_zero_le hkept
  rw [hn, Int.toNat_natCast]
  obtain ⟨ys, hys, hylen, hyp⟩ := @memcpy_front _ dst n (whole ++ byte '.' :: frac ++ [0])
    (by rw [List.length_append, hlength]; omega) (by omega)
  have htake : (whole ++ byte '.' :: frac ++ [0]).take n = (whole ++ byte '.' :: frac).take n :=
    List.take_append_of_le_length (by omega)
  have hdone : ((whole ++ byte '.' :: frac).take n).length = n := by
    rw [List.length_take]
    omega
  rw [htake] at hyp
  have hfits : ((whole ++ byte '.' :: frac).take n).length + (4 - asInt (frac.length + 1)).toNat < ys.length := by
    rw [hdone, hylen, hdst]
    clear hdone htake hyp hys hylen hlength
    omega
  obtain ⟨out, hout, holen, hop⟩ := padFraction_behind hyp hfits
  rw [hdone] at hout
  rw [hys, Option.bind_eq_bind, Option.bind_some, hout]
  exact ⟨out, rfl, holen.trans hylen, hop⟩

/-- The branch for a text of the old format that is long enough. -/
theorem fixupTimestamp_plain (h : byte '.' ∉ src) (hlen : 13 ≤ asInt src.length)
    (htotal : asInt src.length + 1 < 2 ^ 31) (hroom : asInt src.length + 1 < size) :
    fixupTimestamp src dst size = (do
      let dst ← memcpy dst 0 (src ++ [0]) (asInt src.length - 3)
      let dst ← assign dst (asInt src.length - 3) (byte '.')
      let dst ← memcpy dst (asInt src.length - 3 + 1) ((src ++ [0]).drop (asInt src.length - 3).toNat) 4
      some (dst, 1)) := by
  have hadd : addInt (asInt src.length) 1 = some (asInt src.length + 1) := addInt_some (by omega) htotal
  rw [fixupTimestamp, if_neg h]
  dsimp only
  rw [if_neg (by omega), hadd, Option.bind_eq_bind, Option.bind_some, if_neg (by omega)]

/-- The milliseconds of the old format are set off by a point. -/
theorem fixup_pointed (h : byte '.' ∉ src) (hlen : 13 ≤ src.length) (hint : src.length + 1 < 2 ^ 31)
    (hdst : dst.length = size.toNat) (hroom : src.length + 1 < size) (hsrc : 0 ∉ src) :
    Normalised src dst (fixupTimestamp src dst size) := by
  have hasInt : asInt src.length = src.length := asInt_small (by omega)
  rw [fixupTimestamp_plain h (by omega) (by omega) (by omega), hasInt,
    show (src.length : Int) - 3 = ((src.length - 3 : Nat) : Int) by omega]
  obtain ⟨n, hn⟩ : ∃ n, src.length = n + 3 := ⟨src.length - 3, by omega⟩
  rw [hn, Nat.add_sub_cancel, Int.toNat_natCast]
  have hfull : (src ++ [0]).length = n + 4 := by
    rw [List.length_append, hn, List.length_singleton]
  have hfront : (src.take n).length = n := by
    rw [List.length_take, hn]
    omega
  have hback : (src.drop n).length = 3 := by
    rw [List.length_drop, hn]
    omega
  obtain ⟨xs, hxs, hxlen, hxp⟩ := @memcpy_front _ dst n (src ++ [0]) (by omega) (by omega)
  rw [List.take_append_of_le_length (by omega)] at hxp
  obtain ⟨ys, hys, hylen, hyp⟩ := assign_behind (x := byte '.') hxp (by omega)
  have hmiddle : (src.take n ++ [byte '.']).length = n + 1 := by
    rw [List.length_append, hfront, List.length_singleton]
  have hrest : ((src ++ [0]).drop n).length = 4 := by
    rw [List.length_drop, hfull]
    omega
  obtain ⟨zs, hzs, hzlen, hzp⟩ := @memcpy_behind _ ys _ 4 ((src ++ [0]).drop n) hyp hrest.ge (by omega)
  rw [hfront] at hys
  rw [hmiddle] at hzs
  rw [List.take_of_length_le hrest.le, List.drop_append_of_le_length (by omega)] at hzp
  have hsum : src.take n ++ src.drop n = src := List.take_append_drop n src
  refine ⟨zs, 1, ?_, by omega, fun _ => ⟨src.take n ++ byte '.' :: src.drop n, ?_, by simpa using hzp, ?_, ?_⟩⟩
  · have hlast : memcpy ys ((n : Int) + 1) ((src ++ [0]).drop n) 4 = some zs := by exact_mod_cast hzs
    rw [hxs, Option.bind_eq_bind, Option.bind_some, hys, Option.bind_some, hlast]
    rfl
  · intro hmem
    rcases List.mem_append.mp hmem with hmem | hmem
    · exact hsrc (List.mem_of_mem_take hmem)
    · rcases List.mem_cons.mp hmem with hmem | hmem
      · cases hmem
      · exact hsrc (List.mem_of_mem_drop hmem)
  · rw [instant_plain (by rwa [hsum]) hback, hsum]
  · exact Precise.of_point (fun hmem => h (List.mem_of_mem_take hmem)) hback.ge

/-- Nothing ends a text in a block without a zero. -/
theorem not_normalised_unterminated {code : Int} (hcode : 0 ≤ code) (hout : 0 ∉ out) :
    ¬ Normalised src dst (some (out, code)) := by
  intro hgood
  obtain ⟨text, -, hp, -⟩ := hgood.ends hcode
  exact hout (hp.subset (by simp))

theorem memcpy_nonzero {off count : Int} {n : Nat} (hsrc : 0 ∉ src) (hdst : 0 ∉ dst) (hcount : n + count.toNat ≤ src.length)
    (h : memcpy dst off ((src ++ [0]).drop n) count = some out) : 0 ∉ out := by
  intro hmem
  rcases memcpy_mem h hmem with hmem | hmem
  · exact hdst hmem
  · rw [List.drop_append_of_le_length (by omega), List.take_append_of_le_length (by rw [List.length_drop]; omega)] at hmem
    exact hsrc (List.mem_of_mem_drop (List.mem_of_mem_take hmem))

theorem nonzero_padded {n k : Nat} (hsrc : 0 ∉ src) : 0 ∉ src.take n ++ List.replicate k (byte '0') := by
  intro hmem
  rcases List.mem_append.mp hmem with hmem | hmem
  · exact hsrc (List.mem_of_mem_take hmem)
  · exact absurd (List.eq_of_mem_replicate hmem) (by decide)

/-- Of the fraction there is what a length of one to three says. -/
theorem fixup_padded_iff (h : byte '.' ∉ whole) (hlen : 10 ≤ whole.length) (hpos : 0 < asInt (frac.length + 1))
    (hfrac : asInt (frac.length + 1) < 4) (hroom : whole.length + 4 < size) (hsize : size < 2 ^ 31)
    (hdst : dst.length = size.toNat) (hsrc : 0 ∉ whole ++ byte '.' :: frac) :
    Normalised (whole ++ byte '.' :: frac) dst (fixupTimestamp (whole ++ byte '.' :: frac) dst size) ↔
      OnlyZerosLost (whole ++ byte '.' :: frac) (whole.length + (asInt (frac.length + 1)).toNat) := by
  obtain ⟨out, hout, holen, hop⟩ := fixup_padded h hlen hfrac hroom hsize hdst (by omega)
  obtain ⟨k, hk⟩ : ∃ k : Nat, asInt (frac.length + 1) = k + 1 := ⟨(asInt (frac.length + 1) - 1).toNat, by omega⟩
  have hkle : k ≤ frac.length := by
    by_cases hs : frac.length + 1 < 2 ^ 31
    · have := asInt_small hs
      omega
    · omega
  have hn : (whole.length + ((k : Int) + 1)).toNat = whole.length + (k + 1) := by omega
  have hz : (4 - ((k : Int) + 1)).toNat = 3 - k := by omega
  rw [hk, hn, hz, ← List.append_assoc] at hop
  have hnonzero := nonzero_padded (n := whole.length + (k + 1)) (k := 3 - k) hsrc
  have htake : (whole ++ byte '.' :: frac).take (whole.length + (k + 1)) = whole ++ byte '.' :: frac.take k := by
    rw [List.take_length_add_append, List.take_succ_cons]
  have hdrop : (whole ++ byte '.' :: frac).drop (whole.length + (k + 1)) = frac.drop k := by
    rw [List.drop_length_add_append, List.drop_succ_cons]
  have htext : (whole ++ byte '.' :: frac).take (whole.length + (k + 1)) ++ List.replicate (3 - k) (byte '0') =
      whole ++ byte '.' :: (frac.take k ++ List.replicate (3 - k) (byte '0')) := by
    rw [htake, List.append_assoc, List.cons_append]
  rw [htext] at hop hnonzero
  have hsame : instant (whole ++ byte '.' :: (frac.take k ++ List.replicate (3 - k) (byte '0'))) =
      instant (whole ++ byte '.' :: frac) ↔ OnlyZerosLost (whole ++ byte '.' :: frac) (whole.length + (k + 1)) := by
    have hcut := secondsOf_cut whole (frac.take k) (frac.drop k)
    rw [List.take_append_drop] at hcut
    rw [OnlyZerosLost, htake, hdrop, instant_point h, instant_point h, instant_point h, secondsOf_zeros]
    exact hcut
  rw [hk, show ((k : Int) + 1).toNat = k + 1 by omega, hout]
  constructor
  · intro hgood
    obtain ⟨text, htext, hp, hinstant, -⟩ := hgood.ends (by decide)
    rw [terminated_unique htext hnonzero hp hop] at hinstant
    exact hsame.mp hinstant
  · intro hlost
    refine ⟨out, 1, rfl, holen, fun _ => ⟨_, hnonzero, hop, hsame.mpr hlost, Precise.of_point h ?_⟩⟩
    rw [List.length_append, List.length_take, List.length_replicate]
    omega

/-- A length that is not positive leaves the point out. -/
theorem fixup_pointless (h : byte '.' ∉ whole) (hlen : 10 ≤ whole.length) (hneg : asInt (frac.length + 1) ≤ 0)
    (htotal : -2 ^ 31 ≤ asInt whole.length + asInt (frac.length + 1)) (hroom : whole.length + 4 < size)
    (hsize : size < 2 ^ 31) (hdst : dst.length = size.toNat) (hsrc : 0 ∉ whole ++ byte '.' :: frac) :
    ¬ Normalised (whole ++ byte '.' :: frac) dst (fixupTimestamp (whole ++ byte '.' :: frac) dst size) := by
  by_cases hkept : 0 ≤ whole.length + asInt (frac.length + 1)
  · obtain ⟨out, hout, holen, hop⟩ := fixup_padded h hlen (by omega) hroom hsize hdst hkept
    rw [← List.append_assoc] at hop
    rw [hout]
    intro hgood
    obtain ⟨text, htext, hp, -, front, back, rfl, -⟩ := hgood.ends (by decide)
    have heq' := terminated_unique htext (nonzero_padded hsrc) hp hop
    rw [List.take_append_of_le_length (by omega)] at heq'
    have hmem : byte '.' ∈ front ++ byte '.' :: back := by simp
    rw [heq'] at hmem
    rcases List.mem_append.mp hmem with hmem | hmem
    · exact h (List.mem_of_mem_take hmem)
    · exact absurd (List.eq_of_mem_replicate hmem) (by decide)
  · have hw : asInt whole.length = whole.length := asInt_small (by omega)
    rw [fixupTimestamp_point h hlen htotal (by omega)]
    dsimp only
    rw [if_neg (by omega), if_neg (by omega), hw, memcpy_neg (by omega)]
    exact not_normalised_none

/-- The copy of the text that fits is followed by one of all of it. -/
theorem fixup_overrun (h : byte '.' ∉ whole) (hlen : 10 ≤ whole.length)
    (htotal : -2 ^ 31 ≤ asInt whole.length + asInt (frac.length + 1))
    (htotal' : asInt whole.length + asInt (frac.length + 1) < 2 ^ 31) (hfrac : 4 ≤ asInt (frac.length + 1))
    (hroom : asInt whole.length + 4 < size) (hshort : size ≤ asInt whole.length + asInt (frac.length + 1))
    (hdst : dst.length = size.toNat) : fixupTimestamp (whole ++ byte '.' :: frac) dst size = none := by
  rw [fixupTimestamp_point h hlen htotal htotal']
  dsimp only
  rw [if_pos hfrac, if_pos hshort, if_neg (by omega)]
  cases hfirst : memcpy dst 0 (whole ++ byte '.' :: frac ++ [0]) (size - 1) with
  | none => rfl
  | some xs =>
    rw [Option.bind_eq_bind, Option.bind_some]
    have hxs := memcpy_length hfirst
    cases hsecond : assign xs (size - 1) 0 with
    | none => rfl
    | some ys =>
      have hys := put_length hsecond
      have hpos : 0 < size := by
        unfold assign put at hsecond
        split at hsecond
        next hfits => omega
        next => cases hsecond
      rw [Option.bind_some, memcpy_short (by omega)]
      rfl

/-- A text too long for an `int` is copied without its end. -/
theorem fixup_unterminated (h : byte '.' ∉ whole) (hlen : 10 ≤ whole.length)
    (htotal : -2 ^ 31 ≤ asInt whole.length + asInt (frac.length + 1))
    (htotal' : asInt whole.length + asInt (frac.length + 1) < 2 ^ 31) (hfrac : 4 ≤ asInt (frac.length + 1))
    (hroom : asInt whole.length + asInt (frac.length + 1) < size)
    (hlong : 2 ^ 31 ≤ (whole ++ byte '.' :: frac).length) (hsrc : 0 ∉ whole ++ byte '.' :: frac) (hdst : 0 ∉ dst) :
    ¬ Normalised (whole ++ byte '.' :: frac) dst (fixupTimestamp (whole ++ byte '.' :: frac) dst size) := by
  have hlength : (whole ++ byte '.' :: frac).length = whole.length + (frac.length + 1) := by simp
  have hless : asInt whole.length + asInt (frac.length + 1) + 1 ≤ (whole ++ byte '.' :: frac).length := by
    have hw := asInt_cases whole.length
    have hf := asInt_cases (frac.length + 1)
    omega
  rw [fixupTimestamp_point h hlen htotal htotal']
  dsimp only
  rw [if_pos hfrac, if_neg (by omega)]
  cases hcopy : memcpy dst 0 (whole ++ byte '.' :: frac ++ [0]) (asInt whole.length + asInt (frac.length + 1) + 1) with
  | none => exact not_normalised_none
  | some out => exact not_normalised_unterminated (by decide) (memcpy_nonzero (n := 0) hsrc hdst (by omega) hcopy)

theorem fixup_plain_unterminated (h : byte '.' ∉ src) (hlen : 13 ≤ asInt src.length)
    (htotal : asInt src.length + 1 < 2 ^ 31) (hroom : asInt src.length + 1 < size) (hlong : 2 ^ 31 ≤ src.length)
    (hsrc : 0 ∉ src) (hdst : 0 ∉ dst) : ¬ Normalised src dst (fixupTimestamp src dst size) := by
  have hless := asInt_large hlong
  rw [fixupTimestamp_plain h hlen htotal hroom]
  cases hfirst : memcpy dst 0 (src ++ [0]) (asInt src.length - 3) with
  | none => exact not_normalised_none
  | some xs =>
    have hxs : 0 ∉ xs := memcpy_nonzero (n := 0) hsrc hdst (by omega) hfirst
    rw [Option.bind_eq_bind, Option.bind_some]
    cases hsecond : assign xs (asInt src.length - 3) (byte '.') with
    | none => exact not_normalised_none
    | some ys =>
      have hys : 0 ∉ ys := fun hmem => (assign_mem hsecond hmem).elim hxs fun heq => absurd heq (by decide)
      rw [Option.bind_some]
      cases hthird : memcpy ys (asInt src.length - 3 + 1) ((src ++ [0]).drop (asInt src.length - 3).toNat) 4 with
      | none => exact not_normalised_none
      | some zs => exact not_normalised_unterminated (by decide) (memcpy_nonzero hsrc hys (by omega) hthird)

theorem fixup_none (h : byte '.' ∉ whole) (hlen : 10 ≤ whole.length)
    (htotal : ¬ (-2 ^ 31 ≤ asInt whole.length + asInt (frac.length + 1) ∧
      asInt whole.length + asInt (frac.length + 1) < 2 ^ 31)) :
    fixupTimestamp (whole ++ byte '.' :: frac) dst size = none := by
  have hsuffix : (whole ++ byte '.' :: frac).length - whole.length = frac.length + 1 := by simp
  have hadd : addInt (asInt whole.length) (asInt (frac.length + 1)) = none := if_neg htotal
  rw [fixupTimestamp, if_pos (by simp), takeWhile_stop h]
  dsimp only
  rw [if_neg (by omega), hsuffix, hadd]
  rfl

/-- A block with nothing in it that ends a text. -/
theorem full_block (size : Int) : (List.replicate size.toNat (1 : Byte)).length = size.toNat ∧
    0 ∉ List.replicate size.toNat (1 : Byte) :=
  ⟨List.length_replicate, fun hmem => absurd (List.eq_of_mem_replicate hmem) (by decide)⟩

theorem point_normalised (h : byte '.' ∉ whole) (hlen : 10 ≤ whole.length) (hsize : size < 2 ^ 31)
    (hsrc : 0 ∉ whole ++ byte '.' :: frac) :
    (∀ dst, dst.length = size.toNat →
      Normalised (whole ++ byte '.' :: frac) dst (fixupTimestamp (whole ++ byte '.' :: frac) dst size)) ↔
    (-2 ^ 31 ≤ asInt whole.length + asInt (frac.length + 1) ∧
      asInt whole.length + asInt (frac.length + 1) < 2 ^ 31) ∧
    if 4 ≤ asInt (frac.length + 1) then
      if size ≤ asInt whole.length + asInt (frac.length + 1) then size ≤ asInt whole.length + 4
      else (whole ++ byte '.' :: frac).length < 2 ^ 31
    else size ≤ whole.length + 4 ∨ (whole ++ byte '.' :: frac).length < whole.length + 4 ∨
      0 < asInt (frac.length + 1) ∧
        OnlyZerosLost (whole ++ byte '.' :: frac) (whole.length + (asInt (frac.length + 1)).toNat) := by
  obtain ⟨hfull, hzero⟩ := full_block size
  have hlength : (whole ++ byte '.' :: frac).length = whole.length + (frac.length + 1) := by simp
  by_cases htotal : -2 ^ 31 ≤ asInt whole.length + asInt (frac.length + 1) ∧
      asInt whole.length + asInt (frac.length + 1) < 2 ^ 31
  case neg =>
    refine iff_of_false (fun hall => ?_) (fun hgood => htotal hgood.1)
    exact not_normalised_none (fixup_none h hlen htotal ▸ hall _ hfull)
  rw [and_iff_right htotal]
  obtain ⟨hlow, hhigh⟩ := htotal
  split
  next hfrac =>
    split
    next hshort =>
      by_cases hroom : size ≤ asInt whole.length + 4
      · refine iff_of_true (fun dst _ => ?_) hroom
        rw [fixupTimestamp_point h hlen hlow hhigh]
        dsimp only
        rw [if_pos hfrac, if_pos hshort, if_pos hroom]
        exact refused _ _
      · refine iff_of_false (fun hall => ?_) hroom
        have hnone := fixup_overrun h hlen hlow hhigh hfrac (by omega) hshort hfull
        exact not_normalised_none (hnone ▸ hall _ hfull)
    next hfits =>
      by_cases hint : (whole ++ byte '.' :: frac).length < 2 ^ 31
      · refine iff_of_true (fun dst hdst => ?_) hint
        have hw : asInt whole.length = whole.length := asInt_small (by omega)
        have hf : asInt (frac.length + 1) = (frac.length + 1 : Nat) := asInt_small (by omega)
        exact fixup_copied h hlen (by omega) hint hdst (by omega) hsrc
      · refine iff_of_false (fun hall => ?_) hint
        exact fixup_unterminated h hlen hlow hhigh hfrac (by omega) (by omega) hsrc hzero (hall _ hfull)
  next hfrac =>
    by_cases hroom : size ≤ whole.length + 4
    · refine iff_of_true (fun dst _ => ?_) (.inl hroom)
      rw [fixupTimestamp_point h hlen hlow hhigh]
      dsimp only
      rw [if_neg hfrac, if_pos hroom]
      exact refused _ _
    by_cases hpos : 0 < asInt (frac.length + 1)
    · have hiff := fun dst hdst => @fixup_padded_iff whole frac dst size h hlen hpos (by omega) (by omega) hsize hdst hsrc
      constructor
      · exact fun hall => .inr (.inr ⟨hpos, (hiff _ hfull).mp (hall _ hfull)⟩)
      · rintro (hle | hle | hlost) dst hdst
        · exact absurd hle hroom
        · refine (hiff dst hdst).mpr (.inr fun c hc => ?_)
          have hf : asInt (frac.length + 1) = (frac.length + 1 : Nat) := asInt_small (by omega)
          rw [hf, Int.toNat_natCast, ← hlength, List.drop_length] at hc
          cases hc
        · exact (hiff dst hdst).mpr hlost.2
    · refine iff_of_false (fun hall => ?_) ?_
      · exact fixup_pointless h hlen (by omega) hlow (by omega) hsize hfull hsrc (hall _ hfull)
      · rintro (hle | hle | hlost)
        · exact hroom hle
        · have hf : asInt (frac.length + 1) = (frac.length + 1 : Nat) := asInt_small (by omega)
          omega
        · exact hpos hlost.1

/-- A timestamp is refused or rewritten to the same instant when the code can handle its lengths. -/
theorem timestamp_normalised (src : Text) (size : Int) (hsrc : 0 ∉ src) (hsize : -2 ^ 31 ≤ size ∧ size < 2 ^ 31) :
    (∀ dst, dst.length = size.toNat → Normalised src dst (fixupTimestamp src dst size)) ↔ Fixable src size := by
  obtain ⟨hfull, hzero⟩ := full_block size
  by_cases hpoint : byte '.' ∈ src
  · obtain ⟨whole, frac, rfl, h⟩ := point_split hpoint
    have hsuffix : (whole ++ byte '.' :: frac).length - whole.length = frac.length + 1 := by simp
    rw [Fixable, if_pos hpoint, takeWhile_stop h]
    dsimp only
    rw [hsuffix]
    by_cases hlen : whole.length < 10
    · refine iff_of_true (fun dst _ => ?_) (.inl hlen)
      rw [fixupTimestamp, if_pos hpoint, takeWhile_stop h]
      dsimp only
      rw [if_pos hlen]
      exact refused _ _
    · rw [point_normalised h (by omega) hsize.2 hsrc, or_iff_right hlen]
  · rw [Fixable, if_neg hpoint]
    dsimp only
    by_cases hlen : asInt src.length < 13
    · refine iff_of_true (fun dst _ => ?_) (.inl hlen)
      rw [fixupTimestamp, if_neg hpoint]
      dsimp only
      rw [if_pos hlen]
      exact refused _ _
    rw [or_iff_right hlen]
    by_cases htotal : asInt src.length + 1 < 2 ^ 31
    case neg =>
      refine iff_of_false (fun hall => ?_) (fun hgood => htotal hgood.1)
      have hadd : addInt (asInt src.length) 1 = none := if_neg fun hgood => htotal hgood.2
      have hnone : fixupTimestamp src (List.replicate size.toNat 1) size = none := by
        rw [fixupTimestamp, if_neg hpoint]
        dsimp only
        rw [if_neg hlen, hadd]
        rfl
      exact not_normalised_none (hnone ▸ hall _ hfull)
    rw [and_iff_right htotal]
    by_cases hroom : size ≤ asInt src.length + 1
    · refine iff_of_true (fun dst _ => ?_) (.inl hroom)
      have hadd : addInt (asInt src.length) 1 = some (asInt src.length + 1) := addInt_some (by omega) htotal
      rw [fixupTimestamp, if_neg hpoint]
      dsimp only
      rw [if_neg hlen, hadd, Option.bind_eq_bind, Option.bind_some, if_pos hroom]
      exact refused _ _
    rw [or_iff_right hroom]
    by_cases hint : src.length < 2 ^ 31
    · refine iff_of_true (fun dst hdst => ?_) hint
      have hasInt := asInt_small hint
      exact fixup_pointed hpoint (by omega) (by omega) hdst (by omega) hsrc
    · refine iff_of_false (fun hall => ?_) hint
      exact fixup_plain_unterminated hpoint (by omega) htotal (by omega) (by omega) hsrc hzero (hall _ hfull)

end

theorem timestamp_normalised_old : Normalised (textOf "1234567890123") (List.replicate 20 0)
    (fixupTimestamp (textOf "1234567890123") (List.replicate 20 0) 20) := by
  have hfixable : Fixable (textOf "1234567890123") 20 := by
    rw [Fixable, if_neg (by decide)]
    dsimp only
    rw [asInt_small (by decide)]
    exact .inr ⟨by decide, .inr (by decide)⟩
  exact (timestamp_normalised (textOf "1234567890123") 20 (by decide) (by decide)).mpr hfixable _ rfl

/-- Nanoseconds leave no room for the end of the text in the twenty bytes of the only caller. -/
theorem nanoseconds_overrun :
    fixupTimestamp (textOf "1234567890.123456789") (List.replicate 20 0) 20 = none ∧
      ¬ ∀ dst, dst.length = (20 : Int).toNat →
        Normalised (textOf "1234567890.123456789") dst (fixupTimestamp (textOf "1234567890.123456789") dst 20) := by
  have hnone : fixupTimestamp (textOf "1234567890.123456789") (List.replicate 20 0) 20 = none := by decide
  exact ⟨hnone, fun hall => not_normalised_none (hnone ▸ hall (List.replicate 20 0) rfl)⟩

end Katcp
