import Katcp.TimeText
import Mathlib.Data.List.TakeWhile

namespace Katcp

/-- `string_to_tv_katcp` with the place it writes to; without a string there is a null pointer. -/
def stringToTvKatcp (tv : Timeval) (string : Option Text) : Timeval × Int :=
  match string with
  | none => (tv, -1)
  | some string =>
    let (sec, rest) := strtoul string
    if endsNumber rest then
      if rest.length = string.length then (tv, -1)
      else
        let tv := { tv with tvSec := signedLong sec }
        ({ tv with tvUsec := 0 }, 0)
    else
      match rest with
      | [] => (tv, -1)
      | c :: ptr =>
        if c ≠ byte '.' then (tv, -1)
        else
          let (v, rest) := strtoul ptr
          let digits := ptr.length - rest.length
          if ¬ endsNumber rest then (tv, -1)
          else if digits = 0 then (tv, -1)
          else if digits > 10 then (tv, -1)
          else
            let tv := { tv with tvSec := signedLong sec }
            ({ tv with tvUsec := signedLong (toMicro digits v) }, 0)

/-- A number of seconds as a text has it: digits, and more of them where there is a point. -/
structure Seconds where
  whole : Text
  fraction : Option Text
  wholeDigits : ∀ c ∈ whole, isDigit c = true
  fractionDigits : ∀ f, fraction = some f → f ≠ [] ∧ ∀ c ∈ f, isDigit c = true
  given : whole ≠ [] ∨ fraction ≠ none

namespace Seconds

def text (x : Seconds) : Text :=
  match x.fraction with
  | none => x.whole
  | some f => x.whole ++ byte '.' :: f

def decimals (x : Seconds) : Text := x.fraction.getD []

/-- The microseconds that the number denotes, where what is less than one is cut off. -/
def micros (x : Seconds) : Nat := digitsValue (x.whole ++ x.decimals) * 10 ^ 6 / 10 ^ x.decimals.length

end Seconds

/-- The text begins with no blank and with no sign, which `strtoul` would take. -/
def StartsPlain (s : Text) : Prop := ¬ s.head?.any fun c => isSpace c || c = byte '-' || c = byte '+'

/-- The two numbers of the text have no sign and no blanks before them, and a `time_t` holds the first. -/
structure PlainSeconds (s : Text) : Prop where
  whole : StartsPlain s
  fraction : ∀ w f, s = w ++ byte '.' :: f → (∀ c ∈ w, isDigit c = true) → StartsPlain f
  small : digitsValue (s.takeWhile isDigit) < 2 ^ 63

section

variable {tv out : Timeval} {string : Option Text} {s rest f : Text} {r : Int} {v k : Nat} {x : Seconds}

theorem stringToTvKatcp_eq :
    stringToTvKatcp tv string = match string.bind stringToTv with
      | none => (tv, -1)
      | some read => (read, 0) := by
  cases string with
  | none => rfl
  | some s =>
    rcases hp : strtoul s with ⟨sec, rest⟩
    rw [Option.bind_some]
    simp only [stringToTvKatcp, stringToTv, hp]
    split
    next =>
      split
      next => rfl
      next => rfl
    next =>
      cases rest with
      | nil => rfl
      | cons c ptr =>
        dsimp only
        split
        next => rfl
        next =>
          split
          next => rfl
          next =>
            split
            next => rfl
            next =>
              split
              next => rfl
              next => rfl

theorem digitsValue_append (a b : Text) : digitsValue (a ++ b) = digitsValue a * 10 ^ b.length + digitsValue b := by
  have hfold : ∀ v, b.foldl (fun v c => v * 10 + (c.toNat - 48)) v = v * 10 ^ b.length + digitsValue b := by
    induction b with
    | nil => intro v; simp [digitsValue]
    | cons c b ih =>
      intro v
      have hc : digitsValue (c :: b) = (0 * 10 + (c.toNat - 48)) * 10 ^ b.length + digitsValue b := ih _
      rw [List.foldl_cons, ih, hc, List.length_cons, Nat.pow_succ', Nat.zero_mul, Nat.zero_add, Nat.add_mul,
        Nat.mul_assoc, Nat.add_assoc]
  rw [digitsValue, List.foldl_append, hfold]
  rfl

theorem startsPlain_cons {c : Byte} : StartsPlain (c :: s) ↔ isSpace c = false ∧ c ≠ byte '-' ∧ c ≠ byte '+' := by
  simp [StartsPlain, and_assoc]

/-- Where no blank and no sign is before it, the number is the digits that the text begins with. -/
theorem strtoul_plain (h : StartsPlain s) :
    strtoul s = (unsignedLong false (s.takeWhile isDigit), s.dropWhile isDigit) := by
  cases hd : s.takeWhile isDigit with
  | nil =>
    have hdrop : s.dropWhile isDigit = s := by
      have hs := List.takeWhile_append_dropWhile (p := isDigit) (l := s)
      rwa [hd, List.nil_append] at hs
    rw [hdrop]
    cases s with
    | nil => rfl
    | cons c s =>
      obtain ⟨hspace, hminus, hplus⟩ := startsPlain_cons.mp h
      unfold strtoul
      rw [List.dropWhile_cons, hspace]
      dsimp only [Bool.false_eq_true, if_false]
      rw [if_neg Bool.false_ne_true]
      dsimp only
      rw [if_neg hminus, if_neg hplus]
      dsimp only
      rw [hd]
      rfl
  | cons d ds =>
    have hs : (d :: ds) ++ s.dropWhile isDigit = s := by
      rw [← hd]
      exact List.takeWhile_append_dropWhile
    have hall : ∀ c ∈ d :: ds, isDigit c = true := by
      intro c hc
      rw [← hd] at hc
      exact List.mem_takeWhile_imp hc
    have hstop : ¬ (s.dropWhile isDigit).head?.any isDigit := by
      cases hr : s.dropWhile isDigit with
      | nil => simp
      | cons c rest =>
        have hc : isDigit c = false := by simpa [hr] using List.head?_dropWhile_not isDigit s
        simp [hc]
    have hread := strtoul_digits hall (List.cons_ne_nil d ds) hstop
    rwa [hs] at hread

theorem div_iterate (k v : Nat) : (· / 10)^[k] v = v / 10 ^ k := by
  induction k generalizing v with
  | zero => simp
  | succ k ih => rw [Function.iterate_succ_apply, ih, Nat.div_div_eq_div_mul, Nat.pow_succ']

theorem mul_iterate (h : v * 10 ^ k < 2 ^ 64) : (fun v => v * 10 % 2 ^ 64)^[k] v = v * 10 ^ k := by
  induction k generalizing v with
  | zero => simp
  | succ k ih =>
    rw [Nat.pow_succ', ← Nat.mul_assoc] at h
    have hone : v * 10 * 1 ≤ v * 10 * 10 ^ k := Nat.mul_le_mul_left _ (Nat.pow_pos (by omega))
    rw [Function.iterate_succ_apply, Nat.mod_eq_of_lt (by omega), ih h, Nat.pow_succ', Nat.mul_assoc]

theorem toMicro_eq (hf : ∀ c ∈ f, isDigit c = true) :
    toMicro f.length (digitsValue f) = digitsValue f * 10 ^ 6 / 10 ^ f.length := by
  have hv := digitsValue_lt hf
  unfold toMicro
  dsimp only
  rw [div_iterate]
  rcases Nat.le_total 6 f.length with hlong | hshort
  · rw [show 6 - f.length = 0 by omega, Function.iterate_zero, id,
      ← Nat.mul_div_mul_right _ _ (show 0 < 10 ^ 6 by omega), ← Nat.pow_add, Nat.sub_add_cancel hlong]
  · have hpow : 10 ^ f.length * 10 ^ (6 - f.length) = 10 ^ 6 := by
      rw [← Nat.pow_add, Nat.add_sub_cancel' hshort]
    have hfits : digitsValue f * 10 ^ (6 - f.length) < 10 ^ 6 := by
      rw [← hpow]
      exact Nat.mul_lt_mul_of_pos_right hv (Nat.pow_pos (by omega))
    rw [show f.length - 6 = 0 by omega, Nat.pow_zero, Nat.div_one, mul_iterate (by omega), ← hpow,
      Nat.mul_comm (10 ^ f.length), ← Nat.mul_assoc, Nat.mul_div_cancel _ (Nat.pow_pos (by omega))]

theorem fraction_lt (hf : ∀ c ∈ f, isDigit c = true) : digitsValue f * 10 ^ 6 / 10 ^ f.length < 10 ^ 6 := by
  have hv := digitsValue_lt hf
  exact Nat.div_lt_of_lt_mul (Nat.mul_lt_mul_of_pos_right hv (by omega))

theorem startsPlain_of_digit {c : Byte} (h : isDigit c = true) : StartsPlain (c :: s) := by
  refine startsPlain_cons.mpr ⟨isSpace_of_digit h, ?_, ?_⟩
  · rintro rfl
    cases h
  · rintro rfl
    cases h

theorem endsNumber_head (h : endsNumber rest = true) :
    ¬ rest.head?.any isDigit ∧ ∀ ptr, rest ≠ byte '.' :: ptr := by
  cases rest with
  | nil => simp
  | cons c rest =>
    simp only [endsNumber, Bool.or_eq_true, decide_eq_true_eq] at h
    have hc : isDigit c = false ∧ c ≠ byte '.' := by
      rcases h with ((rfl | rfl) | rfl) | rfl
      · decide
      · decide
      · decide
      · decide
    exact ⟨by simp [hc.1], fun ptr he => hc.2 (List.cons.inj he).1⟩

theorem point_ends_not (s : Text) : ¬ endsNumber (byte '.' :: s) = true := by
  simp only [endsNumber]
  decide

theorem unsignedLong_time (h : digitsValue f < 2 ^ 63) : signedLong (unsignedLong false f) = digitsValue f := by
  rw [unsignedLong_digits (by omega), signedLong, if_pos h]

theorem Seconds.micros_eq : x.micros = digitsValue x.whole * 10 ^ 6 +
    digitsValue x.decimals * 10 ^ 6 / 10 ^ x.decimals.length := by
  rw [Seconds.micros, digitsValue_append, Nat.add_mul, Nat.mul_right_comm, Nat.mul_comm _ (10 ^ _), Nat.add_comm,
    Nat.add_mul_div_left _ _ (Nat.pow_pos (by omega)), Nat.add_comm]

/-- A number in the form that the code takes is read as what it denotes. -/
theorem stringToTv_text (hsmall : digitsValue x.whole < 2 ^ 63) (hlength : x.decimals.length ≤ 10)
    (hrest : endsNumber rest = true) : stringToTv (x.text ++ rest) = some ⟨digitsValue x.whole,
      ((digitsValue x.decimals * 10 ^ 6 / 10 ^ x.decimals.length : Nat) : Int)⟩ := by
  obtain ⟨hdigit, hpoint⟩ := endsNumber_head hrest
  cases hf : x.fraction with
  | none =>
    have hne : x.whole ≠ [] := x.given.resolve_right (fun h => h hf)
    have hread := strtoul_digits x.wholeDigits hne hdigit
    have hlt : rest.length ≠ (x.whole ++ rest).length := by
      have := List.length_pos_iff.mpr hne
      rw [List.length_append]
      omega
    simp only [Seconds.text, Seconds.decimals, hf, stringToTv, hread, hrest, if_true, if_neg hlt,
      unsignedLong_time hsmall, Option.getD_none]
    rfl
  | some f =>
    obtain ⟨hne, hdigits⟩ := x.fractionDigits f hf
    have hdecimals : x.decimals = f := by simp [Seconds.decimals, hf]
    rw [hdecimals] at hlength ⊢
    have htext : x.text ++ rest = x.whole ++ byte '.' :: (f ++ rest) := by simp [Seconds.text, hf]
    have hplain : StartsPlain (x.whole ++ byte '.' :: (f ++ rest)) := by
      cases hw : x.whole with
      | nil => exact startsPlain_cons.mpr ⟨by decide, by decide, by decide⟩
      | cons c w => exact startsPlain_of_digit (x.wholeDigits c (by rw [hw]; exact List.mem_cons_self))
    obtain ⟨htake, hdrop⟩ := @span_digits x.whole (byte '.' :: (f ++ rest)) x.wholeDigits (by simp; decide)
    have hfraction := strtoul_digits hdigits hne hdigit
    have hcount : (f ++ rest).length - rest.length = f.length := by simp
    have hpos := List.length_pos_iff.mpr hne
    have hv := digitsValue_lt hdigits
    have hten : 10 ^ f.length ≤ 10 ^ 10 := Nat.pow_le_pow_right (by omega) hlength
    have husec := fraction_lt hdigits
    rw [htext]
    simp only [stringToTv, strtoul_plain hplain, htake, hdrop, hfraction, hcount, hrest]
    rw [if_neg (point_ends_not _), if_neg (by simp), if_neg (by simp), if_neg (by omega), if_neg (by omega),
      unsignedLong_time hsmall, unsignedLong_digits (by omega), toMicro_eq hdigits, signedLong, if_pos (by omega)]

/-- What is read where no blank and no sign is before a number has the form of a number. -/
theorem stringToTv_some (h : PlainSeconds s) (hr : stringToTv s = some out) :
    ∃ (x : Seconds) (rest : Text), s = x.text ++ rest ∧ endsNumber rest = true ∧ x.decimals.length ≤ 10 := by
  have hs := List.takeWhile_append_dropWhile (p := isDigit) (l := s)
  have hwhole : ∀ c ∈ s.takeWhile isDigit, isDigit c = true := fun c hc => List.mem_takeWhile_imp hc
  simp only [stringToTv, strtoul_plain h.whole] at hr
  split at hr
  next hend =>
    split at hr
    next => cases hr
    next hne =>
      have hgiven : s.takeWhile isDigit ≠ [] := by
        intro hnil
        rw [hnil, List.nil_append] at hs
        exact hne (by rw [hs])
      exact ⟨⟨s.takeWhile isDigit, none, hwhole, fun f hf => by (cases hf), Or.inl hgiven⟩, _, hs.symm, hend,
        by simp [Seconds.decimals]⟩
  next =>
    split at hr
    next => cases hr
    next c ptr hrest =>
      split at hr
      next => cases hr
      next hc =>
        have hc : c = byte '.' := not_not.mp hc
        rw [hrest, hc] at hs
        have hplain := h.fraction _ ptr hs.symm hwhole
        have hp := List.takeWhile_append_dropWhile (p := isDigit) (l := ptr)
        rw [strtoul_plain hplain] at hr
        dsimp only at hr
        have hcount : ptr.length - (ptr.dropWhile isDigit).length = (ptr.takeWhile isDigit).length := by
          have := congrArg List.length hp
          rw [List.length_append] at this
          omega
        rw [hcount] at hr
        split at hr
        next => cases hr
        next hend =>
          split at hr
          next => cases hr
          next hne =>
            split at hr
            next => cases hr
            next hten =>
              refine ⟨⟨s.takeWhile isDigit, some (ptr.takeWhile isDigit), hwhole, ?_, Or.inr (by simp)⟩,
                ptr.dropWhile isDigit, ?_, not_not.mp hend, Nat.le_of_not_gt hten⟩
              · rintro f ⟨⟩
                exact ⟨fun hnil => hne (by rw [hnil]; rfl), fun c hc => List.mem_takeWhile_imp hc⟩
              · rw [Seconds.text]
                dsimp only
                rw [List.append_assoc, List.cons_append, hp, hs]

/-- What a number leaves of a text for `strtoul` to stop at. -/
theorem Seconds.text_span (x : Seconds) (hrest : endsNumber rest = true) :
    (x.text ++ rest).takeWhile isDigit = x.whole ∧ (x.text ++ rest).dropWhile isDigit =
      match x.fraction with
      | none => rest
      | some f => byte '.' :: (f ++ rest) := by
  cases hf : x.fraction with
  | none =>
    rw [Seconds.text, hf]
    exact span_digits x.wholeDigits (endsNumber_head hrest).1
  | some f =>
    have htext : x.text ++ rest = x.whole ++ byte '.' :: (f ++ rest) := by simp [Seconds.text, hf]
    rw [htext]
    exact span_digits x.wholeDigits (by simp; decide)

/-- A text has one reading. -/
theorem Seconds.text_inj {y : Seconds} {more : Text} (h : x.text ++ rest = y.text ++ more)
    (hrest : endsNumber rest = true) (hmore : endsNumber more = true) :
    x.whole = y.whole ∧ x.fraction = y.fraction := by
  obtain ⟨hwx, hfx⟩ := x.text_span hrest
  obtain ⟨hwy, hfy⟩ := y.text_span hmore
  rw [h] at hwx hfx
  refine ⟨hwx.symm.trans hwy, ?_⟩
  have htail := hfx.symm.trans hfy
  cases hx : x.fraction with
  | none =>
    cases hy : y.fraction with
    | none => rfl
    | some g =>
      rw [hx, hy] at htail
      exact absurd htail ((endsNumber_head hrest).2 _)
  | some f =>
    cases hy : y.fraction with
    | none =>
      rw [hx, hy] at htail
      exact absurd htail.symm ((endsNumber_head hmore).2 _)
    | some g =>
      rw [hx, hy] at htail
      have hfirst := (span_digits (x.fractionDigits f hx).2 (endsNumber_head hrest).1).1
      have hsecond := (span_digits (y.fractionDigits g hy).2 (endsNumber_head hmore).1).1
      rw [(List.cons.inj htail).2, hsecond] at hfirst
      rw [hfirst]

/-- A call that fails leaves the time alone. One that succeeds has read a number of at most ten
decimals, to the end of the text or to a blank, and the time is what it denotes in microseconds. -/
theorem string_to_tv_reads (tv : Timeval) (string : Option Text) :
    ((stringToTvKatcp tv string).2 ≠ 0 → (stringToTvKatcp tv string).1 = tv) ∧
    ∀ s, string = some s → PlainSeconds s →
      ((stringToTvKatcp tv string).2 = 0 ↔
        ∃ (x : Seconds) (rest : Text), s = x.text ++ rest ∧ endsNumber rest = true ∧ x.decimals.length ≤ 10) ∧
      ∀ (x : Seconds) (rest : Text), s = x.text ++ rest → endsNumber rest = true →
        (stringToTvKatcp tv string).2 = 0 →
        0 ≤ (stringToTvKatcp tv string).1.tvUsec ∧ (stringToTvKatcp tv string).1.tvUsec < 1000000 ∧
          (stringToTvKatcp tv string).1.tvSec * 1000000 + (stringToTvKatcp tv string).1.tvUsec = x.micros := by
  rw [stringToTvKatcp_eq]
  refine ⟨fun hfail => ?_, fun s hs hplain => ?_⟩
  · cases hread : string.bind stringToTv with
    | none => rfl
    | some read =>
      rw [hread] at hfail
      exact absurd rfl hfail
  · subst hs
    rw [Option.bind_some]
    have hreads : ∀ (x : Seconds) (rest : Text), s = x.text ++ rest → endsNumber rest = true →
        x.decimals.length ≤ 10 → stringToTv s = some ⟨digitsValue x.whole,
          ((digitsValue x.decimals * 10 ^ 6 / 10 ^ x.decimals.length : Nat) : Int)⟩ := by
      intro x rest hs hrest hlength
      have hsmall := hplain.small
      rw [hs, (x.text_span hrest).1] at hsmall
      rw [hs]
      exact stringToTv_text hsmall hlength hrest
    cases hread : stringToTv s with
    | none =>
      have hfail : (-1 : Int) ≠ 0 := by decide
      refine ⟨⟨fun h => absurd h hfail, fun ⟨x, rest, hs, hrest, hlength⟩ => ?_⟩,
        fun x rest _ _ h => absurd h hfail⟩
      rw [hreads x rest hs hrest hlength] at hread
      cases hread
    | some out =>
      obtain ⟨y, more, hy, hmore, hlength⟩ := stringToTv_some hplain hread
      refine ⟨⟨fun _ => ⟨y, more, hy, hmore, hlength⟩, fun _ => rfl⟩, fun x rest hs hrest _ => ?_⟩
      obtain ⟨hwhole, hfraction⟩ := Seconds.text_inj (hy.symm.trans hs) hmore hrest
      have hdecimals : y.decimals = x.decimals := by rw [Seconds.decimals, hfraction, Seconds.decimals]
      rw [hreads x rest hs hrest (hdecimals ▸ hlength)] at hread
      cases hread
      have hdigits : ∀ c ∈ x.decimals, isDigit c = true := by
        cases hf : x.fraction with
        | none => simp [Seconds.decimals, hf]
        | some f => simpa [Seconds.decimals, hf] using (x.fractionDigits f hf).2
      have hlt := fraction_lt hdigits
      rw [x.micros_eq]
      generalize digitsValue x.decimals * 10 ^ 6 / 10 ^ x.decimals.length = usec at hlt ⊢
      dsimp only
      omega

theorem plainSeconds_text (hsmall : digitsValue x.whole < 2 ^ 63) (hrest : endsNumber rest = true) :
    PlainSeconds (x.text ++ rest) := by
  obtain ⟨htake, hdrop⟩ := x.text_span hrest
  have hs := List.takeWhile_append_dropWhile (p := isDigit) (l := x.text ++ rest)
  have hwhole : StartsPlain (x.text ++ rest) := by
    rw [← hs, htake, hdrop]
    cases hw : x.whole with
    | cons c w => exact startsPlain_of_digit (x.wholeDigits c (by rw [hw]; exact List.mem_cons_self))
    | nil =>
      cases hf : x.fraction with
      | none => exact absurd hf (x.given.resolve_left (fun h => h hw))
      | some f => exact startsPlain_cons.mpr ⟨by decide, by decide, by decide⟩
  refine ⟨hwhole, fun w f hw hdigits => ?_, htake ▸ hsmall⟩
  have hpoint := (@span_digits w (byte '.' :: f) hdigits (by simp; decide)).2
  rw [← hw, hdrop] at hpoint
  cases hf : x.fraction with
  | none =>
    rw [hf] at hpoint
    exact absurd hpoint ((endsNumber_head hrest).2 f)
  | some g =>
    rw [hf] at hpoint
    rw [← (List.cons.inj hpoint).2]
    obtain ⟨hne, hall⟩ := x.fractionDigits g hf
    obtain ⟨c, g, rfl⟩ := List.exists_cons_of_ne_nil hne
    exact startsPlain_of_digit (hall c List.mem_cons_self)

def quarterPast : Seconds where
  whole := textOf "2"
  fraction := some (textOf "25")
  wholeDigits := List.all_eq_true.mp (by decide : (textOf "2").all isDigit = true)
  fractionDigits := by
    rintro f ⟨⟩
    exact ⟨by decide, List.all_eq_true.mp (by decide : (textOf "25").all isDigit = true)⟩
  given := Or.inl (by decide)

/-- Two seconds and a quarter, with something after a blank. -/
theorem string_to_tv_reads_quarter :
    (stringToTvKatcp .zero (some (textOf "2.25 spare"))).2 = 0 ∧
      (stringToTvKatcp .zero (some (textOf "2.25 spare"))).1.tvSec * 1000000 +
        (stringToTvKatcp .zero (some (textOf "2.25 spare"))).1.tvUsec = 2250000 := by
  have hplain : PlainSeconds (quarterPast.text ++ textOf " spare") := plainSeconds_text (by decide) rfl
  obtain ⟨hiff, hvalue⟩ := (string_to_tv_reads .zero (some (textOf "2.25 spare"))).2 _ rfl hplain
  have hread := hiff.mpr ⟨quarterPast, textOf " spare", rfl, rfl, by decide⟩
  exact ⟨hread, (hvalue quarterPast (textOf " spare") rfl rfl hread).2.2.trans (by decide)⟩

theorem Seconds.text_chars (x : Seconds) {c : Byte} (h : c ∈ x.text) : isDigit c = true ∨ c = byte '.' := by
  rw [Seconds.text] at h
  split at h
  next => exact Or.inl (x.wholeDigits c h)
  next f hf =>
    rcases List.mem_append.mp h with h | h
    · exact Or.inl (x.wholeDigits c h)
    · rcases List.mem_cons.mp h with h | h
      · exact Or.inr h
      · exact Or.inl ((x.fractionDigits f hf).2 c h)

/-- It is not only numbers that are read: what follows a blank is ignored. -/
theorem string_to_tv_ignores : ¬ ∀ (tv : Timeval) (s : Text), (stringToTvKatcp tv (some s)).2 = 0 →
    ∃ x : Seconds, x.text = s := by
  intro h
  obtain ⟨x, hx⟩ := h .zero (textOf "2.25 spare") (by decide)
  have hblank : byte ' ' ∈ x.text := by
    rw [hx]
    decide
  exact absurd (x.text_chars hblank) (by decide)

end

end Katcp
