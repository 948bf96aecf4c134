import Katcp.TimerTime

namespace Katcp

/-- The values of a `time_t`, and of a `suseconds_t`. -/
def FitsTime (n : Int) : Prop := -2 ^ 63 ≤ n ∧ n < 2 ^ 63

instance (n : Int) : Decidable (FitsTime n) := inferInstanceAs (Decidable (_ ∧ _))

/-- What an operation on two signed numbers gives, none where it overflows. -/
def signed (n : Int) : Option Int := if FitsTime n then some n else none

/-- The timevals that the pointers of a caller point to. -/
abbrev Timevals := Nat → Timeval

namespace Timevals

def setSec (m : Timevals) (p : Nat) (n : Int) : Timevals :=
  fun q => if q = p then { m q with tvSec := n } else m q

def setUsec (m : Timevals) (p : Nat) (n : Int) : Timevals :=
  fun q => if q = p then { m q with tvUsec := n } else m q

variable (m : Timevals) (p q : Nat) (n : Int)

@[simp] theorem setSec_usec : (m.setSec p n q).tvUsec = (m q).tvUsec := by
  unfold setSec
  split
  next => rfl
  next => rfl

theorem set_at (s u : Int) : (m.setSec p s).setUsec p u p = ⟨s, u⟩ := by
  simp [setSec, setUsec]

theorem set_other {p q : Nat} (s u : Int) (h : q ≠ p) : (m.setSec p s).setUsec p u q = m q := by
  simp [setSec, setUsec, h]

end Timevals

/-- Both fields of a time are values of their types. -/
def Timeval.Held (t : Timeval) : Prop := FitsTime t.tvSec ∧ FitsTime t.tvUsec

instance (t : Timeval) : Decidable t.Held := inferInstanceAs (Decidable (_ ∧ _))

def cmpTimeKatcp (m : Timevals) (alpha beta : Nat) : Int := cmpTime (m alpha) (m beta)

/-- Each field is written before the next one is worked out, and `sigma` may point to a summand. -/
def addTimeKatcp (m : Timevals) (sigma alpha beta : Nat) : Option (Int × Timevals) := do
  let u ← signed ((m alpha).tvUsec + (m beta).tvUsec)
  if u ≥ 1000000 then
    let s ← signed ((m alpha).tvSec + (m beta).tvSec)
    let s ← signed (s + 1)
    let m := m.setSec sigma s
    let u ← signed ((m alpha).tvUsec + (m beta).tvUsec)
    let u ← signed (u - 1000000)
    pure (0, m.setUsec sigma u)
  else
    let s ← signed ((m alpha).tvSec + (m beta).tvSec)
    let m := m.setSec sigma s
    let u ← signed ((m alpha).tvUsec + (m beta).tvUsec)
    pure (0, m.setUsec sigma u)

def subTimeKatcp (m : Timevals) (delta alpha beta : Nat) : Option (Int × Timevals) := do
  if (m alpha).tvUsec < (m beta).tvUsec then
    if (m alpha).tvSec ≤ (m beta).tvSec then
      pure (-1, (m.setSec delta 0).setUsec delta 0)
    else
      let s ← signed ((m beta).tvSec + 1)
      let s ← signed ((m alpha).tvSec - s)
      let m := m.setSec delta s
      let u ← signed (1000000 + (m alpha).tvUsec)
      let u ← signed (u - (m beta).tvUsec)
      pure (0, m.setUsec delta u)
  else
    if (m alpha).tvSec < (m beta).tvSec then
      pure (-1, (m.setSec delta 0).setUsec delta 0)
    else
      let s ← signed ((m alpha).tvSec - (m beta).tvSec)
      let m := m.setSec delta s
      let u ← signed ((m alpha).tvUsec - (m beta).tvUsec)
      pure (0, m.setUsec delta u)

/-- After the call the result stands at `p`, and no other time has changed. -/
def PutAt (m m' : Timevals) (p : Nat) (t : Timeval) : Prop :=
  m' p = t ∧ ∀ q, q ≠ p → m' q = m q

theorem putAt_set (m : Timevals) (p : Nat) (s u : Int) :
    PutAt m ((m.setSec p s).setUsec p u) p ⟨s, u⟩ :=
  ⟨m.set_at p s u, fun _ h => m.set_other s u h⟩

theorem signed_some {n : Int} (h : FitsTime n) : signed n = some n := if_pos h

theorem fits_small {n : Int} (h : -2000000 ≤ n) (h' : n < 3000000) : FitsTime n := by
  unfold FitsTime
  omega

section

variable {m : Timevals} {sigma alpha beta : Nat}

/-- The sum, wherever it is put, is the one worked out on the two times as they were. -/
theorem addTimeKatcp_putAt (ha : (m alpha).Normal) (hb : (m beta).Normal)
    (hs : FitsTime ((m alpha).tvSec + (m beta).tvSec))
    (ht : FitsTime (addTime (m alpha) (m beta)).tvSec) :
    ∃ m', addTimeKatcp m sigma alpha beta = some (0, m') ∧
      PutAt m m' sigma (addTime (m alpha) (m beta)) := by
  obtain ⟨ha, ha'⟩ := ha
  obtain ⟨hb, hb'⟩ := hb
  have hu : FitsTime ((m alpha).tvUsec + (m beta).tvUsec) := fits_small (by omega) (by omega)
  have hv : FitsTime ((m alpha).tvUsec + (m beta).tvUsec - 1000000) :=
    fits_small (by omega) (by omega)
  unfold addTimeKatcp
  rw [signed_some hu, signed_some hs]
  unfold addTime at ht ⊢
  by_cases hc : (m alpha).tvUsec + (m beta).tvUsec ≥ 1000000
  · rw [if_pos hc] at ht ⊢
    refine ⟨_, ?_, putAt_set m sigma _ _⟩
    simp only [Option.bind_eq_bind, Option.bind_some, if_pos hc, Timevals.setSec_usec,
      signed_some ht, signed_some hu, signed_some hv]
    rfl
  · rw [if_neg hc]
    refine ⟨_, ?_, putAt_set m sigma _ _⟩
    simp only [Option.bind_eq_bind, Option.bind_some, if_neg hc, Timevals.setSec_usec,
      signed_some hu]
    rfl

theorem subTimeKatcp_putAt (hfa : (m alpha).Held) (hfb : (m beta).Held) (ha : (m alpha).Normal)
    (hb : (m beta).Normal) (ht : FitsTime (subTime (m alpha) (m beta)).1.tvSec) :
    ∃ m', subTimeKatcp m sigma alpha beta = some ((subTime (m alpha) (m beta)).2, m') ∧
      PutAt m m' sigma (subTime (m alpha) (m beta)).1 := by
  obtain ⟨ha, ha'⟩ := ha
  obtain ⟨hb, hb'⟩ := hb
  obtain ⟨⟨-, hfa⟩, -⟩ := hfa
  obtain ⟨⟨hfb, -⟩, -⟩ := hfb
  unfold subTimeKatcp
  unfold subTime at ht ⊢
  by_cases hc : (m alpha).tvUsec < (m beta).tvUsec
  · rw [if_pos hc] at ht ⊢
    rw [if_pos hc]
    by_cases hs : (m alpha).tvSec ≤ (m beta).tvSec
    · rw [if_pos hs, if_pos hs]
      exact ⟨_, rfl, putAt_set m sigma 0 0⟩
    · rw [if_neg hs] at ht ⊢
      rw [if_neg hs]
      have hb1 : FitsTime ((m beta).tvSec + 1) := ⟨by omega, by omega⟩
      have hu : FitsTime (1000000 + (m alpha).tvUsec) := fits_small (by omega) (by omega)
      have hv : FitsTime (1000000 + (m alpha).tvUsec - (m beta).tvUsec) :=
        fits_small (by omega) (by omega)
      refine ⟨_, ?_, putAt_set m sigma _ _⟩
      simp only [Option.bind_eq_bind, Option.bind_some, Timevals.setSec_usec, signed_some hb1,
        signed_some ht, signed_some hu, signed_some hv]
      rfl
  · rw [if_neg hc] at ht ⊢
    rw [if_neg hc]
    by_cases hs : (m alpha).tvSec < (m beta).tvSec
    · rw [if_pos hs, if_pos hs]
      exact ⟨_, rfl, putAt_set m sigma 0 0⟩
    · rw [if_neg hs] at ht ⊢
      rw [if_neg hs]
      have hv : FitsTime ((m alpha).tvUsec - (m beta).tvUsec) :=
        fits_small (by omega) (by omega)
      refine ⟨_, ?_, putAt_set m sigma _ _⟩
      simp only [Option.bind_eq_bind, Option.bind_some, Timevals.setSec_usec, signed_some ht,
        signed_some hv]
      rfl

end

/-- The seconds of a normalised time are those of its microseconds. -/
theorem tvSec_micros {t : Timeval} (h : t.Normal) : t.tvSec = t.micros / 1000000 := by
  obtain ⟨h, h'⟩ := h
  unfold Timeval.micros
  omega

section

variable {a b : Timeval}

theorem cmpTime_sign (ha : a.Normal) (hb : b.Normal) :
    cmpTime a b = (a.micros - b.micros).sign := by
  have hc := cmpTime_micros ha hb
  rcases Int.lt_trichotomy a.micros b.micros with hlt | heq | hgt
  · have hneg := hc.2.mpr hlt
    rw [Int.sign_eq_neg_one_of_neg (by omega)]
    unfold cmpTime at hneg ⊢
    split_ifs at hneg ⊢ <;> omega
  · rw [heq, Int.sub_self, Int.sign_zero]
    omega
  · have hpos := hc.1.mpr hgt
    rw [Int.sign_eq_one_of_pos (by omega)]
    unfold cmpTime at hpos ⊢
    split_ifs at hpos ⊢ <;> omega

theorem subTime_cut (ha : a.Normal) (hb : b.Normal) :
    (a.micros < b.micros → subTime a b = (.zero, -1)) ∧
    (b.micros ≤ a.micros → (subTime a b).2 = 0) := by
  obtain ⟨ha, ha'⟩ := ha
  obtain ⟨hb, hb'⟩ := hb
  unfold subTime Timeval.micros
  split_ifs <;> simp <;> omega

theorem subTime_normal (ha : a.Normal) (hb : b.Normal) : (subTime a b).1.Normal := by
  obtain ⟨ha, ha'⟩ := ha
  obtain ⟨hb, hb'⟩ := hb
  unfold subTime Timeval.Normal
  split_ifs
  · simp [Timeval.zero]
  · dsimp only
    omega
  · simp [Timeval.zero]
  · dsimp only
    omega

end

/-- The sum of the times at `alpha` and `beta` can be held: its seconds, and before the carry. -/
def SumFits (a b : Timeval) : Prop :=
  FitsTime (a.tvSec + b.tvSec) ∧ FitsTime ((a.micros + b.micros) / 1000000)

def DifferenceFits (a b : Timeval) : Prop := FitsTime ((a.micros - b.micros) / 1000000)

/-- What the three calls owe for the two times, whichever times they may write over. -/
def TimeLaws (m : Timevals) (sigma alpha beta : Nat) : Prop :=
  let a := m alpha
  let b := m beta
  cmpTimeKatcp m alpha beta = (a.micros - b.micros).sign ∧
  (SumFits a b → ∃ m', addTimeKatcp m sigma alpha beta = some (0, m') ∧
    ∃ t, PutAt m m' sigma t ∧ t.Normal ∧ t.micros = a.micros + b.micros) ∧
  (a.micros < b.micros → ∃ m', subTimeKatcp m sigma alpha beta = some (-1, m') ∧
    PutAt m m' sigma .zero) ∧
  (b.micros ≤ a.micros → DifferenceFits a b →
    ∃ m', subTimeKatcp m sigma alpha beta = some (0, m') ∧
      ∃ t, PutAt m m' sigma t ∧ t.Normal ∧ t.micros = a.micros - b.micros)

theorem time_laws (m : Timevals) (sigma alpha beta : Nat) (hfa : (m alpha).Held)
    (hfb : (m beta).Held) (ha : (m alpha).Normal) (hb : (m beta).Normal) :
    TimeLaws m sigma alpha beta := by
  have hcut := subTime_cut ha hb
  refine ⟨?_, fun h => ?_, fun h => ?_, fun h hfit => ?_⟩
  · exact cmpTime_sign ha hb
  · have hsec : FitsTime (addTime (m alpha) (m beta)).tvSec := by
      rw [tvSec_micros (addTime_normal ha hb), addTime_micros]
      exact h.2
    obtain ⟨m', hm, hl⟩ := @addTimeKatcp_putAt m sigma alpha beta ha hb h.1 hsec
    exact ⟨m', hm, _, hl, addTime_normal ha hb, addTime_micros _ _⟩
  · have hzero := hcut.1 h
    have hsec : FitsTime (subTime (m alpha) (m beta)).1.tvSec := by
      rw [hzero]
      exact fits_small (by decide) (by decide)
    obtain ⟨m', hm, hl⟩ := @subTimeKatcp_putAt m sigma alpha beta hfa hfb ha hb hsec
    rw [hzero] at hm hl
    exact ⟨m', hm, hl⟩
  · have hle : cmpTime (m beta) (m alpha) ≤ 0 := by
      have := (cmpTime_micros hb ha).1
      omega
    have hmicros := subTime_micros hle
    have hsec : FitsTime (subTime (m alpha) (m beta)).1.tvSec := by
      rw [tvSec_micros (subTime_normal ha hb), hmicros]
      exact hfit
    obtain ⟨m', hm, hl⟩ := @subTimeKatcp_putAt m sigma alpha beta hfa hfb ha hb hsec
    rw [hcut.2 h] at hm
    exact ⟨m', hm, _, hl, subTime_normal ha hb, hmicros⟩

/-- A time that is written over by its own sum and difference with another one. -/
def someTimes : Timevals := fun p => if p = 0 then ⟨7, 999999⟩ else ⟨-3, 2⟩

theorem time_laws_aliased : TimeLaws someTimes 0 0 1 :=
  time_laws someTimes 0 0 1 (by decide) (by decide) (by decide) (by decide)

/-- The last second of a `time_t`, and a second. -/
def lastTimes : Timevals := fun p => if p = 0 then ⟨2 ^ 63 - 1, 0⟩ else ⟨1, 0⟩

theorem sum_past_last_second :
    (lastTimes 0).Held ∧ (lastTimes 1).Held ∧ (lastTimes 0).Normal ∧ (lastTimes 1).Normal ∧
      ¬ ∃ m', addTimeKatcp lastTimes 2 0 1 = some (0, m') ∧
        (m' 2).micros = (lastTimes 0).micros + (lastTimes 1).micros := by
  refine ⟨by decide, by decide, by decide, by decide, ?_⟩
  rintro ⟨m', h, -⟩
  have hnone : addTimeKatcp lastTimes 2 0 1 = none := rfl
  rw [hnone] at h
  exact nomatch h

end Katcp
