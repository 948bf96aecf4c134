import Katcp.TimerRun

namespace Katcp

variable {δ : Type}

/-- What the `int` that counts the missed deadlines holds. -/
def KatcpTime.missesRead (t : KatcpTime δ) : Int :=
  if t.tMisses % 2 ^ 32 < 2 ^ 31 then (t.tMisses : Int) % 2 ^ 32 else (t.tMisses : Int) % 2 ^ 32 - 2 ^ 32

/-- How long ago the next deadline of a timer is; it is still to come where this is negative. -/
def KatcpTime.lateness (t : KatcpTime δ) (now : Timeval) : Int :=
  now.micros - (t.tWhen.micros + t.tInterval.micros)

/-- What the timer `t` becomes after its callback, when the clock is read as `now`. -/
structure SetAgain (t t' : KatcpTime δ) (now : Timeval) : Prop where
  later : now.micros < t'.tWhen.micros
  onTime : cmpTime (addTime t.tWhen t.tInterval) now > 0 →
    t'.tWhen.micros = t.tWhen.micros + t.tInterval.micros ∧ t'.missesRead = t.missesRead
  missed : cmpTime (addTime t.tWhen t.tInterval) now ≤ 0 →
    t'.missesRead = t.missesRead + t.lateness now / t.tInterval.micros

/-- Cut to 64 bits, as the code divides them, the two numbers have the quotient they have, as far as
an `int` can tell. -/
def QuotientKept (late interval : Int) : Prop :=
  interval % 2 ^ 64 ≠ 0 ∧ (late % 2 ^ 64 / (interval % 2 ^ 64)) % 2 ^ 32 = late / interval % 2 ^ 32

/-- The interval is one that the code can go on with. -/
def Punctual (t : KatcpTime δ) (now : Timeval) : Prop :=
  if cmpTime (addTime t.tWhen t.tInterval) now > 0 then t.lateness now < 0
  else 0 < t.tInterval.micros ∧ QuotientKept (t.lateness now) t.tInterval.micros ∧
    -2 ^ 31 ≤ t.missesRead + t.lateness now / t.tInterval.micros ∧
    t.missesRead + t.lateness now / t.tInterval.micros < 2 ^ 31

variable {s s0 s1 : Timers δ} {t : KatcpTime δ} {now after : Timeval} {id : TimerId} {late interval : Int}

/-- When a counter that `n` is added to is read as itself and `k` more. -/
theorem missesRead_add {t' : KatcpTime δ} {n : Nat} {k : Int} (h : t'.tMisses = t.tMisses + n) :
    t'.missesRead = t.missesRead + k ↔
      (n : Int) % 2 ^ 32 = k % 2 ^ 32 ∧ -2 ^ 31 ≤ t.missesRead + k ∧ t.missesRead + k < 2 ^ 31 := by
  unfold KatcpTime.missesRead
  rw [h]
  push_cast
  split
  next =>
    split
    next => omega
    next => omega
  next =>
    split
    next => omega
    next => omega

theorem interval_usecs : t.tInterval.usecs = 0 ↔ t.tInterval.micros % 2 ^ 64 = 0 := by
  rw [← usecs_eq]
  omega

theorem reschedule_iff : (∃ t', reschedule t now = some t' ∧ SetAgain t t' now) ↔ Punctual t now := by
  have hnext := addTime_micros t.tWhen t.tInterval
  by_cases hcmp : cmpTime (addTime t.tWhen t.tInterval) now ≤ 0
  · have hd : (subTime now (addTime t.tWhen t.tInterval)).1.micros = t.lateness now := by
      rw [subTime_micros hcmp, hnext]
      rfl
    rw [Punctual, if_neg (Int.not_lt.mpr hcmp), reschedule]
    dsimp only
    rw [if_pos hcmp]
    by_cases hne : t.tInterval.usecs = 0
    · rw [if_pos hne]
      constructor
      · rintro ⟨t', h, _⟩
        cases h
      · rintro ⟨_, ⟨h, _⟩, _⟩
        exact absurd (interval_usecs.mp hne) h
    · rw [if_neg hne]
      constructor
      · rintro ⟨t', ht', hlater, _, hmissed⟩
        cases Option.some.inj ht'
        have hmissed := (missesRead_add (t := t) rfl).mp (hmissed hcmp)
        dsimp only at hlater
        rw [addTime_micros] at hlater
        rw [Int.natCast_ediv, usecs_eq, usecs_eq, hd] at hmissed
        exact ⟨by omega, ⟨fun h => hne (interval_usecs.mpr h), hmissed.1⟩, hmissed.2⟩
      · rintro ⟨hpos, ⟨_, hquotient⟩, hrange⟩
        refine ⟨_, rfl, ?_, fun h => absurd hcmp (Int.not_le.mpr h), fun _ => ?_⟩
        · dsimp only
          rw [addTime_micros]
          omega
        · refine (missesRead_add (t := t) rfl).mpr ⟨?_, hrange⟩
          rw [Int.natCast_ediv, usecs_eq, usecs_eq, hd]
          exact hquotient
  · rw [Punctual, if_pos (Int.not_le.mp hcmp), reschedule]
    dsimp only
    rw [if_neg hcmp, KatcpTime.lateness]
    constructor
    · rintro ⟨t', ht', hlater, _, _⟩
      cases Option.some.inj ht'
      dsimp only at hlater
      omega
    · intro hlate
      refine ⟨_, rfl, ?_, fun _ => ⟨hnext, rfl⟩, fun h => absurd h hcmp⟩
      dsimp only
      omega

theorem quotientKept_of_lt (hlate : 0 ≤ late) (hlate' : late < 2 ^ 64) (hpos : 0 < interval)
    (hsmall : interval < 2 ^ 64) : QuotientKept late interval := by
  rw [QuotientKept, Int.emod_eq_of_lt hlate hlate', Int.emod_eq_of_lt (Int.le_of_lt hpos) hsmall]
  exact ⟨by omega, rfl⟩

/-- For times as `gettimeofday` gives them, and less than 2^64 microseconds apart, a positive interval
is one to go on with as long as an `int` holds the number of the deadlines missed. -/
theorem punctual_of_normal (hwhen : t.tWhen.Normal) (hinterval : t.tInterval.Normal) (hnow : now.Normal)
    (hpos : 0 < t.tInterval.micros) (hsmall : t.tInterval.micros < 2 ^ 64) (hlate : t.lateness now < 2 ^ 64) :
    Punctual t now ↔ t.lateness now < 0 ∨ t.missesRead + t.lateness now / t.tInterval.micros < 2 ^ 31 := by
  have hcmp := (cmpTime_micros (addTime_normal hwhen hinterval) hnow).1
  have hlateness : t.lateness now = now.micros - (t.tWhen.micros + t.tInterval.micros) := rfl
  rw [addTime_micros] at hcmp
  unfold Punctual
  split
  next h =>
    have hneg : t.lateness now < 0 := by
      have := hcmp.mp h
      omega
    exact iff_of_true hneg (Or.inl hneg)
  next h =>
    have hge : 0 ≤ t.lateness now := by
      by_contra hneg
      exact h (hcmp.mpr (by omega))
    have hquotient : 0 ≤ t.lateness now / t.tInterval.micros := Int.ediv_nonneg hge (Int.le_of_lt hpos)
    have hlow : -2 ^ 31 ≤ t.missesRead := by
      unfold KatcpTime.missesRead
      split
      next => omega
      next => omega
    constructor
    · exact fun h => Or.inr h.2.2.2
    · rintro (hneg | hfits)
      · omega
      · exact ⟨hpos, quotientKept_of_lt hge hlate hpos hsmall, by omega, hfits⟩

variable [DecidableEq δ] {callback : List (TimerCall δ)}

end Katcp
