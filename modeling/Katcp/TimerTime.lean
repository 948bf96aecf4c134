import Mathlib.Data.List.Basic
import Mathlib.Algebra.Group.Int.Defs
import Mathlib.Algebra.Group.Nat.Defs

namespace Katcp

/-- `struct timeval`. The fields need not be normalised: an interval may come out of a text. -/
structure Timeval where
  tvSec : Int
  tvUsec : Int
  deriving DecidableEq, Repr

namespace Timeval

def zero : Timeval := ⟨0, 0⟩

def ofUsec (n : Nat) : Timeval := ⟨n / 1000000, n % 1000000⟩

/-- The microseconds of a time as an `unsigned long long`. -/
def usecs (t : Timeval) : Nat := ((t.tvSec * 1000000 + t.tvUsec) % 2 ^ 64).toNat

/-- The microseconds of a time. -/
def micros (t : Timeval) : Int := t.tvSec * 1000000 + t.tvUsec

/-- What `gettimeofday` gives: the microseconds are those of one second. -/
def Normal (t : Timeval) : Prop := 0 ≤ t.tvUsec ∧ t.tvUsec < 1000000

instance (t : Timeval) : Decidable t.Normal := inferInstanceAs (Decidable (_ ∧ _))

def Earlier (alpha beta : Timeval) : Prop :=
  alpha.tvSec < beta.tvSec ∨ alpha.tvSec = beta.tvSec ∧ alpha.tvUsec < beta.tvUsec

end Timeval

def cmpTime (alpha beta : Timeval) : Int :=
  if alpha.tvSec < beta.tvSec then -1
  else if alpha.tvSec > beta.tvSec then 1
  else if alpha.tvUsec < beta.tvUsec then -1
  else if alpha.tvUsec > beta.tvUsec then 1
  else 0

def addTime (alpha beta : Timeval) : Timeval :=
  if alpha.tvUsec + beta.tvUsec ≥ 1000000 then
    ⟨alpha.tvSec + beta.tvSec + 1, alpha.tvUsec + beta.tvUsec - 1000000⟩
  else ⟨alpha.tvSec + beta.tvSec, alpha.tvUsec + beta.tvUsec⟩

/-- The difference, and whether it was cut off at zero. -/
def subTime (alpha beta : Timeval) : Timeval × Int :=
  if alpha.tvUsec < beta.tvUsec then
    if alpha.tvSec ≤ beta.tvSec then (.zero, -1)
    else (⟨alpha.tvSec - (beta.tvSec + 1), 1000000 + alpha.tvUsec - beta.tvUsec⟩, 0)
  else
    if alpha.tvSec < beta.tvSec then (.zero, -1)
    else (⟨alpha.tvSec - beta.tvSec, alpha.tvUsec - beta.tvUsec⟩, 0)

theorem cmpTime_earlier (a b : Timeval) : cmpTime a b = -1 ↔ a.Earlier b := by
  unfold cmpTime Timeval.Earlier
  split
  next => simp; omega
  next =>
    split
    next => simp; omega
    next =>
      split
      next => simp; omega
      next =>
        split
        next => simp; omega
        next => simp; omega

section

variable {a b : Timeval}

theorem usecs_eq (t : Timeval) : (t.usecs : Int) = t.micros % 2 ^ 64 := by
  rw [Timeval.usecs, Int.toNat_of_nonneg (Int.emod_nonneg _ (by decide))]
  rfl

theorem addTime_micros (a b : Timeval) : (addTime a b).micros = a.micros + b.micros := by
  unfold addTime Timeval.micros
  split
  next =>
    dsimp only
    omega
  next =>
    dsimp only
    omega

theorem addTime_normal (ha : a.Normal) (hb : b.Normal) : (addTime a b).Normal := by
  obtain ⟨ha, ha'⟩ := ha
  obtain ⟨hb, hb'⟩ := hb
  unfold addTime Timeval.Normal
  split
  next =>
    dsimp only
    omega
  next =>
    dsimp only
    omega

theorem cmpTime_micros (ha : a.Normal) (hb : b.Normal) :
    (cmpTime a b > 0 ↔ b.micros < a.micros) ∧ (cmpTime a b < 0 ↔ a.micros < b.micros) := by
  obtain ⟨ha, ha'⟩ := ha
  obtain ⟨hb, hb'⟩ := hb
  unfold cmpTime Timeval.micros
  split_ifs <;> simp <;> omega

/-- Nothing is cut off where the subtrahend is not the later time. -/
theorem subTime_micros (h : cmpTime b a ≤ 0) : (subTime a b).1.micros = a.micros - b.micros := by
  have hle : ¬ b.tvSec > a.tvSec ∧ ¬ (b.tvSec = a.tvSec ∧ b.tvUsec > a.tvUsec) := by
    unfold cmpTime at h
    split_ifs at h <;> omega
  unfold subTime Timeval.micros
  split
  next =>
    rw [if_neg (by omega)]
    dsimp only
    omega
  next =>
    rw [if_neg (by omega)]
    dsimp only
    omega

end

end Katcp
