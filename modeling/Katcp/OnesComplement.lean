import Mathlib.Data.Nat.ModEq
import Mathlib.Algebra.BigOperators.Group.List.Basic

namespace OnesComplement

/-- A sum whose carry comes in again at the other end. -/
def add (base x y : Nat) : Nat := (x + y) % base + (x + y) / base

def sum (base : Nat) (xs : List Nat) : Nat := xs.foldl (add base) 0

def complement (base x : Nat) : Nat := base - 1 - x

variable {base x y : Nat} {xs : List Nat}

theorem add_lt (hx : x < base) (hy : y < base) : add base x y < base := by
  unfold add
  by_cases hsmall : x + y < base
  · rw [Nat.mod_eq_of_lt hsmall, Nat.div_eq_of_lt hsmall]
    exact hsmall
  · have hsub : (x + y) % base = x + y - base := by
      rw [Nat.mod_eq_sub_mod (Nat.not_lt.mp hsmall)]
      exact Nat.mod_eq_of_lt (by omega)
    have hone : (x + y) / base = 1 := by
      rw [Nat.div_eq_sub_div (by omega) (Nat.not_lt.mp hsmall), Nat.div_eq_of_lt (by omega)]
    rw [hsub, hone]
    omega

/-- The carry is worth one when it comes in again. -/
theorem add_modEq (hbase : 0 < base) : add base x y ≡ x + y [MOD base - 1] := by
  obtain ⟨top, rfl⟩ := Nat.exists_eq_add_one_of_ne_zero (Nat.pos_iff_ne_zero.mp hbase)
  have hsplit := Nat.div_add_mod (x + y) (top + 1)
  have hle : add (top + 1) x y ≤ x + y := by
    unfold add
    rw [Nat.add_one_mul] at hsplit
    omega
  refine (Nat.modEq_iff_dvd' hle).mpr ⟨(x + y) / (top + 1), ?_⟩
  unfold add
  rw [Nat.add_sub_cancel]
  rw [Nat.add_one_mul] at hsplit
  omega

theorem add_pos (h : 0 < x + y) : 0 < add base x y := by
  unfold add
  rcases Nat.eq_zero_or_pos ((x + y) % base) with hzero | hpos
  · have hle := Nat.le_of_dvd h (Nat.dvd_of_mod_eq_zero hzero)
    rcases Nat.eq_zero_or_pos base with rfl | hbase
    · rw [Nat.mod_zero] at hzero
      omega
    · exact Nat.add_pos_right _ (Nat.div_pos hle hbase)
  · exact Nat.add_pos_left hpos _

theorem foldl_lt (hx : x < base) (h : ∀ y ∈ xs, y < base) : xs.foldl (add base) x < base := by
  induction xs generalizing x with
  | nil => exact hx
  | cons y xs ih =>
    rw [List.forall_mem_cons] at h
    exact ih (add_lt hx h.1) h.2

theorem foldl_modEq (hbase : 0 < base) : xs.foldl (add base) x ≡ x + xs.sum [MOD base - 1] := by
  induction xs generalizing x with
  | nil => exact Nat.ModEq.refl _
  | cons y xs ih =>
    rw [List.foldl_cons, List.sum_cons, ← Nat.add_assoc]
    exact ih.trans ((add_modEq hbase).add_right _)

theorem foldl_pos (h : 0 < x + xs.sum) : 0 < xs.foldl (add base) x := by
  induction xs generalizing x with
  | nil => exact h
  | cons y xs ih =>
    rw [List.sum_cons, ← Nat.add_assoc] at h
    rw [List.foldl_cons]
    refine ih ?_
    rcases Nat.eq_zero_or_pos (x + y) with hzero | hpos
    · omega
    · exact Nat.lt_of_lt_of_le (add_pos hpos) (Nat.le_add_right _ _)

theorem sum_lt (hbase : 0 < base) (h : ∀ x ∈ xs, x < base) : sum base xs < base := foldl_lt hbase h

theorem sum_modEq (hbase : 0 < base) : sum base xs ≡ xs.sum [MOD base - 1] := by
  have h := @foldl_modEq base 0 xs hbase
  rwa [Nat.zero_add] at h

/-- Words that make up a multiple of all ones sum up to all ones, unless they are all zero. -/
theorem sum_eq_ones (hbase : 1 < base) (h : ∀ x ∈ xs, x < base) (hpos : 0 < xs.sum)
    (hdvd : base - 1 ∣ xs.sum) : sum base xs = base - 1 := by
  have hlt := sum_lt (by omega) h
  have hsum : 0 < sum base xs := foldl_pos (by omega)
  have hzero : base - 1 ∣ sum base xs :=
    Nat.modEq_zero_iff_dvd.mp ((sum_modEq (by omega)).trans (Nat.modEq_zero_iff_dvd.mpr hdvd))
  have hle := Nat.le_of_dvd hsum hzero
  omega

/-- A word and its complement make up all ones. -/
theorem sum_add_complements (h : ∀ x ∈ xs, x < base) :
    xs.sum + (xs.map (complement base)).sum = xs.length * (base - 1) := by
  induction xs with
  | nil => simp
  | cons x xs ih =>
    rw [List.forall_mem_cons] at h
    have hrest := ih h.2
    have hx : x + complement base x = base - 1 := by
      unfold complement
      omega
    rw [List.sum_cons, List.map_cons, List.sum_cons, List.length_cons, Nat.add_one_mul]
    omega

/-- The sum of the complements makes the words up to a multiple of all ones. -/
theorem dvd_sum_add (hbase : 0 < base) (h : ∀ x ∈ xs, x < base) :
    base - 1 ∣ xs.sum + sum base (xs.map (complement base)) := by
  have hall : xs.sum + sum base (xs.map (complement base)) ≡ xs.length * (base - 1) [MOD base - 1] := by
    rw [← sum_add_complements h]
    exact (sum_modEq hbase).add_left _
  exact (Nat.modEq_zero_iff_dvd.mp (hall.trans (Nat.modEq_zero_iff_dvd.mpr (Nat.dvd_mul_left _ _))))

end OnesComplement
