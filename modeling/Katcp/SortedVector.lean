import Mathlib.Data.List.Induction
import Mathlib.Order.Basic

namespace SortedVector

variable {α : Type*}

/-- A binary search between two indices: `probe` compares what is looked for with the entry at an
index, and there is no answer when it cannot. Where nothing is found, the answer is one less than
the negated index that it would have. -/
def search (probe : Nat → Option Ordering) : Nat → Int → Int → Option Int
  | 0, _, _ => none
  | fuel + 1, low, high =>
    if low ≤ high then
      let mid := low + (high - low) / 2
      match probe mid.toNat with
      | none => none
      | some .eq => some mid
      | some .lt => search probe fuel low (mid - 1)
      | some .gt => search probe fuel (mid + 1) high
    else some (-1 * (low + 1))

/-- A binary search between an index and a bound. Where it is there to find an entry, the answer
is its index and -1 when there is none; else it is the index for a new entry, and -1 when there is one. -/
def bisect (probe : Nat → Option Ordering) (find : Bool) : Nat → Nat → Nat → Option Int
  | 0, _, _ => none
  | fuel + 1, b, t =>
    if b < t then
      let m := (b + t) / 2
      match probe m with
      | none => none
      | some .eq => some (if find then m else -1)
      | some .gt => bisect probe find fuel (m + 1) t
      | some .lt => bisect probe find fuel b m
    else some (if find then -1 else b)

/-- The first `n` entries increase. -/
structure Aimed (probe : Nat → Option Ordering) (n : Nat) : Prop where
  probed : ∀ i, i < n → (probe i).isSome
  rises : ∀ i j, i < j → j < n → probe i ≠ some .gt → probe j = some .lt

/-- What an answer says of `n` entries. -/
inductive Answer (probe : Nat → Option Ordering) (n : Nat) : Int → Prop
  | found {i : Nat} : i < n → probe i = some .eq → Answer probe n i
  | absent {i : Nat} : i ≤ n → (∀ j, j < i → probe j = some .gt) → (∀ j, i ≤ j → j < n → probe j = some .lt) →
      Answer probe n (-1 * (i + 1))

/-- The answer of a search between an index and a bound. -/
inductive Bisected (probe : Nat → Option Ordering) (n : Nat) (find : Bool) : Int → Prop
  | found {i : Nat} : i < n → probe i = some .eq → Bisected probe n find (if find then i else -1)
  | absent {i : Nat} : i ≤ n → (∀ j, j < i → probe j = some .gt) → (∀ j, i ≤ j → j < n → probe j = some .lt) →
      Bisected probe n find (if find then -1 else i)

/-- The entries from `i` down to `tid` move up by one. -/
def shiftUp (tid : Nat) : Nat → List α → List α
  | 0, ts => ts
  | i + 1, ts =>
    if tid < i + 1 then
      match ts[i]? with
      | some x => shiftUp tid i (ts.set (i + 1) x)
      | none => ts
    else ts

/-- The `n` entries behind `pos` move down by one. -/
def shiftDown : Nat → Nat → List α → List α
  | 0, _, ts => ts
  | n + 1, pos, ts =>
    match ts[pos + 1]? with
    | some x => shiftDown n (pos + 1) (ts.set pos x)
    | none => ts

section

variable {probe : Nat → Option Ordering} {n fuel i tid : Nat} {low high r : Int} {front back : List α} {x y : α}

theorem Aimed.falls {j : Nat} (h : Aimed probe n) (hi : i < n) (hj : j < i) (hne : probe i ≠ some .lt) :
    probe j = some .gt := by
  by_contra hgt
  exact hne (h.rises j i hj hi hgt)

theorem search_spec (h : Aimed probe n) (hlow : 0 ≤ low) (hhigh : high < n) (hle : low ≤ high + 1)
    (hbelow : ∀ j : Nat, j < low → probe j = some .gt) (habove : ∀ j : Nat, high < j → j < n → probe j = some .lt)
    (hfuel : high - low + 1 < fuel) : ∃ r, search probe fuel low high = some r ∧ Answer probe n r := by
  induction fuel generalizing low high with
  | zero => omega
  | succ fuel ih =>
    rw [search]
    by_cases hgo : low ≤ high
    · rw [if_pos hgo]
      obtain ⟨mid, hmid⟩ : ∃ mid : Nat, low + (high - low) / 2 = mid := ⟨(low + (high - low) / 2).toNat, by omega⟩
      have hin : mid < n := by omega
      obtain ⟨o, ho⟩ := Option.isSome_iff_exists.mp (h.probed mid hin)
      dsimp only
      rw [hmid, Int.toNat_natCast, ho]
      cases o with
      | eq => exact ⟨mid, rfl, .found hin ho⟩
      | lt =>
        refine ih hlow (by omega) (by omega) hbelow ?_ (by omega)
        intro j hj hjn
        rcases Nat.lt_or_ge mid j with hmj | hmj
        · exact h.rises mid j hmj hjn (by simp [ho])
        · rwa [show j = mid by omega]
      | gt =>
        refine ih (by omega) hhigh (by omega) ?_ habove (by omega)
        intro j hj
        rcases Nat.lt_or_ge j mid with hmj | hmj
        · exact h.falls hin hmj (by simp [ho])
        · rwa [show j = mid by omega]
    · rw [if_neg hgo]
      obtain ⟨k, rfl⟩ := Int.eq_ofNat_of_zero_le hlow
      refine ⟨_, rfl, .absent (by omega) (fun j hj => hbelow j (by omega)) fun j hj hjn => habove j (by omega) hjn⟩

/-- A search of all the entries. -/
theorem search_all (h : Aimed probe n) : ∃ r, search probe (n + 1) 0 (n - 1) = some r ∧ Answer probe n r :=
  search_spec h (Int.le_refl 0) (by omega) (by omega) (fun j hj => by omega) (fun j hj hjn => by omega) (by omega)

theorem bisect_spec (h : Aimed probe n) (find : Bool) {b t : Nat} (hle : b ≤ t) (ht : t ≤ n)
    (hbelow : ∀ j, j < b → probe j = some .gt) (habove : ∀ j, t ≤ j → j < n → probe j = some .lt)
    (hfuel : t - b < fuel) : ∃ r, bisect probe find fuel b t = some r ∧ Bisected probe n find r := by
  induction fuel generalizing b t with
  | zero => omega
  | succ fuel ih =>
    rw [bisect]
    by_cases hgo : b < t
    · rw [if_pos hgo]
      obtain ⟨m, hm⟩ : ∃ m, (b + t) / 2 = m := ⟨_, rfl⟩
      have hin : m < n := by omega
      obtain ⟨o, ho⟩ := Option.isSome_iff_exists.mp (h.probed m hin)
      dsimp only
      rw [hm, ho]
      cases o with
      | eq => exact ⟨_, rfl, .found hin ho⟩
      | lt =>
        refine ih (by omega) (by omega) hbelow ?_ (by omega)
        intro j hj hjn
        rcases Nat.lt_or_ge m j with hmj | hmj
        · exact h.rises m j hmj hjn (by simp [ho])
        · rwa [show j = m by omega]
      | gt =>
        refine ih (by omega) ht ?_ habove (by omega)
        intro j hj
        rcases Nat.lt_or_ge j m with hmj | hmj
        · exact h.falls hin hmj (by simp [ho])
        · rwa [show j = m by omega]
    · rw [if_neg hgo]
      have heq : b = t := by omega
      subst heq
      exact ⟨_, rfl, .absent ht hbelow habove⟩

/-- A search between no index and a bound of all the entries. -/
theorem bisect_all (h : Aimed probe n) (find : Bool) :
    ∃ r, bisect probe find (n + 1) 0 n = some r ∧ Bisected probe n find r :=
  bisect_spec h find (Nat.zero_le n) (Nat.le_refl n) (fun j hj => by omega) (fun j hj hjn => by omega) (by omega)

theorem Answer.found_of_nonneg (h : Answer probe n r) (hr : 0 ≤ r) :
    ∃ i, r = (i : Nat) ∧ i < n ∧ probe i = some .eq := by
  cases h with
  | found hi he => exact ⟨_, rfl, hi, he⟩
  | absent => omega

theorem Answer.absent_of_neg (h : Answer probe n r) (hr : r < 0) :
    ∃ i, r = -1 * ((i : Nat) + 1) ∧ i ≤ n ∧ (∀ j, j < i → probe j = some .gt) ∧
      ∀ j, i ≤ j → j < n → probe j = some .lt := by
  cases h with
  | found => omega
  | absent hi hbelow habove => exact ⟨_, rfl, hi, hbelow, habove⟩

/-- What is looked for is where the answer says. -/
theorem Answer.nonneg_iff (h : Answer probe n r) : 0 ≤ r ↔ ∃ i, i < n ∧ probe i = some .eq := by
  cases h with
  | found hi he => exact iff_of_true (by omega) ⟨_, hi, he⟩
  | @absent k hi hbelow habove =>
    refine iff_of_false (by omega) ?_
    rintro ⟨j, hj, he⟩
    rcases Nat.lt_or_ge j k with hlt | hge
    · rw [hbelow j hlt] at he
      cases he
    · rw [habove j hge hj] at he
      cases he

/-- A gap is opened at `tid`, and an entry put there. -/
theorem shiftUp_set (htid : tid ≤ front.length) :
    (shiftUp tid front.length (front ++ x :: back)).set tid y =
      front.take tid ++ y :: (front.drop tid ++ back) := by
  induction front using List.reverseRecOn generalizing x back with
  | nil =>
    rw [List.length_nil, Nat.le_zero] at htid
    subst htid
    rfl
  | append_singleton front z ih =>
    rw [List.length_append, List.length_singleton, shiftUp]
    split
    next hlt =>
      have hget : (front ++ [z] ++ x :: back)[front.length]? = some z := by simp
      have hset : (front ++ [z] ++ x :: back).set (front.length + 1) z = front ++ z :: z :: back := by simp
      rw [hget]
      dsimp only
      rw [hset, ih (by omega), List.take_append_of_le_length (by omega), List.drop_append_of_le_length (by omega),
        List.append_assoc]
      rfl
    next hge =>
      rw [List.length_append, List.length_singleton] at htid
      have heq : tid = (front ++ [z]).length := by simp; omega
      rw [heq, List.take_length, List.drop_length, List.set_append_right _ _ (Nat.le_refl _), Nat.sub_self]
      rfl

/-- The entry at `pos` is closed over. -/
theorem shiftDown_take : (shiftDown back.length front.length (front ++ x :: back)).take
    (front.length + back.length) = front ++ back := by
  induction back generalizing front x with
  | nil => simp [shiftDown]
  | cons y back ih =>
    have hget : (front ++ x :: y :: back)[front.length + 1]? = some y := by simp
    have hset : (front ++ x :: y :: back).set front.length y = (front ++ [y]) ++ y :: back := by simp
    have h := @ih (front ++ [y]) y
    rw [List.length_cons, shiftDown, hget]
    dsimp only
    rw [hset]
    rw [List.length_append, List.length_singleton] at h
    rw [show front.length + (back.length + 1) = front.length + 1 + back.length by omega, h, List.append_assoc]
    rfl

end

end SortedVector
