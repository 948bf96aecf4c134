import Mathlib.Data.List.Basic
import Mathlib.Data.List.Perm.Basic

namespace LevelHeap

variable {α : Type*} {less : α → α → Bool}

def parent (i : Nat) : Nat := (i - 1) / 2

/-- The value at place `i` comes before the one at place `j`. -/
def before (less : α → α → Bool) (xs : List α) (i j : Nat) : Bool :=
  match xs[i]?, xs[j]? with
  | some x, some y => less x y
  | _, _ => false

def swap (xs : List α) (i j : Nat) : List α :=
  match xs[i]?, xs[j]? with
  | some x, some y => (xs.set i y).set j x
  | _, _ => xs

def siftUp (less : α → α → Bool) : Nat → List α → Nat → List α
  | 0, xs, _ => xs
  | n + 1, xs, i =>
    if 0 < i ∧ before less xs i (parent i) then siftUp less n (swap xs (parent i) i) (parent i)
    else xs

def siftDown (less : α → α → Bool) : Nat → List α → Nat → List α
  | 0, xs, _ => xs
  | n + 1, xs, i =>
    let left := 2 * i + 1
    let right := 2 * i + 2
    if left ≥ xs.length then xs
    else if right ≥ xs.length then
      if before less xs left i then swap xs left i else xs
    else
      let child := if before less xs left right then left else right
      if before less xs child i then siftDown less n (swap xs child i) child else xs

/-- No value comes before its parent. -/
def Ordered (less : α → α → Bool) (xs : List α) : Prop :=
  ∀ k, 0 < k → before less xs k (parent k) = false

structure WeakOrder (less : α → α → Bool) : Prop where
  asymm : ∀ a b, less a b = true → less b a = false
  trans : ∀ a b c, less b a = false → less c b = false → less c a = false

theorem parent_lt {i : Nat} (h : 0 < i) : parent i < i := by
  unfold parent
  omega

theorem before_eq_false_of_le {xs : List α} {i j : Nat} (h : xs.length ≤ i ∨ xs.length ≤ j) :
    before less xs i j = false := by
  unfold before
  rcases h with h | h
  · rw [List.getElem?_eq_none h]
  · rw [List.getElem?_eq_none h]
    cases xs[i]? <;> rfl

theorem before_congr {xs ys : List α} {i j i' j' : Nat} (hi : xs[i]? = ys[i']?)
    (hj : xs[j]? = ys[j']?) : before less xs i j = before less ys i' j' := by
  rw [before, before, hi, hj]

theorem before_asymm (weak : WeakOrder less) {xs : List α} {i j : Nat}
    (h : before less xs i j = true) : before less xs j i = false := by
  unfold before at h ⊢
  cases hi : xs[i]? with
  | none => simp
  | some x =>
    cases hj : xs[j]? with
    | none => rfl
    | some y =>
      simp only [hi, hj] at h
      exact weak.asymm x y h

theorem before_trans (weak : WeakOrder less) {xs : List α} {i j k : Nat} (hj : j < xs.length)
    (hji : before less xs j i = false) (hkj : before less xs k j = false) :
    before less xs k i = false := by
  unfold before at hji hkj ⊢
  rw [List.getElem?_eq_getElem hj] at hji hkj
  cases hi : xs[i]? with
  | none => cases xs[k]? <;> rfl
  | some x =>
    cases hk : xs[k]? with
    | none => rfl
    | some z =>
      simp only [hi, hk] at hji hkj ⊢
      exact weak.trans x _ z hji hkj

@[simp] theorem swap_length (xs : List α) (i j : Nat) : (swap xs i j).length = xs.length := by
  unfold swap
  split <;> simp

theorem swap_perm (xs : List α) (i j : Nat) : (swap xs i j).Perm xs := by
  unfold swap
  split
  next x y hi hj =>
    obtain ⟨hi', rfl⟩ := List.getElem?_eq_some_iff.mp hi
    obtain ⟨hj', rfl⟩ := List.getElem?_eq_some_iff.mp hj
    exact List.set_set_perm hi' hj'
  next => exact List.Perm.refl xs

/-- The place a value had before two places were swapped. -/
def swapped (i j k : Nat) : Nat := if k = i then j else if k = j then i else k

theorem getElem?_swap {xs : List α} {i j : Nat} (hi : i < xs.length) (hj : j < xs.length) (k : Nat) :
    (swap xs i j)[k]? = xs[swapped i j k]? := by
  unfold swap swapped
  rw [List.getElem?_eq_getElem hi, List.getElem?_eq_getElem hj]
  simp only [List.getElem?_set, List.length_set]
  by_cases hki : k = i
  · by_cases hkj : k = j
    · subst hki; subst hkj
      simp [hi]
    · subst hki
      simp [Ne.symm hkj, hi, hj]
  · by_cases hkj : k = j
    · subst hkj
      simp [hki, hi, hj]
    · simp [Ne.symm hki, Ne.symm hkj, hki, hkj]

theorem before_swap {xs : List α} {i j : Nat} (hi : i < xs.length) (hj : j < xs.length) (k l : Nat) :
    before less (swap xs i j) k l = before less xs (swapped i j k) (swapped i j l) :=
  before_congr (getElem?_swap hi hj k) (getElem?_swap hi hj l)

theorem siftUp_perm (n : Nat) (xs : List α) (i : Nat) : (siftUp less n xs i).Perm xs := by
  induction n generalizing xs i with
  | zero => exact List.Perm.refl xs
  | succ n ih =>
    rw [siftUp]
    split
    · exact (ih _ _).trans (swap_perm xs _ _)
    · exact List.Perm.refl xs

theorem siftDown_perm (n : Nat) (xs : List α) (i : Nat) : (siftDown less n xs i).Perm xs := by
  induction n generalizing xs i with
  | zero => exact List.Perm.refl xs
  | succ n ih =>
    rw [siftDown]
    dsimp only
    repeat' split
    all_goals first
      | exact (ih _ _).trans (swap_perm xs _ _)
      | exact swap_perm xs _ _
      | exact List.Perm.refl xs

/-- Every pair is in order that does not touch place `i`, and the children of `i` do not
come before its parent. -/
structure Hole (less : α → α → Bool) (xs : List α) (i : Nat) : Prop where
  except : ∀ k, 0 < k → k ≠ i → parent k ≠ i → before less xs k (parent k) = false
  grand : 0 < i → ∀ k, 0 < k → parent k = i → before less xs k (parent i) = false

/-- Only the value at place `i` may come before its parent. -/
structure UpReady (less : α → α → Bool) (xs : List α) (i : Nat) : Prop where
  except : ∀ k, 0 < k → k ≠ i → before less xs k (parent k) = false
  grand : 0 < i → ∀ k, 0 < k → parent k = i → before less xs k (parent i) = false

/-- Only the children of place `i` may come before it. -/
structure DownReady (less : α → α → Bool) (xs : List α) (i : Nat) : Prop where
  except : ∀ k, 0 < k → parent k ≠ i → before less xs k (parent k) = false
  grand : 0 < i → ∀ k, 0 < k → parent k = i → before less xs k (parent i) = false

theorem UpReady.hole {xs : List α} {i : Nat} (h : UpReady less xs i) : Hole less xs i :=
  ⟨fun k hk hki _ => h.except k hk hki, h.grand⟩

theorem UpReady.ordered {xs : List α} {i : Nat} (h : UpReady less xs i)
    (hi : ¬ (0 < i ∧ before less xs i (parent i) = true)) : Ordered less xs := by
  intro k hk
  by_cases hki : k = i
  · subst hki
    simpa [hk] using hi
  · exact h.except k hk hki

theorem Hole.downReady {xs : List α} {i : Nat} (h : Hole less xs i)
    (hi : ¬ (0 < i ∧ before less xs i (parent i) = true)) : DownReady less xs i := by
  refine ⟨fun k hk hp => ?_, h.grand⟩
  by_cases hki : k = i
  · subst hki
    simpa [hk] using hi
  · exact h.except k hk hki hp

theorem Ordered.downReady (weak : WeakOrder less) {xs : List α} (h : Ordered less xs) (i : Nat) :
    DownReady less xs i := by
  refine ⟨fun k hk _ => h k hk, fun hi k hk hp => ?_⟩
  have hlt := parent_lt hk
  by_cases hin : i < xs.length
  · have hki := h k hk
    rw [hp] at hki
    exact before_trans weak hin (h i hi) hki
  · exact before_eq_false_of_le (Or.inl (by omega))

/-- Exchanging a value with the parent it comes before leaves one pair in doubt, one
level up. -/
theorem Hole.up (weak : WeakOrder less) {xs : List α} {i : Nat} (h : Hole less xs i) (hi : 0 < i)
    (hin : i < xs.length) (hb : before less xs i (parent i) = true) :
    UpReady less (swap xs (parent i) i) (parent i) := by
  have hp : parent i < i := parent_lt hi
  have hpl : parent i < xs.length := by omega
  have hpp : 0 < parent i → before less xs (parent i) (parent (parent i)) = false := fun h0 =>
    h.except (parent i) h0 (by omega) (by have := parent_lt h0; omega)
  -- a child of the parent other than `i` did not come before the parent
  have hsib : ∀ k, 0 < k → k ≠ i → parent k = parent i → before less xs k (parent i) = false := by
    intro k hk hki hpk
    have := h.except k hk hki (by omega)
    rwa [hpk] at this
  refine ⟨fun k hk hkp => ?_, fun h0 k hk hpk => ?_⟩
  · rw [before_swap hpl hin]
    by_cases hki : k = i
    · subst hki
      simp only [swapped, ↓reduceIte, if_neg (show k ≠ parent k by omega)]
      exact before_asymm weak hb
    · rw [show swapped (parent i) i k = k by simp [swapped, hkp, hki]]
      by_cases hpi : parent k = i
      · rw [show swapped (parent i) i (parent k) = parent i by
          simp only [swapped, hpi, ↓reduceIte, if_neg (show i ≠ parent i by omega)]]
        exact h.grand hi k hk hpi
      · by_cases hpp' : parent k = parent i
        · rw [show swapped (parent i) i (parent k) = i by simp [swapped, hpp']]
          exact before_trans weak hpl (before_asymm weak hb) (hsib k hk hki hpp')
        · rw [show swapped (parent i) i (parent k) = parent k by simp [swapped, hpp', hpi]]
          exact h.except k hk hki hpi
  · have hlt := parent_lt h0
    rw [before_swap hpl hin]
    rw [show swapped (parent i) i (parent (parent i)) = parent (parent i) by
      simp only [swapped, if_neg (show parent (parent i) ≠ parent i by omega),
        if_neg (show parent (parent i) ≠ i by omega)]]
    by_cases hki : k = i
    · rw [show swapped (parent i) i k = parent i by
        simp only [swapped, hki, ↓reduceIte, if_neg (show i ≠ parent i by omega)]]
      exact hpp h0
    · have hkp : k ≠ parent i := by
        have := parent_lt hk
        omega
      rw [show swapped (parent i) i k = k by simp [swapped, hkp, hki]]
      exact before_trans weak hpl (hpp h0) (hsib k hk hki hpk)

theorem siftUp_ordered (weak : WeakOrder less) {n : Nat} {xs : List α} {i : Nat}
    (h : UpReady less xs i) (hin : i < xs.length) (hn : i ≤ n) : Ordered less (siftUp less n xs i) := by
  induction n generalizing xs i with
  | zero =>
    have hi : i = 0 := by omega
    exact h.ordered (by simp [hi])
  | succ n ih =>
    rw [siftUp]
    split
    next hup =>
      have hp := parent_lt hup.1
      exact ih (h.hole.up weak hup.1 hin hup.2) (by rw [swap_length]; omega) (by omega)
    next hstop => exact h.ordered hstop

/-- Exchanging a value with the smaller of its children moves the doubt one level down. -/
theorem DownReady.down (weak : WeakOrder less) {xs : List α} {i c : Nat} (h : DownReady less xs i)
    (hc : 0 < c) (hpc : parent c = i) (hcl : c < xs.length) (hb : before less xs c i = true)
    (hmin : ∀ k, 0 < k → parent k = i → before less xs k c = false) :
    DownReady less (swap xs c i) c := by
  have hlt : i < c := by
    have := parent_lt hc
    omega
  have hil : i < xs.length := by omega
  refine ⟨fun k hk hkp => ?_, fun _ k hk hpk => ?_⟩
  · rw [before_swap hcl hil]
    by_cases hki : k = i
    · subst hki
      have hpk := parent_lt hk
      rw [show swapped c k k = c by simp only [swapped, if_neg (show k ≠ c by omega), ↓reduceIte],
        show swapped c k (parent k) = parent k by
          simp only [swapped, if_neg (show parent k ≠ c by omega), if_neg (show parent k ≠ k by omega)]]
      exact h.grand hk c hc hpc
    · by_cases hpi : parent k = i
      · rw [show swapped c i (parent k) = c by
          simp only [swapped, hpi, if_neg (show i ≠ c by omega), ↓reduceIte]]
        by_cases hkc : k = c
        · rw [show swapped c i k = i by simp [swapped, hkc]]
          exact before_asymm weak hb
        · rw [show swapped c i k = k by simp [swapped, hkc, hki]]
          exact hmin k hk hpi
      · have hkc : k ≠ c := by
          intro hkc
          subst hkc
          exact hpi hpc
        rw [show swapped c i k = k by simp [swapped, hkc, hki],
          show swapped c i (parent k) = parent k by simp [swapped, hkp, hpi]]
        exact h.except k hk hpi
  · have hkc := parent_lt hk
    rw [before_swap hcl hil, hpc]
    rw [show swapped c i k = k by
      simp only [swapped, if_neg (show k ≠ c by omega), if_neg (show k ≠ i by omega)],
      show swapped c i i = c by simp only [swapped, if_neg (show i ≠ c by omega), ↓reduceIte]]
    have := h.except k hk (by omega)
    rwa [hpk] at this

theorem DownReady.ordered {xs : List α} {i : Nat} (h : DownReady less xs i)
    (hc : ∀ k, 0 < k → parent k = i → before less xs k i = false) : Ordered less xs := by
  intro k hk
  by_cases hp : parent k = i
  · rw [hp]
    exact hc k hk hp
  · exact h.except k hk hp

theorem child_cases {i k : Nat} (hk : 0 < k) (hp : parent k = i) : k = 2 * i + 1 ∨ k = 2 * i + 2 := by
  unfold parent at hp
  omega

theorem parent_child (i : Nat) : parent (2 * i + 1) = i ∧ parent (2 * i + 2) = i := by
  unfold parent
  omega

theorem siftDown_ordered (weak : WeakOrder less) {n : Nat} {xs : List α} {i : Nat}
    (h : DownReady less xs i) (hn : xs.length ≤ n + i) : Ordered less (siftDown less n xs i) := by
  induction n generalizing xs i with
  | zero =>
    refine h.ordered fun k hk hp => before_eq_false_of_le (Or.inl ?_)
    have := parent_lt hk
    omega
  | succ n ih =>
    obtain ⟨hpl, hpr⟩ := parent_child i
    rw [siftDown]
    dsimp only
    split
    next hleaf =>
      refine h.ordered fun k hk hp => before_eq_false_of_le (Or.inl ?_)
      rcases child_cases hk hp with rfl | rfl <;> omega
    next hleft =>
      split
      next hright =>
        have hmin : ∀ k, 0 < k → parent k = i → before less xs k (2 * i + 1) = false := by
          intro k hk hp
          rcases child_cases hk hp with rfl | rfl
          · by_contra hne
            have ht : before less xs (2 * i + 1) (2 * i + 1) = true := by simpa using hne
            rw [before_asymm weak ht] at ht
            cases ht
          · exact before_eq_false_of_le (Or.inl hright)
        split
        next hb =>
          have hdown := h.down weak (Nat.succ_pos _) hpl (by omega) hb hmin
          refine hdown.ordered fun k hk hp => before_eq_false_of_le (Or.inl ?_)
          rw [swap_length]
          rcases child_cases hk hp with rfl | rfl <;> omega
        next hb =>
          refine h.ordered fun k hk hp => ?_
          rcases child_cases hk hp with rfl | rfl
          · simpa using hb
          · exact before_eq_false_of_le (Or.inl hright)
      next hright =>
        generalize hc : (if before less xs (2 * i + 1) (2 * i + 2) = true then 2 * i + 1 else 2 * i + 2) = c
        have hchild : c = 2 * i + 1 ∨ c = 2 * i + 2 := by
          rw [← hc]
          split <;> simp
        have hpc : parent c = i := by rcases hchild with rfl | rfl <;> assumption
        have hmin : ∀ k, 0 < k → parent k = i → before less xs k c = false := by
          intro k hk hp
          have hself : before less xs c c = false := by
            by_contra hne
            have ht : before less xs c c = true := by simpa using hne
            rw [before_asymm weak ht] at ht
            cases ht
          by_cases hkc : k = c
          · rw [hkc]
            exact hself
          · rcases child_cases hk hp with rfl | rfl
            · have hnot : ¬ before less xs (2 * i + 1) (2 * i + 2) = true := by
                intro hb
                rw [if_pos hb] at hc
                exact hkc hc
              rw [← hc, if_neg hnot]
              simpa using hnot
            · have hb : before less xs (2 * i + 1) (2 * i + 2) = true := by
                by_contra hnot
                rw [if_neg hnot] at hc
                exact hkc hc
              rw [← hc, if_pos hb]
              exact before_asymm weak hb
        split
        next hb =>
          exact ih (h.down weak (by omega) hpc (by omega) hb hmin) (by rw [swap_length]; omega)
        next hb =>
          refine h.ordered fun k hk hp => ?_
          have hci : before less xs c i = false := by simpa using hb
          exact before_trans weak (by omega) hci (hmin k hk hp)

/-- A value changed in place finds its place by a sift up and a sift down. -/
theorem Hole.sift (weak : WeakOrder less) {n m : Nat} {xs : List α} {i : Nat} (h : Hole less xs i)
    (hin : i < xs.length) (hn : i ≤ n) (hm : xs.length ≤ m + i) :
    Ordered less (siftDown less m (siftUp less n xs i) i) := by
  by_cases hup : 0 < i ∧ before less xs i (parent i) = true
  · obtain ⟨n, rfl⟩ : ∃ k, n = k + 1 := ⟨n - 1, by omega⟩
    rw [siftUp, if_pos hup]
    have hp := parent_lt hup.1
    have hord := siftUp_ordered (n := n) weak (h.up weak hup.1 hin hup.2) (by rw [swap_length]; omega) (by omega)
    refine siftDown_ordered weak (hord.downReady weak i) ?_
    rw [(siftUp_perm _ _ _).length_eq, swap_length]
    exact hm
  · have hstop : siftUp less n xs i = xs := by
      cases n with
      | zero => rfl
      | succ n => rw [siftUp, if_neg hup]
    rw [hstop]
    exact siftDown_ordered weak (h.downReady hup) hm

/-- A heap in which only the value at place `i`, or the order of that value, was changed. -/
theorem Hole.of_ordered {less' : α → α → Bool} (weak : WeakOrder less) {xs ys : List α} {i : Nat}
    (h : Ordered less xs) (hin : i < xs.length)
    (hsame : ∀ k l, k ≠ i → l ≠ i → before less' ys k l = before less xs k l) : Hole less' ys i := by
  refine ⟨fun k hk hki hpi => ?_, fun hi k hk hpk => ?_⟩
  · rw [hsame k (parent k) hki hpi]
    exact h k hk
  · have hlt := parent_lt hk
    have hlt' := parent_lt hi
    rw [hsame k (parent i) (by omega) (by omega)]
    have hki := h k hk
    rw [hpk] at hki
    exact before_trans weak hin (h i hi) hki

theorem UpReady.of_append {xs : List α} (h : Ordered less xs) (x : α) :
    UpReady less (xs ++ [x]) xs.length := by
  refine ⟨fun k hk hkl => ?_, fun _ k hk hpk => ?_⟩
  · have hp := parent_lt hk
    by_cases hlt : k < xs.length
    · have hb := h k hk
      rwa [before_congr (List.getElem?_append_left hlt)
        (List.getElem?_append_left (show parent k < xs.length by omega))]
    · exact before_eq_false_of_le (Or.inl (by rw [List.length_append, List.length_singleton]; omega))
  · have hp := parent_lt hk
    exact before_eq_false_of_le (Or.inl (by rw [List.length_append, List.length_singleton]; omega))

/-- The heap without its top, before the last value sinks from there. -/
def topless (xs : List α) : List α := (swap xs 0 (xs.length - 1)).dropLast

theorem topless_perm {x : α} {xs : List α} : (topless (x :: xs)).Perm xs := by
  have hlen : (swap (x :: xs) 0 ((x :: xs).length - 1)).length = xs.length + 1 := by simp
  have hlast : (swap (x :: xs) 0 ((x :: xs).length - 1))[xs.length]? = some x := by
    rw [getElem?_swap (by simp) (by simp)]
    by_cases h0 : xs.length = 0 <;> simp [swapped, h0]
  have hsplit : swap (x :: xs) 0 ((x :: xs).length - 1) = topless (x :: xs) ++ [x] := by
    have hne : swap (x :: xs) 0 ((x :: xs).length - 1) ≠ [] := by
      intro hn
      rw [hn] at hlen
      simp at hlen
    have hx : (swap (x :: xs) 0 ((x :: xs).length - 1)).getLast hne = x := by
      rw [List.getLast_eq_getElem]
      have := List.getElem?_eq_some_iff.mp hlast
      obtain ⟨hb, he⟩ := this
      simpa [hlen] using he
    rw [topless]
    conv => lhs; rw [← List.dropLast_append_getLast hne, hx]
  have hperm := swap_perm (x :: xs) 0 ((x :: xs).length - 1)
  rw [hsplit] at hperm
  exact (List.perm_cons x).mp ((List.perm_append_singleton x _).symm.trans hperm)

theorem DownReady.of_topless {xs : List α} (h : Ordered less xs) : DownReady less (topless xs) 0 := by
  refine ⟨fun k hk hp => ?_, fun h0 => absurd h0 (Nat.lt_irrefl 0)⟩
  have hlt := parent_lt hk
  by_cases hin : k < xs.length - 1
  · have hget : ∀ j, 0 < j → j < xs.length - 1 → (topless xs)[j]? = xs[j]? := by
      intro j hj hjl
      rw [topless, List.getElem?_dropLast, swap_length, if_pos hjl,
        getElem?_swap (by omega) (by omega)]
      simp only [swapped, if_neg (show j ≠ 0 by omega), if_neg (show j ≠ xs.length - 1 by omega)]
    rw [before_congr (hget k hk hin) (hget (parent k) (by omega) (by omega))]
    exact h k hk
  · exact before_eq_false_of_le (Or.inl (by simp [topless]; omega))

/-- The value at the top comes after no other. -/
theorem Ordered.top (weak : WeakOrder less) {xs : List α} (h : Ordered less xs) (k : Nat) :
    before less xs k 0 = false := by
  induction k using Nat.strongRecOn with
  | ind k ih =>
    rcases Nat.eq_zero_or_pos k with rfl | hk
    · by_contra hne
      have ht : before less xs 0 0 = true := by simpa using hne
      rw [before_asymm weak ht] at ht
      cases ht
    · have hp := parent_lt hk
      by_cases hin : k < xs.length
      · exact before_trans weak (by omega) (ih (parent k) hp) (h k hk)
      · exact before_eq_false_of_le (Or.inl (by omega))

end LevelHeap
