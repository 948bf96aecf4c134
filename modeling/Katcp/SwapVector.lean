import Mathlib.Data.List.Nodup

namespace SwapVector

variable {α : Type*}

/-- Take the element at `i` out of a vector: the last one moves into its place. -/
def removeAt (xs : List α) (i : Nat) : List α :=
  match xs.getLast? with
  | none => []
  | some x => (xs.set i x).dropLast

theorem removeAt_length (xs : List α) (i : Nat) : (removeAt xs i).length = xs.length - 1 := by
  unfold removeAt
  cases hl : xs.getLast? with
  | none => simp [List.getLast?_eq_none_iff.mp hl]
  | some x => simp

theorem getElem?_removeAt {xs : List α} {i : Nat} (hi : i < xs.length) (j : Nat) :
    (removeAt xs i)[j]? = if j + 1 < xs.length then (if j = i then xs.getLast? else xs[j]?) else none := by
  unfold removeAt
  cases hl : xs.getLast? with
  | none => simp [List.getLast?_eq_none_iff.mp hl] at hi
  | some x =>
    rw [List.getElem?_dropLast, List.length_set]
    by_cases hj : j + 1 < xs.length
    · rw [if_pos (by omega), if_pos hj, List.getElem?_set]
      by_cases hji : j = i
      · subst hji
        simp [hi]
      · simp [hji, Ne.symm hji]
    · rw [if_neg (by omega), if_neg hj]

theorem removeAt_perm {xs : List α} {i : Nat} {x : α} (hx : xs[i]? = some x) :
    (x :: removeAt xs i).Perm xs := by
  rcases List.eq_nil_or_concat xs with rfl | ⟨ys, y, rfl⟩
  · cases hx
  · rw [List.concat_eq_append] at hx ⊢
    obtain ⟨hi, rfl⟩ := List.getElem?_eq_some_iff.mp hx
    have hswap := List.set_set_perm hi (show ys.length < (ys ++ [y]).length by simp)
    have hlast : (ys ++ [y]).getLast? = some y := by simp
    rw [removeAt, hlast]
    dsimp only
    by_cases hlt : i < ys.length
    · have hend : ∀ x, (ys.set i y ++ [y]).set ys.length x = ys.set i y ++ [x] := by
        intro x
        simp
      simp only [List.getElem_concat_length, List.set_append_left _ _ hlt, hend] at hswap
      rw [List.set_append_left _ _ hlt, List.dropLast_concat]
      exact (List.perm_append_singleton _ _).symm.trans hswap
    · have he : i = ys.length := by
        rw [List.length_append, List.length_singleton] at hi
        omega
      subst he
      simp only [List.getElem_concat_length, List.set_append_right _ _ (Nat.le_refl _), Nat.sub_self,
        List.set_cons_zero, List.dropLast_concat]
      exact (List.perm_append_singleton _ _).symm

theorem removeAt_nodup {xs : List α} {i : Nat} {x : α} (h : xs.Nodup) (hx : xs[i]? = some x) :
    (removeAt xs i).Nodup :=
  (List.nodup_cons.mp ((removeAt_perm hx).nodup_iff.mpr h)).2

theorem mem_removeAt_iff {xs : List α} {i : Nat} {x : α} (h : xs.Nodup) (hx : xs[i]? = some x) (y : α) :
    y ∈ removeAt xs i ↔ y ∈ xs ∧ y ≠ x := by
  have hperm := removeAt_perm hx
  have hnodup := hperm.nodup_iff.mpr h
  rw [← hperm.mem_iff, List.mem_cons]
  constructor
  · intro hy
    exact ⟨Or.inr hy, fun he => (List.nodup_cons.mp hnodup).1 (he ▸ hy)⟩
  · rintro ⟨rfl | hy, hne⟩
    · exact absurd rfl hne
    · exact hy

/-- Every element knows its position. -/
def Indexed (index : α → Nat) (xs : List α) : Prop := ∀ j x, xs[j]? = some x → index x = j

theorem Indexed.nodup {index : α → Nat} {xs : List α} (h : Indexed index xs) : xs.Nodup := by
  refine List.Nodup.of_map index ?_
  have hmap : xs.map index = List.range xs.length := by
    apply List.ext_getElem
    · simp
    · intro j hj _
      rw [List.length_map] at hj
      rw [List.getElem_map, List.getElem_range]
      exact h j xs[j] (List.getElem?_eq_getElem hj)
  rw [hmap]
  exact List.nodup_range

theorem mem_removeAt {index : α → Nat} {xs : List α} {i : Nat} {x : α} (h : Indexed index xs)
    (hx : xs[i]? = some x) (y : α) : y ∈ removeAt xs i ↔ y ∈ xs ∧ y ≠ x :=
  mem_removeAt_iff h.nodup hx y

/-- A removal where the element moved into the gap may keep something of the one before it. -/
def fillAt (move : α → α → α) (xs : List α) (i : Nat) (x : α) : List α :=
  match xs.getLast? with
  | none => []
  | some y => (xs.set i (move x y)).dropLast

/-- A pass that takes out every element that meets `p`; the same place is looked at again after
a removal. -/
def purge (move : α → α → α) (p : α → Bool) : Nat → List α → Nat → List α
  | 0, xs, _ => xs
  | n + 1, xs, i =>
    match xs[i]? with
    | none => xs
    | some x => if p x then purge move p n (fillAt move xs i x) i else purge move p n xs (i + 1)

def compact (move : α → α → α) (p : α → Bool) (xs : List α) : List α := purge move p xs.length xs 0

section Compact

variable {β : Type*} {move : α → α → α} {p : α → Bool} {f : α → β} {q : β → Bool} {xs : List α}

theorem removeAt_map (f : α → β) (xs : List α) (i : Nat) :
    (removeAt xs i).map f = removeAt (xs.map f) i := by
  unfold removeAt
  rw [List.getLast?_map]
  cases xs.getLast? with
  | none => rfl
  | some y => simp [List.map_dropLast, List.map_set]

theorem fillAt_map (hf : ∀ a b, f (move a b) = f b) (xs : List α) (i : Nat) (x : α) :
    (fillAt move xs i x).map f = removeAt (xs.map f) i := by
  unfold fillAt removeAt
  rw [List.getLast?_map]
  cases hl : xs.getLast? with
  | none => rfl
  | some y => simp [List.map_dropLast, List.map_set, hf]

theorem getElem?_fillAt_lt {i j : Nat} {x : α} (hj : j < i) (hi : i < xs.length) :
    (fillAt move xs i x)[j]? = xs[j]? := by
  unfold fillAt
  cases hl : xs.getLast? with
  | none => simp [List.getLast?_eq_none_iff.mp hl] at hi
  | some y =>
    rw [List.getElem?_dropLast, List.length_set, if_pos (by omega), List.getElem?_set_ne (by omega)]

theorem map_perm_of_kept {i : Nat} (hq : ∀ x, p x = q (f x)) (hlen : xs.length ≤ i)
    (hkept : ∀ (j : Nat) x, j < i → xs[j]? = some x → p x = false) :
    (xs.map f).Perm ((xs.map f).filter fun y => !q y) := by
  have hall : (xs.map f).filter (fun y => !q y) = xs.map f := by
    apply List.filter_eq_self.mpr
    intro y hy
    obtain ⟨x, hx, rfl⟩ := List.mem_map.mp hy
    obtain ⟨j, hj⟩ := List.getElem?_of_mem hx
    obtain ⟨hlt, _⟩ := List.getElem?_eq_some_iff.mp hj
    simp [← hq, hkept j x (by omega) hj]
  rw [hall]

theorem purge_perm (hf : ∀ a b, f (move a b) = f b) (hq : ∀ x, p x = q (f x)) {n i : Nat}
    (hn : xs.length ≤ n + i) (hkept : ∀ (j : Nat) x, j < i → xs[j]? = some x → p x = false) :
    ((purge move p n xs i).map f).Perm ((xs.map f).filter fun y => !q y) := by
  induction n generalizing xs i with
  | zero =>
    rw [purge]
    exact map_perm_of_kept hq (by omega) hkept
  | succ n ih =>
    rw [purge]
    split
    next hnone => exact map_perm_of_kept hq (List.getElem?_eq_none_iff.mp hnone) hkept
    next x hx =>
      obtain ⟨hi, _⟩ := List.getElem?_eq_some_iff.mp hx
      split
      next hp =>
        have hshrink : (fillAt move xs i x).length = xs.length - 1 := by
          have := congrArg List.length (fillAt_map hf xs i x)
          simpa [removeAt_length] using this
        have hrest := @ih (fillAt move xs i x) i (by omega) (by
          intro j y hj hy
          rw [getElem?_fillAt_lt hj hi] at hy
          exact hkept j y hj hy)
        refine hrest.trans ?_
        have hmap : (xs.map f)[i]? = some (f x) := by rw [List.getElem?_map, hx, Option.map_some]
        have hperm := (removeAt_perm hmap).filter fun y => !q y
        rw [List.filter_cons_of_neg (by simp [← hq, hp])] at hperm
        rwa [fillAt_map hf]
      next hp =>
        apply ih (by omega)
        intro j y hj hy
        by_cases hji : j = i
        · subst hji
          rw [hx] at hy
          cases hy
          simpa using hp
        · exact hkept j y (by omega) hy

/-- What a pass leaves is what it does not take out, in some order. -/
theorem compact_perm (hf : ∀ a b, f (move a b) = f b) (hq : ∀ x, p x = q (f x)) (xs : List α) :
    ((compact move p xs).map f).Perm ((xs.map f).filter fun y => !q y) :=
  purge_perm hf hq (Nat.le_refl _) (by omega)

/-- What a pass leaves of a vector: in the places that are left, what is not taken out stays where it
is, and what was behind them fills the gaps, the last one first. -/
structure Packed (p : α → Bool) (f : α → β) (xs ys : List α) : Prop where
  length : ys.length = (xs.filter fun x => !p x).length
  stays : ∀ (j : Nat) x, j < ys.length → xs[j]? = some x → p x = false → ys[j]? = some x
  fills : ((xs.zip ys).filter fun c => p c.1).map (fun c => f c.2) =
    ((xs.drop ys.length).filter fun x => !p x).reverse.map f

theorem zip_concat_of_length_le (xs : List α) (y : α) {zs : List β} (h : zs.length ≤ xs.length) :
    (xs ++ [y]).zip zs = xs.zip zs := by
  induction xs generalizing zs with
  | nil => rw [List.length_eq_zero_iff.mp (Nat.le_zero.mp h), List.zip_nil_right, List.zip_nil_right]
  | cons x xs ih =>
    cases zs with
    | nil => rfl
    | cons z zs => rw [List.cons_append, List.zip_cons_cons, List.zip_cons_cons, ih (Nat.le_of_succ_le_succ h)]

variable {x y : α} {ys : List α}

theorem Packed.le (h : Packed p f xs ys) : ys.length ≤ xs.length :=
  h.length ▸ List.length_filter_le _ _

theorem Packed.eq_of_none (h : Packed p f xs ys) (hnone : ∀ x ∈ xs, p x = false) : ys = xs := by
  have hlen : ys.length = xs.length := by
    rw [h.length, List.filter_eq_self.mpr (by simpa using hnone)]
  apply List.ext_getElem hlen
  intro j hj hx
  have hstay := h.stays j xs[j] hj (List.getElem?_eq_getElem hx) (hnone _ (List.getElem_mem hx))
  exact (List.getElem?_eq_some_iff.mp hstay).2

theorem Packed.nil (p : α → Bool) (f : α → β) : Packed p f [] [] := ⟨rfl, by simp, rfl⟩

theorem Packed.last (f : α → β) (hp : p x = true) : Packed p f [x] [] := ⟨by simp [hp], by simp, by simp [hp]⟩

theorem Packed.keep (h : Packed p f xs ys) (hp : p x = false) : Packed p f (x :: xs) (x :: ys) where
  length := by simp [hp, h.length]
  stays j z hj hz hpz := by
    cases j with
    | zero => exact hz
    | succ j => exact h.stays j z (Nat.lt_of_succ_lt_succ hj) hz hpz
  fills := by simp [hp, h.fills]

theorem Packed.fill (h : Packed p f (move x y :: xs) ys) (hf : f (move x y) = f y)
    (hpm : p (move x y) = p y) (hp : p x = true) : Packed p f (x :: (xs ++ [y])) ys where
  length := by
    rw [h.length]
    cases hy : p y <;> simp [hp, hpm, hy]
  stays j z hj hz hpz := by
    have hle := h.le
    cases j with
    | zero =>
      cases hz
      rw [hp] at hpz
      cases hpz
    | succ j =>
      rw [List.length_cons] at hle
      rw [List.getElem?_cons_succ, List.getElem?_append_left (by omega)] at hz
      exact h.stays (j + 1) z hj hz hpz
  fills := by
    have hle := h.le
    have hfills := h.fills
    cases ys with
    | nil =>
      have hnone := List.length_eq_zero_iff.mp h.length.symm
      cases hy : p y with
      | false => simp [hpm, hy] at hnone
      | true => simpa [hpm, hy, hp] using hnone
    | cons z zs =>
      have hzs : zs.length ≤ xs.length := Nat.le_of_succ_le_succ hle
      rw [List.zip_cons_cons, zip_concat_of_length_le xs y hzs, List.filter_cons, if_pos hp, List.map_cons,
        List.length_cons, List.drop_succ_cons, List.drop_append_of_le_length hzs, List.filter_append,
        List.reverse_append, List.map_append]
      rw [List.zip_cons_cons, List.length_cons, List.drop_succ_cons] at hfills
      cases hy : p y with
      | true =>
        rw [List.filter_cons, if_pos (hpm.trans hy), List.map_cons] at hfills
        simpa [hy] using hfills
      | false =>
        have hz := h.stays 0 (move x y) (Nat.zero_lt_succ _) rfl (hpm.trans hy)
        cases hz
        rw [List.filter_cons, if_neg (by simp [hpm, hy])] at hfills
        simp [hy, hf, hfills]

theorem purge_packed (hf : ∀ a b, f (move a b) = f b) (hp : ∀ a b, p (move a b) = p b) {n : Nat}
    (front : List α) {back : List α} (hn : back.length ≤ n) :
    ∃ ys, purge move p n (front ++ back) front.length = front ++ ys ∧ Packed p f back ys := by
  induction n generalizing front back with
  | zero =>
    rw [List.length_eq_zero_iff.mp (Nat.le_zero.mp hn)]
    exact ⟨[], rfl, .nil p f⟩
  | succ n ih =>
    cases back with
    | nil => exact ⟨[], by rw [purge, List.append_nil, List.getElem?_length], .nil p f⟩
    | cons x rest =>
      have hx : (front ++ x :: rest)[front.length]? = some x := by simp
      simp only [purge, hx]
      cases hpx : p x with
      | false =>
        obtain ⟨ys, hys, hpacked⟩ := ih (front ++ [x]) (Nat.le_of_succ_le_succ hn)
        refine ⟨x :: ys, ?_, hpacked.keep hpx⟩
        simpa using hys
      | true =>
        rcases List.eq_nil_or_concat rest with rfl | ⟨mid, y, rfl⟩
        · obtain ⟨ys, hys, hpacked⟩ := @ih front [] (Nat.zero_le n)
          cases List.length_eq_zero_iff.mp (Nat.le_zero.mp hpacked.le)
          exact ⟨[], by simpa [fillAt] using hys, .last f hpx⟩
        · rw [List.concat_eq_append] at hn ⊢
          have hlast : (front ++ x :: (mid ++ [y])).getLast? = some y := by
            rw [← List.cons_append, ← List.append_assoc, List.getLast?_concat]
          have hset : fillAt move (front ++ x :: (mid ++ [y])) front.length x = front ++ move x y :: mid := by
            rw [fillAt, hlast]
            dsimp only
            rw [List.set_append_right _ _ (Nat.le_refl _), Nat.sub_self, List.set_cons_zero,
              ← List.cons_append, ← List.append_assoc, List.dropLast_concat]
          obtain ⟨ys, hys, hpacked⟩ := @ih front (move x y :: mid) (by simpa using hn)
          exact ⟨ys, by simpa [hset] using hys, hpacked.fill (hf x y) (hp x y) hpx⟩

theorem compact_packed (hf : ∀ a b, f (move a b) = f b) (hp : ∀ a b, p (move a b) = p b) (xs : List α) :
    Packed p f xs (compact move p xs) := by
  obtain ⟨ys, hys, hpacked⟩ := purge_packed hf hp [] (Nat.le_refl xs.length)
  rw [compact, show purge move p xs.length xs 0 = ys from hys]
  exact hpacked

end Compact

end SwapVector
