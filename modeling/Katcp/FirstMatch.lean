import Mathlib.Data.List.Basic

namespace FirstMatch

variable {α β : Type*} (p : α → Bool) (f : α → α) (new : α)

/-- The first entry that is meant changes; where there is none, a new one is put at the end. -/
def onFirst : List α → List α
  | [] => [new]
  | x :: rest => if p x then f x :: rest else x :: onFirst rest

variable {p f new} {q : α → Bool} {P : α → Prop} {l : List α} {x : α}

theorem find_onFirst (hf : ∀ x, p x = true → p (f x) = true) (hnew : p new = true) :
    (onFirst p f new l).find? p = some ((l.find? p).elim new f) := by
  induction l with
  | nil =>
    rw [onFirst, List.find?_cons_of_pos hnew]
    rfl
  | cons x l ih =>
    rw [onFirst]
    split
    next hx => rw [List.find?_cons_of_pos (hf x hx), List.find?_cons_of_pos hx, Option.elim_some]
    next hx => rw [List.find?_cons_of_neg hx, List.find?_cons_of_neg hx, ih]

/-- A search that looks at something else finds what it found. -/
theorem find_onFirst_other (hq : ∀ x, p x = true → q x = false) (hf : ∀ x, p x = true → p (f x) = true)
    (hnew : p new = true) : (onFirst p f new l).find? q = l.find? q := by
  have hnot : ∀ x, p x = true → ¬ q x = true := fun x hx => Bool.eq_false_iff.mp (hq x hx)
  induction l with
  | nil =>
    rw [onFirst, List.find?_cons_of_neg (hnot new hnew)]
  | cons x l ih =>
    rw [onFirst]
    split
    next hx => rw [List.find?_cons_of_neg (hnot _ (hf x hx)), List.find?_cons_of_neg (hnot x hx)]
    next hx =>
      rw [List.find?_cons, List.find?_cons, ih]

theorem onFirst_perm : (onFirst p f new l).Perm ((l.find? p).elim new f :: l.eraseP p) := by
  induction l with
  | nil => exact .refl _
  | cons x l ih =>
    rw [onFirst]
    split
    next hx =>
      rw [List.find?_cons_of_pos hx, List.eraseP_cons_of_pos hx]
      exact .refl _
    next hx =>
      rw [List.find?_cons_of_neg hx, List.eraseP_cons_of_neg hx]
      exact (ih.cons x).trans (.swap ..)

theorem perm_first (hx : l.find? p = some x) : l.Perm (x :: l.eraseP p) := by
  induction l with
  | nil => cases hx
  | cons y l ih =>
    by_cases hy : p y = true
    · rw [List.find?_cons_of_pos hy] at hx
      cases hx
      rw [List.eraseP_cons_of_pos hy]
    · rw [List.find?_cons_of_neg hy] at hx
      rw [List.eraseP_cons_of_neg hy]
      exact ((ih hx).cons y).trans (.swap ..)

/-- What holds of all entries after the change, if the new one does not have it. -/
theorem forall_onFirst_iff (hnew : ¬ P new) :
    (∀ y ∈ onFirst p f new l, P y) ↔ ∃ x, l.find? p = some x ∧ P (f x) ∧ ∀ y ∈ l.eraseP p, P y := by
  have hmem : (∀ y ∈ onFirst p f new l, P y) ↔ P ((l.find? p).elim new f) ∧ ∀ y ∈ l.eraseP p, P y := by
    rw [← List.forall_mem_cons]
    exact ⟨fun h y hy => h y (onFirst_perm.mem_iff.mpr hy), fun h y hy => h y (onFirst_perm.mem_iff.mp hy)⟩
  rw [hmem]
  cases l.find? p with
  | none => simp [hnew]
  | some x => simp

/-- What the change leaves alone, of all entries. -/
theorem map_onFirst {g : α → β} (hf : ∀ x, g (f x) = g x) :
    (onFirst p f new l).map g = if l.any p then l.map g else l.map g ++ [g new] := by
  induction l with
  | nil => rfl
  | cons x l ih =>
    rw [onFirst, List.any_cons]
    split
    next hx => rw [hx, Bool.true_or, if_pos rfl, List.map_cons, hf, List.map_cons]
    next hx =>
      rw [Bool.eq_false_iff.mpr hx, Bool.false_or, List.map_cons, ih]
      split <;> rfl

end FirstMatch
