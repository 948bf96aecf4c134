import Mathlib.Data.List.Basic

/-! Lists that are linked by a pointer in each of their cells. -/

namespace LinkedPath

variable {α : Type*} {next next' : α → Option α} {a b c : Option α} {xs ys : List α} {x : α}

/-- The cells between a pointer and another one that is reached from it. -/
def Path (next : α → Option α) : Option α → List α → Option α → Prop
  | a, [], b => a = b
  | a, x :: xs, b => a = some x ∧ Path next (next x) xs b

theorem path_append : Path next a (xs ++ ys) b ↔ ∃ c, Path next a xs c ∧ Path next c ys b := by
  induction xs generalizing a with
  | nil =>
    constructor
    · exact fun h => ⟨a, rfl, h⟩
    · rintro ⟨c, rfl, h⟩
      exact h
  | cons x xs ih =>
    constructor
    · rintro ⟨ha, h⟩
      obtain ⟨c, h1, h2⟩ := ih.mp h
      exact ⟨c, ⟨ha, h1⟩, h2⟩
    · rintro ⟨c, ⟨ha, h1⟩, h2⟩
      exact ⟨ha, ih.mpr ⟨c, h1, h2⟩⟩

theorem Path.congr (h : Path next a xs b) (hn : ∀ x ∈ xs, next' x = next x) : Path next' a xs b := by
  induction xs generalizing a with
  | nil => exact h
  | cons x xs ih =>
    obtain ⟨ha, h⟩ := h
    refine ⟨ha, ih ?_ fun y hy => hn y (List.mem_cons_of_mem x hy)⟩
    rwa [hn x (List.mem_cons_self ..)]

/-- The first cell of a list that ends. -/
theorem Path.head? (h : Path next a xs none) : xs.head? = a := by
  cases xs with
  | nil => exact h.symm
  | cons x xs => exact h.1.symm

/-- The last cell of a path is led elsewhere. -/
theorem Path.relink (h : Path next a (xs ++ [x]) b) (hother : ∀ y ∈ xs, next' y = next y)
    (hnew : next' x = c) : Path next' a (xs ++ [x]) c := by
  obtain ⟨d, h1, h2⟩ := path_append.mp h
  exact path_append.mpr ⟨d, h1.congr hother, h2.1, hnew⟩

end LinkedPath
