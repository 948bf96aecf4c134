import Mathlib.Data.List.Basic

/-- A text with the places where it is cut into arguments. -/
abbrev CutText (α : Type*) := List (Option α)

namespace CutText

variable {α : Type*}

/-- The arguments that a text is cut into. -/
def pieces : CutText α → List (List α)
  | [] => [[]]
  | none :: marks => [] :: pieces marks
  | some c :: marks => match pieces marks with
    | [] => [[c]]
    | a :: as => (c :: a) :: as

/-- The text without its cuts. -/
def content (marks : CutText α) : List α := marks.filterMap id

variable {marks : CutText α}

theorem pieces_cons (marks : CutText α) : ∃ a as, pieces marks = a :: as := by
  cases marks with
  | nil => exact ⟨_, _, rfl⟩
  | cons mark marks =>
    cases mark with
    | none => exact ⟨_, _, rfl⟩
    | some c =>
      rw [pieces]
      split
      · exact ⟨_, _, rfl⟩
      · exact ⟨_, _, rfl⟩

theorem pieces_some {c : α} {a : List α} {as : List (List α)} (h : pieces marks = a :: as) :
    pieces (some c :: marks) = (c :: a) :: as := by
  rw [pieces, h]

theorem pieces_text (t : List α) {a : List α} {as : List (List α)} (h : pieces marks = a :: as) :
    pieces (t.map some ++ marks) = (t ++ a) :: as := by
  induction t with
  | nil => exact h
  | cons c t ih => exact pieces_some ih

/-- Character `j` of argument `i` of `str` is where the text `marks` begins. -/
def At (str : List (List α)) (i j : Nat) (marks : CutText α) : Prop :=
  ∃ read a as, str.drop i = (read ++ a) :: as ∧ read.length = j ∧ pieces marks = a :: as

variable {str : List (List α)} {i j : Nat}

theorem At.past {c : α} (h : At str i j (some c :: marks)) : At str i (j + 1) marks := by
  obtain ⟨read, a, as, hstr, hlen, hpieces⟩ := h
  obtain ⟨b, bs, hb⟩ := pieces_cons marks
  rw [pieces_some hb] at hpieces
  cases hpieces
  exact ⟨read ++ [c], b, as, by simpa using hstr, by simpa using hlen, hb⟩

theorem At.next (h : At str i j (none :: marks)) : At str (i + 1) 0 marks := by
  obtain ⟨read, a, as, hstr, hlen, hpieces⟩ := h
  cases hpieces
  obtain ⟨b, bs, hb⟩ := pieces_cons marks
  refine ⟨[], b, bs, ?_, rfl, hb⟩
  rw [← List.drop_drop, hstr, List.drop_one, List.tail_cons, hb, List.nil_append]

theorem At.text {t : List α} (h : At str i j (t.map some ++ marks)) :
    At str i (j + t.length) marks := by
  induction t generalizing j with
  | nil => exact h
  | cons c t ih =>
    have hlen : j + (c :: t).length = j + 1 + t.length := by
      rw [List.length_cons]
      omega
    rw [hlen]
    exact ih h.past

/-- What stands from there up to the next cut. -/
theorem At.rest (h : At str i j marks) {a : List α} {as : List (List α)}
    (hpieces : pieces marks = a :: as) : (str[i]?.getD []).drop j = a := by
  obtain ⟨read, b, bs, hstr, hlen, hb⟩ := h
  cases hpieces.symm.trans hb
  have hget : str[i]? = some (read ++ a) := by
    rw [← List.head?_drop, hstr, List.head?_cons]
  rw [hget, Option.getD_some, ← hlen, List.drop_left]

theorem At.whole (h : At str i 0 marks) {a : List α} {as : List (List α)}
    (hpieces : pieces marks = a :: as) : str[i]?.getD [] = a := by
  have := h.rest hpieces
  rwa [List.drop_zero] at this

theorem at_start (name : List α) (marks : CutText α) : At (name :: pieces marks) 1 0 marks := by
  obtain ⟨a, as, h⟩ := pieces_cons marks
  exact ⟨[], a, as, by simpa using h, rfl, h⟩

end CutText
