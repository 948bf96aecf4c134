import Mathlib.Data.List.Basic
import Mathlib.Order.Compare

/-- Keys with what is stored under each, in the order of a comparison. -/
abbrev KeyedList (κ α : Type*) := List (κ × α)

namespace KeyedList

variable {κ α : Type*} (cmp : κ → κ → Ordering)

def find (k : κ) : KeyedList κ α → Option α
  | [] => none
  | e :: es => if cmp k e.1 = .eq then some e.2 else find k es

def put (k : κ) (v : α) : KeyedList κ α → KeyedList κ α
  | [] => [(k, v)]
  | e :: es => match cmp k e.1 with
    | .lt => (k, v) :: e :: es
    | .eq => (e.1, v) :: es
    | .gt => e :: put k v es

def erase (k : κ) (es : KeyedList κ α) : KeyedList κ α := es.filter fun e => cmp k e.1 ≠ .eq

variable {cmp} {k k' : κ} {v : α} {es : KeyedList κ α}

theorem find_erase_self : find cmp k (erase cmp k es) = none := by
  induction es with
  | nil => rfl
  | cons e es ih =>
    rw [erase, List.filter_cons]
    split
    next h =>
      rw [find, if_neg (by simpa using h)]
      exact ih
    next => exact ih

variable [Std.LawfulEqCmp cmp]

theorem find_put_self : find cmp k (put cmp k v es) = some v := by
  induction es with
  | nil => simp [put, find, Std.ReflCmp.compare_self]
  | cons e es ih =>
    rw [put]
    split
    next => simp [find, Std.ReflCmp.compare_self]
    next h => simp [find, h]
    next h => simp [find, h, ih]

theorem compare_ne_eq (hne : k' ≠ k) : cmp k' k ≠ .eq :=
  fun h => hne (Std.LawfulEqCmp.eq_of_compare h)

theorem find_put_of_ne (hne : k' ≠ k) : find cmp k' (put cmp k v es) = find cmp k' es := by
  have hk : cmp k' k ≠ .eq := compare_ne_eq hne
  induction es with
  | nil => simp [put, find, hk]
  | cons e es ih =>
    rw [put]
    split
    next => simp [find, hk]
    next h =>
      have he : cmp k' e.1 ≠ .eq := Std.LawfulEqCmp.eq_of_compare h ▸ hk
      simp [find, he]
    next => simp [find, ih]

theorem find_erase_of_ne (hne : k' ≠ k) : find cmp k' (erase cmp k es) = find cmp k' es := by
  induction es with
  | nil => rfl
  | cons e es ih =>
    rw [erase, List.filter_cons]
    split
    next =>
      rw [find, find]
      split
      next => rfl
      next => exact ih
    next h =>
      have he : cmp k e.1 = .eq := by simpa using h
      have hk : cmp k' e.1 ≠ .eq := Std.LawfulEqCmp.eq_of_compare he ▸ compare_ne_eq hne
      rw [find, if_neg hk]
      exact ih

theorem mem_put {e : κ × α} (h : e ∈ put cmp k v es) : e = (k, v) ∨ e ∈ es := by
  induction es with
  | nil => exact Or.inl (List.mem_singleton.mp h)
  | cons x es ih =>
    rw [put] at h
    split at h
    next => exact List.mem_cons.mp h
    next hx =>
      rcases List.mem_cons.mp h with rfl | h
      · exact Or.inl (by rw [Std.LawfulEqCmp.eq_of_compare hx])
      · exact Or.inr (List.mem_cons_of_mem _ h)
    next =>
      rcases List.mem_cons.mp h with rfl | h
      · exact Or.inr List.mem_cons_self
      · exact (ih h).imp id (List.mem_cons_of_mem _)

theorem mem_of_find (h : find cmp k es = some v) : (k, v) ∈ es := by
  induction es with
  | nil => cases h
  | cons e es ih =>
    rw [find] at h
    split at h
    next heq =>
      cases h
      rw [Std.LawfulEqCmp.eq_of_compare heq]
      exact List.mem_cons_self
    next => exact List.mem_cons_of_mem _ (ih h)

variable [Std.TransCmp cmp]

/-- Keys that are in order stay so. -/
theorem put_ascending (h : es.Pairwise fun a b => cmp a.1 b.1 = .lt) :
    (put cmp k v es).Pairwise fun a b => cmp a.1 b.1 = .lt := by
  induction es with
  | nil => exact List.pairwise_singleton ..
  | cons e es ih =>
    obtain ⟨hhead, htail⟩ := List.pairwise_cons.mp h
    rw [put]
    split
    next hlt =>
      refine List.pairwise_cons.mpr ⟨fun x hx => ?_, h⟩
      rcases List.mem_cons.mp hx with rfl | hx
      · exact hlt
      · exact Std.TransCmp.lt_trans hlt (hhead x hx)
    next => exact List.pairwise_cons.mpr ⟨hhead, htail⟩
    next hgt =>
      refine List.pairwise_cons.mpr ⟨fun x hx => ?_, ih htail⟩
      rcases mem_put hx with rfl | hx
      · exact Std.OrientedCmp.gt_iff_lt.mp hgt
      · exact hhead x hx

/-- What is stored under a key can be put there again, where the keys are in order. -/
theorem put_of_find (h : es.Pairwise fun a b => cmp a.1 b.1 = .lt) (hfind : find cmp k es = some v) :
    put cmp k v es = es := by
  induction es with
  | nil => cases hfind
  | cons e es ih =>
    obtain ⟨hhead, htail⟩ := List.pairwise_cons.mp h
    rw [find] at hfind
    rw [put]
    split at hfind
    next heq =>
      cases hfind
      rw [heq]
    next =>
      have hgt : cmp k e.1 = .gt := Std.OrientedCmp.gt_iff_lt.mpr (hhead _ (mem_of_find hfind))
      rw [hgt]
      dsimp only
      rw [ih htail hfind]

end KeyedList
