import Katcp.AvlInsert
import Katcp.SortedVector

namespace Katcp

open SortedVector

section

variable {β : Type} {nameOf : β → Text} {ts : List β} {str n : Text} {t : β} {i : Nat}

/-- How a name compares with that of the entry at an index of a vector. -/
def probeBy (nameOf : β → Text) (ts : List (Option β)) (str : Text) (i : Nat) : Option Ordering :=
  ts[i]?.join.map fun t => strcmp str (nameOf t)

/-- The entries of a vector are in the order of their names, with no name twice. -/
def NameSorted (nameOf : β → Text) (ts : List β) : Prop := ts.Pairwise fun t u => KeyLt (nameOf t) (nameOf u)

/-- The entry with a name. -/
def entryBy (nameOf : β → Text) (ts : List β) (str : Text) : Option β := ts.find? (nameOf · = str)

theorem probeBy_of_get (h : ts[i]? = some t) : probeBy nameOf (ts.map some) str i = some (strcmp str (nameOf t)) := by
  rw [probeBy, List.getElem?_map, h]
  rfl

theorem NameSorted.aimed (h : NameSorted nameOf ts) (str : Text) :
    Aimed (probeBy nameOf (ts.map some) str) ts.length where
  probed i hi := by
    rw [probeBy_of_get (List.getElem?_eq_getElem hi)]
    rfl
  rises i j hij hj hne := by
    have hi : i < ts.length := by omega
    have hlt := List.pairwise_iff_getElem.mp h i j hi hj hij
    rw [probeBy_of_get (List.getElem?_eq_getElem hi)] at hne
    rw [probeBy_of_get (List.getElem?_eq_getElem hj)]
    cases ho : strcmp str (nameOf ts[i]) with
    | gt => exact absurd (congrArg some ho) hne
    | eq =>
      rw [eq_of_strcmp ho]
      exact congrArg some hlt
    | lt => exact congrArg some (KeyLt.trans ho hlt)

theorem name_of_probe (hi : i < ts.length) (h : probeBy nameOf (ts.map some) str i = some .eq) :
    nameOf ts[i] = str := by
  rw [probeBy_of_get (List.getElem?_eq_getElem hi)] at h
  exact (eq_of_strcmp (Option.some.inj h)).symm

/-- What a search says of the entries below the place it has found. -/
theorem below_of_probe (hi : i ≤ ts.length) (h : ∀ j, j < i → probeBy nameOf (ts.map some) str j = some .gt) :
    ∀ t ∈ ts.take i, KeyLt (nameOf t) str := by
  intro t ht
  obtain ⟨j, hj, rfl⟩ := List.mem_iff_getElem.mp ht
  rw [List.length_take] at hj
  have hget : ts[j]? = some (ts.take i)[j] := by
    rw [List.getElem_take]
    exact List.getElem?_eq_getElem (by omega)
  have hgt := h j (by omega)
  rw [probeBy_of_get hget] at hgt
  exact keyLt_of_gt (Option.some.inj hgt)

theorem above_of_probe (h : ∀ j, i ≤ j → j < ts.length → probeBy nameOf (ts.map some) str j = some .lt) :
    ∀ t ∈ ts.drop i, KeyLt str (nameOf t) := by
  intro t ht
  obtain ⟨j, hj, rfl⟩ := List.mem_iff_getElem.mp ht
  rw [List.length_drop] at hj
  have hget : ts[i + j]? = some (ts.drop i)[j] := by
    rw [List.getElem_drop]
    exact List.getElem?_eq_getElem (by omega)
  have hlt := h (i + j) (by omega) (by omega)
  rw [probeBy_of_get hget] at hlt
  exact Option.some.inj hlt

/-- An entry is put between those with smaller names and those with larger ones. -/
theorem NameSorted.insert (h : NameSorted nameOf ts) (hbelow : ∀ u ∈ ts.take i, KeyLt (nameOf u) (nameOf t))
    (habove : ∀ u ∈ ts.drop i, KeyLt (nameOf t) (nameOf u)) : NameSorted nameOf (ts.take i ++ t :: ts.drop i) := by
  unfold NameSorted at h
  rw [← List.take_append_drop i ts] at h
  obtain ⟨hfront, hback, hcross⟩ := List.pairwise_append.mp h
  refine List.pairwise_append.mpr ⟨hfront, List.pairwise_cons.mpr ⟨habove, hback⟩, fun u hu v hv => ?_⟩
  rcases List.mem_cons.mp hv with rfl | hv
  · exact hbelow u hu
  · exact hcross u hu v hv

theorem entryBy_eq_none : entryBy nameOf ts str = none ↔ ∀ t ∈ ts, nameOf t ≠ str := by
  unfold entryBy
  simp [List.find?_eq_none]

/-- The entry with a name is the one a search has found. -/
theorem NameSorted.entryBy_get (h : NameSorted nameOf ts) (hi : i < ts.length) (hname : nameOf ts[i] = str) :
    entryBy nameOf ts str = some ts[i] := by
  rw [entryBy, List.find?_eq_some_iff_getElem]
  refine ⟨decide_eq_true hname, i, hi, rfl, fun j hj => ?_⟩
  have hlt := List.pairwise_iff_getElem.mp h j i (by omega) hi hj
  rw [hname] at hlt
  simpa using hlt.ne

theorem entryBy_of_absent (hbelow : ∀ t ∈ ts.take i, KeyLt (nameOf t) str)
    (habove : ∀ t ∈ ts.drop i, KeyLt str (nameOf t)) : entryBy nameOf ts str = none := by
  rw [entryBy_eq_none]
  intro t ht
  rw [← List.take_append_drop i ts] at ht
  rcases List.mem_append.mp ht with ht | ht
  · exact (hbelow t ht).ne
  · exact (habove t ht).ne.symm

theorem entryBy_insert (hout : entryBy nameOf ts (nameOf t) = none) (n : Text) :
    entryBy nameOf (ts.take i ++ t :: ts.drop i) n = if nameOf t = n then some t else entryBy nameOf ts n := by
  have hsplit : entryBy nameOf ts n = (entryBy nameOf (ts.take i) n).or (entryBy nameOf (ts.drop i) n) := by
    unfold entryBy
    rw [← List.find?_append, List.take_append_drop]
  by_cases hn : nameOf t = n
  · subst hn
    have hfront : entryBy nameOf (ts.take i) (nameOf t) = none :=
      entryBy_eq_none.mpr fun u hu => entryBy_eq_none.mp hout u (List.mem_of_mem_take hu)
    rw [if_pos rfl]
    unfold entryBy at hfront ⊢
    rw [List.find?_append, hfront, List.find?_cons_of_pos (by simp)]
    rfl
  · rw [if_neg hn, hsplit]
    unfold entryBy
    rw [List.find?_append, List.find?_cons_of_neg (by simpa using hn)]

theorem NameSorted.erase (h : NameSorted nameOf ts) (i : Nat) : NameSorted nameOf (ts.take i ++ ts.drop (i + 1)) := by
  rw [← List.eraseIdx_eq_take_drop_succ]
  exact h.sublist (List.eraseIdx_sublist ts i)

theorem NameSorted.entryBy_erase (h : NameSorted nameOf ts) (hi : i < ts.length) (hname : nameOf ts[i] = str)
    (n : Text) : entryBy nameOf (ts.take i ++ ts.drop (i + 1)) n = if str = n then none else entryBy nameOf ts n := by
  have hts : ts = ts.take i ++ ts[i] :: ts.drop (i + 1) := by
    rw [List.getElem_cons_drop, List.take_append_drop]
  by_cases hn : str = n
  · subst hn
    rw [if_pos rfl, entryBy_eq_none]
    have hsorted := h
    unfold NameSorted at hsorted
    rw [hts] at hsorted
    obtain ⟨-, hback, hcross⟩ := List.pairwise_append.mp hsorted
    intro t ht
    rw [← hname]
    rcases List.mem_append.mp ht with ht | ht
    · exact (hcross t ht _ List.mem_cons_self).ne
    · exact ((List.pairwise_cons.mp hback).1 t ht).ne.symm
  · rw [if_neg hn]
    conv_rhs => rw [hts]
    unfold entryBy
    rw [List.find?_append, List.find?_append, List.find?_cons_of_neg (by rw [hname]; simpa using hn)]

end

end Katcp
