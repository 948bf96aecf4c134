import Katcp.Memory
import Katcp.SwapVector
import Mathlib.Data.Option.Basic

open Memory

/-- A block of pointers of which the first `count` are in use. -/
structure CountedVector (α : Type*) where
  block : List (Option α)
  count : Nat

namespace CountedVector

variable {α : Type*} {v : CountedVector α} {xs : List α} {x : α}

def empty : CountedVector α := ⟨[], 0⟩

/-- The entries in use. -/
def entries (v : CountedVector α) : List (Option α) := v.block.take v.count

/-- The block is given room for one more entry. -/
def add (v : CountedVector α) (x : α) : CountedVector α :=
  ⟨(resize none v.block (v.count + 1)).set v.count (some x), v.count + 1⟩

/-- The last entry in use moves into a gap; the place that it leaves may be cleared. -/
def takeOut (clear : Bool) (v : CountedVector α) (i : Nat) : CountedVector α :=
  let last := v.count - 1
  let block := if i < last then v.block.set i (v.block[last]?.join) else v.block
  ⟨if clear then block.set last none else block, last⟩

/-- Where an entry is, or the count of those in use. -/
def indexOf [DecidableEq α] (v : CountedVector α) (x : α) : Nat := v.entries.findIdx (· = some x)

/-- The entries in use are these values. -/
structure Lists (v : CountedVector α) (xs : List α) : Prop where
  count : v.count = xs.length
  entries : v.entries = xs.map some

theorem empty_lists : (empty : CountedVector α).Lists [] := ⟨rfl, rfl⟩

namespace Lists

theorem length_le (h : v.Lists xs) : xs.length ≤ v.block.length := by
  have hlen := congrArg List.length h.entries
  rw [CountedVector.entries, List.length_take, List.length_map, h.count] at hlen
  omega

theorem get (h : v.Lists xs) {i : Nat} (hi : i < v.count) : v.block[i]? = some xs[i]? := by
  have hread := congrArg (·[i]?) h.entries
  have hx : i < xs.length := h.count ▸ hi
  simpa [CountedVector.entries, hi, hx] using hread

theorem unique {ys : List α} (h : v.Lists xs) (h' : v.Lists ys) : xs = ys :=
  List.map_injective_iff.mpr (Option.some_injective α) (h.entries.symm.trans h'.entries)

theorem add (h : v.Lists xs) (x : α) : (v.add x).Lists (xs ++ [x]) := by
  have hlen := h.length_le
  refine ⟨by simp [CountedVector.add, h.count], ?_⟩
  have hentries := h.entries
  rw [CountedVector.entries, h.count] at hentries
  have hsize : (xs.map some).length = xs.length := List.length_map _
  rw [CountedVector.entries, CountedVector.add, h.count]
  dsimp only
  rw [resize, List.take_of_length_le (by simp; omega), List.map_append]
  rw [show v.block.take (xs.length + 1) = xs.map some ++ (v.block.drop xs.length).take 1 by
    rw [← hentries, List.take_add], List.append_assoc, List.set_append_right _ _ (by omega), hsize, Nat.sub_self]
  congr 1
  have hone : ((v.block.drop xs.length).take 1 ++ List.replicate (xs.length + 1 - v.block.length) none).length = 1 := by
    simp only [List.length_append, List.length_take, List.length_drop, List.length_replicate]
    omega
  obtain ⟨y, hy⟩ := List.length_eq_one_iff.mp hone
  rw [hy]
  rfl

theorem takeOut (h : v.Lists xs) (clear : Bool) {i : Nat} (hi : i < xs.length) :
    (v.takeOut clear i).Lists (SwapVector.removeAt xs i) := by
  have hlen := h.length_le
  have hsize := SwapVector.removeAt_length xs i
  have hlast := h.get (show xs.length - 1 < v.count by rw [h.count]; omega)
  refine ⟨by simp [CountedVector.takeOut, h.count, hsize], List.ext_getElem? fun j => ?_⟩
  rw [CountedVector.entries, List.getElem?_take, List.getElem?_map, SwapVector.getElem?_removeAt hi]
  unfold CountedVector.takeOut
  dsimp only
  rw [h.count]
  by_cases hj : j + 1 < xs.length
  · have hmove : (if i < xs.length - 1 then v.block.set i v.block[xs.length - 1]?.join else v.block)[j]? =
        some (if j = i then xs.getLast? else xs[j]?) := by
      by_cases hji : j = i
      · subst hji
        rw [if_pos (by omega), if_pos rfl, List.getElem?_set_self (by omega), hlast, List.getLast?_eq_getElem?]
        rfl
      · rw [if_neg hji]
        split
        next => rw [List.getElem?_set_ne (Ne.symm hji), h.get (by rw [h.count]; omega)]
        next => exact h.get (by rw [h.count]; omega)
    have hread : (if clear = true then
          (if i < xs.length - 1 then v.block.set i v.block[xs.length - 1]?.join else v.block).set (xs.length - 1) none
        else if i < xs.length - 1 then v.block.set i v.block[xs.length - 1]?.join else v.block)[j]? =
        some (if j = i then xs.getLast? else xs[j]?) := by
      split
      next => rw [List.getElem?_set_ne (by omega), hmove]
      next => exact hmove
    rw [if_pos (by omega), if_pos hj, hread]
    have hsome : (if j = i then xs.getLast? else xs[j]?).isSome := by
      split
      next => rw [List.getLast?_eq_getElem?, List.getElem?_eq_getElem (by omega)]; rfl
      next => rw [List.getElem?_eq_getElem (by omega)]; rfl
    obtain ⟨y, hy⟩ := Option.isSome_iff_exists.mp hsome
    rw [hy]
    rfl
  · rw [if_neg (by omega), if_neg hj]
    rfl

theorem indexOf_lt [DecidableEq α] (h : v.Lists xs) : v.indexOf x < v.count ↔ x ∈ xs := by
  have hlen : v.entries.length = v.count := by rw [h.entries, List.length_map, h.count]
  rw [indexOf, ← hlen, List.findIdx_lt_length, h.entries]
  simp

theorem getElem?_indexOf [DecidableEq α] (h : v.Lists xs) (hx : x ∈ xs) : xs[v.indexOf x]? = some x := by
  have hlt : v.indexOf x < xs.length := h.count ▸ h.indexOf_lt.mpr hx
  have hlen : v.entries.length = xs.length := by rw [h.entries, List.length_map]
  have hin : v.indexOf x < v.entries.length := by omega
  have hat : v.entries[v.indexOf x] = some x :=
    of_decide_eq_true (List.findIdx_getElem (p := fun y => decide (y = some x)) (w := hin))
  have hread := List.getElem?_eq_getElem (show v.indexOf x < v.entries.length by omega)
  rw [hat, h.entries, List.getElem?_map, List.getElem?_eq_getElem hlt] at hread
  rw [List.getElem?_eq_getElem hlt]
  exact Option.some.inj hread

end Lists

end CountedVector
