import Mathlib.Data.List.Basic

namespace Memory

variable {α : Type*}

/-- The elements of a block at positions `b` up to, and not including, `e`. -/
def slice (xs : List α) (b e : Nat) : List α :=
  (xs.take e).drop b

/-- Give a block `n` cells; cells that did not exist before hold `fill`. -/
def resize (fill : α) (xs : List α) (n : Nat) : List α :=
  xs.take n ++ List.replicate (n - xs.length) fill

/-- Copy `ys` over the cells of `xs` that start at `off`. -/
def copyInto (xs : List α) (off : Nat) (ys : List α) : List α :=
  xs.take off ++ ys ++ xs.drop (off + ys.length)

/-- Move `n` cells of a block from `src` to `dst`; the two ranges may overlap. -/
def move (xs : List α) (dst src n : Nat) : List α :=
  copyInto xs dst (slice xs src (src + n))

@[simp] theorem slice_length (xs : List α) (b e : Nat) :
    (slice xs b e).length = min e xs.length - b := by
  simp [slice]

theorem slice_self (xs : List α) (b : Nat) : slice xs b b = [] := by
  simp [slice]

theorem slice_all (xs : List α) : slice xs 0 xs.length = xs := by
  simp [slice]

theorem getElem?_slice (xs : List α) (b e i : Nat) :
    (slice xs b e)[i]? = if b + i < e then xs[b + i]? else none := by
  simp only [slice, List.getElem?_drop, List.getElem?_take]

theorem slice_cons {xs : List α} {b e : Nat} {x : α} (hb : b < e) (hx : xs[b]? = some x) :
    slice xs b e = x :: slice xs (b + 1) e := by
  apply List.ext_getElem?
  intro i
  cases i with
  | zero => simp [getElem?_slice, hb, hx]
  | succ i => simp only [getElem?_slice, List.getElem?_cons_succ, Nat.add_assoc, Nat.add_comm 1 i]

theorem slice_append {xs : List α} {b m e : Nat} (hb : b ≤ m) (hm : m ≤ e) :
    slice xs b m ++ slice xs m e = slice xs b e := by
  have hm' : (xs.take e).take m = xs.take m := by rw [List.take_take, Nat.min_eq_left hm]
  rw [slice, slice, slice, ← hm', List.drop_take]
  rw [show m = b + (m - b) by omega, ← List.drop_drop, show b + (m - b) - b = m - b by omega]
  exact List.take_append_drop _ _

theorem slice_take {xs : List α} {b e n : Nat} (h : b + n ≤ e) : (slice xs b e).take n = slice xs b (b + n) := by
  rw [slice, slice, List.take_drop, List.take_take, Nat.min_eq_left h]

theorem slice_set_of_le {xs : List α} {b e k : Nat} (h : e ≤ k) (x : α) :
    slice (xs.set k x) b e = slice xs b e := by
  simp [slice, List.take_set_of_le h]

theorem slice_set_of_lt {xs : List α} {b e k : Nat} (h : k < b) (x : α) :
    slice (xs.set k x) b e = slice xs b e := by
  apply List.ext_getElem?
  intro i
  simp only [getElem?_slice, List.getElem?_set_ne (show k ≠ b + i by omega)]

theorem slice_set_end {xs : List α} {b k : Nat} (hb : b ≤ k) (hk : k < xs.length) (x : α) :
    slice (xs.set k x) b (k + 1) = slice xs b k ++ [x] := by
  rw [← slice_append hb (Nat.le_succ k), slice_set_of_le (Nat.le_refl k)]
  have hx : (xs.set k x)[k]? = some x := by simp [hk]
  rw [slice_cons (Nat.lt_succ_self k) hx, slice_self]

@[simp] theorem resize_length (fill : α) (xs : List α) (n : Nat) :
    (resize fill xs n).length = n := by
  simp only [resize, List.length_append, List.length_take, List.length_replicate]
  omega

theorem resize_self {fill : α} (xs : List α) : resize fill xs xs.length = xs := by
  simp [resize]

theorem slice_resize {fill : α} {xs : List α} {b e n : Nat} (he : e ≤ xs.length) (hn : e ≤ n) :
    slice (resize fill xs n) b e = slice xs b e := by
  have hl : e ≤ (xs.take n).length := by simp only [List.length_take]; omega
  rw [slice, slice, resize, List.take_append_of_le_length hl, List.take_take, Nat.min_eq_left hn]

theorem copyInto_length {xs ys : List α} {off : Nat} (h : off + ys.length ≤ xs.length) :
    (copyInto xs off ys).length = xs.length := by
  simp only [copyInto, List.length_append, List.length_take, List.length_drop]
  omega

theorem slice_copyInto_before {xs ys : List α} {off b e : Nat} (he : e ≤ off)
    (ho : off ≤ xs.length) : slice (copyInto xs off ys) b e = slice xs b e := by
  have hl : e ≤ (xs.take off).length := by simp only [List.length_take]; omega
  rw [slice, slice, copyInto, List.append_assoc, List.take_append_of_le_length hl, List.take_take,
    Nat.min_eq_left he]

theorem slice_copyInto_self {xs ys : List α} {off : Nat} (ho : off ≤ xs.length) :
    slice (copyInto xs off ys) off (off + ys.length) = ys := by
  have hl : (xs.take off).length = off := by simp [ho]
  have ht : (copyInto xs off ys).take (off + ys.length) = xs.take off ++ ys := by
    rw [copyInto]
    have : off + ys.length = (xs.take off ++ ys).length := by simp [hl]
    rw [this, List.take_left']
    simp
  rw [slice, ht]
  calc (xs.take off ++ ys).drop off = (xs.take off ++ ys).drop (xs.take off).length := by rw [hl]
    _ = ys := List.drop_left

/-- Blocks with the same cells up to `e`. -/
theorem getElem?_of_slice {xs ys : List α} {e i : Nat} (h : slice xs 0 e = slice ys 0 e) (hi : i < e) :
    xs[i]? = ys[i]? := by
  have hslice := congrArg (·[i]?) h
  simpa only [getElem?_slice, Nat.zero_add, if_pos hi] using hslice

end Memory
