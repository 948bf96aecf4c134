import Katcp.Memory
import Mathlib.Data.List.InsertIdx
import Mathlib.Data.List.Rotate
import Mathlib.Data.Nat.ModEq

open Memory

/-- A queue kept in a circular block of slots. Read from `head` onwards the
slots are the queued values followed by the empty slots. -/
structure RingQueue (α : Type*) where
  slots : List (Option α)
  head : Nat
  count : Nat
  head_bound : head = 0 ∨ head < slots.length
  layout : ∃ (xs : List α) (k : Nat), slots.rotate head = xs.map some ++ List.replicate k none ∧ xs.length = count

namespace RingQueue

variable {α : Type*}

def contents (q : RingQueue α) : List α :=
  ((q.slots.rotate q.head).take q.count).filterMap id

def size (q : RingQueue α) : Nat := q.slots.length

theorem contents_of_layout {slots : List (Option α)} {head : Nat} {xs : List α} {k : Nat}
    (h : slots.rotate head = xs.map some ++ List.replicate k none) :
    ((slots.rotate head).take xs.length).filterMap id = xs := by
  have hl : xs.length = (xs.map some).length := by simp
  rw [h, hl, List.take_left']
  · simp [List.filterMap_map]
  · rfl

/-- The circular block spelled out through the queue it holds. -/
theorem rotate_eq (q : RingQueue α) :
    q.slots.rotate q.head =
      q.contents.map some ++ List.replicate (q.size - q.count) none := by
  obtain ⟨xs, k, h, hc⟩ := q.layout
  have hx : q.contents = xs := by
    have := contents_of_layout h
    rw [hc] at this
    exact this
  have hk : q.size - q.count = k := by
    have hl := congrArg List.length h
    simp only [List.length_rotate, List.length_append, List.length_map, List.length_replicate] at hl
    rw [size, ← hc]
    omega
  rw [hx, hk, h]

@[simp] theorem contents_length (q : RingQueue α) : q.contents.length = q.count := by
  obtain ⟨xs, k, h, hc⟩ := q.layout
  have := contents_of_layout h
  rw [hc] at this
  rw [contents, this, hc]

theorem count_le_size (q : RingQueue α) : q.count ≤ q.size := by
  have hl := congrArg List.length q.rotate_eq
  simp only [List.length_rotate, List.length_append, List.length_map, List.length_replicate,
    contents_length] at hl
  rw [size] at *
  omega

/-- The slot `j` places behind the head. -/
theorem slot_eq (q : RingQueue α) {j : Nat} (hj : j < q.size) :
    q.slots[(q.head + j) % q.size]? = (q.slots.rotate q.head)[j]? := by
  have hr : j < (q.slots.rotate q.head).length := by simpa [size] using hj
  rw [List.getElem?_eq_getElem hr, List.getElem_rotate, Nat.add_comm]
  exact List.getElem?_eq_getElem _

theorem rotate_set (xs : List (Option α)) {n j : Nat} (hj : j < xs.length) (x : Option α) :
    (xs.set ((n + j) % xs.length) x).rotate n = (xs.rotate n).set j x := by
  apply List.ext_getElem (by simp)
  intro i hi _
  simp only [List.length_rotate, List.length_set] at hi
  simp only [List.getElem_rotate, List.length_set, List.getElem_set]
  by_cases he : j = i
  · subst he; simp [Nat.add_comm]
  · have hne : (n + j) % xs.length ≠ (i + n) % xs.length := by
      intro h
      rw [Nat.add_comm i n] at h
      have hm : Nat.ModEq xs.length j i := Nat.ModEq.add_left_cancel' n h
      exact he (by rwa [Nat.ModEq, Nat.mod_eq_of_lt hj, Nat.mod_eq_of_lt hi] at hm)
    simp [hne, he]

def empty : RingQueue α where
  slots := []
  head := 0
  count := 0
  head_bound := Or.inl rfl
  layout := ⟨[], 0, rfl, rfl⟩

@[simp] theorem contents_empty : (empty : RingQueue α).contents = [] := rfl

/-- One more slot in a full block: the wrapped part moves back by one place so
that the new empty slot follows the last value. -/
def grown (slots : List (Option α)) (head : Nat) : List (Option α) :=
  let more := resize none slots (slots.length + 1)
  if 0 < head then
    let wrapped := more.set slots.length (slots.head?.join)
    (move wrapped 0 1 (head - 1)).set (head - 1) none
  else more

theorem grown_length {slots : List (Option α)} {head : Nat} (hb : head ≤ slots.length) :
    (grown slots head).length = slots.length + 1 := by
  unfold grown
  split
  · simp only [List.length_set]
    rw [move, copyInto_length, List.length_set, resize_length]
    simp only [List.length_set, resize_length, slice_length]
    omega
  · simp

/-- Growing keeps the reading order and puts the empty slot last. -/
theorem grown_rotate {slots : List (Option α)} {head : Nat}
    (hb : head = 0 ∨ head < slots.length) :
    (grown slots head).rotate head = slots.rotate head ++ [none] := by
  rcases Nat.eq_zero_or_pos head with h0 | hpos
  · subst h0
    simp [grown, resize]
  · have hlt : head < slots.length := by omega
    obtain ⟨first, rest, hs⟩ := List.exists_cons_of_length_pos (show 0 < slots.length by omega)
    have hrl : head - 1 < rest.length := by simp only [hs, List.length_cons] at hlt; omega
    have hg : grown slots head =
        rest.take (head - 1) ++ none :: (rest.drop (head - 1) ++ [first]) := by
      have hw : (resize none slots (slots.length + 1)).set slots.length (slots.head?.join) =
          first :: rest ++ [first] := by
        subst hs
        simp [resize]
      simp only [grown, if_pos hpos, hw, move, copyInto]
      have hsl : slice (first :: rest ++ [first]) 1 (1 + (head - 1)) = rest.take (head - 1) := by
        rw [slice, show 1 + (head - 1) = (head - 1) + 1 by omega]
        simp only [List.cons_append, List.take_succ_cons, List.drop_succ_cons, List.drop_zero]
        exact List.take_append_of_le_length (by omega)
      have htl : (rest.take (head - 1)).length = head - 1 := by simp; omega
      rw [hsl, List.take_zero, List.nil_append, htl, Nat.zero_add, List.set_append_right _ _ (by omega)]
      congr 1
      rw [htl, Nat.sub_self, List.cons_append]
      cases hh : head - 1 with
      | zero => simp
      | succ n =>
        rw [List.drop_succ_cons, List.drop_append_of_le_length (by omega),
          List.drop_eq_getElem_cons (show n < rest.length by omega)]
        rfl
    have hne : slots.rotate head = rest.drop (head - 1) ++ (first :: rest.take (head - 1)) := by
      subst hs
      rw [List.rotate_eq_drop_append_take (by omega)]
      cases head with
      | zero => omega
      | succ n => simp
    have hgl : head ≤ (grown slots head).length := by rw [grown_length (by omega)]; omega
    rw [List.rotate_eq_drop_append_take hgl, hg, hne]
    have htl : (rest.take (head - 1)).length = head - 1 := by simp; omega
    have hsplit : head = (rest.take (head - 1) ++ [none]).length := by simp [htl]; omega
    rw [show rest.take (head - 1) ++ none :: (rest.drop (head - 1) ++ [first]) =
      (rest.take (head - 1) ++ [none]) ++ (rest.drop (head - 1) ++ [first]) by simp]
    rw [List.drop_left' hsplit.symm, List.take_left' hsplit.symm]
    simp

theorem contents_eq {q : RingQueue α} {xs : List α} {k : Nat}
    (h : q.slots.rotate q.head = xs.map some ++ List.replicate k none)
    (hc : xs.length = q.count) : q.contents = xs := by
  rw [contents, ← hc]
  exact contents_of_layout h

/-- The block a value is added to: one slot longer when it is full. -/
def room (q : RingQueue α) : List (Option α) :=
  if q.count < q.size then q.slots else grown q.slots q.head

theorem room_bound (q : RingQueue α) : q.head = 0 ∨ q.head < q.room.length := by
  have hb := q.head_bound
  unfold room
  split
  · exact hb
  · rw [grown_length (by omega)]
    omega

theorem room_rotate (q : RingQueue α) :
    ∃ k, q.room.rotate q.head = q.contents.map some ++ List.replicate (k + 1) none := by
  unfold room
  split
  next hlt =>
    refine ⟨q.size - q.count - 1, ?_⟩
    rw [q.rotate_eq, show q.size - q.count - 1 + 1 = q.size - q.count by omega]
  next hfull =>
    refine ⟨0, ?_⟩
    rw [grown_rotate q.head_bound, q.rotate_eq, show q.size - q.count = 0 by omega]
    simp

theorem room_set_rotate (q : RingQueue α) (x : α) :
    ∃ k, (q.room.set ((q.head + q.count) % q.room.length) (some x)).rotate q.head =
      (q.contents ++ [x]).map some ++ List.replicate k none := by
  obtain ⟨k, hk⟩ := q.room_rotate
  have hlen := congrArg List.length hk
  simp only [List.length_rotate, List.length_append, List.length_map, List.length_replicate,
    contents_length] at hlen
  refine ⟨k, ?_⟩
  rw [rotate_set _ (by omega), hk, List.set_append_right _ _ (by simp)]
  simp [List.replicate_succ]

/-- Put a value behind the last one, growing the block by one slot when full. -/
def addTail (q : RingQueue α) (x : α) : RingQueue α where
  slots := q.room.set ((q.head + q.count) % q.room.length) (some x)
  head := q.head
  count := q.count + 1
  head_bound := by
    rw [List.length_set]
    exact q.room_bound
  layout := by
    obtain ⟨k, hk⟩ := q.room_set_rotate x
    exact ⟨q.contents ++ [x], k, hk, by simp⟩

@[simp] theorem contents_addTail (q : RingQueue α) (x : α) :
    (q.addTail x).contents = q.contents ++ [x] := by
  obtain ⟨k, hk⟩ := q.room_set_rotate x
  exact contents_eq hk (by simp [addTail])

def getHead (q : RingQueue α) : Option α :=
  if 0 < q.count then q.slots[q.head]?.join else none

theorem getHead_eq (q : RingQueue α) : q.getHead = q.contents.head? := by
  unfold getHead
  split
  next hpos =>
    have hsize := q.count_le_size
    obtain ⟨x, xs, hx⟩ := List.exists_cons_of_length_pos
      (show 0 < q.contents.length by rw [contents_length]; exact hpos)
    have hh : q.head % q.size = q.head := by
      have hb := q.head_bound
      rcases hb with hb | hb
      · rw [hb, Nat.zero_mod]
      · exact Nat.mod_eq_of_lt hb
    have hs := q.slot_eq (j := 0) (by omega)
    rw [Nat.add_zero, hh, q.rotate_eq, hx] at hs
    rw [hs, hx]
    rfl
  next hz =>
    have hn : q.contents = [] := List.eq_nil_of_length_eq_zero (by rw [contents_length]; omega)
    rw [hn]
    rfl

theorem removed_rotate {slots : List (Option α)} {head : Nat} {x : α} {xs : List α} {k : Nat}
    (hb : head = 0 ∨ head < slots.length)
    (h : slots.rotate head = some x :: (xs.map some ++ List.replicate k none)) :
    (slots.set head none).rotate ((head + 1) % slots.length) =
      xs.map some ++ List.replicate (k + 1) none := by
  have hpos : 0 < slots.length := by
    have hl := congrArg List.length h
    simp only [List.length_rotate, List.length_cons] at hl
    omega
  have hset : (slots.set head none).rotate head =
      none :: (xs.map some ++ List.replicate k none) := by
    have hr := rotate_set slots (n := head) hpos none
    rw [Nat.add_zero, Nat.mod_eq_of_lt (by omega), h] at hr
    exact hr
  have hlen : (slots.set head none).length = slots.length := List.length_set
  rw [← hlen, List.rotate_mod, ← List.rotate_rotate, hset, List.rotate_cons_succ, List.rotate_zero,
    List.append_assoc, List.replicate_succ']

/-- Take the value at the head out of the queue. -/
def removeHead (q : RingQueue α) : RingQueue α :=
  if h : 0 < q.count then
    { slots := q.slots.set q.head none
      head := (q.head + 1) % q.size
      count := q.count - 1
      head_bound := by
        have hs := q.count_le_size
        rw [List.length_set]
        exact Or.inr (Nat.mod_lt _ (by omega))
      layout := by
        obtain ⟨x, xs, hx⟩ := List.exists_cons_of_length_pos
          (show 0 < q.contents.length by rw [contents_length]; exact h)
        have hr := q.rotate_eq
        rw [hx] at hr
        have hl := q.contents_length
        rw [hx, List.length_cons] at hl
        exact ⟨xs, _, removed_rotate q.head_bound hr, by omega⟩ }
  else q

@[simp] theorem contents_removeHead (q : RingQueue α) : q.removeHead.contents = q.contents.tail := by
  unfold removeHead
  split
  next h =>
    obtain ⟨x, xs, hx⟩ := List.exists_cons_of_length_pos
      (show 0 < q.contents.length by rw [contents_length]; exact h)
    have hr := q.rotate_eq
    rw [hx] at hr
    have hl := q.contents_length
    rw [hx, List.length_cons] at hl
    rw [hx, List.tail_cons]
    exact contents_eq (removed_rotate q.head_bound hr) (by simp only; omega)
  next hz =>
    have hn : q.contents = [] := List.eq_nil_of_length_eq_zero (by rw [contents_length]; omega)
    rw [hn]
    rfl

theorem replaced_rotate {slots : List (Option α)} {head : Nat} {x : α} {xs : List α} {k : Nat}
    (hb : head = 0 ∨ head < slots.length)
    (h : slots.rotate head = some x :: (xs.map some ++ List.replicate k none)) (y : α) :
    (slots.set head (some y)).rotate head = (y :: xs).map some ++ List.replicate k none := by
  have hpos : 0 < slots.length := by
    have hl := congrArg List.length h
    simp only [List.length_rotate, List.length_cons] at hl
    omega
  have hr := rotate_set slots (n := head) hpos (some y)
  rw [Nat.add_zero, Nat.mod_eq_of_lt (by omega), h] at hr
  exact hr

/-- Overwrite the value at the head where it lies. -/
def setHead (q : RingQueue α) (y : α) : RingQueue α :=
  if h : 0 < q.count then
    { slots := q.slots.set q.head (some y)
      head := q.head
      count := q.count
      head_bound := by
        rw [List.length_set]
        exact q.head_bound
      layout := by
        obtain ⟨x, xs, hx⟩ := List.exists_cons_of_length_pos
          (show 0 < q.contents.length by rw [contents_length]; exact h)
        have hr := q.rotate_eq
        rw [hx] at hr
        have hl := q.contents_length
        rw [hx, List.length_cons] at hl
        exact ⟨y :: xs, _, replaced_rotate q.head_bound hr y, hl⟩ }
  else q

theorem contents_setHead {q : RingQueue α} {x : α} {xs : List α} (hx : q.contents = x :: xs)
    (y : α) : (q.setHead y).contents = y :: xs := by
  have hl := q.contents_length
  rw [hx, List.length_cons] at hl
  have hr := q.rotate_eq
  rw [hx] at hr
  unfold setHead
  rw [dif_pos (by omega)]
  exact contents_eq (replaced_rotate q.head_bound hr y) hl

/-- Drop every value; the head stays where it is. -/
def clear (q : RingQueue α) : RingQueue α where
  slots := List.replicate q.size none
  head := q.head
  count := 0
  head_bound := by
    rw [List.length_replicate]
    exact q.head_bound
  layout := ⟨[], q.size, by simp, rfl⟩

@[simp] theorem contents_clear (q : RingQueue α) : q.clear.contents = [] := by
  rw [contents, clear, List.take_zero, List.filterMap_nil]

end RingQueue

open Memory

namespace RingQueue

variable {α : Type*} {slots : List (Option α)} {head index last : Nat}

theorem getElem?_move {xs : List α} {dst src n : Nat} (hs : src + n ≤ xs.length) (hd : dst + n ≤ xs.length)
    (i : Nat) : (move xs dst src n)[i]? = if dst ≤ i ∧ i < dst + n then xs[src + (i - dst)]? else xs[i]? := by
  have hlen : (slice xs src (src + n)).length = n := by
    rw [slice_length]
    omega
  have htake : (xs.take dst).length = dst := by
    rw [List.length_take]
    omega
  rw [move, copyInto, hlen, List.getElem?_append, List.getElem?_append, List.length_append, htake, hlen]
  by_cases hi : i < dst + n
  · rw [if_pos hi]
    by_cases hlo : i < dst
    · rw [if_pos hlo, if_neg (by omega), List.getElem?_take, if_pos hlo]
    · rw [if_neg hlo, if_pos ⟨by omega, hi⟩, getElem?_slice, if_pos (by omega)]
  · rw [if_neg hi, if_neg (by omega), List.getElem?_drop]
    congr 1
    omega

/-- Close the gap at `index` from the head's side. -/
def closedAhead (slots : List (Option α)) (head index : Nat) : List (Option α) :=
  (move (slots.set index none) (head + 1) head (index - head)).set head none

/-- Close the gap at `index` from the side of the last value. -/
def closedBehind (slots : List (Option α)) (index last : Nat) : List (Option α) :=
  let gap := slots.set index none
  (if index < last then move gap index (index + 1) (last - index) else gap).set last none

theorem getElem?_closedAhead (hi : head ≤ index) (hl : index < slots.length) (p : Nat) (hp : p < slots.length) :
    (closedAhead slots head index)[p]? =
      if p = head then some none else if head < p ∧ p ≤ index then slots[p - 1]? else slots[p]? := by
  have hmove := @getElem?_move _ (slots.set index none) (head + 1) head (index - head)
    (by rw [List.length_set]; omega) (by rw [List.length_set]; omega)
  have hlen : (move (slots.set index none) (head + 1) head (index - head)).length = slots.length := by
    rw [move, copyInto_length, List.length_set]
    rw [slice_length, List.length_set]
    omega
  rw [closedAhead, List.getElem?_set]
  by_cases hph : p = head
  · rw [if_pos hph.symm, if_pos hph, if_pos (by omega)]
  · rw [if_neg (Ne.symm hph), if_neg hph, hmove p]
    by_cases hin : head < p ∧ p ≤ index
    · rw [if_pos (by omega), if_pos hin, List.getElem?_set_ne (by omega)]
      congr 1
      omega
    · rw [if_neg (by omega), if_neg hin, List.getElem?_set_ne (by omega)]

theorem getElem?_closedBehind (hi : index ≤ last) (hl : last < slots.length) (p : Nat) (hp : p < slots.length) :
    (closedBehind slots index last)[p]? =
      if p = last then some none else if index ≤ p ∧ p < last then slots[p + 1]? else slots[p]? := by
  unfold closedBehind
  dsimp only
  split
  next hlt =>
    have hmove := @getElem?_move _ (slots.set index none) index (index + 1) (last - index)
      (by rw [List.length_set]; omega) (by rw [List.length_set]; omega)
    have hlen : (move (slots.set index none) index (index + 1) (last - index)).length = slots.length := by
      rw [move, copyInto_length, List.length_set]
      rw [slice_length, List.length_set]
      omega
    rw [List.getElem?_set]
    by_cases hpl : p = last
    · rw [if_pos hpl.symm, if_pos hpl, if_pos (by omega)]
    · rw [if_neg (Ne.symm hpl), if_neg hpl, hmove p]
      by_cases hin : index ≤ p ∧ p < last
      · rw [if_pos (by omega), if_pos hin, List.getElem?_set_ne (by omega)]
        congr 1
        omega
      · rw [if_neg (by omega), if_neg hin, List.getElem?_set_ne (by omega)]
  next hge =>
    have he : index = last := by omega
    subst he
    rw [List.set_set, List.getElem?_set]
    by_cases hpl : p = index
    · rw [if_pos hpl.symm, if_pos hpl, if_pos (by omega)]
    · rw [if_neg (Ne.symm hpl), if_neg hpl, if_neg (by omega)]

theorem closedAhead_length (hi : head ≤ index) (hl : index < slots.length) :
    (closedAhead slots head index).length = slots.length := by
  rw [closedAhead, List.length_set, move, copyInto_length, List.length_set]
  rw [slice_length, List.length_set]
  omega

theorem closedBehind_length (hl : last < slots.length) :
    (closedBehind slots index last).length = slots.length := by
  unfold closedBehind
  dsimp only
  rw [List.length_set]
  split
  · rw [move, copyInto_length, List.length_set]
    rw [slice_length, List.length_set]
    omega
  · rw [List.length_set]

/-- A place behind the head, before the end of the block or wrapped around. -/
theorem turn_cases {n i size : Nat} (hn : n < size) (hi : i < size) :
    ((n + i) % size = n + i ∧ n + i < size) ∨ ((n + i) % size = n + i - size ∧ size ≤ n + i) := by
  by_cases h : n + i < size
  · exact Or.inl ⟨Nat.mod_eq_of_lt h, h⟩
  · refine Or.inr ⟨?_, by omega⟩
    rw [Nat.mod_eq_sub_mod (by omega), Nat.mod_eq_of_lt (by omega)]

/-- From the head onwards a block holds these values and nothing else. -/
structure Ring (slots : List (Option α)) (head : Nat) (xs : List α) : Prop where
  bound : head = 0 ∨ head < slots.length
  room : xs.length ≤ slots.length
  slot : ∀ i, i < slots.length → slots[(head + i) % slots.length]? = some xs[i]?

namespace Ring

variable {xs : List α} {j : Nat}

theorem of_rotate {k : Nat} (hb : head = 0 ∨ head < slots.length)
    (h : slots.rotate head = xs.map some ++ List.replicate k none) : Ring slots head xs := by
  have hlen := congrArg List.length h
  simp only [List.length_rotate, List.length_append, List.length_map, List.length_replicate] at hlen
  refine ⟨hb, by omega, fun i hi => ?_⟩
  have hread := List.getElem?_rotate (n := head) hi
  rw [h, Nat.add_comm] at hread
  rw [← hread, List.getElem?_append, List.length_map]
  split
  next hlt => simp [hlt]
  next hge =>
    rw [List.getElem?_replicate, if_pos (by omega), List.getElem?_eq_none (by omega)]

theorem rotate (h : Ring slots head xs) :
    slots.rotate head = xs.map some ++ List.replicate (slots.length - xs.length) none := by
  have hroom := h.room
  refine List.ext_getElem? fun i => ?_
  by_cases hi : i < slots.length
  · rw [List.getElem?_rotate hi, Nat.add_comm, h.slot i hi, List.getElem?_append, List.length_map]
    split
    next hlt => simp [hlt]
    next hge =>
      rw [List.getElem?_replicate, if_pos (by omega), List.getElem?_eq_none (by omega)]
  · rw [List.getElem?_eq_none (by rw [List.length_rotate]; omega), List.getElem?_eq_none]
    rw [List.length_append, List.length_map, List.length_replicate]
    omega

theorem empty : Ring ([] : List (Option α)) 0 [] := ⟨Or.inl rfl, Nat.le_refl 0, fun _ hi => absurd hi (Nat.not_lt_zero _)⟩

theorem size_pos (h : Ring slots head xs) (hj : j < xs.length) : head < slots.length := by
  have := h.bound
  have := h.room
  omega

/-- A look at the slot under the head, made only when values are waiting, finds the first of them. -/
theorem read_head (h : Ring slots head xs) :
    (if xs.length > 0 then slots[head]? else some none) = some xs.head? := by
  split
  next hpos =>
    have hhead := h.size_pos hpos
    have hslot := h.slot 0 (by omega)
    rwa [Nat.add_zero, Nat.mod_eq_of_lt hhead, ← List.head?_eq_getElem?] at hslot
  next hz =>
    have hnil : xs = [] := List.eq_nil_of_length_eq_zero (by omega)
    rw [hnil]
    rfl

/-- A slot that no value is in is free. -/
theorem free (h : Ring slots head xs) {p : Nat} (hp : p < slots.length)
    (hout : ∀ i, i < xs.length → (head + i) % slots.length ≠ p) : slots[p]? = some none := by
  have hb := h.bound
  have hturn : (head + (p + slots.length - head) % slots.length) % slots.length = p := by
    rw [Nat.add_mod_mod, show head + (p + slots.length - head) = p + slots.length by omega, Nat.add_mod_right,
      Nat.mod_eq_of_lt hp]
  have hlt : (p + slots.length - head) % slots.length < slots.length := Nat.mod_lt _ (by omega)
  have hslot := h.slot _ hlt
  rw [hturn] at hslot
  rw [hslot, List.getElem?_eq_none]
  by_contra hin
  exact hout _ (by omega) hturn

theorem grow (h : Ring slots head xs) : Ring (grown slots head) head xs := by
  have hb := h.bound
  have hlen : (grown slots head).length = slots.length + 1 := grown_length (by omega)
  refine of_rotate (k := slots.length - xs.length + 1) (by omega) ?_
  rw [grown_rotate h.bound, h.rotate, List.append_assoc, List.replicate_succ']

theorem add (h : Ring slots head xs) (hroom : xs.length < slots.length) (x : α) :
    Ring (slots.set ((head + xs.length) % slots.length) (some x)) head (xs ++ [x]) := by
  have hb := h.bound
  have hhead : head < slots.length := by omega
  refine ⟨by rw [List.length_set]; exact h.bound, by simp; omega, fun i hi => ?_⟩
  rw [List.length_set] at hi ⊢
  rw [List.getElem?_set]
  by_cases he : (head + xs.length) % slots.length = (head + i) % slots.length
  · have hix : i = xs.length := by
      rcases turn_cases hhead hi with ⟨h1, _⟩ | ⟨h1, _⟩
      all_goals
        rcases turn_cases hhead hroom with ⟨h2, _⟩ | ⟨h2, _⟩
        all_goals omega
    rw [if_pos he, if_pos (Nat.mod_lt _ (by omega)), hix]
    simp
  · have hix : i ≠ xs.length := by
      rintro rfl
      exact he rfl
    rw [if_neg he, h.slot i hi, List.getElem?_append]
    split
    next => rfl
    next hge =>
      rw [List.getElem?_eq_none (by omega), List.getElem?_eq_none (by simp; omega)]

/-- A value is taken out of the part from the head to the end of the block. -/
theorem takeAhead (h : Ring slots head xs) (hj : j < xs.length) (hside : head + j < slots.length) :
    Ring (closedAhead slots head (head + j)) ((head + 1) % slots.length) (xs.eraseIdx j) := by
  have hhead := h.size_pos hj
  have hroom := h.room
  have hlen : (closedAhead slots head (head + j)).length = slots.length := closedAhead_length (by omega) hside
  have herase := List.length_eraseIdx_of_lt hj
  refine ⟨Or.inr (by rw [hlen]; exact Nat.mod_lt _ (by omega)), by omega, fun i hi => ?_⟩
  rw [hlen] at hi ⊢
  rw [Nat.mod_add_mod, show head + 1 + i = head + (i + 1) by omega,
    getElem?_closedAhead (by omega) hside _ (Nat.mod_lt _ (by omega)), List.getElem?_eraseIdx]
  by_cases hlast : i + 1 = slots.length
  · rw [hlast, Nat.add_mod_right, Nat.mod_eq_of_lt hhead, if_pos rfl, if_neg (by omega),
      List.getElem?_eq_none (by omega)]
  · have hnext : i + 1 < slots.length := by omega
    by_cases hij : i < j
    · rw [Nat.mod_eq_of_lt (show head + (i + 1) < slots.length by omega), if_neg (by omega), if_pos (by omega),
        if_pos hij, ← h.slot i hi, Nat.mod_eq_of_lt (show head + i < slots.length by omega)]
      rfl
    · rw [if_neg hij, ← h.slot (i + 1) hnext]
      rcases turn_cases hhead hnext with ⟨he, _⟩ | ⟨he, _⟩
      · rw [he, if_neg (by omega), if_neg (by omega)]
      · rw [he, if_neg (by omega), if_neg (by omega)]

/-- The value at the head is taken out. -/
theorem takeHead (h : Ring slots head xs) (hpos : 0 < xs.length) :
    Ring (slots.set head none) ((head + 1) % slots.length) xs.tail := by
  have hhead := h.size_pos hpos
  have hclosed : closedAhead slots head head = slots.set head none := by
    refine List.ext_getElem? fun p => ?_
    by_cases hp : p < slots.length
    · rw [getElem?_closedAhead (Nat.le_refl head) hhead p hp, List.getElem?_set]
      by_cases hph : p = head
      · rw [if_pos hph, if_pos hph.symm, if_pos hhead]
      · rw [if_neg hph, if_neg (by omega), if_neg (Ne.symm hph)]
    · rw [List.getElem?_eq_none (by rw [closedAhead_length (Nat.le_refl head) hhead]; omega),
        List.getElem?_eq_none (by rw [List.length_set]; omega)]
  have htake := h.takeAhead hpos hhead
  rwa [Nat.add_zero, hclosed, List.eraseIdx_zero] at htake

/-- A value is taken out where it and all behind it lie on one side of the end of the block. -/
theorem takeBehind (h : Ring slots head xs) (hj : j < xs.length)
    (hside : head + xs.length ≤ slots.length ∨ slots.length ≤ head + j) :
    Ring (closedBehind slots ((head + j) % slots.length) ((head + xs.length - 1) % slots.length)) head
      (xs.eraseIdx j) := by
  have hhead := h.size_pos hj
  have hroom := h.room
  have herase := List.length_eraseIdx_of_lt hj
  -- the values from the one taken out to the last lie side by side, all others elsewhere
  have hrow : ∀ m, j ≤ m → m < xs.length → (head + m) % slots.length = (head + j) % slots.length + (m - j) := by
    intro m hjm hm
    rcases turn_cases hhead (show j < slots.length by omega) with ⟨hx, _⟩ | ⟨hx, _⟩
    all_goals
      rcases turn_cases hhead (show m < slots.length by omega) with ⟨hl, _⟩ | ⟨hl, _⟩
      all_goals omega
  have hothers : ∀ m, m < slots.length → m < j ∨ xs.length ≤ m →
      (head + m) % slots.length < (head + j) % slots.length ∨
        (head + j) % slots.length + (xs.length - 1 - j) < (head + m) % slots.length := by
    intro m hm hout
    rcases turn_cases hhead (show j < slots.length by omega) with ⟨hx, _⟩ | ⟨hx, _⟩
    all_goals
      rcases turn_cases hhead hm with ⟨hl, _⟩ | ⟨hl, _⟩
      all_goals omega
  have hlast := hrow (xs.length - 1) (by omega) (by omega)
  rw [show head + (xs.length - 1) = head + xs.length - 1 by omega] at hlast
  have hlt : (head + xs.length - 1) % slots.length < slots.length := Nat.mod_lt _ (by omega)
  have hends : (head + j) % slots.length ≤ (head + xs.length - 1) % slots.length := by omega
  have hlen := @closedBehind_length _ slots ((head + j) % slots.length) _ hlt
  refine ⟨by rw [hlen]; exact h.bound, by omega, fun i hi => ?_⟩
  rw [hlen] at hi ⊢
  rw [getElem?_closedBehind hends hlt _ (Nat.mod_lt _ (by omega)), List.getElem?_eraseIdx]
  by_cases hout : i < j ∨ xs.length ≤ i
  · have hplace := hothers i hi hout
    rw [if_neg (by omega), if_neg (by omega), h.slot i hi]
    split
    next => rfl
    next => rw [List.getElem?_eq_none (by omega), List.getElem?_eq_none (by omega)]
  · have hplace := hrow i (by omega) (by omega)
    rw [if_neg (show ¬ i < j by omega)]
    by_cases hend : i + 1 = xs.length
    · rw [if_pos (by omega), List.getElem?_eq_none (by omega)]
    · have hnext := hrow (i + 1) (by omega) (by omega)
      rw [if_neg (by omega), if_pos (by omega), ← h.slot (i + 1) (by omega)]
      congr 1
      omega

end Ring

end RingQueue
