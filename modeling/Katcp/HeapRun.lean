import Katcp.LevelHeap
import Katcp.Machine

namespace Katcp

section

open LevelHeap

structure HeapNode (τ : Type) where
  nIndex : Nat
  nData : τ
  deriving DecidableEq, Repr

/-- The array of a heap, every node of which knows its place. -/
structure Heap (τ : Type) where
  hArray : List (HeapNode τ)
  indexed : hArray.map HeapNode.nIndex = List.range hArray.length

variable {τ : Type}

namespace Heap

def hSize (h : Heap τ) : Nat := h.hArray.length

def datas (h : Heap τ) : List τ := h.hArray.map HeapNode.nData

@[simp] theorem datas_length (h : Heap τ) : h.datas.length = h.hSize := by
  simp [datas, hSize]

end Heap

def initHeap : Heap τ := ⟨[], rfl⟩

def getTop (h : Heap τ) : Option τ := (h.hArray[0]?).map HeapNode.nData

def getDataByIndex (h : Heap τ) (index : Nat) : Option τ := (h.hArray[index]?).map HeapNode.nData

theorem swapped_indices {xs : List (HeapNode τ)} {a b : Nat} {alpha beta : HeapNode τ}
    (hx : xs.map HeapNode.nIndex = List.range xs.length) (ha : xs[a]? = some alpha)
    (hb : xs[b]? = some beta) :
    ((xs.set a { beta with nIndex := alpha.nIndex }).set b { alpha with nIndex := beta.nIndex }).map
      HeapNode.nIndex = List.range xs.length := by
  rw [← hx, List.map_set, List.map_set]
  apply List.ext_getElem?
  intro k
  rw [List.getElem?_set, List.getElem?_set]
  by_cases hkb : b = k
  · subst hkb
    obtain ⟨hlt, rfl⟩ := List.getElem?_eq_some_iff.mp hb
    simp [hlt]
  · by_cases hka : a = k
    · subst hka
      obtain ⟨hlt, rfl⟩ := List.getElem?_eq_some_iff.mp ha
      simp [hkb, hlt]
    · simp [hkb, hka]

def swapNodes (h : Heap τ) (indexA indexB : Nat) : Heap τ :=
  match ha : h.hArray[indexA]?, hb : h.hArray[indexB]? with
  | some alpha, some beta =>
    if indexA = indexB then h
    else
      { hArray := (h.hArray.set indexA { beta with nIndex := alpha.nIndex }).set indexB
          { alpha with nIndex := beta.nIndex }
        indexed := by
          rw [List.length_set, List.length_set]
          exact swapped_indices h.indexed ha hb }
  | _, _ => h

def cascadeUpLoop (minCmp : τ → τ → Bool) : Nat → Heap τ → Nat → Heap τ
  | 0, h, _ => h
  | n + 1, h, child =>
    match h.hArray[child]?, h.hArray[parent child]? with
    | some c, some p =>
      if minCmp c.nData p.nData then
        let h := swapNodes h (parent child) child
        if parent child < 1 then h else cascadeUpLoop minCmp n h (parent child)
      else h
    | _, _ => h

def cascadeUp (minCmp : τ → τ → Bool) (h : Heap τ) (start : Nat) : Heap τ :=
  if h.hSize < 2 then h
  else if start < 1 then h
  else if start > h.hSize - 1 then h
  else cascadeUpLoop minCmp h.hSize h start

def cascadeDownLoop (minCmp : τ → τ → Bool) : Nat → Heap τ → Nat → Heap τ
  | 0, h, _ => h
  | n + 1, h, node =>
    let left := 2 * node + 1
    let right := 2 * node + 2
    match h.hArray[node]?, h.hArray[left]?, h.hArray[right]? with
    | some p, some l, none => if minCmp l.nData p.nData then swapNodes h left node else h
    | some p, some l, some r =>
      let (child, c) := if minCmp l.nData r.nData then (left, l) else (right, r)
      if minCmp c.nData p.nData then cascadeDownLoop minCmp n (swapNodes h child node) child else h
    | _, _, _ => h

def cascadeDown (minCmp : τ → τ → Bool) (h : Heap τ) (start : Nat) : Heap τ :=
  if h.hSize < 2 then h
  else if start ≥ h.hSize then h
  else cascadeDownLoop minCmp h.hSize h start

def addToHeap (minCmp : τ → τ → Bool) (h : Heap τ) (data : τ) : Heap τ :=
  let grown : Heap τ :=
    { hArray := h.hArray ++ [⟨h.hSize, data⟩]
      indexed := by
        simp [h.indexed, List.range_succ, Heap.hSize] }
  cascadeUp minCmp grown (grown.hSize - 1)

def updateNode (minCmp : τ → τ → Bool) (h : Heap τ) (index : Nat) (data : τ) : Heap τ :=
  match hn : h.hArray[index]? with
  | none => h
  | some n =>
    let changed : Heap τ :=
      { hArray := h.hArray.set index { n with nData := data }
        indexed := by
          obtain ⟨hi, rfl⟩ := List.getElem?_eq_some_iff.mp hn
          have hset : (h.hArray.map HeapNode.nIndex).set index h.hArray[index].nIndex =
              h.hArray.map HeapNode.nIndex := by
            rw [← List.getElem_map HeapNode.nIndex (h := by simpa using hi), List.set_getElem_self]
          rw [List.length_set, ← h.indexed, List.map_set]
          exact hset }
    cascadeDown minCmp (cascadeUp minCmp changed index) index

def removeTop (minCmp : τ → τ → Bool) (h : Heap τ) : Heap τ :=
  if h.hSize = 0 then h
  else
    let last := h.hSize - 1
    let swapped := if h.hSize = 1 then h else swapNodes h 0 last
    let shrunk : Heap τ :=
      { hArray := swapped.hArray.dropLast
        indexed := by
          rw [List.map_dropLast, swapped.indexed, List.length_dropLast, List.dropLast_eq_take,
            List.length_range, List.take_range, Nat.min_eq_left (Nat.sub_le _ _)] }
    cascadeDown minCmp shrunk 0

/-! The operations on the data of a heap. -/

variable {minCmp : τ → τ → Bool}

theorem before_datas (h : Heap τ) (i j : Nat) : before minCmp h.datas i j =
    match h.hArray[i]?, h.hArray[j]? with
    | some x, some y => minCmp x.nData y.nData
    | _, _ => false := by
  unfold before Heap.datas
  rw [List.getElem?_map, List.getElem?_map]
  cases h.hArray[i]? <;> cases h.hArray[j]? <;> rfl

theorem swapNodes_datas (h : Heap τ) (i j : Nat) : (swapNodes h i j).datas = swap h.datas i j := by
  unfold swapNodes swap Heap.datas
  rw [List.getElem?_map, List.getElem?_map]
  split
  next a b ha hb =>
    simp only [ha, hb, Option.map_some]
    split
    next he =>
      subst he
      obtain ⟨hlt, rfl⟩ := List.getElem?_eq_some_iff.mp ha
      have hab := Option.some.inj (ha.symm.trans hb)
      rw [← hab, List.set_set, ← List.getElem_map HeapNode.nData (h := by simpa using hlt),
        List.set_getElem_self]
    next => simp [List.map_set]
  next hno =>
    cases ha : h.hArray[i]? with
    | none => rfl
    | some a =>
      cases hb : h.hArray[j]? with
      | none => rfl
      | some b => exact absurd hb (hno a b ha)

theorem siftUp_root (n : Nat) (xs : List τ) : siftUp minCmp n xs 0 = xs := by
  cases n <;> simp [siftUp]

theorem cascadeUpLoop_datas (n : Nat) (h : Heap τ) {i : Nat} (hi : 0 < i) :
    (cascadeUpLoop minCmp n h i).datas = siftUp minCmp n h.datas i := by
  induction n generalizing h i with
  | zero => rfl
  | succ n ih =>
    rw [cascadeUpLoop, siftUp, before_datas]
    cases hc : h.hArray[i]? with
    | none => simp
    | some c =>
      cases hp : h.hArray[parent i]? with
      | none => simp
      | some p =>
        by_cases hcmp : minCmp c.nData p.nData = true
        · simp only [hi, hcmp, and_self, ↓reduceIte]
          by_cases hroot : parent i < 1
          · have hz : parent i = 0 := by omega
            simp only [hz, Nat.lt_one_iff, ↓reduceIte, swapNodes_datas, siftUp_root]
          · simp only [hroot, ↓reduceIte]
            rw [ih _ (by omega), swapNodes_datas]
        · simp [hcmp]

theorem cascadeUp_datas (h : Heap τ) {i : Nat} (hin : i < h.hSize) :
    (cascadeUp minCmp h i).datas = siftUp minCmp h.hSize h.datas i := by
  unfold cascadeUp
  by_cases hi : i < 1
  · have hz : i = 0 := by omega
    subst hz
    split <;> simp [siftUp_root]
  · rw [if_neg (by omega), if_neg hi, if_neg (by omega)]
    exact cascadeUpLoop_datas h.hSize h (by omega)

theorem cascadeDownLoop_datas (n : Nat) (h : Heap τ) {i : Nat} (hin : i < h.hSize) :
    (cascadeDownLoop minCmp n h i).datas = siftDown minCmp n h.datas i := by
  induction n generalizing h i with
  | zero => rfl
  | succ n ih =>
    have hlen : h.datas.length = h.hArray.length := h.datas_length
    obtain ⟨p, hp⟩ : ∃ p, h.hArray[i]? = some p := ⟨_, List.getElem?_eq_getElem hin⟩
    rw [cascadeDownLoop, siftDown]
    simp only [before_datas, hlen, hp]
    cases hl : h.hArray[2 * i + 1]? with
    | none =>
      have hle := List.getElem?_eq_none_iff.mp hl
      simp [hle]
    | some l =>
      have hll := (List.getElem?_eq_some_iff.mp hl).1
      rw [if_neg (by omega)]
      cases hr : h.hArray[2 * i + 2]? with
      | none =>
        have hle := List.getElem?_eq_none_iff.mp hr
        simp only [ge_iff_le, hle, ↓reduceIte]
        split
        · exact swapNodes_datas h _ _
        · rfl
      | some r =>
        have hrl := (List.getElem?_eq_some_iff.mp hr).1
        rw [if_neg (by omega)]
        have hsize : ∀ j, (swapNodes h j i).hSize = h.hSize := fun j => by
          rw [← Heap.datas_length, swapNodes_datas, swap_length, Heap.datas_length]
        by_cases hlr : minCmp l.nData r.nData = true
        · by_cases hc : minCmp l.nData p.nData = true
          · simp only [hlr, hc, hl, ↓reduceIte]
            rw [ih _ (by rw [hsize]; exact hll), swapNodes_datas]
          · simp [hlr, hc, hl]
        · by_cases hc : minCmp r.nData p.nData = true
          · simp only [hlr, hc, hr, Bool.false_eq_true, ↓reduceIte]
            rw [ih _ (by rw [hsize]; exact hrl), swapNodes_datas]
          · simp [hlr, hc, hr]

theorem cascadeDown_datas (h : Heap τ) (i : Nat) :
    (cascadeDown minCmp h i).datas = siftDown minCmp h.hSize h.datas i := by
  have hstop : ∀ {n : Nat}, h.hSize ≤ 2 * i + 1 → siftDown minCmp n h.datas i = h.datas := by
    intro n hle
    cases n with
    | zero => rfl
    | succ n =>
      rw [siftDown, Heap.datas_length]
      simp [hle]
  unfold cascadeDown
  split
  next hsmall => exact (hstop (by omega)).symm
  next =>
    split
    next hout => exact (hstop (by omega)).symm
    next hin => exact cascadeDownLoop_datas h.hSize h (by omega)

theorem addToHeap_datas (h : Heap τ) (x : τ) :
    (addToHeap minCmp h x).datas = siftUp minCmp (h.hSize + 1) (h.datas ++ [x]) h.hSize := by
  unfold addToHeap
  generalize hg : (⟨h.hArray ++ [⟨h.hSize, x⟩], _⟩ : Heap τ) = g
  have hd : g.datas = h.datas ++ [x] := by rw [← hg]; simp [Heap.datas]
  have hs : g.hSize = h.hSize + 1 := by rw [← hg]; simp [Heap.hSize]
  rw [cascadeUp_datas g (by omega), hd, hs, Nat.add_sub_cancel]

theorem updateNode_datas (h : Heap τ) {i : Nat} (hin : i < h.hSize) (x : τ) :
    (updateNode minCmp h i x).datas =
      siftDown minCmp h.hSize (siftUp minCmp h.hSize (h.datas.set i x) i) i := by
  unfold updateNode
  split
  next hn =>
    have := List.getElem?_eq_none_iff.mp hn
    unfold Heap.hSize at hin
    omega
  next n hn =>
    generalize hg : (⟨h.hArray.set i { n with nData := x }, _⟩ : Heap τ) = g
    have hd : g.datas = h.datas.set i x := by rw [← hg]; simp [Heap.datas, List.map_set]
    have hs : g.hSize = h.hSize := by rw [← hg]; simp [Heap.hSize]
    have hup := @cascadeUp_datas _ minCmp g i (by omega)
    have hus : (cascadeUp minCmp g i).hSize = g.hSize := by
      rw [← Heap.datas_length, hup, (siftUp_perm _ _ _).length_eq, Heap.datas_length]
    rw [cascadeDown_datas, hup, hus, hd, hs]

theorem removeTop_datas {h : Heap τ} (hne : h.hSize ≠ 0) :
    (removeTop minCmp h).datas = siftDown minCmp (h.hSize - 1) (topless h.datas) 0 := by
  unfold removeTop
  rw [if_neg hne]
  dsimp only
  rw [cascadeDown_datas]
  have hd : (if h.hSize = 1 then h else swapNodes h 0 (h.hSize - 1)).datas =
      swap h.datas 0 (h.datas.length - 1) := by
    split
    next h1 =>
      obtain ⟨x, hx⟩ := List.length_eq_one_iff.mp (h.datas_length.trans h1)
      rw [hx]
      rfl
    next => rw [swapNodes_datas, Heap.datas_length]
  have hs := congrArg List.length hd
  rw [swap_length, Heap.datas_length, Heap.datas_length] at hs
  have hdrop : ((if h.hSize = 1 then h else swapNodes h 0 (h.hSize - 1)).hArray.dropLast).map
      HeapNode.nData = topless h.datas := by
    rw [topless, ← hd, Heap.datas, List.map_dropLast]
  simp only [Heap.datas, Heap.hSize, List.length_dropLast] at hs hdrop ⊢
  rw [hdrop, hs]

end

section

open LevelHeap

variable {τ : Type} {minCmp : τ → τ → Bool}

theorem addToHeap_perm (h : Heap τ) (x : τ) : (addToHeap minCmp h x).datas.Perm (x :: h.datas) := by
  rw [addToHeap_datas]
  exact (siftUp_perm _ _ _).trans (List.perm_append_singleton _ _)

theorem addToHeap_ordered (weak : WeakOrder minCmp) {h : Heap τ} (hord : Ordered minCmp h.datas) (x : τ) :
    Ordered minCmp (addToHeap minCmp h x).datas := by
  have hlen := h.datas_length
  rw [addToHeap_datas, ← hlen]
  exact siftUp_ordered weak (UpReady.of_append hord x) (by simp) (by omega)

theorem removeTop_perm {h : Heap τ} {x : τ} {rest : List τ} (hd : h.datas = x :: rest) :
    (removeTop minCmp h).datas.Perm rest := by
  have hne : h.hSize ≠ 0 := by
    rw [← h.datas_length, hd]
    simp
  rw [removeTop_datas hne, hd]
  exact (siftDown_perm _ _ _).trans topless_perm

theorem removeTop_ordered (weak : WeakOrder minCmp) {h : Heap τ} (hord : Ordered minCmp h.datas)
    (hne : h.hSize ≠ 0) : Ordered minCmp (removeTop minCmp h).datas := by
  have hlen := h.datas_length
  rw [removeTop_datas hne]
  refine siftDown_ordered weak (DownReady.of_topless hord) ?_
  rw [topless, List.length_dropLast, swap_length]
  omega

theorem updateNode_perm (h : Heap τ) {i : Nat} (hin : i < h.hSize) (x : τ) :
    (updateNode minCmp h i x).datas.Perm (h.datas.set i x) := by
  rw [updateNode_datas h hin]
  exact (siftDown_perm _ _ _).trans (siftUp_perm _ _ _)

/-- An update restores the order when only what stands at its node, or how that compares, was
changed. -/
theorem updateNode_ordered {minCmp' : τ → τ → Bool} (weak : WeakOrder minCmp) (weak' : WeakOrder minCmp')
    {h : Heap τ} (hord : Ordered minCmp h.datas) {i : Nat} (hin : i < h.hSize) {x : τ}
    (hsame : ∀ k l, k ≠ i → l ≠ i → before minCmp' (h.datas.set i x) k l = before minCmp h.datas k l) :
    Ordered minCmp' (updateNode minCmp' h i x).datas := by
  have hlen := h.datas_length
  rw [updateNode_datas h hin]
  have hhole : Hole minCmp' (h.datas.set i x) i := Hole.of_ordered weak hord (by omega) hsame
  exact hhole.sift weak' (by simpa [hlen] using hin) (by omega) (by rw [List.length_set]; omega)

end

section

open LevelHeap
open scoped List

variable {τ κ : Type}

/-- Write a reference over the one of a node. -/
def setData (h : Heap τ) (index : Nat) (data : τ) : Heap τ where
  hArray := h.hArray.modify index ({ · with nData := data })
  indexed := by
    rw [List.length_modify, ← h.indexed]
    apply List.ext_getElem?
    intro k
    simp only [List.getElem?_map, List.getElem?_modify]
    cases h.hArray[k]? with
    | none => rfl
    | some n => by_cases hk : index = k <;> simp [hk]

/-- `update_top_of_heap`; without a top it is a crash. -/
def updateTop (minCmp : τ → τ → Bool) (h : Heap τ) (data : τ) : Option (Heap τ) :=
  if h.hSize = 0 then none else some (cascadeDown minCmp (setData h 0 data) 0)

/-- The loop of `add_to_heap` over its arguments, among which NULL is passed over. -/
def addAllToHeap (minCmp : τ → τ → Bool) (h : Heap τ) : List (Option τ) → Heap τ
  | [] => h
  | none :: rest => addAllToHeap minCmp h rest
  | some data :: rest => addAllToHeap minCmp (addToHeap minCmp h data) rest

/-- A heap of references, and the keys by which what they refer to is compared. -/
structure KeyedHeap (τ κ : Type) where
  heap : Heap τ
  key : τ → κ

/-- An update writes a reference to a node; with it what is referred to may get a new key. -/
inductive HeapAction (τ κ : Type) where
  | add (data : List (Option τ))
  | removeTop
  | updateNode (index : Nat) (data : τ) (change : Option κ)
  | updateTop (data : τ) (change : Option κ)

inductive HeapEvent (τ : Type) where
  | added (data : τ)
  | removed (data : τ)
  deriving DecidableEq, Repr

def keyCmp (less : κ → κ → Bool) (key : τ → κ) (x y : τ) : Bool := less (key x) (key y)

variable [DecidableEq τ]

def rekey (key : τ → κ) (data : τ) : Option κ → τ → κ
  | none, x => key x
  | some k, x => if x = data then k else key x

/-- Only the node at `index` compares by the key of `data`. -/
def oneNode (h : Heap τ) (index : Nat) (data : τ) : Bool :=
  (List.range h.hSize).all fun j => j = index || h.datas[j]? ≠ some data

def heapAction (less : κ → κ → Bool) (s : KeyedHeap τ κ) : HeapAction τ κ → Option (KeyedHeap τ κ)
  | .add data => some { s with heap := addAllToHeap (keyCmp less s.key) s.heap data }
  | .removeTop => some { s with heap := removeTop (keyCmp less s.key) s.heap }
  | .updateNode index data change =>
    if index < s.heap.hSize ∧ (change = none ∨ oneNode s.heap index data) then
      let key := rekey s.key data change
      some ⟨updateNode (keyCmp less key) s.heap index data, key⟩
    else none
  | .updateTop data change =>
    if change = none ∨ oneNode s.heap 0 data then
      let key := rekey s.key data change
      (updateTop (keyCmp less key) s.heap data).map fun h => ⟨h, key⟩
    else none

/-- A reference takes the place of the one at `index`, often its own. -/
def replaceEvents (h : Heap τ) (index : Nat) (data : τ) : List (HeapEvent τ) :=
  ((getDataByIndex h index).map HeapEvent.removed).toList ++ [.added data]

def heapEvents (s : KeyedHeap τ κ) : HeapAction τ κ → List (HeapEvent τ)
  | .add data => (data.filterMap id).map .added
  | .removeTop => ((getTop s.heap).map HeapEvent.removed).toList
  | .updateNode index data _ => replaceEvents s.heap index data
  | .updateTop data _ => replaceEvents s.heap 0 data

def heapMachine (less : κ → κ → Bool) (key : τ → κ) : Machine (KeyedHeap τ κ) (HeapAction τ κ) (HeapEvent τ) :=
  ⟨⟨initHeap, key⟩, heapAction less, heapEvents⟩

def addedData (log : List (HeapEvent τ)) : List τ :=
  log.filterMap fun | .added x => some x | .removed _ => none

def removedData (log : List (HeapEvent τ)) : List τ :=
  log.filterMap fun | .added _ => none | .removed x => some x

/-- What holds of a heap after any operations: the order, the positions, what it contains,
and the top. -/
structure HeapSound (less : κ → κ → Bool) (s : KeyedHeap τ κ) (log : List (HeapEvent τ)) : Prop where
  ordered : Ordered (keyCmp less s.key) s.heap.datas
  indexed : s.heap.hArray.map HeapNode.nIndex = List.range s.heap.hSize
  contents : (addedData log).Perm (removedData log ++ s.heap.datas)
  least : ∀ x, getTop s.heap = some x → ∀ y ∈ s.heap.datas, less (s.key y) (s.key x) = false
  top : getTop s.heap = none ↔ s.heap.datas = []

variable {less : κ → κ → Bool} {s s' : KeyedHeap τ κ} {log : List (HeapEvent τ)}

omit [DecidableEq τ] in
theorem keyCmp_weak (weak : WeakOrder less) (key : τ → κ) : WeakOrder (keyCmp less key) :=
  ⟨fun a b => weak.asymm (key a) (key b), fun a b c => weak.trans (key a) (key b) (key c)⟩

omit [DecidableEq τ] in
theorem getTop_eq (h : Heap τ) : getTop h = h.datas.head? := by
  rw [getTop, Heap.datas, List.head?_map, List.head?_eq_getElem?]

omit [DecidableEq τ] in
theorem getDataByIndex_eq (h : Heap τ) (index : Nat) : getDataByIndex h index = h.datas[index]? := by
  rw [getDataByIndex, Heap.datas, List.getElem?_map]

omit [DecidableEq τ] in
/-- Order and contents are all that has to be kept. -/
theorem HeapSound.of_ordered (weak : WeakOrder less) (hord : Ordered (keyCmp less s.key) s.heap.datas)
    (hcontents : (addedData log).Perm (removedData log ++ s.heap.datas)) : HeapSound less s log := by
  refine ⟨hord, s.heap.indexed, hcontents, fun x hx y hy => ?_, ?_⟩
  · obtain ⟨k, hk⟩ := List.getElem?_of_mem hy
    have htop := hord.top (keyCmp_weak weak s.key) k
    rw [getTop_eq, List.head?_eq_getElem?] at hx
    simpa [before, hk, hx, keyCmp] using htop
  · rw [getTop_eq, List.head?_eq_none_iff]

omit [DecidableEq τ] in
theorem setData_datas (h : Heap τ) (index : Nat) (data : τ) :
    (setData h index data).datas = h.datas.set index data := by
  apply List.ext_getElem?
  intro k
  simp only [Heap.datas, setData, List.getElem?_map, List.getElem?_modify, List.getElem?_set, List.length_map]
  by_cases hk : index = k
  · subst hk
    cases hn : h.hArray[index]? with
    | none => simpa using hn
    | some n => simp [(List.getElem?_eq_some_iff.mp hn).1]
  · cases h.hArray[k]? <;> simp [hk]

/-- A new key of what one node refers to leaves all other pairs as they compared. -/
theorem rekey_before (less : κ → κ → Bool) (key : τ → κ) {h : Heap τ} {index : Nat} {data : τ}
    {change : Option κ} (hone : change = none ∨ oneNode h index data = true) (k l : Nat)
    (hk : k ≠ index) (hl : l ≠ index) :
    before (keyCmp less (rekey key data change)) (h.datas.set index data) k l =
      before (keyCmp less key) h.datas k l := by
  have hsame : ∀ {j : Nat} {x : τ}, j ≠ index → h.datas[j]? = some x → rekey key data change x = key x := by
    intro j x hj hx
    rcases hone with rfl | hone
    · rfl
    · cases change with
      | none => rfl
      | some c =>
        have hlt : j < h.hSize := by
          rw [← h.datas_length]
          exact (List.getElem?_eq_some_iff.mp hx).1
        have hother := List.all_eq_true.mp hone j (List.mem_range.mpr hlt)
        have hne : x ≠ data := by
          rintro rfl
          simp [hj, hx] at hother
        rw [rekey, if_neg hne]
  unfold before
  rw [List.getElem?_set_ne (Ne.symm hk), List.getElem?_set_ne (Ne.symm hl)]
  cases hxk : h.datas[k]? with
  | none => rfl
  | some x =>
    cases hxl : h.datas[l]? with
    | none => rfl
    | some y => simp only [keyCmp, hsame hk hxk, hsame hl hxl]

omit [DecidableEq τ] in
theorem addedData_append (log log' : List (HeapEvent τ)) :
    addedData (log ++ log') = addedData log ++ addedData log' := List.filterMap_append

omit [DecidableEq τ] in
theorem removedData_append (log log' : List (HeapEvent τ)) :
    removedData (log ++ log') = removedData log ++ removedData log' := List.filterMap_append

omit [DecidableEq τ] in
/-- What an operation puts in and takes out, against the contents before and after it. -/
theorem HeapSound.step (weak : WeakOrder less) (h : HeapSound less s log) {events : List (HeapEvent τ)}
    (hord : Ordered (keyCmp less s'.key) s'.heap.datas)
    (hevents : (removedData events ++ s'.heap.datas).Perm (addedData events ++ s.heap.datas)) :
    HeapSound less s' (log ++ events) := by
  refine .of_ordered weak hord ?_
  rw [addedData_append, removedData_append, List.append_assoc]
  calc addedData log ++ addedData events
      _ ~ (removedData log ++ s.heap.datas) ++ addedData events := h.contents.append_right _
      _ ~ removedData log ++ (addedData events ++ s.heap.datas) := by
        rw [List.append_assoc]
        exact List.perm_append_comm.append_left _
      _ ~ removedData log ++ (removedData events ++ s'.heap.datas) := hevents.symm.append_left _

omit [DecidableEq τ] in
theorem HeapSound.added (weak : WeakOrder less) (data : List (Option τ)) (h : HeapSound less s log) :
    HeapSound less { s with heap := addAllToHeap (keyCmp less s.key) s.heap data }
      (log ++ (data.filterMap id).map HeapEvent.added) := by
  induction data generalizing s log with
  | nil => simpa [addAllToHeap] using h
  | cons x rest ih =>
    cases x with
    | none => exact ih h
    | some x =>
      have hone : HeapSound less ⟨addToHeap (keyCmp less s.key) s.heap x, s.key⟩ (log ++ [.added x]) :=
        h.step weak (addToHeap_ordered (keyCmp_weak weak s.key) h.ordered x) (addToHeap_perm s.heap x)
      have hrest := ih hone
      rwa [List.append_assoc] at hrest

omit [DecidableEq τ] in
theorem HeapSound.removed (weak : WeakOrder less) (h : HeapSound less s log) :
    HeapSound less { s with heap := removeTop (keyCmp less s.key) s.heap }
      (log ++ ((getTop s.heap).map HeapEvent.removed).toList) := by
  cases hd : s.heap.datas with
  | nil =>
    have hsize : s.heap.hSize = 0 := by rw [← s.heap.datas_length, hd]; rfl
    have hsame : removeTop (keyCmp less s.key) s.heap = s.heap := by rw [removeTop, if_pos hsize]
    rw [getTop_eq, hd, hsame]
    simpa using h
  | cons x rest =>
    have hne : s.heap.hSize ≠ 0 := by
      rw [← s.heap.datas_length, hd]
      simp
    rw [getTop_eq, hd]
    refine h.step weak (removeTop_ordered (keyCmp_weak weak s.key) h.ordered hne) ?_
    rw [hd]
    exact (removeTop_perm hd).cons x

omit [DecidableEq τ] in
theorem replaced_perm (h : Heap τ) {index : Nat} (hin : index < h.hSize) (data : τ) :
    (removedData (replaceEvents h index data) ++ h.datas.set index data).Perm
      (addedData (replaceEvents h index data) ++ h.datas) := by
  have hlt : index < h.datas.length := by rwa [h.datas_length]
  have hget : h.datas[index]? = some h.datas[index] := List.getElem?_eq_getElem hlt
  have hset : h.datas.Perm (h.datas[index] :: h.datas.eraseIdx index) := (List.getElem_cons_eraseIdx_perm hlt).symm
  simp only [replaceEvents, getDataByIndex_eq, hget, Option.map_some, Option.toList_some]
  calc h.datas[index] :: h.datas.set index data
      _ ~ h.datas[index] :: data :: h.datas.eraseIdx index :=
        (List.set_perm_cons_eraseIdx hlt data).cons _
      _ ~ data :: h.datas[index] :: h.datas.eraseIdx index := List.Perm.swap _ _ _
      _ ~ data :: h.datas := hset.symm.cons _

theorem HeapSound.updated (weak : WeakOrder less) (h : HeapSound less s log) {index : Nat} {data : τ}
    {change : Option κ} (hin : index < s.heap.hSize)
    (hone : change = none ∨ oneNode s.heap index data = true) :
    HeapSound less ⟨updateNode (keyCmp less (rekey s.key data change)) s.heap index data, rekey s.key data change⟩
      (log ++ replaceEvents s.heap index data) := by
  refine h.step weak (updateNode_ordered (keyCmp_weak weak s.key) (keyCmp_weak weak _) h.ordered hin
    (rekey_before less s.key hone)) ?_
  exact ((updateNode_perm s.heap hin data).append_left _).trans (replaced_perm s.heap hin data)

omit [DecidableEq τ] in
theorem updateTop_datas {minCmp : τ → τ → Bool} {h h' : Heap τ} {data : τ}
    (hu : updateTop minCmp h data = some h') : 0 < h.hSize ∧
      h'.datas = siftDown minCmp h.hSize (h.datas.set 0 data) 0 := by
  unfold updateTop at hu
  split at hu
  · cases hu
  next hne =>
    cases hu
    have hsize : (setData h 0 data).hSize = h.hSize := by
      rw [← Heap.datas_length, setData_datas, List.length_set, Heap.datas_length]
    exact ⟨Nat.pos_of_ne_zero hne, by rw [cascadeDown_datas, setData_datas, hsize]⟩

theorem HeapSound.updatedTop (weak : WeakOrder less) (h : HeapSound less s log) {data : τ} {h' : Heap τ}
    {change : Option κ} (hone : change = none ∨ oneNode s.heap 0 data = true)
    (hu : updateTop (keyCmp less (rekey s.key data change)) s.heap data = some h') :
    HeapSound less ⟨h', rekey s.key data change⟩ (log ++ replaceEvents s.heap 0 data) := by
  obtain ⟨hin, hdatas⟩ := updateTop_datas hu
  have hlen := s.heap.datas_length
  have hhole : Hole (keyCmp less (rekey s.key data change)) (s.heap.datas.set 0 data) 0 :=
    Hole.of_ordered (keyCmp_weak weak s.key) h.ordered (by omega) (rekey_before less s.key hone)
  refine h.step weak ?_ ?_
  · rw [hdatas]
    refine siftDown_ordered (keyCmp_weak weak _) (hhole.downReady fun h0 => ?_) ?_
    · exact Nat.lt_irrefl 0 h0.1
    · rw [List.length_set]
      omega
  · rw [hdatas]
    exact ((siftDown_perm _ _ _).append_left _).trans (replaced_perm s.heap hin data)

theorem heap_keeps (weak : WeakOrder less) (key : τ → κ) :
    (heapMachine less key).Keeps (fun _ _ => True) (HeapSound less) := by
  intro s log a s' h _ hstep
  change heapAction less s a = some s' at hstep
  change HeapSound less s' (log ++ heapEvents s a)
  cases a with
  | add data =>
    cases hstep
    exact h.added weak data
  | removeTop =>
    cases hstep
    exact h.removed weak
  | updateNode index data change =>
    simp only [heapAction] at hstep
    split at hstep
    next hok =>
      cases hstep
      exact h.updated weak hok.1 hok.2
    next => cases hstep
  | updateTop data change =>
    simp only [heapAction] at hstep
    split at hstep
    next hok =>
      obtain ⟨h', hu, rfl⟩ := Option.map_eq_some_iff.mp hstep
      exact h.updatedTop weak hok hu
    next => cases hstep

/-- Additions, removals and updates in any order leave a heap that is sound. -/
theorem heap_stays_sound (weak : WeakOrder less) {key : τ → κ}
    (h : (heapMachine less key).Runs (fun _ _ => True) s log) : HeapSound less s log := by
  refine h.invariant (HeapSound less) ?_ (heap_keeps weak key)
  refine .of_ordered weak ?_ (List.Perm.refl _)
  intro k _
  simp [before, heapMachine, initHeap, Heap.datas]

theorem heap_stays_sound_three : ∃ s, HeapSound (fun a b : Nat => decide (a < b)) s
    [.added 'a', .added 'b', .added 'c', .removed 'b', .added 'b', .removed 'a', .added 'a',
      .removed 'c'] := by
  have weak : WeakOrder fun a b : Nat => decide (a < b) := by
    constructor
    · intro a b h
      simp only [decide_eq_true_eq, decide_eq_false_iff_not] at h ⊢
      omega
    · intro a b c h h'
      simp only [decide_eq_false_iff_not] at h h' ⊢
      omega
  exact ⟨_, heap_stays_sound weak (Machine.Runs.exec (.start (m := heapMachine _ fun c : Char => c.toNat))
    [.add [some 'a', none, some 'b', some 'c'], .updateNode 1 'b' (some 200), .updateNode 0 'a' (some 150),
      .removeTop] rfl (Machine.meets_true _ _ _))⟩

end

end Katcp
