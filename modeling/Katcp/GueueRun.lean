import Katcp.RingQueue

namespace Katcp

section

open RingQueue

variable {α : Type}

/-- `katcl_gueue`; the size is the length of the block. A datum is never `NULL`, a free slot
is. -/
structure Gueue (α : Type) where
  gQueue : List (Option α)
  gHead : Nat
  gCount : Nat
  gRelease : Bool
  gPrecedence : Option (α → Nat)

def Gueue.gSize (g : Gueue α) : Nat := g.gQueue.length

def createPrecedenceGueue (release : Bool) (precedence : Option (α → Nat)) : Gueue α :=
  ⟨[], 0, 0, release, precedence⟩

/-- The loop of `clear_gueue_katcl` from the element `j` on, `n` of them: what is handed to
the release function, and the slots. `none` is a crash. -/
def clearSlots (head : Nat) : Nat → Nat → List (Option α) → Option (List (Option α) × List (Option α))
  | 0, _, slots => some ([], slots)
  | n + 1, j, slots =>
    let i := (head + j) % slots.length
    match slots[i]? with
    | none => none
    | some datum =>
      (clearSlots head n (j + 1) (slots.set i none)).map fun (released, slots) => (datum :: released, slots)

def clearGueue (g : Gueue α) : Option (List (Option α) × Gueue α) :=
  (clearSlots g.gHead g.gCount 0 g.gQueue).map fun (released, slots) =>
    (if g.gRelease then released else [], { g with gQueue := slots, gCount := 0 })

/-- The queue grows by one slot when it is full. -/
def addTailGueue (g : Gueue α) (datum : Option α) : Option (Int × Gueue α) :=
  match datum with
  | none => some (-1, g)
  | some x =>
    let place (slots : List (Option α)) : Int × Gueue α :=
      let index := (g.gHead + g.gCount) % slots.length
      (0, { g with gQueue := slots.set index (some x), gCount := g.gCount + 1 })
    if g.gCount ≥ g.gSize then
      if g.gSize < g.gCount then none else some (place (grown g.gQueue g.gHead))
    else some (place g.gQueue)

def getFromHeadGueue (g : Gueue α) (position : Nat) : Option (Option α) :=
  if g.gCount = 0 ∨ g.gSize = 0 ∨ g.gCount > g.gSize then some none
  else if position < g.gCount then g.gQueue[(g.gHead + position) % g.gSize]?
  else some none

def getHeadGueue (g : Gueue α) : Option (Option α) :=
  if g.gCount > 0 then g.gQueue[g.gHead]? else some none

/-- The loops over the queue, from the element `j` on: the first slot whose datum passes the
test. -/
def searchGueue (g : Gueue α) (test : α → Bool) : Nat → Nat → Option (Option Nat)
  | 0, _ => some none
  | n + 1, j =>
    let i := (g.gHead + j) % g.gSize
    match g.gQueue[i]? with
    | some (some x) => if test x then some (some i) else searchGueue g test n (j + 1)
    | _ => none

def getPrecedenceHeadGueue (g : Gueue α) (precedence : Nat) : Option (Option α) :=
  match g.gPrecedence with
  | none => getHeadGueue g
  | some value =>
    if g.gCount = 0 then some none
    else if g.gSize = 0 ∨ g.gCount > g.gSize then none
    else
      match searchGueue g (fun x => value x ≥ precedence) g.gCount 0 with
      | none => none
      | some none => some none
      | some (some i) => g.gQueue[i]?

/-- A datum leaves its slot; an index outside of the block or of the queue is an abort. -/
def removeIndexGueue (g : Gueue α) (index : Nat) : Option (Option α × Gueue α) :=
  if g.gCount = 0 then some (none, g)
  else
    match g.gQueue[index]? with
    | none => none
    | some none => none
    | some (some datum) =>
      if index = g.gHead then
        some (some datum, { g with
          gQueue := g.gQueue.set index none, gHead := (g.gHead + 1) % g.gSize, gCount := g.gCount - 1 })
      else if index > g.gHead then
        some (some datum, { g with
          gQueue := closedAhead g.gQueue g.gHead index
          gHead := (g.gHead + 1) % g.gSize
          gCount := g.gCount - 1 })
      else
        let last := (g.gHead + g.gCount - 1) % g.gSize
        if index > last then none
        else some (some datum, { g with gQueue := closedBehind g.gQueue index last, gCount := g.gCount - 1 })

def removeFromHeadGueue (g : Gueue α) (position : Nat) : Option (Option α × Gueue α) :=
  if g.gCount = 0 ∨ g.gSize = 0 ∨ g.gCount > g.gSize then some (none, g)
  else if position ≥ g.gCount then some (none, g)
  else removeIndexGueue g ((g.gHead + position) % g.gSize)

def removeDatumGueue [DecidableEq α] (g : Gueue α) (datum : Option α) : Option (Option α × Gueue α) :=
  if g.gCount = 0 ∨ g.gSize = 0 ∨ g.gCount > g.gSize then some (none, g)
  else
    match searchGueue g (fun x => some x = datum) g.gCount 0 with
    | none => none
    | some none => some (none, g)
    | some (some i) => removeIndexGueue g i

def removeHeadGueue (g : Gueue α) : Option (Option α × Gueue α) := removeIndexGueue g g.gHead

inductive GueueCall (α : Type) where
  | addTail (datum : Option α)
  | removeHead
  | removeFromHead (position : Nat)
  | removeDatum (datum : Option α)
  | getHead
  | getFromHead (position : Nat)
  | getPrecedenceHead (precedence : Nat)
  | clear
  deriving DecidableEq, Repr

/-- What a call returns, or hands to the release function. -/
inductive GueueResult (α : Type) where
  | code (r : Int)
  | datum (d : Option α)
  | released (ds : List (Option α))
  deriving DecidableEq, Repr

variable [DecidableEq α]

def gueueCall (g : Gueue α) : GueueCall α → Option (GueueResult α × Gueue α)
  | .addTail datum => (addTailGueue g datum).map fun (r, g) => (.code r, g)
  | .removeHead => (removeHeadGueue g).map fun (d, g) => (.datum d, g)
  | .removeFromHead position => (removeFromHeadGueue g position).map fun (d, g) => (.datum d, g)
  | .removeDatum datum => (removeDatumGueue g datum).map fun (d, g) => (.datum d, g)
  | .getHead => (getHeadGueue g).map fun d => (.datum d, g)
  | .getFromHead position => (getFromHeadGueue g position).map fun d => (.datum d, g)
  | .getPrecedenceHead precedence => (getPrecedenceHeadGueue g precedence).map fun d => (.datum d, g)
  | .clear => (clearGueue g).map fun (ds, g) => (.released ds, g)

def gueueCalls : Gueue α → List (GueueCall α) → Option (List (GueueResult α) × Gueue α)
  | g, [] => some ([], g)
  | g, c :: calls => (gueueCall g c).bind fun (r, g) =>
      (gueueCalls g calls).map fun (rs, g) => (r :: rs, g)

/-- The same operations on a list. -/
def listCall (release : Bool) (precedence : Option (α → Nat)) (xs : List α) :
    GueueCall α → GueueResult α × List α
  | .addTail none => (.code (-1), xs)
  | .addTail (some x) => (.code 0, xs ++ [x])
  | .removeHead => (.datum xs.head?, xs.tail)
  | .removeFromHead position => (.datum xs[position]?, xs.eraseIdx position)
  | .removeDatum none => (.datum none, xs)
  | .removeDatum (some x) => (.datum (xs.find? (· = x)), xs.erase x)
  | .getHead => (.datum xs.head?, xs)
  | .getFromHead position => (.datum xs[position]?, xs)
  | .getPrecedenceHead least =>
    match precedence with
    | none => (.datum xs.head?, xs)
    | some value => (.datum (xs.find? fun x => least ≤ value x), xs)
  | .clear => (.released (if release then xs.map some else []), [])

def listCalls (release : Bool) (precedence : Option (α → Nat)) :
    List α → List (GueueCall α) → List (GueueResult α) × List α
  | xs, [] => ([], xs)
  | xs, c :: calls =>
    let (r, ys) := listCall release precedence xs c
    let (rs, zs) := listCalls release precedence ys calls
    (r :: rs, zs)

end

section

open RingQueue

variable {α : Type} {g : Gueue α} {xs : List α} {release : Bool} {precedence : Option (α → Nat)}

/-- A queue that holds these data, in this order. -/
structure Holds (release : Bool) (precedence : Option (α → Nat)) (g : Gueue α) (xs : List α) : Prop where
  ring : Ring g.gQueue g.gHead xs
  count : g.gCount = xs.length
  release : g.gRelease = release
  precedence : g.gPrecedence = precedence

theorem createPrecedenceGueue_holds : Holds release precedence (createPrecedenceGueue release precedence : Gueue α) [] :=
  ⟨Ring.empty, rfl, rfl, rfl⟩

theorem Holds.count_le (h : Holds release precedence g xs) : g.gCount ≤ g.gSize := by
  rw [h.count]
  exact h.ring.room

theorem addTailGueue_holds (h : Holds release precedence g xs) (x : α) :
    ∃ g', addTailGueue g (some x) = some (0, g') ∧ Holds release precedence g' (xs ++ [x]) := by
  have hle := h.count_le
  unfold addTailGueue
  dsimp only
  by_cases hfull : g.gCount ≥ g.gSize
  · rw [if_pos hfull, if_neg (by omega)]
    refine ⟨_, rfl, ?_, by simp [h.count], h.release, h.precedence⟩
    have hb := h.ring.bound
    have hlen : (grown g.gQueue g.gHead).length = g.gQueue.length + 1 := grown_length (by omega)
    have hadd := h.ring.grow.add (by have := h.ring.room; omega) x
    rwa [← h.count] at hadd
  · rw [if_neg hfull]
    refine ⟨_, rfl, ?_, by simp [h.count], h.release, h.precedence⟩
    have hadd := h.ring.add (by have := h.count; unfold Gueue.gSize at hfull; omega) x
    rwa [← h.count] at hadd

/-- The first loop of a search stops at the first datum that passes the test. -/
theorem searchGueue_spec (h : Holds release precedence g xs) (test : α → Bool) {n j : Nat}
    (hn : j + n = xs.length) : searchGueue g test n j =
      some (((xs.drop j).findIdx? test).map fun i => (g.gHead + (j + i)) % g.gSize) := by
  induction n generalizing j with
  | zero =>
    rw [searchGueue, List.drop_of_length_le (by omega)]
    rfl
  | succ n ih =>
    have hlt : j < xs.length := by omega
    have hroom := h.ring.room
    have hslot : g.gQueue[(g.gHead + j) % g.gSize]? = some xs[j]? := h.ring.slot j (by omega)
    rw [List.getElem?_eq_getElem hlt] at hslot
    rw [searchGueue, hslot, List.drop_eq_getElem_cons hlt, List.findIdx?_cons]
    dsimp only
    split
    next => simp
    next =>
      rw [ih (by omega)]
      cases (xs.drop (j + 1)).findIdx? test with
      | none => rfl
      | some i => simp [Nat.add_comm i 1, Nat.add_assoc]

theorem getFromHeadGueue_spec (h : Holds release precedence g xs) (position : Nat) :
    getFromHeadGueue g position = some xs[position]? := by
  have hle := h.count_le
  have hcount := h.count
  unfold getFromHeadGueue
  by_cases hz : g.gCount = 0
  · rw [if_pos (Or.inl hz), List.getElem?_eq_none (by omega)]
  · rw [if_neg (by omega)]
    split
    next hlt => exact h.ring.slot position (by unfold Gueue.gSize at hle; omega)
    next hge => rw [List.getElem?_eq_none (by omega)]

theorem getHeadGueue_spec (h : Holds release precedence g xs) : getHeadGueue g = some xs.head? := by
  rw [getHeadGueue, h.count]
  exact h.ring.read_head

theorem getPrecedenceHeadGueue_spec (h : Holds release precedence g xs) (least : Nat) :
    getPrecedenceHeadGueue g least = some (match precedence with
      | none => xs.head?
      | some value => xs.find? fun x => least ≤ value x) := by
  have hle := h.count_le
  have hcount := h.count
  unfold getPrecedenceHeadGueue
  rw [h.precedence]
  cases precedence with
  | none => exact getHeadGueue_spec h
  | some value =>
    dsimp only
    by_cases hz : g.gCount = 0
    · have hnil : xs = [] := List.eq_nil_of_length_eq_zero (by omega)
      rw [if_pos hz, hnil]
      rfl
    · rw [if_neg hz, if_neg (by omega), hcount, searchGueue_spec h _ (Nat.zero_add _), List.drop_zero,
        List.find?_eq_bind_findIdx?_getElem?]
      cases hf : xs.findIdx? fun x => least ≤ value x with
      | none => rfl
      | some i =>
        have hi : i < xs.length := (List.findIdx?_eq_some_iff_getElem.mp hf).1
        simp only [Option.map_some, Option.bind_some, Nat.zero_add]
        exact h.ring.slot i (by have := h.ring.room; omega)

/-- A datum is taken out of the place it is at. -/
theorem removeIndexGueue_spec (h : Holds release precedence g xs) {j : Nat} (hj : j < xs.length) :
    ∃ g', removeIndexGueue g ((g.gHead + j) % g.gSize) = some (xs[j]?, g') ∧
      Holds release precedence g' (xs.eraseIdx j) := by
  have hcount := h.count
  have hroom := h.ring.room
  have hhead := h.ring.size_pos hj
  have hsize : g.gSize = g.gQueue.length := rfl
  have herase := List.length_eraseIdx_of_lt hj
  have hslot := h.ring.slot j (by omega)
  rw [List.getElem?_eq_getElem hj] at hslot
  unfold removeIndexGueue
  rw [if_neg (by omega), hsize, hslot, List.getElem?_eq_getElem hj]
  dsimp only
  have hplace := turn_cases hhead (show j < g.gQueue.length by omega)
  by_cases hz : j = 0
  · subst hz
    rw [Nat.add_zero, Nat.mod_eq_of_lt hhead, if_pos rfl]
    refine ⟨_, rfl, ?_, by simp [hcount], h.release, h.precedence⟩
    rw [List.eraseIdx_zero]
    exact h.ring.takeHead hj
  · rw [if_neg (by omega)]
    by_cases hside : g.gHead + j < g.gQueue.length
    · rw [Nat.mod_eq_of_lt hside, if_pos (by omega)]
      exact ⟨_, rfl, h.ring.takeAhead hj hside, by simp [hcount, herase], h.release, h.precedence⟩
    · have hlast := turn_cases hhead (show g.gCount - 1 < g.gQueue.length by omega)
      rw [show g.gHead + (g.gCount - 1) = g.gHead + g.gCount - 1 by omega] at hlast
      rw [if_neg (by omega), if_neg (by omega)]
      refine ⟨_, rfl, ?_, by simp [hcount, herase], h.release, h.precedence⟩
      have htake := h.ring.takeBehind hj (Or.inr (by omega))
      rwa [← hcount] at htake

theorem removeFromHeadGueue_spec (h : Holds release precedence g xs) (position : Nat) :
    ∃ g', removeFromHeadGueue g position = some (xs[position]?, g') ∧
      Holds release precedence g' (xs.eraseIdx position) := by
  have hle := h.count_le
  have hcount := h.count
  unfold removeFromHeadGueue
  by_cases hlt : position < xs.length
  · rw [if_neg (by omega), if_neg (by omega)]
    exact removeIndexGueue_spec h hlt
  · have hsame : (if g.gCount = 0 ∨ g.gSize = 0 ∨ g.gCount > g.gSize then some (none, g)
        else if position ≥ g.gCount then some (none, g)
        else removeIndexGueue g ((g.gHead + position) % g.gSize)) = some (none, g) := by
      split
      · rfl
      · rw [if_pos (by omega)]
    rw [hsame, List.getElem?_eq_none (by omega), List.eraseIdx_of_length_le (by omega)]
    exact ⟨g, rfl, h⟩

theorem removeHeadGueue_spec (h : Holds release precedence g xs) :
    ∃ g', removeHeadGueue g = some (xs.head?, g') ∧ Holds release precedence g' xs.tail := by
  have hcount := h.count
  unfold removeHeadGueue
  by_cases hpos : 0 < xs.length
  · obtain ⟨g', hg', hh⟩ := removeIndexGueue_spec h hpos
    have hhead : g.gHead < g.gSize := h.ring.size_pos hpos
    rw [Nat.add_zero, Nat.mod_eq_of_lt hhead] at hg'
    rw [List.head?_eq_getElem?, ← List.eraseIdx_zero]
    exact ⟨g', hg', hh⟩
  · have hnil : xs = [] := List.eq_nil_of_length_eq_zero (by omega)
    subst hnil
    exact ⟨g, by rw [removeIndexGueue, if_pos (by simpa using hcount)]; rfl, h⟩

theorem removeDatumGueue_spec [DecidableEq α] (h : Holds release precedence g xs) (x : α) :
    ∃ g', removeDatumGueue g (some x) = some (xs.find? (· = x), g') ∧
      Holds release precedence g' (xs.erase x) := by
  have hle := h.count_le
  have hcount := h.count
  have hroom := h.ring.room
  unfold removeDatumGueue
  by_cases hz : g.gCount = 0
  · have hnil : xs = [] := List.eq_nil_of_length_eq_zero (by omega)
    subst hnil
    rw [if_pos (Or.inl hz)]
    exact ⟨g, rfl, h⟩
  · have htest : (fun y : α => decide (some y = some x)) = fun y => y == x := by
      funext y
      by_cases hy : y = x
      · simp [hy]
      · simp [hy]
    have hfind : (fun y : α => decide (y = x)) = fun y => y == x := by
      funext y
      rfl
    rw [if_neg (by omega), hcount, htest, searchGueue_spec h _ (Nat.zero_add _), List.drop_zero,
      hfind, List.find?_eq_bind_findIdx?_getElem?, List.erase_eq_eraseIdx, List.idxOf?]
    cases hf : xs.findIdx? fun y => y == x with
    | none => exact ⟨g, rfl, h⟩
    | some i =>
      have hi : i < xs.length := (List.findIdx?_eq_some_iff_getElem.mp hf).1
      simp only [Option.map_some, Option.bind_some, Nat.zero_add]
      exact removeIndexGueue_spec h hi

/-- No datum is `NULL`. -/
theorem removeDatumGueue_null [DecidableEq α] (h : Holds release precedence g xs) :
    removeDatumGueue g none = some (none, g) := by
  have hle := h.count_le
  unfold removeDatumGueue
  by_cases hz : g.gCount = 0
  · rw [if_pos (Or.inl hz)]
  · have htest : xs.findIdx? (fun x => decide (some x = none)) = none :=
      List.findIdx?_eq_none_iff.mpr fun x _ => by simp
    rw [if_neg (by omega), h.count, searchGueue_spec h _ (Nat.zero_add _), List.drop_zero, htest]
    rfl

/-- What the loop that empties a queue releases, and that it leaves no slot in use. -/
theorem clearSlots_spec {slots : List (Option α)} {head : Nat} {n j : Nat} (hring : Ring slots head xs)
    {part : List (Option α)} (hlen : part.length = slots.length) (hn : j + n = xs.length)
    (hpart : ∀ i, i < slots.length → part[(head + i) % slots.length]? = some (if i < j then none else xs[i]?)) :
    ∃ cleared, clearSlots head n j part = some ((xs.drop j).map some, cleared) ∧
      cleared.length = slots.length ∧ ∀ i, i < slots.length → cleared[i]? = some none := by
  have hroom := hring.room
  have hb := hring.bound
  induction n generalizing j part with
  | zero =>
    refine ⟨part, ?_, hlen, fun p hp => ?_⟩
    · rw [clearSlots, List.drop_of_length_le (by omega)]
      rfl
    · have hturn : (head + (p + slots.length - head) % slots.length) % slots.length = p := by
        rw [Nat.add_mod_mod, show head + (p + slots.length - head) = p + slots.length by omega, Nat.add_mod_right,
          Nat.mod_eq_of_lt hp]
      have hlt : (p + slots.length - head) % slots.length < slots.length := Nat.mod_lt _ (by omega)
      have hslot := hpart _ hlt
      rw [hturn] at hslot
      rw [hslot]
      split
      next => rfl
      next => rw [List.getElem?_eq_none (by omega)]
  | succ n ih =>
    have hj : j < xs.length := by omega
    have hhead : head < slots.length := by omega
    have hslot := hpart j (by omega)
    rw [if_neg (by omega), List.getElem?_eq_getElem hj] at hslot
    obtain ⟨cleared, hc, hcl, hfree⟩ := @ih (j + 1) (part.set ((head + j) % slots.length) none)
      (by rw [List.length_set, hlen]) (by omega) (by
        intro i hi
        rw [List.getElem?_set]
        by_cases he : (head + j) % slots.length = (head + i) % slots.length
        · have hij : i = j := by
            rcases turn_cases hhead hi with ⟨h1, _⟩ | ⟨h1, _⟩
            all_goals
              rcases turn_cases hhead (show j < slots.length by omega) with ⟨h2, _⟩ | ⟨h2, _⟩
              all_goals omega
          rw [if_pos he, if_pos (by rw [hlen]; exact Nat.mod_lt _ (by omega)), if_pos (by omega)]
        · have hij : i ≠ j := by
            rintro rfl
            exact he rfl
          rw [if_neg he, hpart i hi]
          by_cases hlt : i < j
          · rw [if_pos hlt, if_pos (by omega)]
          · rw [if_neg hlt, if_neg (by omega)])
    refine ⟨cleared, ?_, hcl, hfree⟩
    rw [clearSlots, hlen]
    dsimp only
    rw [hslot, List.drop_eq_getElem_cons hj]
    dsimp only
    rw [hc]
    rfl

theorem clearGueue_spec (h : Holds release precedence g xs) :
    ∃ g', clearGueue g = some (if release then xs.map some else [], g') ∧ Holds release precedence g' [] := by
  obtain ⟨cleared, hc, hlen, hfree⟩ := clearSlots_spec (j := 0) (n := g.gCount) h.ring rfl (by rw [h.count, Nat.zero_add])
    (fun i hi => by rw [if_neg (by omega), h.ring.slot i hi])
  refine ⟨{ g with gQueue := cleared, gCount := 0 }, ?_, ⟨?_, Nat.zero_le _, fun i hi => ?_⟩, rfl, h.release,
    h.precedence⟩
  · rw [clearGueue, hc, Option.map_some, List.drop_zero, h.release]
  · rw [hlen]
    exact h.ring.bound
  · exact hfree _ (by rw [hlen] at hi ⊢; exact Nat.mod_lt _ (by omega))

variable [DecidableEq α]

theorem gueueCall_spec (h : Holds release precedence g xs) (c : GueueCall α) :
    ∃ g', gueueCall g c = some ((listCall release precedence xs c).1, g') ∧
      Holds release precedence g' (listCall release precedence xs c).2 := by
  cases c with
  | addTail datum =>
    cases datum with
    | none => exact ⟨g, rfl, h⟩
    | some x =>
      obtain ⟨g', hc, hh⟩ := addTailGueue_holds h x
      exact ⟨g', by rw [gueueCall, hc]; rfl, hh⟩
  | removeHead =>
    obtain ⟨g', hc, hh⟩ := removeHeadGueue_spec h
    exact ⟨g', by rw [gueueCall, hc]; rfl, hh⟩
  | removeFromHead position =>
    obtain ⟨g', hc, hh⟩ := removeFromHeadGueue_spec h position
    exact ⟨g', by rw [gueueCall, hc]; rfl, hh⟩
  | removeDatum datum =>
    cases datum with
    | none => exact ⟨g, by rw [gueueCall, removeDatumGueue_null h]; rfl, h⟩
    | some x =>
      obtain ⟨g', hc, hh⟩ := removeDatumGueue_spec h x
      exact ⟨g', by rw [gueueCall, hc]; rfl, hh⟩
  | getHead => exact ⟨g, by rw [gueueCall, getHeadGueue_spec h]; rfl, h⟩
  | getFromHead position => exact ⟨g, by rw [gueueCall, getFromHeadGueue_spec h]; rfl, h⟩
  | getPrecedenceHead least =>
    refine ⟨g, ?_, ?_⟩
    · rw [gueueCall, getPrecedenceHeadGueue_spec h, listCall.eq_def]
      cases precedence <;> rfl
    · rw [listCall.eq_def]
      cases precedence <;> exact h
  | clear =>
    obtain ⟨g', hc, hh⟩ := clearGueue_spec h
    exact ⟨g', by rw [gueueCall, hc]; rfl, hh⟩

theorem gueueCalls_spec (h : Holds release precedence g xs) (calls : List (GueueCall α)) :
    ∃ g', gueueCalls g calls = some ((listCalls release precedence xs calls).1, g') ∧
      Holds release precedence g' (listCalls release precedence xs calls).2 := by
  induction calls generalizing g xs with
  | nil => exact ⟨g, rfl, h⟩
  | cons c calls ih =>
    obtain ⟨g1, hc, h1⟩ := gueueCall_spec h c
    obtain ⟨g2, hcs, h2⟩ := ih h1
    exact ⟨g2, by rw [gueueCalls, hc, Option.bind_some]; dsimp only; rw [hcs]; rfl, h2⟩

omit [DecidableEq α] in
/-- The queues of the endpoints as they lie in memory. -/
def ofRing (release : Bool) (q : RingQueue α) : Gueue α := ⟨q.slots, q.head, q.count, release, none⟩

omit [DecidableEq α] in
theorem ofRing_holds (q : RingQueue α) : Holds release none (ofRing release q) q.contents :=
  ⟨Ring.of_rotate q.head_bound q.rotate_eq, (contents_length q).symm, rfl, rfl⟩

omit [DecidableEq α] in
theorem addTailGueue_ofRing (q : RingQueue α) (x : α) :
    addTailGueue (ofRing release q) (some x) = some (0, ofRing release (q.addTail x)) := by
  have hle : (ofRing release q).gCount ≤ (ofRing release q).gSize := q.count_le_size
  unfold addTailGueue
  dsimp only
  by_cases hfull : (ofRing release q).gCount ≥ (ofRing release q).gSize
  · have hroom : q.room = grown q.slots q.head := if_neg (Nat.not_lt.mpr hfull)
    rw [if_pos hfull, if_neg (by omega)]
    simp only [ofRing, addTail, hroom]
  · have hroom : q.room = q.slots := if_pos (Nat.not_le.mp hfull)
    rw [if_neg hfull]
    simp only [ofRing, addTail, hroom]

omit [DecidableEq α] in
theorem removeHeadGueue_ofRing (q : RingQueue α) :
    removeHeadGueue (ofRing release q) = some (q.contents.head?, ofRing release q.removeHead) := by
  obtain ⟨g, hg, _⟩ := removeHeadGueue_spec (@ofRing_holds α release q)
  rw [hg]
  unfold removeHeadGueue removeIndexGueue at hg
  by_cases hz : (ofRing release q).gCount = 0
  · have hsame : q.removeHead = q := dif_neg (Nat.not_lt.mpr (Nat.le_of_eq hz))
    rw [if_pos hz] at hg
    rw [hsame, (Prod.mk.inj (Option.some.inj hg)).2]
  · rw [if_neg hz] at hg
    split at hg
    · cases hg
    · cases hg
    next x hx =>
      rw [if_pos rfl] at hg
      have hpos : 0 < q.count := Nat.pos_of_ne_zero hz
      rw [removeHead, dif_pos hpos, ← (Prod.mk.inj (Option.some.inj hg)).2]
      rfl

/-- The data of a queue are those of the list, from the head onwards, and its other slots are
free. -/
structure Window (g : Gueue α) (xs : List α) : Prop where
  count : g.gCount = xs.length
  live : ∀ i, i < xs.length → g.gQueue[(g.gHead + i) % g.gSize]? = some xs[i]?
  free : ∀ p, p < g.gSize → (∀ i, i < xs.length → (g.gHead + i) % g.gSize ≠ p) → g.gQueue[p]? = some none

omit [DecidableEq α] in
theorem Holds.window (h : Holds release precedence g xs) : Window g xs := by
  refine ⟨h.count, fun i hi => h.ring.slot i ?_, fun p hp hout => h.ring.free hp hout⟩
  have hroom := h.ring.room
  omega

/-- Whatever is called, the queue returns what a list would, and goes on holding the same. -/
theorem gueue_refines_list (release : Bool) (precedence : Option (α → Nat)) (calls : List (GueueCall α)) :
    ∃ g, gueueCalls (createPrecedenceGueue release precedence) calls =
        some ((listCalls release precedence [] calls).1, g) ∧
      Window g (listCalls release precedence [] calls).2 := by
  obtain ⟨g, hcalls, h⟩ := gueueCalls_spec (createPrecedenceGueue_holds (α := α)) calls
  exact ⟨g, hcalls, h.window⟩

end

end Katcp
