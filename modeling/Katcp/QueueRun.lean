import Katcp.GueueRun

namespace Katcp

section

open RingQueue

/-- `katcl_queue`, the queue of messages; the size is the length of the block. -/
structure KatclQueue (α : Type) where
  qQueue : List (Option α)
  qHead : Nat
  qCount : Nat

variable {α : Type}

def KatclQueue.qSize (q : KatclQueue α) : Nat := q.qQueue.length

def createQueue : KatclQueue α := ⟨[], 0, 0⟩

/-- `copy_parse_katcl` shares messages that are complete only. -/
def copyParse (complete : α → Bool) (p : α) : Option α := if complete p then some p else none

/-- The loop of `clear_queue_katcl`: the messages whose reference is dropped, and the slots. A slot
without a message cannot be dropped. -/
def dropSlots (head : Nat) : Nat → Nat → List (Option α) → Option (List α × List (Option α))
  | 0, _, slots => some ([], slots)
  | n + 1, j, slots =>
    let i := (head + j) % slots.length
    match slots[i]? with
    | some (some p) =>
      (dropSlots head n (j + 1) (slots.set i none)).map fun (dropped, slots) => (p :: dropped, slots)
    | _ => none

def clearQueue (q : KatclQueue α) : Option (List α × KatclQueue α) :=
  (dropSlots q.qHead q.qCount 0 q.qQueue).map fun (dropped, slots) =>
    (dropped, { q with qQueue := slots, qCount := 0 })

/-- What the copy comes to is stored, whether or not it is a message. -/
def addTailQueue (complete : α → Bool) (q : KatclQueue α) (p : Option α) : Option (Int × KatclQueue α) :=
  match p with
  | none => some (-1, q)
  | some p =>
    let place (slots : List (Option α)) : Int × KatclQueue α :=
      let index := (q.qHead + q.qCount) % slots.length
      (0, { q with qQueue := slots.set index (copyParse complete p), qCount := q.qCount + 1 })
    if q.qCount ≥ q.qSize then
      if q.qSize < q.qCount then none else some (place (grown q.qQueue q.qHead))
    else some (place q.qQueue)

def getIndexQueue (q : KatclQueue α) (index : Nat) : Option (Option α) :=
  if q.qCount = 0 ∨ q.qSize = 0 ∨ q.qCount ≥ q.qSize then some none
  else if q.qCount > index ∧ index < q.qSize then q.qQueue[(q.qHead + index) % q.qSize]?
  else some none

def getHeadQueue (q : KatclQueue α) : Option (Option α) :=
  if q.qCount > 0 then q.qQueue[q.qHead]? else some none

/-- The index is that of a slot. A write behind the block is no step. -/
def removeIndexQueue (q : KatclQueue α) (index : Nat) : Option (Option α × KatclQueue α) :=
  if q.qCount = 0 then some (none, q)
  else
    match q.qQueue[index]? with
    | none => none
    | some none => none
    | some (some p) =>
      if index = q.qHead then
        some (some p, { q with
          qQueue := q.qQueue.set index none, qHead := (q.qHead + 1) % q.qSize, qCount := q.qCount - 1 })
      else if q.qHead + q.qCount > q.qSize ∧ index ≥ q.qHead then
        some (some p, { q with
          qQueue := closedAhead q.qQueue q.qHead index
          qHead := (q.qHead + 1) % q.qSize
          qCount := q.qCount - 1 })
      else if ¬ q.qHead + q.qCount > q.qSize ∧ index < q.qHead then
        some (none, { q with qQueue := q.qQueue.set index none })
      else
        let last := q.qHead + q.qCount - 1
        if index > last then some (none, { q with qQueue := q.qQueue.set index none })
        else if last ≥ q.qSize then none
        else some (some p, { q with qQueue := closedBehind q.qQueue index last, qCount := q.qCount - 1 })

def removeHeadQueue (q : KatclQueue α) : Option (Option α × KatclQueue α) := removeIndexQueue q q.qHead

/-- A call; the message to remove is told by its place behind the head. -/
inductive QueueCall (α : Type) where
  | addTail (p : Option α)
  | getHead
  | removeHead
  | getIndex (index : Nat)
  | removeIndex (position : Nat)
  | clear
  deriving DecidableEq, Repr

inductive QueueResult (α : Type) where
  | code (r : Int)
  | message (p : Option α)
  | dropped (ps : List α)
  deriving DecidableEq, Repr

def queueCall (complete : α → Bool) (q : KatclQueue α) : QueueCall α → Option (QueueResult α × KatclQueue α)
  | .addTail p => (addTailQueue complete q p).map fun (r, q) => (.code r, q)
  | .getHead => (getHeadQueue q).map fun p => (.message p, q)
  | .removeHead => (removeHeadQueue q).map fun (p, q) => (.message p, q)
  | .getIndex index => (getIndexQueue q index).map fun p => (.message p, q)
  | .removeIndex position =>
    (removeIndexQueue q ((q.qHead + position) % q.qSize)).map fun (p, q) => (.message p, q)
  | .clear => (clearQueue q).map fun (ps, q) => (.dropped ps, q)

/-- The messages from the head onwards; a slot may turn out to hold none. -/
def queueContents (q : KatclQueue α) : List (Option α) :=
  (List.range q.qCount).map fun i => (q.qQueue[(q.qHead + i) % q.qSize]?).join

/-- The same operations on a list of messages. -/
def messageCall (xs : List α) : QueueCall α → QueueResult α × List α
  | .addTail none => (.code (-1), xs)
  | .addTail (some p) => (.code 0, xs ++ [p])
  | .getHead => (.message xs.head?, xs)
  | .removeHead => (.message xs.head?, xs.tail)
  | .getIndex index => (.message xs[index]?, xs)
  | .removeIndex position => (.message xs[position]?, xs.eraseIdx position)
  | .clear => (.dropped xs, [])

/-- Only messages that are there are removed by their place. -/
def ValidCalls : List α → List (QueueCall α) → Prop
  | _, [] => True
  | xs, c :: calls =>
    (∀ position, c = .removeIndex position → position < xs.length) ∧ ValidCalls (messageCall xs c).2 calls

/-- A call returns what it would on a list, and the same messages remain. -/
def StepAgrees (complete : α → Bool) (q : KatclQueue α) (xs : List α) (c : QueueCall α) : Prop :=
  ∃ q', queueCall complete q c = some ((messageCall xs c).1, q') ∧
    queueContents q' = (messageCall xs c).2.map some

/-- All calls do, one after the other. -/
def QueueAgrees (complete : α → Bool) : KatclQueue α → List α → List (QueueCall α) → Prop
  | _, _, [] => True
  | q, xs, c :: calls => StepAgrees complete q xs c ∧
      ∀ r q', queueCall complete q c = some (r, q') → QueueAgrees complete q' (messageCall xs c).2 calls

end

section

open RingQueue

variable {α : Type} {q : KatclQueue α} {xs : List α} {complete : α → Bool}

/-- A queue that holds these messages, in this order. -/
structure QueueHolds (q : KatclQueue α) (xs : List α) : Prop where
  ring : Ring q.qQueue q.qHead xs
  count : q.qCount = xs.length

theorem createQueue_holds : QueueHolds (createQueue : KatclQueue α) [] := ⟨Ring.empty, rfl⟩

theorem QueueHolds.contents (h : QueueHolds q xs) : queueContents q = xs.map some := by
  refine List.ext_getElem? fun i => ?_
  rw [queueContents, List.getElem?_map, List.getElem?_map, h.count]
  by_cases hi : i < xs.length
  · have hroom := h.ring.room
    have hslot : q.qQueue[(q.qHead + i) % q.qSize]? = some xs[i]? := h.ring.slot i (by omega)
    rw [List.getElem?_range hi, List.getElem?_eq_getElem hi, Option.map_some, Option.map_some, hslot,
      List.getElem?_eq_getElem hi]
    rfl
  · rw [List.getElem?_eq_none (by simpa using hi), List.getElem?_eq_none (by omega)]
    rfl

/-- When a call does what it would on a list: an added message is complete, no message is looked up
by its index in a full queue, and none is removed out of the part wrapped around the end of the block. -/
def QueueFits (complete : α → Bool) (q : KatclQueue α) : QueueCall α → Prop
  | .addTail (some p) => complete p = true
  | .getIndex index => index < q.qCount → q.qCount < q.qSize
  | .removeIndex position => q.qHead + position < q.qSize
  | _ => True

/-- Every call fits the queue that it finds. -/
def FitsThroughout (complete : α → Bool) : KatclQueue α → List (QueueCall α) → Prop
  | _, [] => True
  | q, c :: calls => QueueFits complete q c ∧
      ∀ r q', queueCall complete q c = some (r, q') → FitsThroughout complete q' calls

/-- The queue after a message was put behind the last one. -/
theorem addTailQueue_slot (complete : α → Bool) (h : QueueHolds q xs) (p : α) :
    ∃ slots, addTailQueue complete q (some p) = some (0, { q with
        qQueue := slots.set ((q.qHead + xs.length) % slots.length) (copyParse complete p), qCount := xs.length + 1 }) ∧
      Ring slots q.qHead xs ∧ xs.length < slots.length := by
  have hcount := h.count
  have hroom : xs.length ≤ q.qSize := h.ring.room
  have hb := h.ring.bound
  unfold addTailQueue
  dsimp only
  rw [hcount]
  by_cases hfull : xs.length ≥ q.qSize
  · have hlen : (grown q.qQueue q.qHead).length = q.qQueue.length + 1 := grown_length (by omega)
    refine ⟨grown q.qQueue q.qHead, ?_, h.ring.grow, hlen ▸ Nat.lt_succ_of_le hroom⟩
    rw [if_pos hfull, if_neg (Nat.not_lt.mpr hroom)]
  · refine ⟨q.qQueue, by rw [if_neg hfull], h.ring, ?_⟩
    unfold KatclQueue.qSize at hfull
    omega

theorem addTailQueue_holds (h : QueueHolds q xs) {p : α} (hp : complete p = true) :
    ∃ q', addTailQueue complete q (some p) = some (0, q') ∧ QueueHolds q' (xs ++ [p]) := by
  obtain ⟨slots, hadd, hring, hlt⟩ := addTailQueue_slot complete h p
  refine ⟨_, hadd, ?_, by simp⟩
  have hnext := hring.add hlt p
  rwa [copyParse, if_pos hp]

/-- A message that is not complete takes up a slot and is not there. -/
theorem addTailQueue_lost (h : QueueHolds q xs) {p : α} (hp : complete p = false) {r : Int} {q' : KatclQueue α}
    (hadd : addTailQueue complete q (some p) = some (r, q')) : queueContents q' ≠ (xs ++ [p]).map some := by
  obtain ⟨slots, hslot, hring, hlt⟩ := addTailQueue_slot complete h p
  rw [hslot] at hadd
  have hq := (Prod.mk.inj (Option.some.inj hadd)).2
  intro hsame
  have hread := congrArg (·[xs.length]?) hsame
  have hturn : (q.qHead + xs.length) % slots.length < slots.length := Nat.mod_lt _ (by omega)
  have hnone : copyParse complete p = none := by
    rw [copyParse, hp]
    rfl
  subst hq
  simp [queueContents, KatclQueue.qSize, hturn, hnone] at hread

theorem getHeadQueue_spec (h : QueueHolds q xs) : getHeadQueue q = some xs.head? := by
  rw [getHeadQueue, h.count]
  exact h.ring.read_head

theorem getIndexQueue_spec (h : QueueHolds q xs) {index : Nat} (hfit : index < q.qCount → q.qCount < q.qSize) :
    getIndexQueue q index = some xs[index]? := by
  have hcount := h.count
  have hroom : xs.length ≤ q.qSize := h.ring.room
  unfold getIndexQueue
  by_cases hi : index < q.qCount
  · have hlt := hfit hi
    rw [if_neg (by omega), if_pos ⟨hi, by omega⟩]
    exact h.ring.slot index (show index < q.qSize by omega)
  · have hout : xs[index]? = none := List.getElem?_eq_none (by omega)
    rw [hout]
    split
    next => rfl
    next => rw [if_neg (by omega)]

/-- Nothing is found in a full queue. -/
theorem getIndexQueue_full {index : Nat} (hfull : q.qSize ≤ q.qCount) : getIndexQueue q index = some none := by
  rw [getIndexQueue, if_pos (Or.inr (Or.inr hfull))]

/-- A message is taken out of the part before the end of the block. -/
theorem removeIndexQueue_spec (h : QueueHolds q xs) {j : Nat} (hj : j < xs.length) (hfit : q.qHead + j < q.qSize) :
    ∃ q', removeIndexQueue q ((q.qHead + j) % q.qSize) = some (xs[j]?, q') ∧ QueueHolds q' (xs.eraseIdx j) := by
  have hcount := h.count
  have hroom := h.ring.room
  have hsize : q.qSize = q.qQueue.length := rfl
  have herase := List.length_eraseIdx_of_lt hj
  have hslot := h.ring.slot j (by omega)
  rw [List.getElem?_eq_getElem hj, ← hsize, Nat.mod_eq_of_lt hfit] at hslot
  rw [Nat.mod_eq_of_lt hfit, removeIndexQueue, if_neg (by omega), hslot, List.getElem?_eq_getElem hj]
  dsimp only
  by_cases hz : j = 0
  · subst hz
    rw [Nat.add_zero, if_pos rfl]
    refine ⟨_, rfl, ?_, by simp [hcount]⟩
    rw [List.eraseIdx_zero]
    exact h.ring.takeHead hj
  · rw [if_neg (by omega)]
    by_cases hwrap : q.qHead + q.qCount > q.qSize
    · rw [if_pos ⟨hwrap, by omega⟩]
      exact ⟨_, rfl, h.ring.takeAhead hj hfit, by simp [hcount, herase]⟩
    · rw [if_neg (by omega), if_neg (by omega), if_neg (by omega), if_neg (by omega)]
      refine ⟨_, rfl, ?_, by simp [hcount, herase]⟩
      have htake := h.ring.takeBehind hj (Or.inl (by omega))
      rwa [← hsize, Nat.mod_eq_of_lt hfit, Nat.mod_eq_of_lt (show q.qHead + xs.length - 1 < q.qSize by omega),
        ← hcount] at htake

/-- Out of the wrapped part a removal ends behind the block. -/
theorem removeIndexQueue_wrapped (h : QueueHolds q xs) {j : Nat} (hj : j < xs.length) (hout : q.qSize ≤ q.qHead + j) :
    removeIndexQueue q ((q.qHead + j) % q.qSize) = none := by
  have hcount := h.count
  have hroom := h.ring.room
  have hhead := h.ring.size_pos hj
  have hsize : q.qSize = q.qQueue.length := rfl
  have hslot := h.ring.slot j (by omega)
  rw [List.getElem?_eq_getElem hj, ← hsize] at hslot
  have hplace := turn_cases hhead (show j < q.qQueue.length by omega)
  rw [← hsize] at hplace
  rw [removeIndexQueue, if_neg (by omega), hslot]
  dsimp only
  rw [if_neg (by omega), if_neg (by omega), if_neg (by omega), if_neg (by omega), if_pos (by omega)]

theorem removeHeadQueue_spec (h : QueueHolds q xs) :
    ∃ q', removeHeadQueue q = some (xs.head?, q') ∧ QueueHolds q' xs.tail := by
  unfold removeHeadQueue
  by_cases hpos : 0 < xs.length
  · have hhead : q.qHead < q.qSize := h.ring.size_pos hpos
    obtain ⟨q', hq, hh⟩ := removeIndexQueue_spec h hpos hhead
    rw [Nat.add_zero, Nat.mod_eq_of_lt hhead] at hq
    rw [List.head?_eq_getElem?, ← List.eraseIdx_zero]
    exact ⟨q', hq, hh⟩
  · have hnil : xs = [] := List.eq_nil_of_length_eq_zero (by omega)
    subst hnil
    exact ⟨q, by rw [removeIndexQueue, if_pos (by simpa using h.count)]; rfl, h⟩

/-- Messages are dropped as the data of a generic queue are cleared. -/
theorem dropSlots_eq {head n j : Nat} {slots cleared : List (Option α)} {ps : List α}
    (h : clearSlots head n j slots = some (ps.map some, cleared)) : dropSlots head n j slots = some (ps, cleared) := by
  induction n generalizing j slots ps with
  | zero =>
    rw [clearSlots] at h
    obtain ⟨hps, hslots⟩ := Prod.mk.inj (Option.some.inj h)
    rw [dropSlots, hslots, List.map_eq_nil_iff.mp hps.symm]
  | succ n ih =>
    rw [clearSlots] at h
    rw [dropSlots]
    dsimp only at h ⊢
    split at h
    next => cases h
    next datum hdatum =>
      obtain ⟨⟨rest, slots'⟩, hrest, he⟩ := Option.map_eq_some_iff.mp h
      obtain ⟨hps, hslots⟩ := Prod.mk.inj he
      cases ps with
      | nil => cases hps
      | cons p ps =>
        obtain ⟨hp, hrest'⟩ := List.cons.inj hps
        subst hp hrest' hslots
        rw [hdatum]
        dsimp only
        rw [ih hrest]
        rfl

theorem clearQueue_spec (h : QueueHolds q xs) : ∃ q', clearQueue q = some (xs, q') ∧ QueueHolds q' [] := by
  obtain ⟨cleared, hc, hlen, hfree⟩ := clearSlots_spec (j := 0) (n := q.qCount) h.ring rfl
    (by rw [h.count, Nat.zero_add]) (fun i hi => by rw [if_neg (by omega), h.ring.slot i hi])
  rw [List.drop_zero] at hc
  refine ⟨{ q with qQueue := cleared, qCount := 0 }, ?_, ⟨?_, Nat.zero_le _, fun i hi => ?_⟩, rfl⟩
  · rw [clearQueue, dropSlots_eq hc, Option.map_some]
  · rw [hlen]
    exact h.ring.bound
  · exact hfree _ (by rw [hlen] at hi ⊢; exact Nat.mod_lt _ (by omega))

/-- A call that fits returns what a list would and leaves the same messages. -/
theorem queueCall_spec (h : QueueHolds q xs) {c : QueueCall α} (hfit : QueueFits complete q c)
    (hvalid : ∀ position, c = .removeIndex position → position < xs.length) :
    ∃ q', queueCall complete q c = some ((messageCall xs c).1, q') ∧ QueueHolds q' (messageCall xs c).2 := by
  cases c with
  | addTail p =>
    cases p with
    | none => exact ⟨q, rfl, h⟩
    | some p =>
      obtain ⟨q', hq, hh⟩ := addTailQueue_holds h hfit
      exact ⟨q', by rw [queueCall, hq]; rfl, hh⟩
  | getHead => exact ⟨q, by rw [queueCall, getHeadQueue_spec h]; rfl, h⟩
  | removeHead =>
    obtain ⟨q', hq, hh⟩ := removeHeadQueue_spec h
    exact ⟨q', by rw [queueCall, hq]; rfl, hh⟩
  | getIndex index => exact ⟨q, by rw [queueCall, getIndexQueue_spec h hfit]; rfl, h⟩
  | removeIndex position =>
    obtain ⟨q', hq, hh⟩ := removeIndexQueue_spec h (hvalid position rfl) hfit
    exact ⟨q', by rw [queueCall, hq]; rfl, hh⟩
  | clear =>
    obtain ⟨q', hq, hh⟩ := clearQueue_spec h
    exact ⟨q', by rw [queueCall, hq]; rfl, hh⟩

/-- A call that agrees with the list fits. -/
theorem StepAgrees.fits (h : QueueHolds q xs) {c : QueueCall α} (ha : StepAgrees complete q xs c)
    (hvalid : ∀ position, c = .removeIndex position → position < xs.length) : QueueFits complete q c := by
  obtain ⟨q', hq, hcontents⟩ := ha
  cases c with
  | addTail p =>
    cases p with
    | none => trivial
    | some p =>
      obtain ⟨⟨r, q1⟩, hadd, he⟩ := Option.map_eq_some_iff.mp hq
      cases (Prod.mk.inj he).2
      cases hp : complete p with
      | true => exact hp
      | false => exact absurd hcontents (addTailQueue_lost h hp hadd)
  | getIndex index =>
    intro hi
    by_contra hfull
    have hcount := h.count
    rw [queueCall, getIndexQueue_full (Nat.le_of_not_lt hfull)] at hq
    have hread := (Prod.mk.inj (Option.some.inj hq)).1
    rw [messageCall, List.getElem?_eq_getElem (by omega)] at hread
    cases hread
  | removeIndex position =>
    by_contra hout
    rw [queueCall, removeIndexQueue_wrapped h (hvalid position rfl) (Nat.le_of_not_lt hout)] at hq
    cases hq
  | getHead => trivial
  | removeHead => trivial
  | clear => trivial

theorem QueueHolds.agrees_iff (h : QueueHolds q xs) {calls : List (QueueCall α)} (hv : ValidCalls xs calls) :
    QueueAgrees complete q xs calls ↔ FitsThroughout complete q calls := by
  induction calls generalizing q xs with
  | nil => exact Iff.rfl
  | cons c calls ih =>
    obtain ⟨hvalid, hrest⟩ := hv
    constructor
    · rintro ⟨hstep, hlater⟩
      have hfit := hstep.fits h hvalid
      obtain ⟨q', hq, hh⟩ := queueCall_spec h hfit hvalid
      refine ⟨hfit, fun r q1 hq1 => ?_⟩
      rw [hq] at hq1
      cases (Prod.mk.inj (Option.some.inj hq1)).2
      exact (ih hh hrest).mp (hlater _ _ hq)
    · rintro ⟨hfit, hlater⟩
      obtain ⟨q', hq, hh⟩ := queueCall_spec h hfit hvalid
      refine ⟨⟨q', hq, hh.contents⟩, fun r q1 hq1 => ?_⟩
      rw [hq] at hq1
      cases (Prod.mk.inj (Option.some.inj hq1)).2
      exact (ih hh hrest).mpr (hlater _ _ hq)

/-- Whatever is called, the queue behaves like a list of messages exactly as long as every call fits
the queue that it finds. -/
theorem queue_agrees_iff (complete : α → Bool) (calls : List (QueueCall α)) (hv : ValidCalls [] calls) :
    QueueAgrees complete createQueue [] calls ↔ FitsThroughout complete createQueue calls :=
  createQueue_holds.agrees_iff hv

/-- Two messages in a queue of two slots: the second is there and is not found by its index. -/
theorem full_queue_hides : ¬ ∀ (complete : Nat → Bool) (calls : List (QueueCall Nat)), ValidCalls [] calls →
    QueueAgrees complete createQueue [] calls := by
  intro h
  have hv : ValidCalls [] [QueueCall.addTail (some 1), .addTail (some 2), .getIndex 1] := by
    simp [ValidCalls, messageCall]
  obtain ⟨-, h⟩ := h (fun _ => true) _ hv
  obtain ⟨-, h⟩ := h (.code 0) ⟨[some 1], 0, 1⟩ rfl
  obtain ⟨⟨q', hq, -⟩, -⟩ := h (.code 0) ⟨[some 1, some 2], 0, 2⟩ rfl
  cases hq

theorem queue_agrees_iff_wrapped :
    ValidCalls [] [QueueCall.addTail (some 1), .addTail (some 2), .removeHead, .addTail (some 3), .getHead] ∧
      (QueueAgrees (fun _ => true) createQueue [] [QueueCall.addTail (some 1), .addTail (some 2), .removeHead,
          .addTail (some 3), .getHead] ↔
        FitsThroughout (fun _ => true) createQueue [QueueCall.addTail (some 1), .addTail (some 2), .removeHead,
          .addTail (some 3), .getHead]) :=
  ⟨by simp [ValidCalls, messageCall], queue_agrees_iff _ _ (by simp [ValidCalls, messageCall])⟩

end

end Katcp
