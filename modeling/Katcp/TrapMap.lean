import Katcp.Machine
import Katcp.NamedVector

namespace Katcp

open SortedVector

structure KatcpTrap where
  tName : Text
  tNotice : Option Nat
  deriving DecidableEq, Repr

/-- The entries of a map; a slot without one is none. -/
structure KatcpMap where
  mTraps : List (Option KatcpTrap)

/-- What becomes of the notice of an entry. -/
inductive TrapEffect where
  | held (notice : Nat)
  | gaveParse (notice : Nat)
  | gaveNothing
  | triggered (notice : Nat)
  | released (notice : Nat)
  deriving DecidableEq, Repr

def destroyTrap (kt : KatcpTrap) (p : Bool) : List TrapEffect :=
  match kt.tNotice with
  | none => []
  | some n => [if p then .gaveParse n else .gaveNothing, .triggered n, .released n]

def createMap : KatcpMap := ⟨[]⟩

namespace KatcpMap

def locate (km : KatcpMap) (name : Text) (find : Bool) : Option Int :=
  bisect (probeBy KatcpTrap.tName km.mTraps name) find (km.mTraps.length + 1) 0 km.mTraps.length

/-- The inner `none` is where there is no entry. -/
def find (km : KatcpMap) (name : Text) : Option (Option KatcpTrap) := do
  let result ← km.locate name true
  if result < 0 then some none
  else do
    let kt ← km.mTraps[result.toNat]?.join
    some (some kt)

def remove (km : KatcpMap) (name : Text) (p : Bool) : Option (KatcpMap × Int × List TrapEffect) := do
  let result ← km.locate name true
  if result < 0 then some (km, -1, [])
  else do
    let kt ← km.mTraps[result.toNat]?.join
    let m := km.mTraps.length - 1
    let traps := (shiftDown (m - result.toNat) result.toNat km.mTraps).set m none
    some (⟨traps.take m⟩, 0, destroyTrap kt p)

/-- There is memory for the entry, and for the vector with it. -/
def add (km : KatcpMap) (name : Text) (n : Option Nat) : Option (KatcpMap × Int × List TrapEffect) := do
  let index ← km.locate name false
  if index < 0 then some (km, 1, [])
  else
    let traps := (shiftUp index.toNat km.mTraps.length (km.mTraps ++ [none])).set index.toNat (some ⟨name, n⟩)
    some (⟨traps⟩, 0, (n.map TrapEffect.held).toList)

end KatcpMap

inductive MapCall where
  | add (name : Text) (n : Option Nat)
  | remove (name : Text) (p : Bool)
  | find (name : Text)
  deriving DecidableEq, Repr

/-- What a call on a map returned. -/
inductive MapEvent where
  | added (name : Text) (n : Option Nat) (result : Int)
  | removed (name : Text) (result : Int)
  | found (name : Text) (kt : Option KatcpTrap)
  deriving DecidableEq, Repr

def MapCall.name : MapCall → Text
  | .add name _ | .remove name _ | .find name => name

def KatcpMap.call (km : KatcpMap) : MapCall → Option (KatcpMap × MapEvent × List TrapEffect)
  | .add name n => (km.add name n).map fun (km, r, es) => (km, .added name n r, es)
  | .remove name p => (km.remove name p).map fun (km, r, es) => (km, .removed name r, es)
  | .find name => (km.find name).map fun kt => (km, .found name kt, [])

def mapMachine : Machine KatcpMap MapCall MapEvent where
  start := createMap
  step km c := (km.call c).map fun r => r.1
  emits km c := ((km.call c).map fun r => r.2.1).toList

/-- What is added under each name, with nothing under a name from which it was removed. -/
abbrev MapHeld := Text → Option (Option Nat)

/-- What an event makes of what is added, if it is what has to happen then. -/
def MapHeld.accepts (held : MapHeld) : MapEvent → Option MapHeld
  | .added name n r =>
    if held name = none then if r = 0 then some (Function.update held name (some n)) else none
    else if r = 1 then some held else none
  | .removed name r =>
    if held name = none then if r = -1 then some held else none
    else if r = 0 then some (Function.update held name none) else none
  | .found name kt => if kt = (held name).map (fun n => ⟨name, n⟩) then some held else none

/-- What is added after a record, if everything in it is what had to happen. -/
def addedAfter (log : List MapEvent) : Option MapHeld := log.foldlM MapHeld.accepts fun _ => none

/-- A map has the entries that were added and not removed, in the order of their names. -/
structure MapKeeps (km : KatcpMap) (log : List MapEvent) : Prop where
  sorted : ∃ traps : List KatcpTrap, km.mTraps = traps.map some ∧
    traps.Pairwise fun t u => strcmp t.tName u.tName = .lt
  finds : ∃ held, addedAfter log = some held ∧
    ∀ name, km.find name = some ((held name).map fun n => ⟨name, n⟩)
  others : ∀ c, ∃ km' e es, km.call c = some (km', e, es) ∧ ∀ name, name ≠ c.name → km'.find name = km.find name

section

variable {km km' : KatcpMap} {traps : List KatcpTrap} {name n : Text} {log : List MapEvent} {held : MapHeld} {r : Int}

/-- The entries of a map in the order of their names, and what they hold. -/
structure Traps (km : KatcpMap) (traps : List KatcpTrap) : Prop where
  vector : km.mTraps = traps.map some
  sorted : NameSorted KatcpTrap.tName traps

theorem Traps.length (h : Traps km traps) : km.mTraps.length = traps.length := by rw [h.vector, List.length_map]

theorem Traps.locate (h : Traps km traps) (name : Text) (find : Bool) :
    ∃ r, km.locate name find = some r ∧
      Bisected (probeBy KatcpTrap.tName (traps.map some) name) traps.length find r := by
  unfold KatcpMap.locate
  rw [h.length, h.vector]
  exact bisect_all (h.sorted.aimed name) find

theorem Traps.get (h : Traps km traps) {i : Nat} (hi : i < traps.length) : km.mTraps[i]?.join = some traps[i] := by
  rw [h.vector, List.getElem?_map, List.getElem?_eq_getElem hi]
  rfl

/-- What there is under a name is found. -/
theorem Traps.find (h : Traps km traps) (name : Text) : km.find name = some (entryBy KatcpTrap.tName traps name) := by
  obtain ⟨r, hr, hanswer⟩ := h.locate name true
  unfold KatcpMap.find
  rw [hr]
  cases hanswer with
  | @found i hi he =>
    have hname := name_of_probe hi he
    rw [h.sorted.entryBy_get hi hname]
    simp [h.get hi]
  | absent hi hbelow habove =>
    rw [entryBy_of_absent (below_of_probe hi hbelow) (above_of_probe habove)]
    rfl

theorem Traps.remove_absent (h : Traps km traps) (hout : entryBy KatcpTrap.tName traps name = none) (p : Bool) :
    km.remove name p = some (km, -1, []) := by
  obtain ⟨r, hr, hanswer⟩ := h.locate name true
  unfold KatcpMap.remove
  rw [hr]
  cases hanswer with
  | @found i hi he =>
    rw [h.sorted.entryBy_get hi (name_of_probe hi he)] at hout
    cases hout
  | absent hi hbelow habove => rfl

theorem Traps.remove (h : Traps km traps) {t : KatcpTrap} (hin : entryBy KatcpTrap.tName traps name = some t)
    (p : Bool) : ∃ km' traps', km.remove name p = some (km', 0, destroyTrap t p) ∧ Traps km' traps' ∧
      ∀ n, entryBy KatcpTrap.tName traps' n = if name = n then none else entryBy KatcpTrap.tName traps n := by
  obtain ⟨r, hr, hanswer⟩ := h.locate name true
  cases hanswer with
  | absent hi hbelow habove =>
    rw [entryBy_of_absent (below_of_probe hi hbelow) (above_of_probe habove)] at hin
    cases hin
  | @found i hi he =>
    have hname := name_of_probe hi he
    cases Option.some.inj ((h.sorted.entryBy_get hi hname).symm.trans hin)
    have hsplit : km.mTraps = (traps.take i).map some ++ some traps[i] :: (traps.drop (i + 1)).map some := by
      rw [h.vector, ← List.map_cons, ← List.map_append, List.getElem_cons_drop, List.take_append_drop]
    have hfront : ((traps.take i).map some).length = i := by rw [List.length_map, List.length_take]; omega
    have hback : ((traps.drop (i + 1)).map some).length = traps.length - 1 - i := by
      rw [List.length_map, List.length_drop]
      omega
    have hshift := @shiftDown_take _ ((traps.take i).map some) ((traps.drop (i + 1)).map some) (some traps[i])
    rw [← hsplit, hfront, hback, show i + (traps.length - 1 - i) = traps.length - 1 by omega] at hshift
    refine ⟨⟨(traps.take i ++ traps.drop (i + 1)).map some⟩, _, ?_, ⟨rfl, h.sorted.erase i⟩,
      h.sorted.entryBy_erase hi hname⟩
    unfold KatcpMap.remove
    rw [hr]
    simp only [if_true, Option.bind_eq_bind, Option.bind_some, Int.toNat_natCast, h.get hi, h.length]
    rw [if_neg (by omega), List.take_set_of_le (Nat.le_refl _), hshift, List.map_append]

theorem Traps.add_present (h : Traps km traps) {t : KatcpTrap} (hin : entryBy KatcpTrap.tName traps name = some t)
    (n : Option Nat) : km.add name n = some (km, 1, []) := by
  obtain ⟨r, hr, hanswer⟩ := h.locate name false
  unfold KatcpMap.add
  rw [hr]
  cases hanswer with
  | found hi he => rfl
  | absent hi hbelow habove =>
    rw [entryBy_of_absent (below_of_probe hi hbelow) (above_of_probe habove)] at hin
    cases hin

theorem Traps.add (h : Traps km traps) (hout : entryBy KatcpTrap.tName traps name = none) (n : Option Nat) :
    ∃ km' traps', km.add name n = some (km', 0, (n.map TrapEffect.held).toList) ∧ Traps km' traps' ∧
      ∀ m, entryBy KatcpTrap.tName traps' m = if name = m then some ⟨name, n⟩ else entryBy KatcpTrap.tName traps m := by
  obtain ⟨r, hr, hanswer⟩ := h.locate name false
  cases hanswer with
  | @found i hi he =>
    rw [h.sorted.entryBy_get hi (name_of_probe hi he)] at hout
    cases hout
  | @absent i hi hbelow habove =>
    have hset := @shiftUp_set _ i (traps.map some) [] none (some (⟨name, n⟩ : KatcpTrap)) (by rwa [List.length_map])
    rw [← h.vector, h.length, h.vector, List.append_nil] at hset
    refine ⟨⟨(traps.take i ++ ⟨name, n⟩ :: traps.drop i).map some⟩, _, ?_,
      ⟨rfl, h.sorted.insert (below_of_probe hi hbelow) (above_of_probe habove)⟩, entryBy_insert hout⟩
    unfold KatcpMap.add
    rw [hr]
    simp only [Bool.false_eq_true, if_false, Option.bind_eq_bind, Option.bind_some, Int.toNat_natCast, h.length]
    rw [if_neg (by omega), h.vector, hset]
    simp [List.map_take, List.map_drop]

/-- The entries of a map, with what is held under each name. -/
structure TrapsHold (km : KatcpMap) (traps : List KatcpTrap) (held : MapHeld) : Prop where
  entries : Traps km traps
  holds : ∀ name, entryBy KatcpTrap.tName traps name = (held name).map fun n => ⟨name, n⟩

theorem TrapsHold.absent_iff (h : TrapsHold km traps held) (name : Text) :
    entryBy KatcpTrap.tName traps name = none ↔ held name = none := by
  rw [h.holds, Option.map_eq_none_iff]

theorem TrapsHold.update (h : TrapsHold km traps held) {traps' : List KatcpTrap} (htraps : Traps km' traps')
    (v : Option (Option Nat)) (hentry : ∀ m, entryBy KatcpTrap.tName traps' m =
      if name = m then v.map (fun n => ⟨name, n⟩) else entryBy KatcpTrap.tName traps m) :
    TrapsHold km' traps' (Function.update held name v) where
  entries := htraps
  holds m := by
    rw [hentry]
    by_cases hm : name = m
    · subst hm
      rw [if_pos rfl, Function.update_self]
    · rw [if_neg hm, Function.update_of_ne (Ne.symm hm), h.holds]

/-- Every call does what has to happen, and leaves what is held under other names alone. -/
theorem TrapsHold.call (h : TrapsHold km traps held) (c : MapCall) :
    ∃ km' e es traps' held', km.call c = some (km', e, es) ∧ held.accepts e = some held' ∧
      TrapsHold km' traps' held' ∧ ∀ name, name ≠ c.name → held' name = held name := by
  cases c with
  | add name n =>
    by_cases hout : entryBy KatcpTrap.tName traps name = none
    · obtain ⟨km', traps', hadd, htraps, hentry⟩ := h.entries.add hout n
      have hnone := (h.absent_iff name).mp hout
      refine ⟨km', .added name n 0, (n.map TrapEffect.held).toList, traps', Function.update held name (some n), ?_, ?_,
        h.update htraps (some n) hentry, fun m hm => Function.update_of_ne hm _ _⟩
      · rw [KatcpMap.call, hadd]
        rfl
      · rw [MapHeld.accepts, if_pos hnone, if_pos rfl]
    · obtain ⟨t, ht⟩ := Option.ne_none_iff_exists'.mp hout
      have hsome : held name ≠ none := fun hnone => hout ((h.absent_iff name).mpr hnone)
      refine ⟨km, .added name n 1, [], traps, held, ?_, ?_, h, fun m _ => rfl⟩
      · rw [KatcpMap.call, h.entries.add_present ht]
        rfl
      · rw [MapHeld.accepts, if_neg hsome, if_pos rfl]
  | remove name p =>
    by_cases hout : entryBy KatcpTrap.tName traps name = none
    · have hnone := (h.absent_iff name).mp hout
      refine ⟨km, .removed name (-1), [], traps, held, ?_, ?_, h, fun m _ => rfl⟩
      · rw [KatcpMap.call, h.entries.remove_absent hout]
        rfl
      · rw [MapHeld.accepts, if_pos hnone, if_pos rfl]
    · obtain ⟨t, ht⟩ := Option.ne_none_iff_exists'.mp hout
      have hsome : held name ≠ none := fun hnone => hout ((h.absent_iff name).mpr hnone)
      obtain ⟨km', traps', hremove, htraps, hentry⟩ := h.entries.remove ht p
      refine ⟨km', .removed name 0, destroyTrap t p, traps', Function.update held name none, ?_, ?_,
        h.update htraps none hentry, fun m hm => Function.update_of_ne hm _ _⟩
      · rw [KatcpMap.call, hremove]
        rfl
      · rw [MapHeld.accepts, if_neg hsome, if_pos rfl]
  | find name =>
    refine ⟨km, .found name (entryBy KatcpTrap.tName traps name), [], traps, held, ?_, ?_, h, fun m _ => rfl⟩
    · rw [KatcpMap.call, h.entries.find]
      rfl
    · rw [MapHeld.accepts, if_pos (h.holds name)]

theorem addedAfter_snoc {held' : MapHeld} {e : MapEvent} (h : addedAfter log = some held)
    (he : held.accepts e = some held') : addedAfter (log ++ [e]) = some held' := by
  unfold addedAfter at h ⊢
  rw [List.foldlM_append, h]
  simpa using he

theorem mapMachine_holds (h : mapMachine.Runs (fun _ _ => True) km log) :
    ∃ traps held, addedAfter log = some held ∧ TrapsHold km traps held := by
  refine h.invariant (fun km log => ∃ traps held, addedAfter log = some held ∧ TrapsHold km traps held) ?_ ?_
  · exact ⟨[], fun _ => none, rfl, ⟨rfl, List.Pairwise.nil⟩, fun _ => rfl⟩
  · rintro km log c km' ⟨traps, held, hlog, hholds⟩ - hstep
    obtain ⟨km1, e, es, traps', held', hcall, haccepts, hholds', -⟩ := hholds.call c
    have hkm : km1 = km' := by
      simp only [mapMachine, hcall, Option.map_some, Option.some.injEq] at hstep
      exact hstep
    have hemits : mapMachine.emits km c = [e] := by
      simp only [mapMachine, hcall, Option.map_some, Option.toList_some]
    subst hkm
    exact ⟨traps', held', by rw [hemits]; exact addedAfter_snoc hlog haccepts, hholds'⟩

/-- In every run a map keeps what was added and not removed, and every call is answered. -/
theorem map_keeps (h : mapMachine.Runs (fun _ _ => True) km log) : MapKeeps km log := by
  obtain ⟨traps, held, hlog, hholds⟩ := mapMachine_holds h
  refine ⟨⟨traps, hholds.entries.vector, hholds.entries.sorted⟩, ⟨held, hlog, fun name => ?_⟩, fun c => ?_⟩
  · rw [hholds.entries.find, hholds.holds]
  · obtain ⟨km', e, es, traps', held', hcall, -, hholds', hothers⟩ := hholds.call c
    refine ⟨km', e, es, hcall, fun name hname => ?_⟩
    rw [hholds'.entries.find, hholds'.holds, hholds.entries.find, hholds.holds, hothers name hname]

end

def mapCalls : List MapCall :=
  [.add [98] (some 1), .add [97] none, .add [98] (some 2), .remove [97] true, .find [98]]

theorem map_keeps_calls : ∃ km, MapKeeps km [.added [98] (some 1) 0, .added [97] none 0, .added [98] (some 2) 1,
    .removed [97] 0, .found [98] (some ⟨[98], some 1⟩)] := by
  have hrun : ∃ km, mapMachine.exec mapMachine.start mapCalls = some (km, [.added [98] (some 1) 0, .added [97] none 0,
      .added [98] (some 2) 1, .removed [97] 0, .found [98] (some ⟨[98], some 1⟩)]) := ⟨_, rfl⟩
  obtain ⟨km, he⟩ := hrun
  exact ⟨km, map_keeps (Machine.Runs.exec .start mapCalls he (Machine.meets_true ..))⟩

end Katcp
