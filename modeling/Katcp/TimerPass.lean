import Katcp.HeapRun
import Katcp.TimerTime

namespace Katcp

section

open LevelHeap

abbrev TimerName := List UInt8

abbrev TimerId := Nat

/-- `katcp_time` without its callback, which is only ever called; `δ` is what `t_data`
points to. -/
structure KatcpTime (δ : Type) where
  tName : Option TimerName
  tWhen : Timeval
  tInterval : Timeval
  tArmed : Bool
  tData : δ
  tHits : Nat
  tMisses : Nat
  tLate : Nat
  deriving DecidableEq, Repr

/-- The timers of the shared state: the heap, absent until the first registration, points
into the store, where a destroyed timer leaves a gap. -/
structure Timers (δ : Type) where
  tmrHeap : Option (Heap TimerId)
  store : List (Option (KatcpTime δ))

variable {δ : Type}

def noTimers : Timers δ := ⟨none, []⟩

namespace Timers

def at? (s : Timers δ) (id : TimerId) : Option (KatcpTime δ) := (s.store[id]?).join

def ids (s : Timers δ) : List TimerId :=
  match s.tmrHeap with
  | none => []
  | some h => h.datas

def whenOf (s : Timers δ) (id : TimerId) : Timeval :=
  match s.at? id with
  | none => .zero
  | some t => t.tWhen

def put (s : Timers δ) (id : TimerId) (t : KatcpTime δ) : Timers δ :=
  { s with store := s.store.set id (some t) }

end Timers

def cmpHeapTimers (s : Timers δ) (x y : TimerId) : Bool := cmpTime (s.whenOf x) (s.whenOf y) = -1

/-- Whether a heap operation finds every timer it may have to compare. -/
def comparable (s : Timers δ) : Bool := s.ids.all fun id => (s.at? id).isSome

/-- The search loops. The outer `none` is a crash: a timer already destroyed or, by name, a
timer that has none. -/
def searchName (s : Timers δ) (name : TimerName) : Nat → List TimerId → Option (Option (Nat × TimerId))
  | _, [] => some none
  | i, id :: ids =>
    match s.at? id with
    | none => none
    | some t =>
      match t.tName with
      | none => none
      | some tName => if tName.isPrefixOf name then some (some (i, id)) else searchName s name (i + 1) ids

def findByName (s : Timers δ) (name : TimerName) : Option (Option (Nat × TimerId)) :=
  searchName s name 0 s.ids

variable [DecidableEq δ]

def searchData (s : Timers δ) (data : δ) : Nat → List TimerId → Option (Option (Nat × TimerId))
  | _, [] => some none
  | i, id :: ids =>
    match s.at? id with
    | none => none
    | some t => if t.tData = data then some (some (i, id)) else searchData s data (i + 1) ids

def findByDataRef (s : Timers δ) (data : δ) : Option (Option (Nat × TimerId)) :=
  searchData s data 0 s.ids

omit [DecidableEq δ] in
/-- `create_ts_katcp` and `add_to_heap` of the registering calls. -/
def createTimer (s : Timers δ) (h : Heap TimerId) (t : KatcpTime δ) : Option (Int × Timers δ) :=
  let s := { s with store := s.store ++ [some t] }
  if comparable s then
    some (0, { s with tmrHeap := some (addToHeap (cmpHeapTimers s) h (s.store.length - 1)) })
  else none

omit [DecidableEq δ] in
/-- What the registering calls share: a name that is already there is not registered again. -/
def registerTimer (s : Timers δ) (whenTv interval : Timeval) (data : δ) (name : Option TimerName) :
    Option (Int × Timers δ) :=
  let h := s.tmrHeap.getD initHeap
  let s := { s with tmrHeap := some h }
  let t : KatcpTime δ := ⟨name, whenTv, interval, true, data, 0, 0, 0⟩
  match name with
  | none => createTimer s h t
  | some n =>
    match findByName s n with
    | none => none
    | some (some _) => some (1, s)
    | some none => createTimer s h t

omit [DecidableEq δ] in
def registerAt (s : Timers δ) (tv : Timeval) (data : δ) (name : Option TimerName) :
    Option (Int × Timers δ) :=
  registerTimer s tv .zero data name

omit [DecidableEq δ] in
def registerIn (s : Timers δ) (now tv : Timeval) (data : δ) (name : Option TimerName) :
    Option (Int × Timers δ) :=
  registerTimer s (addTime now tv) .zero data name

omit [DecidableEq δ] in
def registerEvery (s : Timers δ) (now tv : Timeval) (data : δ) (name : Option TimerName) :
    Option (Int × Timers δ) :=
  registerTimer s (addTime now tv) tv data name

def disarmed (s : Timers δ) (id : TimerId) : Timers δ :=
  match s.at? id with
  | none => s
  | some t => s.put id { t with tArmed := false }

def disarmByRef (s : Timers δ) (data : δ) : Option (Int × Timers δ) :=
  match findByDataRef s data with
  | none => none
  | some none => some (-1, s)
  | some (some (_, id)) => some (0, disarmed s id)

def disarmByName (s : Timers δ) (name : TimerName) : Option (Int × Timers δ) :=
  match findByName s name with
  | none => none
  | some none => some (-1, s)
  | some (some (_, id)) => some (0, disarmed s id)

def updateOnHeap (s : Timers δ) (index : Nat) (id : TimerId) : Option (Timers δ) :=
  match s.tmrHeap with
  | none => none
  | some h =>
    if comparable s then some { s with tmrHeap := some (updateNode (cmpHeapTimers s) h index id) }
    else none

/-- The end of the two adjusting calls. -/
def readjusted (s : Timers δ) (now adjust : Timeval) (index : Nat) (id : TimerId) :
    Option (Int × Timers δ) :=
  match s.at? id with
  | none => none
  | some t => (updateOnHeap (s.put id { t with
      tInterval := adjust, tWhen := addTime now adjust }) index id).map fun s => (0, s)

def adjustInterval (s : Timers δ) (now adjust : Timeval) (name : TimerName) :
    Option (Int × Timers δ) :=
  match findByName s name with
  | none => none
  | some none => some (-1, s)
  | some (some (index, id)) => readjusted s now adjust index id

def adjustIntervalAnonymous (s : Timers δ) (now adjust : Timeval) (data : δ) :
    Option (Int × Timers δ) :=
  match findByDataRef s data with
  | none => none
  | some none => some (-1, s)
  | some (some (index, id)) => readjusted s now adjust index id

def renameTimer (s : Timers δ) (oldName newName : TimerName) : Option (Int × Timers δ) :=
  match findByName s oldName with
  | none => none
  | some none => some (-1, s)
  | some (some (_, id)) =>
    match findByName s newName with
    | none => none
    | some (some _) => some (-1, s)
    | some none =>
      match s.at? id with
      | none => none
      | some t => some (0, s.put id { t with tName := some newName })

def removeTopTimer (s : Timers δ) : Option (Timers δ) :=
  match s.tmrHeap with
  | none => none
  | some h =>
    if comparable s then some { s with tmrHeap := some (removeTop (cmpHeapTimers s) h) } else none

def destroyTs (s : Timers δ) (id : TimerId) : Timers δ := { s with store := s.store.set id none }

end

section

open LevelHeap

variable {δ : Type}

def defaultDeadline : Timeval := .ofUsec 100000

/-- `load_heap_timers_katcp`: the unarmed timers at the top go; the answer is the delay to
the first armed one. -/
def loadLoop : Nat → Timers δ → Timeval → Option (Int × Option Timeval × Timers δ)
  | 0, s, _ => some (-1, none, s)
  | n + 1, s, now =>
    match s.ids.head? with
    | none => some (-1, none, s)
    | some id =>
      match s.at? id with
      | none => none
      | some t =>
        if t.tArmed then some (0, some (subTime t.tWhen now).1, s)
        else
          match removeTopTimer s with
          | none => none
          | some s => loadLoop n (destroyTs s id) now

def loadHeapTimers (s : Timers δ) (now : Timeval) : Option (Int × Option Timeval × Timers δ) :=
  match s.tmrHeap with
  | none => some (1, none, s)
  | some h => loadLoop (h.hSize + 1) s now

/-- `run_heap_timers_katcp` up to its callback: it has returned, or it calls the callback of
the timer `id`. -/
inductive PassStart (δ : Type) where
  | returns (result : Int) (s : Timers δ)
  | fires (id : TimerId) (s : Timers δ)

def startPass (s : Timers δ) (now : Timeval) : Option (PassStart δ) :=
  match s.tmrHeap with
  | none => some (.returns 1 s)
  | some _ =>
    match s.ids.head? with
    | none => some (.returns (-1) s)
    | some id =>
      match s.at? id with
      | none => none
      | some t =>
        if ¬ t.tArmed then
          match removeTopTimer s with
          | none => none
          | some s => some (.returns 1 (destroyTs s id))
        else if cmpTime t.tWhen now > 0 then some (.returns 1 s)
        else if cmpTime t.tWhen (subTime now defaultDeadline).1 ≤ 0 then
          some (.fires id (s.put id { t with tLate := t.tLate + 1 }))
        else some (.fires id (s.put id { t with tHits := t.tHits + 1 }))

/-- The next time of a periodic timer that was run, `now` read after its callback; `none` is
the crash of a division by zero. -/
def reschedule (t : KatcpTime δ) (now : Timeval) : Option (KatcpTime δ) :=
  let next := addTime t.tWhen t.tInterval
  if cmpTime next now ≤ 0 then
    if t.tInterval.usecs = 0 then none
    else
      let missed := (subTime now next).1.usecs / t.tInterval.usecs
      some { t with tMisses := t.tMisses + missed, tWhen := addTime now t.tInterval }
  else some { t with tWhen := next }

/-- `run_heap_timers_katcp` from the return of its callback on. -/
def finishPass (s : Timers δ) (id : TimerId) (now : Timeval) : Option (Int × Timers δ) :=
  match s.at? id with
  | none => none
  | some t =>
    if t.tInterval.tvSec = 0 ∧ t.tInterval.tvUsec = 0 then
      (removeTopTimer (s.put id { t with tArmed := false })).map fun s => (0, destroyTs s id)
    else
      match reschedule t now with
      | none => none
      | some t => (updateOnHeap (s.put id t) 0 id).map fun s => (0, s)

/-- A call of a timer function, with the clock it reads. -/
inductive TimerCall (δ : Type) where
  | registerAt (tv : Timeval) (data : δ) (name : Option TimerName)
  | registerIn (now tv : Timeval) (data : δ) (name : Option TimerName)
  | registerEvery (now tv : Timeval) (data : δ) (name : Option TimerName)
  | discharge (data : δ)
  | dischargeNamed (name : TimerName)
  | adjust (now tv : Timeval) (name : TimerName)
  | adjustAnonymous (now tv : Timeval) (data : δ)
  | rename (oldName newName : TimerName)
  deriving DecidableEq, Repr

variable [DecidableEq δ]

def timerCall (s : Timers δ) : TimerCall δ → Option (Int × Timers δ)
  | .registerAt tv data name => registerAt s tv data name
  | .registerIn now tv data name => registerIn s now tv data name
  | .registerEvery now tv data name => registerEvery s now tv data name
  | .discharge data => disarmByRef s data
  | .dischargeNamed name => disarmByName s name
  | .adjust now tv name => adjustInterval s now tv name
  | .adjustAnonymous now tv data => adjustIntervalAnonymous s now tv data
  | .rename oldName newName => renameTimer s oldName newName

/-- What a callback does to the timers: the calls it makes, one after the other. -/
def timerCalls : Timers δ → List (TimerCall δ) → Option (Timers δ)
  | s, [] => some s
  | s, c :: cs => do
    let (_, s) ← timerCall s c
    timerCalls s cs

def runHeapTimers (s : Timers δ) (now : Timeval) (callback : List (TimerCall δ)) (after : Timeval) :
    Option (Int × Timers δ) :=
  match startPass s now with
  | none => none
  | some (.returns result s) => some (result, s)
  | some (.fires id s) => do
    let s ← timerCalls s callback
    finishPass s id after

end

end Katcp
