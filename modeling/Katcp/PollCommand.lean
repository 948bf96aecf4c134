import Katcp.SampleCommand

namespace Katcp

section

open Function

/-- A connection, `katcp_dispatch`. -/
abbrev DispatchId := Nat

abbrev SensorId := Nat

abbrev AcquireId := Nat

/-- Where a client's state for a sensor was allocated. -/
abbrev NonsenseId := Nat

inductive SensorType where
  | integer | boolean | discrete | float | bigint
  deriving DecidableEq, Repr

structure KatcpNonsense where
  nClient : DispatchId
  nSensor : SensorId
  nStrategy : Strategy
  nPeriod : Timeval
  deriving DecidableEq, Repr

/-- `katcp_acquire` without its value; `aGet` says whether it has a function to get one. -/
structure KatcpAcquire where
  aSensors : List SensorId
  aGet : Bool
  aUsers : Nat
  aPeriodics : Nat
  aPoll : Timeval
  aCurrent : Timeval
  aLimit : Timeval
  aLast : Timeval
  deriving DecidableEq, Repr

/-- `katcp_sensor` as far as its clients go; `sMode` is zero for a sensor of every mode. -/
structure KatcpSensor where
  sName : Text
  sType : SensorType
  sMode : Nat
  sAcquire : AcquireId
  sNonsense : List NonsenseId
  deriving DecidableEq, Repr

structure Polling where
  mode : Nat
  tally : List SensorId
  sensors : SensorId → KatcpSensor
  acquires : AcquireId → KatcpAcquire
  nonsenses : NonsenseId → Option KatcpNonsense
  clients : DispatchId → List NonsenseId
  timers : Timers AcquireId

namespace Polling

def acquireOf (s : Polling) (sn : SensorId) : KatcpAcquire := s.acquires (s.sensors sn).sAcquire

def putSensor (s : Polling) (sn : SensorId) (ids : List NonsenseId) : Polling :=
  { s with sensors := update s.sensors sn { s.sensors sn with sNonsense := ids } }

def putAcquire (s : Polling) (a : AcquireId) (acq : KatcpAcquire) : Polling :=
  { s with acquires := update s.acquires a acq }

def putNonsense (s : Polling) (id : NonsenseId) (ns : Option KatcpNonsense) : Polling :=
  { s with nonsenses := update s.nonsenses id ns }

def putClient (s : Polling) (d : DispatchId) (ids : List NonsenseId) : Polling :=
  { s with clients := update s.clients d ids }

end Polling

/-- `c_has_poll` is the same for all types. -/
def hasPoll (a : KatcpAcquire) : Bool := a.aGet

def hasDiff : SensorType → Bool
  | .integer | .float | .bigint => true
  | .boolean | .discrete => false

def scanSensorDiff (type : SensorType) (extra : Text) : Bool :=
  match type with
  | .integer | .bigint => endsDelta (strtolEnd extra)
  | .float => endsDelta (strtodEnd extra)
  | .boolean | .discrete => false

/-- What `reload_sensor_katcp` adds up. -/
structure Recount where
  users : Nat
  periodics : Nat
  current : Timeval
  deriving DecidableEq, Repr

def countPeriod (c : Recount) (period : Timeval) : Recount :=
  { c with
    periodics := c.periodics + 1
    current := if c.periodics = 0 then period
      else if cmpTime c.current period > 0 then period
      else c.current }

def countNonsense (polling : Bool) (c : Recount) (ns : KatcpNonsense) : Recount :=
  match ns.nStrategy with
  | .forced => c
  | .diff | .event => if polling then countPeriod c ns.nPeriod else c
  | .period => countPeriod c ns.nPeriod
  | .off => c

/-- The inner loop of `reload_sensor_katcp`; `none` is a crash. -/
def countSensor (s : Polling) (polling : Bool) : List NonsenseId → Recount → Option Recount
  | [], c => some c
  | id :: ids, c =>
    match s.nonsenses id with
    | none => none
    | some ns => countSensor s polling ids (countNonsense polling c ns)

/-- The outer loop. -/
def countSensors (s : Polling) (polling : Bool) : List SensorId → Recount → Option Recount
  | [], c => some c
  | sn :: rest, c =>
    let ids := (s.sensors sn).sNonsense
    match countSensor s polling ids c with
    | none => none
    | some c => countSensors s polling rest { c with users := c.users + ids.length }

def recount (s : Polling) (a : AcquireId) : Option Recount :=
  let acq := s.acquires a
  countSensors s (hasPoll acq) acq.aSensors ⟨0, 0, acq.aCurrent⟩

/-- The acquire with what was added up for it. -/
def Polling.recounted (s : Polling) (a : AcquireId) (c : Recount) : Polling :=
  s.putAcquire a { s.acquires a with aUsers := c.users, aPeriodics := c.periodics, aCurrent := c.current }

/-- The timer an acquire needs: a new one, or what is there under its data adjusted. -/
def scheduleAcquire (s : Polling) (a : AcquireId) (now current : Timeval) : Option (Int × Polling) :=
  match findByDataRef s.timers a with
  | none => none
  | some none => (registerEvery s.timers now current a none).map fun (r, timers) =>
      (if r < 0 then -1 else 0, { s with timers := timers })
  | some (some _) => (adjustIntervalAnonymous s.timers now current a).map fun (r, timers) =>
      (if r < 0 then -1 else 0, { s with timers := timers })

/-- `reload_sensor_katcp`; the values it may propagate are not followed. -/
def reloadSensor (s : Polling) (sn : SensorId) (now : Timeval) : Option (Int × Polling) :=
  let a := (s.sensors sn).sAcquire
  match recount s a with
  | none => none
  | some c =>
    if c.periodics = 0 then
      if (s.acquires a).aPeriodics > 0 then
        (disarmByRef s.timers a).map fun (_, timers) => (0, { s.recounted a c with timers := timers })
      else some (0, s.recounted a c)
    else scheduleAcquire (s.recounted a c) a now c.current

end

section

open Function SwapVector

/-- Whether a sensor is there in the current mode. -/
def inMode (s : Polling) (sn : SensorId) : Bool :=
  (s.sensors sn).sMode = 0 || s.mode = (s.sensors sn).sMode

def findSensor (s : Polling) (name : Text) : Option SensorId :=
  s.tally.find? fun sn => (s.sensors sn).sName = name && inMode s sn

/-- The loop of `match_nonsense_katcp` over a client's sensors; the outer `none` is a crash. -/
def matchNonsense (s : Polling) (sn : SensorId) : List NonsenseId → Option (Option NonsenseId)
  | [] => some none
  | id :: ids =>
    match s.nonsenses id with
    | none => none
    | some ns => if ns.nSensor = sn then some (some id) else matchNonsense s sn ids

/-- The loop of `find_nonsense_katcp`. -/
def findNonsense (s : Polling) (name : Text) : List NonsenseId → Option (Option NonsenseId)
  | [] => some none
  | id :: ids =>
    match s.nonsenses id with
    | none => none
    | some ns =>
      if (s.sensors ns.nSensor).sName = name && inMode s ns.nSensor then some (some id)
      else findNonsense s name ids

def createNonsense (s : Polling) (d : DispatchId) (sn : SensorId) (id : NonsenseId) : Option Polling :=
  if (s.nonsenses id).isSome then none
  else
    let ns : KatcpNonsense := ⟨d, sn, .off, (s.acquireOf sn).aCurrent⟩
    some (((s.putNonsense id (some ns)).putSensor sn ((s.sensors sn).sNonsense ++ [id])).putClient d
      (s.clients d ++ [id]))

/-- Take an entry out of a vector, as `destroy_nonsense_katcp` does with two of them. -/
def excise (id : NonsenseId) (v : List NonsenseId) : List NonsenseId :=
  compact (fun _ last => last) (fun x => x = id) v

def destroyNonsense (s : Polling) (id : NonsenseId) (now : Timeval) : Option Polling :=
  match s.nonsenses id with
  | none => none
  | some ns =>
    let s := s.putSensor ns.nSensor (excise id (s.sensors ns.nSensor).sNonsense)
    (reloadSensor s ns.nSensor now).map fun (_, s) =>
      (s.putClient ns.nClient (excise id (s.clients ns.nClient))).putNonsense id none

/-- The loop of `destroy_nonsensors_katcp`. -/
def destroyNonsensors : Nat → Polling → DispatchId → Timeval → Option Polling
  | 0, s, d, _ => if s.clients d = [] then some s else none
  | n + 1, s, d, now =>
    match s.clients d with
    | [] => some s
    | id :: _ => (destroyNonsense s id now).bind fun s => destroyNonsensors n s d now

def sensorLimitFudge : Timeval := ⟨0, 2500⟩

/-- What a strategy lacks in its extra argument. -/
def lacksExtra (type : SensorType) (strategy : Strategy) (extra : Option Text) : Bool :=
  match strategy with
  | .period => extra.isNone
  | .diff => ¬ hasDiff type || ¬ extra.any (scanSensorDiff type)
  | _ => false

/-- The period of a client that asks for a strategy. -/
def periodFor (a : KatcpAcquire) (strategy : Strategy) (extra : Option Text) (old : Timeval) : Timeval :=
  match strategy with
  | .event | .diff => a.aPoll
  | .period =>
    let period := (extra.bind stringToTv).getD old
    if cmpTime period a.aLimit < 0 then addTime a.aLimit sensorLimitFudge else period
  | .forced | .off => old

/-- The part of `configure_sensor_katcp` that follows once there is a client's entry. -/
def enterStrategy (s : Polling) (id : NonsenseId) (sn : SensorId) (strategy : Strategy) (extra : Option Text)
    (now : Timeval) : Option (Int × Polling) :=
  match s.nonsenses id with
  | none => none
  | some ns =>
    if lacksExtra (s.sensors sn).sType strategy extra then some (-1, s)
    else
      let period := periodFor (s.acquireOf sn) strategy extra ns.nPeriod
      reloadSensor (s.putNonsense id (some { ns with nStrategy := strategy, nPeriod := period })) sn now

/-- No strategy stands for the automatic mode. -/
def configureSensor (s : Polling) (d : DispatchId) (sn : SensorId) (asked : Option Strategy)
    (extra : Option Text) (fresh : NonsenseId) (now : Timeval) : Option (Int × Polling) :=
  let strategy := asked.getD .event
  match findNonsense s (s.sensors sn).sName (s.clients d) with
  | none => none
  | some none =>
    if strategy = .off then some (0, s)
    else (createNonsense s d sn fresh).bind fun s => enterStrategy s fresh sn strategy extra now
  | some (some id) =>
    if (s.nonsenses id).map KatcpNonsense.nSensor ≠ some sn then some (-1, s)
    else if strategy = .off then (destroyNonsense s id now).map fun s => (0, s)
    else enterStrategy s id sn strategy extra now

/-- `run_acquire_katcp`: too soon after the last time, no value is acquired. -/
def runAcquire (s : Polling) (a : AcquireId) (now : Timeval) : Polling :=
  let acq := s.acquires a
  if cmpTime now (addTime acq.aLast acq.aLimit) < 0 then s else s.putAcquire a { acq with aLast := now }

/-- A client that is there has its strategy back after the acquire has run. -/
def forceAcquire (s : Polling) (d : DispatchId) (sn : SensorId) (fresh : NonsenseId) (now : Timeval) :
    Option Polling :=
  match matchNonsense s sn (s.clients d) with
  | none => none
  | some (some _) => some (runAcquire s (s.sensors sn).sAcquire now)
  | some none =>
    (configureSensor s d sn (some .forced) none fresh now).bind fun (r, s) =>
      if r < 0 then some s
      else
        (configureSensor (runAcquire s (s.sensors sn).sAcquire now) d sn (some .off) none fresh now).map Prod.snd

def strategyCode (name : Text) : Option Strategy :=
  [Strategy.off, .period, .event, .diff, .forced].find? fun strategy => name = strategyToString strategy

/-- The sensor, the strategy and the extra argument of a request that asks for a strategy, or
its result. -/
def samplingAsked (s : Polling) (args : Words) :
    Except KatcpResult (SensorId × Option Strategy × Option Text) :=
  if args.length ≤ 1 then .error (.done .invalid)
  else
    match argString args 1 with
    | none => .error (.done .fail)
    | some name =>
      match findSensor s name with
      | none => .error (.done .fail)
      | some sn =>
        match argString args 2 with
        | none => .error .own
        | some strategy =>
          if strategy = textOf "auto" then .ok (sn, none, argString args 3)
          else
            match strategyCode strategy with
            | none => .error (.done .fail)
            | some value => .ok (sn, some value, argString args 3)

def sensorSamplingCmd (s : Polling) (d : DispatchId) (args : Words) (fresh : NonsenseId) (now : Timeval) :
    Option (KatcpResult × Polling) :=
  match samplingAsked s args with
  | .error code => some (code, s)
  | .ok (sn, asked, extra) =>
    (configureSensor s d sn asked extra fresh now).map fun (r, s) =>
      (if r < 0 then .done .fail else .own, s)

/-- The sensors that a request for values is about: a name stands for all it is a prefix of. -/
def valueSensors (s : Polling) (name : Option Text) : List SensorId :=
  s.tally.filter fun sn => inMode s sn && name.all fun name => name.isPrefixOf (s.sensors sn).sName

def forceSensors (d : DispatchId) (fresh : SensorId → NonsenseId) (now : Timeval) :
    List SensorId → Polling → Option Polling
  | [], s => some s
  | sn :: rest, s => (forceAcquire s d sn (fresh sn) now).bind (forceSensors d fresh now rest)

def sensorValueCmd (s : Polling) (d : DispatchId) (args : Words) (fresh : SensorId → NonsenseId)
    (now : Timeval) : Option (KatcpResult × Polling) :=
  let name := argString args 1
  let asked := valueSensors s name
  (forceSensors d fresh now asked s).map fun s =>
    (if name.isSome ∧ asked = [] then .done .invalid else .own, s)

/-- `run_heap_timers_katcp` where the timers are those of the acquires. -/
def runPolling (s : Polling) (now after : Timeval) : Option Polling :=
  match startPass s.timers now with
  | none => none
  | some (.returns _ timers) => some { s with timers := timers }
  | some (.fires k timers) => do
    let t ← timers.at? k
    let s := runAcquire { s with timers := timers } t.tData now
    let (_, timers) ← finishPass s.timers k after
    some { s with timers := timers }

inductive PollAction where
  | sampling (d : DispatchId) (args : Words) (fresh : NonsenseId) (now : Timeval)
  | value (d : DispatchId) (args : Words) (fresh : SensorId → NonsenseId) (now : Timeval)
  | disconnect (d : DispatchId) (now : Timeval)
  | changeMode (mode : Nat)
  | load (now : Timeval)
  | run (now after : Timeval)

def pollAction (s : Polling) : PollAction → Option Polling
  | .sampling d args fresh now => (sensorSamplingCmd s d args fresh now).map Prod.snd
  | .value d args fresh now => (sensorValueCmd s d args fresh now).map Prod.snd
  | .disconnect d now => destroyNonsensors (s.clients d).length s d now
  | .changeMode mode => some { s with mode := mode }
  | .load now => (loadHeapTimers s.timers now).map fun (_, _, timers) => { s with timers := timers }
  | .run now after => runPolling s now after

/-- The sensors that were registered, each linked to the acquire it names. -/
structure Sensors where
  tally : List SensorId
  sensors : SensorId → KatcpSensor
  acquires : AcquireId → KatcpAcquire
  linked : ∀ sn ∈ tally, sn ∈ (acquires (sensors sn).sAcquire).aSensors
  named : ∀ a, ∀ sn ∈ (acquires a).aSensors, (sensors sn).sAcquire = a
  once : ∀ a, (acquires a).aSensors.Nodup

/-- Before any client: sensors without users. -/
def noPolling (reg : Sensors) : Polling where
  mode := 0
  tally := reg.tally
  sensors := fun sn => { reg.sensors sn with sNonsense := [] }
  acquires := fun a => { reg.acquires a with aUsers := 0, aPeriodics := 0 }
  nonsenses := fun _ => none
  clients := fun _ => []
  timers := noTimers

def pollingMachine (reg : Sensors) : Machine Polling PollAction Unit :=
  ⟨noPolling reg, pollAction, fun _ _ => []⟩

end

end Katcp
