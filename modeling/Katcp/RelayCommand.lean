import Katcp.SensorValues

namespace Katcp

section

open SwapVector

/-- `katcp_nonsense` with what its type adds to it. `shown` follows what the client was last
sent for it. -/
structure RelayNonsense (F : Type) where
  nClient : DispatchId
  nStrategy : Strategy
  nStatus : SensorStatus
  nPeriod : Timeval
  nNext : Timeval
  previous : SensorValue F
  delta : SensorValue F
  shown : Option (SensorStatus × SensorValue F)

/-- `katcp_sensor` with an acquire of its own. `origin` is the subordinate it is relayed from, and
the name that it has there. -/
structure RelaySensor (F : Type) where
  sName : Text
  sMode : Nat
  sStatus : SensorStatus
  sNonsense : List (RelayNonsense F)
  more : SensorMore F
  origin : Option (KatcpUrl × Text)

/-- An inform that `generic_sensor_update_katcp` sends, without its time. -/
structure SensorUpdate where
  inform : Text
  sName : Text
  status : Text
  value : Text
  deriving DecidableEq, Repr

def sensorStatusInform : Text := textOf "#sensor-status"

def sensorValueInform : Text := textOf "#sensor-value"

section

variable {F : Type} (fl : Doubles F)

/-- The difference that a client starts with. -/
def firstDelta : SensorMore F → SensorValue F
  | .float .. => .double fl.one
  | _ => .int 1

namespace RelayNonsense

variable (ns : RelayNonsense F)

def periodCheck (now : Timeval) : RelayNonsense F × Bool :=
  if cmpTime ns.nNext now > 0 then (ns, false)
  else ({ ns with nNext := addTime ns.nNext ns.nPeriod }, true)

def statusCheck (status : SensorStatus) : RelayNonsense F × Bool :=
  if status = ns.nStatus then (ns, false) else ({ ns with nStatus := status }, true)

/-- The event checks of all types. -/
def eventCheck (status : SensorStatus) (current : SensorValue F) : RelayNonsense F × Bool :=
  let (ns, result) := ns.statusCheck status
  if fl.sameValue ns.previous current then (ns, result) else ({ ns with previous := current }, true)

/-- The difference checks of the types that have one. -/
def diffCheck (current : SensorValue F) : RelayNonsense F × Bool :=
  if fl.withinValue current ns.previous ns.delta then (ns, false) else ({ ns with previous := current }, true)

end RelayNonsense

def SensorMore.hasDiff : SensorMore F → Bool
  | .integer .. | .float .. => true
  | .boolean .. | .discrete .. => false

/-- The client's check in `c_checks`. -/
def RelayNonsense.check (ns : RelayNonsense F) (more : SensorMore F) (status : SensorStatus) (now : Timeval) :
    RelayNonsense F × Bool :=
  match ns.nStrategy with
  | .off => (ns, false)
  | .period => ns.periodCheck now
  | .event => ns.eventCheck fl status more.current
  | .diff => if more.hasDiff then ns.diffCheck fl more.current else (ns, false)
  | .forced => (ns, true)

/-- `generic_sensor_update_katcp` -/
def sensorUpdate (sn : RelaySensor F) (inform : Text) : SensorUpdate :=
  ⟨inform, sn.sName, statusName sn.sStatus, sn.more.valueText fl sn.more.current⟩

/-- What the inner loop of `propagate_acquire_katcp` does for a client. -/
def informClient (sn : RelaySensor F) (now : Timeval) (ns : RelayNonsense F) :
    RelayNonsense F × Option SensorUpdate :=
  let (ns, tell) := ns.check fl sn.more sn.sStatus now
  if tell then
    let inform := if ns.nStrategy = .forced then sensorValueInform else sensorStatusInform
    ({ ns with shown := some (sn.sStatus, sn.more.current) }, some (sensorUpdate fl sn inform))
  else (ns, none)

/-- `propagate_acquire_katcp`, and what each client is sent. -/
def propagateAcquire (sn : RelaySensor F) (now : Timeval) : RelaySensor F × List (Option SensorUpdate) :=
  match sn.more.extract fl sn.sStatus with
  | none => (sn, [])
  | some (more, status) =>
    let sn := { sn with more := more, sStatus := status }
    let told := sn.sNonsense.map (informClient fl sn now)
    ({ sn with sNonsense := told.map Prod.fst }, told.map Prod.snd)

/-- `reload_sensor_katcp` of an acquire that has nothing to poll: without a client that has a
period, the others are told at once. -/
def reloadRelayed (sn : RelaySensor F) (now : Timeval) : RelaySensor F × List (Option SensorUpdate) :=
  if sn.sNonsense.any (·.nStrategy = .period) then (sn, [])
  else if sn.sNonsense.any (·.nStrategy ≠ .forced) then propagateAcquire fl sn now
  else (sn, [])

/-- What a request to `configure_sensor_katcp` comes to: whether its extra argument will do, and
the period and the difference that go with it. -/
structure RelaySampling (F : Type) where
  strategy : Strategy
  usable : Bool
  period : Timeval
  delta : SensorValue F

/-- `create_nonsense_katcp`; the period stands at zero until a request sets one. -/
def createRelayNonsense (sn : RelaySensor F) (d : DispatchId) (now : Timeval) : RelayNonsense F :=
  ⟨d, .off, .unknown, ⟨0, 0⟩, (sn.sNonsense.head?.map RelayNonsense.nNext).getD now, sn.more.current, firstDelta fl sn.more,
    none⟩

/-- The place of a client's entry. -/
def clientAt (sn : RelaySensor F) (d : DispatchId) : Option Nat := sn.sNonsense.findIdx? fun ns => ns.nClient = d

/-- The sensor with an entry of the client, and the place of that. -/
def enterClient (sn : RelaySensor F) (d : DispatchId) (now : Timeval) : RelaySensor F × Nat :=
  match clientAt sn d with
  | some k => (sn, k)
  | none => ({ sn with sNonsense := sn.sNonsense ++ [createRelayNonsense fl sn d now] }, sn.sNonsense.length)

/-- What `configure_sensor_katcp` writes into an entry. -/
def RelayNonsense.take (ns : RelayNonsense F) (r : RelaySampling F) (now : Timeval) : RelayNonsense F :=
  match r.strategy with
  | .event => { ns with nStrategy := .event, nPeriod := r.period }
  | .period => { ns with nStrategy := .period, nPeriod := r.period, nNext := now }
  | .diff => { ns with nStrategy := .diff, nPeriod := r.period, delta := r.delta }
  | strategy => { ns with nStrategy := strategy }

def RelaySensor.modify (sn : RelaySensor F) (k : Nat) (f : RelayNonsense F → RelayNonsense F) : RelaySensor F :=
  { sn with sNonsense := sn.sNonsense.modify k f }

/-- `destroy_nonsense_katcp` of a client's entry -/
def dropClient (sn : RelaySensor F) (d : DispatchId) (now : Timeval) : RelaySensor F :=
  match clientAt sn d with
  | none => sn
  | some k => (reloadRelayed fl { sn with sNonsense := removeAt sn.sNonsense k } now).1

/-- `configure_sensor_katcp` -/
def configureRelayed (sn : RelaySensor F) (d : DispatchId) (r : RelaySampling F) (now : Timeval) : RelaySensor F :=
  if r.strategy = .off then dropClient fl sn d now
  else
    let (sn, k) := enterClient fl sn d now
    if ¬ r.usable then sn else (reloadRelayed fl (sn.modify k (·.take r now)) now).1

def RelayNonsense.withStrategy (ns : RelayNonsense F) (strategy : Strategy) : RelayNonsense F :=
  { ns with nStrategy := strategy }

/-- `force_acquire_katcp`; a client that has an entry has its strategy back afterwards. -/
def forceRelayed (sn : RelaySensor F) (d : DispatchId) (now : Timeval) : RelaySensor F :=
  match (clientAt sn d).bind fun k => (sn.sNonsense[k]?).map fun ns => (k, ns.nStrategy) with
  | some (k, old) =>
    (propagateAcquire fl (sn.modify k (·.withStrategy .forced)) now).1.modify k (·.withStrategy old)
  | none =>
    dropClient fl (propagateAcquire fl (configureRelayed fl sn d ⟨.forced, true, now, .int 0⟩ now) now).1 d now

end

end

section

open SwapVector

def netcDefaultPort : Int := 7147

/-- `path_from_notice_katcp` for a notice that has a name -/
def pathFromNotice (name suffix : Text) : Option Text :=
  if suffix.head? = some (byte '.') then some suffix.tail
  else (createKurlFromString name).map fun ku =>
    match ku.uCmd with
    | some cmd => (cmd ++ textOf "." ++ suffix).take (cmd.length + 7 + suffix.length)
    | none =>
      let host := ku.uHost.getD []
      if ku.uPort = netcDefaultPort then (host ++ textOf "." ++ suffix).take (host.length + 7 + suffix.length)
      else (host ++ textOf "." ++ decimalText ku.uPort ++ textOf "." ++ suffix).take
        (host.length + 7 + suffix.length)

/-- Where a job has its URL from: a network connection, a command or a request with the URL. -/
inductive JobSource where
  | host (host : Text) (port : Int)
  | exec (cmd : Text)
  | string (url : Text)

def jobUrl : JobSource → Option KatcpUrl
  | .host host port => some (createKurl (textOf "katcp") host port (some (textOf "/")))
  | .exec cmd => some (createExecKurl cmd)
  | .string url => createKurlFromString url

/-- A subordinate: whether it is still connected, and whether its sensor lists and its sensor
status informs still have their callbacks. -/
structure RelayJob where
  url : KatcpUrl
  live : Bool
  lists : Bool
  statuses : Bool

structure RelayState (F : Type) where
  mode : Nat
  jobs : List RelayJob
  sensors : List (RelaySensor F)

def returnJob : Text := textOf "#return"

def sensorListInform : Text := textOf "#sensor-list"

section

variable {F : Type} (fl : Doubles F)

/-- `find_sensor_katcp`, as a place in the table -/
def findRelay (s : RelayState F) (name : Text) : Option Nat :=
  s.sensors.findIdx? fun sn => sn.sName = name && (sn.sMode = 0 || s.mode = sn.sMode)

def RelayState.setSensor (s : RelayState F) (i : Nat) (sn : RelaySensor F) : RelayState F :=
  { s with sensors := s.sensors.set i sn }

/-- The limits of `match_sensor_list_katcp`, as far as the inform has them. -/
def limitsFrom {α : Type} (args : Words) (get : Nat → α) (zero : α) : α × α × α × α :=
  if args.length ≥ 9 then (get 5, get 6, get 7, get 8)
  else if args.length ≥ 7 then (get 5, get 6, zero, zero)
  else (zero, zero, zero, zero)

/-- The part of `match_sensor_list_katcp` that depends on the type; `memory` is what a boolean
finds in its own. -/
def createMore (type : SensorType) (args : Words) (memory : CheckedSensor Int) : Option (SensorMore F) :=
  match type with
  | .integer =>
    if args.length < 5 then none
    else
      let (nmin, nmax, wmin, wmax) := limitsFrom args (getInt args) 0
      some (.integer (createSensorInteger nmin nmax wmin wmax) 0)
  | .boolean => some (.boolean (createSensorBoolean memory) 0)
  | .discrete =>
    if args.length < 6 then none
    else some (.discrete ⟨0, (List.range (args.length - 5)).map fun i => argString args (i + 5)⟩ 0)
  | .float =>
    if args.length < 5 then none
    else
      let (nmin, nmax, wmin, wmax) := limitsFrom args (getDouble fl args) fl.zero
      some (.float (createChecked fl.less fl.zero nmin nmax wmin wmax) fl.zero)
  | .bigint => none

/-- The part of `match_sensor_list_katcp` that creates the sensor. -/
def declareSensor (s : RelayState F) (ku : KatcpUrl) (notice name type : Text) (args : Words)
    (memory : CheckedSensor Int) : Int × RelayState F :=
  match pathFromNotice notice name with
  | none => (-1, s)
  | some combine =>
    if (findRelay s combine).isSome then (1, s)
    else match (typeCode type).bind fun code => createMore fl code args memory with
    | none => (1, s)
    | some more => (1, { s with sensors := s.sensors ++ [⟨combine, 0, .unknown, [], more, some (ku, name)⟩] })

/-- `match_sensor_list_katcp` for a notice of a subordinate -/
def matchSensorList (s : RelayState F) (ku : KatcpUrl) (notice : Text) (args : Words) (memory : CheckedSensor Int) :
    Int × RelayState F :=
  match argString args 0 with
  | none => (0, s)
  | some inform =>
    if inform = returnJob then (0, s)
    else match argString args 1, argString args 2, argString args 4 with
    | some name, some _, some type => declareSensor fl s ku notice name type args memory
    | _, _, _ => (-1, s)

/-- The value of an inform, scanned into the acquire of its sensor. -/
def scanned (sn : RelaySensor F) (value : Option Text) : Option (Option (RelaySensor F)) :=
  match value with
  | none => some (some sn)
  | some value => (scanValue fl sn.more value).map fun more => more.map fun more => { sn with more := more }

/-- The part of `match_sensor_status_katcp` that follows once the value has been scanned. -/
def updateStatus (s : RelayState F) (i : Nat) (status : Option Text) (now : Timeval) :
    Option (RelaySensor F) → Int × RelayState F × List (Option SensorUpdate)
  | none => (-1, s, [])
  | some sn =>
    match status.map statusCode with
    | some none => (1, s.setSensor i sn, [])
    | some (some code) =>
      let (sn, told) := propagateAcquire fl { sn with sStatus := code } now
      (1, s.setSensor i sn, told)
    | none =>
      let (sn, told) := propagateAcquire fl sn now
      (1, s.setSensor i sn, told)

/-- `match_sensor_status_katcp`; no result is a crash. -/
def matchSensorStatus (s : RelayState F) (notice : Text) (args : Words) (now : Timeval) :
    Option (Int × RelayState F × List (Option SensorUpdate)) :=
  match argString args 0 with
  | none => some (0, s, [])
  | some inform =>
    if inform = returnJob then some (0, s, [])
    else match argString args 3 with
    | none => some (-1, s, [])
    | some name =>
      if (argString args 4).isNone ∧ (argString args 5).isNone then some (-1, s, [])
      else match pathFromNotice notice name with
      | none => some (-1, s, [])
      | some combine =>
        match findRelay s combine with
        | none => some (1, s, [])
        | some i =>
          (s.sensors[i]?).bind fun sn => (scanned fl sn (argString args 5)).map fun sx =>
            updateStatus fl s i (argString args 4) now sx

/-- `set_status_group_sensor_katcp` -/
def setStatusGroup (s : RelayState F) (start : Text) (status : SensorStatus) : RelayState F :=
  { s with sensors := s.sensors.map fun sn => if start.isPrefixOf sn.sName then { sn with sStatus := status } else sn }

/-- The start of the names that `job_suspend_sensor_katcp` looks for. -/
def suspendPrefix (notice : Text) : Option Text :=
  (createKurlFromString notice).bind fun ku => ku.uCmd <|> ku.uHost

/-- `job_suspend_sensor_katcp` -/
def jobSuspendSensor (s : RelayState F) (notice : Text) : RelayState F :=
  match suspendPrefix notice with
  | none => s
  | some start => setStatusGroup s start .unknown

def RelayState.setJob (s : RelayState F) (j : Nat) (job : RelayJob) : RelayState F :=
  { s with jobs := s.jobs.set j job }

/-- A sensor list inform of a subordinate; its callback stays as long as its results are
positive. -/
def deliverList (s : RelayState F) (j : Nat) (args : Words) (memory : CheckedSensor Int) : Option (RelayState F) :=
  match s.jobs[j]? with
  | none => none
  | some job =>
    if ¬ job.live then none
    else if ¬ job.lists then some s
    else
      let (r, s) := matchSensorList fl s job.url (noticeName job.url sensorListInform) args memory
      some (s.setJob j { job with lists := 0 < r })

def deliverStatus (s : RelayState F) (j : Nat) (args : Words) (now : Timeval) :
    Option (RelayState F × List (Option SensorUpdate)) :=
  match s.jobs[j]? with
  | none => none
  | some job =>
    if ¬ job.live then none
    else if ¬ job.statuses then some (s, [])
    else (matchSensorStatus fl s (noticeName job.url sensorStatusInform) args now).map fun (r, s, told) =>
      (s.setJob j { job with statuses := 0 < r }, told)

/-- What changes the relayed sensors, and the local ones in whatever way. -/
inductive RelayAction (F : Type) where
  | connect (source : JobSource)
  | list (j : Nat) (args : Words) (memory : CheckedSensor Int)
  | status (j : Nat) (args : Words) (now : Timeval)
  | suspend (j : Nat) (mark : Text)
  | gone (j : Nat)
  | configure (i : Nat) (d : DispatchId) (r : RelaySampling F) (now : Timeval)
  | force (i : Nat) (d : DispatchId) (now : Timeval)
  | poll (i : Nat) (now : Timeval)
  | leave (d : DispatchId) (now : Timeval)
  | createLocal (sn : RelaySensor F)
  | changeLocal (i : Nat) (sn : RelaySensor F)
  | destroy (i : Nat)
  | mode (mode : Nat)

/-- A relayed sensor changed. -/
def RelayState.changed (s : RelayState F) (i : Nat) (f : RelaySensor F → RelaySensor F) : Option (RelayState F) :=
  match s.sensors[i]? with
  | none => none
  | some sn => if sn.origin.isNone then none else some (s.setSensor i (f sn))

def relayStep (s : RelayState F) : RelayAction F → Option (RelayState F)
  | .connect source => (jobUrl source).map fun url => { s with jobs := s.jobs ++ [⟨url, true, true, true⟩] }
  | .list j args memory => deliverList fl s j args memory
  | .status j args now => (deliverStatus fl s j args now).map Prod.fst
  | .suspend j mark => (s.jobs[j]?).map fun job => jobSuspendSensor s (noticeName job.url mark)
  | .gone j => (s.jobs[j]?).map fun job => s.setJob j { job with live := false }
  | .configure i d r now => s.changed i (configureRelayed fl · d r now)
  | .force i d now => s.changed i (forceRelayed fl · d now)
  | .poll i now => s.changed i fun sn => (propagateAcquire fl sn now).1
  | .leave d now => some { s with sensors := s.sensors.map (dropClient fl · d now) }
  | .createLocal sn => if sn.origin.isSome then none else some { s with sensors := s.sensors ++ [sn] }
  | .changeLocal i sn =>
    if sn.origin.isSome then none
    else match s.sensors[i]? with
    | none => none
    | some sx => if sx.origin.isSome ∨ sx.sName ≠ sn.sName then none else some (s.setSensor i sn)
  | .destroy i => if i < s.sensors.length then some { s with sensors := removeAt s.sensors i } else none
  | .mode mode => some { s with mode := mode }

def relayMachine : Machine (RelayState F) (RelayAction F) (Option SensorUpdate) :=
  ⟨⟨0, [], []⟩, relayStep fl, fun s a =>
    match a with
    | .status j args now => ((deliverStatus fl s j args now).map Prod.snd).getD []
    | _ => []⟩

end

end

end Katcp
