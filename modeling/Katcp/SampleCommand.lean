import Katcp.SwapVector
import Katcp.TimeText
import Katcp.TimerPass
import Mathlib.Logic.Function.Basic

namespace Katcp

section

open Function

inductive Strategy where
  | off | period | event | diff | forced
  deriving DecidableEq, Repr

def strategyToString : Strategy → Text
  | .off => textOf "none"
  | .period => textOf "period"
  | .event => textOf "event"
  | .diff => textOf "differential"
  | .forced => textOf "forced"

def strategyFromString (name : Text) : Option Strategy :=
  match [Strategy.off, .period, .event, .diff, .forced].find? fun strategy => name = strategyToString strategy with
  | some strategy => some strategy
  | none => if name = textOf "auto" then some .event else none

abbrev VrblId := Nat

/-- Where a subscription was allocated. -/
abbrev SubscribeId := Nat

structure KatcpSubscribe where
  sVariable : Option VrblId
  sEndpoint : EndpointId
  sStrategy : Strategy
  sIndex : Nat
  deriving DecidableEq, Repr

structure KatcpWit where
  wVectorEvent : List SubscribeId
  wVectorPeriod : List SubscribeId
  deriving DecidableEq, Repr

/-- `katcp_vrbl` as far as sampling looks: two of its flags, whether it has a value, what
`add_partial_sensor_katcp` prints of it, and the subscriptions under `v_extra`. -/
structure KatcpVrbl where
  vSen : Bool
  vHid : Bool
  vValue : Bool
  vShown : Words
  vExtra : Option KatcpWit
  deriving DecidableEq, Repr

structure Sampling where
  vrbls : VrblId → KatcpVrbl
  subs : SubscribeId → Option KatcpSubscribe
  peers : EndpointId → KatcpEndpoint
  timers : Timers SubscribeId

def createWit : KatcpWit := ⟨[], []⟩

/-- The two vectors of a wit are handled alike. -/
def KatcpWit.vector (w : KatcpWit) : Strategy → List SubscribeId
  | .event => w.wVectorEvent
  | .period => w.wVectorPeriod
  | _ => []

def KatcpWit.setVector (w : KatcpWit) (strategy : Strategy) (v : List SubscribeId) : KatcpWit :=
  match strategy with
  | .event => { w with wVectorEvent := v }
  | .period => { w with wVectorPeriod := v }
  | _ => w

def hasVector (strategy : Strategy) : Bool := strategy = .event || strategy = .period

namespace Sampling

def putSub (s : Sampling) (id : SubscribeId) (sub : Option KatcpSubscribe) : Sampling :=
  { s with subs := update s.subs id sub }

def putWit (s : Sampling) (vx : VrblId) (w : KatcpWit) : Sampling :=
  { s with vrbls := update s.vrbls vx { s.vrbls vx with vExtra := some w } }

def putPeer (s : Sampling) (e : EndpointId) (ep : KatcpEndpoint) : Sampling :=
  { s with peers := update s.peers e ep }

end Sampling

/-- Through `create_subscribe_katcp` a subscription gets its place, but not yet its strategy;
the outer `none` is an allocation of memory that is in use. -/
def createSubscribe (s : Sampling) (vx : VrblId) (w : KatcpWit) (peer : EndpointId) (strategy : Strategy)
    (id : SubscribeId) : Option (Option Sampling) :=
  if (s.subs id).isSome then none
  else if hasVector strategy then
    let sub : KatcpSubscribe := ⟨none, peer, .off, (w.vector strategy).length⟩
    some (some ((s.putSub id (some sub)).putWit vx (w.setVector strategy (w.vector strategy ++ [id]))))
  else some none

/-- The loop of `find_event_subscribe_katcp` and `find_period_subscribe_katcp`; the outer
`none` is a crash. -/
def searchEndpoint (s : Sampling) (peer : EndpointId) : List SubscribeId → Option (Option SubscribeId)
  | [] => some none
  | id :: ids =>
    match s.subs id with
    | none => none
    | some sub => if sub.sEndpoint = peer then some (some id) else searchEndpoint s peer ids

/-- `locate_subscribe_katcp`: of a client's subscriptions, the one to events comes first. -/
def locateSubscribe (s : Sampling) (vx : VrblId) (peer : EndpointId) : Option (Option SubscribeId) :=
  match (s.vrbls vx).vExtra with
  | none => some none
  | some w =>
    match searchEndpoint s peer (w.vector .event) with
    | none => none
    | some (some id) => some (some id)
    | some none => searchEndpoint s peer (w.vector .period)

def currentStrategy (s : Sampling) (vx : VrblId) (peer : EndpointId) : Option Strategy :=
  match locateSubscribe s vx peer with
  | none => none
  | some none => some .off
  | some (some id) => (s.subs id).map KatcpSubscribe.sStrategy

/-- A periodic subscription takes its timer along; having none is an abort. -/
def destroySubscribe (s : Sampling) (id : SubscribeId) : Option Sampling :=
  match s.subs id with
  | none => none
  | some sub =>
    if sub.sStrategy = .period then
      match disarmByRef s.timers id with
      | none => none
      | some (r, timers) => if r = 0 then some { s.putSub id none with timers := timers } else none
    else some (s.putSub id none)

/-- Make a vector contiguous again after the subscription at `index`. -/
def closeVector (s : Sampling) (vx : VrblId) (w : KatcpWit) (strategy : Strategy) (index : Nat) :
    Option Sampling :=
  let v := w.vector strategy
  let size := v.length - 1
  if index < size then do
    let fixup ← v[size]?
    let moved ← s.subs fixup
    some ((s.putSub fixup (some { moved with sIndex := index })).putWit vx
      (w.setVector strategy ((v.set index fixup).take size)))
  else some (s.putWit vx (w.setVector strategy (v.take size)))

def deleteSubscribe (s : Sampling) (vx : VrblId) (w : KatcpWit) (id : SubscribeId) : Option Sampling :=
  match s.subs id with
  | none => none
  | some sub =>
    if ¬ hasVector sub.sStrategy then none
    else if sub.sIndex ≥ (w.vector sub.sStrategy).length then none
    else (closeVector s vx w sub.sStrategy sub.sIndex).bind (destroySubscribe · id)

/-- `forget_event_variable_katcp` and `forget_period_variable_katcp`. -/
def forgetVariable (s : Sampling) (vx : VrblId) (peer : EndpointId) (strategy : Strategy) :
    Option (Int × Sampling) :=
  match (s.vrbls vx).vExtra with
  | none => some (1, s)
  | some w =>
    match searchEndpoint s peer (w.vector strategy) with
    | none => none
    | some none => some (1, s)
    | some (some id) => (deleteSubscribe s vx w id).map fun s => (0, s)

/-- `make_sensor_katcp`: showing a hidden variable is an abort. -/
def makeSensor (s : Sampling) (vx : VrblId) : Option Words :=
  if (s.vrbls vx).vHid then none else some (textOf "#sensor-status" :: (s.vrbls vx).vShown)

def attachVariable (s : Sampling) (vx : VrblId) (peer : EndpointId) (strategy : Strategy) (id : SubscribeId) :
    Option (Option Sampling) :=
  if ¬ (s.vrbls vx).vSen then some none
  else
    match createSubscribe s vx ((s.vrbls vx).vExtra.getD createWit) peer strategy id with
    | none => none
    | some none => some none
    | some (some s) =>
      (s.subs id).map fun sub => some (s.putSub id (some { sub with sVariable := some vx }))

/-- The subscription to use, the message for the client, and the state. -/
def monitorVariable (s : Sampling) (vx : VrblId) (peer : EndpointId) (strategy : Strategy)
    (fresh : SubscribeId) : Option (Option SubscribeId × List Words × Sampling) :=
  match makeSensor s vx with
  | none => none
  | some px =>
    match locateSubscribe s vx peer with
    | none => none
    | some (some id) => some (some id, [px], s)
    | some none =>
      match attachVariable s vx peer strategy fresh with
      | none => none
      | some none => some (none, [], s)
      | some (some s) => some (some fresh, [px], s)

def setStrategy (s : Sampling) (id : SubscribeId) (strategy : Strategy) : Option Sampling :=
  (s.subs id).map fun sub => s.putSub id (some { sub with sStrategy := strategy })

def monitorEvent (s : Sampling) (vx : VrblId) (peer : EndpointId) (fresh : SubscribeId) :
    Option (Int × List Words × Sampling) :=
  match monitorVariable s vx peer .event fresh with
  | none => none
  | some (none, shown, s) => some (-1, shown, s)
  | some (some id, shown, s) => (setStrategy s id .event).map fun s => (0, shown, s)

def onPeriodTimer (s : Sampling) (now tv : Timeval) (id : SubscribeId) (name : TimerName) :
    Option (Int × Sampling) :=
  match registerEvery s.timers now tv id (some name) with
  | none => none
  | some (r, timers) =>
    (setStrategy { s with timers := timers } id .period).bind fun s =>
      if r = 1 then (adjustInterval s.timers now tv name).map fun (r, timers) => (r, { s with timers := timers })
      else some (r, s)

def monitorPeriod (s : Sampling) (vx : VrblId) (peer : EndpointId) (now tv : Timeval) (name : TimerName)
    (fresh : SubscribeId) : Option (Int × List Words × Sampling) :=
  match monitorVariable s vx peer .period fresh with
  | none => none
  | some (none, shown, s) => some (-1, shown, s)
  | some (some id, shown, s) => (onPeriodTimer s now tv id name).map fun (r, s) => (r, shown, s)

/-- The loop of `broadcast_event_subscribe_katcp` from position `i` on. -/
def broadcastLoop : Nat → Sampling → VrblId → Words → Nat → Option Sampling
  | 0, s, _, _, _ => some s
  | n + 1, s, vx, px, i =>
    match (s.vrbls vx).vExtra with
    | none => none
    | some w =>
      match w.wVectorEvent[i]? with
      | none => some s
      | some id =>
        match s.subs id with
        | none => none
        | some sub =>
          if sub.sIndex ≠ i ∨ sub.sStrategy ≠ .event then none
          else
            match queueMessage (s.peers sub.sEndpoint) ⟨false, px, none⟩ with
            | some ep => broadcastLoop n (s.putPeer sub.sEndpoint ep) vx px (i + 1)
            | none => (deleteSubscribe s vx w id).bind fun s => broadcastLoop n s vx px i

/-- `on_event_change_sensor_katcp`, configured once the variable has a wit. -/
def onEventChange (s : Sampling) (vx : VrblId) : Option Sampling :=
  match (s.vrbls vx).vExtra with
  | none => some s
  | some w =>
    if (s.vrbls vx).vHid then some s
    else (makeSensor s vx).bind fun px => broadcastLoop w.wVectorEvent.length s vx px 0

/-- The callback of the sampling timers. -/
def onPeriodTimeout (s : Sampling) (id : SubscribeId) : Option Sampling :=
  match s.subs id with
  | none => none
  | some sub =>
    match sub.sVariable with
    | none => some s
    | some vx =>
      match makeSensor s vx, (s.vrbls vx).vExtra with
      | some px, some w =>
        if sub.sStrategy ≠ .period then none
        else
          match queueMessage (s.peers sub.sEndpoint) ⟨false, px, none⟩ with
          | some ep => some (s.putPeer sub.sEndpoint ep)
          | none => deleteSubscribe s vx w id
      | _, _ => none

/-- `run_heap_timers_katcp` with the sampling timers. -/
def runSampling (s : Sampling) (now after : Timeval) : Option Sampling :=
  match startPass s.timers now with
  | none => none
  | some (.returns _ timers) => some { s with timers := timers }
  | some (.fires k timers) => do
    let t ← timers.at? k
    let s ← onPeriodTimeout { s with timers := timers } t.tData
    let (_, timers) ← finishPass s.timers k after
    some { s with timers := timers }

end

/-- The client of a request, with the name of its group. -/
structure Client where
  fPeer : EndpointId
  gName : Text
  fName : Text
  deriving DecidableEq, Repr

def argString (args : Words) (index : Nat) : Option Text :=
  (args[index]?).bind fun arg => if arg = [] then none else some (cString arg)

def usage : Text := textOf "usage"

def notFound : Text := textOf "not-found"

def internal : Text := textOf "internal"

/-- The checks of `sensor_sampling_group_cmd_katcp` on the sensor: the variable and its key,
or why the request is refused. `found` is what `find_vrbl_katcp` finds. -/
def samplingTarget (s : Sampling) (args : Words) (found : Option VrblId) :
    Except (ResultCode × Text) (VrblId × Text) :=
  if args.length ≤ 1 then .error (.invalid, usage)
  else
    match argString args 1 with
    | none => .error (.fail, usage)
    | some key =>
      match found with
      | none => .error (.fail, notFound)
      | some vx =>
        if ¬ (s.vrbls vx).vSen ∨ ¬ (s.vrbls vx).vValue then .error (.fail, notFound)
        else if (s.vrbls vx).vHid then .error (.fail, notFound)
        else .ok (vx, key)

def timerName (fx : Client) (key : Text) : TimerName :=
  cString fx.gName ++ byte '.' :: cString fx.fName ++ byte '.' :: key

/-- The subscription that a change of strategy ends. -/
def endSampling (s : Sampling) (vx : VrblId) (peer : EndpointId) (current strategy : Strategy) :
    Option (Int × Sampling) :=
  if current = strategy then forgetVariable s vx peer strategy else some (0, s)

def sampleEvent (s : Sampling) (vx : VrblId) (fx : Client) (current : Strategy) (fresh : SubscribeId) :
    Option (Int × List Words × Sampling) := do
  let (r, s) ← endSampling s vx fx.fPeer current .period
  if r < 0 then some (r, [], s) else monitorEvent s vx fx.fPeer fresh

def samplePeriod (s : Sampling) (vx : VrblId) (fx : Client) (current : Strategy) (now tv : Timeval)
    (key : Text) (fresh : SubscribeId) : Option (Int × List Words × Sampling) := do
  let (r, s) ← endSampling s vx fx.fPeer current .event
  if r < 0 then some (r, [], s) else monitorPeriod s vx fx.fPeer now tv (timerName fx key) fresh

def sampleOff (s : Sampling) (vx : VrblId) (fx : Client) (current : Strategy) :
    Option (Int × List Words × Sampling) := do
  let (r, s) ← endSampling s vx fx.fPeer current .event
  if r < 0 then some (r, [], s)
  else
    let (r, s) ← endSampling s vx fx.fPeer current .period
    some (r, [], s)

/-- The strategy a request asks for, a period with its interval. -/
inductive Asked where
  | query
  | event
  | period (tv : Timeval)
  | off
  | refused

def askedStrategy (args : Words) : Asked :=
  if args.length ≤ 2 then .query
  else
    match (argString args 2).bind strategyFromString with
    | some .event => .event
    | some .period =>
      match (argString args 3).bind stringToTv with
      | none => .refused
      | some tv => .period tv
    | some .off => .off
    | _ => .refused

/-- What a request leads to: a code with further arguments for the reply, messages that
precede it, and the state. -/
structure Sampled where
  code : ResultCode
  extra : Words
  shown : List Words
  state : Sampling

def sampledAs (key strategy : Text) : Int × List Words × Sampling → Sampled
  | (r, shown, s) =>
    if r < 0 then ⟨.fail, [internal], shown, s⟩ else ⟨.ok, [key, strategy], shown, s⟩

def sensorSampling (s : Sampling) (fx : Client) (args : Words) (found : Option VrblId)
    (fresh : SubscribeId) (now : Timeval) : Option Sampled :=
  match samplingTarget s args found with
  | .error (code, text) => some ⟨code, [text], [], s⟩
  | .ok (vx, key) => do
    let current ← currentStrategy s vx fx.fPeer
    let named := sampledAs key ((argString args 2).getD [])
    match askedStrategy args with
    | .query => some ⟨.ok, [key, strategyToString current], [], s⟩
    | .event => (sampleEvent s vx fx current fresh).map named
    | .period tv => (samplePeriod s vx fx current now tv key fresh).map named
    | .off => (sampleOff s vx fx current).map named
    | .refused => some ⟨.fail, [usage], [], s⟩

/-- An endpoint that was released. -/
def goneEndpoint : KatcpEndpoint := ⟨false, false, .empty⟩

inductive SamplingAction where
  | request (fx : Client) (args : Words) (found : Option VrblId) (fresh : SubscribeId) (now : Timeval)
  | change (vx : VrblId) (shown : Words)
  | disconnect (e : EndpointId)
  | load (now : Timeval)
  | run (now after : Timeval)
  deriving DecidableEq, Repr

def samplingAction (s : Sampling) : SamplingAction → Option Sampling
  | .request fx args found fresh now => (sensorSampling s fx args found fresh now).map Sampled.state
  | .change vx shown => onEventChange { s with
      vrbls := Function.update s.vrbls vx { s.vrbls vx with vShown := shown, vValue := true } } vx
  | .disconnect e => some (s.putPeer e goneEndpoint)
  | .load now => (loadHeapTimers s.timers now).map fun (_, _, timers) => { s with timers := timers }
  | .run now after => runSampling s now after

/-- A client was granted samples of a variable at an interval. -/
structure Granted where
  peer : EndpointId
  vx : VrblId
  interval : Timeval
  deriving DecidableEq, Repr

def grants (s : Sampling) : SamplingAction → List Granted
  | .request fx args found fresh now =>
    match samplingTarget s args found, askedStrategy args with
    | .ok (vx, _), .period tv =>
      if (sensorSampling s fx args found fresh now).any (·.code = .ok) then [⟨fx.fPeer, vx, tv⟩] else []
    | _, _ => []
  | _ => []

/-- Before any request: some variables, and nothing subscribed. -/
def noSampling (sensors : VrblId → KatcpVrbl) : Sampling where
  vrbls := fun vx => { sensors vx with vExtra := none }
  subs := fun _ => none
  peers := fun _ => createEndpoint
  timers := noTimers

def samplingMachine (sensors : VrblId → KatcpVrbl) : Machine Sampling SamplingAction Granted :=
  ⟨noSampling sensors, samplingAction, grants⟩

end Katcp
