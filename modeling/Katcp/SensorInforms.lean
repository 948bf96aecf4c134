import Katcp.ChildField
import Katcp.SampleCommand
import Katcp.Timestamp

namespace Katcp

/-- `KATCP_VRF_SEN` -/
def vrfSen : Nat := 0x04

/-- Where a sensor keeps what, from `KATCP_VRC_SENSOR_VALUE` on. -/
def vrcValue : Text := textOf ":value"
def vrcStatus : Text := textOf ":status"
def vrcHelp : Text := textOf ":help"
def vrcUnits : Text := textOf ":units"
def vrcType : Text := textOf ":type"
def vrcRange : Text := textOf ":range#-"
def vrcTime : Text := textOf ":time"

/-- The flags `KATCP_FLAT_PREFIXED` and `KATCP_FLAT_TOSERVER` of the clients. -/
structure RelayClients where
  prefixed : FlatAt → Bool
  toServer : FlatAt → Bool

/-- An inform that a client is given, and whether its origin is the remote of the client. -/
structure SensorInform where
  fx : FlatAt
  fromRemote : Bool
  args : Words

inductive InformResult where
  | ok
  | own
  | fail
  | passed
  deriving DecidableEq, Repr

def VrblShared.flatName (s : VrblShared) (fx : FlatAt) : Option Text :=
  (s.sGroups[fx.fGroup]?.bind fun gx => gx.gFlats[fx.place]?).join

/-- A scan whose result is not looked at; none if the process crashes. -/
def scanText (vx : Vrbl) (text path : Text) : Option Vrbl :=
  match scanVrbl (some vx) (some text) (some path) .mayCreate (some .string) with
  | .done vx => vx
  | .refused vx => vx
  | .wild => none

def scanUnits (vx : Vrbl) : Option Text → Option Vrbl
  | some units => scanText vx units vrcUnits
  | none => some vx

def scanRange : Vrbl → List (Option Text) → Option Vrbl
  | vx, [] => some vx
  | vx, none :: fields => scanRange vx fields
  | vx, some field :: fields => (scanText vx field vrcRange).bind fun vx => scanRange vx fields

/-- `is_vrbl_sensor_katcp` -/
def isVrblSensor (vx : Vrbl) : Bool := vx.vFlags &&& vrfSen ≠ 0 && (findPayload vx (some vrcValue)).isSome

/-- The three scans of a status, the first two of a variable that is hidden. -/
def updateSensor (vx : Vrbl) (stamp status value : Text) : Option Vrbl := do
  let hidden := vx.vFlags &&& vrfHid
  let vx ← scanText (if hidden ≠ 0 then vx else hideVrbl vx) stamp vrcTime
  let vx ← scanText vx status vrcStatus
  scanText (if hidden ≠ 0 then vx else showVrbl vx) value vrcValue

/-- The size of the buffer for a timestamp. -/
def timestampBuffer : Nat := 20

namespace RelayClients

variable (r : RelayClients) (s : VrblShared) (a : SensorInform)

/-- The name that `make_child_field_katcp` builds for a client. -/
def childField (fx : FlatAt) (name : Text) (locator : Bool) : Option Text :=
  (makeChildField name (if r.prefixed fx then s.flatName fx else none) locator).map ChildField.text

/-- The new variable of a sensor. A type that is not known is a large `unsigned`, and not refused. -/
def declaredSensor (description type : Text) : Option Vrbl :=
  match scanVrbl none none (some vrcValue) .mayCreate (some .string) with
  | .done (some vx) => do
    let vx ← scanText vx description vrcHelp
    let vx ← scanText vx type vrcType
    let vx ← scanUnits vx (argString a.args 3)
    if type = textOf "discrete" then scanRange vx ((List.range' 5 (a.args.length - 5)).map (argString a.args))
    else some vx
  | _ => none

/-- `sensor_list_group_info_katcp` -/
def sensorListGroupInfo : Option (VrblShared × InformResult) :=
  if r.toServer a.fx = false ∧ a.fromRemote = false then some (s, .passed)
  else match argString a.args 1, argString a.args 2, argString a.args 4 with
  | some name, some description, some type =>
    match r.childField s a.fx name true with
    | none => some (s, .fail)
    | some ptr =>
      if (findVrbl s a.fx ptr).isSome then some (s, .own)
      else (declaredSensor a description type).bind fun vx =>
        (updateVrbl s a.fx ptr (some { vx with vFlags := vrfSen }) false).map fun (s, ref) =>
          (s, if ref.isSome then .ok else .fail)
  | _, _, _ => some (s, .fail)

/-- What is done to the variable that a name leads to. -/
def statusOf (ptr stamp status value : Text) : Option (VrblShared × InformResult) :=
  match findVrbl s a.fx ptr with
  | none => some (s, .ok)
  | some ref => (s.vrbl ref).bind fun vx =>
    if isVrblSensor vx then (updateSensor vx stamp status value).map fun vx => (s.setVrbl ref vx, .ok)
    else some (s, .ok)

/-- `sensor_status_group_info_katcp` -/
def sensorStatusGroupInfo : Option (VrblShared × InformResult) :=
  if a.fromRemote = false then some (s, .passed)
  else match argString a.args 1, argString a.args 3, argString a.args 4, argString a.args 5 with
  | some stamp, some name, some status, some value =>
    (fixupTimestamp stamp (List.replicate timestampBuffer 0) timestampBuffer).bind fun (buffer, result) =>
      if result < 0 then some (s, .fail)
      else match r.childField s a.fx name false with
      | none => some (s, .fail)
      | some ptr => statusOf s a ptr (cString (buffer.set (timestampBuffer - 1) 0)) status value
  | _, _, _, _ => some (s, .fail)

end RelayClients

inductive RelayInform where
  | list (a : SensorInform)
  | status (a : SensorInform)

def RelayClients.serve (r : RelayClients) (s : VrblShared) : RelayInform → Option (VrblShared × InformResult)
  | .list a => r.sensorListGroupInfo s a
  | .status a => r.sensorStatusGroupInfo s a

/-- The informs that the clients are given, one after the other. -/
def informMachine (r : RelayClients) (s : VrblShared) : Machine VrblShared RelayInform InformResult where
  start := s
  step s a := (r.serve s a).map Prod.fst
  emits s a := ((r.serve s a).map Prod.snd).toList

/-- The name of the sensor in an inform. -/
def RelayInform.sensor : RelayInform → Option Text
  | .list a => argString a.args 1
  | .status a => argString a.args 3

/-- The name does not go to other groups by their names. -/
def RelayInform.Starless (c : RelayInform) : Prop := ∀ name, c.sensor = some name → delimGroup ∉ name

/-- What is built of the name in an inform. -/
def RelayClients.Builds (r : RelayClients) (s : VrblShared) (fx : FlatAt) (c : RelayInform) (field : Text) : Prop :=
  ∃ name, c.sensor = some name ∧ r.childField s fx name false = some field

/-- The inform is taken, with the time, the status and the value that are stored. -/
def SensorInform.Takes (a : SensorInform) (stamp status value : Text) : Prop :=
  a.fromRemote = true ∧ argString a.args 4 = some status ∧ argString a.args 5 = some value ∧
    ∃ text buffer result, argString a.args 1 = some text ∧
      fixupTimestamp text (List.replicate timestampBuffer 0) timestampBuffer = some (buffer, result) ∧ 0 ≤ result ∧
      stamp = cString (buffer.set (timestampBuffer - 1) 0)

/-- The elements of a sensor that a status sets. -/
def Vrbl.Shows (vx : Vrbl) (stamp status value : Text) : Prop :=
  findPayload vx (some vrcTime) = some (.string (some stamp)) ∧
    findPayload vx (some vrcStatus) = some (.string (some status)) ∧
    findPayload vx (some vrcValue) = some (.string (some value))

end Katcp
