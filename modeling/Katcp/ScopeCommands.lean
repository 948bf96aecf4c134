import Katcp.ClientScope
import Katcp.SampleCommand

namespace Katcp

open Function

/-- The bits of `f_flags`. -/
def flatToServer : BitVec 32 := 0x02
def flatToClient : BitVec 32 := 0x04
def flatHidden : BitVec 32 := 0x08
def flatPrefixed : BitVec 32 := 0x10
def flatInstallInfo : BitVec 32 := 0x20
def flatRetainInfo : BitVec 32 := 0x40
def flatLogPrefix : BitVec 32 := 0x80
def flatSeesKatcp : BitVec 32 := 0x100
def flatSeesAdmin : BitVec 32 := 0x200
def flatSeesUser : BitVec 32 := 0x400
def flatSeesMapInfo : BitVec 32 := 0x800
def flatPrepend : BitVec 32 := 0x1000
def flatPermitNul : BitVec 32 := 0x2000
def flatConfigMask : BitVec 32 := 0xffff

/-- `KATCP_LEVEL_OFF` -/
def levelOff : Int := 6

/-- The groups and clients, with the flags and log levels that requests change. -/
structure ScopedClients where
  groups : Groups
  fFlags : FlatId → BitVec 32
  fLogLevel : FlatId → Int
  gLogLevel : GroupId → Int

/-- What a request is answered with, what it leaves, the messages that it sends, and the groups
that it terminates. -/
structure ScopedOutcome where
  result : ResultCode
  extra : Option Text
  after : ScopedClients
  delivered : List (FlatId × Words)
  halted : List GroupId

/-- The options of `client_config_group_cmd_katcp`, with the bits each clears and sets. -/
def configOptions : List (String × BitVec 32 × BitVec 32) :=
  [("duplex", 0, flatToServer ||| flatToClient), ("server", flatToServer, flatToClient),
    ("client", flatToClient, flatToServer), ("hidden", 0, flatHidden), ("visible", flatHidden, 0),
    ("prefixed", 0, flatPrefixed), ("sensor-prefix", 0, flatPrefixed), ("fixed", flatPrefixed, 0),
    ("sensor-unchanged", flatPrefixed, 0), ("stop-info", flatInstallInfo, 0), ("relay-info", 0, flatInstallInfo),
    ("translate", flatRetainInfo, 0), ("native", 0, flatRetainInfo), ("log-prefix", 0, flatLogPrefix),
    ("log-plain", flatLogPrefix, 0), ("log-unchanged", flatLogPrefix, 0), ("permit-nul", 0, flatPermitNul),
    ("fill-nul", flatPermitNul, 0), ("version-prepend", 0, flatPrepend), ("version-prefix", 0, flatPrepend),
    ("version-unchanged", flatPrepend, 0),
    ("info-none", flatSeesKatcp ||| flatSeesAdmin ||| flatSeesUser ||| flatSeesMapInfo, 0),
    ("info-katcp", flatSeesAdmin ||| flatSeesUser, flatSeesKatcp),
    ("info-user", flatSeesAdmin, flatSeesKatcp ||| flatSeesUser),
    ("info-admin", flatSeesUser, flatSeesKatcp ||| flatSeesAdmin),
    ("info-all", 0, flatSeesKatcp ||| flatSeesAdmin ||| flatSeesUser ||| flatSeesMapInfo),
    ("extra-relay", 0, flatSeesMapInfo), ("extra-drop", flatSeesMapInfo, 0)]

def configOption (option : Text) : Option (BitVec 32 × BitVec 32) :=
  (configOptions.find? fun entry => textOf entry.1 = option).map Prod.snd

/-- `code_from_scope_katcp` -/
def codeFromScope (scope : Text) : Option ClientScope :=
  if scope = textOf "individual" then some .client
  else if scope = textOf "group" then some .group
  else if scope = textOf "global" then some .all
  else none

namespace ScopedClients

/-- A request that changes nothing. -/
def answer (s : ScopedClients) (result : ResultCode) (extra : Option Text) : ScopedOutcome := ⟨result, extra, s, [], []⟩

def failed (s : ScopedClients) (extra : String) : ScopedOutcome := s.answer .fail (some (textOf extra))

/-- `reconfigure_flat_katcp` -/
def reconfigureFlat (s : ScopedClients) (fx : FlatId) (flags : BitVec 32) : Option (Int × ScopedClients) :=
  (s.groups.flats fx).map fun f =>
    match f.fGroup with
    | none => (-1, s)
    | some gx =>
      let level :=
        if flags &&& flatToClient = 0 then levelOff
        else if s.fFlags fx &&& flatToClient = 0 ∧ s.fLogLevel fx = levelOff then s.gLogLevel gx
        else s.fLogLevel fx
      (0, { s with fLogLevel := update s.fLogLevel fx level, fFlags := update s.fFlags fx (flags &&& flatConfigMask) })

/-- The end of `client_config_group_cmd_katcp`. -/
def configFlat (s : ScopedClients) (fx : FlatId) (option : Text) : Option ScopedOutcome :=
  match configOption option with
  | none => some (s.answer .ok none)
  | some (mask, set) =>
    (s.reconfigureFlat fx ((s.fFlags fx &&& ~~~mask) ||| set)).map fun (r, s') =>
      s'.answer (if r < 0 then .fail else .ok) none

/-- `client_config_group_cmd_katcp`, where no outcome is an abort. -/
def clientConfig (s : ScopedClients) (this : FlatId) (args : Words) : Option ScopedOutcome :=
  if args.length < 2 then some (s.failed "usage")
  else
    match argString args 1 with
    | none => some (s.failed "bug")
    | some option =>
      if 2 < args.length then
        match argString args 2 with
        | none => some (s.failed "bug")
        | some client =>
          (s.groups.scopeNameFull (some this) none none (some client)).bind fun
            | none => some (s.failed "not-found")
            | some fx => s.configFlat fx option
      else s.configFlat this option

/-- The end of `client_halt_group_cmd_katcp`. -/
def haltFlat (s : ScopedClients) (fx : FlatId) : Option ScopedOutcome :=
  (s.groups.terminateFlat fx).map fun (r, groups) =>
    ({ s with groups := groups } : ScopedClients).answer (if r < 0 then .fail else .ok) none

/-- `client_halt_group_cmd_katcp` -/
def clientHalt (s : ScopedClients) (this : FlatId) (args : Words) : Option ScopedOutcome :=
  if 1 < args.length then
    match argString args 1 with
    | none => some (s.failed "bug")
    | some client =>
      if 2 < args.length ∧ argString args 2 = none then some (s.failed "bug")
      else
        (s.groups.scopeNameFull (some this) none (argString args 2) (some client)).bind fun
          | none => some (s.failed "not-found")
          | some fx => s.haltFlat fx
  else s.haltFlat this

/-- The group that `group_halt_group_cmd_katcp` is about. -/
def haltTarget (s : ScopedClients) (this : FlatId) (args : Words) : Option GroupId :=
  if args.length ≤ 1 then s.groups.thisGroup (some this)
  else (argString args 1).bind fun name => s.groups.findGroup (some name)

/-- `group_halt_group_cmd_katcp` -/
def groupHalt (s : ScopedClients) (this : FlatId) (args : Words) : Option ScopedOutcome :=
  match s.haltTarget this args with
  | none => some (s.answer .fail none)
  | some gx => (s.groups.terminateGroup gx true).map fun groups => ⟨.ok, none, { s with groups := groups }, [], [gx]⟩

/-- `broadcast_group_katcp` without a check. -/
def broadcastGroup (s : ScopedClients) (px : Words) (gx : GroupId) : List (FlatId × Words) :=
  ((s.groups.members gx).filter fun fx => (s.groups.flats fx).any fun f => f.fState = .up).map (·, px)

/-- `broadcast_flat_katcp` without a check. -/
def broadcastFlat (s : ScopedClients) (gx : Option GroupId) (px : Words) : List (FlatId × Words) :=
  match gx with
  | some gx => s.broadcastGroup px gx
  | none => s.groups.allGroups.flatMap (s.broadcastGroup px)

/-- `default_message_type_katcm` for informs. -/
def defaultInform (name : Text) : Text := if (name.head?.map isType).getD false then name else byte '#' :: name

/-- The end of `broadcast_group_cmd_katcp`, once it is known whom the message is for. -/
def sendBroadcast (s : ScopedClients) (gx : Option GroupId) (args : Words) : ScopedOutcome :=
  match argString args 2 with
  | none => s.failed "usage"
  | some inform =>
    if inform.head? = some (byte '!') ∨ inform.head? = some (byte '?') then s.failed "usage"
    else ⟨.ok, none, s, s.broadcastFlat gx (defaultInform inform :: args.drop 3), []⟩

/-- `broadcast_group_cmd_katcp` -/
def broadcast (s : ScopedClients) (this : FlatId) (args : Words) : Option ScopedOutcome :=
  (s.groups.flats this).bind fun f =>
    if args.length < 3 then some (s.failed "usage")
    else
      match argString args 1 with
      | some group =>
        (s.groups.scopeNameGroup (some group) (some this)).map fun gx =>
          if gx = none ∧ group ≠ textOf "*" then s.failed "not-found" else s.sendBroadcast gx args
      | none =>
        match f.fScope with
        | .group => some (s.sendBroadcast (s.groups.thisGroup (some this)) args)
        | .all => some (s.sendBroadcast none args)
        | .client => some (s.answer .ok none)

def setScope (s : ScopedClients) (fx : FlatId) (scope : ClientScope) : Option ScopedOutcome :=
  (s.groups.flats fx).map fun f =>
    ({ s with groups := s.groups.setFlat fx (some { f with fScope := scope }) } : ScopedClients).answer .ok none

def setGroupScope (s : ScopedClients) (g : GroupId) (scope : ClientScope) : Option ScopedOutcome :=
  (s.groups.groups g).map fun gx =>
    ({ s with groups := s.groups.setGroup g (some { gx with gScope := scope }) } : ScopedClients).answer .ok none

/-- `scope_group_cmd_katcp` -/
def scopeCommand (s : ScopedClients) (this : FlatId) (args : Words) : Option ScopedOutcome :=
  if args.length ≤ 1 then some (s.failed "usage")
  else
    match argString args 1 with
    | none => some (s.answer .invalid (some (textOf "bug")))
    | some text =>
      match codeFromScope text with
      | none => some (s.failed "usage")
      | some scope =>
        if 3 < args.length then
          match argString args 2, argString args 3 with
          | some extent, some name =>
            if extent = textOf "client" then
              (s.groups.scopeNameFull (some this) none none (some name)).bind fun
                | none => some (s.failed "not-found")
                | some fx => s.setScope fx scope
            else if extent = textOf "group" then
              match s.groups.findGroup (some name) with
              | none => some (s.failed "not-found")
              | some g => s.setGroupScope g scope
            else some (s.failed "usage")
          | _, _ => some (s.failed "usage")
        else s.setScope this scope

end ScopedClients

inductive ScopedRequest where
  | clientConfig (args : Words)
  | clientHalt (args : Words)
  | groupHalt (args : Words)
  | broadcast (args : Words)
  | scope (args : Words)

def ScopedClients.run (s : ScopedClients) (this : FlatId) : ScopedRequest → Option ScopedOutcome
  | .clientConfig args => s.clientConfig this args
  | .clientHalt args => s.clientHalt this args
  | .groupHalt args => s.groupHalt this args
  | .broadcast args => s.broadcast this args
  | .scope args => s.scopeCommand this args

/-- A client that is not in the scope of the one that makes the request. -/
def Outside (this : FlatId) (f : GroupFlat) (fz : FlatId) (z : GroupFlat) : Prop :=
  match f.fScope with
  | .client => fz ≠ this
  | .group => z.fGroup ≠ f.fGroup
  | .all => False

/-- A request does nothing beyond the scope of the client that makes it. -/
structure Enforced (s : ScopedClients) (this : FlatId) (f : GroupFlat) (o : ScopedOutcome) : Prop where
  spared : ∀ fz z, s.groups.flats fz = some z → Outside this f fz z →
    o.after.groups.flats fz = some z ∧ o.after.fFlags fz = s.fFlags fz
  unheard : ∀ fz m z, (fz, m) ∈ o.delivered → s.groups.flats fz = some z → ¬Outside this f fz z
  halted : ∀ g ∈ o.halted, f.fGroup = some g
  scopes : ∀ g gx, s.groups.groups g = some gx → f.fGroup ≠ some g →
    (o.after.groups.groups g).map (·.gScope) = some gx.gScope

/-- The requests that keep to the scope of their client. A group that is halted is its own, and
empty of other live clients when it only sees itself; a broadcast is not to all groups, unless
there is nobody to hear it, and does not come from a client that has a name in a group that has
none; and a group whose scope is set is its own, or has that scope. -/
def Heeds (s : ScopedClients) (this : FlatId) (f : GroupFlat) : ScopedRequest → Prop
  | .clientConfig _ => True
  | .clientHalt _ => True
  | .groupHalt args => ∀ g, s.haltTarget this args = some g → f.fGroup = some g ∧
      ∀ fz z, s.groups.flats fz = some z → z.fGroup = some g → Outside this f fz z →
        z.fState ≠ .up ∧ z.fState ≠ .connecting
  | .broadcast args => 3 ≤ args.length → ∀ group, argString args 1 = some group →
      (f.fName.isSome → ∀ g, f.fGroup = some g → (s.groups.groupName g).isSome) ∧
      (group = textOf "*" → ∀ inform, argString args 2 = some inform → inform.head? ≠ some (byte '!') →
        inform.head? ≠ some (byte '?') → ∀ fz z, s.groups.flats fz = some z → z.fState = .up → ¬Outside this f fz z)
  | .scope args => 3 < args.length → argString args 2 = some (textOf "group") →
      ∀ scope g gx, (argString args 1).bind codeFromScope = some scope →
        (argString args 3).bind (fun name => s.groups.findGroup (some name)) = some g →
        s.groups.groups g = some gx → f.fGroup = some g ∨ gx.gScope = scope

end Katcp
