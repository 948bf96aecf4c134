import Katcp.VrblPath
import Mathlib.Logic.Function.Basic

namespace Katcp

section

/-- A client, by its group and its place there. -/
structure FlatAt where
  fGroup : Nat
  place : Nat
  deriving DecidableEq, Repr

/-- The names that a `katcp_group` and its clients have. -/
structure VrblGroup where
  gName : Option Text
  gFlats : List (Option Text)

/-- Each client has a region of variables, as have each group and the root. -/
inductive RegionId where
  | flat (fx : FlatAt)
  | group (gx : Nat)
  | root
  deriving DecidableEq, Repr

abbrev Region := List (Text × Vrbl)

structure VrblShared where
  sGroups : List VrblGroup
  regions : RegionId → Region

/-- Where a variable is. -/
structure VrblRef where
  region : RegionId
  key : Text
  deriving DecidableEq, Repr

namespace VrblShared

variable (s : VrblShared)

/-- `find_region_katcp` -/
def findRegion (rx : RegionId) (key : Text) : Option Vrbl := KeyedList.find strcmp key (s.regions rx)

/-- `insert_region_katcp` -/
def insertRegion (rx : RegionId) (vx : Vrbl) (key : Text) : VrblShared :=
  { s with regions := Function.update s.regions rx (KeyedList.put strcmp key vx (s.regions rx)) }

/-- `remove_region_katcp` -/
def removeRegion (rx : RegionId) (key : Text) : VrblShared :=
  { s with regions := Function.update s.regions rx (KeyedList.erase strcmp key (s.regions rx)) }

def groupFlats (gx : Nat) : List FlatAt :=
  (List.range ((s.sGroups[gx]?.map (·.gFlats)).getD []).length).map (⟨gx, ·⟩)

def allFlats : List FlatAt := (List.range s.sGroups.length).flatMap s.groupFlats

/-- `find_group_katcp` -/
def findGroup (name : Text) : Option Nat := s.sGroups.findIdx? (·.gName = some name)

/-- `find_name_flat_katcp` in the group of a name, which limits the search. -/
def findNameFlat (group name : Text) : Option FlatAt :=
  (s.findGroup group).bind fun gx =>
    (((s.sGroups[gx]?.map (·.gFlats)).getD []).findIdx? (· = some name)).map (⟨gx, ·⟩)

end VrblShared

def maxCountStar : Nat := 3

/-- `tokenise_vrbl_katcp`: the string with its separators cut out, and where they are. -/
def tokeniseFrom : Nat → Nat → Text → Option (Text × List Nat)
  | _, i, [] => if i = 0 then none else some ([], [i])
  | count, i, c :: str =>
    if c = delimGroup then
      if maxCountStar ≤ count then none
      else (tokeniseFrom (count + 1) (i + 1) str).map fun (copy, v) => (0 :: copy, i :: v)
    else if isDelim c then some (0 :: str, [i])
    else (tokeniseFrom count (i + 1) str).map fun (copy, v) => (c :: copy, v)

def tokeniseVrbl (str : Text) : Option (Text × List Nat) :=
  (tokeniseFrom 0 0 str).bind fun (copy, v) => if v.getLast? = some 0 then none else some (copy, v)

/-- The string that starts at an offset. -/
def stringAt (copy : Text) (i : Nat) : Text := cString (copy.drop i)

section

variable (s : VrblShared) (fx : FlatAt)

/-- The regions that `update_vrbl_katcp` searches, and where the name of the variable
starts. -/
def searchPath (copy : Text) : List Nat → Option (List RegionId × Nat)
  | [_] => some ([.flat fx, .group fx.fGroup, .root], 0)
  | [v0, v1] =>
    if v0 = 0 then some ([.flat fx, .group fx.fGroup], 1)
    else if v0 = v1 - 1 then some ([.root], 0)
    else none
  | [v0, v1, v2] =>
    if v1 ≠ v2 - 1 then none
    else if v0 = 0 then some ([.group fx.fGroup], 1)
    else (s.findGroup (stringAt copy 0)).map fun gx => ([.group gx], v0 + 1)
  | [v0, v1, _, _] =>
    if v0 = 0 then if v1 ≠ 1 then none else some ([.flat fx], 2)
    else (s.findNameFlat (stringAt copy 1) (stringAt copy (v0 + 1))).map fun fy => ([.flat fy], v1 + 1)
  | _ => none

/-- What a name means to a client: the regions to search, and the name there. -/
def decodeName (name : Text) : Option (List RegionId × Text) :=
  (tokeniseVrbl name).bind fun (copy, v) =>
    (searchPath s fx copy v).bind fun (vra, i) =>
      if stringAt copy i = [] then none else some (vra, stringAt copy i)

/-- `update_vrbl_katcp`, which aborts when it is to replace a variable. -/
def updateVrbl (name : Text) (vo : Option Vrbl) (clobber : Bool) :
    Option (VrblShared × Option VrblRef) :=
  match decodeName s fx name with
  | none => some (s, none)
  | some (vra, var) =>
    match vra.find? fun rx => (s.findRegion rx var).isSome with
    | none =>
      match vo, vra.head? with
      | none, _ => some (s, none)
      | some _, none => none
      | some vo, some rx => some (s.insertRegion rx vo var, some ⟨rx, var⟩)
    | some rx =>
      match vo with
      | some _ => none
      | none => if clobber then some (s.removeRegion rx var, none) else some (s, some ⟨rx, var⟩)

/-- `find_vrbl_katcp` -/
def findVrbl (name : Text) : Option VrblRef :=
  (updateVrbl s fx name none false).bind Prod.snd

/-- The clients that `for_all_flats_vrbl_katcp` calls its callback for, in order. -/
def forAllFlats (name : Text) : Option (List FlatAt) :=
  (tokeniseVrbl name).bind fun (copy, v) =>
    match v with
    | [_] => some s.allFlats
    | [v0, v1] =>
      if v0 = 0 then some (s.groupFlats fx.fGroup)
      else if v0 = v1 - 1 then some s.allFlats
      else none
    | [v0, v1, v2] =>
      if v1 ≠ v2 - 1 then none
      else if v0 = 0 then some (s.groupFlats fx.fGroup)
      else (s.findGroup (stringAt copy 0)).map s.groupFlats
    | [v0, v1, _, _] =>
      if v0 = 0 then if v1 ≠ 1 then none else some [fx]
      else (s.findNameFlat (stringAt copy 1) (stringAt copy (v0 + 1))).map ([·])
    | _ => none

end

end

section

def typeNames : List (Text × VrblType) :=
  [(textOf "string", .string), (textOf "map", .tree), (textOf "array", .array)]

/-- `type_from_string_vrbl_katcp` -/
def typeFromString (string : Text) : Option VrblType :=
  (typeNames.find? (·.1 = string)).map Prod.snd

/-- `flag_lookup_vrbl`, in the order of the bits. -/
def flagLookup : List Text :=
  ["environment", "version", "sensor", "fluid", "hidden", "readonly", "special"].map textOf

/-- `flag_from_string_vrbl_katcp` -/
def flagFromString (string : Text) : Nat :=
  match flagLookup.findIdx? (· = string) with
  | none => 0
  | some i => 2 ^ i

/-- The attributes of a declaration: flags and at most one type. -/
def parseAttributes : List Text → Nat → Option VrblType → Option (Nat × Option VrblType)
  | [], options, type => some (options, type)
  | current :: more, options, type =>
    if flagFromString current ≠ 0 then parseAttributes more (options ||| flagFromString current) type
    else match typeFromString current with
    | none => none
    | some result =>
      if type.isSome ∧ type ≠ some result then none else parseAttributes more options (some result)

def declareAttributes : List (Option Text) → Option (Nat × VrblType)
  | [] => some (0, .string)
  | none :: _ => none
  | some copy :: _ =>
    (parseAttributes (copy.splitOn (byte ',')) 0 none).map fun (options, type) =>
      (options, type.getD .string)

/-- The path of a command: behind the name, or an argument of its own. -/
def commandPath (name : Text) : List (Option Text) → Option (Option Text)
  | [] => some (pathSuffix (some name))
  | none :: _ => none
  | some path :: _ => if (pathSuffix (some name)).isSome then none else some (some path)

def setType : List (Option Text) → Option VrblType
  | [] => some .string
  | none :: _ => none
  | some ptr :: _ => typeFromString ptr

/-- The result of a command, with what is said behind it. -/
abbrev VrblAnswer := ResultCode × Option Text

def answerUsage : VrblAnswer := (.fail, some (textOf "usage"))
def answerNotFound : VrblAnswer := (.fail, some (textOf "not-found"))
def answerFail : VrblAnswer := (.fail, none)
def answerOk : VrblAnswer := (.ok, none)

/-- What is written of an index in a key, whose buffer holds nine digits. -/
def indexText (i : Nat) : Text := (textOf (toString i)).take 9

mutual

/-- `t_foreach`: each text that is set, under the key that leads to it, and whether all were. -/
def foreachPayload : Payload → Text → List (Text × Text) × Bool
  | .string none, _ => ([], false)
  | .string (some value), key => ([(key, value)], true)
  | .tree m, key => foreachMembers m (key ++ [delimTree])
  | .array es, key => foreachElements es (key ++ [delimArray]) 0

def foreachMembers : List (Text × Payload) → Text → List (Text × Text) × Bool
  | [], _ => ([], true)
  | (k, py) :: m, base =>
    let one := foreachPayload py (base ++ k)
    let rest := foreachMembers m base
    (one.1 ++ rest.1, one.2 && rest.2)

def foreachElements : List (Option Payload) → Text → Nat → List (Text × Text) × Bool
  | [], _, _ => ([], true)
  | none :: es, base, i => foreachElements es base (i + 1)
  | some py :: es, base, i =>
    let one := foreachPayload py (base ++ indexText i)
    let rest := foreachElements es base (i + 1)
    (one.1 ++ rest.1, one.2 && rest.2)

end

section

variable (s : VrblShared) (fx : FlatAt)

def VrblShared.vrbl (ref : VrblRef) : Option Vrbl := s.findRegion ref.region ref.key

def VrblShared.setVrbl (ref : VrblRef) (vx : Vrbl) : VrblShared := s.insertRegion ref.region vx ref.key

/-- What a scan of a variable that exists leaves. -/
def keepScan (ref : VrblRef) : Scanned (Option Vrbl) → Option (VrblShared × VrblAnswer)
  | .done (some vx) => some (s.setVrbl ref vx, answerOk)
  | .refused (some vx) => some (s.setVrbl ref vx, answerFail)
  | _ => none

/-- `var_declare_group_cmd_katcp` -/
def varDeclare (args : List (Option Text)) : Option (VrblShared × VrblAnswer) :=
  match args with
  | [] => some (s, answerUsage)
  | none :: _ => some (s, answerUsage)
  | some name :: more =>
    match declareAttributes more, commandPath name more.tail with
    | some (options, type), some path =>
      match findVrbl s fx name with
      | some ref =>
        (s.vrbl ref).bind fun vx =>
          if path = none then some (s, answerUsage)
          else if options ≠ 0 ∧ options ≠ vx.vFlags then some (s, answerUsage)
          else keepScan s ref (scanVrbl (some vx) none path .mayCreate (some type))
      | none =>
        match scanVrbl none none path .mayCreate (some type) with
        | .done (some vx) =>
          (updateVrbl s fx name (some { vx with vFlags := options }) false).map fun (t, ref) =>
            (t, if ref.isSome then answerOk else answerFail)
        | .refused _ => some (s, answerFail)
        | _ => none
    | _, _ => some (s, answerUsage)

/-- `var_set_group_cmd_katcp` -/
def varSet (args : List (Option Text)) : Option (VrblShared × VrblAnswer) :=
  match args with
  | some key :: value :: more =>
    match findVrbl s fx key with
    | none => some (s, answerNotFound)
    | some ref =>
      (s.vrbl ref).bind fun vx =>
        match value, setType more, commandPath key more.tail with
        | some value, some type, some path =>
          let how := if vx.vFlags &&& vrfRom ≠ 0 then HowCreate.mustCreate else .mayCreate
          keepScan s ref (scanVrbl (some vx) (some value) path how (some type))
        | _, _, _ => some (s, answerUsage)
  | _ => some (s, answerUsage)

/-- The path that is to be deleted, where none is the whole variable. -/
def deletePath (key : Text) (path : Option Text) : Option Text :=
  path.or ((nextElementPath key).bind fun next => if 0 < next then some (key.drop next) else none)

/-- `var_delete_group_cmd_katcp` -/
def varDelete (args : List (Option Text)) : Option (VrblShared × VrblAnswer) :=
  match args with
  | [] => some (s, answerUsage)
  | none :: _ => some (s, answerUsage)
  | some _ :: none :: _ => some (s, answerUsage)
  | some key :: more =>
    let path := more.head?.join
    match findVrbl s fx key with
    | none => some (s, answerNotFound)
    | some ref =>
      if path.isSome ∧ (nextElementPath key).any (0 < ·) then some (s, answerUsage)
      else match deletePath key path with
      | none =>
        (updateVrbl s fx key none true).map fun (t, left) =>
          (t, if left.isSome then answerFail else answerOk)
      | some path =>
        (s.vrbl ref).bind fun vx =>
          match exciseVrbl vx (some path) true with
          | none => some (s, answerFail)
          | some vx => some (s.setVrbl ref vx, answerOk)

/-- `display_vrbl_katcp`, where a hidden variable shows nothing. -/
def displayVrbl (key : Text) (vx : Vrbl) : List (Text × Text) × Bool :=
  if vx.vFlags &&& vrfHid ≠ 0 then ([], true)
  else match findPayload vx (some key) with
  | none => ([], false)
  | some py => foreachPayload py key

/-- The loop of `var_show_group_cmd_katcp` over its arguments. -/
def showNames : List (Option Text) → Bool → List (Text × Text) × VrblAnswer
  | [], good => ([], if good then answerOk else answerFail)
  | none :: _, _ => ([], answerUsage)
  | some key :: more, good =>
    match (findVrbl s fx key).bind s.vrbl with
    | none => ([], answerNotFound)
    | some vx =>
      let shown := displayVrbl key vx
      let rest := showNames more (good && shown.2)
      (shown.1 ++ rest.1, rest.2)

/-- `traverse_vrbl_katcp` with the display of each variable, whose results it ignores. -/
def showAll : List (Text × Text) :=
  [RegionId.flat fx, .group fx.fGroup, .root].flatMap fun rx =>
    (s.regions rx).flatMap fun (key, vx) => (displayVrbl key vx).1

/-- `var_show_group_cmd_katcp`: the keys and values that it sends, and its answer. -/
def varShow (args : List (Option Text)) : List (Text × Text) × VrblAnswer :=
  match args with
  | [] => (showAll s fx, answerOk)
  | args => showNames s fx args true

/-- `hide_vrbl_katcp` and `show_vrbl_katcp` of the variable that a name finds. -/
def changeFlags (f : Vrbl → Vrbl) (name : Text) : Option (VrblShared × VrblAnswer) :=
  match findVrbl s fx name with
  | none => some (s, answerNotFound)
  | some ref => (s.vrbl ref).map fun vx => (s.setVrbl ref (f vx), answerOk)

end

/-- What a client asks for; `hide` and `reveal` are what a relayed sensor update does. -/
inductive VrblCommand where
  | declare (args : List (Option Text))
  | set (args : List (Option Text))
  | display (args : List (Option Text))
  | delete (args : List (Option Text))
  | hide (name : Text)
  | reveal (name : Text)

def runCommand (s : VrblShared) (fx : FlatAt) : VrblCommand → Option (VrblShared × VrblAnswer)
  | .declare args => varDeclare s fx args
  | .set args => varSet s fx args
  | .display args => some (s, (varShow s fx args).2)
  | .delete args => varDelete s fx args
  | .hide name => changeFlags s fx hideVrbl name
  | .reveal name => changeFlags s fx showVrbl name

/-- The clients' commands, one after the other. -/
def vrblMachine (s : VrblShared) : Machine VrblShared (FlatAt × VrblCommand) VrblAnswer where
  start := s
  step s a := (runCommand s a.1 a.2).map Prod.fst
  emits s a := ((runCommand s a.1 a.2).map Prod.snd).toList

end

end Katcp
