import Katcp.AvlInsert
import Katcp.KeyedList
import Katcp.Machine
import Katcp.ParseReply
import Katcp.SampleCommand
import Katcp.SensorValues
import Mathlib.Algebra.Group.Int.Defs
import Mathlib.Algebra.Group.Nat.Defs

namespace Katcp

def schemaIdent : Text := textOf "schema"
def tagIdent : Text := textOf "tags"

def typeDbase : Text := textOf "db"
def typeString : Text := textOf "string"
def typeTag : Text := textOf "tag"

/-- Which stack it is, and the data of its objects. -/
structure DataStack where
  id : Nat
  objs : List Text
  deriving DecidableEq, Repr

structure Dbase where
  dValues : DataStack
  dSchema : Option Text
  deriving DecidableEq, Repr

/-- The types that are registered and what their trees hold: the strings, for each tag the keys of the entries that
carry it, the entries and the dictionaries. Stacks are numbered as they are created. -/
structure DbaseStore where
  types : List Text
  strings : KeyedList Text Text
  tags : KeyedList Text (List Text)
  entries : KeyedList Text Dbase
  dicts : KeyedList Text (KeyedList Text Text)
  made : Nat
  freed : List Nat
  deriving DecidableEq, Repr

/-- Which steps of a request succeed. A step for an argument goes by the index of the argument, one for a tag that is
taken from its stack by how many were taken before. -/
structure SetSteps where
  stack : Bool
  tags : Bool
  copy : Nat → Bool
  store : Nat → Bool
  object : Nat → Bool
  grow : Nat → Bool
  record : Bool
  key : Bool
  schema : Bool
  register : Bool
  node : Bool
  shrink : Nat → Bool
  mark : Nat → Bool

/-- `get_string_parse_katcl` for an argument that is there. -/
def stringOf (arg : Text) : Option Text := if arg = [] then none else some (cString arg)

/-- `search_type_katcp`, where `data` is `NULL` if it could not be made. -/
def searchType {α : Type} (key : Text) (data : Option α) (stores : Bool) (tree : KeyedList Text α) :
    Option α × KeyedList Text α :=
  match KeyedList.find strcmp key tree, data with
  | some o, _ => (some o, tree)
  | none, some v => if stores then (some v, KeyedList.put strcmp key v tree) else (none, tree)
  | none, none => (none, tree)

/-- `push_stack_katcp`; a stack that cannot grow has lost its objects. -/
def pushStack (s : Option DataStack) (data : Text) (object grow : Bool) : Option DataStack :=
  match s with
  | some s => if object ∧ grow then some { s with objs := s.objs ++ [data] } else none
  | none => none

namespace DbaseStore

variable (s : DbaseStore)

def find (key : Text) : Option Dbase := KeyedList.find strcmp key s.entries

/-- `create_stack_katcp` -/
def createStack (succeeds : Bool) : Option DataStack × DbaseStore :=
  if succeeds then (some ⟨s.made, []⟩, { s with made := s.made + 1 }) else (none, s)

/-- `destroy_stack_katcp` -/
def destroyStack (stack : Option DataStack) : DbaseStore :=
  { s with freed := s.freed ++ (stack.map DataStack.id).toList }

/-- `search_named_type_katcp` for an entry. -/
def searchDbase (key : Text) : Option Dbase := if typeDbase ∈ s.types then s.find key else none

def putDbase (key : Text) (db : Dbase) : DbaseStore := { s with entries := KeyedList.put strcmp key db s.entries }

/-- `tag_data_katcp` -/
def tagData (f : SetSteps) (n : Nat) (tag key : Text) : DbaseStore :=
  match KeyedList.find strcmp tag s.tags with
  | some keys =>
    if key ∈ keys ∨ ¬ f.mark n then s else { s with tags := KeyedList.put strcmp tag (key :: keys) s.tags }
  | none => s

end DbaseStore

inductive SetState where
  | pre
  | schema
  | post
  | tags
  deriving DecidableEq, Repr

/-- The variables of `set_dbase_katcp`. -/
structure SetRun where
  state : SetState
  schema : Option Text
  stack : Option DataStack
  tags : Option DataStack
  store : DbaseStore

/-- What an argument comes to: a process that has crashed, a stack that could not be pushed to, or the next one. -/
inductive ArgResult where
  | crash
  | refused (store : DbaseStore)
  | read (r : SetRun)

def ArgResult.pushed (r : SetRun) : Option SetRun → ArgResult
  | some r => .read r
  | none => .refused r.store

namespace SetRun

variable (f : SetSteps) (i : Nat) (r : SetRun) (temp : Text)

def readValue : ArgResult :=
  let (data, strings) := searchType temp (if f.copy i then some temp else none) (f.store i) r.store.strings
  let r := { r with store := { r.store with strings := strings } }
  match data with
  | none => .read r
  | some data => .pushed r ((pushStack r.stack data (f.object i) (f.grow i)).map fun s => { r with stack := some s })

def readTag : ArgResult :=
  let (data, tags) := searchType temp (if f.copy i then some [] else none) (f.store i) r.store.tags
  let r := { r with store := { r.store with tags := tags } }
  match data with
  | none => .read r
  | some _ => .pushed r ((pushStack r.tags temp (f.object i) (f.grow i)).map fun s => { r with tags := some s })

/-- The body of the loop. An empty argument is a null pointer, which is compared and copied like another. -/
def readArg (arg : Text) : ArgResult :=
  match r.state, stringOf arg with
  | .schema, temp => .read { r with schema := temp, state := .post }
  | _, none => .crash
  | .tags, some temp => r.readTag f i temp
  | .pre, some temp =>
    if temp = schemaIdent then .read { r with state := .schema }
    else if temp = tagIdent then .read { r with state := .tags }
    else r.readValue f i temp
  | .post, some temp => if temp = tagIdent then .read { r with state := .tags } else r.readValue f i temp

def readArgs (f : SetSteps) : Nat → SetRun → List Text → ArgResult
  | _, r, [] => .read r
  | i, r, arg :: args =>
    match r.readArg f i arg with
    | .crash => .crash
    | .refused s => .refused s
    | .read r => readArgs f (i + 1) r args

end SetRun

namespace DbaseStore

/-- The loop of `tag_dbase_katcp`. A stack that could not be made smaller has no objects to look at. -/
def tagLoop (f : SetSteps) (key : Text) : Nat → List Text → DbaseStore → Option DbaseStore
  | _, [], s => some s
  | n, tag :: rest, s =>
    if rest ≠ [] ∧ f.shrink n = false then none else tagLoop f key (n + 1) rest (s.tagData f n tag key)

/-- `tag_dbase_katcp`, whether it succeeds. -/
def tagDbase (s : DbaseStore) (f : SetSteps) (key : Text) (tags : Option DataStack) : Option (Bool × DbaseStore) :=
  match tags with
  | none => some (true, s)
  | some tags =>
    if typeTag ∉ s.types ∨ typeDbase ∉ s.types then some (false, s)
    else (tagLoop f key 0 tags.objs.reverse s).map fun s => (true, s)

/-- `store_kv_dbase_katcp`. It crashes without the record, and frees what is not set in it without the key. -/
def storeKv (s : DbaseStore) (f : SetSteps) (key : Text) (schema : Option Text) (values tags : Option DataStack) :
    Option (Bool × DbaseStore) :=
  match values with
  | none => some (false, s)
  | some values =>
    if ¬ f.record ∨ ¬ f.key then none
    else if typeDbase ∉ s.types ∧ ¬ f.register then some (false, s)
    else
      let s := { s with types := if typeDbase ∈ s.types then s.types else typeDbase :: s.types }
      if ¬ f.node then some (false, s)
      else (s.putDbase key ⟨values, if f.schema then schema else none⟩).tagDbase f key tags

/-- `replace_dbase_values_katcp` -/
def replaceDbaseValues (s : DbaseStore) (f : SetSteps) (key : Text) (db : Dbase) (schema : Option Text)
    (values tags : Option DataStack) : Option (Bool × DbaseStore) :=
  match values with
  | none => some (false, s)
  | some values =>
    ((s.destroyStack (some db.dValues)).putDbase key ⟨values, if f.schema then schema else none⟩).tagDbase f key tags

/-- `set_dbase_katcp` from the loop on. -/
def writeDbase (f : SetSteps) (key : Text) (r : SetRun) : Option (Bool × DbaseStore) :=
  let result :=
    match r.store.searchDbase key with
    | some db => r.store.replaceDbaseValues f key db r.schema r.stack r.tags
    | none => r.store.storeKv f key r.schema r.stack r.tags
  result.map fun (ok, s) =>
    if ok then (true, s.destroyStack r.tags) else (false, (s.destroyStack r.stack).destroyStack r.tags)

/-- `set_dbase_katcp`, whether it succeeds. -/
def setDbase (s : DbaseStore) (f : SetSteps) (args : Words) : Option (Bool × DbaseStore) :=
  match argString args 1 with
  | none => some (false, s)
  | some key =>
    if typeString ∉ s.types ∨ typeTag ∉ s.types then some (false, s)
    else
      let (stack, s) := s.createStack f.stack
      let (tags, s) := s.createStack f.tags
      match SetRun.readArgs f 2 ⟨.pre, none, stack, tags, s⟩ (args.drop 2) with
      | .crash => none
      | .refused s => some (false, (s.destroyStack stack).destroyStack tags)
      | .read r => writeDbase f key r

end DbaseStore

/-- `get_unsigned_long_parse_katcl` -/
def getUnsignedLong (args : Words) (index : Nat) : Nat :=
  match args[index]? with
  | none => 0
  | some arg =>
    let v := strtolValue (cString arg)
    if 2 ^ 64 ≤ v.natAbs then 2 ^ 64 - 1 else (v % 2 ^ 64).toNat

/-- `atol`, taken as an `unsigned long`. -/
def atolUnsigned (s : Text) : Nat :=
  let start := s.dropWhile isSpace
  let n : Int := digitsIn 10 ((afterSign start).takeWhile isDigit)
  let v := if start.head? = some (byte '-') then -n else n
  (max (-(2 ^ 63)) (min v (2 ^ 63 - 1)) % 2 ^ 64).toNat

/-- What a request asks for of an entry. -/
inductive GetItem where
  | index (n : Nat)
  | all
  | schema (item : Text)

def getItem (args : Words) : GetItem :=
  if 0 < getUnsignedLong args 2 then .index (getUnsignedLong args 2)
  else match argString args 2 with
    | none => .all
    | some skey => if skey = [byte '0'] then .all else .schema skey

namespace DbaseStore

variable (s : DbaseStore)

/-- The value at an index as the last of a reply; the vector is read before its start for index zero. -/
def addIndexed (prx : Parse) (db : Dbase) (indx : Nat) : Option (Option Parse) :=
  if db.dValues.id ∈ s.freed then none
  else if db.dValues.objs.length < indx then some none
  else if indx = 0 then none
  else (addBuffer prx false true (db.dValues.objs[indx - 1]?.getD [])).map some

/-- All the values, the final one as the last of a reply. -/
def addValues : Parse → List Text → Option Parse
  | prx, [] => some prx
  | prx, rtn :: rest => (addBuffer prx false (rest = []) rtn).bind fun prx => addValues prx rest

/-- The text of a dictionary for an item. -/
def schemaText (db : Dbase) (skey : Text) : Option Text :=
  (db.dSchema.bind fun name => KeyedList.find strcmp name s.dicts).bind fun dt => KeyedList.find strcmp skey dt

/-- `get_dbase_katcp`; the outer `none` is a crash. -/
def getDbase (args : Words) : Option (Option Parse) :=
  match (argString args 1).bind s.searchDbase with
  | none => some none
  | some db => do
    let prx ← addBuffer createParse true false (textOf "!get")
    let prx ← addBuffer prx false false (textOf "ok")
    match getItem args with
    | .index n => s.addIndexed prx db n
    | .all => if db.dValues.id ∈ s.freed then none else (addValues prx db.dValues.objs).map some
    | .schema skey =>
      match s.schemaText db skey with
      | none => some none
      | some rtn => s.addIndexed prx db (atolUnsigned rtn)

end DbaseStore

/-- A request, or a change of the dictionaries with the strings that it keeps. -/
inductive DbaseRequest where
  | set (f : SetSteps) (args : Words)
  | get (args : Words)
  | dicts (dicts : KeyedList Text (KeyedList Text Text)) (texts : List Text)

inductive DbaseAnswer where
  | ok
  | fail
  | own (words : List Text)
  deriving DecidableEq, Repr

namespace DbaseStore

def keepStrings (s : DbaseStore) (texts : List Text) : DbaseStore :=
  { s with strings := texts.foldl (fun tree t => (searchType t (some t) true tree).2) s.strings }

/-- The end of `get_dbase_cmd_katcp`; `append_parse_katcp` aborts for a message that is not finished. -/
def getAnswer : Option Parse → Option DbaseAnswer
  | none => some .fail
  | some prx => if prx.pState = .done then some (.own (prx.args.map Arg.text)) else none

def getCmd (s : DbaseStore) (args : Words) : Option DbaseAnswer :=
  if args.length < 2 then some .fail else (s.getDbase args).bind getAnswer

def setCmd (s : DbaseStore) (f : SetSteps) (args : Words) : Option (DbaseAnswer × DbaseStore) :=
  if args.length < 3 then some (.fail, s)
  else (s.setDbase f args).map fun (ok, s) => (if ok then .ok else .fail, s)

/-- The server has crashed where there is no answer. -/
def serve (s : DbaseStore) : DbaseRequest → Option (DbaseAnswer × DbaseStore)
  | .set f args => s.setCmd f args
  | .get args => (s.getCmd args).map fun answer => (answer, s)
  | .dicts dicts texts => some (.ok, { s.keepStrings texts with dicts := dicts })

def start (types : List Text) : DbaseStore := ⟨types, [], [], [], [], 0, []⟩

end DbaseStore

/-- What is said of a run is each request with its answer. -/
def dbaseAct (s : DbaseStore) (r : DbaseRequest) : Option (DbaseStore × List (DbaseRequest × DbaseAnswer)) :=
  (s.serve r).map fun (answer, s) => (s, [(r, answer)])

def dbaseMachine (types : List Text) : Machine DbaseStore DbaseRequest (DbaseRequest × DbaseAnswer) where
  start := .start types
  step s r := (dbaseAct s r).map Prod.fst
  emits s r := ((dbaseAct s r).map Prod.snd).getD []

/-- The values of an entry and the name of its schema. -/
structure DbaseValue where
  values : List Text
  schema : Option Text
  deriving DecidableEq, Repr

/-- What a request is to store, each value and tag with the index of its argument. -/
structure SetPlan where
  values : List (Text × Nat)
  schema : Option Text
  tags : List (Text × Nat)
  deriving DecidableEq, Repr

namespace SetPlan

def value (p : SetPlan) : DbaseValue := ⟨p.values.map Prod.fst, p.schema⟩

/-- Behind the schema: the values up to the word `tags`, and what comes after it. -/
def rest (args : List (Text × Nat)) : SetPlan where
  values := args.takeWhile fun a => cString a.1 ≠ tagIdent
  schema := none
  tags := (args.dropWhile fun a => cString a.1 ≠ tagIdent).tail

/-- In front of the schema. -/
def ahead (args : List (Text × Nat)) : List (Text × Nat) :=
  args.takeWhile fun a => cString a.1 ≠ schemaIdent ∧ cString a.1 ≠ tagIdent

/-- What a request stores: values, the schema behind the word for it if that comes before the tags, more values, and
the tags. -/
def ofArgs (args : List (Text × Nat)) : SetPlan :=
  match args.drop (ahead args).length with
  | word :: name :: more =>
    if cString word.1 = schemaIdent then
      { rest more with values := ahead args ++ (rest more).values, schema := stringOf name.1 }
    else ⟨ahead args, none, name :: more⟩
  | _ => ⟨ahead args, none, []⟩

end SetPlan

def setPlan (args : Words) : SetPlan := .ofArgs ((args.drop 2).zipIdx 2)

/-- What was last stored under a key, of a run in which requests have been answered so. -/
def lastSet : List (DbaseRequest × DbaseAnswer) → Text → Option DbaseValue
  | [], _ => none
  | (.set _ args, .ok) :: log, key =>
    (lastSet log key).or (if argString args 1 = some key then some (setPlan args).value else none)
  | _ :: log, key => lastSet log key

/-- The answer with one value of an entry, by its index from one. -/
def DbaseValue.answer (v : DbaseValue) (n : Nat) : DbaseAnswer :=
  if n = 0 then .fail else v.values[n - 1]?.elim .fail fun t => .own [textOf "!get", textOf "ok", t]

/-- What a request is to be answered of what is stored. -/
def answerOf (stored : Text → Option DbaseValue) (dicts : KeyedList Text (KeyedList Text Text)) (args : Words) :
    DbaseAnswer :=
  match (argString args 1).bind stored with
  | none => .fail
  | some v => match getItem args with
    | .index n => v.answer n
    | .all => .own (textOf "!get" :: textOf "ok" :: v.values)
    | .schema skey =>
      match (v.schema.bind fun name => KeyedList.find strcmp name dicts).bind fun dt =>
          KeyedList.find strcmp skey dt with
      | none => .fail
      | some rtn => v.answer (atolUnsigned rtn)

/-- Each value is a text of its own that the strings come to hold; those behind a stack that could not be pushed to
do not matter. -/
def ValuesKept (f : SetSteps) : (Text → Prop) → List (Text × Nat) → Prop
  | _, [] => True
  | known, (t, i) :: rest =>
    t ≠ [] ∧ 0 ∉ t ∧ (known t ∨ f.copy i = true ∧ f.store i = true) ∧
      (f.stack = true ∧ f.object i = true ∧ f.grow i = true → ValuesKept f (fun u => known u ∨ u = t) rest)

def DbaseStore.Known (s : DbaseStore) (t : Text) : Prop := (KeyedList.find strcmp t s.strings).isSome

/-- The steps that `set_dbase_katcp` does not check succeed, and only the name of the schema may be empty. -/
structure SetKept (s : DbaseStore) (f : SetSteps) (args : Words) : Prop where
  values : ValuesKept f s.Known (setPlan args).values
  tags : ∀ a ∈ (setPlan args).tags, a.1 ≠ []
  schema : (setPlan args).schema.isSome → f.schema = true
  fresh : (argString args 1).bind s.searchDbase = none → f.record = true ∧ f.key = true
  shrink : ∀ n, n + 1 < (setPlan args).tags.length → f.shrink n = true

/-- Not all the values of an entry that has none, nor the one at an index that a dictionary has no number for. -/
structure GetKept (s : DbaseStore) (args : Words) : Prop where
  all : ∀ db, (argString args 1).bind s.find = some db → getItem args = .all → db.dValues.objs ≠ []
  schema : ∀ db skey rtn, (argString args 1).bind s.find = some db → getItem args = .schema skey →
    s.schemaText db skey = some rtn → atolUnsigned rtn ≠ 0

def DbaseRequest.Kept (s : DbaseStore) : DbaseRequest → Prop
  | .set f args => 3 ≤ args.length → SetKept s f args
  | .get args => GetKept s args
  | .dicts _ _ => True

/-- Every stack that has been created has been destroyed once, or not, and then it is that of one entry. -/
def DbaseStore.DestroyedOnce (s : DbaseStore) : Prop :=
  ∀ id, id < s.made →
    (s.freed.count id = 1 ∧ ∀ key db, s.find key = some db → db.dValues.id ≠ id) ∨
    (s.freed.count id = 0 ∧ ∃! key, ∃ db, s.find key = some db ∧ db.dValues.id = id)

end Katcp
