import Katcp.Machine
import Katcp.Kurl
import Katcp.NoticeKept
import Katcp.DuplexData

namespace Katcp

abbrev StateId := Nat

abbrev TaskId := Nat

def edgeOkay : Int := 0

def edgeWait : Int := 1

/-- An operation of a node; a trigger only marks where an edge is to be tried. -/
inductive SmOp where
  | trigger
  | call (o_call : Nat)
  deriving DecidableEq, Repr

structure SmEdge where
  eNext : StateId
  eCall : Option Nat
  deriving DecidableEq, Repr

structure SmState where
  sName : Text
  sEdgeList : List SmEdge
  sOpList : List SmOp
  deriving DecidableEq, Repr

inductive TaskState where
  | cleanUp | followEdges | runOps | edgeWait
  deriving DecidableEq, Repr

structure SchedTask where
  tFlags : Nat
  tState : TaskState
  tEdgeI : Nat
  tOpI : Nat
  tPc : StateId
  tRtn : Int
  deriving DecidableEq, Repr

def processMaster : Nat := 1

def processSlave : Nat := 2

def createSchedTask (s : StateId) (flags : Nat) : SchedTask := ⟨flags, .runOps, 0, 0, s, 0⟩

/-- One entry of a node's list of operations, as a task meets it. -/
inductive SmStep where
  | op (i call : Nat)
  | edge (i : Nat) (next : StateId) (call : Option Nat)
  deriving DecidableEq, Repr

/-- What a task does; `told` is the message that ends a wait. -/
inductive Did where
  | step (x : SmStep) (rtn : Int)
  | told (p : Option Words)
  | moved (next : StateId)
  deriving DecidableEq, Repr

/-- What the code behind the operations and edges does in one call of a task: the operations' results, the
edge's, and whether the edge woke the task; `message` is what the notice carries. -/
structure SmAnswers where
  ops : Nat → Int
  rtn : Int
  wakes : Bool
  message : Option Words

/-- The operations from one position on, up to a trigger: the position then, and an error. -/
def runOps (ans : Nat → Int) : Nat → List SmOp → Nat × List Did × Option Int
  | i, [] => (i, [], none)
  | i, .trigger :: _ => (i + 1, [], none)
  | i, .call o_call :: rest =>
    if ans i < 0 then (i, [.step (.op i o_call) (ans i)], some (ans i))
    else
      let r := runOps ans (i + 1) rest
      (r.1, .step (.op i o_call) (ans i) :: r.2.1, r.2.2)

namespace SchedTask

/-- A failure: the result is kept and the task is woken to be cleaned up. -/
def failed (t : SchedTask) (rtn : Int) : SchedTask := { t with tRtn := rtn, tState := .cleanUp }

def goto (t : SchedTask) (next : StateId) : SchedTask :=
  { t with tPc := next, tEdgeI := 0, tOpI := 0, tState := .runOps }

def runOpsKcs (t : SchedTask) (s : SmState) (a : SmAnswers) : SchedTask × List Did × Bool :=
  let r := runOps a.ops t.tOpI (s.sOpList.drop t.tOpI)
  match r.2.2 with
  | some rtn => ({ t with tOpI := r.1 }.failed rtn, r.2.1, true)
  | none => ({ t with tOpI := r.1, tState := .followEdges }, r.2.1, true)

/-- The edge the task is at; there is no result where it is beyond the list. -/
def followEdges (t : SchedTask) (s : SmState) (a : SmAnswers) : Option (SchedTask × List Did × Bool) :=
  if s.sEdgeList = [] then some ({ t with tState := .cleanUp }, [], true)
  else (s.sEdgeList[t.tEdgeI]?).map fun e =>
    let rtn := if e.eCall = none then edgeOkay else a.rtn
    let wakes := e.eCall = none ∨ a.wakes = true
    let tried : Did := .step (.edge t.tEdgeI e.eNext e.eCall) rtn
    if rtn = edgeOkay then (t.goto e.eNext, [tried, .moved e.eNext], decide wakes)
    else if rtn = edgeWait then ({ t with tState := .edgeWait }, [tried], decide wakes)
    else if t.tEdgeI + 1 < s.sEdgeList.length then
      ({ t with tEdgeI := t.tEdgeI + 1, tState := .runOps }, [tried], true)
    else ({ t with tState := .cleanUp }, [tried], true)

/-- Whether a message ends a wait well. -/
def saysOk (p : Words) : Bool := p[1]? = some (textOf "ok")

def waited (t : SchedTask) (s : SmState) (a : SmAnswers) : Option (SchedTask × List Did × Bool) :=
  match a.message with
  | none => some (t.failed (-1), [.told none], true)
  | some p =>
    if saysOk p then (s.sEdgeList[t.tEdgeI]?).map fun e => (t.goto e.eNext, [.told (some p), .moved e.eNext], true)
    else if t.tEdgeI + 1 < s.sEdgeList.length then
      some ({ t with tEdgeI := t.tEdgeI + 1, tState := .runOps }, [.told (some p)], true)
    else some ({ t with tState := .runOps }, [.told (some p)], true)

/-- A call of a task that is not to be cleaned up. -/
def process (t : SchedTask) (s : SmState) (a : SmAnswers) : Option (SchedTask × List Did × Bool) :=
  match t.tState with
  | .runOps => some (t.runOpsKcs s a)
  | .followEdges => t.followEdges s a
  | .edgeWait => t.waited s a
  | .cleanUp => none

/-- The reply of a task that ends. -/
def ending (t : SchedTask) (name : Text) : Words :=
  if t.tRtn < 0 then [textOf "fail", name, decimalText t.tRtn] else [textOf "ok"]

end SchedTask

/-- A task with its notice: the name, the client that is called back, and whether a call is due. -/
structure TaskEntry where
  task : SchedTask
  name : Text
  client : ClientId
  due : Bool
  deriving DecidableEq, Repr

/-- The nodes and the tasks. A flush frees the nodes with the tree they are looked up in. -/
structure StateMachines where
  states : List SmState
  freed : Bool
  tasks : TaskId → Option TaskEntry
  fresh : TaskId
  crashed : Bool

inductive SmEvent where
  | result (r : KatcpResult)
  | started (t : TaskId) (client : ClientId) (name : Text) (flags : Nat) (node : StateId)
  | did (t : TaskId) (d : Did)
  | stopped (t : TaskId) (client : ClientId)
  | ended (t : TaskId) (reply : Option (ClientId × Words))
  | lost (t : TaskId)
  deriving DecidableEq, Repr

/-- `setup` is what the operation or edge of that name makes of the request; there may be no such edge. -/
inductive SmAction where
  | node (name : Option Text)
  | op (state : Text) (setup : Option Nat)
  | edge (current next : Text) (setup : Option (Option Nat))
  | run (client : ClientId) (node : Option Text) (name : Text)
  | spawn (client : ClientId) (node name : Text)
  | wake (t : TaskId)
  | process (t : TaskId) (a : SmAnswers)
  | stopall (client : ClientId) (found : List TaskId)
  | flush
  | hangup (client : ClientId)

namespace StateMachines

def initial : StateMachines := ⟨[], false, fun _ => none, 0, false⟩

def node (s : StateMachines) (i : StateId) : Option SmState := if s.freed then none else s.states[i]?

def isNamed (name : Text) (st : SmState) : Bool := st.sName = name

def findNode (s : StateMachines) (name : Text) : Option StateId := s.states.findIdx? (isNamed name)

def setNode (s : StateMachines) (i : StateId) (st : SmState) : StateMachines :=
  { s with states := s.states.set i st }

def putTask (s : StateMachines) (t : TaskId) (e : Option TaskEntry) : StateMachines :=
  { s with tasks := Function.update s.tasks t e }

def said (code : ResultCode) : SmEvent := .result (.done code)

/-- A second node of a name is refused by the store. -/
def createNamedNode (s : StateMachines) (name : Option Text) : StateMachines × List SmEvent :=
  match name with
  | none => (s, [said .fail])
  | some name =>
    if (s.findNode name).isSome then (s, [said .fail])
    else ({ s with states := s.states ++ [⟨name, [], []⟩] }, [said .ok])

def createNamedOp (s : StateMachines) (state : Text) (setup : Option Nat) : StateMachines × List SmEvent :=
  match s.findNode state, setup with
  | some i, some o_call =>
    match s.states[i]? with
    | none => (s, [said .fail])
    | some st => (s.setNode i { st with sOpList := st.sOpList ++ [.call o_call] }, [said .ok])
  | _, _ => (s, [said .fail])

def createNamedEdge (s : StateMachines) (current next : Text) (setup : Option (Option Nat)) :
    StateMachines × List SmEvent :=
  match s.findNode current, s.findNode next, setup with
  | some i, some j, some e_call =>
    match s.states[i]? with
    | none => (s, [said .fail])
    | some st =>
      (s.setNode i ⟨st.sName, st.sEdgeList ++ [⟨j, e_call⟩], st.sOpList ++ [.trigger]⟩, [said .ok])
  | _, _, _ => (s, [said .fail])

/-- A task at a node, under a notice of its own. -/
def startProcess (s : StateMachines) (client : ClientId) (node name : Text) (flags : Nat) :
    Option (StateMachines × List SmEvent) :=
  (s.findNode node).map fun i =>
    ({ s.putTask s.fresh (some ⟨createSchedTask i flags, name, client, true⟩) with fresh := s.fresh + 1 },
      [.started s.fresh client name flags i])

def runCmd (s : StateMachines) (client : ClientId) (node : Option Text) (name : Text) :
    StateMachines × List SmEvent :=
  match node.bind fun node => s.startProcess client node name processMaster with
  | none => (s, [said .fail])
  | some (s', out) => (s', out ++ [.result .own])

/-- The last call of a task, under a client. -/
def cleanUp (s : StateMachines) (t : TaskId) (e : TaskEntry) (client : ClientId) : StateMachines × List SmEvent :=
  (s.putTask t none,
    [.ended t (if e.task.tFlags &&& processMaster ≠ 0 then some (client, e.task.ending e.name) else none)])

def processTask (s : StateMachines) (t : TaskId) (e : TaskEntry) (a : SmAnswers) : StateMachines × List SmEvent :=
  if e.task.tState = .cleanUp then s.cleanUp t e e.client
  else
    match (s.node e.task.tPc).bind fun st => e.task.process st a with
    | none => ({ s with crashed := true }, [])
    | some (task, out, due) => (s.putTask t (some { e with task := task, due := due }), out.map (.did t))

def stopTask (s : StateMachines) (client : ClientId) (t : TaskId) : StateMachines × List SmEvent :=
  match s.tasks t with
  | none => (s, [])
  | some e =>
    let r := s.cleanUp t e client
    (r.1, .stopped t client :: r.2)

def stopTasks (s : StateMachines) (client : ClientId) : List TaskId → StateMachines × List SmEvent
  | [] => (s, [])
  | t :: rest =>
    let r := s.stopTask client t
    let more := r.1.stopTasks client rest
    (more.1, r.2 ++ more.2)

/-- The tasks are those whose notices were found. -/
def Finds (s : StateMachines) (found : List TaskId) : Prop :=
  found.Nodup ∧ (∀ t ∈ found, (s.tasks t).isSome = true) ∧ ∀ t < s.fresh, (s.tasks t).isSome = true → t ∈ found

instance (s : StateMachines) (found : List TaskId) : Decidable (s.Finds found) := by
  unfold Finds
  infer_instance

def stopall (s : StateMachines) (client : ClientId) (found : List TaskId) : Option (StateMachines × List SmEvent) :=
  if s.Finds found then
    if found = [] then some (s, [said .fail])
    else
      let r := s.stopTasks client found
      some (r.1, r.2 ++ [said .ok])
  else none

/-- Before the first node there is no such type. -/
def flush (s : StateMachines) : StateMachines × List SmEvent :=
  if s.states = [] then (s, [said .fail])
  else ({ s with freed := true }, [said .ok])

def isOf (client : ClientId) (e : Option TaskEntry) : Bool := e.any fun e => e.client = client

def dropTasks (s : StateMachines) (client : ClientId) : List TaskId → StateMachines × List SmEvent
  | [] => (s, [])
  | t :: rest =>
    if isOf client (s.tasks t) then
      let more := (s.putTask t none).dropTasks client rest
      (more.1, .lost t :: more.2)
    else s.dropTasks client rest

/-- The callbacks of a client that goes are dropped, and its tasks with them. -/
def hangup (s : StateMachines) (client : ClientId) : StateMachines × List SmEvent :=
  s.dropTasks client (List.range s.fresh)

/-- Whether an action searches the tree of nodes. -/
def searches : SmAction → Bool
  | .node name => name.isSome
  | .run _ node _ => node.isSome
  | .op .. | .edge .. | .spawn .. | .flush => true
  | _ => false

def act (s : StateMachines) (a : SmAction) : Option (StateMachines × List SmEvent) :=
  if s.crashed then none
  else if s.freed && searches a then some ({ s with crashed := true }, [])
  else
    match a with
    | .node name => some (s.createNamedNode name)
    | .op state setup => some (s.createNamedOp state setup)
    | .edge current next setup => some (s.createNamedEdge current next setup)
    | .run client node name => some (s.runCmd client node name)
    | .spawn client node name => s.startProcess client node name processSlave
    | .wake t => (s.tasks t).map fun e => (s.putTask t (some { e with due := true }), [])
    | .process t a => (s.tasks t).bind fun e => if e.due then some (s.processTask t e a) else none
    | .stopall client found => s.stopall client found
    | .flush => some s.flush
    | .hangup client => some (s.hangup client)

end StateMachines

def smMachine : Machine StateMachines SmAction SmEvent where
  start := .initial
  step s a := (s.act a).map Prod.fst
  emits s a := ((s.act a).map Prod.snd).getD []

end Katcp
