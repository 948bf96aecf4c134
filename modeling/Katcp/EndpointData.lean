import Katcp.DuplexData
import Katcp.GueueRun
import Katcp.Machine
import Mathlib.Logic.Function.Basic

namespace Katcp

open Function

/-- Endpoints and messages are told from others of their kind by their addresses. -/
abbrev EpId := Nat

abbrev MsgId := Nat

/-- `katcp_message` as it is allocated. -/
structure EpMessage where
  mAddress : MsgId
  mWack : Bool
  mParse : Words
  mFrom : Option EpId
  mTo : EpId
  deriving DecidableEq

def endpointPrecedenceLow : Nat := 0

def endpointPrecedenceHigh : Nat := 0

def computePrecedenceEndpoint (msg : EpMessage) : Nat :=
  if isRequest msg.mParse then endpointPrecedenceLow else endpointPrecedenceHigh

/-- What messages do not change in a `katcp_endpoint`; the first three are its state. -/
structure Station where
  eUp : Bool
  eRx : Bool
  eTx : Bool
  eWake : Bool
  eFastFlush : Bool
  eNext : Option EpId

/-- `ENDPOINT_STATE_GONE` -/
def Station.gone (e : Station) : Bool := !e.eUp && !e.eRx && !e.eTx

/-- `katcp_endpoint` -/
structure Endpoint extends Station where
  eRefcount : Nat
  eQueue : Gueue EpMessage
  ePrecedence : Nat

/-- Where `run_endpoints_katcp` is: on its way to the endpoint `ep` behind the kept one `ex`, at its
queue, in its wake function, or done with its messages. -/
inductive Walk where
  | idle
  | visit (ex ep : Option EpId)
  | poll (ex : Option EpId) (ep : EpId)
  | waking (ex : Option EpId) (ep : EpId) (msg : EpMessage)
  | settle (ex : Option EpId) (ep : EpId)

/-- The endpoints of a `katcp_shared`, the memory they and the messages take, and how many
references to each endpoint others hold. -/
structure Endpoints where
  sEndpoints : Option EpId
  store : EpId → Option Endpoint
  heap : List MsgId
  held : EpId → Nat
  walk : Walk

def noEndpoints : Endpoints := ⟨none, fun _ => none, [], fun _ => 0, .idle⟩

/-- What happens to messages: one is queued as it is sent, one is given to a wake function, which
returns, one is taken out as its endpoint is released, one is queued as the reply to another. -/
inductive EndpointEvent where
  | queued (msg : EpMessage)
  | woken (ep : EpId) (msg : EpMessage)
  | returned (ep : EpId) (msg : EpMessage) (result : KatcpResult)
  | flushed (ep : EpId) (msg : EpMessage)
  | replied (msg reply : EpMessage)

namespace Endpoints

def put (s : Endpoints) (ep : EpId) (e : Option Endpoint) : Endpoints := { s with store := update s.store ep e }

def onEndpoint (s : Endpoints) (ep : EpId) (f : Endpoint → Endpoint) : Option Endpoints :=
  (s.store ep).map fun e => s.put ep (some (f e))

def referenceEndpoint (s : Endpoints) (ep : EpId) : Option Endpoints :=
  s.onEndpoint ep fun e => { e with eRefcount := e.eRefcount + 1 }

/-- `forget_endpoint_katcp`, which aborts where there is no reference. -/
def forgetEndpoint (s : Endpoints) (ep : EpId) : Option Endpoints :=
  (s.store ep).bind fun e =>
    if e.eRefcount > 0 then some (s.put ep (some { e with eRefcount := e.eRefcount - 1 })) else none

/-- A message need not have a sender. -/
def referenceSender (s : Endpoints) : Option EpId → Option Endpoints
  | some f => s.referenceEndpoint f
  | none => some s

def forgetSender (s : Endpoints) : Option EpId → Option Endpoints
  | some f => s.forgetEndpoint f
  | none => some s

def precedenceEndpoint (s : Endpoints) (ep : EpId) (precedence : Nat) : Option Endpoints :=
  s.onEndpoint ep fun e => { e with ePrecedence := precedence }

/-- `create_endpoint_katcp`, given memory that no endpoint lives in. -/
def createEndpoint (s : Endpoints) (wake fast : Bool) (ep : EpId) : Option Endpoints :=
  if (s.store ep).isSome then none
  else some { s.put ep (some {
      eUp := true
      eRx := wake
      eTx := true
      eWake := wake
      eFastFlush := fast
      eNext := s.sEndpoints
      eRefcount := 0
      eQueue := createPrecedenceGueue false (some computePrecedenceEndpoint)
      ePrecedence := endpointPrecedenceLow }) with sEndpoints := some ep }

/-- `create_message_katcp`, given memory that no message lives in. -/
def createMessage (s : Endpoints) (source : Option EpId) (target : EpId) (px : Words) (ack : Bool)
    (address : MsgId) : Option (EpMessage × Endpoints) :=
  if address ∈ s.heap then none
  else if ack ∧ source = none then none
  else
    (s.referenceSender source).bind fun s => (s.referenceEndpoint target).map fun s =>
      (⟨address, ack, px, source, target⟩, { s with heap := address :: s.heap })

def destroyMessage (s : Endpoints) (msg : EpMessage) : Option Endpoints :=
  if msg.mAddress ∈ s.heap then
    (s.forgetSender msg.mFrom).bind fun s => (s.forgetEndpoint msg.mTo).map fun s =>
      { s with heap := s.heap.erase msg.mAddress }
  else none

def queueMessage (s : Endpoints) (msg : EpMessage) : Option (Int × Endpoints) :=
  (s.store msg.mTo).bind fun e =>
    if e.eRx then
      (addTailGueue e.eQueue (some msg)).map fun (r, g) =>
        if r ≠ 0 then (-1, s) else (0, s.put msg.mTo (some { e with eQueue := g }))
    else some (-1, s)

/-- `send_message_endpoint_katcp`; no result is an abort, or a reply without a sender. -/
def sendMessage (s : Endpoints) (source : Option EpId) (target : EpId) (px : Words) (ack : Bool)
    (address : MsgId) : Option (Int × Endpoints × List EndpointEvent) :=
  if source = some target then none
  else if ¬ source.all fun f => (s.store f).any fun e => e.eTx then none
  else
    (s.createMessage source target px ack address).bind fun (msg, s) =>
    (s.queueMessage msg).bind fun (r, s) =>
      if r < 0 then (s.destroyMessage msg).map fun s => (-1, s, [])
      else if isReply px then
        source.bind fun f => (s.precedenceEndpoint f endpointPrecedenceLow).map fun s => (0, s, [.queued msg])
      else some (0, s, [.queued msg])

/-- `turnaround_endpoint_katcp`, on a message that is in no queue. -/
def turnaroundEndpoint (s : Endpoints) (ep : EpId) (msg : EpMessage) (code : ResultCode) (extra : Option Text) :
    Option (Endpoints × List EndpointEvent) :=
  if ep ≠ msg.mTo then none
  else if msg.mWack then
    msg.mFrom.bind fun source =>
      if isRequest msg.mParse then
        let reply := { msg with
          mWack := false
          mParse := turnaroundExtra msg.mParse code extra
          mFrom := some msg.mTo
          mTo := source }
        (s.queueMessage reply).bind fun (r, s) =>
          if r < 0 then (s.destroyMessage reply).map fun s => (s, [])
          else some (s, [.replied msg reply])
      else none
  else (s.destroyMessage msg).map fun s => (s, [])

/-- A message that is in no queue any more: a request is answered. -/
def closeMessage (s : Endpoints) (ep : EpId) (msg : EpMessage) (code : ResultCode) (extra : Option Text) :
    Option (Endpoints × List EndpointEvent) :=
  if isRequest msg.mParse then s.turnaroundEndpoint ep msg code extra
  else (s.destroyMessage msg).map fun s => (s, [])

def closeReceiving (s : Endpoints) (ep : EpId) : Option Endpoints :=
  (s.store ep).bind fun e => if e.eUp then some (s.put ep (some { e with eRx := false })) else none

def closeSending (s : Endpoints) (ep : EpId) : Option Endpoints :=
  (s.store ep).bind fun e => if e.eUp then some (s.put ep (some { e with eTx := false })) else none

/-- The loop of `flush_endpoint_katcp`, which comes to its end in `n` turns. -/
def flushEndpoint : Nat → Endpoints → EpId → Option (Endpoints × List EndpointEvent)
  | 0, _, _ => none
  | n + 1, s, ep =>
    (s.store ep).bind fun e => (removeHeadGueue e.eQueue).bind fun
      | (none, g) => some (s.put ep (some { e with eQueue := g }), [])
      | (some msg, g) =>
        ((s.put ep (some { e with eQueue := g })).closeMessage ep msg .fail
          (some (textOf "handler detached"))).bind fun (s, out) =>
        (flushEndpoint n s ep).map fun (s, more) => (s, .flushed ep msg :: out ++ more)

/-- `release_endpoint_katcp`, which aborts where it has been called before. -/
def releaseEndpoint (s : Endpoints) (ep : EpId) : Option (Endpoints × List EndpointEvent) :=
  (s.store ep).bind fun e =>
    if e.eUp then
      (flushEndpoint (e.eQueue.gCount + 1) (s.put ep (some { e with eWake := false })) ep).bind fun (s, out) =>
      (s.onEndpoint ep fun e => { e with eUp := false, eRx := false, eTx := false }).map fun s => (s, out)
    else none

/-- A message leaves the queue, where it has to be. -/
def takeMessage (s : Endpoints) (ep : EpId) (msg : EpMessage) : Option Endpoints :=
  (s.store ep).bind fun e => (removeDatumGueue e.eQueue (some msg)).bind fun (d, g) =>
    if d = none then none else some (s.put ep (some { e with eQueue := g }))

/-- What `run_endpoints_katcp` does with a result, and whether it may go on with this endpoint. -/
def finishMessage (s : Endpoints) (ep : EpId) (msg : EpMessage) :
    KatcpResult → Option (Bool × Endpoints × List EndpointEvent)
  | .own => (s.takeMessage ep msg).bind fun s => (s.destroyMessage msg).bind fun s =>
      (s.precedenceEndpoint ep endpointPrecedenceHigh).map fun s => (true, s, [])
  | .pause => (s.precedenceEndpoint ep endpointPrecedenceHigh).map fun s => (false, s, [])
  | .done code => (s.takeMessage ep msg).bind fun s =>
      (s.closeMessage ep msg code none).map fun (s, out) => (true, s, out)
  | .yield => some (false, s, [])

def finishTurn (s : Endpoints) (ex : Option EpId) (ep : EpId) (msg : EpMessage) (result : KatcpResult) :
    Option (Endpoints × List EndpointEvent) :=
  (s.finishMessage ep msg result).bind fun (more, s, out) => (s.store ep).map fun e =>
    ({ s with walk := if e.eFastFlush && more then .poll ex ep else .settle ex ep },
      .returned ep msg result :: out)

/-- The next message of an endpoint, which is handed to its wake function. -/
def pollEndpoint (s : Endpoints) (ex : Option EpId) (ep : EpId) : Option (Endpoints × List EndpointEvent) :=
  (s.store ep).bind fun e => (getPrecedenceHeadGueue e.eQueue e.ePrecedence).bind fun
    | none => some ({ s with walk := .settle ex ep }, [])
    | some msg =>
      if msg.mTo ≠ ep then none
      else if e.eWake then some ({ s with walk := .waking ex ep msg }, [.woken ep msg])
      else s.finishTurn ex ep msg (.done .fail)

/-- What led to an endpoint leads to the one behind it. -/
def unlinkEndpoint (s : Endpoints) (ex en : Option EpId) : Option Endpoints :=
  match ex with
  | some x => s.onEndpoint x fun e => { e with eNext := en }
  | none => some { s with sEndpoints := en }

/-- The end of a turn: an endpoint that is gone and not referred to is unlinked and freed. -/
def settleEndpoint (s : Endpoints) (ex : Option EpId) (ep : EpId) : Option Endpoints :=
  (s.store ep).bind fun e =>
    if e.gone ∧ e.eRefcount = 0 then
      (s.unlinkEndpoint ex e.eNext).bind fun s =>
      if e.eQueue.gCount > 0 then none
      else some { s.put ep none with walk := .visit ex e.eNext }
    else some { s with walk := .visit (some ep) e.eNext }

/-- The part of `run_endpoints_katcp` up to the next call of a wake function. -/
def advance (s : Endpoints) : Option (Endpoints × List EndpointEvent) :=
  match s.walk with
  | .idle => some ({ s with walk := .visit none s.sEndpoints }, [])
  | .visit _ none => some ({ s with walk := .idle }, [])
  | .visit ex (some ep) => (s.store ep).map fun e =>
      ({ s with walk := if e.eUp then .poll ex ep else .settle ex ep }, [])
  | .poll ex ep => s.pollEndpoint ex ep
  | .settle ex ep => (s.settleEndpoint ex ep).map fun s => (s, [])
  | .waking _ _ _ => none

def wakeReturns (s : Endpoints) (result : KatcpResult) : Option (Endpoints × List EndpointEvent) :=
  match s.walk with
  | .waking ex ep msg => s.finishTurn ex ep msg result
  | _ => none

end Endpoints

/-- What others than `run_endpoints_katcp` call. -/
inductive EndpointCall where
  | create (wake fast : Bool) (ep : EpId)
  | send (source : Option EpId) (target : EpId) (px : Words) (ack : Bool) (address : MsgId)
  | reference (ep : EpId)
  | forget (ep : EpId)
  | closeReceiving (ep : EpId)
  | closeSending (ep : EpId)
  | release (ep : EpId)

inductive EndpointAction where
  | call (c : EndpointCall)
  | advance
  | wakeReturns (result : KatcpResult)

/-- A reference is given back by someone who holds it. -/
def Endpoints.serve (s : Endpoints) : EndpointCall → Option (Endpoints × List EndpointEvent)
  | .create wake fast ep => (s.createEndpoint wake fast ep).map fun s => (s, [])
  | .send source target px ack address => (s.sendMessage source target px ack address).map Prod.snd
  | .reference ep => (s.referenceEndpoint ep).map fun s => ({ s with held := update s.held ep (s.held ep + 1) }, [])
  | .forget ep =>
    if s.held ep > 0 then
      (s.forgetEndpoint ep).map fun s => ({ s with held := update s.held ep (s.held ep - 1) }, [])
    else none
  | .closeReceiving ep => (s.closeReceiving ep).map fun s => (s, [])
  | .closeSending ep => (s.closeSending ep).map fun s => (s, [])
  | .release ep => s.releaseEndpoint ep

/-- Others run while `run_endpoints_katcp` does not, and in the wake functions. -/
def Walk.lets : Walk → Bool
  | .idle => true
  | .waking _ _ _ => true
  | _ => false

def Endpoints.act (s : Endpoints) : EndpointAction → Option (Endpoints × List EndpointEvent)
  | .call c => if s.walk.lets then s.serve c else none
  | .advance => s.advance
  | .wakeReturns result => s.wakeReturns result

def endpointMachine : Machine Endpoints EndpointAction EndpointEvent where
  start := noEndpoints
  step s a := (s.act a).map Prod.fst
  emits s a := ((s.act a).map Prod.snd).getD []

end Katcp
