import Katcp.EndpointData
import Katcp.SampleCommand
import Mathlib.Data.Fin.Tuple.Basic

namespace Katcp

open Function

abbrev SlotId := Fin 4

/-- `katcp_response_handler`; callbacks are of type `κ`. -/
structure ReplySlot (κ : Type) where
  rFlags : Nat
  rMessage : Option Text
  rReply : Option κ
  rIssuer : Option EpId
  rRecipient : Option EpId
  rInitial : Option Words
  deriving DecidableEq

def ReplySlot.empty {κ : Type} : ReplySlot κ := ⟨0, none, none, none, none, none⟩

/-- Where `wake_endpoint_peer_flat_katcp` is: in the callback of a slot, or in the map of the flat. -/
inductive WakePhase where
  | idle
  | calling (slot : SlotId) (px : Words)
  | mapping
  deriving DecidableEq

/-- `katcp_flat` with the endpoints of its shared state. -/
structure ReplyFlat (κ : Type) where
  fState : FlatState
  fPeer : Option EpId
  fRemote : Option EpId
  fCurrentEndpoint : Option EpId
  fReplies : SlotId → ReplySlot κ
  phase : WakePhase
  endpoints : Endpoints

/-- What `callback_flat_katcp` is called with. -/
structure Registration (κ : Type) where
  issuer : Option EpId
  px : Option Words
  recipient : Option EpId
  call : κ
  string : Text
  flags : Nat
  deriving DecidableEq

/-- `KATCP_REPLY_HANDLE_REPLIES` -/
def handleReplies : Nat := 1

/-- `KATCP_REPLY_HANDLE_INFORMS` -/
def handleInforms : Nat := 2

namespace Registration

variable {κ : Type} (r : Registration κ)

def ptr : Text :=
  match r.string with
  | c :: rest => if c = byte '?' ∨ c = byte '!' ∨ c = byte '#' then rest else r.string
  | [] => []

def actual : Nat :=
  match r.string.head? with
  | some c =>
    if r.flags ≠ 0 then r.flags
    else if c = byte '?' then handleReplies ||| handleInforms
    else if c = byte '!' then handleReplies
    else if c = byte '#' then handleInforms
    else 0
  | none => r.flags

def slot : ReplySlot κ := ⟨r.actual, some r.ptr, some r.call, r.issuer, r.recipient, r.px⟩

end Registration

/-- What a handler holds a reference to. -/
inductive HandlerPart where
  | issuer (ep : EpId)
  | recipient (ep : EpId)
  | initial (px : Words)
  deriving DecidableEq

def ReplySlot.parts {κ : Type} (rh : ReplySlot κ) : List HandlerPart :=
  (rh.rIssuer.map .issuer).toList ++ (rh.rRecipient.map .recipient).toList ++ (rh.rInitial.map .initial).toList

inductive HandlerEvent (κ : Type) where
  | registered (slot : SlotId) (r : Registration κ)
  | invoked (slot : SlotId) (px : Words)
  | dropped (slot : SlotId) (part : HandlerPart)
  | retired (slot : SlotId)
  | endpoint (e : EndpointEvent)

namespace ReplyFlat

variable {κ : Type} (s : ReplyFlat κ)

def put (i : SlotId) (rh : ReplySlot κ) : ReplyFlat κ := { s with fReplies := update s.fReplies i rh }

def inFlight (issuer recipient : Option EpId) : Bool :=
  decide (∃ i, (s.fReplies i).rReply.isSome ∧ (s.fReplies i).rRecipient.isSome ∧
    (s.fReplies i).rRecipient = recipient ∧ (s.fReplies i).rIssuer = issuer)

/-- The loop goes on to the last of the free slots. -/
def freeSlot : Option SlotId := Fin.findRev? fun i => (s.fReplies i).rReply.isNone

/-- `callback_flat_katcp`; no result is an abort. -/
def callbackFlat (r : Registration κ) : Option (Int × ReplyFlat κ × List (HandlerEvent κ)) :=
  if r.issuer.isSome ∧ s.fPeer ≠ r.issuer ∧ s.fRemote ≠ r.issuer ∧ s.fCurrentEndpoint ≠ r.issuer then none
  else if s.inFlight r.issuer r.recipient then none
  else
    match s.freeSlot with
    | none => some (-1, s, [])
    | some i =>
      if (s.fReplies i).rInitial.isSome ∨ (s.fReplies i).rIssuer.isSome ∨ (s.fReplies i).rRecipient.isSome then none
      else if r.actual = 0 then some (-1, s.put i { s.fReplies i with rInitial := r.px }, [])
      else
        (s.endpoints.referenceSender r.issuer).bind fun e => (e.referenceSender r.recipient).map fun e =>
          (0, { s.put i r.slot with endpoints := e }, [.registered i r])

/-- A slot is given up, as in `process_outstanding_flat_katcp`. -/
def retire (i : SlotId) : Option (ReplyFlat κ × List (HandlerEvent κ)) :=
  let rh := s.fReplies i
  (s.endpoints.forgetSender rh.rIssuer).bind fun e => (e.forgetSender rh.rRecipient).map fun e =>
    ({ s.put i { rh with rReply := none, rIssuer := none, rRecipient := none, rInitial := none } with endpoints := e },
      rh.parts.map (.dropped i) ++ [.retired i])

/-- `process_outstanding_flat_katcp` behind the call; a result that is none of the codes is left out. -/
def processOutstanding (i : SlotId) (px : Words) (result : Option KatcpResult) (address : MsgId) :
    Option (ReplyFlat κ × List (HandlerEvent κ)) :=
  match result with
  | some (.done code) =>
    if isReply px then
      match (s.fReplies i).rInitial with
      | some initial =>
        if isRequest initial then
          (s.fReplies i).rIssuer.bind fun issuer =>
          (s.endpoints.sendMessage s.fPeer issuer (turnaroundExtra initial code none) false address).bind
            fun (_, e, out) =>
          (retire { s.put i { s.fReplies i with rInitial := none } with endpoints := e } i).map fun (s, more) =>
            (s, .dropped i (.initial initial) :: out.map .endpoint ++ more)
        else none
      | none => s.retire i
    else some (s, [])
  | some .own => if isReply px then s.retire i else some (s, [])
  | some .pause => some (s, [])
  | some .yield => some (s, [])
  | none => some (s, [])

/-- `find_handler_peer_flat_katcp` -/
def findHandlerPeer (source : Option EpId) (name : Text) : Option SlotId :=
  Fin.find? fun i => (s.fReplies i).rReply.isSome && (s.fReplies i).rRecipient = source &&
    (s.fReplies i).rMessage = some name

def operational : Bool := s.fState = .up || s.fState = .finishing || s.fState = .ending

/-- `wake_endpoint_peer_flat_katcp` up to the first call. -/
def wake (source : Option EpId) (px : Words) : Option (ReplyFlat κ × List (HandlerEvent κ)) :=
  if s.phase ≠ .idle then none
  else if ¬ s.operational ∨ argString px 0 = none then some (s, [])
  else if isRequest px then some ({ s with fCurrentEndpoint := source, phase := .mapping }, [])
  else if isReply px ∨ isInform px then
    match s.findHandlerPeer source (nameOf px) with
    | some i =>
      some ({ s with fCurrentEndpoint := (s.fReplies i).rIssuer, phase := .calling i px }, [.invoked i px])
    | none =>
      if isInform px then some ({ s with fCurrentEndpoint := source, phase := .mapping }, []) else some (s, [])
  else if source = s.fRemote then some (s, [])
  else none

def leave : ReplyFlat κ := { s with fCurrentEndpoint := none, phase := .idle }

/-- The callback returns; an inform is given to the map too. -/
def returns (result : Option KatcpResult) (address : MsgId) : Option (ReplyFlat κ × List (HandlerEvent κ)) :=
  match s.phase with
  | .calling i px => (s.processOutstanding i px result address).map fun (s, out) =>
      (if isReply px then s.leave else { s with phase := .mapping }, out)
  | _ => none

/-- A slot in the loop of `cancel_flat_katcp`. -/
def cancelSlot (i : SlotId) : Option (ReplyFlat κ × List (HandlerEvent κ)) :=
  let rh := s.fReplies i
  (s.endpoints.forgetSender rh.rIssuer).bind fun e => (e.forgetSender rh.rRecipient).map fun e =>
    ({ s.put i .empty with endpoints := e }, rh.parts.map (.dropped i) ++ [.retired i])

def cancelSlots : List SlotId → ReplyFlat κ → Option (ReplyFlat κ × List (HandlerEvent κ))
  | [], s => some (s, [])
  | i :: rest, s => (s.cancelSlot i).bind fun (s, out) =>
      (cancelSlots rest s).map fun (s, more) => (s, out ++ more)

/-- `cancel_flat_katcp` -/
def cancelFlat : Option (ReplyFlat κ × List (HandlerEvent κ)) := cancelSlots (List.finRange 4) s

end ReplyFlat

inductive ReplyAction (κ : Type) where
  | callback (r : Registration κ)
  | wake (source : Option EpId) (px : Words)
  | returns (result : Option KatcpResult) (address : MsgId)
  | mapped
  | cancel
  | state (fState : FlatState)
  | others (a : EndpointAction)

def ReplyFlat.act {κ : Type} (s : ReplyFlat κ) : ReplyAction κ → Option (ReplyFlat κ × List (HandlerEvent κ))
  | .callback r => (s.callbackFlat r).map Prod.snd
  | .wake source px => s.wake source px
  | .returns result address => s.returns result address
  | .mapped => if s.phase = .mapping then some (s.leave, []) else none
  | .cancel => if s.phase = .idle then s.cancelFlat else none
  | .state fState => some ({ s with fState := fState }, [])
  | .others a => (s.endpoints.act a).map fun (e, out) => ({ s with endpoints := e }, out.map .endpoint)

def createReplyFlat (κ : Type) (peer remote : EpId) : ReplyFlat κ :=
  ⟨.up, some peer, some remote, none, fun _ => .empty, .idle, noEndpoints⟩

def replyMachine (κ : Type) (peer remote : EpId) : Machine (ReplyFlat κ) (ReplyAction κ) (HandlerEvent κ) where
  start := createReplyFlat κ peer remote
  step s a := (s.act a).map Prod.fst
  emits s a := ((s.act a).map Prod.snd).getD []

end Katcp
