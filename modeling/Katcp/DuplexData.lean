import Katcp.ParseData
import Katcp.RingQueue

namespace Katcp

abbrev Text := List Byte

/-- The arguments of a complete message. -/
abbrev Words := List Text

/-- What a string function sees of an argument. -/
def cString (s : Text) : Text := s.takeWhile (· ≠ 0)

def isTypeParse (px : Words) (c : Byte) : Bool := (px.head?.bind List.head?) = some c

def isRequest (px : Words) : Bool := isTypeParse px (byte '?')

def isReply (px : Words) : Bool := isTypeParse px (byte '!')

def isInform (px : Words) : Bool := isTypeParse px (byte '#')

inductive ResultCode where
  | ok | fail | invalid
  deriving DecidableEq, Repr

/-- What a handler returns: a result that is still to be sent as the reply, or one of the
codes that leave the reply to the handler. -/
inductive KatcpResult where
  | done (code : ResultCode)
  | own
  | yield
  | pause
  deriving DecidableEq, Repr

def textOf (s : String) : Text := s.toList.map byte

/-- `code_to_name_katcm`. -/
def codeToName : ResultCode → Text
  | .ok => textOf "ok"
  | .fail => textOf "fail"
  | .invalid => textOf "invalid"

/-- The name of a message behind its type. -/
def nameOf (px : Words) : Text := (cString (px.head?.getD [])).tail

/-- `turnaround_extra_parse_katcl`, called on requests only. -/
def turnaroundExtra (px : Words) (code : ResultCode) (extra : Option Text) : Words :=
  (byte '!' :: nameOf px) :: codeToName code :: extra.toList

inductive Side where
  | remote | peer
  deriving DecidableEq, Repr

abbrev FlatId := Nat

structure EndpointId where
  flat : FlatId
  side : Side
  deriving DecidableEq, Repr

/-- `katcp_message`; `m_to` is the endpoint in whose queue it stands. -/
structure KatcpMessage where
  mWack : Bool
  mParse : Words
  mFrom : Option EndpointId
  deriving DecidableEq, Repr

/-- `katcp_endpoint`: what its state allows, and its queue. -/
structure KatcpEndpoint where
  eUp : Bool
  eRx : Bool
  eQueue : RingQueue KatcpMessage

/-- An endpoint that was created with a function to wake. -/
def createEndpoint : KatcpEndpoint := ⟨true, true, .empty⟩

/-- `queue_message_katcp`: nothing where the endpoint does not receive. -/
def queueMessage (ep : KatcpEndpoint) (msg : KatcpMessage) : Option KatcpEndpoint :=
  if ep.eRx then some { ep with eQueue := ep.eQueue.addTail msg } else none

inductive FlatState where
  | gone | connecting | up | finishing | ending | crashing | dead
  deriving DecidableEq, Repr

/-- A slot of `f_replies` that is in use; the callback is the one of the relays. -/
structure ResponseHandler where
  rMessage : Text
  rInitial : Words
  rIssuer : EndpointId
  rRecipient : EndpointId
  deriving DecidableEq, Repr

def sizeReply : Nat := 4

def flushDefer : Nat := 8

/-- `katcp_flat`: the two bits of `f_deferring`, what was appended to `f_line`, and under
`fFlushDefer` the limit that its group or, without one, the default gives. -/
structure KatcpFlat where
  fName : Text
  fState : FlatState
  fDeferOutside : Bool
  fDeferOwn : Bool
  fDefer : RingQueue Words
  fFlushDefer : Nat
  fPeer : KatcpEndpoint
  fRemote : KatcpEndpoint
  fReplies : List (Option ResponseHandler)
  fLine : List Words

def createFlat (name : Text) (state : FlatState) (limit : Nat) : KatcpFlat where
  fName := name
  fState := state
  fDeferOutside := false
  fDeferOwn := false
  fDefer := .empty
  fFlushDefer := limit
  fPeer := createEndpoint
  fRemote := createEndpoint
  fReplies := List.replicate sizeReply none
  fLine := []

end Katcp
