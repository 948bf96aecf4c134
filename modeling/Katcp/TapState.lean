import Katcp.TapArp

namespace Katcp

open BitMemory ByteBlock

inductive DhcpState
  | init
  | randomize
  | select
  | wait
  | request
  | bound
  | renew
  | rebind
deriving DecidableEq, Repr

/-- How a pending dhcp request ended: with a lease, configured without error or not, or with the
state machine giving up. -/
inductive DhcpOutcome
  | leased (clean : Bool)
  | timedOut
deriving DecidableEq, Repr

/-- What the messages of a lease carry. -/
structure DhcpLease where
  sDhcpXid : BitVec 32
  sDhcpSecStart : BitVec 64
  sDhcpNextHopMac : Octets
  sDhcpYipAddr : BitVec 32
  sDhcpSrvAddr : BitVec 32
  sDhcpSubmask : BitVec 32
  sDhcpRoute : BitVec 32
  sDhcpLeaseT : BitVec 32
  sDhcpT1 : BitVec 32
  sDhcpT2 : BitVec 32
deriving DecidableEq, Repr

/-- The dhcp part of an instance. A notice is known by the number of its request; woken ones
wait for the notices to run. The number of steps since the request is kept for its own sake. -/
structure TapDhcp where
  sDhcpState : DhcpState
  sDhcpSmEnable : Bool
  sDhcpBufferFlag : Bool
  sDhcpSmCount : Nat
  sDhcpSmRetries : Nat
  sDhcpWait : Int
  sDhcpTimer : Nat
  sDhcpErrors : Nat
  sDhcpObtained : Bool
  sDhcpNotice : Option Nat
  sDhcpRxBuffer : Bytes
  lease : DhcpLease
  woken : List (Nat × DhcpOutcome)
  steps : Nat

/-- The receive half of an instance. -/
structure TapRx where
  sRxb : Bytes
  sRxLen : Nat
  sRxArp : Nat
  sRxUser : Nat
  sRxError : Nat
  sRxDhcpValid : Nat
  sRxDhcpUnknown : Nat
  sRxDhcpInvalid : Nat
  sRxBig : Nat
  sRxSmall : Nat
  sXGlean : Nat
  sBurst : Nat
  sDeferrals : Nat
  tapWritable : Bool

/-- The addresses an instance is configured with. -/
structure TapAddress where
  sMac : Octets
  sAddress : BitVec 32
  sMask : BitVec 32
  sNetwork : BitVec 32
  sGateway : BitVec 32
  sSubnet : Nat
deriving DecidableEq, Repr

/-- A tap instance. The clock counts what it has asked the world. -/
structure Tap where
  addr : TapAddress
  tx : TapTx
  rx : TapRx
  arp : TapArp
  dhcp : TapDhcp
  sArpMode : Int
  clock : Nat

/-- A read of the tap device. -/
inductive TapRead
  | again
  | failed
  | eof
  | data (bytes : Octets)
deriving DecidableEq, Repr

/-- A write to the tap device. -/
inductive TapWrite
  | again
  | failed
  | wrote (count : Nat)
deriving DecidableEq, Repr

/-- What the gateware, the kernel, the clock and the random source answer, by the time they are
asked, and what an uninitialised message type holds. -/
structure TapWorld where
  bufferSizes : Nat → BitVec 32
  rxBuffer : Nat → Bytes
  tapRead : Nat → TapRead
  tapWrite : Nat → TapWrite
  dhcpRand : Nat → Nat
  time : Nat → BitVec 64
  setKernelIfAddr : Nat → Bool
  uninitialised : Nat → BitVec 8

def broadcastConst : Octets := [0xff, 0xff, 0xff, 0xff, 0xff, 0xff]
def arpConst : Octets := [0, 1, 8, 0, 6, 4, 0]

namespace Tap

variable (w : TapWorld)

def asked (t : Tap) : Tap := { t with clock := t.clock + 1 }

/-- The reading of the size register that a frame written now will see. -/
def sizes (t : Tap) : BitVec 32 := w.bufferSizes t.clock

def announceFrame (t : Tap) : Octets :=
  broadcastConst ++ t.addr.sMac ++ [0x08, 0x06] ++ arpConst ++ [2] ++ t.addr.sMac ++ wordBytes t.addr.sAddress ++
    broadcastConst ++ wordBytes (~~~t.addr.sMask ||| t.addr.sAddress)

def requestFrame (t : Tap) (index : Nat) : Octets :=
  broadcastConst ++ t.addr.sMac ++ [0x08, 0x06] ++ arpConst ++ [1] ++ t.addr.sMac ++ wordBytes t.addr.sAddress ++
    broadcastConst ++ wordBytes (BitVec.ofNat 32 index ||| (t.addr.sMask &&& t.addr.sAddress))

def announceArp (t : Tap) : Tap :=
  { t.asked with
    tx := t.tx.sendNewArp (t.sizes w) t.announceFrame
    arp := t.arp.announce }

def requestArp (t : Tap) (index : Nat) : Tap :=
  if t.arp.sSelf = index then t
  else
    { t.asked with
      tx := t.tx.sendNewArp (t.sizes w) (t.requestFrame index)
      arp := t.arp.query index }

/-- The receive buffer turned round into a reply. -/
def replyBuffer (t : Tap) : Bytes :=
  let rxb := t.rx.sRxb
  let sender := ByteBlock.load rxb 22 10
  let rxb := put rxb 0 (ByteBlock.load rxb 6 6)
  let rxb := put rxb 6 t.addr.sMac
  let rxb := put rxb 21 [2]
  let rxb := put rxb 32 sender
  let rxb := put rxb 28 (wordBytes t.addr.sAddress)
  put rxb 22 t.addr.sMac

/-- Answer an arp request, and announce ourselves soon. -/
def replyArp (t : Tap) : FrameResult × Tap :=
  let (result, rxb, tx) := t.tx.sendReply (t.sizes w) t.replyBuffer 42
  (result, { t.asked with
    tx
    rx := { t.rx with sRxb := rxb }
    arp := t.arp.refresh t.arp.sSelf smallDelay })

/-- Note the station of an arp frame, if it is one of our network. -/
def gleanArp (t : Tap) (mac : Octets) (v : BitVec 32) : Tap :=
  if v = 0 then t
  else if v &&& t.addr.sMask ≠ t.addr.sNetwork then t
  else if v ^^^ t.addr.sNetwork = ~~~t.addr.sMask then t
  else
    let index := (v &&& ~~~t.addr.sMask).toNat
    if index = 0 ∨ index ≥ t.arp.sTableSize then t
    else { t with arp := t.arp.setEntryArp index mac (t.arp.validDelay index) }

/-- The address of the sender in an arp frame. -/
def senderGleaned (t : Tap) : Tap := t.gleanArp (ByteBlock.load t.rx.sRxb 22 6) (word t.rx.sRxb 28)

/-- An arp frame has been received; the reply to a request may have to wait. -/
def processArp (t : Tap) : FrameResult × Tap :=
  if ByteBlock.load t.rx.sRxb sizeFrameHeader 7 ≠ arpConst then (.error, t)
  else if t.rx.sRxb 21 = 2 then (.done, t.senderGleaned)
  else if t.rx.sRxb 21 = 1 then
    if word t.rx.sRxb 38 = t.addr.sAddress then t.replyArp w
    else (.done, { t with rx := { t.rx with sXGlean := t.rx.sXGlean + 1 } }.senderGleaned)
  else (.error, t)

/-- The end of a sweep. -/
def endSweep (t : Tap) : Tap :=
  { t with
    sArpMode := if t.sArpMode > 0 then t.sArpMode - 1 else t.sArpMode
    arp := t.arp.endSweep }

/-- Ask about the entry the sweep has reached, or announce ourselves. -/
def askEntry (t : Tap) : Tap :=
  let t := if t.arp.sIndex = t.arp.sSelf then t.announceArp w else t.requestArp w t.arp.sIndex
  { t with arp := t.arp.advance.tick }

/-- The sweep goes on with the entries left of the table, to the first that is due. -/
def spamSweep : Nat → Tap → Tap
  | 0, t => t.endSweep
  | left + 1, t =>
    let t := { t with arp := t.arp.reach }
    if t.arp.age (t.arp.sArpFresh t.arp.sIndex) < 2 * getapArpCache then t.askEntry w
    else spamSweep left { t with arp := t.arp.advance }

def spamArp (t : Tap) : Tap :=
  if t.tx.sArpLen > 0 then t
  else
    let t := if t.arp.sTableSize > getapArpCache then
        { t with arp := { t.arp with sTableSize := getapArpCache } } else t
    t.spamSweep w (t.arp.sTableSize - 1 - t.arp.sIndex)

/-- A reload of the table. -/
def tapReloadArp (t : Tap) : Tap :=
  { t with
    arp := t.arp.tapReloadArp t.addr.sMac
    rx := { t.rx with sRxArp := 0 }
    tx := { t.tx with sTxArp := 0 } }

def maxSubnet : Nat := 24

/-- Take an address, with the length of its subnet if that is given, and a gateway. -/
def configureIpFpga (t : Tap) (address : BitVec 32) (subnet : Option Nat) (gateway : Option (BitVec 32)) :
    Bool × Tap :=
  let t := { t with addr := { t.addr with sSubnet := subnet.getD t.addr.sSubnet } }
  if subnet.isSome ∧ (t.addr.sSubnet < maxSubnet ∨ 30 < t.addr.sSubnet) then (false, t)
  else
    let mask : BitVec 32 := 0xffffffff <<< (32 - t.addr.sSubnet)
    (true, { t with
      addr := { t.addr with
        sAddress := address
        sMask := mask
        sNetwork := mask &&& address
        sGateway := (gateway.map (· &&& 0xff)).getD 0 }
      arp := { t.arp with sSelf := (~~~mask &&& address).toNat } })

end Tap

end Katcp
