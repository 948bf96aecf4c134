import Katcp.TapState
import Mathlib.Data.BitVec

namespace Katcp

open BitMemory ByteBlock

inductive DhcpMsgType
  | discover
  | offer
  | request
  | decline
  | ack
  | nak
  | release
  | inform
deriving DecidableEq, Repr

def DhcpMsgType.code : DhcpMsgType → BitVec 8
  | .discover => 1
  | .offer => 2
  | .request => 3
  | .decline => 4
  | .ack => 5
  | .nak => 6
  | .release => 7
  | .inform => 8

/-- The flags of a message to be made. -/
structure DhcpFlags where
  unicast : Bool := false
  bootpCipaddr : Bool := false
  dhcpReqip : Bool := false
  dhcpSvrid : Bool := false
  dhcpReqparam : Bool := false
  dhcpVendid : Bool := false
  dhcpNewXid : Bool := false
  dhcpResetSec : Bool := false
deriving DecidableEq, Repr

def vendorId : Octets := "tcpborphserver".toList.map fun c => BitVec.ofNat 8 c.toNat

/-- The first octet of an address. -/
def firstOctet (address : BitVec 32) : BitVec 8 := address.extractLsb' 24 8

def dhcpChecksum (data : Bytes) (indexStart indexEnd : Nat) : BitVec 16 :=
  if indexStart > indexEnd then BitVec.ofInt 16 (-1)
  else
    let len := indexEnd - indexStart + 1
    let places := (List.range ((len + 1) / 2)).map fun k => indexStart + 2 * k
    (places.foldl (fun (chksm : BitVec 32) i =>
      let high : BitVec 16 := (data i).setWidth 16 <<< 8
      let tmp := if i = len - 1 then high else high + (data (i + 1)).setWidth 16
      let chksm := chksm + (~~~tmp).setWidth 32
      (0xffff &&& chksm) + (chksm >>> 16)) 0).setWidth 16

/-- The options of a message. -/
def dhcpOptions (mac : Octets) (l : DhcpLease) (mtype : DhcpMsgType) (flags : DhcpFlags) : Octets :=
  [0x63, 0x82, 0x53, 0x63] ++ [53, 1, mtype.code] ++ [61, 7, 1] ++ mac ++
    (if flags.dhcpReqip then [50, 4] ++ wordBytes l.sDhcpYipAddr else []) ++
    (if flags.dhcpSvrid then [54, 4] ++ wordBytes l.sDhcpSrvAddr else []) ++
    (if flags.dhcpReqparam then [55, 5, 1, 3, 6, 12, 15] else []) ++
    (if flags.dhcpVendid then [60, 14] ++ vendorId else []) ++ [0xff]

def octetPair (n : Nat) : Octets := [BitVec.ofNat 8 (n / 256), BitVec.ofNat 8 n]

/-- The buffer with a message, once its transaction is set. -/
def dhcpBuffer (mac : Octets) (l : DhcpLease) (now : BitVec 64) (mtype : DhcpMsgType) (flags : DhcpFlags) :
    Bytes :=
  let options := dhcpOptions mac l mtype flags
  let sec := now - l.sDhcpSecStart
  let b : Bytes := fun _ => 0
  let b := put b 0 (if flags.unicast then l.sDhcpNextHopMac else broadcastConst)
  let b := put b 6 mac
  let b := put b 12 [0x08]
  let b := put b 14 [0x45]
  let b := put b 22 [0x40, 0x11]
  let b := if flags.unicast ∧ firstOctet l.sDhcpSrvAddr ≠ 0 ∧ firstOctet l.sDhcpYipAddr ≠ 0 then
      put (put b 30 (wordBytes l.sDhcpSrvAddr)) 26 (wordBytes l.sDhcpYipAddr)
    else put b 30 [0xff, 0xff, 0xff, 0xff]
  let b := put b 35 [0x44]
  let b := put b 37 [0x43]
  let b := put b 42 [0x01, 0x01, 0x06]
  let b := put b 46 (wordBytes l.sDhcpXid)
  let b := put b 50 [sec.extractLsb' 8 8, sec.extractLsb' 0 8]
  let b := if flags.bootpCipaddr then put b 54 (wordBytes l.sDhcpYipAddr) else b
  let b := put b 70 mac
  let b := put b 278 options
  let len := 8 + 236 + options.length
  let b := put b 38 (octetPair len)
  let b := put b 16 (octetPair (len + 20))
  put b 24 (octetPair (dhcpChecksum b 14 33).toNat)

/-- The length of the options of an ip header, in the unsigned arithmetic of the source. -/
def ipOptions (header : BitVec 8) : BitVec 32 := (header &&& 0x0f).setWidth 32 * 4 - 20

/-- The same for the packet in a buffer. -/
def ipLength (b : Bytes) : Nat := (ipOptions (b 14)).toNat

/-- Whether a packet is a dhcp reply. -/
def isDhcpReply (b : Bytes) : Bool :=
  ipLength b ≤ 40 ∧ b 23 = 0x11 ∧ ByteBlock.load b (ipLength b + 36) 2 = [0x00, 0x44] ∧ b (ipLength b + 42) = 0x02 ∧
    ByteBlock.load b (ipLength b + 278) 4 = [0x63, 0x82, 0x53, 0x63]

/-- The transaction of a dhcp message. -/
def messageXid (b : Bytes) : BitVec 32 := word b (ipLength b + 46)

/-- Four octets that are shifted into a number. -/
def shiftedIn (b : Bytes) (i : Nat) (n : BitVec 32) : BitVec 32 :=
  (ByteBlock.load b i 4).foldl (fun n o => (n <<< 8) + o.setWidth 32) n

/-- The options of a received message, none where they lead out of the buffer. -/
def dhcpScan (b : Bytes) : Nat → Nat → DhcpLease × BitVec 8 → Option (DhcpLease × BitVec 8)
  | 0, _, _ => none
  | fuel + 1, i, (l, mt) =>
    let next := i + (b (i + 1)).toNat + 2
    let far := i + 6 ≤ getapMaxFrame
    if getapMaxFrame ≤ i then none
    else if b i = 255 then some (l, mt)
    else if getapMaxFrame ≤ i + 1 then none
    else if b i = 53 then
      if i + 3 ≤ getapMaxFrame then dhcpScan b fuel (i + 3) (l, b (i + 2)) else none
    else if b i = 1 then
      if far then dhcpScan b fuel next ({ l with sDhcpSubmask := word b (i + 2) }, mt) else none
    else if b i = 3 then
      if far then dhcpScan b fuel next ({ l with sDhcpRoute := word b (i + 2) }, mt) else none
    else if b i = 51 then
      if far then dhcpScan b fuel next ({ l with sDhcpLeaseT := shiftedIn b (i + 2) l.sDhcpLeaseT }, mt) else none
    else if b i = 58 then
      if far then dhcpScan b fuel next ({ l with sDhcpT1 := shiftedIn b (i + 2) l.sDhcpT1 }, mt) else none
    else if b i = 59 then
      if far then dhcpScan b fuel next ({ l with sDhcpT2 := shiftedIn b (i + 2) l.sDhcpT2 }, mt) else none
    else if b i = 54 then
      if far then dhcpScan b fuel next ({ l with sDhcpSrvAddr := word b (i + 2) }, mt) else none
    else dhcpScan b fuel next (l, mt)

/-- The number of bits set in a mask. -/
def convertNetmask (mask : BitVec 32) : Nat := ((List.range 32).filter fun i => mask.getLsbD i).length

def dhcpSmRetries : Nat := 5
def dhcpSmInterval : Nat := 500
def pollInterval : Nat := 10

namespace Tap

variable (w : TapWorld)

/-- Make a message and try it; false tells that it could not be sent. -/
def dhcpMsg (t : Tap) (mtype : DhcpMsgType) (flags : DhcpFlags) : Bool × Tap :=
  let l := t.dhcp.lease
  let l := if flags.dhcpNewXid then { l with sDhcpXid := BitVec.ofNat 32 (w.dhcpRand t.clock) } else l
  let l := if flags.dhcpResetSec then { l with sDhcpSecStart := w.time t.clock } else l
  let frame := dhcpBuffer t.addr.sMac l (w.time t.clock) mtype flags
  let (sent, tx) := t.tx.sendDhcp (t.sizes w) frame (getapDhcpBufferSize - 8)
  (sent, { t.asked with tx, dhcp := { t.dhcp with lease := l } })

/-- Whether the frame received is a dhcp reply to the transaction under way. -/
def validateDhcpReply (t : Tap) : Bool × Tap :=
  if isDhcpReply t.rx.sRxb then
    if messageXid t.rx.sRxb = t.dhcp.lease.sDhcpXid then
      (true, { t with rx := { t.rx with sRxDhcpValid := t.rx.sRxDhcpValid + 1 } })
    else (false, { t with rx := { t.rx with sRxDhcpUnknown := t.rx.sRxDhcpUnknown + 1 } })
  else (false, t)

/-- Take what the message in the dhcp buffer says; its type, unless its transaction is an old
one. -/
def processDhcp (t : Tap) : Option (Option (BitVec 8) × Tap) :=
  let b := t.dhcp.sDhcpRxBuffer
  if messageXid b = t.dhcp.lease.sDhcpXid then
    (dhcpScan b getapMaxFrame (ipLength b + 282)
      ({ t.dhcp.lease with sDhcpNextHopMac := ByteBlock.load b 6 6, sDhcpYipAddr := word b (ipLength b + 58) },
        w.uninitialised t.clock)).map fun (l, mt) => (some mt, { t.asked with dhcp := { t.dhcp with lease := l } })
  else some (none, { t with rx := { t.rx with sRxDhcpInvalid := t.rx.sRxDhcpInvalid + 1 } })

/-- Take a buffered message, if there is one; tell whether it is of a type. -/
def takeDhcp (t : Tap) (mtype : DhcpMsgType) : Option (Bool × Tap) :=
  if t.dhcp.sDhcpBufferFlag then
    (processDhcp w { t with dhcp := { t.dhcp with sDhcpBufferFlag := false } }).map fun (mt, t) =>
      (mt = some mtype.code, t)
  else some (false, t)

def dhcpConfigureFpga (t : Tap) : Bool × Tap :=
  let l := t.dhcp.lease
  let (ok, t) := t.configureIpFpga l.sDhcpYipAddr (some (convertNetmask l.sDhcpSubmask)) (some l.sDhcpRoute)
  if ok then
    let t := t.tapReloadArp
    (true, { t with arp := t.arp.note (.leased t.arp.sSelf) }.announceArp w)
  else (false, t)

def dhcpConfigureKernel (t : Tap) : Bool × Tap := (w.setKernelIfAddr t.clock, t.asked)

/-- Wake the notice of the pending request and let go of it. -/
def wakeDhcp (t : Tap) (outcome : DhcpOutcome) : Tap :=
  { t with dhcp := { t.dhcp with
      woken := t.dhcp.woken ++ (t.dhcp.sDhcpNotice.map fun n => (n, outcome)).toList
      sDhcpNotice := none } }

def addDhcpError (t : Tap) : Tap := { t with dhcp := { t.dhcp with sDhcpErrors := t.dhcp.sDhcpErrors + 1 } }

def dhcpGoes (t : Tap) (s : DhcpState) : Tap := { t with dhcp := { t.dhcp with sDhcpState := s } }

def setDhcpWait (t : Tap) (n : Int) : Tap := { t with dhcp := { t.dhcp with sDhcpWait := n } }

def addDhcpRetry (t : Tap) : Tap := { t with dhcp := { t.dhcp with sDhcpSmRetries := t.dhcp.sDhcpSmRetries + 1 } }

def setDhcpTimer (t : Tap) (n : Nat) : Tap := { t with dhcp := { t.dhcp with sDhcpTimer := n } }

section Parts

variable {t : Tap} {s : DhcpState} {n : Int} {k : Nat} {outcome : DhcpOutcome}

@[simp] theorem asked_tx : t.asked.tx = t.tx := rfl
@[simp] theorem asked_arp : t.asked.arp = t.arp := rfl
@[simp] theorem asked_dhcp : t.asked.dhcp = t.dhcp := rfl
@[simp] theorem dhcpGoes_tx : (t.dhcpGoes s).tx = t.tx := rfl
@[simp] theorem dhcpGoes_arp : (t.dhcpGoes s).arp = t.arp := rfl
@[simp] theorem setDhcpWait_tx : (t.setDhcpWait n).tx = t.tx := rfl
@[simp] theorem setDhcpWait_arp : (t.setDhcpWait n).arp = t.arp := rfl
@[simp] theorem setDhcpTimer_tx : (t.setDhcpTimer k).tx = t.tx := rfl
@[simp] theorem setDhcpTimer_arp : (t.setDhcpTimer k).arp = t.arp := rfl
@[simp] theorem addDhcpRetry_tx : t.addDhcpRetry.tx = t.tx := rfl
@[simp] theorem addDhcpRetry_arp : t.addDhcpRetry.arp = t.arp := rfl
@[simp] theorem addDhcpError_tx : t.addDhcpError.tx = t.tx := rfl
@[simp] theorem addDhcpError_arp : t.addDhcpError.arp = t.arp := rfl
@[simp] theorem wakeDhcp_tx : (t.wakeDhcp outcome).tx = t.tx := rfl
@[simp] theorem wakeDhcp_arp : (t.wakeDhcp outcome).arp = t.arp := rfl

end Parts

def initDhcpState (t : Tap) : Tap :=
  let wait := w.dhcpRand t.clock % 40 + 10
  { t.asked with dhcp := { t.dhcp with
      sDhcpBufferFlag := false
      sDhcpErrors := 0
      sDhcpTimer := 0
      sDhcpWait := wait
      sDhcpState := .randomize } }

def randomizeDhcpState (t : Tap) : Tap :=
  if t.dhcp.sDhcpWait ≤ 0 then
    (t.dhcpMsg w .discover { dhcpVendid := true, dhcpResetSec := true, dhcpNewXid := true }).2.addDhcpRetry.dhcpGoes
      .select
  else (t.setDhcpWait (t.dhcp.sDhcpWait - 1)).dhcpGoes .randomize

def selectDhcpState (t : Tap) : Option Tap :=
  (t.takeDhcp w .offer).map fun (offered, t) =>
    if offered then (t.asked.setDhcpWait (w.dhcpRand t.clock % 15 + 5)).dhcpGoes .wait else t.dhcpGoes .select

def waitDhcpState (t : Tap) : Tap :=
  if t.dhcp.sDhcpWait ≤ 0 then
    let (sent, t) := t.dhcpMsg w .request
      { dhcpReqip := true, dhcpSvrid := true, dhcpReqparam := true, dhcpVendid := true }
    if sent then t.dhcpGoes .request else (t.setDhcpWait (t.dhcp.sDhcpWait - 1)).dhcpGoes .wait
  else (t.setDhcpWait (t.dhcp.sDhcpWait - 1)).dhcpGoes .wait

/-- The acknowledgement of a lease: configure the instance and wake the request. -/
def leaseObtained (t : Tap) : Tap :=
  let (fpga, t) := t.dhcpConfigureFpga w
  let t := if fpga then t else t.addDhcpError
  let (kernel, t) := t.dhcpConfigureKernel w
  let t := if kernel then t else t.addDhcpError
  let l := t.dhcp.lease
  let l := if l.sDhcpT1 = 0 then { l with sDhcpT1 := l.sDhcpLeaseT / 2 } else l
  let l := if l.sDhcpT2 = 0 then { l with sDhcpT2 := l.sDhcpLeaseT * 7 / 8 } else l
  ({ t with dhcp := { t.dhcp with lease := l, sDhcpObtained := true } }.wakeDhcp (.leased (fpga && kernel))).dhcpGoes
    .bound

def requestDhcpState (t : Tap) : Option Tap :=
  (t.takeDhcp w .ack).map fun (acked, t) => if acked then t.leaseObtained w else t.dhcpGoes .request

/-- Whether the timer of the lease has reached a time, in the arithmetic of the source. -/
def leaseTimeReached (t : Tap) (due : BitVec 32) : Bool :=
  u32 (t.dhcp.sDhcpTimer * pollInterval) ≥ u32 (due.toNat * 1000)

def boundDhcpState (t : Tap) : Tap :=
  let t := t.setDhcpTimer (t.dhcp.sDhcpTimer + 1)
  if t.leaseTimeReached t.dhcp.lease.sDhcpT1 then
    (t.dhcpMsg w .request { unicast := true, bootpCipaddr := true, dhcpVendid := true, dhcpResetSec := true,
                            dhcpNewXid := true }).2.dhcpGoes .renew
  else t.dhcpGoes .bound

def renewDhcpState (t : Tap) : Option Tap :=
  ((t.setDhcpTimer (t.dhcp.sDhcpTimer + 1)).takeDhcp w .ack).map fun (acked, t) =>
    if acked then (t.setDhcpTimer 0).dhcpGoes .bound
    else if t.leaseTimeReached t.dhcp.lease.sDhcpT2 then
      (t.dhcpMsg w .request { bootpCipaddr := true, dhcpVendid := true, dhcpNewXid := true }).2.dhcpGoes .rebind
    else t.dhcpGoes .renew

def rebindDhcpState (t : Tap) : Option Tap :=
  ((t.setDhcpTimer (t.dhcp.sDhcpTimer + 1)).takeDhcp w .ack).map fun (acked, t) =>
    if acked then (t.setDhcpTimer 0).dhcpGoes .bound
    else if t.leaseTimeReached t.dhcp.lease.sDhcpLeaseT then
      (t.dhcpMsg w .discover { dhcpVendid := true, dhcpReqip := true, dhcpResetSec := true,
                               dhcpNewXid := true }).2.addDhcpRetry.dhcpGoes .select
    else t.dhcpGoes .rebind

def dhcpStateTable (t : Tap) : Option Tap :=
  match t.dhcp.sDhcpState with
  | .init => some (t.initDhcpState w)
  | .randomize => some (t.randomizeDhcpState w)
  | .select => t.selectDhcpState w
  | .wait => some (t.waitDhcpState w)
  | .request => t.requestDhcpState w
  | .bound => some (t.boundDhcpState w)
  | .renew => t.renewDhcpState w
  | .rebind => t.rebindDhcpState w

/-- The states in which no lease is held. -/
def DhcpState.belowBound : DhcpState → Bool
  | .bound => false
  | .renew => false
  | .rebind => false
  | _ => true

/-- One step of the state machine. It goes back to the start when it has been without a lease
for too long, and stops when it has done so too often. -/
def dhcpStatemachine (t : Tap) : Option Tap :=
  let t := { t with dhcp := { t.dhcp with
      sDhcpSmCount := t.dhcp.sDhcpSmCount + 1
      steps := t.dhcp.steps + 1 } }
  if DhcpState.belowBound t.dhcp.sDhcpState ∧ t.dhcp.sDhcpSmCount ≥ dhcpSmInterval then
    let t := ({ t with dhcp := { t.dhcp with sDhcpSmCount := 0 } }).dhcpGoes .init
    if t.dhcp.sDhcpSmRetries ≥ dhcpSmRetries then
      let t := { t with dhcp := { t.dhcp with sDhcpSmRetries := 0, sDhcpSmEnable := false } }
      some (t.addDhcpError.wakeDhcp .timedOut)
    else t.dhcpStateTable w
  else t.dhcpStateTable w

end Tap

end Katcp
