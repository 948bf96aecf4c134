import Katcp.Machine
import Katcp.TapDhcp

namespace Katcp

open BitMemory ByteBlock

def runtLength : Nat := 20

/-- What an instance is set up with. -/
structure TapSetup where
  mac : Octets
  address : BitVec 32
  subnet : Option Nat
  gateway : Option (BitVec 32)
  spamPeriod : TapPeriod
  announcePeriod : TapPeriod
  validPeriod : Nat
  arpMode : Int
deriving DecidableEq, Repr

def spamPeriodDefault : TapPeriod := ⟨5, 700, 5, 160000⟩
def announcePeriodDefault : TapPeriod := ⟨100, 100, 100, 1600⟩
def freshValid : Nat := 50000
def arpModeDefault : Int := 3

namespace Tap

variable (w : TapWorld)

def forgetReceive (t : Tap) : Tap := { t with rx := { t.rx with sRxLen := 0 } }

/-- Take a frame from the gateware, if it has one and the receive buffer is free. -/
def receiveFrameFpga (t : Tap) : Bool × Tap :=
  if t.rx.sRxLen > 0 then (false, t)
  else
    let len := (t.sizes w &&& 0xffff).toNat * 8
    if len ≤ sizeFrameHeader ∨ getapMaxFrame < len then (false, t.asked)
    else (true, { t.asked with rx := { t.rx with
      sRxb := put t.rx.sRxb 0 (ByteBlock.load (w.rxBuffer t.clock) 0 len)
      sRxLen := len } })

/-- Give the frame in the receive buffer to the kernel. -/
def transmitIpKernel (t : Tap) : FrameResult × Tap :=
  if t.rx.sRxLen ≤ sizeFrameHeader then
    if t.rx.sRxLen = 0 then (.done, t) else (.error, t.forgetReceive)
  else
    match w.tapWrite t.clock with
    | .again => (.busy, t.asked)
    | .failed => (.error, t.asked.forgetReceive)
    | .wrote count =>
      (if count + sizeFrameHeader < t.rx.sRxLen then .error else .done, t.asked.forgetReceive)

/-- Take a packet from the kernel, if the transmit buffer is free. -/
def receiveIpKernel (t : Tap) : Bool × Tap :=
  if t.tx.sTxLen > 0 then (false, t)
  else
    match w.tapRead t.clock with
    | .data bytes =>
      let packet := bytes.take (getapMaxFrame - sizeFrameHeader)
      let t := { t.asked with tx := { t.tx with sTxb := put t.tx.sTxb sizeFrameHeader packet } }
      if packet.length < runtLength then (false, t)
      else (true, { t with tx := { t.tx with sTxLen := packet.length + sizeFrameHeader } })
    | _ => (false, t.asked)

/-- The hardware address that the packet in the transmit buffer goes to. -/
def nextHop (t : Tap) : Option Octets :=
  let value := word t.tx.sTxb 30
  let entry (index : Nat) := t.arp.sArpTable (if index ≥ t.arp.sTableSize then t.arp.sTableSize - 1 else index)
  if value = 0xffffffff then some broadcastConst
  else if value &&& 0xf0000000 = 0xe0000000 then
    some ([0x01, 0x00, 0x5e] ++ [0x7f &&& t.tx.sTxb 31, t.tx.sTxb 32, t.tx.sTxb 33])
  else if value &&& t.addr.sMask = t.addr.sNetwork then some (entry (value &&& ~~~t.addr.sMask).toNat)
  else if t.addr.sGateway ≠ 0 then some (entry (t.addr.sGateway &&& ~~~t.addr.sMask).toNat)
  else none

/-- Send the packet in the transmit buffer, or drop it if it has nowhere to go. -/
def transmitIpFpga (t : Tap) : Tap :=
  match t.nextHop with
  | none => { t with tx := { t.tx with sTxLen := 0, sTxError := t.tx.sTxError + 1 } }
  | some mac =>
    { t.asked with tx := t.tx.sendUser (t.sizes w) (put t.tx.sTxb 0 mac) t.tx.sTxLen }

/-- Attempt to flush out what is still stuck in the buffers. -/
def flushBuffers (t : Tap) : Tap :=
  let t := if t.tx.sArpLen > 0 then { t.asked with tx := t.tx.sendArp (t.sizes w) } else t
  if t.tx.sTxLen > 0 then { t.asked with tx := t.tx.transmitFrameFpga (t.sizes w) } else t

def addRxError (t : Tap) : Tap := { t with rx := { t.rx with sRxError := t.rx.sRxError + 1 } }

def addRxArp (t : Tap) : Tap := { t with rx := { t.rx with sRxArp := t.rx.sRxArp + 1 } }

def addRxUser (t : Tap) : Tap := { t with rx := { t.rx with sRxUser := t.rx.sRxUser + 1 } }

/-- Keep a dhcp reply, unless one is kept already. -/
def keepDhcp (t : Tap) : Tap :=
  if t.dhcp.sDhcpBufferFlag then t
  else { t with dhcp := { t.dhcp with
      sDhcpBufferFlag := true
      sDhcpRxBuffer := put t.dhcp.sDhcpRxBuffer 0 (ByteBlock.load t.rx.sRxb 0 t.rx.sRxLen) } }

/-- Deal with an ip packet that has been received; tell whether to go on. -/
def receivedIp (t : Tap) : Bool × Tap :=
  let (valid, t) := t.validateDhcpReply
  if valid then (true, t.keepDhcp.forgetReceive.addRxUser)
  else
    match t.transmitIpKernel w with
    | (.busy, t) => (false, { t with rx := { t.rx with tapWritable := true } }.addRxUser)
    | (_, t) => (true, t.addRxUser)

/-- Deal with an arp frame that has been received; tell whether to go on. -/
def receivedArp (t : Tap) : Bool × Tap :=
  if t.addr.sAddress ≠ 0 then
    match t.processArp w with
    | (.busy, t) => (false, t.addRxArp.forgetReceive)
    | (.error, t) => (true, t.addRxError.forgetReceive)
    | (.done, t) => (true, t.addRxArp.forgetReceive)
  else (true, t.forgetReceive)

/-- Deal with a frame that has been received; tell whether to go on. -/
def receivedFrame (t : Tap) : Bool × Tap :=
  let t := { t with rx := { t.rx with sRxBig := max t.rx.sRxBig t.rx.sRxLen, sRxSmall := min t.rx.sRxSmall t.rx.sRxLen } }
  if t.rx.sRxb 12 = 0x08 ∧ t.rx.sRxb 13 = 0x00 then t.receivedIp w
  else if t.rx.sRxb 12 = 0x08 ∧ t.rx.sRxb 13 = 0x06 then t.receivedArp w
  else (true, t.addRxError.forgetReceive)

/-- Receive frames until there are none, one has to wait, or so many have come; tell how many. -/
def receiveBurst : Nat → Nat → Tap → Nat × Tap
  | 0, burst, t => (burst, t)
  | left + 1, burst, t =>
    match t.receiveFrameFpga w with
    | (false, t) => (burst, t)
    | (true, t) =>
      match t.receivedFrame w with
      | (true, t) => receiveBurst left (burst + 1) t
      | (false, t) => (burst + 1, t)

/-- Go on with the arp sweep if it is quiet enough. -/
def spamQuiet (t : Tap) (burst : Nat) : Tap :=
  if t.addr.sAddress ≠ 0 ∧ t.sArpMode ≠ 0 then
    if burst < t.rx.sDeferrals + 1 then
      let t := t.spamArp w
      { t with rx := { t.rx with sDeferrals := 0 } }
    else { t with rx := { t.rx with sDeferrals := t.rx.sDeferrals + 1 } }
  else t

/-- The poll of an instance, after its dhcp state machine. -/
def pollFrames (t : Tap) : Tap :=
  let t := t.flushBuffers w
  let (burst, t) := t.receiveBurst w (t.rx.sBurst + 1) 0
  t.spamQuiet w burst

def runTimerTap (t : Tap) : Option Tap :=
  (if t.dhcp.sDhcpSmEnable then t.dhcpStatemachine w else some t).map (pollFrames w)

/-- Take a packet from the kernel and send it; if that does not work out, hope that the next poll
will clear it. -/
def ioReadable (t : Tap) : Tap :=
  match t.receiveIpKernel w with
  | (true, t) => t.transmitIpFpga w
  | (false, t) => t

/-- Give the kernel the packet it was too busy for. -/
def ioWritable (t : Tap) : Tap :=
  if t.rx.tapWritable then
    match t.transmitIpKernel w with
    | (.busy, t) => t
    | (_, t) => { t with rx := { t.rx with tapWritable := false } }
  else t

/-- The descriptor of the tap device has become readable or writable. -/
def runIoTap (t : Tap) (readable writable : Bool) : Tap :=
  let t := if readable then t.ioReadable w else t
  if writable then t.ioWritable w else t

/-- A request for a lease, with the notice that its reply waits for. -/
def tapDhcpCmd (t : Tap) (n : Nat) : Option Tap :=
  if t.dhcp.sDhcpNotice.isSome then none
  else some { t with dhcp := { t.dhcp with
      sDhcpNotice := some n
      sDhcpState := .init
      sDhcpSmEnable := true
      steps := 0 } }

def takeMac (t : Tap) (mac : Octets) : Tap :=
  { t with
    addr := { t.addr with sMac := mac }
    tx := { t.tx with sTxb := put (put t.tx.sTxb 6 mac) 12 [0x08, 0x00] } }

/-- The addresses and the first entries of the arp table. -/
def configureFpga (t : Tap) (setup : TapSetup) : Bool × Tap :=
  let (ok, t) := (t.takeMac setup.mac).configureIpFpga setup.address setup.subnet setup.gateway
  (ok, if ok then { t with arp := t.arp.fillArp broadcastConst setup.mac } else t)

end Tap

/-- An instance with nothing configured. -/
def freshTap (setup : TapSetup) : Tap where
  addr := ⟨[], 0, 0, 0, 0, 24⟩
  tx :=
    { sArpBuffer := fun _ => 0, sArpLen := 0, sTxb := fun _ => 0, sTxLen := 0, sDhcpTxBuffer := fun _ => 0
      sTxArp := 0, sTxUser := 0, sTxError := 0, sTxDhcp := 0, sTxBig := 0, sTxSmall := getapMaxFrame + 1
      arpId := 0, userId := 0, handed := 0, frames := [] }
  rx :=
    { sRxb := fun _ => 0, sRxLen := 0, sRxArp := 0, sRxUser := 0, sRxError := 0, sRxDhcpValid := 0
      sRxDhcpUnknown := 0, sRxDhcpInvalid := 0, sRxBig := 0, sRxSmall := getapMaxFrame + 1, sXGlean := 0
      sBurst := 8, sDeferrals := 0, tapWritable := false }
  arp :=
    { sSelf := 0, sIndex := 1, sIteration := 0, sSpamPeriod := setup.spamPeriod
      sAnnouncePeriod := setup.announcePeriod, sValidPeriod := setup.validPeriod, sTableSize := getapArpCache
      sArpTable := fun _ => [], sArpFresh := fun i => i, sweeps := [] }
  dhcp :=
    { sDhcpState := .init, sDhcpSmEnable := false, sDhcpBufferFlag := false, sDhcpSmCount := 0
      sDhcpSmRetries := 0, sDhcpWait := 1, sDhcpTimer := 0, sDhcpErrors := 0, sDhcpObtained := false
      sDhcpNotice := none, sDhcpRxBuffer := fun _ => 0
      lease := ⟨0, 0, broadcastConst, 0, 0, 0, 0, 0, 0, 0⟩, woken := [], steps := 0 }
  sArpMode := setup.arpMode
  clock := 0

/-- An instance as it is when it has been started and its periods have been set. -/
def createGetap (setup : TapSetup) : Option Tap :=
  match (freshTap setup).configureFpga setup with
  | (true, t) => some t
  | (false, _) => none

/-- What happens to an instance: it is polled, or its device has become readable or writable, with
what the world answers then; its arp table is reloaded; it is asked for a lease. -/
inductive TapAction
  | poll (w : TapWorld)
  | io (w : TapWorld) (readable writable : Bool)
  | reload
  | dhcp (n : Nat)

def Tap.act (t : Tap) : TapAction → Option Tap
  | .poll w => t.runTimerTap w
  | .io w readable writable => some (t.runIoTap w readable writable)
  | .reload => some t.tapReloadArp
  | .dhcp n => t.tapDhcpCmd n

/-- The instance that has been created, and everything that may happen to it until it is
stopped. -/
def tapMachine (created : Tap) : Machine Tap TapAction Unit where
  start := created
  step := Tap.act
  emits _ _ := []

end Katcp
