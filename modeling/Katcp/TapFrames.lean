import Katcp.ByteBlock
import Katcp.ItemLog
import Mathlib.Data.List.Count

namespace Katcp

open BitMemory ByteBlock

abbrev Octets := List (BitVec 8)

/-- Who makes a frame for the gateware. -/
inductive FrameMaker
  | arp
  | user
  | dhcp
deriving DecidableEq, Repr

/-- The end of a frame: the writer puts its image and the value of the size register in the
gateware, its maker counts an error, or another frame takes its place in the arp buffer. -/
inductive FrameEnd
  | written (maker : FrameMaker) (image : Octets) (sizes : BitVec 32)
  | failed
  | replaced (other : Nat)
deriving DecidableEq, Repr

/-- The record of a frame: it is opened when it is handed to the writer for the first time, and
tried each time that the gateware is busy. -/
abbrev FrameEvent := ItemLog.Entry (FrameMaker × Octets) FrameEnd

/-- The transmit half of an instance: its buffers, its counters, and the record of its frames. -/
structure TapTx where
  sArpBuffer : Bytes
  sArpLen : Nat
  sTxb : Bytes
  sTxLen : Nat
  sDhcpTxBuffer : Bytes
  sTxArp : Nat
  sTxUser : Nat
  sTxError : Nat
  sTxDhcp : Nat
  sTxBig : Nat
  sTxSmall : Nat
  arpId : Nat
  userId : Nat
  handed : Nat
  frames : List FrameEvent

/-- The results of the frame writer: 1, 0 and -1. -/
inductive FrameResult
  | done
  | busy
  | error
deriving DecidableEq, Repr

def minFrame : Nat := 64
def getapMaxFrame : Nat := 4096
def getapDhcpBufferSize : Nat := 416
def sizeFrameHeader : Nat := 14

/-- The length of the image of a frame with its padding and checksum, in whole words of 64 bits. -/
def finalLength (len : Nat) : Nat := ((if len ≤ minFrame then minFrame else len) + 4 + 7) / 8 * 8

def crcPolyLe : BitVec 32 := 0xedb88320

def crcBit (crc : BitVec 32) : BitVec 32 := (crc >>> 1) ^^^ (if crc.getLsbD 0 then crcPolyLe else 0)

def crc32Le (crc : BitVec 32) (p : Octets) : BitVec 32 :=
  p.foldl (fun crc b => Nat.repeat crcBit 8 (crc ^^^ b.setWidth 32)) crc

/-- The complement of the checksum, low byte first. -/
def crcOctets (tmp : BitVec 32) : Octets := (wordBytes (~~~tmp)).reverse

/-- The word of transmit sizes with the number of words of an image. -/
def announcedSizes (sizes : BitVec 32) (final : Nat) : BitVec 32 :=
  (sizes &&& 0xffff) ||| ((BitVec.ofNat 32 (final / 8) <<< 16) &&& 0xffff0000)

/-- The padding of a frame. -/
def padded (data : Bytes) (len : Nat) : Bytes :=
  if len < finalLength len - 4 then put data len (List.replicate (finalLength len - 4 - len) 0) else data

/-- A padded frame with its checksum. -/
def sealed (data : Bytes) (final : Nat) : Bytes :=
  put data (final - 4) (crcOctets (crc32Le 0xffffffff (ByteBlock.load data 0 (final - 4))))

namespace TapTx

def note (tx : TapTx) (e : FrameEvent) : TapTx := { tx with frames := tx.frames ++ [e] }

/-- A new frame that its maker is about to give to the writer. -/
def hand (tx : TapTx) (maker : FrameMaker) (frame : Octets) : TapTx :=
  { tx with handed := tx.handed + 1, frames := tx.frames ++ [.opened tx.handed (maker, frame)] }

/-- The frame writer of a board that tests the transmit register, which reads `sizes`. -/
def writeFrameFpga (sizes : BitVec 32) (tx : TapTx) (id : Nat) (maker : FrameMaker) (data : Bytes) (len : Nat) :
    FrameResult × Bytes × TapTx :=
  if len = 0 then (.done, data, tx)
  else if getapMaxFrame < finalLength len then (.error, data, tx)
  else if sizes &&& 0xffff0000 ≠ 0 then (.busy, padded data len, tx.note (.tried id (maker, ByteBlock.load data 0 len)))
  else
    let image := sealed (padded data len) (finalLength len)
    (.done, image,
      { tx with
        sTxSmall := min tx.sTxSmall (finalLength len)
        sTxBig := max tx.sTxBig (finalLength len)
        frames := tx.frames ++
          [.ended id (.written maker (ByteBlock.load image 0 (finalLength len)) (announcedSizes sizes (finalLength len)))] })

/-- Try the frame in the arp buffer; it stays there while the gateware is busy. -/
def sendArp (sizes : BitVec 32) (tx : TapTx) : TapTx :=
  match tx.writeFrameFpga sizes tx.arpId .arp tx.sArpBuffer tx.sArpLen with
  | (.busy, data, tx) => { tx with sArpBuffer := data }
  | (.done, data, tx) => { tx with sArpBuffer := data, sArpLen := 0, sTxArp := tx.sTxArp + 1 }
  | (.error, data, tx) =>
    { tx.note (.ended tx.arpId .failed) with sArpBuffer := data, sArpLen := 0, sTxError := tx.sTxError + 1 }

/-- Try the frame in the transmit buffer, which holds what the kernel sent. -/
def transmitFrameFpga (sizes : BitVec 32) (tx : TapTx) : TapTx :=
  match tx.writeFrameFpga sizes tx.userId .user tx.sTxb tx.sTxLen with
  | (.busy, data, tx) => { tx with sTxb := data }
  | (.done, data, tx) => { tx with sTxb := data, sTxLen := 0, sTxUser := tx.sTxUser + 1 }
  | (.error, data, tx) =>
    { tx.note (.ended tx.userId .failed) with sTxb := data, sTxLen := 0, sTxError := tx.sTxError + 1 }

/-- Put a frame in the arp buffer, whatever is in it. -/
def keepArp (tx : TapTx) (id : Nat) (frame : Octets) : TapTx :=
  { tx with
    sArpBuffer := put tx.sArpBuffer 0 frame
    sArpLen := frame.length
    arpId := id
    frames := if tx.sArpLen > 0 then tx.frames ++ [.ended tx.arpId (.replaced id)] else tx.frames }

/-- Put a frame made by the arp code in the arp buffer and try it. -/
def sendNewArp (sizes : BitVec 32) (tx : TapTx) (frame : Octets) : TapTx :=
  ((tx.hand .arp frame).keepArp tx.handed frame).sendArp sizes

/-- Try an arp reply from the receive buffer; one that the gateware is too busy for takes the
place of whatever is in the arp buffer. -/
def sendReply (sizes : BitVec 32) (tx : TapTx) (rxb : Bytes) (len : Nat) : FrameResult × Bytes × TapTx :=
  let id := tx.handed
  match (tx.hand .arp (ByteBlock.load rxb 0 len)).writeFrameFpga sizes id .arp rxb len with
  | (.busy, data, tx) => (.busy, data, tx.keepArp id (ByteBlock.load data 0 len))
  | (.done, data, tx) => (.done, data, { tx with sTxArp := tx.sTxArp + 1 })
  | (.error, data, tx) => (.error, data, { tx.note (.ended id .failed) with sTxError := tx.sTxError + 1 })

/-- Try a new frame from the transmit buffer. -/
def sendUser (sizes : BitVec 32) (tx : TapTx) (txb : Bytes) (len : Nat) : TapTx :=
  { tx.hand .user (ByteBlock.load txb 0 len) with sTxb := txb, sTxLen := len, userId := tx.handed }.transmitFrameFpga sizes

/-- Try a dhcp message. Only an error is told to the code that asked for the message. -/
def sendDhcp (sizes : BitVec 32) (tx : TapTx) (frame : Bytes) (len : Nat) : Bool × TapTx :=
  let id := tx.handed
  match (tx.hand .dhcp (ByteBlock.load frame 0 len)).writeFrameFpga sizes id .dhcp frame len with
  | (.busy, data, tx) => (true, { tx with sDhcpTxBuffer := data })
  | (.done, data, tx) => (true, { tx with sDhcpTxBuffer := data, sTxDhcp := tx.sTxDhcp + 1 })
  | (.error, data, tx) =>
    (false, { tx.note (.ended id .failed) with sDhcpTxBuffer := data, sTxError := tx.sTxError + 1 })

end TapTx

end Katcp
