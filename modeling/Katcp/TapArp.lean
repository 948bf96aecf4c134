import Katcp.TapFrames
import Mathlib.Logic.Function.Basic
import Mathlib.Algebra.Group.Nat.Defs

namespace Katcp

open BitMemory ByteBlock

/-- The periods at which something is done: now, the amount by which it grows, first and last. -/
structure TapPeriod where
  current : Nat
  increment : Nat
  start : Nat
  stop : Nat
deriving DecidableEq, Repr

/-- What the maintenance of the arp table does: an entry gets a delay until it is due, the sweep
reaches an entry, which may be our own, an entry is queried or announced, a lease makes the
announcement of an entry necessary, time goes on, a sweep ends. -/
inductive ArpEvent
  | refreshed (index delay : Nat)
  | reached (index : Nat) (own : Bool)
  | queried (index : Nat)
  | announced (index : Nat)
  | leased (index : Nat)
  | ticked
  | swept
deriving DecidableEq, Repr

/-- The arp table of an instance, with the record of its maintenance. -/
structure TapArp where
  sSelf : Nat
  sIndex : Nat
  sIteration : Nat
  sSpamPeriod : TapPeriod
  sAnnouncePeriod : TapPeriod
  sValidPeriod : Nat
  sTableSize : Nat
  sArpTable : Nat → Octets
  sArpFresh : Nat → Nat
  sweeps : List ArpEvent

def getapArpCache : Nat := 256
def cacheDivisor : Nat := 4
def smallDelay : Nat := 10
def coprimeA : Nat := 5
def coprimeB : Nat := 23
def coprimeC : Nat := 101
def uint32Max : Nat := 2 ^ 32 - 1

/-- Arithmetic of 32 bits without sign. -/
def u32 (n : Nat) : Nat := n % 2 ^ 32

namespace TapArp

def note (a : TapArp) (e : ArpEvent) : TapArp := { a with sweeps := a.sweeps ++ [e] }

/-- An entry becomes due a delay from now. -/
def refresh (a : TapArp) (index delay : Nat) : TapArp :=
  { a with
    sArpFresh := Function.update a.sArpFresh index (u32 (a.sIteration + delay))
    sweeps := a.sweeps ++ [.refreshed index delay] }

def tick (a : TapArp) : TapArp :=
  { a with sIteration := u32 (a.sIteration + 1), sweeps := a.sweeps ++ [.ticked] }

def computeSpamRate (a : TapArp) (index : Nat) : Nat × TapArp :=
  let current := if a.sSpamPeriod.current ≥ a.sSpamPeriod.stop then a.sSpamPeriod.stop else a.sSpamPeriod.current
  let third := current / 3
  let extra := u32 (third / a.sTableSize * index)
  let third := if third ≤ 0 then 1 else third
  let spread := u32 (index * coprimeA + a.sIteration * coprimeB + a.sSelf * current)
  (u32 (2 * third + if spread % 3 ≠ 0 then extra else third),
    { a with sSpamPeriod := { a.sSpamPeriod with current } })

def fixupSpamRate (a : TapArp) : TapArp :=
  let current := u32 (a.sSpamPeriod.current + a.sSpamPeriod.increment)
  { a with sSpamPeriod := { a.sSpamPeriod with
      current := if current > a.sSpamPeriod.stop then a.sSpamPeriod.stop else current } }

def computeAnnounceRate (a : TapArp) : Nat × TapArp :=
  if a.sAnnouncePeriod.current ≥ a.sAnnouncePeriod.stop then (a.sAnnouncePeriod.stop, a)
  else
    let current := u32 (a.sAnnouncePeriod.current + a.sAnnouncePeriod.increment)
    (current, { a with sAnnouncePeriod := { a.sAnnouncePeriod with current } })

/-- The delay until our own entry is announced again. -/
def announce (a : TapArp) : TapArp :=
  let (rate, a) := (a.note (.announced a.sSelf)).computeAnnounceRate
  a.refresh a.sSelf rate

/-- The delay until an entry is queried again. -/
def query (a : TapArp) (index : Nat) : TapArp :=
  let (rate, a) := (a.note (.queried index)).computeSpamRate index
  a.refresh index rate

/-- The sweep reaches an entry. -/
def reach (a : TapArp) : TapArp := a.note (.reached a.sIndex (a.sIndex = a.sSelf))

/-- The sweep goes on to the next entry. -/
def advance (a : TapArp) : TapArp := { a with sIndex := a.sIndex + 1 }

/-- The sweep starts again. -/
def endSweep (a : TapArp) : TapArp := { a.fixupSpamRate.note .swept with sIndex := 1 }.tick

def setEntryArp (a : TapArp) (index : Nat) (mac : Octets) (fresh : Nat) : TapArp :=
  if index > a.sTableSize then a
  else { a.refresh index fresh with sArpTable := Function.update a.sArpTable index mac }

/-- The delay of a station that has just been heard of. -/
def validDelay (a : TapArp) (index : Nat) : Nat :=
  a.sValidPeriod + (a.sTableSize - if index > a.sSelf then index - a.sSelf else a.sSelf - index)

/-- The first delay of an entry after a start or a reload. -/
def firstDelay (a : TapArp) (i : Nat) : Nat :=
  2 + (a.sSelf + i * coprimeC) % (getapArpCache / cacheDivisor)

/-- A reload makes every entry between the first and the last due soon. -/
def tapReloadArp (a : TapArp) (mac : Octets) : TapArp :=
  let a := (List.range' 1 (getapArpCache - 2)).foldl (fun a i => a.refresh i (a.firstDelay i)) a
  if 0 < a.sSelf then a.setEntryArp a.sSelf mac 1 else a

/-- The first entries of the table. -/
def fillArp (a : TapArp) (broadcast mac : Octets) : TapArp :=
  let a := (List.range getapArpCache).foldl (fun a i => a.setEntryArp i broadcast (a.firstDelay i)) a
  if 0 < a.sSelf then a.setEntryArp a.sSelf mac 1 else a

/-- How long ago an entry became due, as the sweep computes it. -/
def age (a : TapArp) (consider : Nat) : Nat :=
  if a.sIteration ≥ consider then a.sIteration - consider else uint32Max - (consider - a.sIteration)

end TapArp

end Katcp
