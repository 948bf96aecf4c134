import Katcp.BitMemory
import Mathlib.Algebra.Group.Nat.Defs

namespace Katcp

open BitMemory

inductive FpgaState
  | down
  | programmed
  | mapped
  | ready
deriving DecidableEq, Repr

structure AccessMode where
  readable : Bool
  writable : Bool
deriving DecidableEq, Repr

/-- A register as it is stored: its base and offset are normalised by words of 32 bits when it
is defined. -/
structure TbsEntry where
  ePosBase : Nat
  eLenBase : Nat
  ePosOffset : Nat
  eLenOffset : Nat
  eMode : AccessMode
  posBase_lt : ePosBase < 2 ^ 32
  lenBase_lt : eLenBase < 2 ^ 32
  posOffset_lt : ePosOffset < 32
  lenOffset_lt : eLenOffset < 32
deriving DecidableEq, Repr

theorem TbsEntry.zero_base : 0 < 2 ^ 32 := by decide

theorem TbsEntry.sixteen_base : 16 < 2 ^ 32 := by decide

theorem TbsEntry.zero_offset : 0 < 32 := by decide

/-- The first bit of a register in the mapping. -/
def TbsEntry.pos (te : TbsEntry) : Nat := 8 * te.ePosBase + te.ePosOffset

/-- The number of bits of a register. -/
def TbsEntry.len (te : TbsEntry) : Nat := 8 * te.eLenBase + te.eLenOffset

/-- What the register commands use of the fpga besides the content of its memory. A mapping is
a number of whole pages within the addresses of 32 bits that its host has. -/
structure FpgaWindow where
  rFpga : FpgaState
  rMap : Nat
  rMapSize : Nat
  pages : rMapSize % 4096 = 0
  map_lt : rMap + rMapSize < 2 ^ 32
deriving DecidableEq, Repr

namespace FpgaWindow

variable {win : FpgaWindow} {m next : Bytes} {a p : Nat} {w : BitVec 32}

/-- Reading a word of the mapping, none where that is a fault. -/
def load (win : FpgaWindow) (m : Bytes) (a : Nat) : Option (BitVec 32) :=
  if a + 4 ≤ win.rMapSize then some (word m a) else none

/-- The test of an address against the end of the mapping, in addresses of the host. -/
def beyond (win : FpgaWindow) (j : Nat) : Bool := win.rMap + win.rMapSize < (win.rMap + j) % 2 ^ 32

def store (win : FpgaWindow) (m : Bytes) (a : Nat) (w : BitVec 32) : Option Bytes :=
  if a + 4 ≤ win.rMapSize then some (setWord m a w) else none

theorem mapSize_lt (win : FpgaWindow) : win.rMapSize < 2 ^ 32 :=
  Nat.lt_of_le_of_lt (Nat.le_add_left _ _) win.map_lt

theorem beyond_of_le (h : a ≤ win.rMapSize) : win.beyond a = false := by
  have hlt := win.map_lt
  rw [beyond, Nat.mod_eq_of_lt (by omega)]
  exact decide_eq_false (by omega)

theorem load_eq (h : a + 4 ≤ win.rMapSize) : win.load m a = some (word m a) := if_pos h

theorem store_eq (h : a + 4 ≤ win.rMapSize) : win.store m a w = some (setWord m a w) := if_pos h

theorem load_some (h : win.load m a = some w) : w = word m a ∧ a + 4 ≤ win.rMapSize := by
  unfold load at h
  split at h
  next hle => exact ⟨(Option.some.inj h).symm, hle⟩
  next => simp at h

theorem store_some (h : win.store m a w = some next) : next = setWord m a w ∧ a + 4 ≤ win.rMapSize := by
  unfold store at h
  split at h
  next hle => exact ⟨(Option.some.inj h).symm, hle⟩
  next => simp at h

end FpgaWindow

/-- A page of the fpga. -/
def pageWindow : FpgaWindow := ⟨.ready, 0x40000000, 4096, by decide, by decide⟩

end Katcp
