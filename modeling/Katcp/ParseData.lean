import Katcp.Memory

namespace Katcp

open Memory

abbrev Byte := UInt8

def byte (c : Char) : Byte := UInt8.ofNat c.toNat

def isType (c : Byte) : Bool := c = byte '#' || c = byte '!' || c = byte '?'

def isBlank (c : Byte) : Bool := c = byte ' ' || c = byte '\t'

def isNewline (c : Byte) : Bool := c = byte '\n' || c = byte '\r'

def isDigit (c : Byte) : Bool := byte '0' ≤ c && c ≤ byte '9'

inductive ParseState where
  | fresh | command | whitespace | arg | tag | escape | fake | done
  deriving DecidableEq, Repr

structure Larg where
  aBegin : Nat
  aEnd : Nat
  aEscape : Nat
  deriving DecidableEq, Repr

/-- `katcl_parse` without its magic and reference count: `p_size` is the length
of `pBuffer`, `p_count` the length of `pArgs`, and `p_current` an index into `pArgs`. -/
structure Parse where
  pState : ParseState
  pBuffer : List Byte
  pHave : Nat
  pUsed : Nat
  pKept : Nat
  pArgs : List Larg
  pCurrent : Option Nat
  pGot : Nat
  pTag : Int32
  deriving DecidableEq, Repr

def argsInc : Nat := 8

def createParse : Parse where
  pState := .fresh
  pBuffer := []
  pHave := 0
  pUsed := 0
  pKept := 0
  pArgs := []
  pCurrent := none
  pGot := 0
  pTag := -1

namespace Parse

def pSize (p : Parse) : Nat := p.pBuffer.length

def pCount (p : Parse) : Nat := p.pArgs.length

/-- Bytes of the line that were received but not yet looked at. -/
def unread (p : Parse) : List Byte := slice p.pBuffer p.pUsed p.pHave

def argText (p : Parse) (la : Larg) : List Byte := slice p.pBuffer la.aBegin la.aEnd

def editCurrent (p : Parse) (f : Larg → Larg) : Parse :=
  match p.pCurrent with
  | some i => { p with pArgs := p.pArgs.modify i f }
  | none => p

end Parse

/-- New cells of the argument array hold whatever the allocator returns; every field
is written before it is read. -/
def checkArray (p : Parse) : Parse :=
  if p.pGot < p.pCount then
    { p with pCurrent := some p.pGot }
  else
    { p with pArgs := resize ⟨0, 0, 0⟩ p.pArgs (p.pCount + argsInc), pCurrent := some p.pGot }

def stashRemainder (p : Parse) (buffer : List Byte) : Parse :=
  let need := p.pUsed + buffer.length
  let grown := if need > p.pSize then resize 0 p.pBuffer need else p.pBuffer
  { p with pBuffer := copyInto grown p.pUsed buffer, pHave := need }

namespace Parse

def beginArg (p : Parse) : Parse :=
  (checkArray p).editCurrent fun la => { la with aBegin := p.pKept, aEscape := 0 }

def store (p : Parse) (c : Byte) : Parse :=
  { p with pBuffer := p.pBuffer.set p.pKept c }

def endArg (p : Parse) : Parse :=
  let q := (p.store 0).editCurrent fun la => { la with aEnd := p.pKept }
  { q with pGot := p.pGot + 1 }

def advance (p : Parse) (increment : Nat) : Parse :=
  { p with pUsed := p.pUsed + 1, pKept := p.pKept + increment }

def enter (p : Parse) (s : ParseState) : Parse := { p with pState := s }

end Parse

def unescape (c : Byte) : Byte :=
  if c = byte 'e' then 27
  else if c = byte 'n' then byte '\n'
  else if c = byte 'r' then byte '\r'
  else if c = byte 't' then byte '\t'
  else if c = byte '0' then 0
  else if c = byte '_' then byte ' '
  else c

/-- One turn of the loop of `parse_katcl` on the byte `c` at `p_used`; `none` is the
return of -1 on a bad tag. -/
def parseByte (p : Parse) (c : Byte) : Option Parse :=
  match p.pState with
  | .fake | .done => some (p.advance 0)
  | .fresh =>
    if isType c then some (((p.beginArg.enter .command).store c).advance 1)
    else some (p.advance 0)
  | .command =>
    if c = byte '[' then
      let q := p.endArg
      some ({ q with pTag := 0, pState := .tag }.advance 1)
    else if isBlank c then some ((p.endArg.enter .whitespace).advance 1)
    else if isNewline c then some ((p.endArg.enter .done).advance 1)
    else some ((p.store c).advance 1)
  | .tag =>
    if isDigit c then
      some ({ p with pTag := p.pTag * 10 + Int32.ofNat (c.toNat - (byte '0').toNat) }.advance 0)
    else if c = byte ']' then some ((p.enter .whitespace).advance 0)
    else none
  | .whitespace =>
    if isBlank c then some (p.advance 0)
    else if isNewline c then some ((p.enter .done).advance 0)
    else if c = byte '\\' then some ((p.beginArg.enter .escape).advance 0)
    else some (((p.beginArg.store c).enter .arg).advance 1)
  | .arg =>
    if isBlank c then some ((p.endArg.enter .whitespace).advance 1)
    else if isNewline c then some ((p.endArg.enter .done).advance 1)
    else if c = byte '\\' then some ((p.enter .escape).advance 0)
    else some ((p.store c).advance 1)
  | .escape =>
    let q := if c = byte '@' then p else p.store (unescape c)
    some (((q.editCurrent fun la => { la with aEscape := 1 }).enter .arg).advance
      (if c = byte '@' then 0 else 1))

/-- The loop of `parse_katcl`; the failed parse is kept as the loop left it. -/
def parseLoop : Nat → Parse → Except Parse Parse
  | 0, p => .ok p
  | n + 1, p =>
    if p.pUsed < p.pHave ∧ p.pState ≠ .done then
      match p.pBuffer[p.pUsed]? with
      | none => .ok p
      | some c =>
        match parseByte p c with
        | none => .error p
        | some q => parseLoop n q
    else .ok p

end Katcp
