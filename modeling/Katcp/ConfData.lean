import Katcp.DuplexData

namespace Katcp

/-- `S_START` to `S_MLVALUE` -/
inductive ParserState
  | start
  | comment
  | label
  | setting
  | value
  | mlvalue
deriving DecidableEq, Repr

/-- `struct p_setting`; the comments are `none` where the memory for them was never written. -/
structure PSetting where
  str : Text
  values : List Text
  comments : Option (List Text)
deriving DecidableEq, Repr

structure PLabel where
  str : Text
  settings : List PSetting
  comments : Option (List Text)
deriving DecidableEq, Repr

/-- The part of `struct p_parser` that holds what was read. -/
structure PTree where
  labels : List PLabel
  comments : List Text
deriving DecidableEq, Repr

def noTree : PTree := ⟨[], []⟩

def newLine : Byte := 10
def carriageReturn : Byte := 13
def olabel : Byte := byte '['
def clabel : Byte := byte ']'
def settingMark : Byte := byte '='
def valueMark : Byte := byte ','
def commentMark : Byte := byte '#'

def endsLine (c : Byte) : Bool := c = newLine || c = carriageReturn

/-- The bytes that `rm_whitespace` leaves out. -/
def isConfSpace (c : Byte) : Bool := (9 ≤ c && c ≤ 13) || c = 32

def rmWhitespace (str : Text) : Text := (cString str).filter fun c => !isConfSpace c

/-- `len` bytes at `buf + start` -/
def partOf (buf : Text) (start stop : Nat) : Text := (buf.drop start).take (stop - start)

/-- What becomes of the last item of an array. -/
def onLast {α : Type} (f : α → α) (items : List α) : List α :=
  match items.getLast? with
  | none => items
  | some x => items.dropLast ++ [f x]

namespace PTree

/-- A comment belongs to the setting, or the label, that came last. -/
def storeComment (t : PTree) (str : Text) : PTree :=
  if t.labels.isEmpty then { t with comments := t.comments ++ [str] }
  else { t with
    labels := onLast (fun cl =>
      if cl.settings.isEmpty then { cl with comments := cl.comments.map (· ++ [str]) }
      else { cl with
        settings := onLast (fun cs => { cs with comments := cs.comments.map (· ++ [str]) }) cl.settings }) t.labels }

def storeLabel (t : PTree) (str : Text) : PTree := { t with labels := t.labels ++ [⟨str, [], some []⟩] }

/-- `store_setting`: without a label it writes in front of the array. -/
def storeSetting (t : PTree) (str : Text) : Option PTree :=
  if t.labels.isEmpty then none
  else some { t with labels := onLast (fun l => { l with settings := l.settings ++ [⟨str, [], some []⟩] }) t.labels }

def storeValue (t : PTree) (str : Text) : Option PTree :=
  t.labels.getLast?.bind fun l =>
    if l.settings.isEmpty then none
    else some { t with
      labels := onLast (fun l => { l with
        settings := onLast (fun s => { s with values := s.values ++ [str] }) l.settings }) t.labels }

end PTree

structure PParser where
  state : ParserState
  pos : Nat
  tree : PTree
deriving DecidableEq, Repr

namespace PParser

/-- The loop of `start_parser` at the byte `c` of the buffer, which is at `i`. -/
def turn (buf : Text) (p : PParser) (i : Nat) (c : Byte) : Option PParser :=
  match p.state with
  | .comment =>
    if endsLine c then some ⟨.start, i + 1, p.tree.storeComment (cString (partOf buf p.pos i))⟩ else some p
  | .label => if c = clabel then some ⟨.start, i, p.tree.storeLabel (rmWhitespace (partOf buf p.pos i))⟩ else some p
  | .setting => (p.tree.storeSetting (rmWhitespace (partOf buf p.pos (i - 1)))).map fun t => ⟨.value, i, t⟩
  | .value =>
    if c = olabel then some { p with state := .mlvalue, pos := i }
    else if c = valueMark then
      (p.tree.storeValue (rmWhitespace (partOf buf p.pos i))).map fun t => ⟨.value, i + 1, t⟩
    else if endsLine c then
      (p.tree.storeValue (rmWhitespace (partOf buf p.pos i))).map fun t => ⟨.start, i + 1, t⟩
    else some p
  | .mlvalue =>
    if c = clabel then
      (p.tree.storeValue (cString (partOf buf p.pos (i + 1)))).map fun t => ⟨.start, p.pos, t⟩
    else some p
  | .start =>
    if c = commentMark then some { p with state := .comment, pos := i }
    else if c = olabel then some { p with state := .label, pos := i + 1 }
    else if c = settingMark then some { p with state := .setting }
    else if endsLine c then some { p with state := .start, pos := i + 1 }
    else some p

def turns (buf : Text) (p : PParser) (i : Nat) : List Byte → Option PParser
  | [] => some p
  | c :: rest => (p.turn buf i c).bind fun p => p.turns buf (i + 1) rest

end PParser

/-- What `start_parser` ends with, if not with a tree: nothing can be mapped of an empty file, and without
a label there is no place for a setting. -/
inductive LoadError
  | eio
  | wild
deriving DecidableEq, Repr

def startParser (buf : Text) : Except LoadError PTree :=
  if buf.isEmpty then .error .eio
  else match PParser.turns buf ⟨.start, 0, noTree⟩ 0 buf with
    | none => .error .wild
    | some p => .ok p.tree

/-- The values of a setting as `save_tree` writes them. -/
def saveValues : List Text → Text
  | [] => []
  | [v] => v ++ textOf " "
  | v :: vs => v ++ valueMark :: saveValues vs

def saveComments (comments : List Text) : Text := comments.flatMap fun c => c ++ [newLine]

def PSetting.save (s : PSetting) : Option Text := s.comments.map fun comments =>
  textOf "  " ++ s.str ++ textOf " = " ++ saveValues s.values ++ [newLine] ++ saveComments comments

def PLabel.save (l : PLabel) : Option Text :=
  l.comments.bind fun comments => (l.settings.mapM PSetting.save).map fun settings =>
    olabel :: l.str ++ [clabel, newLine] ++ saveComments comments ++ settings.flatten ++ [newLine]

/-- What `save_tree` writes into the file, unless it goes by a number of comments that was never written. -/
def saveTree (t : PTree) : Option Text :=
  (t.labels.mapM PLabel.save).map fun labels => saveComments t.comments ++ labels.flatten

end Katcp
