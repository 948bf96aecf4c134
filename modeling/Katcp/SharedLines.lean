import Katcp.SharedHints

namespace Katcp

/-- A message that several lines may refer to, with its reference count. `made` is not in the
source: the arguments it had before any line wrote it. -/
structure SharedParse where
  parse : Parse
  refs : Nat
  made : List Arg

abbrev ParseStore := Nat → Option SharedParse

namespace ParseStore

def parse (st : ParseStore) (id : Nat) : Parse := ((st id).map SharedParse.parse).getD createParse

def made (st : ParseStore) (id : Nat) : List Arg := ((st id).map SharedParse.made).getD []

def createReferenced (st : ParseStore) (id : Nat) (p : Parse) : ParseStore :=
  Function.update st id (some ⟨p, 1, p.args⟩)

/-- `copy_parse_katcl`; `none` where it returns NULL. -/
def copyParse (st : ParseStore) (id : Nat) : Option ParseStore :=
  match st id with
  | none => none
  | some sp =>
    if sp.parse.pState ≠ .done then none
    else some (Function.update st id (some { sp with refs := sp.refs + 1 }))

def destroyParse (st : ParseStore) (id : Nat) : ParseStore :=
  match st id with
  | none => st
  | some sp => Function.update st id (if sp.refs ≤ 1 then none else some { sp with refs := sp.refs - 1 })

/-- What `clear_parse_katcl` keeps are the buffer and the argument array. -/
def clearParse (p : Parse) : Parse :=
  { p with pState := .fresh, pHave := 0, pUsed := 0, pKept := 0, pTag := -1, pGot := 0, pCurrent := none }

/-- `reuse_parse_katcl`, where `fresh` is what the allocator would give; the message to go on with. -/
def reuseParse (st : ParseStore) (id fresh : Nat) : Option (ParseStore × Nat) :=
  match st id with
  | none => none
  | some sp =>
    if sp.refs ≤ 1 then some (Function.update st id (some { sp with parse := clearParse sp.parse, made := [] }), id)
    else if (st fresh).isSome then none
    else some ((st.createReferenced fresh createParse).destroyParse id, fresh)

/-- A message is written to: its arguments are set up, or the hint of one is. -/
def setParse (st : ParseStore) (id : Nat) (p : Parse) : ParseStore :=
  Function.update st id ((st id).map fun sp => { sp with parse := p })

end ParseStore

/-- A line whose queue holds references; the queue of `line` itself is not used. -/
structure HeldLine where
  line : Line
  ids : List Nat

def queueOf (ps : List Parse) : RingQueue Parse := ps.foldl RingQueue.addTail RingQueue.empty

/-- The line with the messages that its queue refers to, as they now are. -/
def viewLine (st : ParseStore) (h : HeldLine) : Line :=
  { h.line with lQueue := queueOf (h.ids.map st.parse) }

structure SharedWriter where
  store : ParseStore
  held : HeldLine
  state : WriteState
  wire : List Byte
  answers : List SendAnswer

namespace SharedWriter

def view (w : SharedWriter) : Writer := ⟨viewLine w.store w.held, w.state, w.wire, w.answers⟩

/-- What a turn of the loop leaves: it can have rewritten the hint of the first message of the
queue, or have taken that message off it. -/
def after (w : SharedWriter) (v : Writer) : SharedWriter :=
  match w.held.ids with
  | [] => ⟨w.store, ⟨v.line, []⟩, v.state, v.wire, v.answers⟩
  | id :: rest =>
    match v.line.lQueue.getHead with
    | some p =>
      if rest.length < v.line.lQueue.count then
        ⟨w.store.setParse id p, ⟨v.line, id :: rest⟩, v.state, v.wire, v.answers⟩
      else ⟨w.store.destroyParse id, ⟨v.line, rest⟩, v.state, v.wire, v.answers⟩
    | none => ⟨w.store.destroyParse id, ⟨v.line, rest⟩, v.state, v.wire, v.answers⟩

end SharedWriter

/-- The loop of `write_katcl` on messages that other lines refer to as well. -/
def sharedLoop : Nat → SharedWriter → WriteResult × SharedWriter
  | 0, w => (.unfinished, w)
  | n + 1, w =>
    match writeTurn w.view with
    | .stop result v => (result, w.after v)
    | .go v => sharedLoop n (w.after v)

def sharedWrite (st : ParseStore) (h : HeldLine) (answers : List SendAnswer) : WriteResult × SharedWriter :=
  sharedLoop (writeFuel (viewLine st h) answers) ⟨st, h, .fill, [], answers⟩

/-- The lines of a program and the messages it has; `owned` counts the references to a message
that are not in the queue of a line. -/
structure Sharing where
  store : ParseStore
  owned : Nat → Nat
  lines : List HeldLine

/-- `change` is any of the functions that set up a message. -/
inductive SharingCall where
  | create (id : Nat) (p : Parse)
  | change (id : Nat) (p : Parse)
  | queue (k id : Nat)
  | copy (id : Nat)
  | destroy (id : Nat)
  | reuse (id fresh : Nat)
  | write (k : Nat) (answers : List SendAnswer)

inductive SharingEvent where
  | added (k : Nat) (args : List Arg)
  | sent (k : Nat) (bytes : List Byte)

namespace Sharing

def act (s : Sharing) : SharingCall → Option (Sharing × List SharingEvent)
  | .create id p =>
    if (s.store id).isSome then none
    else some ({ s with store := s.store.createReferenced id p, owned := Function.update s.owned id 1 }, [])
  | .change id p =>
    match s.store id with
    | none => none
    | some sp =>
      if s.owned id = 0 ∨ sp.parse.pState = .done then none
      else some ({ s with store := Function.update s.store id (some { sp with parse := p, made := p.args }) }, [])
  | .queue k id =>
    match s.lines[k]?, s.store.copyParse id with
    | some h, some st =>
      if s.owned id = 0 then none
      else some ({ s with store := st, lines := s.lines.set k { h with ids := h.ids ++ [id] } },
        [.added k (s.store.made id)])
    | _, _ => none
  | .copy id =>
    match s.store.copyParse id with
    | none => none
    | some st =>
      if s.owned id = 0 then none
      else some ({ s with store := st, owned := Function.update s.owned id (s.owned id + 1) }, [])
  | .destroy id =>
    if s.owned id = 0 then none
    else some ({ s with
      store := s.store.destroyParse id, owned := Function.update s.owned id (s.owned id - 1) }, [])
  | .reuse id fresh =>
    if s.owned id = 0 then none
    else match s.store.reuseParse id fresh with
      | none => none
      | some (st, next) =>
        if next = id then some ({ s with store := st }, [])
        else some ({ s with
          store := st
          owned := Function.update (Function.update s.owned id (s.owned id - 1)) next 1 }, [])
  | .write k answers =>
    match s.lines[k]? with
    | none => none
    | some h =>
      match sharedWrite s.store h answers with
      | (.aborted, _) => none
      | (.unfinished, _) => none
      | (_, w) => some ({ s with store := w.store, lines := s.lines.set k w.held }, [.sent k w.wire])

end Sharing

/-- `n` lines with nothing to write. -/
def sharingMachine (n : Nat) : Machine Sharing SharingCall SharingEvent where
  start := ⟨fun _ => none, fun _ => 0, List.replicate n ⟨createLine, []⟩⟩
  step s c := (s.act c).map Prod.fst
  emits s c := ((s.act c).map Prod.snd).getD []

/-- What is queued lies in its buffer and does not begin with an empty argument. -/
def queuesSound (s : Sharing) : SharingCall → Prop
  | .queue _ id => Sound (s.store.parse id)
  | _ => True

def sentBy (k : Nat) (log : List SharingEvent) : List Byte :=
  log.flatMap fun
    | .sent j bytes => if j = k then bytes else []
    | .added _ _ => []

def addedTo (k : Nat) (log : List SharingEvent) : List (List Arg) :=
  log.filterMap fun
    | .added j args => if j = k then some args else none
    | .sent _ _ => none

end Katcp
