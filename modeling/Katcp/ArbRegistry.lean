import Katcp.DuplexData
import Katcp.Machine
import Katcp.SwapVector

namespace Katcp

open SwapVector

inductive ArbReap
  | live
  | fade
  | gone
  | free
deriving DecidableEq, Repr

/-- `KATCP_ARB_READ`, `KATCP_ARB_WRITE` and `KATCP_ARB_STOP`. -/
def arbRead : Nat := 1
def arbWrite : Nat := 2
def arbStop : Nat := 4

structure Arb where
  aName : Option Text
  aFd : Int
  aType : Nat
  aMode : Nat
  aReap : ArbReap
deriving DecidableEq, Repr

namespace Arb

def wants (x : Arb) (mode : Nat) : Bool := x.aMode &&& mode ≠ 0

/-- What an arb that has to go waits for: its stop callback, or only to be destroyed. -/
def leaving (x : Arb) : ArbReap := if x.wants arbStop then .fade else .gone

def bears (x : Arb) (name : Text) (type : Nat) : Bool :=
  (type = 0 || x.aType = type) && x.aName = some name

end Arb

/-- Where the server is: in its own code, in one of the loops over the vector, or in a callback
that the loop has called for the arb `a` at `i`. -/
inductive ArbPhase
  | idle
  | loading (i : Nat)
  | running (i : Nat)
  | inCall (i a : Nat)
  | inStop (i a : Nat)
  | closing (i : Nat)
  | inClose (i a : Nat)
  | crashed
deriving DecidableEq, Repr

inductive ArbTurn
  | out
  | call
  | stop
deriving DecidableEq, Repr

/-- What is told of a run: the arb `a` was taken down, and asked for the stop callback then or did
not; its turn came while it was to be told so, and it still asked or did not; its callback was
called; it was destroyed; a look up returned it. -/
inductive ArbEvent
  | down (a : Nat) (asks : Bool)
  | due (a : Nat) (asks : Bool)
  | called (a mode : Nat)
  | freed (a : Nat)
  | found (name : Text) (type : Nat) (result : Option Nat)
deriving DecidableEq, Repr

inductive ArbAction
  | create (name : Option Text) (type : Nat) (fd : Int) (mode : Nat)
  | unlink (a : Nat)
  | mode (a mode : Nat)
  | find (name : Text) (type : Nat)
  | load
  | run (read write : List Int)
  | close
  | next
  | ret (result : Int)
deriving DecidableEq, Repr

/-- The registry: every arb ever made, the memory of those that were destroyed included, and the
vector of the registered ones. -/
structure Arbs where
  arbs : List Arb
  sExtras : List (Option Nat)
  sRead : List Int
  sWrite : List Int
  sMax : Int
  sBusy : Bool
  ran : Nat
  phase : ArbPhase
deriving DecidableEq, Repr

def noArbs : Arbs := ⟨[], [], [], [], -1, false, 0, .idle⟩

namespace Arbs

/-- Code outside of the loops has control, and may call the registry. -/
def calm (s : Arbs) : Bool :=
  match s.phase with
  | .idle | .inCall .. | .inStop .. | .inClose .. => true
  | _ => false

def crash (s : Arbs) : Arbs := { s with phase := .crashed }

def setArb (s : Arbs) (a : Nat) (x : Arb) : Arbs := { s with arbs := s.arbs.set a x }

/-- The arb at `i` in the vector; `some none` is a null pointer, or one to no arb. -/
def slot (s : Arbs) (i : Nat) : Option (Option (Nat × Arb)) :=
  s.sExtras[i]?.map fun entry => entry.bind fun a => s.arbs[a]?.map fun x => (a, x)

def createTypeArb (s : Arbs) (name : Option Text) (type : Nat) (fd : Int) (mode : Nat) : Arbs :=
  { s with
    arbs := s.arbs ++ [⟨name, fd, type, mode &&& (arbRead ||| arbWrite ||| arbStop), .live⟩]
    sExtras := s.sExtras ++ [some s.arbs.length] }

/-- Whether a callback of `a` is running, and which. -/
def turn (s : Arbs) (a : Nat) : ArbTurn :=
  match s.phase with
  | .inCall _ b => if b = a then .call else .out
  | .inStop _ b | .inClose _ b => if b = a then .stop else .out
  | _ => .out

def unlinkArb (s : Arbs) (a : Nat) (x : Arb) : Option (Arbs × List ArbEvent) :=
  match x.aReap with
  | .live =>
    some (s.setArb a { x with aFd := if 0 ≤ x.aFd then -1 else x.aFd, aReap := x.leaving },
      if s.turn a = .stop then [] else [.down a (x.wants arbStop)])
  | .fade | .gone => some (s, [])
  -- the memory was released, and nobody can still name the arb
  | .free => none

def modeArb (s : Arbs) (a : Nat) (x : Arb) (mode : Nat) : Option Arbs :=
  if x.aReap = .free then none
  else some (s.setArb a { x with aMode := mode &&& (arbRead ||| arbWrite ||| arbStop) })

/-- `none` where the code reads through a null pointer. -/
def findEntries (arbs : List Arb) (name : Text) (type : Nat) : List (Option Nat) → Option (Option Nat)
  | [] => some none
  | none :: _ => none
  | some a :: rest =>
    match arbs[a]? with
    | none => none
    | some x => if x.bears name type then some (some a) else findEntries arbs name type rest

def findTypeArb (s : Arbs) (name : Text) (type : Nat) : Option (Option Nat) :=
  findEntries s.arbs name type s.sExtras

def destroyArb (s : Arbs) (a : Nat) (x : Arb) : Arbs × List ArbEvent :=
  if x.aReap = .gone then (s.setArb a ⟨none, -1, 0, 0, .free⟩, [.freed a]) else (s.crash, [])

/-- What the load loop does for a live arb. -/
def watch (s : Arbs) (x : Arb) : Arbs :=
  if 0 ≤ x.aFd then
    { s with
      sRead := if x.wants arbRead then x.aFd :: s.sRead else s.sRead
      sWrite := if x.wants arbWrite then x.aFd :: s.sWrite else s.sWrite
      sMax := if x.wants (arbWrite ||| arbRead) ∧ s.sMax < x.aFd then x.aFd else s.sMax }
  else s

def loadNext (s : Arbs) (i : Nat) : Arbs × List ArbEvent :=
  match s.slot i with
  | none => ({ s with phase := .idle }, [])
  | some none => (s.crash, [])
  | some (some (a, x)) =>
    match x.aReap with
    | .live => ({ s.watch x with phase := .loading (i + 1) }, [])
    | .fade => ({ s with sBusy := true, phase := .loading (i + 1) }, [])
    | .gone => destroyArb { s with sExtras := removeAt s.sExtras i } a x
    | .free => (s.crash, [])

/-- What is ready on the descriptor of an arb. -/
def readyMode (s : Arbs) (fd : Int) : Nat :=
  (if fd ∈ s.sRead then arbRead else 0) ||| (if fd ∈ s.sWrite then arbWrite else 0)

def runNext (s : Arbs) (i : Nat) : Arbs × List ArbEvent :=
  match s.slot i with
  | none => ({ s with phase := .idle }, [])
  | some none => (s.crash, [])
  | some (some (a, x)) =>
    match x.aReap with
    | .live =>
      if 0 ≤ x.aFd ∧ x.wants (s.readyMode x.aFd) then
        ({ s with ran := s.ran + 1, phase := .inCall i a }, [.called a (s.readyMode x.aFd)])
      else ({ s with phase := .running (i + 1) }, [])
    | .fade =>
      if x.wants arbStop then ({ s with phase := .inStop i a }, [.due a true, .called a arbStop])
      else ({ s.setArb a { x with aReap := .gone } with phase := .running (i + 1) }, [.due a false])
    | .gone => ({ s with phase := .running (i + 1) }, [])
    | .free => (s.crash, [])

/-- The end of a turn of the final teardown. -/
def closeOut (s : Arbs) (i a : Nat) (x : Arb) : Arbs × List ArbEvent :=
  destroyArb { s with sExtras := s.sExtras.set i none, phase := .closing (i + 1) } a { x with aReap := .gone }

def closeNext (s : Arbs) (i : Nat) : Arbs × List ArbEvent :=
  match s.slot i with
  | none => ({ s with sExtras := [], phase := .idle }, [])
  | some none => (s.crash, [])
  | some (some (a, x)) =>
    match x.aReap with
    | .live =>
      if x.wants arbStop then
        ({ s with phase := .inClose i a }, [.down a true, .due a true, .called a arbStop])
      else ((s.closeOut i a x).1, .down a false :: .due a false :: (s.closeOut i a x).2)
    | .fade =>
      if x.wants arbStop then ({ s with phase := .inClose i a }, [.due a true, .called a arbStop])
      else ((s.closeOut i a x).1, .due a false :: (s.closeOut i a x).2)
    | .gone => s.closeOut i a x
    | .free => (s.crash, [])

def next (s : Arbs) : Option (Arbs × List ArbEvent) :=
  match s.phase with
  | .loading i => some (s.loadNext i)
  | .running i => some (s.runNext i)
  | .closing i => some (s.closeNext i)
  | _ => none

/-- A callback returns, and the loop that called it goes on. -/
def ret (s : Arbs) (result : Int) : Option (Arbs × List ArbEvent) :=
  match s.phase with
  | .inCall i a => s.arbs[a]?.map fun x =>
    if result ≠ 0 then
      ({ s.setArb a { x with aReap := x.leaving } with phase := .running (i + 1) }, [.down a (x.wants arbStop)])
    else ({ s with phase := .running (i + 1) }, [])
  | .inStop i a => s.arbs[a]?.map fun x =>
    ({ s.setArb a { x with aReap := .gone } with phase := .running (i + 1) }, [])
  | .inClose i a => s.arbs[a]?.map fun x => s.closeOut i a x
  | _ => none

def act (s : Arbs) : ArbAction → Option (Arbs × List ArbEvent)
  | .create name type fd mode => if s.calm then some (s.createTypeArb name type fd mode, []) else none
  | .unlink a => if s.calm then s.arbs[a]?.bind fun x => s.unlinkArb a x else none
  | .mode a mode =>
    if s.calm then s.arbs[a]?.bind fun x => (s.modeArb a x mode).map fun t => (t, []) else none
  | .find name type =>
    if s.calm then
      match s.findTypeArb name type with
      | none => some (s.crash, [])
      | some result => some (s, [.found name type result])
    else none
  | .load => if s.phase = .idle then some ({ s with phase := .loading 0 }, []) else none
  | .run read write =>
    if s.phase = .idle then
      some ({ s with sRead := read, sWrite := write, ran := 0, phase := .running 0 }, [])
    else none
  | .close => if s.phase = .idle then some ({ s with phase := .closing 0 }, []) else none
  | .next => s.next
  | .ret result => s.ret result

end Arbs

def arbMachine : Machine Arbs ArbAction ArbEvent where
  start := noArbs
  step s a := (s.act a).map Prod.fst
  emits s a := ((s.act a).map Prod.snd).getD []

end Katcp
