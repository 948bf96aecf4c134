import Katcp.LineRoundTrip
import Katcp.Kurl
import Katcp.Machine
import Katcp.PastTime

namespace Katcp

open Memory

/-- What one of the `add_*_parse_katcl` functions is given. `starved` is any of them where
there is no memory for the text. -/
inductive Field where
  | buffer (data : Text)
  | string (text : Option Text)
  | args (text : Text)
  | unsigned (v : BitVec 64)
  | signed (v : BitVec 64)
  | hex (v : BitVec 64)
  | double (text : Text)
  | timestamp (now : Option (Nat × Nat))
  | parameter (px : Parse) (index : Nat)
  | trailing (px : Parse) (start : Nat)
  | starved
  deriving DecidableEq

/-- How adding to a message ends: the program aborts, the call returns -1, or the message grew. -/
inductive AddResult where
  | aborted
  | refused
  | added (p : Parse)
  deriving DecidableEq

def AddResult.ofOption : Option Parse → AddResult
  | none => .aborted
  | some p => .added p

def addUnsafe (p : Parse) (first last : Bool) (string : Text) : Option Parse := do
  let p ← beforeAdd p first
  let q := requestSpace p (string.length + 1)
  afterAdd { q with pBuffer := copyInto q.pBuffer q.pKept string } string.length 0 last

/-- `vsnprintf` is tried on a little space, and again on as much as it asked for. -/
def addArgs (p : Parse) (first last : Bool) (text : Text) : Option Parse := do
  let p ← beforeAdd p first
  let q := requestSpace p 8
  let q := if text.length < q.pSize - q.pKept then q else requestSpace q (text.length + 1)
  afterAdd { q with pBuffer := copyInto q.pBuffer q.pKept text } text.length 1 last

/-- The functions that print a number into a space of `limit` bytes. -/
def addPrinted (p : Parse) (first last : Bool) (limit : Nat) (text : Text) : AddResult :=
  match beforeAdd p first with
  | none => .aborted
  | some p =>
    let q := requestSpace p limit
    if text.length = 0 ∨ text.length ≥ limit then .refused
    else .ofOption (afterAdd { q with pBuffer := copyInto q.pBuffer q.pKept text } text.length 0 last)

def hexText (v : Nat) : Text := textOf "0x" ++ (Nat.toDigits 16 v).map byte

def timestampText (sec usec : Nat) : Text :=
  let milli := decimalText (usec / 1000 : Nat)
  (decimalText sec ++ byte '.' :: (List.replicate (3 - milli.length) (byte '0') ++ milli)).take 15

def addTimestamp (p : Parse) (first last : Bool) : Option (Nat × Nat) → AddResult
  | none => .refused
  | some (sec, usec) => .ofOption (addUnsafe p first last (timestampText sec usec))

def addParameter (p : Parse) (first last : Bool) (px : Parse) (index : Nat) : AddResult :=
  match (px.pArgs.take px.pGot)[index]? with
  | none => .refused
  | some la => .ofOption (addBuffer p first last (px.argText la))

/-- The loop of `add_trailing_parse_katcl`: `left` arguments are to be added before the final one. -/
def trailingLoop (px : Parse) (last : Bool) : Nat → Parse → Bool → Nat → AddResult
  | 0, p, first, i => addParameter p first last px i
  | left + 1, p, first, i =>
    match addParameter p first false px i with
    | .added q => trailingLoop px last left q false (i + 1)
    | r => r

def addTrailing (p : Parse) (first last : Bool) (px : Parse) (start : Nat) : AddResult :=
  if px.pGot = 0 ∨ start ≥ px.pGot then .refused
  else trailingLoop px last (px.pGot - 1 - start) p first start

def addField (p : Parse) (first last : Bool) : Field → AddResult
  | .buffer data => .ofOption (addBuffer p first last data)
  | .string text => .ofOption (addBuffer p first last (text.getD []))
  | .args text => .ofOption (addArgs p first last text)
  | .unsigned v => addPrinted p first last 32 (decimalText v.toNat)
  | .signed v => addPrinted p first last 32 (decimalText v.toInt)
  | .hex v => addPrinted p first last 32 (hexText v.toNat)
  | .double text => addPrinted p first last 48 text
  | .timestamp now => addTimestamp p first last now
  | .parameter px index => addParameter p first last px index
  | .trailing px start => addTrailing p first last px start
  | .starved =>
    match beforeAdd p first with
    | none => .aborted
    | some _ => .refused

def addEnd (p : Parse) : Option Parse :=
  if p.pState ≠ .fake then none
  else if p.pGot = 0 then none
  else some { p with pState := .done }

/-- The arguments that a field stands for. -/
def Field.contents : Field → List Arg
  | .buffer data => [⟨data, 1⟩]
  | .string text => [⟨text.getD [], 1⟩]
  | .args text => [⟨text, 1⟩]
  | .unsigned v => [⟨decimalText v.toNat, 0⟩]
  | .signed v => [⟨decimalText v.toInt, 0⟩]
  | .hex v => [⟨hexText v.toNat, 0⟩]
  | .double text => [⟨text, 0⟩]
  | .timestamp now => (now.map fun (sec, usec) => (⟨timestampText sec usec, 0⟩ : Arg)).toList
  | .parameter px index => (px.args[index]?.map fun a => (⟨a.text, 1⟩ : Arg)).toList
  | .trailing px start => (px.args.drop start).map fun a => ⟨a.text, 1⟩
  | .starved => []

/-- One append on a line, as its flags and its result had it; `queued` is a message that
then entered the output queue, `given` one that was put there whole. -/
inductive StageEvent where
  | taken (first last : Bool) (args : List Arg)
  | refused
  | queued (args : List Arg)
  | given (args : List Arg)
  deriving DecidableEq

/-- Whether the call was successful, the line after it and what happened. -/
structure Appended where
  ok : Bool
  line : Line
  log : List StageEvent

/-- `after_append_katcl` for a result that is not negative. -/
def afterAppend (l : Line) (last : Bool) (p : Parse) : Line × List StageEvent :=
  if last then ({ l with lStage := none, lQueue := l.lQueue.addTail p }, [.queued p.args])
  else ({ l with lStage := some p }, [])

/-- The `append_*_katcl` functions: `none` when the program aborts. -/
def appendField (l : Line) (first last : Bool) (f : Field) : Option Appended :=
  match beforeAppend l first with
  | none => some ⟨false, l, [.refused]⟩
  | some p =>
    match addField p first last f with
    | .aborted => none
    | .refused => some ⟨false, { l with lStage := none }, [.refused]⟩
    | .added q =>
      let (l', out) := afterAppend l last q
      some ⟨true, l', .taken first last f.contents :: out⟩

def appendEnd (l : Line) : Option Appended :=
  match beforeAppend l false with
  | none => some ⟨false, l, [.refused]⟩
  | some p => (addEnd p).map fun q =>
    let (l', out) := afterAppend l true q
    ⟨true, l', .taken false true [] :: out⟩

def appendParse (l : Line) (p : Parse) : Option Appended :=
  if p.pState ≠ .done then none
  else some ⟨true, { l with lQueue := l.lQueue.addTail p }, [.given p.args]⟩

/-- What stands behind the flags of an argument of `vsend_katcl`. -/
inductive VsendValue where
  | string (text : Option Text)
  | long (v : BitVec 64)
  | buffer (data : Text)
  | double (text : Text)
  deriving DecidableEq

structure VsendArg where
  flags : Nat
  value : VsendValue
  deriving DecidableEq

namespace VsendArg

def first (a : VsendArg) : Bool := a.flags.testBit 0

def last (a : VsendArg) : Bool := a.flags.testBit 1

def typeFlags (a : VsendArg) : Nat := a.flags &&& 0xf0

/-- The flags name a type that the `switch` knows. -/
def Typed (a : VsendArg) : Prop :=
  a.typeFlags ∈ [0x10, 0x20, 0x30, 0x40, 0x50, 0x60, 0x70, 0x80]

instance (a : VsendArg) : Decidable a.Typed := inferInstanceAs (Decidable (_ ∈ _))

/-- What the `switch` appends; `none` for a value that is not of the type of the flags. -/
def field (a : VsendArg) : Option Field :=
  match a.value with
  | .string text => if a.typeFlags = 0x10 then some (.string text) else none
  | .long v =>
    if a.typeFlags = 0x20 ∨ a.typeFlags = 0x70 then some (.unsigned v)
    else if a.typeFlags = 0x30 ∨ a.typeFlags = 0x80 then some (.signed v)
    else if a.typeFlags = 0x40 then some (.hex v)
    else none
  | .buffer data => if a.typeFlags = 0x50 then some (.buffer data) else none
  | .double text => if a.typeFlags = 0x60 then some (.double text) else none

end VsendArg

/-- The loop of `vsend_katcl`. -/
def vsendLoop (l : Line) : List VsendArg → Option Appended
  | [] => none
  | a :: rest =>
    if ¬ a.Typed then some ⟨false, l, [.refused]⟩
    else do
      let f ← a.field
      let r ← appendField l a.first a.last f
      if ¬ r.ok ∨ a.last then some r
      else
        let r' ← vsendLoop r.line rest
        some { r' with log := r.log ++ r'.log }

def vsend (l : Line) : List VsendArg → Option Appended
  | [] => none
  | a :: rest =>
    if ¬ a.first then some ⟨false, l, [.refused]⟩
    else vsendLoop l (a :: rest)

/-- The calls of the owner of a line. -/
inductive StageCall where
  | append (first last : Bool) (f : Field)
  | finish
  | parse (p : Parse)
  | vsend (args : List VsendArg)
  | write (answers : List SendAnswer)
  deriving DecidableEq

def stageAct (l : Line) : StageCall → Option (Line × List StageEvent)
  | .append first last f => (appendField l first last f).map fun r => (r.line, r.log)
  | .finish => (appendEnd l).map fun r => (r.line, r.log)
  | .parse p => (appendParse l p).map fun r => (r.line, r.log)
  | .vsend args => (vsend l args).map fun r => (r.line, r.log)
  | .write answers =>
    match write l answers with
    | (.aborted, _) => none
    | (.unfinished, _) => none
    | (_, w) => some (w.line, [])

def stageMachine : Machine Line StageCall StageEvent where
  start := createLine
  step l c := (stageAct l c).map Prod.fst
  emits l c := ((stageAct l c).map Prod.snd).getD []

def StageEvent.append? : StageEvent → Option StageEvent
  | .taken first last args => some (.taken first last args)
  | .refused => some .refused
  | _ => none

/-- The appends of a history, without the messages that entered the queue. -/
def appendsOf (log : List StageEvent) : List StageEvent := log.filterMap StageEvent.append?

/-- Appends that all succeeded, the first of them flagged as such and no other, none as the last. -/
inductive Opened : List StageEvent → List Arg → Prop
  | first (args : List Arg) : Opened [.taken true false args] args
  | more {appends : List StageEvent} {args : List Arg} : Opened appends args → (next : List Arg) →
      Opened (appends ++ [.taken false false next]) (args ++ next)

/-- A sequence from first to last whose appends all succeeded, and its arguments. -/
inductive FirstToLast : List StageEvent → List Arg → Prop
  | alone (args : List Arg) : FirstToLast [.taken true true args] args
  | closed {appends : List StageEvent} {args : List Arg} : Opened appends args → (next : List Arg) →
      FirstToLast (appends ++ [.taken false true next]) (args ++ next)

/-- What enters the queue is what the appends just made put together from first to last. -/
def wholeMessage (before : List StageEvent) : StageEvent → Prop
  | .queued args => ∃ earlier appends, appendsOf before = earlier ++ appends ∧ FirstToLast appends args
  | _ => True

/-- A number that does not print into its space. -/
def VsendArg.unprintable (a : VsendArg) : Bool :=
  match a.value with
  | .double text => text.length = 0 || 48 ≤ text.length
  | _ => false

/-- The loop of `vsend_katcl` comes to a bad type flag when a message is under construction. -/
def vsendLoopAstray (staged : Bool) : List VsendArg → Bool
  | [] => false
  | a :: rest =>
    if a.Typed then !a.unprintable && !a.last && vsendLoopAstray true rest
    else staged

/-- `vsend_katcl` itself refuses the call, or an argument for its type flag, when a message is
under construction. -/
def vsendAstray (staged : Bool) : List VsendArg → Bool
  | [] => false
  | a :: rest => if a.first then vsendLoopAstray staged (a :: rest) else staged

def stageTidy (l : Line) : StageCall → Prop
  | .vsend args => vsendAstray l.lStage.isSome args = false
  | _ => True

/-- What an append made of a message that held `args`. -/
structure Grown (args : List Arg) (first last : Bool) (more : List Arg) (q : Parse) : Prop where
  opens : first = true → args = []
  follows : first = false → args ≠ []
  staged : Staged q (args ++ more)
  state : q.pState = if last then .done else .fake
  some : more ≠ []

section

variable {p p1 q r : Parse} {args : List Arg} {first last : Bool} {text : Text} {limit escape : Nat}

theorem Roomy.mono {m n : Nat} (h : Roomy p q m) (hle : n ≤ m) : Roomy p q n := by
  obtain ⟨room, hq, hsize, hold⟩ := h
  exact ⟨room, hq, by omega, hold⟩

theorem Roomy.trans {m n : Nat} (h : Roomy p q m) (h' : Roomy q r n) : Roomy p r n := by
  obtain ⟨room, rfl, hsize, hold⟩ := h
  obtain ⟨room', rfl, hsize', hold'⟩ := h'
  exact ⟨room', rfl, hsize', fun b e he => (hold' b e he).trans (hold b e he)⟩

theorem afterAdd_grown (h : Staged p args) (hadd : beforeAdd p first = some p1)
    (hroom : Roomy p1 q (text.length + 1))
    (hafter : afterAdd { q with pBuffer := copyInto q.pBuffer q.pKept text } text.length escape last = some r) :
    Grown args first last [⟨text, escape⟩] r := by
  obtain ⟨r', hr, hstaged, hstate⟩ := afterAdd_staged h hadd hroom escape last
  cases Option.some.inj (hr.symm.trans hafter)
  obtain ⟨hfirst, hrest⟩ := h.position hadd
  exact ⟨fun hf => (hfirst hf).1, fun hf => (hrest hf).1, hstaged, hstate, nofun⟩

theorem addBuffer_grown (h : Staged p args) (hadd : addBuffer p first last text = some r) :
    Grown args first last [⟨text, 1⟩] r := by
  obtain ⟨p1, hb, hafter⟩ := Option.bind_eq_some_iff.mp hadd
  exact afterAdd_grown h hb (requestSpace_roomy (beforeAdd_kept h hb) _) hafter

theorem addUnsafe_grown (h : Staged p args) (hadd : addUnsafe p first last text = some r) :
    Grown args first last [⟨text, 0⟩] r := by
  obtain ⟨p1, hb, hafter⟩ := Option.bind_eq_some_iff.mp hadd
  exact afterAdd_grown h hb (requestSpace_roomy (beforeAdd_kept h hb) _) hafter

/-- The space that `vsnprintf` has found enough. -/
theorem argsSpace_roomy (hk : p.pKept ≤ p.pSize) (n : Nat) :
    Roomy p (if n < (requestSpace p 8).pSize - (requestSpace p 8).pKept then requestSpace p 8
      else requestSpace (requestSpace p 8) (n + 1)) (n + 1) := by
  have hroom := requestSpace_roomy hk 8
  split
  next hfits =>
    obtain ⟨room, hq, _, hold⟩ := hroom
    refine ⟨room, hq, ?_, hold⟩
    rw [hq] at hfits
    simp only [Parse.pSize] at hfits
    omega
  next =>
    refine hroom.trans (requestSpace_roomy ?_ _)
    obtain ⟨room, hq, hsize, _⟩ := hroom
    rw [hq]
    simp only [Parse.pSize]
    omega

theorem addArgs_grown (h : Staged p args) (hadd : addArgs p first last text = some r) :
    Grown args first last [⟨text, 1⟩] r := by
  obtain ⟨p1, hb, hafter⟩ := Option.bind_eq_some_iff.mp hadd
  exact afterAdd_grown h hb (argsSpace_roomy (beforeAdd_kept h hb) _) hafter

theorem ofOption_added {o : Option Parse} (h : AddResult.ofOption o = .added r) : o = some r := by
  cases o with
  | none => cases h
  | some p =>
    cases h
    rfl

theorem addPrinted_grown (h : Staged p args) (hadd : addPrinted p first last limit text = .added r) :
    Grown args first last [⟨text, 0⟩] r := by
  unfold addPrinted at hadd
  split at hadd
  next => cases hadd
  next p1 hb =>
    dsimp only at hadd
    split at hadd
    next => cases hadd
    next hfits =>
      have hroom := requestSpace_roomy (beforeAdd_kept h hb) limit
      exact afterAdd_grown h hb (hroom.mono (by omega)) (ofOption_added hadd)

theorem addTimestamp_grown {now : Option (Nat × Nat)} (h : Staged p args)
    (hadd : addTimestamp p first last now = .added r) :
    Grown args first last (Field.timestamp now).contents r := by
  cases now with
  | none => cases hadd
  | some t => exact addUnsafe_grown h (ofOption_added hadd)

theorem addParameter_grown {px : Parse} {i : Nat} (h : Staged p args)
    (hadd : addParameter p first last px i = .added r) :
    ∃ a, px.args[i]? = some a ∧ Grown args first last [⟨a.text, 1⟩] r := by
  unfold addParameter at hadd
  split at hadd
  next => cases hadd
  next la hla =>
    refine ⟨px.argOf la, ?_, addBuffer_grown h (ofOption_added hadd)⟩
    simp only [Parse.args, Parse.message, List.getElem?_map, hla]
    rfl

theorem trailingLoop_grown {px : Parse} (left : Nat) {i : Nat} (h : Staged p args)
    (hlen : px.args.length ≤ i + left + 1) (hadd : trailingLoop px last left p first i = .added r) :
    Grown args first last ((px.args.drop i).map fun a => ⟨a.text, 1⟩) r := by
  induction left generalizing p args first i with
  | zero =>
    obtain ⟨a, ha, hgrown⟩ := addParameter_grown h hadd
    have hdrop : px.args.drop i = [a] := by
      rw [List.drop_eq_getElem_cons (List.getElem?_eq_some_iff.mp ha).1, List.drop_eq_nil_of_le (by omega),
        (List.getElem?_eq_some_iff.mp ha).2]
    rw [hdrop]
    exact hgrown
  | succ left ih =>
    rw [trailingLoop] at hadd
    split at hadd
    next q hq =>
      obtain ⟨a, ha, hgrown⟩ := addParameter_grown h hq
      have hrest := ih hgrown.staged (by omega) hadd
      have hdrop : px.args.drop i = a :: px.args.drop (i + 1) := by
        rw [List.drop_eq_getElem_cons (List.getElem?_eq_some_iff.mp ha).1, (List.getElem?_eq_some_iff.mp ha).2]
      rw [hdrop]
      refine ⟨hgrown.opens, hgrown.follows, ?_, hrest.state, nofun⟩
      have hstaged := hrest.staged
      rw [List.append_assoc] at hstaged
      exact hstaged
    next hnot => exact absurd hadd (hnot r)

theorem addField_grown {f : Field} (h : Staged p args) (hadd : addField p first last f = .added r) :
    Grown args first last f.contents r := by
  cases f with
  | buffer data => exact addBuffer_grown h (ofOption_added hadd)
  | string text => exact addBuffer_grown h (ofOption_added hadd)
  | args text => exact addArgs_grown h (ofOption_added hadd)
  | unsigned v => exact addPrinted_grown h hadd
  | signed v => exact addPrinted_grown h hadd
  | hex v => exact addPrinted_grown h hadd
  | double text => exact addPrinted_grown h hadd
  | timestamp now => exact addTimestamp_grown h hadd
  | parameter px i =>
    obtain ⟨a, ha, hgrown⟩ := addParameter_grown h hadd
    simpa [Field.contents, ha] using hgrown
  | trailing px start =>
    rw [addField, addTrailing] at hadd
    split at hadd
    next => cases hadd
    next hstart =>
      have hlen : px.args.length ≤ px.pGot := by
        simp only [Parse.args, Parse.message, List.length_map, List.length_take]
        omega
      exact trailingLoop_grown _ h (by omega) hadd
  | starved =>
    rw [addField] at hadd
    split at hadd <;> cases hadd

end

end Katcp
