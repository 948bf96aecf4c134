import Katcp.ParseData
import Katcp.RingQueue

namespace Katcp

section

open Memory

def ioSize : Nat := 4096

def bufferInc : Nat := 512

/-- `katcl_line` over its descriptor: `lBuffer` holds the first `l_pending` bytes of
the output block. -/
structure Line where
  lReady : Option Parse
  lNext : Parse
  lStage : Option Parse
  lBuffer : List Byte
  lArg : Nat
  lOffset : Nat
  lQueue : RingQueue Parse
  lError : Nat
  lSendable : Bool

namespace Line

def lPending (l : Line) : Nat := l.lBuffer.length

end Line

def createLine : Line where
  lReady := none
  lNext := createParse
  lStage := none
  lBuffer := []
  lArg := 0
  lOffset := 0
  lQueue := RingQueue.empty
  lError := 0
  lSendable := true

/-- The error numbers the line code looks at. -/
def eintr : Nat := 4
def eagain : Nat := 11
def einval : Nat := 22
def enotsock : Nat := 88
def econnreset : Nat := 104

def load (l : Line) (buffer : List Byte) : Line :=
  let p := l.lNext
  let grown :=
    if p.pSize ≤ p.pHave + buffer.length then resize 0 p.pBuffer (p.pHave + buffer.length + 1)
    else p.pBuffer
  { l with lNext := { p with
      pBuffer := copyInto grown p.pHave buffer, pHave := p.pHave + buffer.length } }

/-- What `read()` answers: bytes (none of them at the end of the file) or an errno. -/
inductive ReadAnswer where
  | bytes (bs : List Byte)
  | errno (e : Nat)
  deriving DecidableEq, Repr

inductive ReadResult where
  | more
  | ended
  | failed
  deriving DecidableEq, Repr

def readGrow (p : Parse) : Parse :=
  if p.pSize ≤ p.pHave then { p with pBuffer := resize 0 p.pBuffer (p.pSize + bufferInc) } else p

/-- `none` when the descriptor answers with more bytes than it was asked for. -/
def read (l : Line) (answer : ReadAnswer) : Option (ReadResult × Line) :=
  let p := readGrow l.lNext
  let grown := { l with lNext := p }
  match answer with
  | .errno e =>
    if e = econnreset then some (.ended, grown)
    else if e = eagain ∨ e = eintr then some (.more, grown)
    else some (.failed, { grown with lError := e })
  | .bytes bs =>
    if p.pSize - p.pHave < bs.length then none
    else if bs = [] then some (.ended, grown)
    else some (.more, { l with lNext := { p with
      pBuffer := copyInto p.pBuffer p.pHave bs, pHave := p.pHave + bs.length } })

/-- The returns -1, 0 and 1 of `parse_katcl`. -/
inductive ParseResult where
  | failed
  | incomplete
  | complete
  deriving DecidableEq, Repr

/-- The end of `parse_katcl`: a fresh parse takes over what is left of the buffer. -/
def handOver (l : Line) (p : Parse) : Line :=
  if p.pUsed < p.pHave then
    { l with
      lNext := stashRemainder createParse p.unread
      lReady := some { p with pHave := p.pUsed } }
  else { l with lNext := createParse, lReady := some p }

def parse (l : Line) : ParseResult × Line :=
  match parseLoop (l.lNext.pHave - l.lNext.pUsed) l.lNext with
  | .error p => (.failed, { l with lNext := p, lError := einval })
  | .ok p =>
    if p.pState ≠ .done then (.incomplete, { l with lNext := p })
    else (.complete, handOver l p)

def clear (l : Line) : Line := { l with lReady := none }

def haveLine (l : Line) : ParseResult × Line :=
  if l.lReady.isSome then parse (clear l) else parse l

end

section

open Memory

structure Arg where
  text : List Byte
  escape : Nat
  deriving DecidableEq, Repr

structure Message where
  args : List Arg
  tag : Int32
  deriving DecidableEq, Repr

/-- What the parser knows about a line, without the buffer it keeps it in. -/
structure Scan where
  state : ParseState
  args : List Arg
  text : List Byte
  escape : Nat
  tag : Int32
  deriving DecidableEq, Repr

namespace Scan

def start : Scan := ⟨.fresh, [], [], 0, -1⟩

def message (s : Scan) : Message := ⟨s.args, s.tag⟩

def opened (s : Scan) (st : ParseState) (text : List Byte) : Scan :=
  { s with state := st, text := text, escape := 0 }

def pushed (s : Scan) (st : ParseState) (bs : List Byte) : Scan :=
  { s with state := st, text := s.text ++ bs }

def closed (s : Scan) (st : ParseState) : Scan :=
  { s with state := st, args := s.args ++ [⟨s.text, s.escape⟩] }

end Scan

def scanByte (s : Scan) (c : Byte) : Option Scan :=
  match s.state with
  | .fake | .done => some s
  | .fresh => if isType c then some (s.opened .command [c]) else some s
  | .command =>
    if c = byte '[' then some { s.closed .tag with tag := 0 }
    else if isBlank c then some (s.closed .whitespace)
    else if isNewline c then some (s.closed .done)
    else some (s.pushed .command [c])
  | .tag =>
    if isDigit c then
      some { s with tag := s.tag * 10 + Int32.ofNat (c.toNat - (byte '0').toNat) }
    else if c = byte ']' then some { s with state := .whitespace }
    else none
  | .whitespace =>
    if isBlank c then some s
    else if isNewline c then some { s with state := .done }
    else if c = byte '\\' then some (s.opened .escape [])
    else some (s.opened .arg [c])
  | .arg =>
    if isBlank c then some (s.closed .whitespace)
    else if isNewline c then some (s.closed .done)
    else if c = byte '\\' then some { s with state := .escape }
    else some (s.pushed .arg [c])
  | .escape =>
    some { s.pushed .arg (if c = byte '@' then [] else [unescape c]) with escape := 1 }

/-- The states in which an argument is being collected. -/
def ParseState.Open : ParseState → Prop
  | .command | .arg | .escape => True
  | _ => False

def Parse.argOf (p : Parse) (la : Larg) : Arg := ⟨p.argText la, la.aEscape⟩

/-- The argument array and the buffer of `p` hold what `s` has collected. -/
structure Mirrors (p : Parse) (s : Scan) : Prop where
  state : p.pState = s.state
  tag : p.pTag = s.tag
  got : p.pGot ≤ p.pCount
  bound : ∀ la ∈ p.pArgs.take p.pGot, la.aBegin ≤ la.aEnd ∧ la.aEnd ≤ p.pKept
  args : (p.pArgs.take p.pGot).map p.argOf = s.args
  current : s.state.Open → p.pCurrent = some p.pGot ∧ ∃ la, p.pArgs[p.pGot]? = some la ∧
    la.aBegin ≤ p.pKept ∧ slice p.pBuffer la.aBegin p.pKept = s.text ∧ la.aEscape = s.escape

theorem argOf_set_kept {p : Parse} {las : List Larg} (c : Byte)
    (bound : ∀ la ∈ las, la.aBegin ≤ la.aEnd ∧ la.aEnd ≤ p.pKept) :
    las.map (p.store c).argOf = las.map p.argOf := by
  apply List.map_congr_left
  intro la hla
  simp only [Parse.argOf, Parse.argText, Parse.store, slice_set_of_le (bound la hla).2]

theorem take_modify_self (las : List Larg) (n : Nat) (f : Larg → Larg) :
    (las.modify n f).take n = las.take n := by
  apply List.ext_getElem?
  intro i
  simp only [List.getElem?_take, List.getElem?_modify]
  split
  next hi => simp [show n ≠ i by omega]
  next => rfl

theorem Mirrors.enter {p : Parse} {s : Scan} (h : Mirrors p s) (st : ParseState)
    (hopen : st.Open → s.state.Open) : Mirrors (p.enter st) { s with state := st } :=
  ⟨rfl, h.tag, h.got, h.bound, h.args, fun ho => h.current (hopen ho)⟩

theorem Mirrors.skip {p : Parse} {s : Scan} (h : Mirrors p s) : Mirrors (p.advance 0) s :=
  ⟨h.state, h.tag, h.got, h.bound, h.args, h.current⟩

theorem Mirrors.push {p : Parse} {s : Scan} (h : Mirrors p s) (hopen : s.state.Open)
    (hk : p.pKept < p.pSize) (c : Byte) :
    Mirrors ((p.store c).advance 1) (s.pushed s.state [c]) := by
  obtain ⟨hcur, la, hla, hb, ht, he⟩ := h.current hopen
  refine ⟨h.state, h.tag, h.got, ?_, ?_, fun _ => ?_⟩
  · exact fun x hx => ⟨(h.bound x hx).1, Nat.le_succ_of_le (h.bound x hx).2⟩
  · exact (argOf_set_kept c h.bound).trans h.args
  · refine ⟨hcur, la, hla, Nat.le_succ_of_le hb, ?_, he⟩
    have hs := slice_set_end hb hk c
    rw [ht] at hs
    exact hs

theorem checkArray_grows {p : Parse} (h : p.pGot ≤ p.pCount) :
    ∃ more, p.pGot < (p.pArgs ++ more).length ∧
      checkArray p = { p with pArgs := p.pArgs ++ more, pCurrent := some p.pGot } := by
  unfold checkArray
  split
  next hlt => exact ⟨[], by simpa [Parse.pCount] using hlt, by simp⟩
  next hge =>
    refine ⟨List.replicate argsInc ⟨0, 0, 0⟩, ?_, by simp [resize, Parse.pCount]⟩
    simp only [List.length_append, List.length_replicate, argsInc, Parse.pCount] at *
    omega

theorem Mirrors.beginArg {p : Parse} {s : Scan} (h : Mirrors p s) {st : ParseState} :
    Mirrors (p.beginArg.enter st) (s.opened st []) := by
  obtain ⟨more, hlen, hck⟩ := checkArray_grows h.got
  have hq : p.beginArg = { p with
      pArgs := (p.pArgs ++ more).modify p.pGot fun la => { la with aBegin := p.pKept, aEscape := 0 }
      pCurrent := some p.pGot } := by
    simp [Parse.beginArg, hck, Parse.editCurrent]
  have htake : ((p.pArgs ++ more).modify p.pGot fun la =>
      { la with aBegin := p.pKept, aEscape := 0 }).take p.pGot = p.pArgs.take p.pGot := by
    rw [take_modify_self, List.take_append_of_le_length h.got]
  rw [hq]
  refine ⟨rfl, h.tag, ?_, ?_, ?_, fun _ => ⟨rfl, ?_⟩⟩
  · simp only [Parse.enter, Parse.pCount, List.length_modify]
    omega
  · simpa only [Parse.enter, htake] using h.bound
  · exact (congrArg (List.map p.argOf) htake).trans h.args
  · obtain ⟨la, hla⟩ : ∃ la, (p.pArgs ++ more)[p.pGot]? = some la := ⟨_, List.getElem?_eq_getElem hlen⟩
    refine ⟨{ la with aBegin := p.pKept, aEscape := 0 }, ?_, Nat.le_refl _, slice_self _ _, rfl⟩
    simp [Parse.enter, hla]

theorem Mirrors.endArg {p : Parse} {s : Scan} (h : Mirrors p s) (hopen : s.state.Open)
    (st : ParseState) (hst : ¬ st.Open) :
    Mirrors ((p.endArg.enter st).advance 1) (s.closed st) := by
  obtain ⟨hcur, la, hla, hb, ht, he⟩ := h.current hopen
  have hq : p.endArg = { p.store 0 with
      pArgs := p.pArgs.modify p.pGot fun x => { x with aEnd := p.pKept }, pGot := p.pGot + 1 } := by
    simp [Parse.endArg, Parse.editCurrent, Parse.store, hcur]
  have hlt : p.pGot < p.pArgs.length := List.getElem?_eq_some_iff.mp hla |>.1
  have htake : (p.pArgs.modify p.pGot fun x => { x with aEnd := p.pKept }).take (p.pGot + 1) =
      p.pArgs.take p.pGot ++ [{ la with aEnd := p.pKept }] := by
    rw [List.take_add_one, take_modify_self]
    simp [hla]
  rw [hq]
  refine ⟨rfl, h.tag, ?_, ?_, ?_, fun ho => absurd ho hst⟩
  · simp only [Parse.enter, Parse.advance, Parse.pCount, List.length_modify]
    omega
  · intro x hx
    simp only [Parse.enter, Parse.advance, htake, List.mem_append, List.mem_singleton] at hx
    rcases hx with hx | hx
    · exact ⟨(h.bound x hx).1, Nat.le_succ_of_le (h.bound x hx).2⟩
    · subst hx; exact ⟨hb, Nat.le_succ _⟩
  · have hold := argOf_set_kept 0 h.bound
    have hnew : (p.store 0).argOf { la with aEnd := p.pKept } = ⟨s.text, s.escape⟩ := by
      simp [Parse.argOf, Parse.argText, Parse.store, slice_set_of_le, ht, he]
    simp only [Parse.enter, Parse.advance, htake, List.map_append, List.map_cons, List.map_nil,
      Scan.closed]
    exact congrArg₂ (· ++ ·) (hold.trans h.args) (congrArg (fun a => [a]) hnew)

theorem Mirrors.markEscape {p : Parse} {s : Scan} (h : Mirrors p s) (hopen : s.state.Open) :
    Mirrors (p.editCurrent fun la => { la with aEscape := 1 }) { s with escape := 1 } := by
  obtain ⟨hcur, la, hla, hb, ht, _⟩ := h.current hopen
  have hq : p.editCurrent (fun la => { la with aEscape := 1 }) = { p with
      pArgs := p.pArgs.modify p.pGot fun la => { la with aEscape := 1 } } := by
    simp [Parse.editCurrent, hcur]
  rw [hq]
  refine ⟨h.state, h.tag, ?_, ?_, ?_, fun _ => ⟨hcur, { la with aEscape := 1 }, ?_, hb, ht, rfl⟩⟩
  · simpa [Parse.pCount] using h.got
  · simpa only [take_modify_self] using h.bound
  · exact (congrArg (List.map p.argOf) (take_modify_self _ _ _)).trans h.args
  · simp [hla]

end

section

open Memory

namespace Parse

@[simp] theorem editCurrent_pBuffer (p : Parse) (f : Larg → Larg) :
    (p.editCurrent f).pBuffer = p.pBuffer := by
  unfold editCurrent; split <;> rfl

@[simp] theorem editCurrent_pState (p : Parse) (f : Larg → Larg) :
    (p.editCurrent f).pState = p.pState := by
  unfold editCurrent; split <;> rfl

@[simp] theorem editCurrent_pUsed (p : Parse) (f : Larg → Larg) :
    (p.editCurrent f).pUsed = p.pUsed := by
  unfold editCurrent; split <;> rfl

@[simp] theorem editCurrent_pHave (p : Parse) (f : Larg → Larg) :
    (p.editCurrent f).pHave = p.pHave := by
  unfold editCurrent; split <;> rfl

@[simp] theorem editCurrent_pKept (p : Parse) (f : Larg → Larg) :
    (p.editCurrent f).pKept = p.pKept := by
  unfold editCurrent; split <;> rfl

theorem editCurrent_advance (p : Parse) (f : Larg → Larg) (n : Nat) :
    (p.advance n).editCurrent f = (p.editCurrent f).advance n := by
  rcases p with ⟨_, _, _, _, _, _, _ | i, _, _⟩ <;> rfl

/-- Everything but the arguments, the state and the tag. -/
def SameBytes (p q : Parse) : Prop :=
  q.pBuffer = p.pBuffer ∧ q.pUsed = p.pUsed ∧ q.pHave = p.pHave ∧ q.pKept = p.pKept

theorem beginArg_sameBytes (p : Parse) : p.SameBytes p.beginArg := by
  unfold SameBytes beginArg checkArray
  split <;> simp

theorem endArg_sameBytes (p : Parse) : (p.store 0).SameBytes p.endArg := by
  simp [SameBytes, endArg]

/-- What a turn of the loop does to the bytes of the line: it moves `p_used` on by one
and writes at `p_kept` if anywhere. -/
structure TurnsByte (p q : Parse) : Prop where
  used : q.pUsed = p.pUsed + 1
  same : q.pHave = p.pHave
  kept : q.pKept ≤ p.pKept + 1
  buffer : q.pBuffer = p.pBuffer ∨ ∃ v, q.pBuffer = p.pBuffer.set p.pKept v

theorem SameBytes.skip {p r : Parse} (h : p.SameBytes r) : TurnsByte p (r.advance 0) := by
  obtain ⟨h1, h2, h3, h4⟩ := h
  exact ⟨by simp [Parse.advance, h2], h3, by simp [Parse.advance, h4], Or.inl h1⟩

theorem SameBytes.push {p r : Parse} {v : Byte} (h : (p.store v).SameBytes r) : TurnsByte p (r.advance 1) := by
  obtain ⟨h1, h2, h3, h4⟩ := h
  exact ⟨by simp [Parse.advance, h2, Parse.store], h3, by simp [Parse.advance, h4, Parse.store], Or.inr ⟨v, h1⟩⟩

end Parse

/-- A fresh parse takes over bytes as they are. -/
theorem stashRemainder_fresh (bs : List Byte) :
    stashRemainder createParse bs = { createParse with pBuffer := bs, pHave := bs.length } := by
  have hbuf : (stashRemainder createParse bs).pBuffer = bs := by
    simp only [stashRemainder, createParse, Parse.pSize, copyInto, List.take_zero, List.nil_append]
    cases bs with
    | nil => simp
    | cons b bs => simp [resize]
  have hhave : (stashRemainder createParse bs).pHave = bs.length := Nat.zero_add _
  calc stashRemainder createParse bs
      = { createParse with
          pBuffer := (stashRemainder createParse bs).pBuffer
          pHave := (stashRemainder createParse bs).pHave } := rfl
    _ = _ := by rw [hbuf, hhave]

theorem parseByte_frame {p q : Parse} {c : Byte} (h : parseByte p c = some q) : p.TurnsByte q := by
  obtain ⟨hb1, hb2, hb3, hb4⟩ := p.beginArg_sameBytes
  obtain ⟨he1, he2, he3, he4⟩ := p.endArg_sameBytes
  have hpush : ∀ st, p.TurnsByte (((p.beginArg.enter st).store c).advance 1) := fun st =>
    @Parse.SameBytes.push _ _ c ⟨by simp [Parse.store, Parse.enter, hb1, hb4], hb2, hb3, hb4⟩
  have same : p.SameBytes p := ⟨rfl, rfl, rfl, rfl⟩
  unfold parseByte at h
  split at h
  next => cases Option.some.inj h; exact same.skip
  next => cases Option.some.inj h; exact same.skip
  next =>
    split at h <;> cases Option.some.inj h
    · exact hpush _
    · exact same.skip
  next =>
    split at h
    · cases Option.some.inj h; exact @Parse.SameBytes.push _ _ 0 ⟨he1, he2, he3, he4⟩
    split at h
    · cases Option.some.inj h; exact @Parse.SameBytes.push _ _ 0 ⟨he1, he2, he3, he4⟩
    split at h <;> cases Option.some.inj h
    · exact @Parse.SameBytes.push _ _ 0 ⟨he1, he2, he3, he4⟩
    · exact @Parse.SameBytes.push _ _ c ⟨rfl, rfl, rfl, rfl⟩
  next =>
    split at h
    · cases Option.some.inj h; exact Parse.SameBytes.skip ⟨rfl, rfl, rfl, rfl⟩
    split at h <;> cases h
    exact Parse.SameBytes.skip ⟨rfl, rfl, rfl, rfl⟩
  next =>
    split at h
    · cases Option.some.inj h; exact same.skip
    split at h
    · cases Option.some.inj h; exact Parse.SameBytes.skip ⟨rfl, rfl, rfl, rfl⟩
    split at h <;> cases Option.some.inj h
    · exact Parse.SameBytes.skip ⟨hb1, hb2, hb3, hb4⟩
    · exact hpush _
  next =>
    split at h
    · cases Option.some.inj h; exact @Parse.SameBytes.push _ _ 0 ⟨he1, he2, he3, he4⟩
    split at h
    · cases Option.some.inj h; exact @Parse.SameBytes.push _ _ 0 ⟨he1, he2, he3, he4⟩
    split at h <;> cases Option.some.inj h
    · exact Parse.SameBytes.skip ⟨rfl, rfl, rfl, rfl⟩
    · exact @Parse.SameBytes.push _ _ c ⟨rfl, rfl, rfl, rfl⟩
  next =>
    cases Option.some.inj h
    by_cases hc : c = byte '@'
    · simp only [hc, ↓reduceIte]
      exact Parse.SameBytes.skip (by simp [Parse.SameBytes, Parse.enter])
    · simp only [hc, ↓reduceIte]
      exact @Parse.SameBytes.push _ _ (unescape c) (by simp [Parse.SameBytes, Parse.enter])

/-- A turn of the loop does to the parse what the scanner does to its state. -/
theorem parseByte_mirrors {p : Parse} {s : Scan} (h : Mirrors p s) (hk : p.pKept < p.pSize)
    (c : Byte) : (scanByte s c = none ∧ parseByte p c = none) ∨
      ∃ s' q, scanByte s c = some s' ∧ parseByte p c = some q ∧ Mirrors q s' := by
  obtain ⟨hb1, _, _, hb4⟩ := p.beginArg_sameBytes
  have hstart : ∀ st : ParseState, st.Open →
      Mirrors (((p.beginArg.enter st).store c).advance 1) (s.opened st [c]) := fun st hst =>
    h.beginArg.push hst (by simpa [Parse.enter, Parse.pSize, hb1, hb4] using hk) c
  unfold scanByte parseByte
  rw [h.state]
  cases hs : s.state with
  | fake => exact Or.inr ⟨_, _, rfl, rfl, h.skip⟩
  | done => exact Or.inr ⟨_, _, rfl, rfl, h.skip⟩
  | fresh =>
    cases isType c
    · exact Or.inr ⟨_, _, rfl, rfl, h.skip⟩
    · exact Or.inr ⟨_, _, rfl, rfl, hstart .command trivial⟩
  | command =>
    have ho : s.state.Open := by rw [hs]; trivial
    dsimp only
    split
    · have ht := h.endArg ho .tag (fun h => h)
      exact Or.inr ⟨_, _, rfl, rfl, ht.state, rfl, ht.got, ht.bound, ht.args, ht.current⟩
    split
    · exact Or.inr ⟨_, _, rfl, rfl, h.endArg ho _ (fun h => h)⟩
    split
    · exact Or.inr ⟨_, _, rfl, rfl, h.endArg ho _ (fun h => h)⟩
    · have := h.push ho hk c
      rw [hs] at this
      exact Or.inr ⟨_, _, rfl, rfl, this⟩
  | tag =>
    dsimp only
    split
    · refine Or.inr ⟨_, _, rfl, rfl, rfl, ?_, h.got, h.bound, h.args, fun h => h.elim⟩
      simp [Parse.advance, h.tag]
    split
    · exact Or.inr ⟨_, _, rfl, rfl, (h.enter .whitespace (fun h => h.elim)).skip⟩
    · exact Or.inl ⟨rfl, rfl⟩
  | whitespace =>
    dsimp only
    split
    · exact Or.inr ⟨_, _, rfl, rfl, h.skip⟩
    split
    · exact Or.inr ⟨_, _, rfl, rfl, (h.enter .done (fun h => h.elim)).skip⟩
    split
    · exact Or.inr ⟨_, _, rfl, rfl, h.beginArg.skip⟩
    · exact Or.inr ⟨_, _, rfl, rfl, hstart .arg trivial⟩
  | arg =>
    have ho : s.state.Open := by rw [hs]; trivial
    dsimp only
    split
    · exact Or.inr ⟨_, _, rfl, rfl, h.endArg ho _ (fun h => h)⟩
    split
    · exact Or.inr ⟨_, _, rfl, rfl, h.endArg ho _ (fun h => h)⟩
    split
    · exact Or.inr ⟨_, _, rfl, rfl, (h.enter .escape (fun _ => ho)).skip⟩
    · have := h.push ho hk c
      rw [hs] at this
      exact Or.inr ⟨_, _, rfl, rfl, this⟩
  | escape =>
    have ho : s.state.Open := by rw [hs]; trivial
    refine Or.inr ⟨_, _, rfl, rfl, ?_⟩
    by_cases hc : c = byte '@'
    · simp only [hc, ↓reduceIte, Scan.pushed, List.append_nil]
      exact ((h.markEscape ho).enter .arg (fun _ => ho)).skip
    · simp only [hc, ↓reduceIte]
      have hp := (h.push ho hk (unescape c)).markEscape ho
      rw [Parse.editCurrent_advance] at hp
      exact hp.enter .arg (fun _ => ho)

/-- A parse in the middle of a line: it mirrors the scanner, and `bs` is left to read. -/
structure Reads (p : Parse) (s : Scan) (bs : List Byte) : Prop where
  mirrors : Mirrors p s
  kept_le : p.pKept ≤ p.pUsed
  used_le : p.pUsed ≤ p.pHave
  have_le : p.pHave ≤ p.pSize
  unread : p.unread = bs

theorem Reads.length {p : Parse} {s : Scan} {bs : List Byte} (h : Reads p s bs) :
    bs.length = p.pHave - p.pUsed := by
  have hle : p.pHave ≤ p.pBuffer.length := h.have_le
  rw [← h.unread, Parse.unread, slice_length, Nat.min_eq_left hle]

theorem Reads.head {p : Parse} {s : Scan} {c : Byte} {bs : List Byte} (h : Reads p s (c :: bs)) :
    p.pUsed < p.pHave ∧ p.pBuffer[p.pUsed]? = some c ∧ slice p.pBuffer (p.pUsed + 1) p.pHave = bs := by
  have hlt : p.pUsed < p.pHave := by
    have := h.length
    simp only [List.length_cons] at this
    omega
  have hle := h.have_le
  obtain ⟨x, hx⟩ : ∃ x, p.pBuffer[p.pUsed]? = some x :=
    ⟨_, List.getElem?_eq_getElem (show p.pUsed < p.pBuffer.length by unfold Parse.pSize at hle; omega)⟩
  have hu := h.unread
  rw [Parse.unread, slice_cons hlt hx] at hu
  obtain ⟨rfl, ht⟩ := List.cons.inj hu
  exact ⟨hlt, hx, ht⟩

theorem Reads.step {p : Parse} {s : Scan} {c : Byte} {bs : List Byte} (h : Reads p s (c :: bs)) :
    (scanByte s c = none ∧ parseByte p c = none) ∨
      ∃ s' q, scanByte s c = some s' ∧ parseByte p c = some q ∧ Reads q s' bs ∧
        q.pUsed = p.pUsed + 1 := by
  obtain ⟨hlt, hx, ht⟩ := h.head
  have h1 := h.kept_le
  have h2 := h.have_le
  rcases parseByte_mirrors h.mirrors (show p.pKept < p.pSize by omega) c with hn | ⟨s', q, hs, hq, hm⟩
  · exact Or.inl hn
  · obtain ⟨hu, hh, hk, hbuf⟩ := parseByte_frame hq
    have hsize : q.pSize = p.pSize := by
      rcases hbuf with hb | ⟨v, hb⟩ <;> simp [Parse.pSize, hb]
    have hun : q.unread = bs := by
      rw [Parse.unread, hu, hh]
      rcases hbuf with hb | ⟨v, hb⟩
      · rw [hb, ht]
      · rw [hb, slice_set_of_lt (by omega), ht]
    exact Or.inr ⟨s', q, hs, hq, ⟨hm, by omega, by omega, by omega, hun⟩, hu⟩

end

end Katcp
