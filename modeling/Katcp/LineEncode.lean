import Katcp.LineSession

namespace Katcp

section

open Memory

def tmpMargin : Nat := 32

def escapeByte (c : Byte) : List Byte :=
  if c = 27 then [byte '\\', byte 'e']
  else if c = byte '\n' then [byte '\\', byte 'n']
  else if c = byte '\r' then [byte '\\', byte 'r']
  else if c = 0 then [byte '\\', byte '0']
  else if c = byte '\\' then [byte '\\', byte '\\']
  else if c = byte ' ' then [byte '\\', byte '_']
  else if c = byte '\t' then [byte '\\', byte 't']
  else [c]

def escapeCopy (src : List Byte) : List Byte := src.flatMap escapeByte

inductive WriteState where
  | done | fill | next | send
  deriving DecidableEq, Repr

/-- What `send()` or `write()` answers. -/
inductive SendAnswer where
  | sent (n : Nat)
  | errno (e : Nat)
  deriving DecidableEq, Repr

/-- The returns 1, 0 and -1 of `write_katcl`; `aborted` is a failed consistency check and
`unfinished` a loop that was cut short. -/
inductive WriteResult where
  | done | more | failed | aborted | unfinished
  deriving DecidableEq, Repr

def Parse.setEscape (p : Parse) (i escape : Nat) : Parse :=
  { p with pArgs := p.pArgs.modify i fun la => { la with aEscape := escape } }

/-- The `WRITE_STATE_FILL` case; `none` is an abort. -/
def fillTurn (l : Line) : Option (WriteState × Line) :=
  match l.lQueue.getHead with
  | none => some (if 0 < l.lPending then .send else .done, l)
  | some p =>
    if l.lPending + tmpMargin > ioSize then some (.send, l)
    else if l.lArg ≥ p.pGot then none
    else match p.pArgs[l.lArg]? with
      | none => none
      | some la =>
        let here := la.aBegin + l.lOffset
        if here > la.aEnd then none
        else if here ≥ la.aEnd then
          if l.lOffset = 0 ∧ l.lArg = 0 then none
          else some (.next, { l with
            lBuffer := l.lBuffer ++ (if l.lOffset = 0 then [byte '\\', byte '@'] else [])
            lQueue := if la.aEscape ≤ 1 then l.lQueue.setHead (p.setEscape l.lArg 0) else l.lQueue
            lArg := l.lArg + 1
            lOffset := 0 })
        else
          let want := la.aEnd - here
          let space := ioSize - (l.lPending + 1)
          if la.aEscape ≠ 0 then
            let can := if space / 2 ≥ want then want else space / 2
            let out := escapeCopy (slice p.pBuffer here (here + can))
            some (.fill, { l with
              lBuffer := l.lBuffer ++ out
              lQueue := if out.length > can then l.lQueue.setHead (p.setEscape l.lArg 2) else l.lQueue
              lOffset := l.lOffset + can })
          else
            let can := if space ≥ want then want else space
            some (.fill, { l with
              lBuffer := l.lBuffer ++ slice p.pBuffer here (here + can)
              lOffset := l.lOffset + can })

/-- The `WRITE_STATE_NEXT` case. -/
def nextTurn (l : Line) : WriteState × Line :=
  match l.lQueue.getHead with
  | none => (.send, { l with lOffset := 0, lArg := 0 })
  | some p =>
    if l.lArg < p.pGot then (.fill, { l with lBuffer := l.lBuffer ++ [byte ' '] })
    else (.fill, { l with
      lArg := 0, lBuffer := l.lBuffer ++ [byte '\n'], lQueue := l.lQueue.removeHead })

/-- A call of `write_katcl` under way: `wire` are the bytes sent so far and `answers` what
the descriptor is still going to say. -/
structure Writer where
  line : Line
  state : WriteState
  wire : List Byte
  answers : List SendAnswer

inductive WriteTurn where
  | go (w : Writer)
  | stop (result : WriteResult) (w : Writer)

/-- The `WRITE_STATE_SEND` case; a descriptor that has nothing left to say would block. -/
def sendTurn (w : Writer) : WriteTurn :=
  if w.line.lPending ≤ 0 then
    .go { w with state := if w.line.lQueue.getHead.isSome then .fill else .done }
  else match w.answers with
    | [] => .stop .more w
    | .sent n :: rest =>
      .go { w with
        line := { w.line with
          lBuffer := if n < w.line.lPending then w.line.lBuffer.drop n else [] }
        wire := w.wire ++ w.line.lBuffer.take n
        answers := rest }
    | .errno e :: rest =>
      if e = eagain ∨ e = eintr then .stop .more { w with answers := rest }
      else if e = enotsock ∧ w.line.lSendable then
        .go { w with line := { w.line with lSendable := false }, answers := rest }
      else .stop .failed { w with line := { w.line with lError := e }, answers := rest }

def writeTurn (w : Writer) : WriteTurn :=
  match w.state with
  | .done => .stop .done w
  | .fill =>
    match fillTurn w.line with
    | none => .stop .aborted w
    | some (state, l) => .go { w with line := l, state := state }
  | .next => .go { w with line := (nextTurn w.line).2, state := (nextTurn w.line).1 }
  | .send => sendTurn w

def writeLoop : Nat → Writer → WriteResult × Writer
  | 0, w => (.unfinished, w)
  | n + 1, w =>
    match writeTurn w with
    | .stop result w' => (result, w')
    | .go w' => writeLoop n w'

def Parse.weight (p : Parse) : Nat :=
  ((p.pArgs.take p.pGot).map fun la => (p.argText la).length + 1).sum + 1

/-- More turns than a call of `write_katcl` takes. -/
def writeFuel (l : Line) (answers : List SendAnswer) : Nat :=
  3 * answers.length + 4 * (l.lQueue.contents.map Parse.weight).sum + 3

def write (l : Line) (answers : List SendAnswer) : WriteResult × Writer :=
  writeLoop (writeFuel l answers) ⟨l, .fill, [], answers⟩

def flushing (l : Line) : Bool :=
  0 < l.lPending || 0 < l.lQueue.count

end

section

open Memory

/-- How the bytes of an argument look on the wire. -/
def encodeText (escape : Nat) (text : List Byte) : List Byte :=
  if escape ≠ 0 then escapeCopy text else text

def encodeArg (a : Arg) : List Byte :=
  if a.text = [] then [byte '\\', byte '@'] else encodeText a.escape a.text

/-- The rest of a line after one of its arguments. -/
def encodeTail (as : List Arg) : List Byte :=
  as.flatMap (fun a => byte ' ' :: encodeArg a) ++ [byte '\n']

def encodeArgs : List Arg → List Byte
  | [] => []
  | a :: as => encodeArg a ++ encodeTail as

/-- The rest of a line of which `offset` bytes of the first argument were copied. -/
def encodeFrom (offset : Nat) : List Arg → List Byte
  | [] => []
  | a :: as =>
    (if offset = 0 then encodeArg a else encodeText a.escape (a.text.drop offset)) ++ encodeTail as

theorem encodeFrom_zero (as : List Arg) : encodeFrom 0 as = encodeArgs as := by
  cases as <;> rfl

def Parse.args (p : Parse) : List Arg := p.message.args

/-- The bytes that the queue of a line still has to add to its output block. -/
def ahead (l : Line) (state : WriteState) : List Byte :=
  match l.lQueue.contents with
  | [] => []
  | p :: ps =>
    (if state = .next then encodeTail (p.args.drop l.lArg)
      else encodeFrom l.lOffset (p.args.drop l.lArg)) ++ ps.flatMap fun q => encodeArgs q.args

def Writer.stream (w : Writer) : List Byte :=
  w.wire ++ (w.line.lBuffer ++ ahead w.line w.state)

/-- A message whose arguments lie in its buffer, the first of them not empty. -/
structure Sound (p : Parse) : Prop where
  got_le : p.pGot ≤ p.pCount
  inside : ∀ la ∈ p.pArgs.take p.pGot, la.aBegin ≤ la.aEnd ∧ la.aEnd ≤ p.pSize
  first : ∃ la, (p.pArgs.take p.pGot)[0]? = some la ∧ la.aBegin < la.aEnd

theorem args_drop {p : Parse} {i : Nat} {la : Larg} (h : (p.pArgs.take p.pGot)[i]? = some la) :
    p.args.drop i = p.argOf la :: p.args.drop (i + 1) := by
  have hm : p.args[i]? = some (p.argOf la) := by
    simp only [Parse.args, Parse.message, List.getElem?_map, h, Option.map_some]
  obtain ⟨hi, he⟩ := List.getElem?_eq_some_iff.mp hm
  rw [List.drop_eq_getElem_cons hi, he]

theorem args_length {p : Parse} (h : Sound p) : p.args.length = p.pGot := by
  have := h.got_le
  simp only [Parse.args, Parse.message, List.length_map, List.length_take]
  exact Nat.min_eq_left this

theorem take_getElem? {p : Parse} {i : Nat} (hi : i < p.pGot) :
    (p.pArgs.take p.pGot)[i]? = p.pArgs[i]? := by
  rw [List.getElem?_take, if_pos hi]

theorem argText_length {p : Parse} (h : Sound p) {la : Larg} (hla : la ∈ p.pArgs.take p.pGot) :
    (p.argText la).length = la.aEnd - la.aBegin := by
  have hle : la.aEnd ≤ p.pBuffer.length := (h.inside la hla).2
  rw [Parse.argText, slice_length, Nat.min_eq_left hle]

theorem argText_drop (p : Parse) {la : Larg} {n : Nat} :
    (p.argText la).drop n = slice p.pBuffer (la.aBegin + n) la.aEnd := by
  simp only [Parse.argText, slice, List.drop_drop]

theorem setEscape_args (p : Parse) (i v : Nat) :
    (p.setEscape i v).args = p.args.modify i fun a => { a with escape := v } := by
  apply List.ext_getElem?
  intro j
  simp only [Parse.args, Parse.message, Parse.setEscape, List.getElem?_map, List.getElem?_take,
    List.getElem?_modify]
  split
  · cases p.pArgs[j]? with
    | none => rfl
    | some la => by_cases hj : i = j <;> simp [hj, Parse.argOf, Parse.argText]
  · rfl

theorem setEscape_drop (p : Parse) {i j v : Nat} (h : i < j) :
    (p.setEscape i v).args.drop j = p.args.drop j := by
  rw [setEscape_args]
  apply List.ext_getElem?
  intro k
  simp [show i ≠ j + k by omega]

theorem Sound.setEscape {p : Parse} (h : Sound p) (i v : Nat) : Sound (p.setEscape i v) := by
  have htake : ∀ j : Nat, ((p.setEscape i v).pArgs.take p.pGot)[j]? =
      ((p.pArgs.take p.pGot)[j]?).map fun la => if i = j then { la with aEscape := v } else la := by
    intro j
    simp only [Parse.setEscape, List.getElem?_take, List.getElem?_modify]
    split
    · cases p.pArgs[j]? with
      | none => rfl
      | some la => by_cases hj : i = j <;> simp [hj]
    · rfl
  refine ⟨by simpa [Parse.setEscape, Parse.pCount] using h.got_le, ?_, ?_⟩
  · intro la hla
    obtain ⟨j, hj⟩ := List.mem_iff_getElem?.mp hla
    have hj' := (htake j).symm.trans hj
    obtain ⟨old, hold, he⟩ := Option.map_eq_some_iff.mp hj'
    have hin := h.inside old (List.mem_of_getElem? hold)
    rw [← he]
    split <;> exact hin
  · obtain ⟨la, hla, hlt⟩ := h.first
    refine ⟨_, (htake 0).trans (congrArg _ hla), ?_⟩
    dsimp only
    split <;> exact hlt

/-- Where a writer stands in the message at the head of its queue. -/
def Placed (l : Line) (state : WriteState) : Prop :=
  match l.lQueue.contents with
  | [] => l.lArg = 0 ∧ l.lOffset = 0 ∧ state ≠ .next
  | p :: _ =>
    if state = .next then 0 < l.lArg ∧ l.lArg ≤ p.pGot ∧ l.lOffset = 0
    else ∃ la, (p.pArgs.take p.pGot)[l.lArg]? = some la ∧ la.aBegin + l.lOffset ≤ la.aEnd

structure Writing (w : Writer) : Prop where
  sound : ∀ p ∈ w.line.lQueue.contents, Sound p
  room : w.line.lPending + (if w.state = .next then tmpMargin - 2 else 1) ≤ ioSize
  placed : Placed w.line w.state
  finished : w.state = .done → w.line.lBuffer = [] ∧ w.line.lQueue.contents = []

def argsWork (as : List Arg) : Nat := (as.map fun a => a.text.length + 1).sum + 1

/-- The work left in the queue, the message at its head counted from where the writer is. -/
def work (l : Line) : Nat :=
  match l.lQueue.contents with
  | [] => 0
  | p :: ps => argsWork (p.args.drop l.lArg) - l.lOffset + (ps.map fun q => argsWork q.args).sum

def Writer.rank (w : Writer) : Nat :=
  match w.state with
  | .done => 0
  | .fill => 1
  | .next => 3
  | .send => if w.line.lPending = 0 then 2 else 0

theorem rank_le {w : Writer} (h : w.state = .send) : w.rank ≤ 2 := by
  unfold Writer.rank
  rw [h]
  dsimp only
  split <;> omega

theorem rank_busy {w : Writer} (h : w.state = .send) (hp : w.line.lPending ≠ 0) : w.rank = 0 := by
  unfold Writer.rank
  rw [h]
  simp only [hp, ↓reduceIte]

def Writer.measure (w : Writer) : Nat := 3 * w.answers.length + 4 * work w.line + w.rank

end

/-- The scanner reads `bs` without reporting anything. -/
def Quiet (s : Scan) (bs : List Byte) (t : Scan) : Prop :=
  ∀ n, scanner.run ⟨n, some s⟩ bs = (⟨n + bs.length, some t⟩, [])

theorem Quiet.nil (s : Scan) : Quiet s [] s := fun _ => rfl

theorem Quiet.trans {s t u : Scan} {xs ys : List Byte} (h : Quiet s xs t) (h' : Quiet t ys u) :
    Quiet s (xs ++ ys) u := by
  intro n
  rw [Transducer.run_append, h n, h' (n + xs.length), List.length_append, Nat.add_assoc]
  rfl

theorem Quiet.byte {s t : Scan} {c : Byte} (h : scanByte s c = some t) (ht : t.state ≠ .done) :
    Quiet s [c] t := by
  intro n
  simp [Transducer.run_cons, scanner, h, ht]

theorem Quiet.run {s t : Scan} {xs ys : List Byte} (h : Quiet s xs t) (n : Nat) :
    scanner.run ⟨n, some s⟩ (xs ++ ys) = scanner.run ⟨n + xs.length, some t⟩ ys := by
  rw [Transducer.run_append, h n]
  rfl

/-- A byte that stands for itself between blanks. -/
def plainByte (c : Byte) : Bool := !(isBlank c || isNewline c || c == byte '\\')

theorem escapeByte_cases (c : Byte) :
    (escapeByte c = [c] ∧ plainByte c = true) ∨
      ∃ v, escapeByte c = [byte '\\', v] ∧ v ≠ byte '@' ∧ unescape v = c := by
  unfold escapeByte
  by_cases h1 : c = 27
  · exact Or.inr ⟨_, if_pos h1, by decide, by rw [h1]; decide⟩
  by_cases h2 : c = byte '\n'
  · exact Or.inr ⟨byte 'n', by simp [h2]; decide, by decide, by rw [h2]; decide⟩
  by_cases h3 : c = byte '\r'
  · exact Or.inr ⟨byte 'r', by simp [h3]; decide, by decide, by rw [h3]; decide⟩
  by_cases h4 : c = 0
  · exact Or.inr ⟨byte '0', by simp [h4]; decide, by decide, by rw [h4]; decide⟩
  by_cases h5 : c = byte '\\'
  · exact Or.inr ⟨byte '\\', by simp [h5]; decide, by decide, by rw [h5]; decide⟩
  by_cases h6 : c = byte ' '
  · exact Or.inr ⟨byte '_', by simp [h6]; decide, by decide, by rw [h6]; decide⟩
  by_cases h7 : c = byte '\t'
  · exact Or.inr ⟨byte 't', by simp [h7]; decide, by decide, by rw [h7]; decide⟩
  · refine Or.inl ⟨by simp [h1, h2, h3, h4, h5, h6, h7], ?_⟩
    simp [plainByte, isBlank, isNewline, h2, h3, h5, h6, h7]

theorem plainByte_spec {c : Byte} (h : plainByte c = true) :
    isBlank c = false ∧ isNewline c = false ∧ c ≠ byte '\\' := by
  simpa [plainByte, and_assoc] using h

theorem quiet_plain_arg {s : Scan} (hs : s.state = .arg) {c : Byte} (hc : plainByte c = true) :
    Quiet s [c] { s with text := s.text ++ [c] } := by
  obtain ⟨hb, hn, he⟩ := plainByte_spec hc
  refine Quiet.byte ?_ (by simp [hs])
  simp [scanByte, hs, hb, hn, he, Scan.pushed]

theorem quiet_escape {s : Scan} (hs : s.state = .escape) {v : Byte} (hv : v ≠ byte '@') :
    Quiet s [v] { s with state := .arg, text := s.text ++ [unescape v], escape := 1 } := by
  refine Quiet.byte ?_ (by simp)
  simp [scanByte, hs, hv, Scan.pushed]

/-- One byte of an argument after the first one of it. -/
theorem quiet_escapeByte_arg {s : Scan} (hs : s.state = .arg) (c : Byte) :
    ∃ e, Quiet s (escapeByte c) { s with text := s.text ++ [c], escape := e } := by
  rcases escapeByte_cases c with ⟨hc, hp⟩ | ⟨v, hc, hv, hu⟩
  · rw [hc]
    exact ⟨s.escape, quiet_plain_arg hs hp⟩
  · have h1 : Quiet s [byte '\\'] { s with state := .escape } := by
      refine Quiet.byte ?_ (by simp)
      have hb : isBlank (byte '\\') = false := by decide
      have hn : isNewline (byte '\\') = false := by decide
      simp [scanByte, hs, hb, hn]
    have h2 := h1.trans (quiet_escape rfl hv)
    rw [hc, ← hu]
    exact ⟨1, by simpa [hs] using h2⟩

/-- The first byte of an argument. -/
theorem quiet_escapeByte_blank {s : Scan} (hs : s.state = .whitespace) (c : Byte) :
    ∃ e, Quiet s (escapeByte c) { s with state := .arg, text := [c], escape := e } := by
  rcases escapeByte_cases c with ⟨hc, hp⟩ | ⟨v, hc, hv, hu⟩
  · obtain ⟨hb, hn, he⟩ := plainByte_spec hp
    rw [hc]
    refine ⟨0, Quiet.byte ?_ (by simp)⟩
    simp [scanByte, hs, hb, hn, he, Scan.opened]
  · have h1 : Quiet s [byte '\\'] (s.opened .escape []) := by
      refine Quiet.byte ?_ (by simp [Scan.opened])
      have hb : isBlank (byte '\\') = false := by decide
      have hn : isNewline (byte '\\') = false := by decide
      simp [scanByte, hs, hb, hn]
    have h2 := h1.trans (quiet_escape rfl hv)
    rw [hc, ← hu]
    exact ⟨1, h2⟩

theorem quiet_text_arg {s : Scan} (hs : s.state = .arg) (escape : Nat) (text : List Byte)
    (hp : escape = 0 → ∀ c ∈ text, plainByte c = true) :
    ∃ e, Quiet s (encodeText escape text) { s with text := s.text ++ text, escape := e } := by
  induction text generalizing s with
  | nil =>
    refine ⟨s.escape, ?_⟩
    have : encodeText escape [] = [] := by simp [encodeText, escapeCopy]
    rw [this, List.append_nil]
    exact Quiet.nil s
  | cons c text ih =>
    have hrest : escape = 0 → ∀ c ∈ text, plainByte c = true :=
      fun h0 d hd => hp h0 d (List.mem_cons_of_mem c hd)
    have hhead : ∃ e, Quiet s (encodeText escape [c]) { s with text := s.text ++ [c], escape := e } := by
      by_cases h0 : escape = 0
      · simp only [encodeText, h0, ne_eq, not_true_eq_false, ↓reduceIte]
        exact ⟨s.escape, quiet_plain_arg hs (hp h0 c (by simp))⟩
      · simpa [encodeText, h0, escapeCopy] using quiet_escapeByte_arg hs c
    obtain ⟨e, he⟩ := hhead
    obtain ⟨e', he'⟩ := ih (s := { s with text := s.text ++ [c], escape := e }) hs hrest
    have hsplit : encodeText escape (c :: text) = encodeText escape [c] ++ encodeText escape text := by
      unfold encodeText
      split
      · rw [escapeCopy, List.flatMap_cons]
        simp [escapeCopy]
      · rfl
    rw [hsplit]
    refine ⟨e', ?_⟩
    simpa using he.trans he'

/-- An argument is sent raw only when each of its bytes stands for itself. -/
def Arg.Clean (a : Arg) : Prop := a.escape = 0 → ∀ c ∈ a.text, plainByte c = true

theorem quiet_encodeArg {s : Scan} (hs : s.state = .whitespace) {a : Arg} (ha : a.Clean) :
    ∃ e, Quiet s (encodeArg a) { s with state := .arg, text := a.text, escape := e } := by
  obtain ⟨text, escape⟩ := a
  cases text with
  | nil =>
    have hb : isBlank (byte '\\') = false := by decide
    have hn : isNewline (byte '\\') = false := by decide
    have h1 : Quiet s [byte '\\'] (s.opened .escape []) :=
      Quiet.byte (by simp [scanByte, hs, hb, hn]) (by simp [Scan.opened])
    have h2 : Quiet (s.opened .escape []) [byte '@']
        { s with state := .arg, text := [], escape := 1 } :=
      Quiet.byte (by simp [scanByte, Scan.opened, Scan.pushed]) (by simp)
    exact ⟨1, h1.trans h2⟩
  | cons c text =>
    have hhead : ∃ e, Quiet s (encodeText escape [c]) { s with state := .arg, text := [c], escape := e } := by
      by_cases h0 : escape = 0
      · obtain ⟨hb, hn, he⟩ := plainByte_spec (ha h0 c (by simp))
        refine ⟨0, ?_⟩
        simp only [encodeText, h0, ne_eq, not_true_eq_false, ↓reduceIte]
        refine Quiet.byte ?_ (by simp)
        simp [scanByte, hs, hb, hn, he, Scan.opened]
      · simpa [encodeText, h0, escapeCopy] using quiet_escapeByte_blank hs c
    obtain ⟨e, he⟩ := hhead
    obtain ⟨e', he'⟩ := quiet_text_arg (s := { s with state := .arg, text := [c], escape := e }) rfl
      escape text (fun h0 d hd => ha h0 d (List.mem_cons_of_mem c hd))
    refine ⟨e', ?_⟩
    have hsplit : encodeArg ⟨c :: text, escape⟩ = encodeText escape [c] ++ encodeText escape text := by
      simp only [encodeArg, reduceCtorEq, ↓reduceIte, encodeText]
      split
      · simp [escapeCopy]
      · rfl
    rw [hsplit]
    exact he.trans he'

/-- The rest of a line, read by a scanner in the middle of a command or an argument. -/
theorem scanner_encodeTail {s : Scan} (hs : s.state = .command ∨ s.state = .arg) {as : List Arg}
    (ha : ∀ a ∈ as, a.Clean) : ∃ m : Message,
      (∀ n, scanner.run ⟨n, some s⟩ (encodeTail as) =
        (⟨n + (encodeTail as).length, some .start⟩, [.message (n + (encodeTail as).length) m])) ∧
      m.args.map Arg.text = s.args.map Arg.text ++ s.text :: as.map Arg.text ∧ m.tag = s.tag := by
  induction as generalizing s with
  | nil =>
    refine ⟨(s.closed .done).message, fun n => ?_, by simp [Scan.message, Scan.closed], rfl⟩
    have hb : isBlank (byte '\n') = false := by decide
    have hn : isNewline (byte '\n') = true := by decide
    have hl : byte '\n' ≠ byte '[' := by decide
    have hscan : scanByte s (byte '\n') = some (s.closed .done) := by
      rcases hs with hs | hs <;> simp [scanByte, hs, hb, hn, hl]
    simp [encodeTail, Transducer.run_cons, scanner, hscan, Scan.closed, Scan.message]
  | cons a as ih =>
    have hb : isBlank (byte ' ') = true := by decide
    have hl : byte ' ' ≠ byte '[' := by decide
    have h1 : Quiet s [byte ' '] (s.closed .whitespace) := by
      refine Quiet.byte ?_ (by simp [Scan.closed])
      rcases hs with hs | hs <;> simp [scanByte, hs, hb, hl]
    obtain ⟨e, h2⟩ := quiet_encodeArg (s := s.closed .whitespace) rfl (ha a (by simp))
    obtain ⟨m, hm, hargs, htag⟩ := ih (s := { s.closed .whitespace with
      state := .arg, text := a.text, escape := e }) (Or.inr rfl)
      (fun x hx => ha x (List.mem_cons_of_mem a hx))
    refine ⟨m, fun n => ?_, by simp [hargs, Scan.closed], htag⟩
    have hsplit : encodeTail (a :: as) = ([byte ' '] ++ encodeArg a) ++ encodeTail as := by
      simp [encodeTail]
    rw [hsplit, (h1.trans h2).run, hm]
    simp only [List.length_append, Nat.add_assoc]

/-- A byte that may stand in the first argument of a message. -/
def commandByte (c : Byte) : Bool :=
  !(isBlank c || isNewline c || c == 0 || c == byte '\\' || c == 27 || c == byte '[')

theorem commandByte_spec {c : Byte} (h : commandByte c = true) :
    isBlank c = false ∧ isNewline c = false ∧ c ≠ byte '[' ∧ escapeByte c = [c] := by
  have hc : isBlank c = false ∧ isNewline c = false ∧ c ≠ 0 ∧ c ≠ byte '\\' ∧ c ≠ 27 ∧ c ≠ byte '[' := by
    simpa [commandByte, and_assoc] using h
  obtain ⟨hb, hn, h0, he, h27, hl⟩ := hc
  refine ⟨hb, hn, hl, ?_⟩
  simp only [isBlank, isNewline, Bool.or_eq_false_iff, decide_eq_false_iff_not] at hb hn
  simp [escapeByte, hb, hn, h0, he, h27]

theorem encodeText_command {text : List Byte} (h : ∀ c ∈ text, commandByte c = true) (escape : Nat) :
    encodeText escape text = text := by
  unfold encodeText
  split
  · induction text with
    | nil => rfl
    | cons c text ih =>
      have hc := (commandByte_spec (h c (by simp))).2.2.2
      have hrec := ih fun d hd => h d (List.mem_cons_of_mem c hd)
      simp only [escapeCopy, List.flatMap_cons] at hrec ⊢
      rw [hc, hrec]
      rfl
  · rfl

theorem quiet_command {s : Scan} (hs : s.state = .command) {text : List Byte}
    (h : ∀ c ∈ text, commandByte c = true) : Quiet s text { s with text := s.text ++ text } := by
  induction text generalizing s with
  | nil =>
    rw [List.append_nil]
    exact Quiet.nil s
  | cons c text ih =>
    obtain ⟨hb, hn, hl, _⟩ := commandByte_spec (h c (by simp))
    have h1 : Quiet s [c] { s with text := s.text ++ [c] } := by
      refine Quiet.byte ?_ (by simp [hs])
      simp [scanByte, hs, hb, hn, hl, Scan.pushed]
    have h2 := h1.trans (ih (s := { s with text := s.text ++ [c] }) hs
      fun d hd => h d (List.mem_cons_of_mem c hd))
    simpa using h2

/-- A message the protocol can carry: its first argument tells its type and holds no byte
that would have to be escaped. -/
def wellFormed : List (List Byte) → Bool
  | (c :: cs) :: _ => isType c && (c :: cs).all commandByte
  | _ => false

/-- A line written out is read back as the message it was made from. -/
theorem scanner_encodeArgs {a : Arg} {as : List Arg}
    (hw : wellFormed (a.text :: as.map Arg.text) = true) (ha : ∀ x ∈ as, x.Clean) : ∃ m : Message,
      (∀ n, scanner.run ⟨n, some .start⟩ (encodeArgs (a :: as)) =
        (⟨n + (encodeArgs (a :: as)).length, some .start⟩,
          [.message (n + (encodeArgs (a :: as)).length) m])) ∧
      m.args.map Arg.text = a.text :: as.map Arg.text ∧ m.tag = -1 := by
  obtain ⟨text, escape⟩ := a
  cases text with
  | nil => simp [wellFormed] at hw
  | cons c cs =>
    simp only [wellFormed, Bool.and_eq_true, List.all_eq_true] at hw
    obtain ⟨htype, hcmd⟩ := hw
    have h1 : Quiet .start [c] (Scan.start.opened .command [c]) :=
      Quiet.byte (by simp [scanByte, Scan.start, htype]) (by simp [Scan.opened])
    have h2 := h1.trans (quiet_command (s := Scan.start.opened .command [c]) rfl
      fun d hd => hcmd d (List.mem_cons_of_mem c hd))
    obtain ⟨m, hm, hargs, htag⟩ := scanner_encodeTail (s := { Scan.start.opened .command [c] with
      text := c :: cs }) (Or.inl rfl) ha
    refine ⟨m, fun n => ?_, by simp [hargs, Scan.opened, Scan.start], htag⟩
    have henc : encodeArg ⟨c :: cs, escape⟩ = [c] ++ cs := by
      simp only [encodeArg, reduceCtorEq, ↓reduceIte]
      exact encodeText_command hcmd escape
    simp only [encodeArgs, henc]
    have htail := hm (n + ([c] ++ cs).length)
    rw [Nat.add_assoc, ← List.length_append] at htail
    exact (h2.run n).trans htail

end Katcp
