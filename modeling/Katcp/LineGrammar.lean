import Katcp.LineEncode

namespace Katcp

/-- A byte of an argument as it is written. -/
inductive Piece
  | plain (c : Byte)
  | escaped (c : Byte)

namespace Piece

def source : Piece → List Byte
  | plain c => [c]
  | escaped c => [byte '\\', c]

def text : Piece → List Byte
  | plain c => [c]
  | escaped c => if c = byte '@' then [] else [unescape c]

def isEscaped : Piece → Bool
  | plain _ => false
  | escaped _ => true

def Ok (escapes : Byte → Bool) : Piece → Prop
  | plain c => plainByte c = true
  | escaped c => escapes c = true

end Piece

/-- An argument with the blanks before it. -/
structure ArgSyntax where
  blanks : List Byte
  pieces : List Piece

namespace ArgSyntax

def source (a : ArgSyntax) : List Byte := a.blanks ++ a.pieces.flatMap Piece.source

def arg (a : ArgSyntax) : Arg := ⟨a.pieces.flatMap Piece.text, if a.pieces.any Piece.isEscaped then 1 else 0⟩

structure Ok (escapes : Byte → Bool) (a : ArgSyntax) : Prop where
  blanks : ∀ c ∈ a.blanks, isBlank c = true
  pieces : ∀ x ∈ a.pieces, x.Ok escapes

end ArgSyntax

def wordByte (c : Byte) : Bool := !(c = byte '[' || isBlank c || isNewline c)

def decimal (digits : List Byte) : Nat :=
  digits.foldl (fun n c => n * 10 + (c.toNat - (byte '0').toNat)) 0

/-- A line without its end: what is skipped, the command word, a tag and arguments. -/
structure LineStart where
  skipped : List Byte
  kind : Byte
  word : List Byte
  tag : Option (List Byte)
  args : List ArgSyntax

namespace LineStart

def head (t : LineStart) : List Byte := t.skipped ++ t.kind :: t.word

def tagSource (t : LineStart) : List Byte :=
  match t.tag with
  | none => []
  | some digits => byte '[' :: digits ++ [byte ']']

def source (t : LineStart) : List Byte := t.head ++ t.tagSource ++ t.args.flatMap ArgSyntax.source

def words (t : LineStart) : List Arg := ⟨t.kind :: t.word, 0⟩ :: t.args.map ArgSyntax.arg

def tagValue (t : LineStart) : Int32 :=
  match t.tag with
  | none => -1
  | some digits => Int32.ofNat (decimal digits)

def push (t : LineStart) (a : ArgSyntax) : LineStart := { t with args := t.args ++ [a] }

/-- Only the first argument may follow without a blank, and only after a tag. -/
def Apart (t : LineStart) (blanks : List Byte) : Prop :=
  blanks = [] → t.args = [] ∧ t.tag.isSome = true

structure Ok (escapes : Byte → Bool) (t : LineStart) : Prop where
  skipped : ∀ c ∈ t.skipped, isType c = false
  kind : isType t.kind = true
  word : ∀ c ∈ t.word, wordByte c = true
  digits : ∀ digits, t.tag = some digits → ∀ c ∈ digits, isDigit c = true
  args : ∀ a ∈ t.args, a.Ok escapes ∧ a.pieces ≠ []
  apart : ∀ first a rest, t.args = first ++ a :: rest → LineStart.Apart { t with args := first } a.blanks

end LineStart

/-- A line as it is written, with the blanks and the CR or LF at its end. -/
structure LineSyntax extends LineStart where
  blanks : List Byte
  ending : Byte

namespace LineSyntax

def source (t : LineSyntax) : List Byte := t.toLineStart.source ++ (t.blanks ++ [t.ending])

def message (t : LineSyntax) : Message := ⟨t.words, t.tagValue⟩

structure Ok (escapes : Byte → Bool) (t : LineSyntax) : Prop where
  start : t.toLineStart.Ok escapes
  blanks : ∀ c ∈ t.blanks, isBlank c = true
  ending : isNewline t.ending = true

end LineSyntax

/-- Any byte may follow a backslash. -/
def anyEscape (_ : Byte) : Bool := true

/-- A command word and the start of a tag, up to a byte that cannot be in one. -/
structure BadTag (bs : List Byte) (c : Byte) : Prop where
  written : ∃ t : LineStart, ∃ digits, t.Ok anyEscape ∧ t.tag = some digits ∧
    bs = t.head ++ byte '[' :: digits
  digit : isDigit c = false
  bracket : c ≠ byte ']'

/-- What a stream says that is read from the offset `n` on, when `escapes` may follow a backslash:
its lines one after the other, up to a bad tag or the end of the last whole line. -/
inductive Says (escapes : Byte → Bool) : Nat → List Byte → List LineEvent → Prop
  | line {n : Nat} {t : LineSyntax} {rest : List Byte} {events : List LineEvent} : t.Ok escapes →
      Says escapes (n + t.source.length) rest events →
      Says escapes n (t.source ++ rest) (.message (n + t.source.length) t.message :: events)
  | error {n : Nat} {bs rest : List Byte} {c : Byte} : BadTag bs c →
      Says escapes n (bs ++ c :: rest) [.error (n + bs.length)]
  | silent {n : Nat} {bs : List Byte} :
      (∀ (t : LineSyntax) rest, t.Ok escapes → bs ≠ t.source ++ rest) →
      (∀ start c rest, BadTag start c → bs ≠ start ++ c :: rest) → Says escapes n bs []

section

variable {s u : Scan} {t : LineStart} {a : ArgSyntax} {bs : List Byte} {escapes : Byte → Bool}

theorem wordByte_spec {c : Byte} (h : wordByte c = true) :
    c ≠ byte '[' ∧ isBlank c = false ∧ isNewline c = false := by
  simpa [wordByte, and_assoc] using h

theorem quiet_skipped (h : ∀ c ∈ bs, isType c = false) : Quiet .start bs .start := by
  induction bs with
  | nil => exact .nil _
  | cons c bs ih =>
    have h1 : Quiet .start [c] .start :=
      Quiet.byte (by simp [scanByte, Scan.start, h c]) (by simp [Scan.start])
    exact h1.trans (ih fun d hd => h d (List.mem_cons_of_mem c hd))

theorem quiet_word (hs : s.state = .command) (h : ∀ c ∈ bs, wordByte c = true) :
    Quiet s bs { s with text := s.text ++ bs } := by
  induction bs generalizing s with
  | nil =>
    rw [List.append_nil]
    exact .nil s
  | cons c bs ih =>
    obtain ⟨hl, hb, hn⟩ := wordByte_spec (h c (List.mem_cons_self ..))
    have h1 : Quiet s [c] { s with text := s.text ++ [c] } :=
      Quiet.byte (by simp [scanByte, hs, hl, hb, hn, Scan.pushed]) (by simp [hs])
    have h2 := @ih { s with text := s.text ++ [c] } hs fun d hd => h d (List.mem_cons_of_mem c hd)
    simpa using h1.trans h2

theorem decimal_append (digits : List Byte) (c : Byte) :
    decimal (digits ++ [c]) = decimal digits * 10 + (c.toNat - (byte '0').toNat) := by
  simp [decimal]

theorem tag_step (digits : List Byte) (c : Byte) :
    Int32.ofNat (decimal digits) * 10 + Int32.ofNat (c.toNat - (byte '0').toNat) =
      Int32.ofNat (decimal (digits ++ [c])) := by
  rw [decimal_append, Int32.ofNat_add, Int32.ofNat_mul]
  rfl

theorem quiet_digits {digits : List Byte} (hs : s.state = .tag) (htag : s.tag = Int32.ofNat (decimal digits))
    (h : ∀ c ∈ bs, isDigit c = true) :
    Quiet s bs { s with tag := Int32.ofNat (decimal (digits ++ bs)) } := by
  induction bs generalizing s digits with
  | nil =>
    rw [List.append_nil, ← htag]
    exact .nil s
  | cons c bs ih =>
    have h1 : Quiet s [c] { s with tag := Int32.ofNat (decimal (digits ++ [c])) } :=
      Quiet.byte (by simp [scanByte, hs, h c, htag, tag_step]) (by simp [hs])
    have h2 := @ih { s with tag := Int32.ofNat (decimal (digits ++ [c])) } (digits ++ [c]) hs rfl
      fun d hd => h d (List.mem_cons_of_mem c hd)
    simpa using h1.trans h2

theorem quiet_blanks (hs : s.state = .whitespace) (h : ∀ c ∈ bs, isBlank c = true) : Quiet s bs s := by
  induction bs with
  | nil => exact .nil s
  | cons c bs ih =>
    have h1 : Quiet s [c] s := Quiet.byte (by simp [scanByte, hs, h c]) (by simp [hs])
    exact h1.trans (ih fun d hd => h d (List.mem_cons_of_mem c hd))

theorem quiet_piece {x : Piece} (hs : s.state = .arg) (hx : x.Ok escapes) :
    Quiet s x.source { s with
      text := s.text ++ x.text, escape := if x.isEscaped then 1 else s.escape } := by
  cases x with
  | plain c =>
    obtain ⟨hb, hn, he⟩ := plainByte_spec hx
    exact Quiet.byte (by simp [scanByte, hs, hb, hn, he, Scan.pushed, Piece.text, Piece.isEscaped]) (by simp [hs])
  | escaped c =>
    have h1 : Quiet s [byte '\\'] { s with state := .escape } :=
      Quiet.byte (by simp [scanByte, hs, isBlank, isNewline, show byte '\\' ≠ byte ' ' by decide,
        show byte '\\' ≠ byte '\t' by decide, show byte '\\' ≠ byte '\n' by decide,
        show byte '\\' ≠ byte '\r' by decide]) (by simp)
    have h2 : Quiet { s with state := .escape } [c] { s with
        text := s.text ++ (Piece.escaped c).text, escape := 1 } :=
      Quiet.byte (by simp [scanByte, Scan.pushed, Piece.text, hs]) (by simp [hs])
    exact h1.trans h2

theorem quiet_pieces {xs : List Piece} (hs : s.state = .arg) (hxs : ∀ x ∈ xs, x.Ok escapes) :
    Quiet s (xs.flatMap Piece.source) { s with
      text := s.text ++ xs.flatMap Piece.text
      escape := if xs.any Piece.isEscaped then 1 else s.escape } := by
  induction xs generalizing s with
  | nil => simpa using Quiet.nil s
  | cons x xs ih =>
    have h1 := quiet_piece hs (hxs x (List.mem_cons_self ..))
    have h2 := h1.trans (ih hs fun y hy => hxs y (List.mem_cons_of_mem x hy))
    have hescape : (if (x :: xs).any Piece.isEscaped then 1 else s.escape) =
        if xs.any Piece.isEscaped then 1 else if x.isEscaped then 1 else s.escape := by
      rw [List.any_cons]
      cases x.isEscaped <;> cases xs.any Piece.isEscaped <;> rfl
    rw [List.flatMap_cons, List.flatMap_cons, hescape, ← List.append_assoc]
    exact h2

end

section

variable {s u : Scan} {t : LineStart} {a : ArgSyntax} {bs : List Byte} {escapes : Byte → Bool}

/-- The scanner has read this much of a line. -/
structure AtEnd (t : LineStart) (s : Scan) : Prop where
  tag : s.tag = t.tagValue
  place : (s.state = .command ∨ s.state = .arg) ∧ s.args ++ [⟨s.text, s.escape⟩] = t.words ∨
    s.state = .whitespace ∧ s.args = t.words
  first : t.args = [] → t.tag.isSome = true → s.state = .whitespace

def commandScan (t : LineStart) : Scan := ⟨.command, [], t.kind :: t.word, 0, -1⟩

theorem quiet_head (h : t.Ok escapes) : Quiet .start t.head (commandScan t) := by
  have h1 := quiet_skipped h.skipped
  have h2 : Quiet .start [t.kind] (Scan.start.opened .command [t.kind]) :=
    Quiet.byte (by simp [scanByte, Scan.start, h.kind]) (by simp [Scan.opened])
  have h3 := quiet_word (s := Scan.start.opened .command [t.kind]) rfl h.word
  exact h1.trans (h2.trans h3)

theorem quiet_tag {digits : List Byte} (h : ∀ c ∈ digits, isDigit c = true) :
    Quiet (commandScan t) (byte '[' :: digits) { (commandScan t).closed .tag with
      tag := Int32.ofNat (decimal digits) } := by
  have h1 : Quiet (commandScan t) [byte '['] { (commandScan t).closed .tag with tag := 0 } :=
    Quiet.byte (by simp [scanByte, commandScan]) (by simp [Scan.closed])
  have h2 := @quiet_digits { (commandScan t).closed .tag with tag := 0 } digits [] rfl rfl h
  exact h1.trans h2

theorem quiet_heading (h : t.Ok escapes) (hargs : t.args = []) :
    ∃ s, Quiet .start t.source s ∧ AtEnd t s := by
  have hhead := quiet_head h
  have hwords : t.words = [⟨t.kind :: t.word, 0⟩] := by rw [LineStart.words, hargs, List.map_nil]
  unfold LineStart.source LineStart.tagSource
  cases htag : t.tag with
  | none =>
    refine ⟨commandScan t, by simpa [hargs] using hhead, ?_, Or.inl ⟨Or.inl rfl, hwords.symm⟩, ?_⟩
    · rw [LineStart.tagValue, htag]
      rfl
    · simp [htag]
  | some digits =>
    have hclosed := (hhead.trans (quiet_tag (t := t) (h.digits digits htag))).trans
      (Quiet.byte (c := byte ']') (t := { (commandScan t).closed .whitespace with
        tag := Int32.ofNat (decimal digits) }) ?_ (by simp [Scan.closed]))
    · refine ⟨_, by simpa [hargs] using hclosed, ?_, Or.inr ⟨rfl, hwords.symm⟩, fun _ _ => rfl⟩
      rw [LineStart.tagValue, htag]
    · rfl

theorem AtEnd.spaced (h : AtEnd t s) (hb : ∀ c ∈ bs, isBlank c = true) (hne : t.Apart bs) :
    ∃ u, Quiet s bs u ∧ u.state = .whitespace ∧ u.args = t.words ∧ u.tag = t.tagValue := by
  rcases h.place with ⟨hs, hw⟩ | ⟨hs, hw⟩
  · cases bs with
    | nil =>
      obtain ⟨hargs, htag⟩ := hne rfl
      rw [h.first hargs htag] at hs
      simp at hs
    | cons c bs =>
      have hc := hb c (List.mem_cons_self ..)
      have hl : c ≠ byte '[' := by
        rintro rfl
        exact absurd hc (by decide)
      have h1 : Quiet s [c] (s.closed .whitespace) := by
        rcases hs with hs | hs
        · exact Quiet.byte (by simp [scanByte, hs, hl, hc]) (by simp [Scan.closed])
        · exact Quiet.byte (by simp [scanByte, hs, hc]) (by simp [Scan.closed])
      have h2 := quiet_blanks (s := s.closed .whitespace) rfl fun d hd => hb d (List.mem_cons_of_mem c hd)
      exact ⟨_, h1.trans h2, rfl, hw, h.tag⟩
  · exact ⟨s, quiet_blanks hs hb, hs, hw, h.tag⟩

theorem quiet_arg {xs : List Piece} (hs : s.state = .whitespace) (hxs : ∀ x ∈ xs, x.Ok escapes)
    (hne : xs ≠ []) : Quiet s (xs.flatMap Piece.source) { s with
      state := .arg
      text := xs.flatMap Piece.text
      escape := if xs.any Piece.isEscaped then 1 else 0 } := by
  cases xs with
  | nil => exact absurd rfl hne
  | cons x xs =>
    have h1 : Quiet s x.source { s with
        state := .arg, text := x.text, escape := if x.isEscaped then 1 else 0 } := by
      have hx := hxs x (List.mem_cons_self ..)
      cases x with
      | plain c =>
        obtain ⟨hb, hn, he⟩ := plainByte_spec hx
        exact Quiet.byte (by simp [scanByte, hs, hb, hn, he, Scan.opened, Piece.text, Piece.isEscaped]) (by simp)
      | escaped c =>
        have h1 : Quiet s [byte '\\'] (s.opened .escape []) := by
          refine Quiet.byte ?_ (by simp [Scan.opened])
          rw [scanByte, hs]
          rfl
        have h2 : Quiet (s.opened .escape []) [c] { s with
            state := .arg, text := (Piece.escaped c).text, escape := 1 } :=
          Quiet.byte (by simp [scanByte, Scan.opened, Scan.pushed, Piece.text]) (by simp)
        exact h1.trans h2
    have h2 := h1.trans (quiet_pieces rfl fun y hy => hxs y (List.mem_cons_of_mem x hy))
    have hescape : (if (x :: xs).any Piece.isEscaped then 1 else 0) =
        if xs.any Piece.isEscaped then 1 else if x.isEscaped then 1 else 0 := by
      rw [List.any_cons]
      cases x.isEscaped <;> cases xs.any Piece.isEscaped <;> rfl
    rw [List.flatMap_cons, List.flatMap_cons, hescape]
    exact h2

theorem push_words (t : LineStart) (a : ArgSyntax) : (t.push a).words = t.words ++ [a.arg] := by
  simp [LineStart.push, LineStart.words]

theorem push_source (t : LineStart) (a : ArgSyntax) : (t.push a).source = t.source ++ a.source := by
  simp [LineStart.push, LineStart.source, LineStart.head, LineStart.tagSource]

theorem AtEnd.push (h : AtEnd t s) (ha : a.Ok escapes) (hne : a.pieces ≠ []) (hapart : t.Apart a.blanks) :
    ∃ u, Quiet s a.source u ∧ AtEnd (t.push a) u := by
  obtain ⟨w, hw, hst, hargs, htag⟩ := h.spaced ha.blanks hapart
  refine ⟨_, hw.trans (quiet_arg hst ha.pieces hne), htag, Or.inl ⟨Or.inr rfl, ?_⟩, ?_⟩
  · rw [push_words, ← hargs]
    rfl
  · simp [LineStart.push]

theorem quiet_start {args : List ArgSyntax} (h : LineStart.Ok escapes { t with args := args }) :
    ∃ s, Quiet .start (LineStart.source { t with args := args }) s ∧ AtEnd { t with args := args } s := by
  induction args using List.reverseRecOn with
  | nil => exact quiet_heading h rfl
  | append_singleton args a ih =>
    have hold : LineStart.Ok escapes { t with args := args } := by
      refine ⟨h.skipped, h.kind, h.word, h.digits, fun x hx => h.args x (List.mem_append_left _ hx), ?_⟩
      intro first x rest he
      exact h.apart first x (rest ++ [a]) (by simp [show args = first ++ x :: rest from he])
    obtain ⟨s, hs, hend⟩ := ih hold
    obtain ⟨ha, hne⟩ := h.args a (List.mem_append_right _ (List.mem_singleton_self a))
    obtain ⟨u, hu, hend'⟩ := hend.push ha hne (h.apart args a [] rfl)
    refine ⟨u, ?_, hend'⟩
    have hsource := push_source { t with args := args } a
    rw [LineStart.push] at hsource
    rw [hsource]
    exact hs.trans hu

theorem newline_specs {c : Byte} (h : isNewline c = true) : isBlank c = false ∧ c ≠ byte '[' := by
  have hc : c = byte '\n' ∨ c = byte '\r' := by simpa [isNewline] using h
  rcases hc with rfl | rfl <;> decide

theorem AtEnd.finish (h : AtEnd t s) {c : Byte} (hc : isNewline c = true) :
    ∃ u, scanByte s c = some u ∧ u.state = .done ∧ u.message = ⟨t.words, t.tagValue⟩ := by
  obtain ⟨hb, hl⟩ := newline_specs hc
  rcases h.place with ⟨hs, hw⟩ | ⟨hs, hw⟩
  · refine ⟨s.closed .done, ?_, rfl, ?_⟩
    · rcases hs with hs | hs
      · simp [scanByte, hs, hb, hl, hc]
      · simp [scanByte, hs, hb, hc]
    · simp [Scan.message, Scan.closed, hw, h.tag]
  · exact ⟨{ s with state := .done }, by simp [scanByte, hs, hb, hc], rfl,
      by simp [Scan.message, hw, h.tag]⟩

theorem run_finish (hq : Quiet .start bs s) {c : Byte} (hu : scanByte s c = some u) (hd : u.state = .done)
    (n : Nat) : scanner.run ⟨n, some .start⟩ (bs ++ [c]) =
      (⟨n + (bs ++ [c]).length, some .start⟩, [.message (n + (bs ++ [c]).length) u.message]) := by
  rw [hq.run, Transducer.run_cons]
  simp [scanner, hu, hd, Nat.add_assoc]

/-- The scanner reads a line of the grammar as its message. -/
theorem run_line {t : LineSyntax} (h : t.Ok escapes) (n : Nat) :
    scanner.run ⟨n, some .start⟩ t.source =
      (⟨n + t.source.length, some .start⟩, [.message (n + t.source.length) t.message]) := by
  obtain ⟨s, hs, hend⟩ := @quiet_start t.toLineStart escapes t.args h.start
  have hmessage : ∃ w u, Quiet .start (t.toLineStart.source ++ t.blanks) w ∧
      scanByte w t.ending = some u ∧ u.state = .done ∧ u.message = t.message := by
    by_cases hb : t.blanks = []
    · obtain ⟨u, hu, hd, hm⟩ := hend.finish h.ending
      exact ⟨s, u, by rw [hb, List.append_nil]; exact hs, hu, hd, hm⟩
    · obtain ⟨w, hw, hst, hargs, htag⟩ := hend.spaced h.blanks (fun he => absurd he hb)
      have hend' : AtEnd t.toLineStart w := ⟨htag, Or.inr ⟨hst, hargs⟩, fun _ _ => hst⟩
      obtain ⟨u, hu, hd, hm⟩ := hend'.finish h.ending
      exact ⟨w, u, hs.trans hw, hu, hd, hm⟩
  obtain ⟨w, u, hw, hu, hd, hm⟩ := hmessage
  have hrun := run_finish hw hu hd n
  rw [hm, List.append_assoc] at hrun
  exact hrun

theorem run_error (hq : Quiet .start bs s) {c : Byte} (hu : scanByte s c = none) (n : Nat) (rest : List Byte) :
    scanner.run ⟨n, some .start⟩ (bs ++ c :: rest) = (⟨n + bs.length, none⟩, [.error (n + bs.length)]) := by
  have hstep : scanner.step ⟨n + bs.length, some s⟩ c = (⟨n + bs.length, none⟩, [.error (n + bs.length)]) := by
    simp [scanner, hu]
  rw [hq.run, Transducer.run_cons, hstep, Transducer.run_dead (scanner_dead _)]
  rfl

theorem run_badTag {c : Byte} (h : BadTag bs c) (n : Nat) (rest : List Byte) :
    scanner.run ⟨n, some .start⟩ (bs ++ c :: rest) = (⟨n + bs.length, none⟩, [.error (n + bs.length)]) := by
  obtain ⟨t, digits, ht, htag, rfl⟩ := h.written
  have hq := (quiet_head ht).trans (quiet_tag (t := t) (ht.digits digits htag))
  refine run_error hq ?_ n rest
  simp [scanByte, Scan.closed, h.digit, h.bracket]

end

end Katcp
