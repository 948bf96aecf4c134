import Katcp.LineGrammar

namespace Katcp

section

variable {s u : Scan} {t : LineStart} {a : ArgSyntax} {bs : List Byte} {c : Byte}

/-- What the scanner has read when it is in the middle of a line. -/
inductive Partly : List Byte → Scan → Prop
  | fresh {bs : List Byte} : (∀ c ∈ bs, isType c = false) → Partly bs .start
  | command {t : LineStart} : t.Ok anyEscape → t.tag = none → t.args = [] → Partly t.head (commandScan t)
  | tag {t : LineStart} {digits : List Byte} : t.Ok anyEscape → t.tag = some digits → t.args = [] →
      Partly (t.head ++ byte '[' :: digits) { (commandScan t).closed .tag with
        tag := Int32.ofNat (decimal digits) }
  | whitespace {t : LineStart} {blanks : List Byte} {s : Scan} : t.Ok anyEscape →
      (∀ c ∈ blanks, isBlank c = true) → t.Apart blanks → s.state = .whitespace →
      Partly (t.source ++ blanks) s
  | arg {t : LineStart} {a : ArgSyntax} {s : Scan} : t.Ok anyEscape → a.Ok anyEscape → a.pieces ≠ [] →
      t.Apart a.blanks → s.state = .arg → Partly (t.source ++ a.source) s
  | escape {t : LineStart} {a : ArgSyntax} {s : Scan} : t.Ok anyEscape → a.Ok anyEscape →
      t.Apart a.blanks → s.state = .escape → Partly (t.source ++ a.source ++ [byte '\\']) s

theorem LineStart.Ok.push (h : t.Ok anyEscape) (ha : a.Ok anyEscape) (hne : a.pieces ≠ [])
    (hapart : t.Apart a.blanks) : (t.push a).Ok anyEscape where
  skipped := h.skipped
  kind := h.kind
  word := h.word
  digits := h.digits
  args x hx := by
    rcases List.mem_append.mp hx with hx | hx
    · exact h.args x hx
    · rw [List.mem_singleton.mp hx]
      exact ⟨ha, hne⟩
  apart first x rest he := by
    rcases List.eq_nil_or_concat rest with rfl | ⟨front, last, rfl⟩
    · obtain ⟨h1, h2⟩ := List.append_inj' he rfl
      cases h2
      have hfirst : t.args = first := h1
      simpa [LineStart.Apart, LineStart.push, hfirst] using hapart
    · have he' : t.args ++ [a] = (first ++ x :: front) ++ [last] := by simpa [LineStart.push] using he
      exact h.apart first x front (List.append_inj' he' rfl).1

theorem ArgSyntax.Ok.push (h : a.Ok anyEscape) {x : Piece} (hx : x.Ok anyEscape) :
    ArgSyntax.Ok anyEscape { a with pieces := a.pieces ++ [x] } where
  blanks := h.blanks
  pieces y hy := by
    rcases List.mem_append.mp hy with hy | hy
    · exact h.pieces y hy
    · rw [List.mem_singleton.mp hy]
      exact hx

theorem argSyntax_push_source (a : ArgSyntax) (x : Piece) :
    ArgSyntax.source { a with pieces := a.pieces ++ [x] } = a.source ++ x.source := by
  simp [ArgSyntax.source]

theorem bare_source (htag : t.tag = none) (hargs : t.args = []) : t.source = t.head := by
  simp [LineStart.source, LineStart.tagSource, htag, hargs]

theorem plainByte_of (hb : isBlank c = false) (hn : isNewline c = false) (he : c ≠ byte '\\') :
    plainByte c = true := by
  simp [plainByte, hb, hn, he]

/-- A byte in a command word. -/
theorem Partly.command_step (h : t.Ok anyEscape) (htag : t.tag = none) (hargs : t.args = [])
    (hs : scanByte (commandScan t) c = some u) (hd : u.state ≠ .done) : Partly (t.head ++ [c]) u := by
  simp only [scanByte, commandScan] at hs
  split at hs
  next hc =>
    cases hs
    subst hc
    have hok : LineStart.Ok anyEscape { t with tag := some [] } := by
      refine ⟨h.skipped, h.kind, h.word, ?_, h.args, ?_⟩
      · intro digits hdigits
        cases hdigits
        simp
      · intro first x rest he
        simp [hargs] at he
    exact .tag (t := { t with tag := some [] }) hok rfl hargs
  next hl =>
    split at hs
    next hb =>
      cases hs
      rw [← bare_source htag hargs]
      refine .whitespace h ?_ ?_ rfl
      · intro d hmem
        rwa [List.mem_singleton.mp hmem]
      · simp [LineStart.Apart]
    next hb =>
      split at hs
      · cases hs
        exact absurd rfl hd
      next hn =>
        cases hs
        have hword : wordByte c = true := by
          simp [wordByte, hl, Bool.not_eq_true _ ▸ hb, Bool.not_eq_true _ ▸ hn]
        have hok : LineStart.Ok anyEscape { t with word := t.word ++ [c] } := by
          refine ⟨h.skipped, h.kind, ?_, h.digits, h.args, h.apart⟩
          intro d hmem
          rcases List.mem_append.mp hmem with hmem | hmem
          · exact h.word d hmem
          · rwa [List.mem_singleton.mp hmem]
        have hhead : LineStart.head { t with word := t.word ++ [c] } = t.head ++ [c] := by
          simp [LineStart.head]
        rw [← hhead]
        exact .command hok htag hargs

theorem Partly.tag_step {digits : List Byte} (h : t.Ok anyEscape) (htag : t.tag = some digits)
    (hargs : t.args = []) (hs : scanByte { (commandScan t).closed .tag with
      tag := Int32.ofNat (decimal digits) } c = some u) :
    Partly (t.head ++ byte '[' :: digits ++ [c]) u := by
  simp only [scanByte, Scan.closed] at hs
  split at hs
  next hc =>
    cases hs
    have hok : LineStart.Ok anyEscape { t with tag := some (digits ++ [c]) } := by
      refine ⟨h.skipped, h.kind, h.word, ?_, h.args, ?_⟩
      · intro ds hds
        cases hds
        intro d hmem
        rcases List.mem_append.mp hmem with hmem | hmem
        · exact h.digits digits htag d hmem
        · rwa [List.mem_singleton.mp hmem]
      · intro first x rest he
        simp [hargs] at he
    have hp := Partly.tag (t := { t with tag := some (digits ++ [c]) }) hok rfl hargs
    rw [tag_step]
    rw [List.append_assoc]
    exact hp
  next =>
    split at hs
    next hc =>
      cases hs
      subst hc
      have hsource : t.source ++ [] = t.head ++ byte '[' :: digits ++ [byte ']'] := by
        simp [LineStart.source, LineStart.tagSource, htag, hargs]
      rw [← hsource]
      exact .whitespace h (by simp) (fun _ => ⟨hargs, by simp [htag]⟩) rfl
    next => cases hs

theorem Partly.whitespace_step {blanks : List Byte} (h : t.Ok anyEscape)
    (hb : ∀ c ∈ blanks, isBlank c = true) (hapart : t.Apart blanks) (hst : s.state = .whitespace)
    (hs : scanByte s c = some u) (hd : u.state ≠ .done) : Partly (t.source ++ blanks ++ [c]) u := by
  have hbare : ArgSyntax.Ok anyEscape ⟨blanks, []⟩ := ⟨hb, by simp⟩
  simp only [scanByte, hst] at hs
  split at hs
  next hc =>
    cases hs
    rw [List.append_assoc]
    refine .whitespace h ?_ ?_ hst
    · intro d hmem
      rcases List.mem_append.mp hmem with hmem | hmem
      · exact hb d hmem
      · rwa [List.mem_singleton.mp hmem]
    · simp [LineStart.Apart]
  next hblank =>
    split at hs
    · cases hs
      exact absurd rfl hd
    next hline =>
      split at hs
      next hc =>
        cases hs
        subst hc
        have hp := Partly.escape (s := s.opened .escape []) h hbare hapart rfl
        simpa [ArgSyntax.source] using hp
      next hback =>
        cases hs
        have hplain : Piece.Ok anyEscape (.plain c) :=
          plainByte_of (by simpa using hblank) (by simpa using hline) hback
        have hp := Partly.arg (s := s.opened .arg [c]) h (hbare.push hplain) (by simp) hapart rfl
        simpa [ArgSyntax.source, Piece.source] using hp

theorem Partly.arg_step (h : t.Ok anyEscape) (ha : a.Ok anyEscape) (hne : a.pieces ≠ [])
    (hapart : t.Apart a.blanks) (hst : s.state = .arg) (hs : scanByte s c = some u)
    (hd : u.state ≠ .done) : Partly (t.source ++ a.source ++ [c]) u := by
  simp only [scanByte, hst] at hs
  split at hs
  next hc =>
    cases hs
    rw [← push_source]
    refine .whitespace (h.push ha hne hapart) ?_ ?_ rfl
    · intro d hmem
      rwa [List.mem_singleton.mp hmem]
    · simp [LineStart.Apart]
  next hblank =>
    split at hs
    · cases hs
      exact absurd rfl hd
    next hline =>
      split at hs
      next hc =>
        cases hs
        subst hc
        exact .escape h ha hapart rfl
      next hback =>
        cases hs
        have hplain : Piece.Ok anyEscape (.plain c) :=
          plainByte_of (by simpa using hblank) (by simpa using hline) hback
        have hp := Partly.arg (s := s.pushed .arg [c]) h (ha.push hplain) (by simp) hapart rfl
        rw [argSyntax_push_source] at hp
        simpa [Piece.source] using hp

theorem Partly.escape_step (h : t.Ok anyEscape) (ha : a.Ok anyEscape) (hapart : t.Apart a.blanks)
    (hst : s.state = .escape) (hs : scanByte s c = some u) :
    Partly (t.source ++ a.source ++ [byte '\\'] ++ [c]) u := by
  simp only [scanByte, hst] at hs
  cases hs
  have hescaped : Piece.Ok anyEscape (.escaped c) := rfl
  have hp := Partly.arg (a := { a with pieces := a.pieces ++ [.escaped c] }) (t := t)
    (s := { s.pushed .arg (if c = byte '@' then [] else [unescape c]) with escape := 1 }) h
    (ha.push hescaped) (by simp) hapart rfl
  rw [argSyntax_push_source] at hp
  simpa [Piece.source] using hp

theorem Partly.step (h : Partly bs s) (hs : scanByte s c = some u) (hd : u.state ≠ .done) :
    Partly (bs ++ [c]) u := by
  cases h with
  | fresh hskip =>
    simp only [scanByte, Scan.start] at hs
    split at hs
    next hc =>
      cases hs
      let t : LineStart := ⟨bs, c, [], none, []⟩
      have hok : t.Ok anyEscape := ⟨hskip, hc, by simp [t], by simp [t], by simp [t], by simp [t]⟩
      exact .command hok rfl rfl
    next hc =>
      cases hs
      refine .fresh fun d hmem => ?_
      rcases List.mem_append.mp hmem with hmem | hmem
      · exact hskip d hmem
      · rw [List.mem_singleton.mp hmem]
        simpa using hc
  | command hok htag hargs => exact .command_step hok htag hargs hs hd
  | tag hok htag hargs => exact .tag_step hok htag hargs hs
  | whitespace hok hb hapart hst => exact .whitespace_step hok hb hapart hst hs hd
  | arg hok ha hne hapart hst => exact .arg_step hok ha hne hapart hst hs hd
  | escape hok ha hapart hst => exact .escape_step hok ha hapart hst hs

end

section

variable {s u : Scan} {t : LineStart} {bs : List Byte} {c : Byte} {n : Nat} {events : List LineEvent}

theorem LineStart.Ok.closed {blanks : List Byte} (h : t.Ok anyEscape) (hb : ∀ c ∈ blanks, isBlank c = true)
    (hc : isNewline c = true) : ∃ l : LineSyntax, l.Ok anyEscape ∧ l.source = t.source ++ blanks ++ [c] := by
  let l : LineSyntax := { t with blanks := blanks, ending := c }
  exact ⟨l, ⟨h, hb, hc⟩, (List.append_assoc ..).symm⟩

theorem newline_of_done (hs : scanByte s c = some u) (hd : u.state = .done) (hne : s.state ≠ .done) :
    isNewline c = true := by
  by_contra hc
  unfold scanByte at hs
  split at hs
  all_goals repeat' split at hs
  all_goals cases hs
  all_goals first | exact hne hd | exact hc ‹isNewline c = true› | cases hd

theorem Partly.finish (h : Partly bs s) (hs : scanByte s c = some u) (hd : u.state = .done) :
    ∃ l : LineSyntax, l.Ok anyEscape ∧ l.source = bs ++ [c] := by
  cases h with
  | fresh =>
    simp only [scanByte, Scan.start] at hs
    split at hs <;> cases hs <;> cases hd
  | @command t hok htag hargs =>
    have hc := newline_of_done hs hd (by simp [commandScan])
    obtain ⟨l, hl, hsource⟩ := @LineStart.Ok.closed t c [] hok (by simp) hc
    exact ⟨l, hl, by rw [hsource, bare_source htag hargs, List.append_nil]⟩
  | tag =>
    simp only [scanByte, Scan.closed] at hs
    repeat' split at hs
    all_goals cases hs
    all_goals cases hd
  | whitespace hok hb _ hst => exact hok.closed hb (newline_of_done hs hd (by simp [hst]))
  | @arg t a s hok ha hne hapart hst =>
    have hc := newline_of_done hs hd (by simp [hst])
    obtain ⟨l, hl, hsource⟩ := @LineStart.Ok.closed _ c [] (hok.push ha hne hapart) (by simp) hc
    exact ⟨l, hl, by rw [hsource, push_source, List.append_nil]⟩
  | escape _ _ _ hst =>
    simp only [scanByte, hst] at hs
    cases hs
    cases hd

theorem Partly.fail (h : Partly bs s) (hs : scanByte s c = none) : BadTag bs c := by
  cases h with
  | fresh =>
    simp only [scanByte, Scan.start] at hs
    split at hs <;> cases hs
  | command =>
    simp only [scanByte, commandScan] at hs
    repeat' split at hs
    all_goals cases hs
  | @tag t digits hok htag _ =>
    simp only [scanByte, Scan.closed] at hs
    split at hs
    · cases hs
    next hdigit =>
      split at hs
      · cases hs
      next hbracket => exact ⟨⟨t, digits, hok, htag, rfl⟩, by simpa using hdigit, hbracket⟩
  | whitespace _ _ _ hst | arg _ _ _ _ hst | escape _ _ _ hst =>
    simp only [scanByte, hst] at hs
    repeat' split at hs
    all_goals cases hs

/-- The first thing the scanner says of a stream, if any. -/
inductive FirstSays (bs : List Byte) : Prop
  | nothing {s : Scan} : Quiet .start bs s → Partly bs s → FirstSays bs
  | line {l : LineSyntax} {rest : List Byte} : l.Ok anyEscape → bs = l.source ++ rest → FirstSays bs
  | error {front rest : List Byte} {c : Byte} : BadTag front c → bs = front ++ c :: rest → FirstSays bs

theorem first_says (bs : List Byte) : FirstSays bs := by
  induction bs using List.reverseRecOn with
  | nil => exact .nothing (.nil _) (.fresh (by simp))
  | append_singleton bs c ih =>
    cases ih with
    | @nothing s hq hp =>
      cases hs : scanByte s c with
      | none => exact @FirstSays.error _ bs [] c (hp.fail hs) rfl
      | some u =>
        by_cases hd : u.state = .done
        · obtain ⟨l, hl, hsource⟩ := hp.finish hs hd
          exact @FirstSays.line _ l [] hl (by rw [hsource, List.append_nil])
        · exact .nothing (hq.trans (.byte hs hd)) (hp.step hs hd)
    | line hl he => exact .line hl (by rw [he, List.append_assoc])
    | @error front rest d hbad he =>
      exact @FirstSays.error _ front (rest ++ [c]) d hbad (by rw [he, List.append_assoc, List.cons_append])

theorem line_source_pos (l : LineSyntax) : 0 < l.source.length := by
  simp only [LineSyntax.source, List.length_append, List.length_singleton]
  omega

/-- The scanner says what the grammar says. -/
theorem scanner_speaks (n : Nat) (bs : List Byte) :
    Says anyEscape n bs (scanner.run ⟨n, some .start⟩ bs).2 := by
  cases first_says bs with
  | @nothing s hq hp =>
    rw [hq n]
    refine .silent ?_ ?_
    · rintro l rest hl rfl
      have hrun := hq n
      rw [Transducer.run_append, run_line hl] at hrun
      simp at hrun
    · rintro front c rest hbad rfl
      have hrun := hq n
      rw [run_badTag hbad] at hrun
      simp at hrun
  | @line l rest hl he =>
    subst he
    rw [Transducer.run_append, run_line hl]
    exact .line hl (scanner_speaks (n + l.source.length) rest)
  | error hbad he =>
    subst he
    rw [run_badTag hbad]
    exact .error hbad
termination_by bs.length
decreasing_by
  have hpos := line_source_pos l
  have hlen := congrArg List.length he
  rw [List.length_append] at hlen
  omega

/-- A stream has one reading. -/
theorem Says.scanned (h : Says anyEscape n bs events) : (scanner.run ⟨n, some .start⟩ bs).2 = events := by
  induction h with
  | line hl _ ih =>
    rw [Transducer.run_append, run_line hl, ih]
    rfl
  | error hbad => rw [run_badTag hbad]
  | @silent n bs hline herror =>
    cases first_says bs with
    | nothing hq => rw [hq n]
    | line hl he => exact absurd he (hline _ _ hl)
    | error hbad he => exact absurd he (herror _ _ _ hbad)

/-- However a stream is cut, what is read from it is what the grammar says, and nothing else. -/
theorem session_says_grammar {chunks : List Chunk} {events : List LineEvent}
    (h : session chunks = some events) (other : List LineEvent) :
    Says anyEscape 0 (chunks.flatMap Chunk.bytes) other ↔ other = events := by
  have hscan := session_eq_scanner h
  constructor
  · intro hsays
    rw [hscan, ← hsays.scanned]
  · rintro rfl
    rw [hscan]
    exact scanner_speaks 0 _

theorem session_says_cut : Says anyEscape 0 (cutStream.flatMap Chunk.bytes)
    [.message 10 ⟨[⟨[35, 97], 0⟩, ⟨[10], 1⟩], 12⟩, .message 14 ⟨[⟨[63, 98], 0⟩], -1⟩] :=
  (session_says_grammar (show session cutStream = _ by decide) _).mpr rfl

/-- What stands in a line between what is skipped and its end. -/
def LineSyntax.body (l : LineSyntax) : List Byte :=
  l.kind :: l.word ++ l.tagSource ++ l.args.flatMap ArgSyntax.source ++ l.blanks

theorem not_newline_of_blank (h : isBlank c = true) : isNewline c = false := by
  have hc : c = byte ' ' ∨ c = byte '\t' := by simpa [isBlank] using h
  rcases hc with rfl | rfl <;> decide

theorem not_newline_of_type (h : isType c = true) : isNewline c = false := by
  have hc : (c = byte '#' ∨ c = byte '!') ∨ c = byte '?' := by simpa [isType] using h
  rcases hc with (rfl | rfl) | rfl <;> decide

theorem not_newline_of_digit (h : isDigit c = true) : isNewline c = false := by
  rw [isNewline, Bool.or_eq_false_iff, decide_eq_false_iff_not, decide_eq_false_iff_not]
  constructor <;> rintro rfl <;> exact absurd h (by decide)

theorem body_no_newline {escapes : Byte → Bool} (hesc : ∀ c, isNewline c = true → escapes c = false)
    {l : LineSyntax} (h : l.Ok escapes) : ∀ c ∈ l.body, isNewline c = false := by
  have htag : ∀ c ∈ l.tagSource, isNewline c = false := by
    intro c hc
    unfold LineStart.tagSource at hc
    split at hc
    · cases hc
    next digits hd =>
      rcases List.mem_append.mp hc with hc | hc
      · rcases List.mem_cons.mp hc with rfl | hc
        · decide
        · exact not_newline_of_digit (h.start.digits digits hd c hc)
      · rw [List.mem_singleton.mp hc]
        decide
  have hpiece : ∀ x : Piece, x.Ok escapes → ∀ c ∈ x.source, isNewline c = false := by
    intro x hx c hc
    cases x with
    | plain d =>
      rw [List.mem_singleton.mp hc]
      exact (plainByte_spec hx).2.1
    | escaped d =>
      rcases List.mem_cons.mp hc with rfl | hc
      · decide
      · rw [List.mem_singleton.mp hc]
        by_contra hn
        have hfalse := hesc d (by simpa using hn)
        rw [show escapes d = true from hx] at hfalse
        cases hfalse
  intro c hc
  rcases List.mem_append.mp hc with hc | hc
  · rcases List.mem_append.mp hc with hc | hc
    · rcases List.mem_append.mp hc with hc | hc
      · rcases List.mem_cons.mp hc with rfl | hc
        · exact not_newline_of_type h.start.kind
        · exact (wordByte_spec (h.start.word c hc)).2.2
      · exact htag c hc
    · obtain ⟨a, ha, hc⟩ := List.mem_flatMap.mp hc
      obtain ⟨hok, _⟩ := h.start.args a ha
      rcases List.mem_append.mp hc with hc | hc
      · exact not_newline_of_blank (hok.blanks c hc)
      · obtain ⟨x, hx, hc⟩ := List.mem_flatMap.mp hc
        exact hpiece x (hok.pieces x hx) c hc
  · exact not_newline_of_blank (h.blanks c hc)

def escapedNewline : List Byte := "#a \\\nb\n".toList.map byte

/-- A backslash takes even a CR or LF with it: the line goes on behind it. So the parser reads no
grammar in which these always end a message. -/
theorem newline_after_backslash : ¬ ∃ escapes : Byte → Bool,
    (∀ c, isNewline c = true → escapes c = false) ∧ ∀ chunks events,
      session chunks = some events → Says escapes 0 (chunks.flatMap Chunk.bytes) events := by
  rintro ⟨escapes, hesc, hall⟩
  have hsays := hall [⟨.load escapedNewline, true⟩] [.message 7 ⟨[⟨[35, 97], 0⟩, ⟨[10, 98], 1⟩], -1⟩]
    (by decide)
  generalize hbs : [(⟨.load escapedNewline, true⟩ : Chunk)].flatMap Chunk.bytes = bs at hsays
  generalize hev : [LineEvent.message 7 ⟨[⟨[35, 97], 0⟩, ⟨[10, 98], 1⟩], -1⟩] = events at hsays
  cases hsays with
  | error => cases hev
  | silent => cases hev
  | @line _ l rest _ hl _ =>
    obtain ⟨hlen, _⟩ := LineEvent.message.inj (List.cons.inj hev).1
    rw [Nat.zero_add] at hlen
    replace hbs : escapedNewline = l.source ++ rest := hbs
    have hsource : l.source = l.skipped ++ (l.body ++ [l.ending]) := by
      simp [LineSyntax.source, LineStart.source, LineStart.head, LineSyntax.body]
    have hskip : l.skipped = [] := by
      cases hs : l.skipped with
      | nil => rfl
      | cons x xs =>
        have hx := hl.start.skipped x (by simp [hs])
        rw [hsource, hs] at hbs
        cases (List.cons.inj hbs).1
        exact absurd hx (by decide)
    have hrest : rest = [] := by
      have hall := congrArg List.length hbs
      rw [List.length_append, ← hlen, show escapedNewline.length = 7 from rfl] at hall
      exact List.eq_nil_of_length_eq_zero (by omega)
    rw [hsource, hskip, hrest, List.nil_append, List.append_nil] at hbs
    have hbody : escapedNewline.dropLast = l.body := by
      have := congrArg List.dropLast hbs
      rwa [List.dropLast_concat] at this
    have hmem := body_no_newline hesc hl (byte '\n') (by rw [← hbody]; decide)
    exact absurd hmem (by decide)

end

end Katcp
