import Katcp.LineParse
import Katcp.Transducer

namespace Katcp

section

open Memory

/-- What a reader of the stream sees, and after how many bytes of it. -/
inductive LineEvent where
  | message (offset : Nat) (m : Message)
  | error (offset : Nat)
  deriving DecidableEq, Repr

/-- The scanner on a whole stream; it has no scan once an error was reported. -/
structure Scanner where
  offset : Nat
  scan : Option Scan
  deriving DecidableEq, Repr

def scanner : Transducer Scanner Byte LineEvent where
  step m c :=
    match m.scan with
    | none => (m, [])
    | some s =>
      match scanByte s c with
      | none => (⟨m.offset, none⟩, [.error m.offset])
      | some t =>
        if t.state = .done then (⟨m.offset + 1, some .start⟩, [.message (m.offset + 1) t.message])
        else (⟨m.offset + 1, some t⟩, [])

theorem scanner_dead (n : Nat) : scanner.Dead ⟨n, none⟩ := fun _ => rfl

def Parse.message (p : Parse) : Message := ⟨(p.pArgs.take p.pGot).map p.argOf, p.pTag⟩

theorem Mirrors.message {p : Parse} {s : Scan} (h : Mirrors p s) : p.message = s.message := by
  simp only [Parse.message, Scan.message, h.args, h.tag]

/-- A connection read until no further message is there: `past` counts the bytes of the
lines already handed out, and an error ends the reading. -/
structure Session where
  line : Line
  past : Nat
  stopped : Bool

def openSession : Session := ⟨createLine, 0, false⟩

def drain (extract : Line → ParseResult × Line) : Nat → Session → Session × List LineEvent
  | 0, s => (s, [])
  | n + 1, s =>
    match extract s.line with
    | (.failed, l) => (⟨l, s.past, true⟩, [.error (s.past + l.lNext.pUsed)])
    | (.incomplete, l) => (⟨l, s.past, false⟩, [])
    | (.complete, l) =>
      match l.lReady with
      | none => (⟨l, s.past, false⟩, [])
      | some p =>
        let rest := drain extract n ⟨l, s.past + p.pUsed, false⟩
        (rest.1, .message (s.past + p.pUsed) p.message :: rest.2)

inductive Arrival where
  | load (bs : List Byte)
  | read (answer : ReadAnswer)
  deriving DecidableEq, Repr

/-- A piece of the stream, and whether its lines are fetched by `have_katcl` or by
`parse_katcl` alone. -/
structure Chunk where
  arrival : Arrival
  cleared : Bool
  deriving DecidableEq, Repr

namespace Chunk

def bytes (c : Chunk) : List Byte :=
  match c.arrival with
  | .load bs => bs
  | .read (.bytes bs) => bs
  | .read (.errno _) => []

def extract (c : Chunk) : Line → ParseResult × Line :=
  if c.cleared then haveLine else parse

end Chunk

/-- A read that ends or fails is no piece of the stream. -/
def arrive (l : Line) : Arrival → Option Line
  | .load bs => some (load l bs)
  | .read answer =>
    match read l answer with
    | some (.more, l') => some l'
    | _ => none

def accept (s : Session) (c : Chunk) : Option (Session × List LineEvent) :=
  if s.stopped then some (s, []) else do
    let l ← arrive s.line c.arrival
    some (drain c.extract (l.lNext.unread.length + 1) { s with line := l })

def session (chunks : List Chunk) : Option (List LineEvent) :=
  (Transducer.feed accept openSession chunks).map Prod.snd

/-- Where the loop of `parse_katcl` leaves a parse that had `bs` left to read. -/
inductive LoopEnds (p : Parse) (s : Scan) (bs : List Byte) : Except Parse Parse → Prop
  | waits {q : Parse} {t : Scan} : t.state ≠ .done → Reads q t [] →
      q.pUsed = p.pUsed + bs.length →
      (∀ n, scanner.run ⟨n, some s⟩ bs = (⟨n + bs.length, some t⟩, [])) →
      LoopEnds p s bs (.ok q)
  | fails {q : Parse} {k : Nat} : q.pUsed = p.pUsed + k →
      (∀ n, scanner.run ⟨n, some s⟩ bs = (⟨n + k, none⟩, [.error (n + k)])) →
      LoopEnds p s bs (.error q)
  | finishes {q : Parse} {t : Scan} {rest : List Byte} (line : List Byte) : t.state = .done →
      Reads q t rest → bs = line ++ rest → line ≠ [] → q.pUsed = p.pUsed + line.length →
      (∀ n, scanner.run ⟨n, some s⟩ line =
        (⟨n + line.length, some .start⟩, [.message (n + line.length) t.message])) →
      LoopEnds p s bs (.ok q)

theorem parseLoop_ends {p : Parse} {s : Scan} {bs : List Byte} {n : Nat} (h : Reads p s bs)
    (hs : s.state ≠ .done) (hn : bs.length ≤ n) : LoopEnds p s bs (parseLoop n p) := by
  induction bs generalizing p s n with
  | nil =>
    have hstop : parseLoop n p = .ok p := by
      have hl := h.length
      simp only [List.length_nil] at hl
      cases n with
      | zero => rfl
      | succ n => simp [parseLoop, show ¬ p.pUsed < p.pHave by omega]
    rw [hstop]
    exact .waits hs h rfl fun _ => rfl
  | cons c bs ih =>
    obtain ⟨n, rfl⟩ : ∃ m, n = m + 1 := ⟨n - 1, by simp only [List.length_cons] at hn; omega⟩
    obtain ⟨hlt, hc, _⟩ := h.head
    have hgo : p.pUsed < p.pHave ∧ p.pState ≠ .done := ⟨hlt, by rwa [h.mirrors.state]⟩
    rw [parseLoop, if_pos hgo]
    simp only [hc]
    rcases h.step with ⟨hsn, hpn⟩ | ⟨t, q, hst, hpq, hr, hu⟩
    · simp only [hpn]
      refine .fails (k := 0) rfl fun m => ?_
      have hd : scanner.step ⟨m, some s⟩ c = (⟨m, none⟩, [.error m]) := by simp [scanner, hsn]
      rw [Transducer.run_cons, hd, Transducer.run_dead (scanner_dead m)]
      rfl
    · simp only [hpq]
      by_cases hd : t.state = .done
      · have hq : parseLoop n q = .ok q := by
          have : q.pState = .done := by rw [hr.mirrors.state, hd]
          cases n <;> simp [parseLoop, this]
        simp only [hq]
        refine .finishes [c] hd hr rfl (by simp) hu fun m => ?_
        simp [Transducer.run_cons, scanner, hst, hd]
      · have hstep : ∀ m, scanner.step ⟨m, some s⟩ c = (⟨m + 1, some t⟩, []) := fun m => by
          simp [scanner, hst, hd]
        have hrun : ∀ m xs, scanner.run ⟨m, some s⟩ (c :: xs) = scanner.run ⟨m + 1, some t⟩ xs :=
          fun m xs => by rw [Transducer.run_cons, hstep]; rfl
        have hlen : ∀ m k, m + 1 + k = m + (k + 1) := fun m k => by omega
        have hend := ih hr hd (Nat.le_of_succ_le_succ hn)
        generalize parseLoop n q = result at hend ⊢
        cases hend with
        | waits ht hrt hut hw =>
          refine .waits ht hrt (by rw [hut, hu, List.length_cons]; omega) fun m => ?_
          rw [hrun, hw, hlen, List.length_cons]
        | @fails _ k hut hw =>
          refine .fails (k := k + 1) (by rw [hut, hu]; omega) fun m => ?_
          rw [hrun, hw, hlen]
        | @finishes _ t' rest line ht hrt hb hne hut hw =>
          refine .finishes (c :: line) ht hrt (by rw [hb]; rfl) (by simp)
            (by rw [hut, hu, List.length_cons]; omega) fun m => ?_
          rw [hrun, hw, hlen, List.length_cons]

end

section

open Memory

theorem createParse_reads : Reads createParse Scan.start [] := by
  refine ⟨⟨rfl, rfl, Nat.le_refl 0, ?_, rfl, fun h => h.elim⟩, Nat.le_refl 0, Nat.le_refl 0,
    Nat.le_refl 0, rfl⟩
  intro la hla
  simp [createParse] at hla

theorem stashRemainder_reads (bs : List Byte) :
    Reads (stashRemainder createParse bs) Scan.start bs := by
  rw [stashRemainder_fresh]
  refine ⟨⟨rfl, rfl, Nat.le_refl 0, ?_, rfl, fun h => h.elim⟩, Nat.le_refl 0, Nat.zero_le _, ?_, ?_⟩
  · intro la hla
    simp [createParse] at hla
  · exact Nat.le_refl _
  · exact slice_all bs

/-- Bytes that arrive behind those already there. -/
theorem Reads.receive {p : Parse} {s : Scan} {old : List Byte} (h : Reads p s old)
    (bs : List Byte) {n : Nat} (hn : p.pHave + bs.length ≤ n) :
    Reads { p with
      pBuffer := copyInto (resize 0 p.pBuffer n) p.pHave bs, pHave := p.pHave + bs.length }
      s (old ++ bs) := by
  have hk := h.kept_le
  have hu := h.used_le
  have hh : p.pHave ≤ p.pBuffer.length := h.have_le
  have hrl : (resize 0 p.pBuffer n).length = n := resize_length _ _ _
  have hb : ∀ {b e : Nat}, e ≤ p.pHave →
      slice (copyInto (resize 0 p.pBuffer n) p.pHave bs) b e = slice p.pBuffer b e := fun {b e} he => by
    rw [slice_copyInto_before he (by omega), slice_resize (by omega) (by omega)]
  refine ⟨⟨h.mirrors.state, h.mirrors.tag, h.mirrors.got, h.mirrors.bound, ?_, fun ho => ?_⟩, hk,
    Nat.le_add_right_of_le hu, ?_, ?_⟩
  · rw [← h.mirrors.args]
    refine List.map_congr_left fun la hla => ?_
    have hle : la.aEnd ≤ p.pHave := Nat.le_trans (h.mirrors.bound la hla).2 (Nat.le_trans hk hu)
    simp only [Parse.argOf, Parse.argText, hb hle]
  · obtain ⟨hcur, la, hla, hle, ht, he⟩ := h.mirrors.current ho
    exact ⟨hcur, la, hla, hle, (hb (Nat.le_trans hk hu)).trans ht, he⟩
  · simp only [Parse.pSize]
    rw [copyInto_length (by omega)]
    omega
  · simp only [Parse.unread]
    rw [← slice_append (m := p.pHave) hu (by omega), hb (Nat.le_refl _), slice_copyInto_self (by omega)]
    exact congrArg (· ++ bs) h.unread

theorem load_reads {l : Line} {s : Scan} {old : List Byte} (h : Reads l.lNext s old)
    (bs : List Byte) : Reads (load l bs).lNext s (old ++ bs) := by
  have hsz : l.lNext.pSize = l.lNext.pBuffer.length := rfl
  unfold load
  by_cases hgrow : l.lNext.pSize ≤ l.lNext.pHave + bs.length
  · simp only [hgrow, ↓reduceIte]
    exact h.receive bs (by omega)
  · simp only [hgrow, ↓reduceIte]
    have := h.receive bs (n := l.lNext.pSize) (by omega)
    rwa [hsz, resize_self] at this

theorem read_reads {l l' : Line} {s : Scan} {old : List Byte} (h : Reads l.lNext s old)
    {answer : ReadAnswer} (hread : read l answer = some (.more, l')) :
    Reads l'.lNext s (old ++ (⟨.read answer, true⟩ : Chunk).bytes) := by
  have hgrow : Reads (readGrow l.lNext) s old := by
    unfold readGrow
    split
    next hfull =>
      have := h.receive [] (n := l.lNext.pSize + bufferInc)
        (by have := h.have_le; simp only [List.length_nil]; omega)
      simpa [copyInto] using this
    next => exact h
  unfold read at hread
  cases answer with
  | errno e =>
    simp only [Chunk.bytes, List.append_nil]
    dsimp only at hread
    split at hread
    · cases hread
    split at hread <;> cases hread
    exact hgrow
  | bytes bs =>
    dsimp only at hread
    split at hread
    · cases hread
    next hfit =>
      split at hread <;> cases hread
      have hsz : (readGrow l.lNext).pSize = (readGrow l.lNext).pBuffer.length := rfl
      have hle := hgrow.have_le
      have := hgrow.receive bs (n := (readGrow l.lNext).pSize) (by omega)
      rwa [hsz, resize_self] at this

theorem arrive_reads {l l' : Line} {s : Scan} {old : List Byte} (h : Reads l.lNext s old)
    {c : Chunk} (ha : arrive l c.arrival = some l') : Reads l'.lNext s (old ++ c.bytes) := by
  obtain ⟨arrival, cleared⟩ := c
  cases arrival with
  | load bs =>
    cases Option.some.inj ha
    exact load_reads h bs
  | read answer =>
    simp only [arrive] at ha
    split at ha
    next hr =>
      cases Option.some.inj ha
      exact read_reads h hr
    next => cases ha

theorem arrive_pUsed {l l' : Line} {a : Arrival} (h : arrive l a = some l') :
    l'.lNext.pUsed = l.lNext.pUsed := by
  have hgrow : (readGrow l.lNext).pUsed = l.lNext.pUsed := by
    unfold readGrow
    split <;> rfl
  cases a with
  | load bs => cases Option.some.inj h; rfl
  | read answer =>
    simp only [arrive] at h
    split at h
    next hr =>
      cases Option.some.inj h
      unfold read at hr
      dsimp only at hr
      repeat' split at hr
      all_goals cases hr
      all_goals exact hgrow
    next => cases h

/-- The session and the scanner stand at the same place of the stream. -/
def InStep (s : Session) (m : Scanner) : Prop :=
  (s.stopped = true ∧ m.scan = none) ∨
    (s.stopped = false ∧ ∃ t, m.scan = some t ∧ t.state ≠ .done ∧ Reads s.line.lNext t [] ∧
      m.offset = s.past + s.line.lNext.pUsed)

theorem extract_eq_parse (c : Chunk) (l : Line) :
    ∃ l', c.extract l = parse l' ∧ l'.lNext = l.lNext := by
  by_cases hc : c.cleared
  · by_cases hr : l.lReady.isSome
    · exact ⟨clear l, by simp [Chunk.extract, hc, haveLine, hr], rfl⟩
    · exact ⟨l, by simp [Chunk.extract, hc, haveLine, hr], rfl⟩
  · exact ⟨l, by simp [Chunk.extract, hc], rfl⟩

theorem handOver_reads {l : Line} {q : Parse} {t : Scan} {rest : List Byte} (h : Reads q t rest) :
    ∃ ready, (handOver l q).lReady = some ready ∧ ready.pUsed = q.pUsed ∧
      ready.message = t.message ∧ (handOver l q).lNext.pUsed = 0 ∧
      Reads (handOver l q).lNext .start rest := by
  unfold handOver
  split
  next =>
    refine ⟨_, rfl, rfl, h.mirrors.message, rfl, ?_⟩
    rw [h.unread]
    exact stashRemainder_reads rest
  next hfull =>
    have hnil : rest = [] := by
      apply List.eq_nil_of_length_eq_zero
      rw [h.length]
      omega
    rw [hnil]
    exact ⟨q, rfl, rfl, h.mirrors.message, rfl, createParse_reads⟩

theorem drain_inStep (c : Chunk) {n : Nat} {s : Session} {t : Scan} {bs : List Byte}
    (h : Reads s.line.lNext t bs) (ht : t.state ≠ .done) (hn : bs.length < n) :
    (drain c.extract n s).2 = (scanner.run ⟨s.past + s.line.lNext.pUsed, some t⟩ bs).2 ∧
      InStep (drain c.extract n s).1 (scanner.run ⟨s.past + s.line.lNext.pUsed, some t⟩ bs).1 := by
  induction n generalizing s t bs with
  | zero => omega
  | succ n ih =>
    obtain ⟨l, hx, hl⟩ := extract_eq_parse c s.line
    rw [← hl] at h
    have hends := parseLoop_ends h ht (Nat.le_of_eq h.length)
    rw [drain, hx, parse, ← hl]
    generalize parseLoop (l.lNext.pHave - l.lNext.pUsed) l.lNext = result at hends ⊢
    cases hends with
    | @waits q t' hd hr hu hw =>
      have hq : q.pState ≠ .done := by rwa [hr.mirrors.state]
      simp only [hq, ne_eq, not_false_eq_true, ↓reduceIte, hw]
      refine ⟨trivial, Or.inr ⟨rfl, t', rfl, hd, hr, ?_⟩⟩
      simp only [hu]
      omega
    | @fails q k hu hw =>
      simp only [hw, hu, Nat.add_assoc]
      exact ⟨trivial, Or.inl ⟨rfl, rfl⟩⟩
    | @finishes q t' rest line hd hr hb hne hu hw =>
      have hq : q.pState = .done := by rw [hr.mirrors.state, hd]
      have hlen : 0 < line.length := List.length_pos_iff.mpr hne
      have hrest : rest.length < n := by
        rw [hb, List.length_append] at hn
        omega
      obtain ⟨ready, hready, hru, hrm, hnu, hnr⟩ := handOver_reads (l := l) hr
      have hrec := ih (s := ⟨handOver l q, s.past + ready.pUsed, false⟩) hnr
        (show Scan.start.state ≠ .done by decide) hrest
      have hoff : s.past + ready.pUsed = s.past + l.lNext.pUsed + line.length := by
        rw [hru, hu, Nat.add_assoc]
      simp only [hnu, Nat.add_zero] at hrec
      simp only [hq, ne_eq, not_true_eq_false, ↓reduceIte, hready, hrm]
      rw [hb, Transducer.run_append, hw, ← hoff, hrec.1]
      exact ⟨rfl, hrec.2⟩

theorem accept_follows : scanner.Follows Chunk.bytes accept InStep := by
  intro s m c s' out hin h
  unfold accept at h
  rcases hin with ⟨hs, hm⟩ | ⟨hs, t, hm, ht, hr, hoff⟩
  · rw [if_pos hs] at h
    cases Option.some.inj h
    have hdead : scanner.run m c.bytes = (m, []) := by
      obtain ⟨k, scan⟩ := m
      cases hm
      exact Transducer.run_dead (scanner_dead k) _
    rw [hdead]
    exact ⟨rfl, Or.inl ⟨hs, hm⟩⟩
  · rw [hs] at h
    obtain ⟨l, hl, h⟩ := Option.bind_eq_some_iff.mp h
    have hout := Option.some.inj h
    have hrl := arrive_reads hr hl
    have hfin := drain_inStep c (n := l.lNext.unread.length + 1) (s := { s with line := l }) hrl ht
      (by rw [hrl.unread]; simp)
    obtain ⟨k, scan⟩ := m
    cases hm
    simp only at hoff hfin
    rw [arrive_pUsed hl, ← hoff, hs, hout] at hfin
    exact hfin

theorem openSession_inStep : InStep openSession ⟨0, some Scan.start⟩ :=
  Or.inr ⟨rfl, Scan.start, rfl, by decide, createParse_reads, rfl⟩

theorem session_eq_scanner {chunks : List Chunk} {events : List LineEvent}
    (h : session chunks = some events) :
    events = (scanner.run ⟨0, some Scan.start⟩ (chunks.flatMap Chunk.bytes)).2 := by
  obtain ⟨⟨s, out⟩, hf, rfl⟩ := Option.map_eq_some_iff.mp h
  exact (Transducer.feed_of_follows accept_follows openSession_inStep hf).1

theorem session_load (bs : List Byte) (cleared : Bool) :
    ∃ events, session [⟨.load bs, cleared⟩] = some events := ⟨_, rfl⟩

/-- However a stream is cut into loads and reads, and whichever way its lines are fetched,
the messages and the place of an error are those of the stream loaded at once. -/
theorem session_chunking {chunks : List Chunk} {events : List LineEvent} (cleared : Bool)
    (h : session chunks = some events) :
    session [⟨.load (chunks.flatMap Chunk.bytes), cleared⟩] = some events := by
  obtain ⟨whole, hw⟩ := session_load (chunks.flatMap Chunk.bytes) cleared
  have he := session_eq_scanner h
  have hs := session_eq_scanner hw
  simp only [List.flatMap_cons, List.flatMap_nil, List.append_nil, Chunk.bytes] at hs
  rw [hw, he, hs]

/-- A tag, an escape and a line end that fall between two chunks. -/
def cutStream : List Chunk :=
  [⟨.load ("#a[1".toList.map byte), true⟩, ⟨.read (.errno eagain), false⟩,
    ⟨.read (.bytes ("2".toList.map byte)), false⟩, ⟨.load ("] \\".toList.map byte), false⟩,
    ⟨.load ("n\r".toList.map byte), true⟩, ⟨.load ("\n?b\n".toList.map byte), true⟩]

theorem session_chunking_cut :
    session [⟨.load (cutStream.flatMap Chunk.bytes), false⟩] =
      some [.message 10 ⟨[⟨[35, 97], 0⟩, ⟨[10], 1⟩], 12⟩, .message 14 ⟨[⟨[63, 98], 0⟩], -1⟩] :=
  session_chunking false (show session cutStream = _ by decide)

end

end Katcp
