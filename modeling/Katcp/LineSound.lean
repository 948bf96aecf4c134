import Katcp.LineParse
import Katcp.Machine

namespace Katcp

section

open Memory

variable {p q : Parse} {c : Byte}

/-- The arguments that are complete. -/
def Parse.taken (p : Parse) : List Larg := p.pArgs.take p.pGot

/-- The arguments lie one behind the other in the bytes kept so far, each with its NUL. -/
structure Laid (p : Parse) : Prop where
  got : p.pGot ≤ p.pCount
  ranges : ∀ la ∈ p.taken, la.aBegin ≤ la.aEnd ∧ la.aEnd < p.pKept ∧ p.pBuffer[la.aEnd]? = some 0
  ordered : p.taken.Pairwise fun la lb => la.aEnd < lb.aBegin
  current : p.pState.Open → p.pCurrent = some p.pGot ∧ ∃ la, p.pArgs[p.pGot]? = some la ∧
    la.aBegin ≤ p.pKept ∧ ∀ x ∈ p.taken, x.aEnd < la.aBegin

/-- What holds of a parse at any time. -/
structure ParseSound (p : Parse) : Prop extends Laid p where
  kept_le : p.pKept ≤ p.pUsed
  used_le : p.pUsed ≤ p.pHave
  have_le : p.pHave ≤ p.pSize

theorem Laid.skip (h : Laid p) : Laid (p.advance 0) := ⟨h.got, h.ranges, h.ordered, h.current⟩

theorem Laid.enter (h : Laid p) (st : ParseState) (hopen : st.Open → p.pState.Open) :
    Laid (p.enter st) := ⟨h.got, h.ranges, h.ordered, fun ho => h.current (hopen ho)⟩

theorem Laid.push (h : Laid p) (c : Byte) : Laid ((p.store c).advance 1) where
  got := h.got
  ranges la hla := by
    obtain ⟨hle, hlt, hnul⟩ := h.ranges la hla
    refine ⟨hle, Nat.lt_succ_of_lt hlt, ?_⟩
    exact (List.getElem?_set_ne (Nat.ne_of_gt hlt)).trans hnul
  ordered := h.ordered
  current ho := by
    obtain ⟨hcur, la, hla, hb, hx⟩ := h.current ho
    exact ⟨hcur, la, hla, Nat.le_succ_of_le hb, hx⟩

theorem Laid.beginArg (h : Laid p) (st : ParseState) : Laid (p.beginArg.enter st) := by
  obtain ⟨more, hlen, hck⟩ := checkArray_grows h.got
  have hq : p.beginArg = { p with
      pArgs := (p.pArgs ++ more).modify p.pGot fun la => { la with aBegin := p.pKept, aEscape := 0 }
      pCurrent := some p.pGot } := by
    simp [Parse.beginArg, hck, Parse.editCurrent]
  have htake : (p.beginArg.enter st).taken = p.taken := by
    rw [Parse.taken, hq]
    exact (take_modify_self _ _ _).trans (List.take_append_of_le_length h.got)
  have hkept : (p.beginArg.enter st).pKept = p.pKept := by rw [hq]; rfl
  have hbuf : (p.beginArg.enter st).pBuffer = p.pBuffer := by rw [hq]; rfl
  constructor
  · rw [hq]
    simp only [Parse.enter, Parse.pCount, List.length_modify]
    omega
  · rw [htake, hkept, hbuf]
    exact h.ranges
  · rw [htake]
    exact h.ordered
  · intro _
    rw [htake, hkept]
    obtain ⟨la, hla⟩ : ∃ la, (p.pArgs ++ more)[p.pGot]? = some la := ⟨_, List.getElem?_eq_getElem hlen⟩
    refine ⟨by rw [hq]; rfl, { la with aBegin := p.pKept, aEscape := 0 }, ?_, Nat.le_refl _, ?_⟩
    · rw [hq]
      simp [Parse.enter, hla]
    · intro x hx
      exact (h.ranges x hx).2.1

theorem Laid.endArg (h : Laid p) (hopen : p.pState.Open) (hk : p.pKept < p.pSize) (st : ParseState)
    (hst : ¬ st.Open) : Laid ((p.endArg.enter st).advance 1) := by
  obtain ⟨hcur, la, hla, hb, hx⟩ := h.current hopen
  have hq : p.endArg = { p.store 0 with
      pArgs := p.pArgs.modify p.pGot fun x => { x with aEnd := p.pKept }, pGot := p.pGot + 1 } := by
    simp [Parse.endArg, Parse.editCurrent, Parse.store, hcur]
  have hlt : p.pGot < p.pArgs.length := (List.getElem?_eq_some_iff.mp hla).1
  have htake : ((p.endArg.enter st).advance 1).taken = p.taken ++ [{ la with aEnd := p.pKept }] := by
    rw [Parse.taken, hq]
    show (p.pArgs.modify p.pGot _).take (p.pGot + 1) = _
    rw [List.take_add_one, take_modify_self]
    simp [hla, Parse.taken]
  have hkept : ((p.endArg.enter st).advance 1).pKept = p.pKept + 1 := by rw [hq]; rfl
  have hbuf : ((p.endArg.enter st).advance 1).pBuffer = p.pBuffer.set p.pKept 0 := by rw [hq]; rfl
  constructor
  · rw [hq]
    simp only [Parse.enter, Parse.advance, Parse.pCount, List.length_modify]
    omega
  · rw [htake, hkept, hbuf]
    intro x hmem
    rcases List.mem_append.mp hmem with hmem | hmem
    · obtain ⟨hle, hend, hnul⟩ := h.ranges x hmem
      exact ⟨hle, Nat.lt_succ_of_lt hend, (List.getElem?_set_ne (Nat.ne_of_gt hend)).trans hnul⟩
    · rw [List.mem_singleton.mp hmem]
      exact ⟨hb, Nat.lt_succ_self _, List.getElem?_set_self hk⟩
  · rw [htake]
    refine List.pairwise_append.mpr ⟨h.ordered, List.pairwise_singleton _ _, ?_⟩
    intro x hmem y hy
    rw [List.mem_singleton.mp hy]
    exact hx x hmem
  · exact fun ho => absurd ho hst

theorem Laid.markEscape (h : Laid p) (hopen : p.pState.Open) :
    Laid (p.editCurrent fun la => { la with aEscape := 1 }) := by
  obtain ⟨hcur, la, hla, hb, hx⟩ := h.current hopen
  have hq : p.editCurrent (fun la => { la with aEscape := 1 }) = { p with
      pArgs := p.pArgs.modify p.pGot fun la => { la with aEscape := 1 } } := by
    simp [Parse.editCurrent, hcur]
  have htake : (p.editCurrent fun la => { la with aEscape := 1 }).taken = p.taken := by
    rw [Parse.taken, hq]
    exact take_modify_self _ _ _
  constructor
  · rw [hq]
    simpa [Parse.pCount] using h.got
  · rw [htake, hq]
    exact h.ranges
  · rw [htake]
    exact h.ordered
  · intro _
    rw [htake, hq]
    exact ⟨hcur, { la with aEscape := 1 }, by simp [hla], hb, hx⟩

theorem parseByte_laid (h : Laid p) (hk : p.pKept < p.pSize) (hq : parseByte p c = some q) :
    Laid q := by
  have hend : ∀ {st : ParseState}, p.pState.Open → ¬ st.Open → Laid ((p.endArg.enter st).advance 1) :=
    fun ho hst => h.endArg ho hk _ hst
  unfold parseByte at hq
  split at hq
  next => cases hq; exact h.skip
  next => cases hq; exact h.skip
  next hs =>
    split at hq <;> cases hq
    · exact (h.beginArg .command).push c
    · exact h.skip
  next hs =>
    have ho : p.pState.Open := by rw [hs]; trivial
    split at hq
    · cases hq
      have ht : Laid ((p.endArg.enter .tag).advance 1) := hend ho (fun h => h)
      exact ⟨ht.got, ht.ranges, ht.ordered, ht.current⟩
    split at hq
    · cases hq
      exact hend ho (fun h => h)
    split at hq <;> cases hq
    · exact hend ho (fun h => h)
    · exact h.push c
  next hs =>
    split at hq
    · cases hq
      exact ⟨h.got, h.ranges, h.ordered, h.current⟩
    split at hq <;> cases hq
    exact (h.enter .whitespace (fun h => h.elim)).skip
  next hs =>
    split at hq
    · cases hq
      exact h.skip
    split at hq
    · cases hq
      exact (h.enter .done (fun h => h.elim)).skip
    split at hq <;> cases hq
    · exact (h.beginArg .escape).skip
    · exact ((h.beginArg .arg).push c).enter .arg (fun h => h)
  next hs =>
    have ho : p.pState.Open := by rw [hs]; trivial
    split at hq
    · cases hq
      exact hend ho (fun h => h)
    split at hq
    · cases hq
      exact hend ho (fun h => h)
    split at hq <;> cases hq
    · exact (h.enter .escape (fun _ => ho)).skip
    · exact h.push c
  next hs =>
    have ho : p.pState.Open := by rw [hs]; trivial
    cases hq
    by_cases hc : c = byte '@'
    · simp only [hc, ↓reduceIte]
      exact ((h.markEscape ho).enter .arg (fun _ => by rwa [Parse.editCurrent_pState])).skip
    · simp only [hc, ↓reduceIte]
      have hp := (h.push (unescape c)).markEscape ho
      rw [Parse.editCurrent_advance] at hp
      exact hp.enter .arg (fun _ => by rwa [Parse.advance, Parse.editCurrent_pState])

theorem ParseSound.step (h : ParseSound p) (hlt : p.pUsed < p.pHave) (hq : parseByte p c = some q) : ParseSound q := by
  have h1 := h.kept_le
  have h2 := h.have_le
  obtain ⟨hu, hh, hk, hbuf⟩ := parseByte_frame hq
  have hsize : q.pSize = p.pSize := by
    rcases hbuf with hb | ⟨v, hb⟩ <;> simp [Parse.pSize, hb]
  exact ⟨parseByte_laid h.toLaid (by omega) hq, by omega, by omega, by omega⟩

end

section

open Memory

/-- Where a turn of the loop of `parse_katcl` writes to the buffer. -/
def storesAt (p : Parse) (c : Byte) : Option Nat :=
  match p.pState with
  | .fresh => if isType c then some p.pKept else none
  | .command => some p.pKept
  | .whitespace => if isBlank c || isNewline c || c = byte '\\' then none else some p.pKept
  | .arg => if c = byte '\\' then none else some p.pKept
  | .escape => if c = byte '@' then none else some p.pKept
  | .tag | .fake | .done => none

/-- A byte stored, and the size of the buffer it was stored in. -/
structure Stored where
  index : Nat
  size : Nat
deriving DecidableEq

/-- What is done to the receiving side of a line; `turn` is one turn of the loop of
`parse_katcl`, and `finish` what it does with a complete line. -/
inductive ReceiveAction
  | load (buffer : List Byte)
  | read (answer : ReadAnswer)
  | turn
  | finish
  | clear

/-- The byte the loop looks at next. -/
def pendingByte (p : Parse) : Option Byte :=
  if p.pUsed < p.pHave ∧ p.pState ≠ .done then p.pBuffer[p.pUsed]? else none

def receive (l : Line) : ReceiveAction → Option Line
  | .load buffer => some (load l buffer)
  | .read answer => (read l answer).map Prod.snd
  | .turn => (pendingByte l.lNext).map fun c =>
    match parseByte l.lNext c with
    | none => { l with lError := einval }
    | some q => { l with lNext := q }
  | .finish => if l.lNext.pState = .done then some (handOver l l.lNext) else none
  | .clear => some (clear l)

def stores (l : Line) : ReceiveAction → List Stored
  | .turn => ((pendingByte l.lNext).bind (storesAt l.lNext)).toList.map (⟨·, l.lNext.pSize⟩)
  | _ => []

def receiver : Machine Line ReceiveAction Stored := ⟨createLine, receive, stores⟩

variable {p q : Parse} {c : Byte} {l l' : Line} {log : List Stored}

theorem storesAt_kept {i : Nat} (h : storesAt p c = some i) : i = p.pKept := by
  unfold storesAt at h
  repeat' split at h
  all_goals cases h
  all_goals rfl

/-- The buffer changes where `storesAt` says, and nowhere else. -/
theorem parseByte_stores (h : parseByte p c = some q) :
    (storesAt p c = none ∧ q.pBuffer = p.pBuffer) ∨
      storesAt p c = some p.pKept ∧ ∃ v, q.pBuffer = p.pBuffer.set p.pKept v := by
  obtain ⟨hb, _, _, hk⟩ := p.beginArg_sameBytes
  have hend : p.endArg.pBuffer = p.pBuffer.set p.pKept 0 := p.endArg_sameBytes.1
  have hstart : ∀ v, (p.beginArg.store v).pBuffer = p.pBuffer.set p.pKept v := by
    intro v
    rw [Parse.store, hb, hk]
  unfold parseByte at h
  unfold storesAt
  split at h
  next hs => cases h; exact Or.inl ⟨by simp [hs], rfl⟩
  next hs => cases h; exact Or.inl ⟨by simp [hs], rfl⟩
  next hs =>
    split at h <;> cases h
    next ht => exact Or.inr ⟨by simp [hs, ht], c, hstart c⟩
    next ht => exact Or.inl ⟨by simp [hs, ht], rfl⟩
  next hs =>
    split at h
    · cases h
      exact Or.inr ⟨by simp [hs], 0, hend⟩
    split at h
    · cases h
      exact Or.inr ⟨by simp [hs], 0, hend⟩
    split at h <;> cases h
    · exact Or.inr ⟨by simp [hs], 0, hend⟩
    · exact Or.inr ⟨by simp [hs], c, rfl⟩
  next hs =>
    split at h
    · cases h
      exact Or.inl ⟨by simp [hs], rfl⟩
    split at h <;> cases h
    exact Or.inl ⟨by simp [hs], rfl⟩
  next hs =>
    split at h
    next ht => cases h; exact Or.inl ⟨by simp [hs, ht], rfl⟩
    next hblank =>
    split at h
    next ht => cases h; exact Or.inl ⟨by simp [hs, ht], rfl⟩
    next hline =>
    split at h <;> cases h
    next ht => exact Or.inl ⟨by simp [hs, ht], hb⟩
    next ht => exact Or.inr ⟨by simp [hs, ht, hblank, hline], c, hstart c⟩
  next hs =>
    have hback : c = byte '\\' → isBlank c = false ∧ isNewline c = false := by
      rintro rfl
      decide
    split at h
    next ht =>
      cases h
      refine Or.inr ⟨?_, 0, hend⟩
      have : c ≠ byte '\\' := fun hc => by simp [hback hc] at ht
      simp [hs, this]
    split at h
    next ht =>
      cases h
      refine Or.inr ⟨?_, 0, hend⟩
      have : c ≠ byte '\\' := fun hc => by simp [hback hc] at ht
      simp [hs, this]
    split at h <;> cases h
    next ht => exact Or.inl ⟨by simp [hs, ht], rfl⟩
    next ht => exact Or.inr ⟨by simp [hs, ht], c, rfl⟩
  next hs =>
    cases h
    by_cases ht : c = byte '@'
    · exact Or.inl ⟨by simp [hs, ht], by simp [ht, Parse.advance, Parse.enter]⟩
    · exact Or.inr ⟨by simp [hs, ht], unescape c, by simp [ht, Parse.advance, Parse.enter, Parse.store]⟩

theorem createParse_sound : ParseSound createParse where
  got := Nat.le_refl 0
  ranges := by simp [createParse, Parse.taken]
  ordered := by simp [createParse, Parse.taken]
  current := fun h => h.elim
  kept_le := Nat.le_refl 0
  used_le := Nat.le_refl 0
  have_le := Nat.le_refl 0

/-- A buffer that is the same as far as bytes were kept. -/
theorem ParseSound.rebuffer (h : ParseSound p) {buffer : List Byte} {n : Nat}
    (hsame : slice buffer 0 p.pKept = slice p.pBuffer 0 p.pKept) (hu : p.pUsed ≤ n)
    (hn : n ≤ buffer.length) : ParseSound { p with pBuffer := buffer, pHave := n } where
  got := h.got
  ranges la hla := by
    obtain ⟨hle, hlt, hnul⟩ := h.ranges la hla
    exact ⟨hle, hlt, (getElem?_of_slice hsame hlt).trans hnul⟩
  ordered := h.ordered
  current := h.current
  kept_le := h.kept_le
  used_le := hu
  have_le := hn

theorem ParseSound.receive (h : ParseSound p) (bs : List Byte) {n : Nat} (hn : p.pHave + bs.length ≤ n) :
    ParseSound { p with
      pBuffer := copyInto (resize 0 p.pBuffer n) p.pHave bs, pHave := p.pHave + bs.length } := by
  have hk := h.kept_le
  have hu := h.used_le
  have hh : p.pHave ≤ p.pBuffer.length := h.have_le
  have hlen : (resize 0 p.pBuffer n).length = n := resize_length _ _ _
  refine h.rebuffer ?_ (by omega) ?_
  · rw [slice_copyInto_before (by omega) (by omega), slice_resize (by omega) (by omega)]
  · rw [copyInto_length (by omega)]
    omega

theorem load_sound (h : ParseSound l.lNext) (bs : List Byte) : ParseSound (load l bs).lNext := by
  unfold load
  dsimp only
  split
  next hgrow => exact h.receive bs (by omega)
  next hfit =>
    have hr := h.receive bs (n := l.lNext.pBuffer.length) (by unfold Parse.pSize at hfit; omega)
    rwa [resize_self] at hr

theorem readGrow_sound (h : ParseSound p) : ParseSound (readGrow p) := by
  unfold readGrow
  split
  next hfull =>
    have hle := h.have_le
    have hr := h.receive [] (n := p.pSize + bufferInc) (by simp only [List.length_nil]; omega)
    simpa [copyInto] using hr
  next => exact h

theorem read_sound (h : ParseSound l.lNext) {answer : ReadAnswer} {result : ReadResult}
    (hread : read l answer = some (result, l')) : ParseSound l'.lNext ∧ l'.lReady = l.lReady := by
  have hgrown := readGrow_sound h
  unfold read at hread
  cases answer with
  | errno e =>
    dsimp only at hread
    repeat' split at hread
    all_goals cases hread
    all_goals exact ⟨hgrown, rfl⟩
  | bytes bs =>
    dsimp only at hread
    split at hread
    · cases hread
    next hfit =>
      split at hread <;> cases hread
      · exact ⟨hgrown, rfl⟩
      · have hle := hgrown.have_le
        have hr := hgrown.receive bs (n := (readGrow l.lNext).pBuffer.length)
          (by unfold Parse.pSize at hfit hle; omega)
        rw [resize_self] at hr
        exact ⟨hr, rfl⟩

theorem stashRemainder_sound (bs : List Byte) : ParseSound (stashRemainder createParse bs) := by
  rw [stashRemainder_fresh]
  exact createParse_sound.rebuffer rfl (Nat.zero_le _) (Nat.le_refl _)

theorem handOver_sound (h : ParseSound p) : ParseSound (handOver l p).lNext ∧
    ∀ q, (handOver l p).lReady = some q → ParseSound q := by
  unfold handOver
  split
  · refine ⟨stashRemainder_sound _, fun q hq => ?_⟩
    cases hq
    exact h.rebuffer rfl (Nat.le_refl _) (Nat.le_trans h.used_le h.have_le)
  · refine ⟨createParse_sound, fun q hq => ?_⟩
    cases hq
    exact h

theorem pendingByte_lt (h : pendingByte p = some c) : p.pUsed < p.pHave := by
  unfold pendingByte at h
  split at h
  next hgo => exact hgo.1
  next => cases h

/-- The line as the loop of `parse_katcl` leaves it. -/
def loopLeaves (l : Line) : Except Parse Parse → Line
  | .error p => { l with lNext := p, lError := einval }
  | .ok p => { l with lNext := p }

theorem parseLoop_turns (n : Nat) (l : Line) : ∃ actions out,
    receiver.exec l actions = some (loopLeaves l (parseLoop n l.lNext), out) := by
  induction n generalizing l with
  | zero => exact ⟨[], [], rfl⟩
  | succ n ih =>
    rw [parseLoop]
    by_cases hgo : l.lNext.pUsed < l.lNext.pHave ∧ l.lNext.pState ≠ .done
    · rw [if_pos hgo]
      cases hc : l.lNext.pBuffer[l.lNext.pUsed]? with
      | none => exact ⟨[], [], rfl⟩
      | some c =>
        have hpend : pendingByte l.lNext = some c := by rw [pendingByte, if_pos hgo, hc]
        dsimp only
        cases hb : parseByte l.lNext c with
        | none =>
          refine ⟨[.turn], stores l .turn, ?_⟩
          simp [Machine.exec, receiver, receive, hpend, hb, loopLeaves]
        | some q =>
          have hturn : receiver.step l .turn = some { l with lNext := q } := by
            simp [receiver, receive, hpend, hb]
          obtain ⟨actions, out, he⟩ := ih { l with lNext := q }
          refine ⟨.turn :: actions, stores l .turn ++ out, ?_⟩
          rw [Machine.exec, hturn, Option.bind_some, he]
          dsimp only
          cases parseLoop n q <;> rfl
    · rw [if_neg hgo]
      exact ⟨[], [], rfl⟩

/-- `parse_katcl` is turns of its loop, and what it does with a line that is complete. -/
theorem parse_turns (l : Line) : ∃ actions out, receiver.exec l actions = some ((parse l).2, out) := by
  obtain ⟨actions, out, he⟩ := parseLoop_turns (l.lNext.pHave - l.lNext.pUsed) l
  unfold parse
  cases hp : parseLoop (l.lNext.pHave - l.lNext.pUsed) l.lNext with
  | error p =>
    rw [hp] at he
    exact ⟨actions, out, he⟩
  | ok p =>
    rw [hp] at he
    dsimp only
    split
    · exact ⟨actions, out, he⟩
    next hdone =>
      have hstate : p.pState = .done := by simpa using hdone
      refine ⟨actions ++ [.finish], out ++ [], ?_⟩
      rw [Machine.exec_append, he]
      simp [Machine.exec, receiver, receive, hstate, stores, handOver, loopLeaves]

/-- In every state that loads, reads and turns of the parser lead to, the parse in the works and the
message ready are in order, and every byte was stored inside its buffer. -/
theorem parser_keeps_bounds (h : receiver.Runs (fun _ _ => True) l log) :
    ParseSound l.lNext ∧ (∀ p, l.lReady = some p → ParseSound p) ∧ ∀ st ∈ log, st.index < st.size := by
  refine h.invariant (fun l log => ParseSound l.lNext ∧ (∀ p, l.lReady = some p → ParseSound p) ∧
    ∀ st ∈ log, st.index < st.size) ⟨createParse_sound, (fun p hp => by cases hp), by simp⟩ ?_
  rintro l log a l' ⟨hnext, hready, hlog⟩ - hs
  have hquiet : ∀ {more : List Stored}, more = [] → ∀ st ∈ log ++ more, st.index < st.size := by
    rintro more rfl
    rwa [List.append_nil]
  cases a with
  | load buffer =>
    cases hs
    exact ⟨load_sound hnext buffer, hready, hquiet rfl⟩
  | read answer =>
    obtain ⟨⟨result, l1⟩, hr, he⟩ := Option.map_eq_some_iff.mp hs
    cases he
    obtain ⟨hn, hl⟩ := read_sound hnext hr
    exact ⟨hn, fun p hp => hready p (hl ▸ hp), hquiet rfl⟩
  | turn =>
    obtain ⟨c, hc, hs⟩ := Option.map_eq_some_iff.mp hs
    have hlt := pendingByte_lt hc
    refine ⟨?_, ?_, ?_⟩
    · split at hs <;> cases hs
      · exact hnext
      next q hq => exact hnext.step hlt hq
    · split at hs <;> cases hs <;> exact hready
    · intro st hst
      rcases List.mem_append.mp hst with hst | hst
      · exact hlog st hst
      · obtain ⟨i, hi, rfl⟩ := List.mem_map.mp hst
        obtain ⟨d, hd, hi⟩ := Option.bind_eq_some_iff.mp (Option.mem_toList.mp hi)
        have h1 := hnext.kept_le
        have h2 := hnext.have_le
        rw [storesAt_kept hi]
        dsimp only
        omega
  | finish =>
    change (if l.lNext.pState = .done then some (handOver l l.lNext) else none) = some l' at hs
    split at hs
    · cases hs
      exact ⟨(handOver_sound hnext).1, (handOver_sound hnext).2, hquiet rfl⟩
    · cases hs
  | clear =>
    cases hs
    exact ⟨hnext, fun p hp => (by cases hp), hquiet rfl⟩

/-- A message that arrives in two pieces, the first of which ends in an escape. -/
theorem parser_keeps_bounds_cut : ∃ l : Line, l.lReady.isSome = true ∧ ParseSound l.lNext ∧
    ∀ p, l.lReady = some p → ParseSound p := by
  have h := parser_keeps_bounds (Machine.Runs.exec (.start (m := receiver))
    [.load ("?a \\".toList.map byte), .turn, .turn, .turn, .turn, .read (.bytes ("_".toList.map byte)),
      .turn, .load ("b\n#".toList.map byte), .turn, .turn, .finish] rfl (Machine.meets_true _ _ _))
  exact ⟨_, rfl, h.1, h.2.1⟩

end

end Katcp
