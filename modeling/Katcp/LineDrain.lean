import Katcp.LineEncode

namespace Katcp

section

open Memory

/-- A turn of the loop moves bytes along the stream and leaves less to do. -/
structure Advances (w w' : Writer) : Prop where
  writing : Writing w'
  stream : w'.stream = w.stream
  less : w'.measure < w.measure

theorem escapeByte_length (c : Byte) : 1 ≤ (escapeByte c).length ∧ (escapeByte c).length ≤ 2 := by
  unfold escapeByte
  repeat' split
  all_goals simp

theorem escapeCopy_length (src : List Byte) : (escapeCopy src).length ≤ 2 * src.length := by
  induction src with
  | nil => simp [escapeCopy]
  | cons c src ih =>
    have hc := (escapeByte_length c).2
    simp only [escapeCopy, List.flatMap_cons, List.length_append, List.length_cons] at ih ⊢
    omega

theorem encodeText_append (escape : Nat) (xs ys : List Byte) :
    encodeText escape (xs ++ ys) = encodeText escape xs ++ encodeText escape ys := by
  unfold encodeText
  split
  · exact List.flatMap_append
  · rfl

theorem encodeText_pos {e e' : Nat} (h : e ≠ 0) (h' : e' ≠ 0) (xs : List Byte) :
    encodeText e xs = encodeText e' xs := by
  simp [encodeText, h, h']

theorem argsWork_cons (a : Arg) (as : List Arg) :
    argsWork (a :: as) = a.text.length + 1 + argsWork as := by
  simp only [argsWork, List.map_cons, List.sum_cons]
  omega

theorem head_of_contents {q : RingQueue Parse} {p : Parse} {ps : List Parse}
    (h : q.contents = p :: ps) : q.getHead = some p := by
  rw [q.getHead_eq, h]
  rfl

/-- Whether or not the escape mark of an argument is rewritten, its bytes stay. -/
theorem marked_head {q : RingQueue Parse} {p : Parse} {ps : List Parse} {i v : Nat} {la : Larg}
    (hq : q.contents = p :: ps) (hs : Sound p) (hla : (p.pArgs.take p.pGot)[i]? = some la)
    (mark : Prop) [Decidable mark] : ∃ p' la',
      (if mark then q.setHead (p.setEscape i v) else q).contents = p' :: ps ∧ Sound p' ∧
      p'.pGot = p.pGot ∧ (p'.pArgs.take p'.pGot)[i]? = some la' ∧ la'.aBegin = la.aBegin ∧
      la'.aEnd = la.aEnd ∧ p'.argText la' = p.argText la ∧
      p'.args.drop (i + 1) = p.args.drop (i + 1) ∧ (la'.aEscape = la.aEscape ∨ mark ∧ la'.aEscape = v) := by
  by_cases hm : mark
  · refine ⟨p.setEscape i v, { la with aEscape := v }, ?_, hs.setEscape i v, rfl, ?_, rfl, rfl, rfl,
      setEscape_drop p (Nat.lt_succ_self i), Or.inr ⟨hm, rfl⟩⟩
    · rw [if_pos hm]
      exact RingQueue.contents_setHead hq _
    · have hi : i < p.pGot := by
        have := (List.getElem?_eq_some_iff.mp hla).1
        simp only [List.length_take] at this
        omega
      rw [take_getElem? hi] at hla
      rw [take_getElem? (show i < (p.setEscape i v).pGot from hi)]
      simp [Parse.setEscape, hla]
  · exact ⟨p, la, by rw [if_neg hm, hq], hs, rfl, hla, rfl, rfl, rfl, rfl, Or.inl rfl⟩

theorem Placed.enter {l : Line} {state state' : WriteState} (h : Placed l state)
    (hn : state ≠ .next) (hn' : state' ≠ .next) : Placed l state' := by
  unfold Placed at h ⊢
  cases hq : l.lQueue.contents with
  | nil =>
    rw [hq] at h
    exact ⟨h.1, h.2.1, hn'⟩
  | cons p ps => simpa [hq, hn, hn'] using h

theorem fill_to_send {w : Writer} (h : Writing w) (hw : w.state = .fill) (hp : 0 < w.line.lPending) :
    Advances w { w with state := .send } := by
  obtain ⟨l, state, wire, answers⟩ := w
  subst hw
  refine ⟨⟨h.sound, h.room, h.placed.enter (by simp) (by simp), fun hd => by cases hd⟩, rfl, ?_⟩
  · simp only [Writer.measure, Writer.rank]
    rw [if_neg (by dsimp only at hp; omega)]
    omega

theorem argsWork_head {p : Parse} {la : Larg} {i : Nat} (hla : (p.pArgs.take p.pGot)[i]? = some la) :
    argsWork (p.args.drop i) = (p.argText la).length + 1 + argsWork (p.args.drop (i + 1)) := by
  rw [args_drop hla, argsWork_cons]
  rfl

/-- The writer has copied all of an argument and turns to the next. -/
theorem arg_finished {l : Line} {wire : List Byte} {answers : List SendAnswer} {p : Parse}
    {ps : List Parse} {la : Larg} (h : Writing ⟨l, .fill, wire, answers⟩)
    (hq : l.lQueue.contents = p :: ps) (hla : (p.pArgs.take p.pGot)[l.lArg]? = some la)
    (hend : la.aBegin + l.lOffset = la.aEnd) (hmargin : l.lPending + tmpMargin ≤ ioSize) :
    Advances ⟨l, .fill, wire, answers⟩ ⟨{ l with
      lBuffer := l.lBuffer ++ (if l.lOffset = 0 then [byte '\\', byte '@'] else [])
      lQueue := if la.aEscape ≤ 1 then l.lQueue.setHead (p.setEscape l.lArg 0) else l.lQueue
      lArg := l.lArg + 1
      lOffset := 0 }, .next, wire, answers⟩ := by
  have hs : Sound p := h.sound p (by rw [hq]; simp)
  obtain ⟨p', la', hq', hs', hgot, hla', _, _, _, hdrop, _⟩ :=
    marked_head (v := 0) hq hs hla (la.aEscape ≤ 1)
  have hlt : l.lArg < p.pGot := by
    have := (List.getElem?_eq_some_iff.mp hla).1
    simp only [List.length_take] at this
    omega
  have htext : (p.argText la).length = l.lOffset := by
    rw [argText_length hs (List.mem_of_getElem? hla)]
    omega
  refine ⟨⟨?_, ?_, ?_, fun hd => by cases hd⟩, ?_, ?_⟩
  · intro q hmem
    dsimp only at hmem
    rw [hq'] at hmem
    rcases List.mem_cons.mp hmem with rfl | hmem
    · exact hs'
    · exact h.sound q (by rw [hq]; exact List.mem_cons_of_mem _ hmem)
  · simp only [Line.lPending, List.length_append, ↓reduceIte, tmpMargin] at hmargin ⊢
    split <;> simp <;> omega
  · simp only [Placed, hq', ↓reduceIte, hgot]
    exact ⟨by omega, by omega, trivial⟩
  · simp only [Writer.stream, ahead, hq', hq, ↓reduceIte, hdrop, reduceCtorEq, List.append_assoc,
      args_drop hla, encodeFrom, encodeArg, Parse.argOf]
    congr 2
    split
    next hz =>
      have hnil : p.argText la = [] := List.eq_nil_of_length_eq_zero (by rw [htext, hz])
      simp [hnil]
    next => simp [← htext, encodeText, escapeCopy]
  · simp only [Writer.measure, work, hq', hq, Writer.rank, hdrop, argsWork_head hla, htext]
    omega

/-- The writer has copied `can` more bytes of an argument. -/
theorem arg_copied {l : Line} {wire out : List Byte} {answers : List SendAnswer} {p : Parse}
    {ps : List Parse} {la : Larg} {can : Nat} (mark : Prop) [Decidable mark]
    (h : Writing ⟨l, .fill, wire, answers⟩) (hq : l.lQueue.contents = p :: ps)
    (hla : (p.pArgs.take p.pGot)[l.lArg]? = some la) (hcan : 0 < can)
    (hwant : la.aBegin + l.lOffset + can ≤ la.aEnd)
    (hout : out = encodeText la.aEscape
      (slice p.pBuffer (la.aBegin + l.lOffset) (la.aBegin + l.lOffset + can)))
    (hmark : mark → la.aEscape ≠ 0) (hroom : l.lPending + out.length + 1 ≤ ioSize) :
    Advances ⟨l, .fill, wire, answers⟩ ⟨{ l with
      lBuffer := l.lBuffer ++ out
      lQueue := if mark then l.lQueue.setHead (p.setEscape l.lArg 2) else l.lQueue
      lOffset := l.lOffset + can }, .fill, wire, answers⟩ := by
  have hs : Sound p := h.sound p (by rw [hq]; simp)
  obtain ⟨p', la', hq', hs', hgot, hla', hb, he, htext, hdrop, hesc⟩ :=
    marked_head (v := 2) hq hs hla mark
  have hlen : (p.argText la).length = la.aEnd - la.aBegin :=
    argText_length hs (List.mem_of_getElem? hla)
  refine ⟨⟨?_, ?_, ?_, fun hd => by cases hd⟩, ?_, ?_⟩
  · intro q hmem
    dsimp only at hmem
    rw [hq'] at hmem
    rcases List.mem_cons.mp hmem with rfl | hmem
    · exact hs'
    · exact h.sound q (by rw [hq]; exact List.mem_cons_of_mem _ hmem)
  · simp only [Line.lPending, List.length_append, reduceCtorEq, ↓reduceIte] at hroom ⊢
    omega
  · simp only [Placed, hq', reduceCtorEq, ↓reduceIte]
    exact ⟨la', hla', by rw [hb, he]; omega⟩
  · have hsplit : (p.argText la).drop l.lOffset =
        slice p.pBuffer (la.aBegin + l.lOffset) (la.aBegin + l.lOffset + can) ++
          (p.argText la).drop (l.lOffset + can) := by
      rw [argText_drop, argText_drop, ← Nat.add_assoc]
      exact (slice_append (by omega) hwant).symm
    have hne : p.argText la ≠ [] := by
      intro hn
      rw [hn, List.length_nil] at hlen
      omega
    have hold : (if l.lOffset = 0 then encodeArg (p.argOf la)
        else encodeText la.aEscape ((p.argText la).drop l.lOffset)) =
        encodeText la.aEscape ((p.argText la).drop l.lOffset) := by
      split
      next hz => simp [encodeArg, Parse.argOf, hne, hz]
      next => rfl
    have hnew : encodeText la'.aEscape ((p.argText la).drop (l.lOffset + can)) =
        encodeText la.aEscape ((p.argText la).drop (l.lOffset + can)) := by
      rcases hesc with hesc | ⟨hm, hesc⟩
      · rw [hesc]
      · exact encodeText_pos (by omega) (hmark hm) _
    simp only [Writer.stream, ahead, hq', hq, reduceCtorEq, ↓reduceIte, args_drop hla,
      args_drop hla', encodeFrom, hdrop]
    rw [if_neg (by omega)]
    simp only [Parse.argOf] at hold ⊢
    rw [hold, hsplit, encodeText_append, ← hout, htext, hnew]
    simp only [List.append_assoc]
  · simp only [Writer.measure, work, hq', hq, Writer.rank, hdrop, argsWork_head hla,
      argsWork_head hla', htext, hlen]
    omega

theorem fitting (want space : Nat) (hw : 0 < want) (hs : 0 < space) :
    0 < (if want ≤ space then want else space) ∧ (if want ≤ space then want else space) ≤ want ∧
      (if want ≤ space then want else space) ≤ space := by
  split <;> omega

theorem fill_advances {w : Writer} (h : Writing w) (hw : w.state = .fill) : ∃ state l,
    fillTurn w.line = some (state, l) ∧ Advances w { w with line := l, state := state } := by
  have hsend := fill_to_send h hw
  obtain ⟨l, state, wire, answers⟩ := w
  subst hw
  have hplaced := h.placed
  have hroom : l.lPending + 1 ≤ ioSize := h.room
  unfold fillTurn
  cases hq : l.lQueue.contents with
  | nil =>
    have hhead : l.lQueue.getHead = none := by rw [l.lQueue.getHead_eq, hq]; rfl
    by_cases hp : 0 < l.lPending
    · exact ⟨.send, l, by simp [hhead, hp], hsend hp⟩
    · refine ⟨.done, l, by simp [hhead, hp], ⟨h.sound, hroom, hplaced.enter (by simp) (by simp),
        fun _ => ⟨?_, hq⟩⟩, rfl, ?_⟩
      · exact List.eq_nil_of_length_eq_zero (Nat.eq_zero_of_not_pos hp)
      · simp [Writer.measure, Writer.rank]
  | cons p ps =>
    have hs : Sound p := h.sound p (by rw [hq]; simp)
    simp only [Placed, hq, reduceCtorEq, ↓reduceIte] at hplaced
    obtain ⟨la, hla, hle⟩ := hplaced
    have hlt : l.lArg < p.pGot := by
      have := (List.getElem?_eq_some_iff.mp hla).1
      simp only [List.length_take] at this
      omega
    have hla' : p.pArgs[l.lArg]? = some la := (take_getElem? hlt).symm.trans hla
    simp only [head_of_contents hq, hla', ge_iff_le, Nat.not_le.mpr hlt, ↓reduceIte,
      gt_iff_lt, Nat.not_lt.mpr hle]
    by_cases hm : ioSize < l.lPending + tmpMargin
    · exact ⟨.send, l, by simp [hm], hsend (by simp only [ioSize, tmpMargin] at hm ⊢; omega)⟩
    · simp only [hm, ↓reduceIte]
      by_cases hend : la.aEnd ≤ la.aBegin + l.lOffset
      · simp only [hend, ↓reduceIte]
        have hfirst : ¬ (l.lOffset = 0 ∧ l.lArg = 0) := by
          rintro ⟨h0, h1⟩
          obtain ⟨x, hx, hlt0⟩ := hs.first
          rw [h1, hx] at hla
          cases Option.some.inj hla
          omega
        rw [if_neg hfirst]
        exact ⟨_, _, rfl, arg_finished h hq hla (by omega) (by omega)⟩
      · simp only [hend, ↓reduceIte]
        have hbuf : la.aEnd ≤ p.pBuffer.length := (hs.inside la (List.mem_of_getElem? hla)).2
        have hmargin : l.lPending + 32 ≤ 4096 := by
          simp only [ioSize, tmpMargin] at hm
          omega
        by_cases hesc : la.aEscape = 0
        · simp only [hesc, ne_eq, not_true_eq_false, ↓reduceIte]
          refine ⟨_, _, rfl, ?_⟩
          obtain ⟨hpos, hwant, hspace⟩ := fitting (la.aEnd - (la.aBegin + l.lOffset))
            (ioSize - (l.lPending + 1)) (by omega) (by simp only [ioSize]; omega)
          generalize (if la.aEnd - (la.aBegin + l.lOffset) ≤ ioSize - (l.lPending + 1) then
            la.aEnd - (la.aBegin + l.lOffset) else ioSize - (l.lPending + 1)) = can at *
          have hcopy := arg_copied False h hq hla hpos (show _ + can ≤ _ by omega)
            (show slice p.pBuffer (la.aBegin + l.lOffset) (la.aBegin + l.lOffset + can) = _ by
              simp [encodeText, hesc]) False.elim
            (by rw [slice_length]; simp only [ioSize] at *; omega)
          simpa using hcopy
        · simp only [hesc, ne_eq, not_false_eq_true, ↓reduceIte]
          refine ⟨_, _, rfl, ?_⟩
          obtain ⟨hpos, hwant, hspace⟩ := fitting (la.aEnd - (la.aBegin + l.lOffset))
            ((ioSize - (l.lPending + 1)) / 2) (by omega) (by simp only [ioSize]; omega)
          refine arg_copied _ h hq hla hpos (by omega) (by simp [encodeText, hesc]) (fun _ => hesc) ?_
          refine Nat.le_trans (Nat.add_le_add_right (Nat.add_le_add_left (escapeCopy_length _) _) 1) ?_
          rw [slice_length]
          simp only [ioSize] at *
          omega

end

section

open Memory

theorem placed_head {l : Line} {p : Parse} {ps : List Parse} (hq : l.lQueue.contents = p :: ps)
    (hs : Sound p) (ha : l.lArg = 0) (ho : l.lOffset = 0) (state : WriteState)
    (hn : state ≠ .next) : Placed l state := by
  obtain ⟨la, hla, hlt⟩ := hs.first
  simp only [Placed, hq, hn, ↓reduceIte, ha, ho]
  exact ⟨la, hla, by omega⟩

theorem placed_start {l : Line} (hs : ∀ p ∈ l.lQueue.contents, Sound p) (ha : l.lArg = 0)
    (ho : l.lOffset = 0) {state : WriteState} (hn : state ≠ .next) : Placed l state := by
  cases hq : l.lQueue.contents with
  | nil => simp [Placed, hq, ha, ho, hn]
  | cons p ps => exact placed_head hq (hs p (by rw [hq]; simp)) ha ho state hn

theorem ahead_start {l : Line} (ha : l.lArg = 0) (ho : l.lOffset = 0) {state : WriteState}
    (hn : state ≠ .next) : ahead l state = l.lQueue.contents.flatMap fun q => encodeArgs q.args := by
  cases hq : l.lQueue.contents with
  | nil => simp [ahead, hq]
  | cons p ps => simp [ahead, hq, hn, ha, ho, encodeFrom_zero]

theorem work_start {l : Line} (ha : l.lArg = 0) (ho : l.lOffset = 0) :
    work l = (l.lQueue.contents.map fun q => argsWork q.args).sum := by
  cases hq : l.lQueue.contents with
  | nil => simp [work, hq]
  | cons p ps => simp [work, hq, ha, ho]

theorem next_advances {w : Writer} (h : Writing w) (hw : w.state = .next) :
    Advances w { w with line := (nextTurn w.line).2, state := (nextTurn w.line).1 } := by
  obtain ⟨l, state, wire, answers⟩ := w
  subst hw
  have hplaced := h.placed
  have hroom : l.lPending + (tmpMargin - 2) ≤ ioSize := h.room
  simp only [ioSize, tmpMargin] at hroom
  cases hq : l.lQueue.contents with
  | nil => simp [Placed, hq] at hplaced
  | cons p ps =>
    have hs : Sound p := h.sound p (by rw [hq]; simp)
    simp only [Placed, hq, ↓reduceIte] at hplaced
    obtain ⟨hpos, hle, hoff⟩ := hplaced
    simp only [nextTurn, head_of_contents hq]
    by_cases hlt : l.lArg < p.pGot
    · obtain ⟨la, hla⟩ : ∃ la, (p.pArgs.take p.pGot)[l.lArg]? = some la := by
        have hg := hs.got_le
        exact ⟨_, List.getElem?_eq_getElem (by
          simp only [List.length_take]
          unfold Parse.pCount at hg
          omega)⟩
      simp only [hlt, ↓reduceIte]
      refine ⟨⟨h.sound, ?_, ?_, fun hd => by cases hd⟩, ?_, ?_⟩
      · simp only [Line.lPending, List.length_append, List.length_singleton, reduceCtorEq,
          ↓reduceIte, ioSize] at hroom ⊢
        omega
      · simp only [Placed, hq, reduceCtorEq, ↓reduceIte, hoff]
        exact ⟨la, hla, (hs.inside la (List.mem_of_getElem? hla)).1⟩
      · simp only [Writer.stream, ahead, hq, reduceCtorEq, ↓reduceIte, hoff, args_drop hla,
          encodeFrom, encodeTail, List.flatMap_cons, List.append_assoc, List.cons_append,
          List.nil_append]
      · simp only [Writer.measure, work, hq, Writer.rank]
        omega
    · have hend : p.args.drop l.lArg = [] := by
        rw [List.drop_eq_nil_iff, args_length hs]
        omega
      simp only [hlt, ↓reduceIte]
      have htail : l.lQueue.removeHead.contents = ps := by rw [RingQueue.contents_removeHead, hq]; rfl
      have hsound : ∀ q ∈ l.lQueue.removeHead.contents, Sound q := fun q hmem =>
        h.sound q (by rw [hq]; exact List.mem_cons_of_mem _ (htail ▸ hmem))
      generalize hl : ({ l with
        lArg := 0, lBuffer := l.lBuffer ++ [byte '\n'], lQueue := l.lQueue.removeHead } : Line) = l'
      have ha : l'.lArg = 0 := by rw [← hl]
      have ho : l'.lOffset = 0 := by rw [← hl]; exact hoff
      have hb : l'.lBuffer = l.lBuffer ++ [byte '\n'] := by rw [← hl]
      have hc : l'.lQueue.contents = ps := by rw [← hl]; exact htail
      have hsound' : ∀ q ∈ l'.lQueue.contents, Sound q := by rw [← hl]; exact hsound
      refine ⟨⟨hsound', ?_, placed_start hsound' ha ho (by simp), fun hd => by cases hd⟩, ?_, ?_⟩
      · simp only [Line.lPending, hb, List.length_append, List.length_singleton, reduceCtorEq,
          ↓reduceIte, ioSize] at hroom ⊢
        omega
      · simp only [Writer.stream]
        rw [ahead_start ha ho (by simp), hc, hb]
        simp [ahead, hq, hend, encodeTail]
      · simp only [Writer.measure, Writer.rank]
        rw [work_start ha ho, hc]
        simp only [work, hq, hend, hoff, argsWork]
        simp only [List.map_nil, List.sum_nil]
        omega

/-- A call that returns leaves the stream as it was, and the line ready for the next call. -/
structure Returns (w : Writer) (result : WriteResult) (w' : Writer) : Prop where
  writing : Writing w'
  stream : w'.stream = w.stream
  result : result = .done ∧ w'.state = .done ∨ w'.state = .send ∧
    (result = .more ∨ result = .failed)

theorem less_of_answer {w w' : Writer} {a : SendAnswer} (hw : w.state = .send)
    (hw' : w'.state = .send) (hp : w.line.lPending ≠ 0) (ha : w.answers = a :: w'.answers)
    (hwork : work w'.line = work w.line) : w'.measure < w.measure := by
  have := rank_le hw'
  rw [Writer.measure, Writer.measure, ha, List.length_cons, hwork, rank_busy hw hp]
  omega

theorem send_advances {w : Writer} (h : Writing w) (hw : w.state = .send) :
    (∃ w', sendTurn w = .go w' ∧ Advances w w') ∨
      ∃ result w', sendTurn w = .stop result w' ∧ Returns w result w' := by
  obtain ⟨l, state, wire, answers⟩ := w
  subst hw
  have hroom : l.lPending + 1 ≤ ioSize := h.room
  unfold sendTurn
  by_cases hz : l.lPending = 0
  · simp only [hz, Nat.le_refl, ↓reduceIte]
    refine Or.inl ⟨_, rfl, ?_⟩
    have hbuf : l.lBuffer = [] := List.eq_nil_of_length_eq_zero hz
    cases hq : l.lQueue.contents with
    | nil =>
      have hhead : l.lQueue.getHead = none := by rw [l.lQueue.getHead_eq, hq]; rfl
      simp only [hhead, Option.isSome_none, Bool.false_eq_true, ↓reduceIte]
      exact ⟨⟨h.sound, hroom, h.placed.enter (by simp) (by simp), fun _ => ⟨hbuf, hq⟩⟩, rfl,
        by simp [Writer.measure, Writer.rank, hz]⟩
    | cons p ps =>
      simp only [head_of_contents hq, Option.isSome_some, ↓reduceIte]
      exact ⟨⟨h.sound, hroom, h.placed.enter (by simp) (by simp), fun hd => by cases hd⟩, rfl,
        by simp [Writer.measure, Writer.rank, hz]⟩
  · simp only [Nat.le_zero, hz, ↓reduceIte]
    cases answers with
    | nil => exact Or.inr ⟨_, _, rfl, h, rfl, Or.inr ⟨rfl, Or.inl rfl⟩⟩
    | cons a answers =>
      cases a with
      | sent n =>
        refine Or.inl ⟨_, rfl, ⟨h.sound, ?_, h.placed, fun hd => by cases hd⟩, ?_, ?_⟩
        · have hcut : (if n < l.lPending then l.lBuffer.drop n else []).length ≤ l.lBuffer.length := by
            split <;> simp
          exact Nat.le_trans (Nat.add_le_add_right hcut 1) hroom
        · have hsplit : l.lBuffer.take n ++ (if n < l.lPending then l.lBuffer.drop n else []) =
              l.lBuffer := by
            split
            · exact List.take_append_drop n _
            next hge =>
              rw [List.append_nil, List.take_of_length_le]
              unfold Line.lPending at hge
              omega
          simp only [Writer.stream, ahead, List.append_assoc, reduceCtorEq, ↓reduceIte]
          rw [← List.append_assoc (l.lBuffer.take n), hsplit]
        · refine less_of_answer rfl rfl hz rfl ?_
          rfl
      | errno e =>
        dsimp only
        split
        · exact Or.inr ⟨_, _, rfl, ⟨h.sound, h.room, h.placed, fun hd => by cases hd⟩, rfl,
            Or.inr ⟨rfl, Or.inl rfl⟩⟩
        split
        · refine Or.inl ⟨_, rfl, ⟨h.sound, h.room, h.placed, fun hd => by cases hd⟩, rfl, ?_⟩
          exact less_of_answer rfl rfl hz rfl rfl
        · exact Or.inr ⟨_, _, rfl, ⟨h.sound, h.room, h.placed, fun hd => by cases hd⟩, rfl,
            Or.inr ⟨rfl, Or.inr rfl⟩⟩

theorem turn_advances {w : Writer} (h : Writing w) :
    (∃ w', writeTurn w = .go w' ∧ Advances w w') ∨
      ∃ result w', writeTurn w = .stop result w' ∧ Returns w result w' := by
  unfold writeTurn
  cases hw : w.state with
  | done => exact Or.inr ⟨_, _, rfl, h, rfl, Or.inl ⟨rfl, hw⟩⟩
  | fill =>
    obtain ⟨state, l, hturn, hadv⟩ := fill_advances h hw
    simp only [hturn]
    exact Or.inl ⟨_, rfl, hadv⟩
  | next => exact Or.inl ⟨_, rfl, next_advances h hw⟩
  | send => exact send_advances h hw

theorem writeLoop_returns {n : Nat} {w : Writer} (h : Writing w) (hn : w.measure < n) :
    ∃ result w', writeLoop n w = (result, w') ∧ Returns w result w' := by
  induction n generalizing w with
  | zero => omega
  | succ n ih =>
    rw [writeLoop]
    rcases turn_advances h with ⟨w', hgo, hadv⟩ | ⟨result, w', hstop, hret⟩
    · have hless := hadv.less
      obtain ⟨result, w'', hloop, hret⟩ := ih hadv.writing (by omega)
      simp only [hgo]
      exact ⟨result, w'', hloop, hret.writing, hret.stream.trans hadv.stream, hret.result⟩
    · simp only [hstop]
      exact ⟨result, w', rfl, hret⟩

/-- A line between two calls. -/
def LineSound (l : Line) : Prop := Writing ⟨l, .fill, [], []⟩

/-- The bytes a line was given and has not sent. -/
def backlog (l : Line) : List Byte := l.lBuffer ++ ahead l .fill

theorem argsWork_drop (as : List Arg) (n : Nat) : argsWork (as.drop n) ≤ argsWork as := by
  have h := congrArg (fun xs => (xs.map fun a : Arg => a.text.length + 1).sum) (List.take_append_drop n as)
  simp only [List.map_append, List.sum_append] at h
  simp only [argsWork]
  omega

theorem weight_eq (p : Parse) : p.weight = argsWork p.args := by
  simp [Parse.weight, argsWork, Parse.args, Parse.message, Parse.argOf, Function.comp_def]

theorem work_le (l : Line) : work l ≤ (l.lQueue.contents.map Parse.weight).sum := by
  unfold work
  cases hq : l.lQueue.contents with
  | nil => simp
  | cons p ps =>
    have := argsWork_drop p.args l.lArg
    have hps : ps.map Parse.weight = ps.map fun q => argsWork q.args :=
      List.map_congr_left fun q _ => weight_eq q
    simp only [List.map_cons, List.sum_cons, hps, weight_eq]
    omega

theorem lineSound_of_returns {w w' : Writer} {result : WriteResult} (h : Returns w result w') :
    LineSound w'.line ∧ w'.wire ++ backlog w'.line = w.stream := by
  have hn : w'.state ≠ .next := by
    rcases h.result with ⟨_, hs⟩ | ⟨hs, _⟩ <;> simp [hs]
  have hroom := h.writing.room
  rw [if_neg hn] at hroom
  refine ⟨⟨h.writing.sound, hroom, h.writing.placed.enter hn (by simp), fun hd => by cases hd⟩, ?_⟩
  have hahead : ahead w'.line .fill = ahead w'.line w'.state := by
    simp [ahead, hn]
  rw [backlog, hahead]
  exact h.stream

theorem measure_lt_writeFuel (l : Line) (answers : List SendAnswer) :
    (⟨l, .fill, [], answers⟩ : Writer).measure < writeFuel l answers := by
  have := work_le l
  simp only [Writer.measure, Writer.rank, writeFuel]
  omega

/-- `write_katcl` always comes back, and loses, repeats or reorders no byte. -/
theorem write_returns {l : Line} (h : LineSound l) (answers : List SendAnswer) :
    ∃ result w, write l answers = (result, w) ∧ LineSound w.line ∧
      w.wire ++ backlog w.line = backlog l ∧
      (result = .done ∧ flushing w.line = false ∨ result = .more ∨ result = .failed) := by
  have hw : Writing ⟨l, .fill, [], answers⟩ := ⟨h.sound, h.room, h.placed, fun hd => by cases hd⟩
  obtain ⟨result, w, hloop, hret⟩ := writeLoop_returns hw (measure_lt_writeFuel l answers)
  obtain ⟨hsound, hstream⟩ := lineSound_of_returns hret
  refine ⟨result, w, hloop, hsound, hstream, ?_⟩
  rcases hret.result with ⟨hr, hd⟩ | ⟨_, hr⟩
  · obtain ⟨hb, hq⟩ := hret.writing.finished hd
    refine Or.inl ⟨hr, ?_⟩
    have hc := w.line.lQueue.contents_length
    simp [flushing, Line.lPending, hb, ← hc, hq]
  · exact Or.inr hr

theorem backlog_of_not_flushing {l : Line} (h : flushing l = false) : backlog l = [] := by
  have hc := l.lQueue.contents_length
  simp only [flushing, Bool.or_eq_false_iff, decide_eq_false_iff_not, Nat.not_lt, Nat.le_zero] at h
  have hb : l.lBuffer = [] := List.eq_nil_of_length_eq_zero h.1
  have hq : l.lQueue.contents = [] := List.eq_nil_of_length_eq_zero (hc.trans h.2)
  simp [backlog, hb, ahead, hq]

/-- A line with one more message behind those in its queue. -/
theorem LineSound.add {l l' : Line} {q : Parse} (h : LineSound l) (hs : Sound q)
    (hq : l'.lQueue.contents = l.lQueue.contents ++ [q]) (ha : l'.lArg = l.lArg) (ho : l'.lOffset = l.lOffset)
    (hb : l'.lBuffer = l.lBuffer) : LineSound l' ∧ backlog l' = backlog l ++ encodeArgs q.args := by
  obtain ⟨hall, hroom, hplaced, _⟩ := h
  have hplace : Placed l' .fill ∧ ahead l' .fill = ahead l .fill ++ encodeArgs q.args := by
    cases hold : l.lQueue.contents with
    | nil =>
      simp only [Placed, hold] at hplaced
      obtain ⟨ha0, ho0, _⟩ := hplaced
      have hone : l'.lQueue.contents = [q] := by rw [hq, hold]; rfl
      refine ⟨placed_head hone hs (ha.trans ha0) (ho.trans ho0) _ (by simp), ?_⟩
      rw [ahead_start (ha.trans ha0) (ho.trans ho0) (by simp), hone]
      simp [ahead, hold]
    | cons p ps =>
      have hmany : l'.lQueue.contents = p :: (ps ++ [q]) := by rw [hq, hold]; rfl
      simp only [Placed, hold] at hplaced
      refine ⟨by simpa only [Placed, hmany, ha, ho] using hplaced, ?_⟩
      simp [ahead, hold, hmany, ha, ho]
  refine ⟨⟨?_, ?_, hplace.1, fun hd => by cases hd⟩, ?_⟩
  · intro p hp
    simp only [hq, List.mem_append, List.mem_singleton] at hp
    rcases hp with hp | rfl
    · exact hall p hp
    · exact hs
  · simpa only [Line.lPending, hb] using hroom
  · rw [backlog, backlog, hplace.2, hb, List.append_assoc]

/-- A descriptor that takes something each time. -/
def Eager (answers : List SendAnswer) : Prop := ∀ a ∈ answers, ∃ n, 0 < n ∧ a = .sent n

theorem stream_length (w : Writer) :
    w.stream.length = w.wire.length + w.line.lPending + (ahead w.line w.state).length := by
  simp only [Writer.stream, List.length_append, Line.lPending, Nat.add_assoc]

/-- What a turn costs an eager descriptor: an answer for at least one byte. -/
theorem turn_eager {w : Writer} (he : Eager w.answers)
    (hlen : w.stream.length ≤ w.wire.length + w.answers.length) :
    (∀ w', writeTurn w = .go w' → Eager w'.answers ∧
      w.wire.length + w.answers.length ≤ w'.wire.length + w'.answers.length) ∧
    ∀ result w', writeTurn w = .stop result w' → result = .done ∨ result = .aborted := by
  unfold writeTurn
  cases hs : w.state with
  | done => exact ⟨fun w' h => by simp at h, fun r w' h => by simp at h; exact Or.inl h.1.symm⟩
  | fill =>
    cases hf : fillTurn w.line with
    | none =>
      refine ⟨fun w' h => by simp at h, fun r w' h => ?_⟩
      simp only [WriteTurn.stop.injEq] at h
      exact Or.inr h.1.symm
    | some r =>
      refine ⟨fun w' h => ?_, fun r w' h => by simp at h⟩
      simp only [WriteTurn.go.injEq] at h
      subst h
      exact ⟨he, Nat.le_refl _⟩
  | next =>
    refine ⟨fun w' h => ?_, fun r w' h => by simp at h⟩
    simp only [WriteTurn.go.injEq] at h
    subst h
    exact ⟨he, Nat.le_refl _⟩
  | send =>
    dsimp only
    unfold sendTurn
    by_cases hp : w.line.lPending ≤ 0
    · simp only [hp, ↓reduceIte]
      refine ⟨fun w' h => ?_, fun r w' h => by simp at h⟩
      simp only [WriteTurn.go.injEq] at h
      subst h
      exact ⟨he, Nat.le_refl _⟩
    · simp only [hp, ↓reduceIte]
      cases ha : w.answers with
      | nil =>
        rw [stream_length, ha, List.length_nil] at hlen
        omega
      | cons a rest =>
        obtain ⟨n, hn, rfl⟩ := he a (by rw [ha]; simp)
        refine ⟨fun w' h => ?_, fun r w' h => by simp at h⟩
        simp only [WriteTurn.go.injEq] at h
        subst h
        refine ⟨fun b hb => he b (by rw [ha]; exact List.mem_cons_of_mem _ hb), ?_⟩
        simp only [List.length_append, List.length_take, List.length_cons]
        unfold Line.lPending at hp
        omega

theorem writeLoop_eager {n : Nat} {w : Writer} (h : Writing w) (hn : w.measure < n)
    (he : Eager w.answers) (hlen : w.stream.length ≤ w.wire.length + w.answers.length) :
    (writeLoop n w).1 = .done := by
  induction n generalizing w with
  | zero => omega
  | succ n ih =>
    obtain ⟨hgo, hstop⟩ := turn_eager he hlen
    rw [writeLoop]
    rcases turn_advances h with ⟨w', hturn, hadv⟩ | ⟨result, w', hturn, hret⟩
    · obtain ⟨he', hle⟩ := hgo w' hturn
      have hless := hadv.less
      simp only [hturn]
      exact ih hadv.writing (by omega) he' (by rw [hadv.stream]; omega)
    · simp only [hturn]
      rcases hstop result w' hturn with hd | ha
      · exact hd
      · rcases hret.result with ⟨hr, _⟩ | ⟨_, hr | hr⟩ <;> rw [ha] at hr <;> cases hr

/-- A descriptor that goes on taking bytes empties the line. -/
theorem write_eager {l : Line} (h : LineSound l) {answers : List SendAnswer} (he : Eager answers)
    (hlen : (backlog l).length ≤ answers.length) :
    ∃ w, write l answers = (.done, w) ∧ flushing w.line = false := by
  have hw : Writing ⟨l, .fill, [], answers⟩ := ⟨h.sound, h.room, h.placed, fun hd => by cases hd⟩
  have hdone := writeLoop_eager hw (measure_lt_writeFuel l answers) he
    (by simpa [Writer.stream, backlog] using hlen)
  obtain ⟨result, w, hwr, _, _, hres⟩ := write_returns h answers
  have hr : result = .done := by
    have : (write l answers).1 = .done := hdone
    rw [hwr] at this
    exact this
  subst hr
  refine ⟨w, hwr, ?_⟩
  rcases hres with ⟨_, hf⟩ | hr | hr
  · exact hf
  · cases hr
  · cases hr

end

end Katcp
