import Katcp.LineDrain
import Katcp.Machine

namespace Katcp

section

open Memory

/-- What the `WRITE_STATE_FILL` case can do to a line. -/
inductive FillDoes (l : Line) : WriteState → Line → Prop
  | idle : l.lQueue.getHead = none → l.lPending = 0 → FillDoes l .done l
  | flush : l.lQueue.getHead = none → 0 < l.lPending → FillDoes l .send l
  | full {p : Parse} : l.lQueue.getHead = some p → ioSize < l.lPending + tmpMargin → FillDoes l .send l
  | ended {p : Parse} {la : Larg} : l.lQueue.getHead = some p → l.lPending + tmpMargin ≤ ioSize →
      (p.pArgs.take p.pGot)[l.lArg]? = some la → la.aBegin + l.lOffset = la.aEnd →
      ¬ (l.lOffset = 0 ∧ l.lArg = 0) → FillDoes l .next { l with
        lBuffer := l.lBuffer ++ (if l.lOffset = 0 then [byte '\\', byte '@'] else [])
        lQueue := if la.aEscape ≤ 1 then l.lQueue.setHead (p.setEscape l.lArg 0) else l.lQueue
        lArg := l.lArg + 1
        lOffset := 0 }
  | escaped {p : Parse} {la : Larg} {can : Nat} : l.lQueue.getHead = some p →
      (p.pArgs.take p.pGot)[l.lArg]? = some la → la.aEscape ≠ 0 → 0 < can →
      la.aBegin + l.lOffset + can ≤ la.aEnd → l.lPending + 2 * can + 1 ≤ ioSize → FillDoes l .fill { l with
        lBuffer := l.lBuffer ++
          escapeCopy (slice p.pBuffer (la.aBegin + l.lOffset) (la.aBegin + l.lOffset + can))
        lQueue :=
          if (escapeCopy (slice p.pBuffer (la.aBegin + l.lOffset) (la.aBegin + l.lOffset + can))).length > can then
            l.lQueue.setHead (p.setEscape l.lArg 2) else l.lQueue
        lOffset := l.lOffset + can }
  | raw {p : Parse} {la : Larg} {can : Nat} : l.lQueue.getHead = some p →
      (p.pArgs.take p.pGot)[l.lArg]? = some la → la.aEscape = 0 → 0 < can →
      la.aBegin + l.lOffset + can ≤ la.aEnd → l.lPending + can + 1 ≤ ioSize → FillDoes l .fill { l with
        lBuffer := l.lBuffer ++ slice p.pBuffer (la.aBegin + l.lOffset) (la.aBegin + l.lOffset + can)
        lOffset := l.lOffset + can }

theorem fillTurn_does {l l' : Line} {state : WriteState} (h : fillTurn l = some (state, l')) :
    FillDoes l state l' := by
  unfold fillTurn at h
  split at h
  next hq =>
    cases Option.some.inj h
    by_cases hp : 0 < l.lPending
    · rw [if_pos hp]
      exact .flush hq hp
    · rw [if_neg hp]
      exact .idle hq (Nat.eq_zero_of_not_pos hp)
  next p hq =>
    split at h
    next hfull =>
      cases Option.some.inj h
      exact .full hq hfull
    next hmargin =>
      split at h
      next => cases h
      next hlt =>
        split at h
        next => cases h
        next la hla =>
          have hla' : (p.pArgs.take p.pGot)[l.lArg]? = some la := by
            rw [take_getElem? (by omega)]
            exact hla
          have hspace : l.lPending + 32 ≤ 4096 := by
            simp only [ioSize, tmpMargin] at hmargin
            omega
          dsimp only at h
          split at h
          next => cases h
          next hle =>
            split at h
            next hend =>
              split at h
              next => cases h
              next hfirst =>
                cases Option.some.inj h
                exact .ended hq (by omega) hla' (by omega) hfirst
            next hend =>
              split at h
              next hesc =>
                obtain ⟨hpos, hwant, hroom⟩ := fitting (la.aEnd - (la.aBegin + l.lOffset))
                  ((ioSize - (l.lPending + 1)) / 2) (by omega) (by simp only [ioSize]; omega)
                simp only [ge_iff_le] at h
                cases Option.some.inj h
                exact .escaped hq hla' hesc hpos (by omega) (by simp only [ioSize] at *; omega)
              next hesc =>
                obtain ⟨hpos, hwant, hroom⟩ := fitting (la.aEnd - (la.aBegin + l.lOffset))
                  (ioSize - (l.lPending + 1)) (by omega) (by simp only [ioSize]; omega)
                simp only [ge_iff_le] at h
                cases Option.some.inj h
                exact .raw hq hla' (not_not.mp hesc) hpos (by omega) (by simp only [ioSize] at *; omega)

/-- The turn copies bytes of the argument the writer is at, each of them whole. -/
def CopiesBytes (w w' : Writer) : Prop :=
  ∃ p ps la n, w.line.lQueue.contents = p :: ps ∧ (p.pArgs.take p.pGot)[w.line.lArg]? = some la ∧ 0 < n ∧
    la.aBegin + w.line.lOffset + n ≤ la.aEnd ∧ w'.line.lArg = w.line.lArg ∧
    w'.line.lOffset = w.line.lOffset + n ∧ w'.line.lBuffer = w.line.lBuffer ++
      encodeText la.aEscape (slice p.pBuffer (la.aBegin + w.line.lOffset) (la.aBegin + w.line.lOffset + n))

/-- The turn asks the descriptor to take what the block holds. -/
def Attempts (w : Writer) : Prop := w.state = .send ∧ 0 < w.line.lPending

/-- What a turn of the loop of `write_katcl` is good for. A turn that only changes the state leads
to one that sends, to one that copies or ends an argument, or to the end of the loop. -/
inductive TurnDoes (w w' : Writer) : Prop
  | copies : CopiesBytes w w' → TurnDoes w w'
  | attempts : Attempts w → TurnDoes w w'
  | ends {p : Parse} {ps : List Parse} {la : Larg} : w.line.lQueue.contents = p :: ps →
      (p.pArgs.take p.pGot)[w.line.lArg]? = some la → w.line.lOffset = (p.argText la).length →
      w'.line.lArg = w.line.lArg + 1 → w'.line.lBuffer = w.line.lBuffer ++
        (if p.argText la = [] then [byte '\\', byte '@'] else []) → w'.state = .next → TurnDoes w w'
  | separates {c : Byte} : w.state = .next → c = byte ' ' ∨ c = byte '\n' →
      w'.line.lBuffer = w.line.lBuffer ++ [c] → w'.state = .fill → TurnDoes w w'
  | toSend : w.state = .fill → w'.line = w.line → Attempts w' → TurnDoes w w'
  | toFill : w.state = .send → w'.line = w.line → w'.state = .fill → w'.line.lPending = 0 →
      w'.line.lQueue.contents ≠ [] → TurnDoes w w'
  | toDone : w'.line = w.line → w'.state = .done → flushing w'.line = false → TurnDoes w w'

theorem flushing_eq_false {l : Line} (hp : l.lPending = 0) (hq : l.lQueue.getHead = none) :
    flushing l = false := by
  have hc := l.lQueue.contents_length
  rw [l.lQueue.getHead_eq, List.head?_eq_none_iff] at hq
  simp [flushing, hp, ← hc, hq]

theorem contents_of_head {q : RingQueue Parse} {p : Parse} (h : q.getHead = some p) :
    ∃ ps, q.contents = p :: ps := by
  rw [q.getHead_eq] at h
  exact List.head?_eq_some_iff.mp h

theorem fill_does {w : Writer} {l' : Line} {state : WriteState} (h : Writing w) (hw : w.state = .fill)
    (hfill : FillDoes w.line state l') : TurnDoes w { w with line := l', state := state } := by
  cases hfill with
  | idle hq hp => exact .toDone rfl rfl (flushing_eq_false hp hq)
  | flush hq hp => exact .toSend hw rfl ⟨rfl, hp⟩
  | full hq hfull =>
    refine .toSend hw rfl ⟨rfl, ?_⟩
    simp only [ioSize, tmpMargin] at hfull
    dsimp only
    omega
  | @ended p la hq hmargin hla hend hfirst =>
    obtain ⟨ps, hps⟩ := contents_of_head hq
    have htext := argText_length (h.sound p (by rw [hps]; simp)) (List.mem_of_getElem? hla)
    have hlen : w.line.lOffset = (p.argText la).length := by omega
    refine .ends hps hla hlen rfl ?_ rfl
    simp only [hlen, List.length_eq_zero_iff]
  | @escaped p la can hq hla hesc hpos hwant hroom =>
    obtain ⟨ps, hps⟩ := contents_of_head hq
    refine .copies ⟨p, ps, la, can, hps, hla, hpos, hwant, rfl, rfl, ?_⟩
    rw [encodeText, if_pos hesc]
  | @raw p la can hq hla hesc hpos hwant hroom =>
    obtain ⟨ps, hps⟩ := contents_of_head hq
    refine .copies ⟨p, ps, la, can, hps, hla, hpos, hwant, rfl, rfl, ?_⟩
    rw [encodeText, if_neg (not_not.mpr hesc)]

theorem turn_does {w w' : Writer} (h : Writing w) (hgo : writeTurn w = .go w') : TurnDoes w w' := by
  unfold writeTurn at hgo
  cases hw : w.state with
  | done => simp only [hw, reduceCtorEq] at hgo
  | fill =>
    simp only [hw] at hgo
    split at hgo
    next => cases hgo
    next state l hfill =>
      cases hgo
      exact fill_does h hw (fillTurn_does hfill)
  | next =>
    simp only [hw] at hgo
    cases hgo
    have hplaced := h.placed
    unfold nextTurn
    cases hq : w.line.lQueue.contents with
    | nil => simp [Placed, hq, hw] at hplaced
    | cons p ps =>
      rw [head_of_contents hq]
      dsimp only
      split
      next => exact .separates hw (.inl rfl) rfl rfl
      next => exact .separates hw (.inr rfl) rfl rfl
  | send =>
    by_cases hp : 0 < w.line.lPending
    · exact .attempts ⟨hw, hp⟩
    · simp only [hw] at hgo
      rw [sendTurn, if_pos (Nat.not_lt.mp hp)] at hgo
      cases hgo
      have hzero := Nat.eq_zero_of_not_pos hp
      cases hq : w.line.lQueue.getHead with
      | none => exact .toDone rfl rfl (flushing_eq_false hzero hq)
      | some p =>
        obtain ⟨ps, hps⟩ := contents_of_head hq
        exact .toFill hw rfl rfl hzero (by rw [hps]; exact List.cons_ne_nil p ps)

/-- The writers that a call of `write_katcl` goes through. -/
inductive Turned (w0 : Writer) : Writer → Prop
  | start : Turned w0 w0
  | turn {w w' : Writer} : Turned w0 w → writeTurn w = .go w' → Turned w0 w'

theorem Turned.writing {w0 w : Writer} (h : Turned w0 w) (h0 : Writing w0) : Writing w := by
  induction h with
  | start => exact h0
  | turn _ hgo ih =>
    rcases turn_advances ih with ⟨w1, hturn, hadv⟩ | ⟨result, w1, hturn, _⟩
    · rw [hgo] at hturn
      cases hturn
      exact hadv.writing
    · rw [hgo] at hturn
      cases hturn

theorem Writing.bounded {w : Writer} (h : Writing w) : w.line.lPending ≤ ioSize := by
  have hroom := h.room
  omega

end

/-- What is done with a line: a message is queued on it, or it writes to a descriptor that gives
these answers. -/
inductive OutputCall where
  | add (p : Parse)
  | write (answers : List SendAnswer)
  deriving DecidableEq

inductive OutputEvent where
  | added (args : List Arg)
  | sent (bytes : List Byte)
  deriving DecidableEq

def outputAct (l : Line) : OutputCall → Option (Line × List OutputEvent)
  | .add p => some ({ l with lQueue := l.lQueue.addTail p }, [.added p.args])
  | .write answers =>
    match write l answers with
    | (.aborted, _) => none
    | (.unfinished, _) => none
    | (_, w) => some (w.line, [.sent w.wire])

def outputMachine : Machine Line OutputCall OutputEvent where
  start := createLine
  step l c := (outputAct l c).map Prod.fst
  emits l c := ((outputAct l c).map Prod.snd).getD []

/-- The messages lie in their buffers and do not begin with an empty argument. -/
def addsSound (_ : Line) : OutputCall → Prop
  | .add p => Sound p
  | .write _ => True

def sentBytes (log : List OutputEvent) : List Byte :=
  log.flatMap fun
    | .sent bytes => bytes
    | .added _ => []

/-- The lines that the messages put on a line are on the wire. -/
def linesOf (log : List OutputEvent) : List Byte :=
  log.flatMap fun
    | .added args => encodeArgs args
    | .sent _ => []

structure OutputInv (l : Line) (log : List OutputEvent) : Prop where
  sound : LineSound l
  stream : sentBytes log ++ backlog l = linesOf log

theorem createLine_sound : LineSound createLine :=
  ⟨fun p hp => by simp [createLine] at hp, by decide, by simp [Placed, createLine], fun hd => by cases hd⟩

theorem outputMachine_keeps : outputMachine.Keeps addsSound OutputInv := by
  refine Machine.keeps_of_act (f := outputAct) (fun _ _ => rfl) (fun _ _ => rfl) fun l log c l' out h hok hact => ?_
  cases c with
  | add p =>
    cases Option.some.inj hact
    obtain ⟨hsound, hbacklog⟩ : LineSound { l with lQueue := l.lQueue.addTail p } ∧
        backlog { l with lQueue := l.lQueue.addTail p } = backlog l ++ encodeArgs p.args :=
      h.sound.add hok (RingQueue.contents_addTail l.lQueue p) rfl rfl rfl
    refine ⟨hsound, ?_⟩
    have hstream := h.stream
    simp only [sentBytes, linesOf, List.flatMap_append, List.flatMap_cons, List.flatMap_nil, List.append_nil] at *
    rw [hbacklog, ← hstream, List.append_assoc]
  | write answers =>
    obtain ⟨result, w, hwrite, hsound, hstream, hresult⟩ := write_returns h.sound answers
    have hsent : outputAct l (.write answers) = some (w.line, [.sent w.wire]) := by
      rw [outputAct, hwrite]
      rcases hresult with ⟨rfl, _⟩ | rfl | rfl <;> rfl
    rw [hsent] at hact
    cases Option.some.inj hact
    refine ⟨hsound, ?_⟩
    have hold := h.stream
    simp only [sentBytes, linesOf, List.flatMap_append, List.flatMap_cons, List.flatMap_nil, List.append_nil] at *
    rw [List.append_assoc, hstream, hold]

/-- The encoder on any line that was used so: its block never overflows, each turn of the loop
copies, sends, ends an argument, writes a separator or leads to one that does, the loop ends, and
what was sent is what the queued messages look like, however it was taken. -/
theorem encoder_bounded {l : Line} {log : List OutputEvent} (h : outputMachine.Runs addsSound l log) :
    (∀ answers w, Turned ⟨l, .fill, [], answers⟩ w →
      w.line.lPending ≤ ioSize ∧ ∀ w', writeTurn w = .go w' → TurnDoes w w') ∧
    (∀ answers, (write l answers).1 = .done ∨ (write l answers).1 = .more ∨ (write l answers).1 = .failed) ∧
    (∀ answers, Eager answers → (backlog l).length ≤ answers.length → (write l answers).1 = .done) ∧
    sentBytes log <+: linesOf log ∧ (flushing l = false → sentBytes log = linesOf log) := by
  have hinv := h.invariant OutputInv ⟨createLine_sound, rfl⟩ outputMachine_keeps
  have hstream := hinv.stream
  refine ⟨fun answers w hw => ?_, fun answers => ?_, fun answers he hlen => ?_, ?_, fun hflush => ?_⟩
  · have hwriting := hw.writing ⟨hinv.sound.sound, hinv.sound.room, hinv.sound.placed, fun hd => by cases hd⟩
    exact ⟨hwriting.bounded, fun w' hgo => turn_does hwriting hgo⟩
  · obtain ⟨result, w, hwrite, _, _, hresult⟩ := write_returns hinv.sound answers
    rw [hwrite]
    rcases hresult with ⟨hdone, _⟩ | hother
    · exact .inl hdone
    · exact .inr hother
  · obtain ⟨w, hwrite, _⟩ := write_eager hinv.sound he hlen
    rw [hwrite]
  · exact ⟨backlog l, hstream⟩
  · rw [backlog_of_not_flushing hflush, List.append_nil] at hstream
    exact hstream

/-- An empty argument and one with a blank in it. -/
def blankParse : Parse :=
  { createParse with
    pState := .done
    pBuffer := "#a".toList.map byte ++ [0, 0] ++ "x y".toList.map byte ++ [0]
    pHave := 8
    pUsed := 8
    pKept := 8
    pArgs := [⟨0, 2, 1⟩, ⟨3, 3, 1⟩, ⟨4, 7, 1⟩]
    pGot := 3 }

theorem blankParse_sound : Sound blankParse :=
  ⟨by decide, by decide, ⟨0, 2, 1⟩, rfl, by decide⟩

def blankCalls : List OutputCall :=
  [.add blankParse, .write [.sent 4, .errno eagain], .write [.sent 2, .sent 9]]

theorem blankCalls_sound : outputMachine.Meets addsSound createLine blankCalls :=
  ⟨blankParse_sound, fun _ _ => ⟨trivial, fun _ _ => ⟨trivial, fun _ _ => trivial⟩⟩⟩

theorem encoder_bounded_blank : ∃ l log, outputMachine.Runs addsSound l log ∧
    sentBytes log = "#a \\@ x\\_y\n".toList.map byte ∧ sentBytes log <+: linesOf log ∧
      ∀ answers, (write l answers).1 = .done ∨ (write l answers).1 = .more ∨ (write l answers).1 = .failed := by
  obtain ⟨⟨l, log⟩, he⟩ := Option.isSome_iff_exists.mp
    (show (outputMachine.exec createLine blankCalls).isSome = true by decide)
  have hsent : (outputMachine.exec createLine blankCalls).map (fun r => sentBytes r.2) =
      some ("#a \\@ x\\_y\n".toList.map byte) := by
    decide
  rw [he] at hsent
  have hruns := Machine.Runs.exec .start blankCalls he blankCalls_sound
  obtain ⟨_, hends, _, hstream, _⟩ := encoder_bounded hruns
  exact ⟨l, _, hruns, Option.some.inj hsent, hstream, hends⟩

/-- The turn that ends an argument neither copies a byte nor sends. -/
theorem encoder_idle_turn : ∃ l log w w', outputMachine.Runs addsSound l log ∧ Turned ⟨l, .fill, [], []⟩ w ∧
    flushing w.line = true ∧ writeTurn w = .go w' ∧ ¬ CopiesBytes w w' ∧ ¬ Attempts w := by
  have hmeets : outputMachine.Meets addsSound createLine [.add blankParse] :=
    ⟨blankParse_sound, fun _ _ => trivial⟩
  have hruns := Machine.Runs.exec .start _ rfl hmeets
  refine ⟨_, _, _, _, hruns, .turn .start rfl, rfl, rfl, ?_, ?_⟩
  · rintro ⟨p, ps, la, n, _, _, _, _, harg, _⟩
    cases harg
  · rintro ⟨hstate, _⟩
    cases hstate

end Katcp
