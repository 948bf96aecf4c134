import Katcp.LineDrain

namespace Katcp

section

open Memory

/-- `none` when the call aborts or returns -1. -/
def beforeAdd (p : Parse) (first : Bool) : Option Parse :=
  if first ∧ (p.pGot > 0 ∨ p.pState ≠ .fresh) then none
  else if ¬ first ∧ (p.pGot = 0 ∨ p.pState ≠ .fake) then none
  else
    let q := { checkArray p with pState := .fake }
    some (q.editCurrent fun _ => { aBegin := p.pKept, aEnd := p.pKept, aEscape := 0 })

def requestSpace (p : Parse) (amount : Nat) : Parse :=
  let need := p.pKept + amount
  if need ≥ p.pSize then { p with pBuffer := resize 0 p.pBuffer (need + 1) } else p

def afterAdd (p : Parse) (data escape : Nat) (last : Bool) : Option Parse :=
  if p.pSize < p.pKept + data + 1 then none
  else
    let q := p.editCurrent fun la => { la with aEnd := p.pKept + data, aEscape := escape }
    some { q with
      pState := if last then .done else p.pState
      pBuffer := p.pBuffer.set (p.pKept + data) 0
      pKept := p.pKept + data + 1
      pHave := p.pKept + data + 1
      pUsed := p.pKept + data + 1
      pGot := p.pGot + 1
      pCurrent := none }

def addBuffer (p : Parse) (first last : Bool) (buffer : List Byte) : Option Parse := do
  let p ← beforeAdd p first
  let q := requestSpace p (buffer.length + 1)
  afterAdd { q with pBuffer := copyInto q.pBuffer q.pKept buffer } buffer.length 1 last

def beforeAppend (l : Line) (first : Bool) : Option Parse :=
  match l.lStage with
  | some p => some p
  | none => if first then some createParse else none

def appendBuffer (l : Line) (first last : Bool) (buffer : List Byte) : Option Line := do
  let p ← beforeAppend l first
  let p ← addBuffer p first last buffer
  if last then some { l with lStage := none, lQueue := l.lQueue.addTail p }
  else some { l with lStage := some p }

def appendRest (l : Line) : List (List Byte) → Option Line
  | [] => some l
  | [arg] => appendBuffer l false true arg
  | arg :: args => do
    let l ← appendBuffer l false false arg
    appendRest l args

/-- The calls that put a message on a line, its first and last argument flagged as such. -/
def appendMessage (l : Line) : List (List Byte) → Option Line
  | [] => none
  | [arg] => appendBuffer l true true arg
  | arg :: args => do
    let l ← appendBuffer l true false arg
    appendRest l args

/-- A message under construction that holds `args`. -/
structure Building (p : Parse) (args : List (List Byte)) : Prop where
  got : p.pGot ≤ p.pCount
  count : p.pGot = args.length
  kept : p.pKept ≤ p.pSize
  bound : ∀ la ∈ p.pArgs.take p.pGot, la.aBegin ≤ la.aEnd ∧ la.aEnd ≤ p.pKept
  texts : p.args = args.map fun text => ⟨text, 1⟩

theorem createParse_building : Building createParse [] :=
  ⟨Nat.le_refl 0, rfl, Nat.le_refl 0, fun la hla => by simp [createParse] at hla, rfl⟩

/-- A message under construction that holds `args`, each with its escape mark. -/
structure Staged (p : Parse) (args : List Arg) : Prop where
  got : p.pGot ≤ p.pCount
  count : p.pGot = args.length
  kept : p.pKept ≤ p.pSize
  bound : ∀ la ∈ p.pArgs.take p.pGot, la.aBegin ≤ la.aEnd ∧ la.aEnd ≤ p.pKept
  args : p.args = args

theorem building_iff {p : Parse} {args : List (List Byte)} :
    Building p args ↔ Staged p (args.map fun text => ⟨text, 1⟩) := by
  constructor
  · intro h
    exact ⟨h.got, by rw [h.count, List.length_map], h.kept, h.bound, h.texts⟩
  · intro h
    exact ⟨h.got, by rw [h.count, List.length_map], h.kept, h.bound, h.args⟩

/-- `q` is `p` with room for `amount` bytes behind those it keeps. -/
def Roomy (p q : Parse) (amount : Nat) : Prop :=
  ∃ room, q = { p with pBuffer := room } ∧ p.pKept + amount ≤ room.length ∧
    ∀ b e, e ≤ p.pKept → slice room b e = slice p.pBuffer b e

theorem requestSpace_roomy {p : Parse} (hk : p.pKept ≤ p.pSize) (amount : Nat) :
    Roomy p (requestSpace p amount) amount := by
  have hk' : p.pKept ≤ p.pBuffer.length := hk
  unfold requestSpace
  dsimp only
  split
  next =>
    refine ⟨_, rfl, by rw [resize_length]; omega, fun b e he => slice_resize (by omega) (by omega)⟩
  next hbig => exact ⟨p.pBuffer, rfl, by unfold Parse.pSize at hbig; omega, fun b e _ => rfl⟩

/-- The next cell of the argument array opened, as the first argument or a later one. -/
theorem beforeAdd_staged {p : Parse} {args : List Arg} {first : Bool} (h : Staged p args)
    (hfirst : first = true → args = [] ∧ p.pState = .fresh)
    (hrest : first = false → args ≠ [] ∧ p.pState = .fake) :
    ∃ more, p.pGot < (p.pArgs ++ more).length ∧ beforeAdd p first = some { p with
      pState := .fake
      pArgs := (p.pArgs ++ more).modify p.pGot fun _ => ⟨p.pKept, p.pKept, 0⟩
      pCurrent := some p.pGot } := by
  obtain ⟨more, hlen, hck⟩ := checkArray_grows h.got
  have hcount := h.count
  refine ⟨more, hlen, ?_⟩
  unfold beforeAdd
  cases first with
  | true =>
    obtain ⟨ha, hs⟩ := hfirst rfl
    simp [hs, hcount, ha, hck, Parse.editCurrent]
  | false =>
    obtain ⟨ha, hs⟩ := hrest rfl
    simp [hs, hcount, ha, hck, Parse.editCurrent]

theorem beforeAdd_kept {p p1 : Parse} {args : List Arg} {first : Bool} (h : Staged p args)
    (hadd : beforeAdd p first = some p1) : p1.pKept ≤ p1.pSize := by
  obtain ⟨more, _, hck⟩ := checkArray_grows h.got
  unfold beforeAdd at hadd
  split at hadd
  next => cases hadd
  next =>
    split at hadd
    next => cases hadd
    next =>
      rw [hck] at hadd
      cases Option.some.inj hadd
      exact h.kept

/-- The flag of an argument that was let in agrees with what the message holds. -/
theorem Staged.position {p p1 : Parse} {args : List Arg} {first : Bool} (h : Staged p args)
    (hadd : beforeAdd p first = some p1) : (first = true → args = [] ∧ p.pState = .fresh) ∧
      (first = false → args ≠ [] ∧ p.pState = .fake) := by
  have hcount := h.count
  have hempty : p.pGot = 0 ↔ args = [] := by rw [hcount, List.length_eq_zero_iff]
  unfold beforeAdd at hadd
  split at hadd
  next => cases hadd
  next hfirst =>
    split at hadd
    next => cases hadd
    next hrest =>
      constructor
      · rintro rfl
        simp only [true_and, not_or, not_not, gt_iff_lt, Nat.pos_iff_ne_zero] at hfirst
        exact ⟨hempty.mp hfirst.1, hfirst.2⟩
      · rintro rfl
        simp only [Bool.false_eq_true, not_false_eq_true, true_and, not_or, not_not] at hrest
        exact ⟨fun he => hrest.1 (hempty.mpr he), hrest.2⟩

/-- A text copied behind those a message has becomes its next argument. -/
theorem afterAdd_staged {p p1 q : Parse} {args : List Arg} {first : Bool} {text : List Byte} (h : Staged p args)
    (hadd : beforeAdd p first = some p1) (hroom : Roomy p1 q (text.length + 1)) (escape : Nat) (last : Bool) :
    ∃ r, afterAdd { q with pBuffer := copyInto q.pBuffer q.pKept text } text.length escape last = some r ∧
      Staged r (args ++ [⟨text, escape⟩]) ∧ r.pState = if last then .done else .fake := by
  obtain ⟨hfirst, hrest⟩ := h.position hadd
  obtain ⟨more, hlen, hbefore⟩ := beforeAdd_staged h hfirst hrest
  cases Option.some.inj (hbefore.symm.trans hadd)
  obtain ⟨room, rfl, hsize, hold⟩ := hroom
  dsimp only at hsize hold
  have hcount := h.count
  generalize hbuf : copyInto room p.pKept text = buffer
  have hblen : buffer.length = room.length := by rw [← hbuf, copyInto_length (by omega)]
  have hkeep : ∀ b e, e ≤ p.pKept → slice buffer b e = slice p.pBuffer b e := by
    intro b e he
    rw [← hbuf, slice_copyInto_before he (by omega), hold b e he]
  have hnew : slice buffer p.pKept (p.pKept + text.length) = text := by
    rw [← hbuf, slice_copyInto_self (by omega)]
  have hfits : ¬ buffer.length < p.pKept + text.length + 1 := by omega
  have hargs : ((p.pArgs ++ more).modify p.pGot fun _ => (⟨p.pKept, p.pKept + text.length, escape⟩ : Larg)).take
      (p.pGot + 1) = p.pArgs.take p.pGot ++ [⟨p.pKept, p.pKept + text.length, escape⟩] := by
    rw [List.take_add_one, take_modify_self, List.take_append_of_le_length h.got]
    simp [List.getElem?_eq_getElem hlen]
  refine ⟨{ p with
    pState := if last then .done else .fake
    pBuffer := buffer.set (p.pKept + text.length) 0
    pKept := p.pKept + text.length + 1
    pHave := p.pKept + text.length + 1
    pUsed := p.pKept + text.length + 1
    pArgs := (p.pArgs ++ more).modify p.pGot fun _ => ⟨p.pKept, p.pKept + text.length, escape⟩
    pCurrent := none
    pGot := p.pGot + 1 }, ?_, ⟨?_, ?_, ?_, ?_, ?_⟩, rfl⟩
  · simp [afterAdd, Parse.pSize, hfits, Parse.editCurrent, List.modify_modify_eq, Function.comp_def]
  · simp only [Parse.pCount, List.length_modify]
    omega
  · simp [hcount]
  · simp only [Parse.pSize, List.length_set]
    omega
  · intro la hla
    simp only [hargs, List.mem_append, List.mem_singleton] at hla
    rcases hla with hla | rfl
    · have := h.bound la hla
      exact ⟨this.1, by simp only; omega⟩
    · exact ⟨by simp, by simp⟩
  · have hsame : (p.pArgs.take p.pGot).map (fun la => (⟨slice (buffer.set (p.pKept + text.length) 0)
        la.aBegin la.aEnd, la.aEscape⟩ : Arg)) = args := by
      rw [← h.args]
      refine List.map_congr_left fun la hla => ?_
      have hle := (h.bound la hla).2
      rw [slice_set_of_le (by omega), hkeep _ _ hle]
      rfl
    have hlast : slice (buffer.set (p.pKept + text.length) 0) p.pKept (p.pKept + text.length) = text := by
      rw [slice_set_of_le (Nat.le_refl _), hnew]
    simp only [Parse.args, Parse.message, Parse.argOf, Parse.argText, hargs, List.map_append,
      List.map_cons, List.map_nil, hlast]
    exact congrArg (· ++ [(⟨text, escape⟩ : Arg)]) hsame

theorem addBuffer_staged {p : Parse} {args : List Arg} {first : Bool} (h : Staged p args)
    (hfirst : first = true → args = [] ∧ p.pState = .fresh)
    (hrest : first = false → args ≠ [] ∧ p.pState = .fake) (last : Bool) (text : List Byte) :
    ∃ q, addBuffer p first last text = some q ∧ Staged q (args ++ [⟨text, 1⟩]) ∧
      q.pState = if last then .done else .fake := by
  obtain ⟨more, _, hbefore⟩ := beforeAdd_staged h hfirst hrest
  obtain ⟨q, hq, hstaged, hstate⟩ :=
    afterAdd_staged h hbefore
      (requestSpace_roomy (beforeAdd_kept h hbefore) (text.length + 1)) 1 last
  exact ⟨q, by rw [addBuffer, hbefore]; exact hq, hstaged, hstate⟩

/-- Adding an argument puts it behind those already there. -/
theorem addBuffer_building {p : Parse} {args : List (List Byte)} {first : Bool}
    (h : Building p args) (hfirst : first = true → args = [] ∧ p.pState = .fresh)
    (hrest : first = false → args ≠ [] ∧ p.pState = .fake) (last : Bool) (text : List Byte) :
    ∃ q, addBuffer p first last text = some q ∧ Building q (args ++ [text]) ∧
      q.pState = if last then .done else .fake := by
  obtain ⟨q, hq, hstaged, hstate⟩ := addBuffer_staged (building_iff.mp h)
    (fun hf => ⟨by rw [(hfirst hf).1]; rfl, (hfirst hf).2⟩)
    (fun hf => ⟨by simpa using (hrest hf).1, (hrest hf).2⟩) last text
  exact ⟨q, hq, building_iff.mpr (by simpa using hstaged), hstate⟩

/-- A finished message that its first argument allows to be written. -/
theorem Building.sound {p : Parse} {arg : List Byte} {args : List (List Byte)}
    (h : Building p (arg :: args)) (hne : arg ≠ []) : Sound p := by
  have hk : p.pKept ≤ p.pBuffer.length := h.kept
  refine ⟨h.got, fun la hla => ⟨(h.bound la hla).1, Nat.le_trans (h.bound la hla).2 h.kept⟩, ?_⟩
  obtain ⟨la, las, hlas⟩ : ∃ la las, p.pArgs.take p.pGot = la :: las := by
    apply List.exists_cons_of_length_pos
    have := h.got
    have := h.count
    simp only [List.length_take, List.length_cons, Parse.pCount] at *
    omega
  refine ⟨la, by rw [hlas]; rfl, ?_⟩
  have ht := h.texts
  simp only [Parse.args, Parse.message, hlas, List.map_cons, Parse.argOf] at ht
  have ha : p.argText la = arg := congrArg Arg.text (List.cons.inj ht).1
  by_contra hge
  apply hne
  rw [← ha, Parse.argText]
  apply List.eq_nil_of_length_eq_zero
  rw [slice_length]
  omega

theorem appendRest_spec {l : Line} {p : Parse} {args rest : List (List Byte)} (h : Building p args)
    (hp : l.lStage = some p) (hs : p.pState = .fake) (ha : args ≠ []) (hr : rest ≠ []) :
    ∃ q, appendRest l rest = some { l with lStage := none, lQueue := l.lQueue.addTail q } ∧
      Building q (args ++ rest) := by
  induction rest generalizing l p args with
  | nil => exact absurd rfl hr
  | cons text rest ih =>
    have hnot : (false : Bool) = true → args = [] ∧ p.pState = .fresh := fun h => by cases h
    cases rest with
    | nil =>
      obtain ⟨q, hq, hb, _⟩ := addBuffer_building h hnot (fun _ => ⟨ha, hs⟩) true text
      exact ⟨q, by simp [appendRest, appendBuffer, beforeAppend, hp, hq], hb⟩
    | cons next rest =>
      obtain ⟨q, hq, hb, hst⟩ := addBuffer_building h hnot (fun _ => ⟨ha, hs⟩) false text
      obtain ⟨q', hq', hb'⟩ := ih (l := { l with lStage := some q }) hb rfl hst (by simp) (by simp)
      refine ⟨q', ?_, by simpa using hb'⟩
      simpa [appendRest, appendBuffer, beforeAppend, hp, hq] using hq'

/-- A message that is put on a line ends up at the tail of its queue. -/
theorem appendMessage_spec {l : Line} (hl : l.lStage = none) (arg : List Byte)
    (args : List (List Byte)) : ∃ q,
      appendMessage l (arg :: args) = some { l with lStage := none, lQueue := l.lQueue.addTail q } ∧
      Building q (arg :: args) := by
  have hfirst : (true : Bool) = true → ([] : List (List Byte)) = [] ∧ createParse.pState = .fresh :=
    fun _ => ⟨rfl, rfl⟩
  have hnot : (true : Bool) = false → ([] : List (List Byte)) ≠ [] ∧ createParse.pState = .fake :=
    fun h => by cases h
  cases args with
  | nil =>
    obtain ⟨q, hq, hb, _⟩ := addBuffer_building createParse_building hfirst hnot true arg
    exact ⟨q, by simp [appendMessage, appendBuffer, beforeAppend, hl, hq], hb⟩
  | cons next rest =>
    obtain ⟨q, hq, hb, hst⟩ := addBuffer_building createParse_building hfirst hnot false arg
    obtain ⟨q', hq', hb'⟩ :=
      appendRest_spec (l := { l with lStage := some q }) hb rfl hst (by simp) (List.cons_ne_nil next rest)
    refine ⟨q', ?_, by simpa using hb'⟩
    simpa [appendMessage, appendBuffer, beforeAppend, hl, hq] using hq'

end

/-- What the owner of a line does with its output: put a message on it, or let it write
to a descriptor that gives these answers. -/
inductive SenderOp where
  | append (args : List (List Byte))
  | write (answers : List SendAnswer)
  deriving DecidableEq, Repr

structure Sender where
  line : Line
  wire : List Byte

def openSender : Sender := ⟨createLine, []⟩

/-- `none` when a call aborts or fails to take a message. -/
def senderStep (s : Sender) : SenderOp → Option Sender
  | .append args => do
    let l ← appendMessage s.line args
    some { s with line := l }
  | .write answers =>
    match write s.line answers with
    | (.aborted, _) => none
    | (.unfinished, _) => none
    | (_, w) => some ⟨w.line, s.wire ++ w.wire⟩

def sendAll : Sender → List SenderOp → Option Sender
  | s, [] => some s
  | s, op :: ops => do
    let s ← senderStep s op
    sendAll s ops

def SenderOp.message? : SenderOp → Option (List (List Byte))
  | .append args => some args
  | .write _ => none

def messagesOf (ops : List SenderOp) : List (List (List Byte)) := ops.filterMap SenderOp.message?

def encodeMessage (args : List (List Byte)) : List Byte := encodeArgs (args.map fun text => ⟨text, 1⟩)

def LineEvent.contents : LineEvent → Option (List (List Byte))
  | .message _ m => some (m.args.map Arg.text)
  | .error _ => none

theorem fillTurn_stage {l l' : Line} {state : WriteState} (h : fillTurn l = some (state, l')) :
    l'.lStage = l.lStage := by
  unfold fillTurn at h
  dsimp only at h
  repeat' split at h
  all_goals cases h
  all_goals rfl

theorem nextTurn_stage (l : Line) : (nextTurn l).2.lStage = l.lStage := by
  unfold nextTurn
  repeat' split
  all_goals rfl

theorem writeTurn_stage {w w' : Writer} (h : writeTurn w = .go w' ∨ ∃ result, writeTurn w = .stop result w') :
    w'.line.lStage = w.line.lStage := by
  unfold writeTurn sendTurn at h
  cases hs : w.state with
  | done =>
    simp only [hs, reduceCtorEq, false_or] at h
    obtain ⟨_, h⟩ := h
    cases h
    rfl
  | fill =>
    simp only [hs] at h
    cases hf : fillTurn w.line with
    | none =>
      simp only [hf, reduceCtorEq, false_or] at h
      obtain ⟨_, h⟩ := h
      cases h
      rfl
    | some r =>
      simp only [hf, reduceCtorEq, exists_false, or_false] at h
      cases h
      exact fillTurn_stage hf
  | next =>
    simp only [hs, reduceCtorEq, exists_false, or_false] at h
    cases h
    exact nextTurn_stage _
  | send =>
    simp only [hs] at h
    rcases h with h | ⟨result, h⟩
    · repeat' split at h
      all_goals cases h
      all_goals rfl
    · repeat' split at h
      all_goals cases h
      all_goals rfl

theorem writeLoop_stage (n : Nat) (w : Writer) : (writeLoop n w).2.line.lStage = w.line.lStage := by
  induction n generalizing w with
  | zero => rfl
  | succ n ih =>
    rw [writeLoop]
    cases hturn : writeTurn w with
    | go w' => exact (ih w').trans (writeTurn_stage (Or.inl hturn))
    | stop result w' => exact writeTurn_stage (Or.inr ⟨result, hturn⟩)

/-- A sender between two calls: what it sent and what it still holds are its messages. -/
structure Sending (s : Sender) (messages : List (List (List Byte))) : Prop where
  sound : LineSound s.line
  stage : s.line.lStage = none
  stream : s.wire ++ backlog s.line = messages.flatMap encodeMessage

theorem openSender_sending : Sending openSender [] :=
  ⟨⟨fun p hp => by simp [openSender, createLine] at hp, by decide, by simp [Placed, openSender, createLine],
    fun hd => by cases hd⟩, rfl, rfl⟩

theorem Sending.append {s : Sender} {messages : List (List (List Byte))} (h : Sending s messages)
    {args : List (List Byte)} (hw : wellFormed args = true) :
    ∃ s', senderStep s (.append args) = some s' ∧ Sending s' (messages ++ [args]) := by
  obtain ⟨c, cs, rest, rfl⟩ : ∃ c cs rest, args = (c :: cs) :: rest := by
    unfold wellFormed at hw
    split at hw
    · exact ⟨_, _, _, rfl⟩
    · cases hw
  obtain ⟨q, hq, hb⟩ := appendMessage_spec h.stage (c :: cs) rest
  generalize hl : ({ s.line with lStage := none, lQueue := s.line.lQueue.addTail q } : Line) = l at hq
  obtain ⟨hsound, hbacklog⟩ : LineSound l ∧ backlog l = backlog s.line ++ encodeArgs q.args := by
    subst hl
    exact h.sound.add (hb.sound (by simp)) (RingQueue.contents_addTail s.line.lQueue q) rfl rfl rfl
  refine ⟨{ s with line := l }, by simp [senderStep, hq], hsound, by rw [← hl], ?_⟩
  have henc : encodeArgs q.args = encodeMessage ((c :: cs) :: rest) := by rw [hb.texts]; rfl
  have hs := h.stream
  rw [hbacklog, henc, List.flatMap_append, ← hs]
  simp

theorem Sending.write {s : Sender} {messages : List (List (List Byte))} (h : Sending s messages)
    (answers : List SendAnswer) :
    ∃ s', senderStep s (.write answers) = some s' ∧ Sending s' messages := by
  obtain ⟨result, w, hwr, hsound, hstream, hres⟩ := write_returns h.sound answers
  have hstage : w.line.lStage = none := by
    have hst := writeLoop_stage (writeFuel s.line answers) ⟨s.line, .fill, [], answers⟩
    have hw2 : writeLoop (writeFuel s.line answers) ⟨s.line, .fill, [], answers⟩ = (result, w) := hwr
    rw [hw2] at hst
    exact hst.trans h.stage
  have hstep : senderStep s (.write answers) = some ⟨w.line, s.wire ++ w.wire⟩ := by
    rcases hres with ⟨rfl, _⟩ | rfl | rfl <;> simp [senderStep, hwr]
  refine ⟨_, hstep, hsound, hstage, ?_⟩
  rw [List.append_assoc, hstream]
  exact h.stream

theorem sendAll_sending {ops : List SenderOp} (hw : ∀ args, .append args ∈ ops → wellFormed args = true)
    {s : Sender} {messages : List (List (List Byte))} (h : Sending s messages) :
    ∃ s', sendAll s ops = some s' ∧ Sending s' (messages ++ messagesOf ops) := by
  induction ops generalizing s messages with
  | nil => exact ⟨s, rfl, by simpa [messagesOf] using h⟩
  | cons op ops ih =>
    have hrest : ∀ args, .append args ∈ ops → wellFormed args = true :=
      fun args ha => hw args (List.mem_cons_of_mem op ha)
    cases op with
    | append args =>
      obtain ⟨s1, hs1, h1⟩ := h.append (hw args (by simp))
      obtain ⟨s2, hs2, h2⟩ := ih hrest h1
      exact ⟨s2, by simp [sendAll, hs1, hs2], by simpa [messagesOf, SenderOp.message?] using h2⟩
    | write answers =>
      obtain ⟨s1, hs1, h1⟩ := h.write answers
      obtain ⟨s2, hs2, h2⟩ := ih hrest h1
      have hm : messagesOf (.write answers :: ops) = messagesOf ops := List.filterMap_cons_none rfl
      exact ⟨s2, by simp [sendAll, hs1, hs2], by rw [hm]; exact h2⟩

/-- The scanner reads a stream of lines as the messages they were made from. -/
theorem scanner_encodeLines {lines : List (List Arg)} (hw : ∀ as ∈ lines, wellFormed (as.map Arg.text) = true)
    (hc : ∀ as ∈ lines, ∀ a ∈ as.tail, a.Clean) (n : Nat) :
    ∃ k events, scanner.run ⟨n, some .start⟩ (lines.flatMap encodeArgs) = (⟨k, some .start⟩, events) ∧
      events.map LineEvent.contents = lines.map fun as => some (as.map Arg.text) := by
  induction lines generalizing n with
  | nil => exact ⟨n, [], rfl, rfl⟩
  | cons as lines ih =>
    have hwas := hw as (List.mem_cons_self ..)
    cases as with
    | nil => simp [wellFormed] at hwas
    | cons a as =>
      obtain ⟨m, hm, hmargs, _⟩ := scanner_encodeArgs hwas (hc _ (List.mem_cons_self ..))
      obtain ⟨k, events, hev, hcont⟩ := ih (fun x hx => hw x (List.mem_cons_of_mem _ hx))
        (fun x hx => hc x (List.mem_cons_of_mem _ hx)) (n + (encodeArgs (a :: as)).length)
      refine ⟨k, [.message (n + (encodeArgs (a :: as)).length) m] ++ events, ?_, ?_⟩
      · rw [List.flatMap_cons, Transducer.run_append, hm, hev]
      · simp [LineEvent.contents, hmargs, hcont]

theorem scanner_encodeMessages {messages : List (List (List Byte))}
    (hw : ∀ m ∈ messages, wellFormed m = true) (n : Nat) :
    ∃ k events, scanner.run ⟨n, some .start⟩ (messages.flatMap encodeMessage) =
      (⟨k, some .start⟩, events) ∧ events.map LineEvent.contents = messages.map some := by
  have htexts : ∀ m : List (List Byte), (m.map fun text => (⟨text, 1⟩ : Arg)).map Arg.text = m := by
    intro m
    simp [Function.comp_def]
  have hwell : ∀ as ∈ messages.map (List.map fun text => (⟨text, 1⟩ : Arg)), wellFormed (as.map Arg.text) = true := by
    intro as has
    obtain ⟨m, hm, rfl⟩ := List.mem_map.mp has
    rw [htexts]
    exact hw m hm
  have hclean : ∀ as ∈ messages.map (List.map fun text => (⟨text, 1⟩ : Arg)), ∀ a ∈ as.tail, a.Clean := by
    intro as has a ha
    obtain ⟨m, _, rfl⟩ := List.mem_map.mp has
    obtain ⟨text, _, rfl⟩ := List.mem_map.mp (List.mem_of_mem_tail ha)
    intro h0
    cases h0
  obtain ⟨k, events, hrun, hcont⟩ := scanner_encodeLines hwell hclean n
  refine ⟨k, events, ?_, ?_⟩
  · rw [List.flatMap_map] at hrun
    exact hrun
  · rw [hcont, List.map_map]
    exact List.map_congr_left fun m _ => congrArg some (htexts m)

/-- Messages put on a line reach the reader at the other end of the wire, in order and byte
for byte, whatever the descriptor takes at a time and however its bytes arrive. -/
theorem wire_round_trip {ops : List SenderOp}
    (hw : ∀ args, .append args ∈ ops → wellFormed args = true) :
    ∃ s, sendAll openSender ops = some s ∧
      (flushing s.line = false → ∀ chunks events, chunks.flatMap Chunk.bytes = s.wire →
        session chunks = some events →
        events.map LineEvent.contents = (messagesOf ops).map some) ∧
      (∀ answers, (∀ a ∈ answers, ∃ n, 0 < n ∧ a = .sent n) →
        (backlog s.line).length ≤ answers.length →
        ∃ w, write s.line answers = (.done, w) ∧ flushing w.line = false) := by
  obtain ⟨s, hs, hsending⟩ := sendAll_sending hw openSender_sending
  refine ⟨s, hs, ?_, fun answers hsent hlen => write_eager hsending.sound hsent hlen⟩
  intro hflush chunks events hbytes hsession
  have hwire : s.wire = (messagesOf ops).flatMap encodeMessage := by
    have hst := hsending.stream
    rw [backlog_of_not_flushing hflush, List.append_nil, List.nil_append] at hst
    exact hst
  have hwell : ∀ m ∈ messagesOf ops, wellFormed m = true := by
    intro m hm
    obtain ⟨op, hop, hopm⟩ := List.mem_filterMap.mp hm
    cases op with
    | append args =>
      cases Option.some.inj hopm
      exact hw _ hop
    | write answers => cases hopm
  obtain ⟨k, read, hread, hcont⟩ := scanner_encodeMessages hwell 0
  rw [session_eq_scanner hsession, hbytes, hwire, hread]
  exact hcont

/-- An empty argument and one of escaped bytes, sent in two goes. -/
def pairedOps : List SenderOp :=
  [.append [[63, 97], [], [0, 32, 120]], .write [.sent 3, .errno eagain], .write [.sent 2, .sent 100]]

/-- The bytes of `pairedOps` with both its escapes cut. -/
def pairedChunks : List Chunk :=
  [⟨.read (.bytes ("?a \\".toList.map byte)), true⟩, ⟨.read (.bytes ("@ \\".toList.map byte)), true⟩,
    ⟨.load ("0\\_x\n".toList.map byte), true⟩]

theorem wire_round_trip_cut :
    (session pairedChunks).map (List.map LineEvent.contents) = some [some [[63, 97], [], [0, 32, 120]]] := by
  have hops : ∀ args, SenderOp.append args ∈ pairedOps → wellFormed args = true := by
    intro args hargs
    simp only [pairedOps, List.mem_cons, SenderOp.append.injEq, reduceCtorEq, List.not_mem_nil,
      or_false] at hargs
    rw [hargs]
    decide
  obtain ⟨s, hs, hread, _⟩ := wire_round_trip hops
  have hend : (sendAll openSender pairedOps).map (fun s => (flushing s.line, s.wire)) =
      some (false, pairedChunks.flatMap Chunk.bytes) := by
    decide
  rw [hs] at hend
  obtain ⟨hflush, hwire⟩ := Prod.mk.inj (Option.some.inj hend)
  obtain ⟨events, hevents⟩ := Option.isSome_iff_exists.mp
    (show (session pairedChunks).isSome = true by decide +kernel)
  rw [hevents]
  exact congrArg some (hread hflush _ events hwire.symm hevents)

end Katcp
