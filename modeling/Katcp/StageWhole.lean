import Katcp.LineStage

namespace Katcp

section

variable {l l' : Line} {log : List StageEvent} {first last : Bool} {f : Field} {r : Appended}

theorem appendsOf_append (log out : List StageEvent) : appendsOf (log ++ out) = appendsOf log ++ appendsOf out :=
  List.filterMap_append

/-- A message holds what the appends just made put together since the first. -/
def SinceFirst (log : List StageEvent) (args : List Arg) : Prop :=
  args ≠ [] → ∃ earlier appends, appendsOf log = earlier ++ appends ∧ Opened appends args

/-- The message under construction is the one that the appends just made began. -/
def Standing (l : Line) (log : List StageEvent) : Prop :=
  ∀ p, l.lStage = some p → ∃ args, args ≠ [] ∧ Staged p args ∧ SinceFirst log args

/-- What the calls on a line keep. -/
structure StageInv (l : Line) (log : List StageEvent) : Prop where
  standing : Standing l log
  whole : Always wholeMessage log

theorem createLine_stageInv : StageInv createLine [] :=
  ⟨fun p hp => (by cases hp), Always.nil⟩

theorem createParse_staged : Staged createParse [] := building_iff.mp createParse_building

theorem Standing.unstaged (h : l.lStage = none) : Standing l log := by
  intro p hp
  rw [h] at hp
  cases hp

/-- What says nothing about appends and queues nothing leaves the message as it is. -/
theorem StageInv.quiet (h : StageInv l log) (hstage : l'.lStage = l.lStage) {e : StageEvent}
    (he : e.append? = none) (hgood : wholeMessage log e) : StageInv l' (log ++ [e]) := by
  refine ⟨?_, h.whole.snoc hgood⟩
  intro p hp
  rw [hstage] at hp
  obtain ⟨args, hne, hstaged, hsince⟩ := h.standing p hp
  refine ⟨args, hne, hstaged, fun ha => ?_⟩
  obtain ⟨earlier, appends, hlog, hopened⟩ := hsince ha
  refine ⟨earlier, appends, ?_, hopened⟩
  rw [appendsOf_append, hlog]
  simp [appendsOf, he]

theorem StageInv.refused (h : Always wholeMessage log) (hstage : l.lStage = none) :
    StageInv l (log ++ [.refused]) :=
  ⟨Standing.unstaged hstage, h.snoc trivial⟩

theorem beforeAppend_staged {p : Parse} (h : Standing l log) (hb : beforeAppend l first = some p) :
    ∃ args, Staged p args ∧ SinceFirst log args := by
  unfold beforeAppend at hb
  split at hb
  next q hq =>
    cases Option.some.inj hb
    obtain ⟨args, _, hstaged, hsince⟩ := h p hq
    exact ⟨args, hstaged, hsince⟩
  next =>
    split at hb
    next =>
      cases Option.some.inj hb
      exact ⟨[], createParse_staged, fun hne => absurd rfl hne⟩
    next => cases hb

theorem beforeAppend_none (hb : beforeAppend l first = none) : l.lStage = none := by
  unfold beforeAppend at hb
  split at hb
  next => cases hb
  next hnone => exact hnone

/-- The appends of a history with a taken one behind them. -/
theorem SinceFirst.taken {args : List Arg} (h : SinceFirst log args) (last : Bool) (more : List Arg)
    (hopens : first = true → args = []) (hfollows : first = false → args ≠ []) :
    ∃ earlier appends, appendsOf (log ++ [.taken first last more]) = earlier ++ appends ∧
      (last = false → Opened appends (args ++ more)) ∧ (last = true → FirstToLast appends (args ++ more)) := by
  have hlog : appendsOf (log ++ [.taken first last more]) = appendsOf log ++ [.taken first last more] := by
    rw [appendsOf_append]
    rfl
  rw [hlog]
  cases first with
  | true =>
    obtain rfl := hopens rfl
    refine ⟨appendsOf log, [.taken true last more], rfl, ?_, ?_⟩
    · rintro rfl
      exact .first more
    · rintro rfl
      exact .alone more
  | false =>
    obtain ⟨earlier, appends, hold, hopened⟩ := h (hfollows rfl)
    refine ⟨earlier, appends ++ [.taken false last more], by rw [hold, List.append_assoc], ?_, ?_⟩
    · rintro rfl
      exact hopened.more more
    · rintro rfl
      exact .closed hopened more

/-- A message that grew by what an append was given either stays under construction or goes out whole. -/
theorem afterAppend_kept {q : Parse} {args more : List Arg} {out : List StageEvent} (h : Always wholeMessage log)
    (hsince : SinceFirst log args) (hopens : first = true → args = []) (hfollows : first = false → args ≠ [])
    (hstaged : Staged q (args ++ more)) (hsome : args ++ more ≠ []) (ha : afterAppend l last q = (l', out)) :
    StageInv l' (log ++ .taken first last more :: out) := by
  obtain ⟨earlier, appends, hlog, hopened, hclosed⟩ := hsince.taken last more hopens hfollows
  have htaken : Always wholeMessage (log ++ [.taken first last more]) := h.snoc trivial
  cases last with
  | true =>
    cases ha
    refine ⟨Standing.unstaged rfl, ?_⟩
    rw [show log ++ [StageEvent.taken first true more, .queued q.args] =
      (log ++ [.taken first true more]) ++ [.queued q.args] by simp]
    refine htaken.snoc ⟨earlier, appends, hlog, ?_⟩
    rw [hstaged.args]
    exact hclosed rfl
  | false =>
    cases ha
    refine ⟨?_, htaken⟩
    intro p hp
    cases Option.some.inj hp
    exact ⟨args ++ more, hsome, hstaged, fun _ => ⟨earlier, appends, hlog, hopened rfl⟩⟩

theorem appendField_kept (h : StageInv l log) (ha : appendField l first last f = some r) :
    StageInv r.line (log ++ r.log) := by
  unfold appendField at ha
  split at ha
  next hb =>
    cases Option.some.inj ha
    exact StageInv.refused h.whole (beforeAppend_none hb)
  next p hb =>
    obtain ⟨args, hstaged, hsince⟩ := beforeAppend_staged h.standing hb
    split at ha
    next => cases ha
    next =>
      cases Option.some.inj ha
      exact StageInv.refused h.whole rfl
    next q hadd =>
      have hgrown := addField_grown hstaged hadd
      cases Option.some.inj ha
      exact afterAppend_kept h.whole hsince hgrown.opens hgrown.follows hgrown.staged
        (List.append_ne_nil_of_right_ne_nil _ hgrown.some) rfl

theorem appendEnd_kept (h : StageInv l log) (ha : appendEnd l = some r) : StageInv r.line (log ++ r.log) := by
  unfold appendEnd at ha
  split at ha
  next hb =>
    cases Option.some.inj ha
    exact StageInv.refused h.whole (beforeAppend_none hb)
  next p hb =>
    obtain ⟨args, hstaged, hsince⟩ := beforeAppend_staged h.standing hb
    obtain ⟨q, hend, ha⟩ := Option.map_eq_some_iff.mp ha
    subst ha
    unfold addEnd at hend
    split at hend
    next => cases hend
    next =>
      split at hend
      next => cases hend
      next hgot =>
        cases Option.some.inj hend
        have hne : args ≠ [] := by
          rintro rfl
          exact hgot hstaged.count
        have hended : Staged { p with pState := .done } (args ++ []) := by
          rw [List.append_nil]
          exact ⟨hstaged.got, hstaged.count, hstaged.kept, hstaged.bound, hstaged.args⟩
        exact afterAppend_kept h.whole hsince nofun (fun _ => hne) hended (by simpa using hne) rfl

theorem appendParse_kept {p : Parse} (h : StageInv l log) (ha : appendParse l p = some r) :
    StageInv r.line (log ++ r.log) := by
  unfold appendParse at ha
  split at ha
  next => cases ha
  next =>
    cases Option.some.inj ha
    refine h.quiet (e := .given p.args) ?_ ?_ ?_
    · rfl
    · rfl
    · trivial

theorem addPrinted_unfit {p : Parse} {limit : Nat} {text : Text} (h : text.length = 0 ∨ text.length ≥ limit)
    {q : Parse} : addPrinted p first last limit text ≠ .added q := by
  unfold addPrinted
  intro hadd
  split at hadd
  next => cases hadd
  next =>
    rw [if_pos h] at hadd
    cases hadd

theorem unprintable_refused {a : VsendArg} (hu : a.unprintable = true) (hf : a.field = some f)
    (ha : appendField l first last f = some r) : r.ok = false := by
  unfold VsendArg.unprintable at hu
  split at hu
  next text hv =>
    simp only [VsendArg.field, hv] at hf
    obtain ⟨_, hf⟩ := Option.ite_none_right_eq_some.mp hf
    cases Option.some.inj hf
    unfold appendField at ha
    split at ha
    next =>
      cases Option.some.inj ha
      rfl
    next =>
      split at ha
      next => cases ha
      next =>
        cases Option.some.inj ha
        rfl
      next q hadd =>
        simp only [Bool.or_eq_true, decide_eq_true_eq] at hu
        exact absurd hadd (addPrinted_unfit (by omega))
  next => cases hu

theorem vsendLoop_kept {args : List VsendArg} {staged : Bool} (h : StageInv l log)
    (hstaged : l.lStage.isSome = true → staged = true) (htidy : vsendLoopAstray staged args = false)
    (hv : vsendLoop l args = some r) : StageInv r.line (log ++ r.log) := by
  induction args generalizing l log staged r with
  | nil => cases hv
  | cons a rest ih =>
    rw [vsendLoop] at hv
    rw [vsendLoopAstray] at htidy
    by_cases htyped : a.Typed
    · rw [if_neg (not_not.mpr htyped)] at hv
      rw [if_pos htyped] at htidy
      obtain ⟨f, hf, hv⟩ := Option.bind_eq_some_iff.mp hv
      obtain ⟨r1, hr1, hv⟩ := Option.bind_eq_some_iff.mp hv
      have hkept := appendField_kept h hr1
      split at hv
      next =>
        cases Option.some.inj hv
        exact hkept
      next hgo =>
        obtain ⟨r2, hr2, hv⟩ := Option.bind_eq_some_iff.mp hv
        cases Option.some.inj hv
        simp only [not_or, Bool.not_eq_true] at hgo
        have hprint : a.unprintable = false := by
          rw [← Bool.not_eq_true]
          intro hu
          exact hgo.1 (by rw [unprintable_refused hu hf hr1])
        have hrest : vsendLoopAstray true rest = false := by
          simpa [hprint, hgo.2] using htidy
        rw [← List.append_assoc]
        exact ih hkept (fun _ => rfl) hrest hr2
    · rw [if_pos htyped] at hv
      rw [if_neg htyped] at htidy
      cases Option.some.inj hv
      refine StageInv.refused h.whole ?_
      rw [← Option.not_isSome_iff_eq_none]
      intro hsome
      rw [hstaged hsome] at htidy
      cases htidy

theorem vsend_kept {args : List VsendArg} (h : StageInv l log)
    (htidy : vsendAstray l.lStage.isSome args = false) (hv : vsend l args = some r) :
    StageInv r.line (log ++ r.log) := by
  cases args with
  | nil => cases hv
  | cons a rest =>
    rw [vsend] at hv
    rw [vsendAstray] at htidy
    by_cases hfirst : a.first = true
    · rw [if_neg (not_not.mpr hfirst)] at hv
      rw [if_pos hfirst] at htidy
      exact vsendLoop_kept h id htidy hv
    · rw [if_pos hfirst] at hv
      rw [if_neg hfirst] at htidy
      cases Option.some.inj hv
      exact StageInv.refused h.whole (Option.not_isSome_iff_eq_none.mp (by rw [htidy]; exact Bool.false_ne_true))

theorem write_stage (l : Line) (answers : List SendAnswer) : (write l answers).2.line.lStage = l.lStage :=
  writeLoop_stage _ _

theorem stageMachine_keeps : stageMachine.Keeps stageTidy StageInv := by
  refine Machine.keeps_of_act (f := stageAct) (fun _ _ => rfl) (fun _ _ => rfl) fun l log c l' out h hok hact => ?_
  cases c with
  | append first last f =>
    obtain ⟨r, hr, hact⟩ := Option.map_eq_some_iff.mp hact
    cases hact
    exact appendField_kept h hr
  | finish =>
    obtain ⟨r, hr, hact⟩ := Option.map_eq_some_iff.mp hact
    cases hact
    exact appendEnd_kept h hr
  | parse p =>
    obtain ⟨r, hr, hact⟩ := Option.map_eq_some_iff.mp hact
    cases hact
    exact appendParse_kept h hr
  | vsend args =>
    obtain ⟨r, hr, hact⟩ := Option.map_eq_some_iff.mp hact
    cases hact
    exact vsend_kept h hok hr
  | write answers =>
    have hstage := write_stage l answers
    rw [stageAct] at hact
    split at hact
    next => cases hact
    next => cases hact
    next w _ _ hw =>
      cases Option.some.inj hact
      rw [hw] at hstage
      rw [List.append_nil]
      refine ⟨?_, h.whole⟩
      intro p hp
      exact h.standing p (hstage ▸ hp)

/-- The messages that a history says entered the queue. -/
def queuedBy (log : List StageEvent) : List (List Arg) :=
  log.filterMap fun
    | .queued args => some args
    | .given args => some args
    | _ => none

/-- The queue after a call: what it held, and behind that what the call says entered it. -/
def Filled (l l' : Line) (out : List StageEvent) : Prop :=
  l'.lQueue.contents.map Parse.args = l.lQueue.contents.map Parse.args ++ queuedBy out

theorem afterAppend_filled {q : Parse} {args : List Arg} {out : List StageEvent}
    (ha : afterAppend l last q = (l', out)) : Filled l l' (.taken first last args :: out) := by
  cases last with
  | true =>
    cases ha
    simp [Filled, queuedBy]
  | false =>
    cases ha
    simp [Filled, queuedBy]

theorem refused_filled (stage : Option Parse) : Filled l { l with lStage := stage } [.refused] :=
  (List.append_nil _).symm

theorem appendField_filled (ha : appendField l first last f = some r) : Filled l r.line r.log := by
  unfold appendField at ha
  split at ha
  next =>
    cases Option.some.inj ha
    exact refused_filled l.lStage
  next =>
    split at ha
    next => cases ha
    next =>
      cases Option.some.inj ha
      exact refused_filled none
    next =>
      cases Option.some.inj ha
      exact afterAppend_filled rfl

theorem appendEnd_filled (ha : appendEnd l = some r) : Filled l r.line r.log := by
  unfold appendEnd at ha
  split at ha
  next =>
    cases Option.some.inj ha
    exact refused_filled l.lStage
  next =>
    obtain ⟨q, _, ha⟩ := Option.map_eq_some_iff.mp ha
    subst ha
    exact afterAppend_filled rfl

theorem vsendLoop_filled {args : List VsendArg} (hv : vsendLoop l args = some r) : Filled l r.line r.log := by
  induction args generalizing l r with
  | nil => cases hv
  | cons a rest ih =>
    rw [vsendLoop] at hv
    split at hv
    next =>
      cases Option.some.inj hv
      exact refused_filled l.lStage
    next =>
      obtain ⟨f, _, hv⟩ := Option.bind_eq_some_iff.mp hv
      obtain ⟨r1, hr1, hv⟩ := Option.bind_eq_some_iff.mp hv
      have hfilled := appendField_filled hr1
      split at hv
      next =>
        cases Option.some.inj hv
        exact hfilled
      next =>
        obtain ⟨r2, hr2, hv⟩ := Option.bind_eq_some_iff.mp hv
        cases Option.some.inj hv
        have hrest := ih hr2
        rw [Filled, hfilled] at hrest
        rw [Filled, hrest, queuedBy, queuedBy, queuedBy, List.filterMap_append, List.append_assoc]

theorem vsend_filled {args : List VsendArg} (hv : vsend l args = some r) : Filled l r.line r.log := by
  cases args with
  | nil => cases hv
  | cons a rest =>
    rw [vsend] at hv
    split at hv
    next =>
      cases Option.some.inj hv
      exact refused_filled l.lStage
    next => exact vsendLoop_filled hv

theorem stageAct_filled {c : StageCall} {out : List StageEvent} (hc : ∀ answers, c ≠ .write answers)
    (hact : stageAct l c = some (l', out)) : Filled l l' out := by
  cases c with
  | append first last f =>
    obtain ⟨r, hr, hact⟩ := Option.map_eq_some_iff.mp hact
    cases hact
    exact appendField_filled hr
  | finish =>
    obtain ⟨r, hr, hact⟩ := Option.map_eq_some_iff.mp hact
    cases hact
    exact appendEnd_filled hr
  | parse p =>
    obtain ⟨r, hr, hact⟩ := Option.map_eq_some_iff.mp hact
    cases hact
    unfold appendParse at hr
    split at hr
    next => cases hr
    next =>
      cases Option.some.inj hr
      simp [Filled, queuedBy]
  | vsend args =>
    obtain ⟨r, hr, hact⟩ := Option.map_eq_some_iff.mp hact
    cases hact
    exact vsend_filled hr
  | write answers => exact absurd rfl (hc answers)

end

/-- What enters the output queue of a line is what its appends put together from first to last,
each of them a success, as long as `vsend_katcl` itself refuses nothing when a message is under
construction. -/
theorem queued_whole (l : Line) :
    (∀ log, stageMachine.Runs stageTidy l log → Always wholeMessage log) ∧
      ∀ c l', (∀ answers, c ≠ .write answers) → stageMachine.step l c = some l' →
        l'.lQueue.contents.map Parse.args =
          l.lQueue.contents.map Parse.args ++ queuedBy (stageMachine.emits l c) := by
  constructor
  · intro log h
    exact (h.invariant StageInv createLine_stageInv stageMachine_keeps).whole
  · intro c l' hc hstep
    exact stageAct_filled hc (Machine.act_of_step (f := stageAct) (fun _ _ => rfl) (fun _ _ => rfl) hstep)

/-- The word that a refused call leaves nothing of, and the message sent after it. -/
def tidyCalls : List StageCall :=
  [.append true false (.string (some (textOf "#a"))), .append false false (.double []),
    .vsend [⟨0x11, .string (some (textOf "#b"))⟩, ⟨0x22, .long 5⟩]]

theorem tidyCalls_tidy : stageMachine.Meets stageTidy createLine tidyCalls :=
  ⟨trivial, fun _ _ => ⟨trivial, fun _ _ => ⟨rfl, fun _ _ => trivial⟩⟩⟩

theorem queued_whole_after_refusal : ∃ l log, stageMachine.Runs stageTidy l log ∧ Always wholeMessage log ∧
    l.lQueue.contents.map Parse.args = [[⟨textOf "#b", 1⟩, ⟨textOf "5", 0⟩]] := by
  obtain ⟨⟨l, log⟩, he⟩ := Option.isSome_iff_exists.mp
    (show (stageMachine.exec createLine tidyCalls).isSome = true by decide)
  have hqueue : ((stageMachine.exec createLine tidyCalls).map fun r => r.1.lQueue.contents.map Parse.args) =
      some [[⟨textOf "#b", 1⟩, ⟨textOf "5", 0⟩]] := by
    decide
  rw [he] at hqueue
  have hruns := Machine.Runs.exec .start tidyCalls he tidyCalls_tidy
  exact ⟨l, _, hruns, (queued_whole l).1 _ hruns, Option.some.inj hqueue⟩

theorem Opened.ends {appends : List StageEvent} {args : List Arg} (h : Opened appends args) :
    ∃ earlier first more, appends = earlier ++ [.taken first false more] := by
  cases h with
  | first args => exact ⟨[], true, args, rfl⟩
  | more h next => exact ⟨_, false, next, rfl⟩

/-- Nothing that an append continues behind a refused one is whole. -/
theorem not_whole_behind_refused {before earlier : List StageEvent} {next args : List Arg}
    (h : appendsOf before = earlier ++ [.refused, .taken false true next]) :
    ¬ wholeMessage before (.queued args) := by
  rintro ⟨first, appends, hsplit, hwhole⟩
  rw [h, List.append_cons] at hsplit
  cases hwhole with
  | alone args =>
    obtain ⟨_, hlast⟩ := List.append_inj' hsplit rfl
    cases hlast
  | closed hopened more =>
    rw [← List.append_assoc] at hsplit
    obtain ⟨hfront, _⟩ := List.append_inj' hsplit rfl
    obtain ⟨pre, b, mid, rfl⟩ := hopened.ends
    rw [← List.append_assoc] at hfront
    obtain ⟨_, hlast⟩ := List.append_inj' hfront rfl
    cases hlast

/-- A bad type flag behind a first argument. -/
def tornCalls : List StageCall :=
  [.vsend [⟨0x11, .string (some (textOf "#a"))⟩, ⟨0x90, .string none⟩]]

/-- What the appends then are when one more is made to end the message. -/
def tornAppends : List StageEvent :=
  [.taken true false [⟨textOf "#a", 1⟩], .refused, .taken false true [⟨textOf "c", 1⟩]]

/-- After a bad type flag an append continues the message that should have been thrown away, and
one that starts another aborts the program. -/
theorem queued_torn :
    (∃ l log, stageMachine.Runs (fun _ _ => True) l log ∧ ¬ Always wholeMessage log) ∧
      ∃ l log, stageMachine.Runs (fun _ _ => True) l log ∧
        stageMachine.step l (.append true true (.string (some (textOf "#b")))) = none := by
  constructor
  · obtain ⟨⟨l, log⟩, he⟩ := Option.isSome_iff_exists.mp
      (show (stageMachine.exec createLine (tornCalls ++ [.append false true (.string (some (textOf "c")))])).isSome =
        true by decide)
    have hlog : ((stageMachine.exec createLine (tornCalls ++
        [.append false true (.string (some (textOf "c")))])).map Prod.snd) =
        some (tornAppends ++ [.queued [⟨textOf "#a", 1⟩, ⟨textOf "c", 1⟩]]) := by
      decide
    rw [he] at hlog
    cases Option.some.inj hlog
    refine ⟨l, _, Machine.Runs.exec .start _ he (Machine.meets_true ..), fun hall => ?_⟩
    have hsplit : appendsOf tornAppends = [.taken true false [⟨textOf "#a", 1⟩]] ++
        [.refused, .taken false true [⟨textOf "c", 1⟩]] := rfl
    exact not_whole_behind_refused hsplit (hall tornAppends _ [] rfl)
  · obtain ⟨⟨l, log⟩, he⟩ := Option.isSome_iff_exists.mp
      (show (stageMachine.exec createLine tornCalls).isSome = true by decide)
    refine ⟨l, _, Machine.Runs.exec .start _ he (Machine.meets_true ..), ?_⟩
    have hnext : ((stageMachine.exec createLine tornCalls).bind fun r =>
        stageMachine.step r.1 (.append true true (.string (some (textOf "#b"))))) = none := by
      decide
    rw [he] at hnext
    exact hnext

end Katcp
