import Katcp.Machine
import Katcp.NoticeQueue

namespace Katcp

section

/-- A function that a module has registered, told from others by its address. -/
abbrev FunctionId := Nat

structure ModeEntry where
  eName : Option Text
  ePrep : Option FunctionId
  eEnter : Option FunctionId
  eLeave : Option FunctionId
  eStatus : Nat

/-- The modes of a server, of which there is always one, and whether there is a sensor for them. -/
structure ModeTable where
  sVector : List ModeEntry
  sModeSensor : Bool
  nonempty : 0 < sVector.length

abbrev ModeTable.Index (t : ModeTable) := Fin t.sVector.length

def ModeTable.entry (t : ModeTable) (m : t.Index) : ModeEntry := t.sVector[m]

/-- The current mode and the change under way; `waiting` are the notices that have
`complete_mode_katcp` among their callbacks. -/
structure Modes (t : ModeTable) where
  sMode : t.Index
  sNew : t.Index
  sFlaky : Bool
  sOptions : Option Text
  sTransition : Option NoticeId
  waiting : List NoticeId

/-- What a mode change does to the outside. -/
inductive ModeEvent where
  | prepare (f : FunctionId) (flags : Option Text) (source target : Nat)
  | leave (f : FunctionId) (mode : Nat)
  | enter (f : FunctionId) (n : Option NoticeId) (flags : Option Text) (mode : Nat)
  | inform (name : Text)
  | environment (name : Option Text)
  | sensor (mode status : Nat)

variable {t : ModeTable}

/-- `startup_shared_katcp`. -/
def startupModes (t : ModeTable) : Modes t := ⟨⟨0, t.nonempty⟩, ⟨0, t.nonempty⟩, false, none, none, []⟩

/-- What `complete_mode_katcp` makes known of the mode now current. -/
def ModeTable.announce (t : ModeTable) (m : t.Index) : List ModeEvent :=
  let e := t.entry m
  (match e.eName with
    | some name => [.inform name, .environment (some name)]
    | none => [.environment none]) ++
  if t.sModeSensor then [.sensor m e.eStatus] else []

/-- `complete_mode_katcp`; the result given is that of the enter function, where there is one. -/
def Modes.completeMode (s : Modes t) (n : Option NoticeId) (result : Int) :
    Int × Modes t × List ModeEvent :=
  let e := t.entry s.sNew
  let left := e.eLeave.toList.map fun f => .leave f s.sNew
  match e.eEnter with
  | some f =>
    let called := left ++ [.enter f n s.sOptions s.sNew]
    if result = 0 then
      (0, { s with sFlaky := false, sMode := s.sNew, sTransition := none, sOptions := none },
        called ++ t.announce s.sNew)
    else
      (result, { s with sFlaky := true, sNew := s.sMode, sTransition := none, sOptions := none }, called)
  | none =>
    (0, { s with sMode := s.sNew, sFlaky := false, sTransition := none, sOptions := none },
      left ++ t.announce s.sNew)

/-- `enter_mode_katcp`, with what the prepare function and the enter function give back, should
they be called. -/
def Modes.enterMode (s : Modes t) (mode : Nat) (flags : Option Text) (prepared : Option NoticeId)
    (result : Int) : Int × Modes t × List ModeEvent :=
  if s.sTransition.isSome then (-1, s, [])
  else if h : mode < t.sVector.length then
    if (⟨mode, h⟩ : t.Index) = s.sMode then (0, s, [])
    else
      let s1 := { s with sOptions := flags, sNew := ⟨mode, h⟩ }
      match (t.entry ⟨mode, h⟩).ePrep with
      | none => s1.completeMode none result
      | some f =>
        let called := [.prepare f flags s.sMode mode]
        match prepared with
        | none => (-1, { s1 with sNew := s.sMode, sFlaky := true }, called)
        | some n => (1, { s1 with sTransition := some n, waiting := s.waiting.insert n }, called)
  else (-1, s, [])

/-- `run_notices_katcp` at a notice that has `complete_mode_katcp` among its callbacks, which stays
there after a positive result. -/
def Modes.runMode (s : Modes t) (n : NoticeId) (result : Int) : Option (Modes t × List ModeEvent) :=
  if n ∈ s.waiting then
    let (r, s1, called) := s.completeMode (some n) result
    some ({ s1 with waiting := if r ≤ 0 then s1.waiting.erase n else s1.waiting }, called)
  else none

inductive ModeAction where
  | request (mode : Nat) (flags : Option Text) (prepared : Option NoticeId) (result : Int)
  | complete (n : NoticeId) (result : Int)

def Modes.act (s : Modes t) : ModeAction → Option (Modes t × List ModeEvent)
  | .request mode flags prepared result => some (s.enterMode mode flags prepared result).2
  | .complete n result => s.runMode n result

/-- The functions of the modes. -/
inductive ModeCallback where
  | prepare (f : FunctionId)
  | leave (f : FunctionId)
  | enter (f : FunctionId)
  deriving DecidableEq

def ModeEvent.callback : ModeEvent → Option ModeCallback
  | .prepare f _ _ _ => some (.prepare f)
  | .leave f _ => some (.leave f)
  | .enter f _ _ _ => some (.enter f)
  | _ => none

/-- The modes of a table, with the functions that each action calls. -/
def modeMachine (t : ModeTable) : Machine (Modes t) ModeAction (ModeAction × List ModeCallback) where
  start := startupModes t
  step s a := (s.act a).map Prod.fst
  emits s a := (s.act a).toList.map fun r => (a, r.2.filterMap ModeEvent.callback)

end

section

variable {t : ModeTable}

/-- What a mode change is about: the current mode, whether a failed change has compromised it, and
the notice that a deferred change waits for and the mode it is to. -/
structure ModeView (t : ModeTable) where
  mode : t.Index
  flaky : Bool
  pending : Option (NoticeId × t.Index)

def Modes.view (s : Modes t) : ModeView t := ⟨s.sMode, s.sFlaky, s.sTransition.map fun n => (n, s.sNew)⟩

def ModeEntry.leaving (e : ModeEntry) : List ModeCallback := e.eLeave.toList.map .leave

def ModeEntry.entering (e : ModeEntry) : List ModeCallback := e.eEnter.toList.map .enter

/-- Whether a mode can be entered, given what its enter function returns. -/
def ModeEntry.Enters (e : ModeEntry) (result : Int) : Prop := e.eEnter = none ∨ result = 0

/-- A change from one mode to another one, or to itself again. -/
inductive ModeChange (a b : t.Index) (result : Int) : ModeView t → List ModeCallback → Prop
  | succeeded {before : List ModeCallback} : (t.entry b).Enters result →
      (∀ f, .enter f ∉ before) → (a ≠ b → before = (t.entry a).leaving) →
      ModeChange a b result ⟨b, false, none⟩ (before ++ (t.entry b).entering)
  | failed {before : List ModeCallback} : ¬ (t.entry b).Enters result → (∀ f, .enter f ∉ before) →
      ModeChange a b result ⟨a, true, none⟩ (before ++ (t.entry b).entering)

/-- The mode change protocol, with the functions that each step calls. -/
inductive ModeProtocol : ModeView t → ModeAction → List ModeCallback → ModeView t → Prop
  | busy {v : ModeView t} {m : Nat} {flags : Option Text} {p : Option NoticeId} {r : Int} :
      v.pending.isSome → ModeProtocol v (.request m flags p r) [] v
  | unknown {v : ModeView t} {m : Nat} {flags : Option Text} {p : Option NoticeId} {r : Int} :
      t.sVector.length ≤ m → ModeProtocol v (.request m flags p r) [] v
  | already {v : ModeView t} {flags : Option Text} {p : Option NoticeId} {r : Int} :
      v.pending = none → v.flaky = false → ModeProtocol v (.request v.mode flags p r) [] v
  | unprepared {v : ModeView t} {b : t.Index} {flags : Option Text} {r : Int} {f : FunctionId} :
      v.pending = none → (v.mode = b → v.flaky) → (t.entry b).ePrep = some f →
      ModeProtocol v (.request b flags none r) [.prepare f] ⟨v.mode, true, none⟩
  | deferred {v : ModeView t} {b : t.Index} {flags : Option Text} {n : NoticeId} {r : Int}
      {f : FunctionId} : v.pending = none → (v.mode = b → v.flaky) → (t.entry b).ePrep = some f →
      ModeProtocol v (.request b flags (some n) r) [.prepare f] ⟨v.mode, v.flaky, some (n, b)⟩
  | immediate {v v' : ModeView t} {b : t.Index} {flags : Option Text} {p : Option NoticeId} {r : Int}
      {called : List ModeCallback} : v.pending = none → (v.mode = b → v.flaky) →
      (t.entry b).ePrep = none → ModeChange v.mode b r v' called →
      ModeProtocol v (.request b flags p r) called v'
  | completed {v v' : ModeView t} {b : t.Index} {n : NoticeId} {r : Int}
      {called : List ModeCallback} : v.pending = some (n, b) → ModeChange v.mode b r v' called →
      ModeProtocol v (.complete n r) called v'

/-- A change that succeeds at once leaves the old mode and then enters the new one. -/
theorem ModeProtocol.request_calls {v v' : ModeView t} {b : t.Index} {flags : Option Text}
    {p : Option NoticeId} {r : Int} {called : List ModeCallback}
    (h : ModeProtocol v (.request b flags p r) called v') (hfree : v.pending = none) (hne : v.mode ≠ b)
    (hprep : (t.entry b).ePrep = none) (he : (t.entry b).Enters r) :
    called = (t.entry v.mode).leaving ++ (t.entry b).entering := by
  generalize ha : ModeAction.request b flags p r = a at h
  cases h with
  | busy hbusy => simp [hfree] at hbusy
  | unknown hm =>
    cases ha
    have hb := b.isLt
    omega
  | already =>
    injection ha with hm
    exact absurd (Fin.ext hm.symm) hne
  | unprepared _ _ hf =>
    injection ha with hm
    rw [← Fin.ext hm, hprep] at hf
    cases hf
  | deferred _ _ hf =>
    injection ha with hm
    rw [← Fin.ext hm, hprep] at hf
    cases hf
  | immediate _ _ _ hchange =>
    injection ha with hm _ _ hr
    obtain rfl := Fin.ext hm
    subst hr
    cases hchange with
    | succeeded _ _ hbefore => rw [hbefore hne]
    | failed hn => exact absurd he hn
  | completed => cases ha

/-- The runs of the protocol. -/
def ModeRuns : ModeView t → List (ModeAction × List ModeCallback) → ModeView t → Prop
  | v, [], v' => v = v'
  | v, (a, called) :: rest, v' => ∃ u, ModeProtocol v a called u ∧ ModeRuns u rest v'

theorem ModeRuns.snoc {v u v' : ModeView t} {log : List (ModeAction × List ModeCallback)} {a : ModeAction}
    {called : List ModeCallback} (h : ModeRuns v log u) (hp : ModeProtocol u a called v') :
    ModeRuns v (log ++ [(a, called)]) v' := by
  induction log generalizing v with
  | nil =>
    cases h
    exact ⟨v', hp, rfl⟩
  | cons e rest ih =>
    obtain ⟨w, hw, hr⟩ := h
    exact ⟨w, hw, ih hr⟩

/-- Where a change succeeds the leave functions of both modes are the same (that of the new mode is
called), the current mode is not asked for while it is compromised, and `complete_mode_katcp` is not
run by a notice other than that of the change under way. -/
def ModesApt (s : Modes t) : ModeAction → Prop
  | .request mode _ _ result => s.sTransition = none → ∀ h : mode < t.sVector.length,
      (⟨mode, h⟩ = s.sMode → s.sFlaky = false) ∧
      ((t.entry ⟨mode, h⟩).ePrep = none → (t.entry ⟨mode, h⟩).Enters result →
        (t.entry ⟨mode, h⟩).eLeave = (t.entry s.sMode).eLeave)
  | .complete n result => s.sTransition = some n ∧
      ((t.entry s.sNew).Enters result → (t.entry s.sNew).eLeave = (t.entry s.sMode).eLeave)

theorem announce_callback (m : t.Index) : (t.announce m).filterMap ModeEvent.callback = [] := by
  unfold ModeTable.announce
  dsimp only
  split <;> split <;> rfl

/-- What `complete_mode_katcp` does, whatever calls it. -/
theorem completeMode_change {s s' : Modes t} {n : Option NoticeId} {r r' : Int} {events : List ModeEvent}
    (hl : (t.entry s.sNew).Enters r → (t.entry s.sNew).eLeave = (t.entry s.sMode).eLeave)
    (h : s.completeMode n r = (r', s', events)) :
    ModeChange s.sMode s.sNew r s'.view (events.filterMap ModeEvent.callback) := by
  have hleft : ((t.entry s.sNew).eLeave.toList.map fun f => ModeEvent.leave f s.sNew).filterMap
      ModeEvent.callback = (t.entry s.sNew).leaving := by
    unfold ModeEntry.leaving
    cases (t.entry s.sNew).eLeave <;> rfl
  have hquiet : ∀ f, .enter f ∉ (t.entry s.sNew).leaving := by
    simp [ModeEntry.leaving]
  have hsame : (t.entry s.sNew).Enters r → s.sMode ≠ s.sNew →
      (t.entry s.sNew).leaving = (t.entry s.sMode).leaving := fun he _ => by
    rw [ModeEntry.leaving, hl he, ModeEntry.leaving]
  unfold Modes.completeMode at h
  dsimp only at h
  split at h
  next f hf =>
    have hent : [ModeEvent.enter f n s.sOptions s.sNew].filterMap ModeEvent.callback =
        (t.entry s.sNew).entering := by rw [ModeEntry.entering, hf]; rfl
    split at h
    next hr =>
      cases h
      rw [List.filterMap_append, List.filterMap_append, announce_callback, hleft, hent, List.append_nil]
      have he : (t.entry s.sNew).Enters r := .inr hr
      exact .succeeded he hquiet (hsame he)
    next hr =>
      cases h
      rw [List.filterMap_append, hleft, hent]
      have he : ¬ (t.entry s.sNew).Enters r := by
        rintro (hn | h0)
        · rw [hf] at hn
          cases hn
        · exact hr h0
      exact .failed he hquiet
  next hf =>
    cases h
    have hent : [] = (t.entry s.sNew).entering := by rw [ModeEntry.entering, hf]; rfl
    rw [List.filterMap_append, announce_callback, hleft, hent]
    have he : (t.entry s.sNew).Enters r := .inl hf
    exact .succeeded he hquiet (hsame he)

theorem enterMode_follows {s s' : Modes t} {mode : Nat} {flags : Option Text} {p : Option NoticeId}
    {r r' : Int} {events : List ModeEvent} (hapt : ModesApt s (.request mode flags p r))
    (h : s.enterMode mode flags p r = (r', s', events)) :
    ModeProtocol s.view (.request mode flags p r) (events.filterMap ModeEvent.callback) s'.view := by
  unfold Modes.enterMode at h
  split at h
  next hbusy =>
    cases h
    exact .busy (by simpa [Modes.view] using hbusy)
  next hfree =>
    have hnone : s.sTransition = none := by simpa using hfree
    have hpending : s.view.pending = none := by simp [Modes.view, hnone]
    split at h
    next hm =>
      obtain ⟨hcalm, hleave⟩ := hapt hnone hm
      split at h
      next hcur =>
        cases h
        have hmode : mode = (s.view.mode : Nat) := congrArg Fin.val hcur
        rw [hmode]
        exact .already hpending (hcalm hcur)
      next hother =>
        have hne : s.view.mode = ⟨mode, hm⟩ → s.view.flaky = true := fun he => absurd he.symm hother
        dsimp only at h
        split at h
        next hprep =>
          have hc := completeMode_change (hleave hprep) h
          exact .immediate (b := ⟨mode, hm⟩) hpending hne hprep hc
        next f hprep =>
          split at h
          next =>
            cases h
            have hv : Modes.view { s with sOptions := flags, sNew := s.sMode, sFlaky := true }
                = ⟨s.view.mode, true, none⟩ := by simp [Modes.view, hnone]
            rw [hv]
            exact .unprepared (b := ⟨mode, hm⟩) hpending hne hprep
          next n =>
            cases h
            exact .deferred (b := ⟨mode, hm⟩) hpending hne hprep
    next hm =>
      cases h
      exact .unknown (by omega)

theorem runMode_follows {s s' : Modes t} {n : NoticeId} {r : Int} {events : List ModeEvent}
    (hapt : ModesApt s (.complete n r)) (h : s.runMode n r = some (s', events)) :
    ModeProtocol s.view (.complete n r) (events.filterMap ModeEvent.callback) s'.view := by
  obtain ⟨-, h⟩ := Option.ite_none_right_eq_some.mp h
  obtain ⟨hn, hl⟩ := hapt
  have hc := completeMode_change hl (n := some n) rfl
  cases Option.some.inj h
  have hpending : s.view.pending = some (n, s.sNew) := by simp [Modes.view, hn]
  exact .completed hpending hc

theorem act_follows {s s' : Modes t} {a : ModeAction} {events : List ModeEvent} (hapt : ModesApt s a)
    (h : s.act a = some (s', events)) :
    ModeProtocol s.view a (events.filterMap ModeEvent.callback) s'.view := by
  cases a with
  | request mode flags p r => exact enterMode_follows hapt (Prod.ext rfl (Option.some.inj h))
  | complete n r => exact runMode_follows hapt h

/-- Every run is a run of the protocol. -/
theorem mode_runs_follow {s : Modes t} {log : List (ModeAction × List ModeCallback)}
    (h : (modeMachine t).Runs ModesApt s log) : ModeRuns (startupModes t).view log s.view := by
  refine h.invariant (fun s log => ModeRuns (startupModes t).view log s.view) rfl ?_
  intro s log a s' hinv hapt hs
  obtain ⟨⟨s1, events⟩, ha, rfl⟩ := Option.map_eq_some_iff.mp hs
  have hemits : (modeMachine t).emits s a = [(a, events.filterMap ModeEvent.callback)] := by
    simp [modeMachine, ha]
  rw [hemits]
  exact hinv.snoc (act_follows hapt ha)

/-- Two modes, the second of which is prepared for. -/
def preparedModes : ModeTable :=
  ⟨[⟨some (textOf "raw"), none, some 20, none, 1⟩, ⟨some (textOf "run"), some 31, some 21, none, 1⟩], true,
    by decide⟩

/-- A deferred change fails, and is asked for again. -/
theorem mode_runs_follow_deferred : ∃ s : Modes preparedModes, ModeRuns (startupModes preparedModes).view
    [(.request 1 none (some 5) 0, [.prepare 31]), (.complete 5 (-1), [.enter 21]),
      (.request 1 none (some 6) 0, [.prepare 31]), (.complete 6 0, [.enter 21])] s.view ∧
    s.view = ⟨⟨1, by decide⟩, false, none⟩ := by
  have hrun := Machine.Runs.exec (.start : (modeMachine preparedModes).Runs ModesApt (startupModes preparedModes) [])
    [.request 1 none (some 5) 0, .complete 5 (-1), .request 1 none (some 6) 0, .complete 6 0] rfl
    ⟨?_, fun s1 h1 => ⟨?_, fun s2 h2 => ⟨?_, fun s3 h3 => ⟨?_, fun s4 h4 => trivial⟩⟩⟩⟩
  · exact ⟨_, mode_runs_follow hrun, rfl⟩
  · exact fun _ h => ⟨nofun, nofun⟩
  · obtain rfl := Option.some.inj h1
    exact ⟨rfl, fun _ => rfl⟩
  · obtain rfl := Option.some.inj h1
    obtain rfl := Option.some.inj h2
    exact fun _ h => ⟨nofun, nofun⟩
  · obtain rfl := Option.some.inj h1
    obtain rfl := Option.some.inj h2
    obtain rfl := Option.some.inj h3
    exact ⟨rfl, fun _ => rfl⟩

/-- Two modes with leave functions of their own. -/
def leftModes : ModeTable :=
  ⟨[⟨some (textOf "raw"), none, some 20, some 10, 1⟩, ⟨some (textOf "run"), none, some 21, some 11, 1⟩], true,
    by decide⟩

/-- A change to the second mode calls the leave function of the second mode. -/
theorem new_mode_is_left : ∃ s, (modeMachine leftModes).Runs (fun _ _ => True) s
      [(.request 1 none none 0, [.leave 11, .enter 21])] ∧
    ¬ ModeRuns (startupModes leftModes).view [(.request 1 none none 0, [.leave 11, .enter 21])] s.view := by
  refine ⟨_, Machine.Runs.exec (.start (m := modeMachine leftModes)) [.request 1 none none 0] rfl
    (Machine.meets_true _ _ _), ?_⟩
  rintro ⟨u, hp, -⟩
  have hcalls := hp.request_calls (b := ⟨1, by decide⟩) rfl (by decide) rfl (.inr rfl)
  revert hcalls
  decide

end

end Katcp
