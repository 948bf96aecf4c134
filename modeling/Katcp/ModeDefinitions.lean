import Katcp.ModeProtocol
import Katcp.SensorValues
import Mathlib.Data.Fin.SuccPred

namespace Katcp

section

/-- What a module keeps for one of its modes, told from others by its address. -/
abbrev ModeStateId := Nat

/-- `katcp_entry` -/
structure StoredMode extends ModeEntry where
  eState : Option ModeStateId
  eClear : Option FunctionId

def emptyMode : StoredMode := ⟨⟨none, none, none, none, 0⟩, none, none⟩

/-- What the calls of `store_sensor_mode_katcp` give back, should they be made: memory for the table and
for the name, the command, the mode sensor and its names. -/
structure StoreOutcome where
  expanded : Bool
  copied : Bool
  registered : Bool
  sensor : Bool
  found : Bool
  extended : Bool

/-- The end of `store_sensor_mode_katcp` for a mode with a name, and whether there is a mode sensor
after it. -/
def StoreOutcome.sense (o : StoreOutcome) (sensor : Bool) (mode : Nat) (result : Int) : Int × Bool :=
  if sensor then (if o.extended then result else -1, true)
  else
    let result := if o.registered then result else -1
    if !o.sensor then (if 0 < mode then -1 else result, false)
    else if !o.found then (-1, false)
    else (if 0 < mode && !o.extended then -1 else result, true)

/-- The modes of a server as they are stored. -/
structure StoredModes where
  sVector : List StoredMode
  sModeSensor : Bool
  nonempty : 0 < sVector.length

namespace StoredModes

def table (v : StoredModes) : ModeTable :=
  ⟨v.sVector.map (·.toModeEntry), v.sModeSensor, by simpa using v.nonempty⟩

/-- `expand_modes_katcp` -/
def expandModes (v : StoredModes) (mode : Nat) : StoredModes where
  sVector := v.sVector ++ List.replicate (mode + 1 - v.sVector.length) emptyMode
  sModeSensor := v.sModeSensor
  nonempty := by
    have := v.nonempty
    rw [List.length_append]
    omega

def setEntry (v : StoredModes) (mode : Nat) (e : StoredMode) (sensor : Bool) : StoredModes where
  sVector := v.sVector.set mode e
  sModeSensor := sensor
  nonempty := by simpa using v.nonempty

/-- `store_sensor_mode_katcp`, with the function that it clears an old entry with. -/
def storeSensorMode (v : StoredModes) (mode : Nat) (e : StoredMode) (o : StoreOutcome) :
    Int × StoredModes × Option FunctionId :=
  if v.sVector.length ≤ mode && !o.expanded then (-1, v, none)
  else if e.eName.isSome && !o.copied then (-1, v.expandModes mode, none)
  else
    let old := (v.sVector[mode]?).getD emptyMode
    let result := if old.eClear.isSome || old.eName.isSome then 1 else 0
    if e.eName.isSome then
      let (code, sensor) := o.sense v.sModeSensor mode result
      (code, (v.expandModes mode).setEntry mode e sensor, old.eClear)
    else (result, (v.expandModes mode).setEntry mode e v.sModeSensor, old.eClear)

end StoredModes

def prepareDynamicMode : FunctionId := 0

def enterDynamicMode : FunctionId := 1

def clearDynamicMode : FunctionId := 2

def SensorStatus.number : SensorStatus → Nat
  | .unknown => 0
  | .nominal => 1
  | .warn => 2
  | .error => 3
  | .failure => 4
  | .unreachable => 5
  | .inactive => 6

/-- The status that `define_cmd_katcp` gives a mode. The code of a name that is no status is stored in an
unsigned variable, which is not found to be negative. -/
def definedStatus (status : Option Text) : Nat :=
  match status with
  | none => SensorStatus.unknown.number
  | some name =>
    match statusCode name with
    | some status => status.number
    | none => 2 ^ 32 - 1

/-- The entry that `define_cmd_katcp` stores, where it can make one. -/
def definedMode (label : Text) (script status : Option Text) (dm : Option ModeStateId) : Option StoredMode :=
  if script.isSome then dm.map fun dm =>
    ⟨⟨some label, some prepareDynamicMode, some enterDynamicMode, none, definedStatus status⟩, some dm,
      some clearDynamicMode⟩
  else some ⟨⟨some label, none, none, none, definedStatus status⟩, none, none⟩

/-- `define_cmd_katcp` of a mode, with what `create_dynamic_mode_katcp` gives it for a script, and whether
it succeeds. -/
def StoredModes.define (v : StoredModes) (label script status : Option Text) (dm : Option ModeStateId)
    (o : StoreOutcome) : Bool × StoredModes :=
  match label with
  | none => (false, v)
  | some label =>
    if v.sVector.any fun e => e.eName = some label then (false, v)
    else
      match definedMode label script status dm with
      | none => (false, v)
      | some e =>
        let r := v.storeSensorMode v.sVector.length e o
        (decide (0 ≤ r.1), r.2.1)

/-- What the calls of `enter_mode_katcp` give back, should they be made: memory for the flags, the notice
of the prepare function, whether `complete_mode_katcp` could be added to it, and the result of the enter
function. -/
structure EnterOutcome where
  copied : Bool
  prepared : Option NoticeId
  registered : Bool
  result : Int

variable {t : ModeTable}

/-- `enter_mode_katcp`; `add_notice_katcp` needs no memory where the call is there already. -/
def Modes.tryEnterMode (s : Modes t) (mode : Nat) (flags : Option Text) (o : EnterOutcome) :
    Int × Modes t × List ModeEvent :=
  if s.sTransition.isSome then (-1, s, [])
  else if h : mode < t.sVector.length then
    if (⟨mode, h⟩ : t.Index) = s.sMode then (0, s, [])
    else if flags.isSome && !o.copied then (-1, s, [])
    else
      let s1 := { s with sOptions := flags, sNew := ⟨mode, h⟩ }
      match (t.entry ⟨mode, h⟩).ePrep with
      | none => s1.completeMode none o.result
      | some f =>
        let called := [.prepare f flags s.sMode mode]
        match o.prepared with
        | none => (-1, { s1 with sNew := s.sMode, sFlaky := true }, called)
        | some n =>
          if n ∈ s.waiting || o.registered then
            (1, { s1 with sTransition := some n, waiting := s.waiting.insert n }, called)
          else (-1, { s1 with sTransition := some n, sFlaky := true }, called)
  else (-1, s, [])

/-- The modes of a server, and the change under way. -/
structure ModeServer where
  stored : StoredModes
  modes : Modes stored.table

def startupModeServer : ModeServer :=
  ⟨⟨[emptyMode], false, by decide⟩, startupModes _⟩

/-- The change under way when more modes have been stored. -/
def Modes.carry (s : Modes t) {u : ModeTable} (h : t.sVector.length ≤ u.sVector.length) : Modes u :=
  ⟨s.sMode.castLE h, s.sNew.castLE h, s.sFlaky, s.sOptions, s.sTransition, s.waiting⟩

theorem table_length (v : StoredModes) : v.table.sVector.length = v.sVector.length := List.length_map ..

def ModeServer.withStored (s : ModeServer) (v : StoredModes) (h : s.stored.sVector.length ≤ v.sVector.length) :
    ModeServer :=
  ⟨v, s.modes.carry (by rw [table_length, table_length]; exact h)⟩

theorem expandModes_sVector (v : StoredModes) (mode : Nat) :
    (v.expandModes mode).sVector = v.sVector ++ List.replicate (mode + 1 - v.sVector.length) emptyMode := rfl

theorem setEntry_sVector (v : StoredModes) (mode : Nat) (e : StoredMode) (sensor : Bool) :
    (v.setEntry mode e sensor).sVector = v.sVector.set mode e := rfl

theorem expandModes_length (v : StoredModes) (mode : Nat) :
    (v.expandModes mode).sVector.length = max v.sVector.length (mode + 1) := by
  rw [expandModes_sVector, List.length_append, List.length_replicate]
  omega

theorem setEntry_length (v : StoredModes) (mode : Nat) (e : StoredMode) (sensor : Bool) :
    (v.setEntry mode e sensor).sVector.length = v.sVector.length := List.length_set ..

theorem storeSensorMode_length (v : StoredModes) (mode : Nat) (e : StoredMode) (o : StoreOutcome) :
    v.sVector.length ≤ (v.storeSensorMode mode e o).2.1.sVector.length := by
  have hlen := expandModes_length v mode
  unfold StoredModes.storeSensorMode
  split
  · exact Nat.le_refl _
  split
  · dsimp only
    omega
  dsimp only
  split
  · dsimp only
    rw [setEntry_length]
    omega
  · dsimp only
    rw [setEntry_length]
    omega

theorem define_length (v : StoredModes) (label script status : Option Text) (dm : Option ModeStateId)
    (o : StoreOutcome) : v.sVector.length ≤ (v.define label script status dm o).2.sVector.length := by
  unfold StoredModes.define
  split
  · exact Nat.le_refl _
  split
  · exact Nat.le_refl _
  split
  · exact Nat.le_refl _
  · exact storeSensorMode_length ..

inductive ModeCommand where
  | enter (mode : Nat) (flags : Option Text) (o : EnterOutcome)
  | enterName (name : Text) (flags : Option Text) (o : EnterOutcome)
  | complete (n : NoticeId) (result : Int)
  | store (mode : Nat) (e : StoredMode) (o : StoreOutcome)
  | define (label script status : Option Text) (dm : Option ModeStateId) (o : StoreOutcome)

namespace ModeServer

/-- The index that `enter_name_mode_katcp` finds for a name. -/
def modeIndex (s : ModeServer) (name : Text) : Option Nat := s.stored.sVector.findIdx? fun e => e.eName = some name

def enter (s : ModeServer) (mode : Nat) (flags : Option Text) (o : EnterOutcome) : ModeServer :=
  ⟨s.stored, (s.modes.tryEnterMode mode flags o).2.1⟩

def act (s : ModeServer) : ModeCommand → Option ModeServer
  | .enter mode flags o => some (s.enter mode flags o)
  | .enterName name flags o =>
    match s.modeIndex name with
    | some mode => some (s.enter mode flags o)
    | none => some s
  | .complete n result => (s.modes.runMode n result).map fun r => ⟨s.stored, r.1⟩
  | .store mode e o => some (s.withStored _ (storeSensorMode_length s.stored mode e o))
  | .define label script status dm o => some (s.withStored _ (define_length s.stored label script status dm o))

/-- A definition that fails. -/
def Failed (s : ModeServer) : ModeCommand → Prop
  | .store mode e o => (s.stored.storeSensorMode mode e o).1 < 0
  | .define label script status dm o => (s.stored.define label script status dm o).1 = false
  | _ => False

end ModeServer

def modeServerMachine : Machine ModeServer ModeCommand Unit where
  start := startupModeServer
  step s a := s.act a
  emits _ _ := []

end

section

variable {t : ModeTable} {s : Modes t} {v : StoredModes}

/-- A request for a mode that there is succeeds where nothing that it calls fails. -/
def Modes.Accepts (s : Modes t) : Prop :=
  ∀ mode < t.sVector.length, ∀ flags n, 0 ≤ (s.tryEnterMode mode flags ⟨true, some n, true, 0⟩).1

/-- Either a change is under way, and the notice that it waits for completes it, or there is none and
modes can be asked for. -/
def Modes.Balanced (s : Modes t) : Prop :=
  (∃ n, s.sTransition = some n ∧ n ∈ s.waiting) ∨ s.sNew = s.sMode ∧ s.Accepts

/-- If the request comes to the notice of a prepare function, `complete_mode_katcp` can be added to it. -/
def Modes.EnterSafe (s : Modes t) (mode : Nat) (flags : Option Text) (o : EnterOutcome) : Prop :=
  s.sTransition = none → ∀ h : mode < t.sVector.length, (⟨mode, h⟩ : t.Index) ≠ s.sMode →
    (flags.isSome → o.copied) → (t.entry ⟨mode, h⟩).ePrep.isSome → ∀ n, o.prepared = some n →
    n ∉ s.waiting → o.registered

/-- Whether the steps about the mode sensor succeed. -/
def StoreOutcome.sensed (o : StoreOutcome) (sensor : Bool) (mode : Nat) : Bool :=
  if sensor then o.extended
  else o.registered && if o.sensor then o.found && (mode = 0 || o.extended) else mode = 0

/-- The definition does not fail once there is room in the table, unless it changes nothing there. -/
def StoredModes.StoreSafe (v : StoredModes) (mode : Nat) (e : StoredMode) (o : StoreOutcome) : Prop :=
  (mode < v.sVector.length ∨ o.expanded) → e.eName.isSome →
    (o.copied = false → mode < v.sVector.length) ∧
    (o.copied → o.sensed v.sModeSensor mode = false → v.sVector[mode]? = some e)

def StoredModes.DefineSafe (v : StoredModes) (label script : Option Text) (dm : Option ModeStateId)
    (o : StoreOutcome) : Prop :=
  ∀ l, label = some l → (∀ e ∈ v.sVector, e.eName ≠ some l) → (script.isSome → dm.isSome) → o.expanded →
    o.copied ∧ o.sensed v.sModeSensor v.sVector.length

def ModeServer.Safe (s : ModeServer) : ModeCommand → Prop
  | .enter mode flags o => s.modes.EnterSafe mode flags o
  | .enterName name flags o => ∀ mode, s.modeIndex name = some mode → s.modes.EnterSafe mode flags o
  | .complete _ _ => True
  | .store mode e o => s.stored.StoreSafe mode e o
  | .define label script _ dm o => s.stored.DefineSafe label script dm o

/-- Nothing that a request calls fails for want of memory. -/
theorem tryEnterMode_eq (s : Modes t) (mode : Nat) (flags : Option Text) (p : Option NoticeId) (r : Int) :
    s.tryEnterMode mode flags ⟨true, p, true, r⟩ = s.enterMode mode flags p r := by
  unfold Modes.tryEnterMode Modes.enterMode
  split
  · rfl
  · split
    next hm =>
      split
      · rfl
      · rw [if_neg (by simp)]
        cases (t.entry ⟨mode, hm⟩).ePrep with
        | none => rfl
        | some f =>
          cases p with
          | none => rfl
          | some n => exact if_pos (by simp)
    next => rfl

theorem completeMode_done (s : Modes t) (n : Option NoticeId) (r : Int) :
    (s.completeMode n r).2.1.sTransition = none ∧
      (s.completeMode n r).2.1.sNew = (s.completeMode n r).2.1.sMode := by
  unfold Modes.completeMode
  dsimp only
  split
  · split <;> exact ⟨rfl, rfl⟩
  · exact ⟨rfl, rfl⟩

theorem completeMode_zero (s : Modes t) (n : Option NoticeId) : (s.completeMode n 0).1 = 0 := by
  unfold Modes.completeMode
  dsimp only
  split <;> rfl

theorem accepts_iff : s.Accepts ↔ s.sTransition = none := by
  constructor
  · intro h
    have hzero := h 0 t.nonempty none 0
    by_contra hne
    rw [Modes.tryEnterMode, if_pos (Option.isSome_iff_ne_none.mpr hne)] at hzero
    omega
  · intro h mode hm flags n
    unfold Modes.tryEnterMode
    rw [h, if_neg (by simp), dif_pos hm]
    split
    · exact Int.le_refl 0
    rw [if_neg (by simp)]
    dsimp only
    split
    · rw [completeMode_zero]
    · rw [if_pos (by simp)]
      exact Int.one_nonneg

theorem balanced_iff : s.Balanced ↔
    (∃ n, s.sTransition = some n ∧ n ∈ s.waiting) ∨ s.sNew = s.sMode ∧ s.sTransition = none := by
  rw [Modes.Balanced, accepts_iff]

theorem balanced_done (hnew : s.sNew = s.sMode) (hnone : s.sTransition = none) : s.Balanced :=
  balanced_iff.mpr (Or.inr ⟨hnew, hnone⟩)

theorem tryEnterMode_balanced_iff (h : s.Balanced) (mode : Nat) (flags : Option Text) (o : EnterOutcome) :
    (s.tryEnterMode mode flags o).2.1.Balanced ↔ s.EnterSafe mode flags o := by
  unfold Modes.tryEnterMode
  split
  next hbusy =>
    refine iff_of_true h (fun hnone => ?_)
    rw [hnone] at hbusy
    cases hbusy
  next hfree =>
    have hnone : s.sTransition = none := by simpa using hfree
    split
    next hm =>
      split
      next hcur => exact iff_of_true h (fun _ _ hne => absurd hcur hne)
      next hother =>
        split
        next hcopy =>
          refine iff_of_true h (fun _ _ _ hsafe => ?_)
          simp only [Bool.and_eq_true, Bool.not_eq_true'] at hcopy
          rw [hsafe hcopy.1] at hcopy
          cases hcopy.2
        next hcopy =>
          have hcopied : flags.isSome → o.copied := by
            intro hf
            simpa [hf] using hcopy
          dsimp only
          split
          next hprep =>
            obtain ⟨hdone, hnew⟩ := completeMode_done { s with sOptions := flags, sNew := ⟨mode, hm⟩ } none o.result
            refine iff_of_true (balanced_done hnew hdone) (fun _ _ _ _ hp => ?_)
            rw [hprep] at hp
            cases hp
          next f hprep =>
            split
            next hp =>
              refine iff_of_true (balanced_done rfl hnone) (fun _ _ _ _ _ n hn => ?_)
              rw [hp] at hn
              cases hn
            next n hp =>
              split
              next hadded =>
                refine iff_of_true (balanced_iff.mpr (Or.inl ⟨n, rfl, List.mem_insert_self ..⟩)) ?_
                intro _ _ _ _ _ k hk hnot
                rw [hp] at hk
                cases hk
                simpa [hnot] using hadded
              next hlost =>
                simp only [Bool.or_eq_true, decide_eq_true_eq, not_or] at hlost
                refine iff_of_false ?_ ?_
                · intro hb
                  rcases balanced_iff.mp hb with ⟨k, hk, hw⟩ | ⟨_, hk⟩
                  · cases hk
                    exact hlost.1 hw
                  · cases hk
                · intro hsafe
                  exact hlost.2 (hsafe hnone hm hother hcopied (by rw [hprep]; rfl) n hp hlost.1)
    next hm => exact iff_of_true h (fun _ hlt => absurd hlt hm)

theorem runMode_balanced {s' : Modes t} {n : NoticeId} {r : Int} {events : List ModeEvent}
    (h : s.runMode n r = some (s', events)) : s'.Balanced := by
  obtain ⟨_, h⟩ := Option.ite_none_right_eq_some.mp h
  cases Option.some.inj h
  obtain ⟨hdone, hnew⟩ := completeMode_done s (some n) r
  exact balanced_done hnew hdone

theorem carry_balanced_iff {u : ModeTable} (h : t.sVector.length ≤ u.sVector.length) :
    (s.carry h).Balanced ↔ s.Balanced := by
  have hsame : (s.carry h).sNew = (s.carry h).sMode ↔ s.sNew = s.sMode := @Fin.castLE_inj _ _ h _ _
  rw [balanced_iff, balanced_iff, hsame]
  rfl

theorem sense_negative_iff (o : StoreOutcome) (sensor : Bool) (mode : Nat) {result : Int} (hr : 0 ≤ result) :
    (o.sense sensor mode result).1 < 0 ↔ o.sensed sensor mode = false := by
  have hcode : ∀ b : Bool, (if b then result else -1) < 0 ↔ b = false := by
    intro b
    cases b with
    | true => simpa using hr
    | false => simp
  unfold StoreOutcome.sense StoreOutcome.sensed
  cases sensor with
  | true => exact hcode o.extended
  | false =>
    have hregistered := hcode o.registered
    cases o.sensor with
    | false =>
      rcases Nat.eq_zero_or_pos mode with rfl | hm
      · simpa using hregistered
      · simp [hm, Nat.ne_of_gt hm]
    | true =>
      cases o.found with
      | false => simp
      | true =>
        rcases Nat.eq_zero_or_pos mode with rfl | hm
        · simpa using hregistered
        · cases o.extended with
          | true => simpa [hm, Nat.ne_of_gt hm] using hregistered
          | false => simp [hm, Nat.ne_of_gt hm]

theorem expandModes_of_lt {mode : Nat} (h : mode < v.sVector.length) :
    (v.expandModes mode).sVector = v.sVector := by
  rw [expandModes_sVector, Nat.sub_eq_zero_of_le h, List.replicate_zero, List.append_nil]

theorem expandModes_ne {mode : Nat} (h : v.sVector.length ≤ mode) {w : List StoredMode}
    (hw : w.length = (v.expandModes mode).sVector.length) : w ≠ v.sVector := by
  rintro rfl
  rw [expandModes_length] at hw
  omega

theorem setEntry_eq_iff {mode : Nat} {e : StoredMode} {sensor : Bool} :
    ((v.expandModes mode).setEntry mode e sensor).sVector = v.sVector ↔ v.sVector[mode]? = some e := by
  rcases Nat.lt_or_ge mode v.sVector.length with h | h
  · rw [setEntry_sVector, expandModes_of_lt h, List.getElem?_eq_getElem h, Option.some_inj]
    constructor
    · intro hsame
      have hget := List.getElem?_set_self (l := v.sVector) (a := e) h
      rw [hsame, List.getElem?_eq_getElem h] at hget
      exact Option.some.inj hget
    · intro hsame
      rw [← hsame, List.set_getElem_self]
  · rw [List.getElem?_eq_none h]
    exact iff_of_false (expandModes_ne h (setEntry_length ..)) (by simp)

theorem storeSensorMode_kept_iff (v : StoredModes) (mode : Nat) (e : StoredMode) (o : StoreOutcome) :
    ((v.storeSensorMode mode e o).1 < 0 → (v.storeSensorMode mode e o).2.1.sVector = v.sVector) ↔
      v.StoreSafe mode e o := by
  unfold StoredModes.storeSensorMode
  split
  next hfull =>
    simp only [Bool.and_eq_true, decide_eq_true_eq, Bool.not_eq_true'] at hfull
    refine iff_of_true (fun _ => rfl) ?_
    rintro (hlt | hroom)
    · omega
    · rw [hfull.2] at hroom
      cases hroom
  next hroom =>
    have hroom' : mode < v.sVector.length ∨ o.expanded := by
      cases hx : o.expanded with
      | true => exact Or.inr rfl
      | false =>
        left
        simpa [hx] using hroom
    have hsafe : v.StoreSafe mode e o ↔ (e.eName.isSome → (o.copied = false → mode < v.sVector.length) ∧
        (o.copied → o.sensed v.sModeSensor mode = false → v.sVector[mode]? = some e)) :=
      ⟨fun h => h hroom', fun h _ => h⟩
    rw [hsafe]
    split
    next hcopy =>
      simp only [Bool.and_eq_true, Bool.not_eq_true'] at hcopy
      simp only [hcopy.1, hcopy.2, Bool.false_eq_true, false_implies, and_true, true_implies]
      constructor
      · intro h
        by_contra hge
        exact expandModes_ne (Nat.le_of_not_lt hge) rfl (h (by omega))
      · exact fun hlt _ => expandModes_of_lt hlt
    next hcopy =>
      have hres : (0 : Int) ≤ if ((v.sVector[mode]?).getD emptyMode).eClear.isSome ||
          ((v.sVector[mode]?).getD emptyMode).eName.isSome then 1 else 0 := by
        split <;> omega
      dsimp only
      split
      next hname =>
        have hcopied : o.copied = true := by simpa [hname] using hcopy
        rw [sense_negative_iff o _ mode hres, setEntry_eq_iff]
        simp [hname, hcopied]
      next hname => exact iff_of_true (fun hneg => absurd hneg (by omega)) (fun h => absurd h hname)

theorem definedMode_name {label : Text} {script status : Option Text} {dm : Option ModeStateId} {e : StoredMode}
    (h : definedMode label script status dm = some e) : e.eName = some label := by
  unfold definedMode at h
  split at h
  · obtain ⟨_, _, rfl⟩ := Option.map_eq_some_iff.mp h
    rfl
  · cases Option.some.inj h
    rfl

theorem definedMode_some_iff {label : Text} {script status : Option Text} {dm : Option ModeStateId} :
    (definedMode label script status dm).isSome ↔ (script.isSome → dm.isSome) := by
  unfold definedMode
  split
  next hs => simp [hs]
  next hs => simp [hs]

theorem define_kept_iff (v : StoredModes) (label script status : Option Text) (dm : Option ModeStateId)
    (o : StoreOutcome) :
    ((v.define label script status dm o).1 = false → (v.define label script status dm o).2.sVector = v.sVector) ↔
      v.DefineSafe label script dm o := by
  unfold StoredModes.define
  split
  next => exact iff_of_true (fun _ => rfl) nofun
  next label =>
    split
    next hknown =>
      refine iff_of_true (fun _ => rfl) ?_
      intro l hl hnew
      cases hl
      obtain ⟨e, he, hname⟩ := List.any_eq_true.mp hknown
      exact absurd (by simpa using hname) (hnew e he)
    next hnew =>
      have hfresh : ∀ e ∈ v.sVector, e.eName ≠ some label := by
        intro e he hname
        exact hnew (List.any_eq_true.mpr ⟨e, he, by simpa using hname⟩)
      have hmade := @definedMode_some_iff label script status dm
      split
      next hnone =>
        refine iff_of_true (fun _ => rfl) ?_
        intro l hl _ hscript
        cases hl
        rw [hnone] at hmade
        cases hmade.mpr hscript
      next e he =>
        have hname := definedMode_name he
        rw [he] at hmade
        have hkept := storeSensorMode_kept_iff v v.sVector.length e o
        have hneg : ∀ code : Int, decide (0 ≤ code) = false ↔ code < 0 := by
          intro code
          simp
        dsimp only
        rw [hneg, hkept]
        have hget : v.sVector[v.sVector.length]? ≠ some e := by simp
        constructor
        · intro h l hl _ _ hroom
          obtain ⟨hcopy, hsense⟩ := h (Or.inr hroom) (by rw [hname]; rfl)
          have hcopied : o.copied = true := by
            by_contra hno
            exact Nat.lt_irrefl _ (hcopy (by simpa using hno))
          refine ⟨hcopied, ?_⟩
          by_contra hno
          exact hget (hsense hcopied (by simpa using hno))
        · intro h hroom _
          have hroom' : o.expanded = true := hroom.resolve_left (Nat.lt_irrefl _)
          obtain ⟨hcopied, hsensed⟩ := h label rfl hfresh (hmade.mp rfl) hroom'
          refine ⟨fun hno => ?_, fun _ hno => ?_⟩
          · rw [hcopied] at hno
            cases hno
          · rw [hsensed] at hno
            cases hno

/-- A command leaves the modes balanced, and the table as it was if it is a definition that fails. -/
def ModeServer.Sound (s : ModeServer) (a : ModeCommand) (s' : ModeServer) : Prop :=
  s'.modes.Balanced ∧ (s.Failed a → s'.stored.sVector = s.stored.sVector)

theorem sound_iff {s s' : ModeServer} {a : ModeCommand} (h : s.modes.Balanced) (hs : s.act a = some s') :
    s.Sound a s' ↔ s.Safe a := by
  cases a with
  | enter mode flags o =>
    cases hs
    rw [ModeServer.Sound, and_iff_left nofun]
    exact tryEnterMode_balanced_iff h mode flags o
  | enterName name flags o =>
    rw [ModeServer.Sound, and_iff_left nofun]
    unfold ModeServer.act at hs
    dsimp only at hs
    unfold ModeServer.Safe
    dsimp only
    split at hs
    next mode hmode =>
      cases hs
      rw [hmode]
      have hiff := tryEnterMode_balanced_iff h mode flags o
      exact hiff.trans ⟨fun hsafe m hm => Option.some.inj hm ▸ hsafe, fun hall => hall mode rfl⟩
    next hnone =>
      cases hs
      rw [hnone]
      exact iff_of_true h nofun
  | complete n result =>
    obtain ⟨⟨m, events⟩, hm, rfl⟩ := Option.map_eq_some_iff.mp hs
    exact iff_of_true ⟨runMode_balanced hm, nofun⟩ trivial
  | store mode e o =>
    cases hs
    have hb : (s.withStored _ (storeSensorMode_length s.stored mode e o)).modes.Balanced :=
      (carry_balanced_iff _).mpr h
    rw [ModeServer.Sound, and_iff_right hb]
    exact storeSensorMode_kept_iff s.stored mode e o
  | define label script status dm o =>
    cases hs
    have hb : (s.withStored _ (define_length s.stored label script status dm o)).modes.Balanced :=
      (carry_balanced_iff _).mpr h
    rw [ModeServer.Sound, and_iff_right hb]
    exact define_kept_iff s.stored label script status dm o

/-- As long as no command fails half done, the modes are balanced; then a command is done properly if
and only if it does not fail so. -/
theorem modes_balanced {s : ModeServer} {log : List Unit} (h : modeServerMachine.Runs ModeServer.Safe s log) :
    s.modes.Balanced ∧ ∀ a s', modeServerMachine.step s a = some s' → (s.Sound a s' ↔ s.Safe a) := by
  have hbalanced : s.modes.Balanced := by
    refine h.invariant (fun s _ => s.modes.Balanced) (balanced_done rfl rfl) ?_
    intro s log a s' hb hsafe hs
    exact ((sound_iff hb hs).mpr hsafe).1
  exact ⟨hbalanced, fun a s' hs => sound_iff hbalanced hs⟩

def everythingWorks : StoreOutcome := ⟨true, true, true, true, true, true⟩

def preparedMode : StoredMode := ⟨⟨some (textOf "run"), some 31, some 21, none, 1⟩, none, none⟩

/-- A server with a second mode, which is prepared for. -/
def preparedServer : ModeServer :=
  (startupModeServer.act (.store 1 preparedMode everythingWorks)).getD startupModeServer

theorem everythingWorks_safe (v : StoredModes) (mode : Nat) (e : StoredMode) (h : v.sModeSensor = false) :
    v.StoreSafe mode e everythingWorks := by
  refine fun _ _ => ⟨nofun, fun _ hsense => ?_⟩
  rw [h] at hsense
  simp [StoreOutcome.sensed, everythingWorks] at hsense

theorem preparedServer_runs : modeServerMachine.Runs ModeServer.Safe preparedServer [] :=
  Machine.Runs.exec .start [.store 1 preparedMode everythingWorks] rfl
    ⟨everythingWorks_safe _ 1 preparedMode rfl, fun _ _ => trivial⟩

/-- The change to the second mode is prepared for, but fails. -/
theorem modes_balanced_failed : ∃ s s' : ModeServer, s.modes.sTransition = some 5 ∧
    modeServerMachine.step s (.complete 5 (-1)) = some s' ∧ s.modes.Balanced ∧ s.Sound (.complete 5 (-1)) s' := by
  have hrun := preparedServer_runs.exec [.enter 1 none ⟨true, some 5, true, 0⟩] rfl
    ⟨fun _ _ _ _ _ _ _ _ => rfl, fun _ _ => trivial⟩
  obtain ⟨hbalanced, hsound⟩ := modes_balanced hrun
  exact ⟨_, _, rfl, rfl, hbalanced, (hsound _ _ rfl).mpr trivial⟩

/-- When there is no memory to add `complete_mode_katcp` to the notice, the change stays under way for
ever, and every later request is refused. -/
theorem change_never_completes : ¬ ∀ (s s' : ModeServer) (log : List Unit) (a : ModeCommand),
    modeServerMachine.Runs (fun _ _ => True) s log → modeServerMachine.step s a = some s' → s.Sound a s' := by
  intro hall
  have hrun := Machine.Runs.exec (.start (m := modeServerMachine)) [.store 1 preparedMode everythingWorks] rfl
    (Machine.meets_true _ _ _)
  have hsound := hall _ _ _ (.enter 1 none ⟨true, some 5, false, 0⟩) hrun rfl
  rcases balanced_iff.mp hsound.1 with ⟨n, _, hw⟩ | ⟨_, hnone⟩
  · cases hw
  · cases hnone

end

end Katcp
