import Katcp.SensorRelayed

namespace Katcp

section

variable {r : RelayClients} {s s' s0 s1 : VrblShared} {fx fy : FlatAt} {name ptr field : Text} {locator : Bool}
  {a b : SensorInform} {vx vx' : Vrbl} {rx : RegionId} {ref ref' : VrblRef} {result : InformResult}

theorem childField_eq (h : delimGroup ∉ name) : r.childField s fx name locator =
    if stripName name = [] then none
    else some (if locator then
      delimGroup :: (fieldName name (if r.prefixed fx then s.flatName fx else none) ++ [delimGroup])
      else fieldName name (if r.prefixed fx then s.flatName fx else none)) :=
  makeChildField_text h

theorem childField_plain (h : delimGroup ∉ name) (hf : r.childField s fx name false = some field) :
    PlainName field := by
  rw [childField_eq h] at hf
  split at hf
  next => cases hf
  next hstrip =>
    cases hf
    exact fieldName_plain hstrip

theorem childField_located (h : delimGroup ∉ name) (hf : r.childField s fx name true = some ptr) :
    ∃ field, r.childField s fx name false = some field ∧ ptr = (NameForm.currentGroup field).text := by
  rw [childField_eq h] at hf ⊢
  split at hf
  next => cases hf
  next hstrip =>
    cases hf
    refine ⟨_, ?_, rfl⟩
    rw [if_neg hstrip]
    rfl

theorem childField_congr (h : s'.sGroups = s.sGroups) :
    r.childField s' fx name locator = r.childField s fx name locator := by
  rw [RelayClients.childField, RelayClients.childField, VrblShared.flatName, VrblShared.flatName, h]

theorem builds_congr {c : RelayInform} (h : s'.sGroups = s.sGroups) :
    r.Builds s' fx c field ↔ r.Builds s fx c field := by
  simp only [RelayClients.Builds, childField_congr h]

theorem decodeName_search (h : PlainName field) :
    decodeName s fx field = some ([.flat fx, .group fx.fGroup, .root], field) := by
  have hdecode := @decodeName_text s fx [] (.search field) h id (.inl rfl)
  rwa [List.append_nil] at hdecode

theorem decodeName_currentGroup (h : PlainName field) :
    decodeName s fx (NameForm.currentGroup field).text = some ([.group fx.fGroup], field) := by
  have hdecode := @decodeName_text s fx [] (.currentGroup field) h id (.inl rfl)
  rwa [List.append_nil] at hdecode

/-- What an inform of a sensor list comes to. -/
theorem sensorList_spec (hstar : (RelayInform.list a).Starless) (h : r.sensorListGroupInfo s a = some (s', result)) :
    (s' = s ∧ result ≠ .ok) ∨ ∃ field m, r.Builds s a.fx (.list a) field ∧
      s.findRegion (.group a.fx.fGroup) field = none ∧ SensorTree m ∧
      s' = s.insertRegion (.group a.fx.fGroup) ⟨vrfSen, .tree m⟩ field ∧ result = .ok := by
  unfold RelayClients.sensorListGroupInfo at h
  split at h
  next =>
    cases h
    exact .inl ⟨rfl, fun h => by cases h⟩
  next =>
    split at h
    next name description type hname _ _ =>
      split at h
      next =>
        cases h
        exact .inl ⟨rfl, fun h => by cases h⟩
      next ptr hptr =>
        obtain ⟨field, hfield, rfl⟩ := childField_located (hstar name hname) hptr
        have hplain := childField_plain (hstar name hname) hfield
        split at h
        next =>
          cases h
          exact .inl ⟨rfl, fun h => by cases h⟩
        next =>
          obtain ⟨vx, hvx, h⟩ := Option.bind_eq_some_iff.mp h
          obtain ⟨flags, m, rfl, hm⟩ := declaredSensor_spec hvx
          obtain ⟨⟨s1, ref⟩, hupdate, heq⟩ := Option.map_eq_some_iff.mp h
          cases heq
          cases ref with
          | none => exact .inl ⟨updateVrbl_none hupdate, fun h => by cases h⟩
          | some ref =>
            obtain ⟨rx, vra, key, hdecode, hnew, hs', -⟩ := updateVrbl_some hupdate
            rw [decodeName_currentGroup hplain] at hdecode
            cases hdecode
            exact .inr ⟨field, m, ⟨name, hname, hfield⟩, hnew _ List.mem_cons_self, hm, hs', rfl⟩
    next =>
      cases h
      exact .inl ⟨rfl, fun h => by cases h⟩

/-- The regions in which the variable of a status is looked for. -/
def searchRegions (fx : FlatAt) : List RegionId := [.flat fx, .group fx.fGroup, .root]

theorem findVrbl_search (h : PlainName field) : findVrbl s fx field =
    ((searchRegions fx).find? fun rx => (s.findRegion rx field).isSome).map fun rx => ⟨rx, field⟩ := by
  rw [findVrbl, updateVrbl, decodeName_search h]
  dsimp only [searchRegions]
  cases [RegionId.flat fx, .group fx.fGroup, .root].find? fun rx => (s.findRegion rx field).isSome <;> rfl

theorem sensorStatus_eq {stamp status value : Text} (ht : a.Takes stamp status value)
    (hb : r.Builds s a.fx (.status a) field) :
    r.sensorStatusGroupInfo s a = RelayClients.statusOf s a field stamp status value := by
  obtain ⟨hremote, hstatus, hvalue, text, buffer, result, htext, hfixup, hresult, rfl⟩ := ht
  obtain ⟨name, hname, hfield⟩ := hb
  have hname : argString a.args 3 = some name := hname
  rw [RelayClients.sensorStatusGroupInfo, if_neg (by rw [hremote]; exact Bool.noConfusion), htext, hname, hstatus,
    hvalue]
  dsimp only
  rw [hfixup, Option.bind_some]
  dsimp only
  rw [if_neg (Int.not_lt.mpr hresult), hfield]

/-- What an inform of a sensor status comes to. -/
theorem sensorStatus_spec (hstar : (RelayInform.status a).Starless)
    (h : r.sensorStatusGroupInfo s a = some (s', result)) :
    s' = s ∨ ∃ field rx vx vx' stamp status value, r.Builds s a.fx (.status a) field ∧
      (searchRegions a.fx).find? (fun rx => (s.findRegion rx field).isSome) = some rx ∧
      s.findRegion rx field = some vx ∧ updateSensor vx stamp status value = some vx' ∧
      s' = s.setVrbl ⟨rx, field⟩ vx' := by
  unfold RelayClients.sensorStatusGroupInfo at h
  split at h
  next =>
    cases h
    exact .inl rfl
  next =>
    split at h
    next stamp name status value _ hname _ _ =>
      obtain ⟨⟨buffer, code⟩, -, h⟩ := Option.bind_eq_some_iff.mp h
      dsimp only at h
      split at h
      next =>
        cases h
        exact .inl rfl
      next =>
        split at h
        next =>
          cases h
          exact .inl rfl
        next field hfield =>
          have hplain := childField_plain (hstar name hname) hfield
          rw [RelayClients.statusOf, findVrbl_search hplain] at h
          split at h
          next =>
            cases h
            exact .inl rfl
          next ref href =>
            obtain ⟨rx, hrx, rfl⟩ := Option.map_eq_some_iff.mp href
            obtain ⟨vx, hvx, h⟩ := Option.bind_eq_some_iff.mp h
            split at h
            next =>
              obtain ⟨vx', hvx', heq⟩ := Option.map_eq_some_iff.mp h
              cases heq
              exact .inr ⟨field, rx, vx, vx', _, status, value, ⟨name, hname, hfield⟩, hrx, hvx, hvx', rfl⟩
            next =>
              cases h
              exact .inl rfl
    next =>
      cases h
      exact .inl rfl

/-- What the informs that follow a declaration keep of it. -/
structure Relayed (s0 : VrblShared) (ref : VrblRef) (s : VrblShared) : Prop where
  groups : s.sGroups = s0.sGroups
  sensor : ∃ vx, s.vrbl ref = some vx ∧ SensorVrbl vx

/-- The variable of a sensor is new when it is declared. -/
theorem declared_relayed (hstar : (RelayInform.list a).Starless) (h : r.sensorListGroupInfo s0 a = some (s1, .ok)) :
    ∃ field, r.Builds s0 a.fx (.list a) field ∧ s0.findRegion (.group a.fx.fGroup) field = none ∧
      Relayed s0 ⟨.group a.fx.fGroup, field⟩ s1 := by
  rcases sensorList_spec hstar h with ⟨-, hok⟩ | ⟨field, m, hbuilds, hnew, hm, rfl, -⟩
  · exact absurd rfl hok
  · exact ⟨field, hbuilds, hnew, VrblShared.insertRegion_sGroups, _, VrblShared.findRegion_insert_self, m, rfl, hm⟩

/-- A later list inform leaves a declared sensor as it is. -/
theorem sensorList_keeps (hstar : (RelayInform.list b).Starless) (hs : Relayed s0 ref s)
    (h : r.sensorListGroupInfo s b = some (s', result)) : Relayed s0 ref s' ∧ s'.vrbl ref = s.vrbl ref := by
  rcases sensorList_spec hstar h with ⟨rfl, -⟩ | ⟨field, m, -, hnew, -, rfl, -⟩
  · exact ⟨hs, rfl⟩
  · obtain ⟨vx, hvx, hsensor⟩ := hs.sensor
    have hne : ref ≠ ⟨.group b.fx.fGroup, field⟩ := by
      intro heq
      rw [heq] at hvx
      cases hnew.symm.trans hvx
    have hkept : (s.insertRegion (.group b.fx.fGroup) ⟨vrfSen, .tree m⟩ field).vrbl ref = s.vrbl ref :=
      vrbl_insert_of_ne hne
    exact ⟨⟨VrblShared.insertRegion_sGroups.trans hs.groups, vx, hkept.trans hvx, hsensor⟩, hkept⟩

/-- A status inform is for a sensor of the client's own group that has the name that is built, if the region of the
client itself has no variable of that name. -/
def RelayClients.Reaches (r : RelayClients) (s : VrblShared) (b : SensorInform) (ref : VrblRef) : Prop :=
  ref.region = .group b.fx.fGroup ∧ r.Builds s b.fx (.status b) ref.key ∧ s.findRegion (.flat b.fx) ref.key = none

theorem findVrbl_reached {vx : Vrbl} (hplain : PlainName field) (hvx : s.vrbl ⟨.group fx.fGroup, field⟩ = some vx)
    (hshadow : s.findRegion (.flat fx) field = none) : findVrbl s fx field = some ⟨.group fx.fGroup, field⟩ := by
  have hvx : s.findRegion (.group fx.fGroup) field = some vx := hvx
  rw [findVrbl_search hplain, searchRegions, List.find?_cons_of_neg, List.find?_cons_of_pos]
  · rfl
  · rw [hvx]
    rfl
  · rw [hshadow]
    exact Bool.noConfusion

theorem builds_plain {c : RelayInform} (hstar : c.Starless) (hb : r.Builds s fx c field) : PlainName field := by
  obtain ⟨name, hname, hfield⟩ := hb
  exact childField_plain (hstar name hname) hfield

/-- A status inform that is taken and reaches a declared sensor sets it, and nothing else. -/
theorem sensorStatus_updates {stamp status value : Text} (hstar : (RelayInform.status b).Starless)
    (hs : Relayed s0 ref s) (hreach : r.Reaches s b ref) (ht : b.Takes stamp status value) :
    ∃ vx, r.sensorStatusGroupInfo s b = some (s.setVrbl ref vx, .ok) ∧ SensorVrbl vx ∧
      vx.Shows stamp status value := by
  obtain ⟨hregion, hbuilds, hshadow⟩ := hreach
  obtain ⟨vx, hvx, hsensor⟩ := hs.sensor
  obtain ⟨rx, field⟩ := ref
  cases hregion
  obtain ⟨vx', hupdate, hsensor', hshows⟩ := @updateSensor_spec vx stamp status value hsensor
  refine ⟨vx', ?_, hsensor', hshows⟩
  rw [sensorStatus_eq ht hbuilds, RelayClients.statusOf, findVrbl_reached (builds_plain hstar hbuilds) hvx hshadow]
  dsimp only
  rw [hvx, Option.bind_some, if_pos hsensor.isSensor, hupdate]
  rfl

theorem find_searchRegions {p : RegionId → Bool} {g : Nat} (h : (searchRegions fx).find? p = some (.group g)) :
    g = fx.fGroup ∧ p (.flat fx) = false := by
  rw [searchRegions] at h
  cases hflat : p (.flat fx) with
  | true =>
    rw [List.find?_cons_of_pos hflat] at h
    cases h
  | false =>
    rw [List.find?_cons_of_neg (by rw [hflat]; exact Bool.noConfusion)] at h
    have hmem := List.mem_of_find?_eq_some h
    rcases List.mem_cons.mp hmem with hgroup | hroot
    · exact ⟨RegionId.group.inj hgroup, rfl⟩
    · cases List.mem_singleton.mp hroot

/-- A status inform that does not reach a declared sensor leaves it as it is. -/
theorem sensorStatus_passes (hstar : (RelayInform.status b).Starless) (hregion : ref.region = .group fy.fGroup)
    (hreach : ¬ r.Reaches s b ref) (h : r.sensorStatusGroupInfo s b = some (s', result)) :
    s'.vrbl ref = s.vrbl ref := by
  rcases sensorStatus_spec hstar h with rfl | ⟨field, rx, vx, vx', stamp, status, value, hbuilds, hfind, -, -, rfl⟩
  · rfl
  · refine vrbl_setVrbl_of_ne fun heq => hreach ?_
    obtain ⟨rx', key⟩ := ref
    cases hregion
    cases heq
    obtain ⟨hgroup, hshadow⟩ := find_searchRegions hfind
    exact ⟨congrArg RegionId.group hgroup, hbuilds, Option.not_isSome_iff_eq_none.mp (Bool.eq_false_iff.mp hshadow)⟩

/-- A status inform leaves a declared sensor a sensor. -/
theorem sensorStatus_keeps (hstar : (RelayInform.status b).Starless) (hs : Relayed s0 ref s)
    (h : r.sensorStatusGroupInfo s b = some (s', result)) : Relayed s0 ref s' := by
  rcases sensorStatus_spec hstar h with rfl | ⟨field, rx, vx, vx', stamp, status, value, -, -, hvx, hupdate, rfl⟩
  · exact hs
  · refine ⟨VrblShared.insertRegion_sGroups.trans hs.groups, ?_⟩
    obtain ⟨vy, hvy, hsensor⟩ := hs.sensor
    by_cases heq : ref = ⟨rx, field⟩
    · subst heq
      cases hvx.symm.trans hvy
      obtain ⟨vz, hvz, hsensor', -⟩ := @updateSensor_spec vx stamp status value hsensor
      cases hupdate.symm.trans hvz
      exact ⟨vx', vrbl_setVrbl_self, hsensor'⟩
    · exact ⟨vy, (vrbl_setVrbl_of_ne heq).trans hvy, hsensor⟩

theorem relayed_runs {log : List InformResult} (hs : Relayed s0 ref s1)
    (h : (informMachine r s1).Runs (fun _ c => c.Starless) s log) : Relayed s0 ref s := by
  refine h.invariant (fun s _ => Relayed s0 ref s) hs ?_
  intro s log c s' hs hstar hstep
  obtain ⟨⟨t, result⟩, hserve, rfl⟩ := Option.map_eq_some_iff.mp hstep
  cases c with
  | list b => exact (sensorList_keeps hstar hs hserve).1
  | status b => exact sensorStatus_keeps hstar hs hserve

/-- What a sensor is from its declaration by the inform `a` on. -/
structure Relays (r : RelayClients) (a : SensorInform) (ref : VrblRef) (s : VrblShared) : Prop where
  list : ∀ b s' result, (RelayInform.list b).Starless → r.sensorListGroupInfo s b = some (s', result) →
    s'.vrbl ref = s.vrbl ref
  updates : ∀ b stamp status value, (RelayInform.status b).Starless → r.Reaches s b ref → b.Takes stamp status value →
    ∃ vx, r.sensorStatusGroupInfo s b = some (s.setVrbl ref vx, .ok) ∧ vx.Shows stamp status value
  passes : ∀ b s' result, (RelayInform.status b).Starless → ¬ r.Reaches s b ref →
    r.sensorStatusGroupInfo s b = some (s', result) → s'.vrbl ref = s.vrbl ref
  same : ∀ b, b.fx = a.fx → (RelayInform.status b).sensor = (RelayInform.list a).sensor →
    s.findRegion (.flat a.fx) ref.key = none → r.Reaches s b ref
  differs : ∀ b name name', b.fx = a.fx → (RelayInform.list a).sensor = some name →
    (RelayInform.status b).sensor = some name' → (RelayInform.status b).Starless →
    (name.head? = some delimLogic ↔ name'.head? = some delimLogic) →
    name.map fixupRemap ≠ name'.map fixupRemap → ¬ r.Reaches s b ref

theorem childField_fieldName (h : delimGroup ∉ name) (hf : r.childField s fx name false = some field) :
    field = fieldName name (if r.prefixed fx then s.flatName fx else none) := by
  rw [childField_eq h] at hf
  split at hf
  next => cases hf
  next =>
    cases hf
    rfl

theorem Relayed.relays (hstar : (RelayInform.list a).Starless) (hb : r.Builds s0 a.fx (.list a) field)
    (hs : Relayed s0 ⟨.group a.fx.fGroup, field⟩ s) : Relays r a ⟨.group a.fx.fGroup, field⟩ s := by
  refine ⟨?_, ?_, ?_, ?_, ?_⟩
  · intro b s' result hstar h
    exact (sensorList_keeps hstar hs h).2
  · intro b stamp status value hstar hreach ht
    obtain ⟨vx, hstatus, -, hshows⟩ := sensorStatus_updates hstar hs hreach ht
    exact ⟨vx, hstatus, hshows⟩
  · intro b s' result hstar hreach h
    exact sensorStatus_passes hstar rfl hreach h
  · intro b hfx hname hshadow
    obtain ⟨name, hsensor, hfield⟩ := (builds_congr hs.groups).mpr hb
    rw [RelayClients.Reaches, hfx]
    exact ⟨rfl, ⟨name, hname.trans hsensor, hfield⟩, hshadow⟩
  · intro b name name' hfx hname hname' hstar' hlead hne hreach
    obtain ⟨-, ⟨name2, hname2, hfield2⟩, -⟩ := hreach
    obtain ⟨name1, hname1, hfield1⟩ := (builds_congr hs.groups).mpr hb
    cases hname.symm.trans hname1
    cases hname'.symm.trans hname2
    have h1 := childField_fieldName (hstar _ hname) hfield1
    have h2 := childField_fieldName (hstar' _ hname') hfield2
    rw [hfx] at h2
    exact hne (fieldName_injective hlead (h1.symm.trans h2))

theorem sensors_are_relayed (r : RelayClients) (s0 s1 : VrblShared) (a : SensorInform)
    (hstar : (RelayInform.list a).Starless) (h : r.sensorListGroupInfo s0 a = some (s1, .ok)) :
    (∀ name prepend locator f, makeChildField name prepend locator = some f → f.copy.length ≤ f.size) ∧
      ∃ field, r.Builds s0 a.fx (.list a) field ∧ s0.vrbl ⟨.group a.fx.fGroup, field⟩ = none ∧
        ∀ s log, (informMachine r s1).Runs (fun _ c => c.Starless) s log →
          (∃ vx, s.vrbl ⟨.group a.fx.fGroup, field⟩ = some vx ∧ isVrblSensor vx = true) ∧
            Relays r a ⟨.group a.fx.fGroup, field⟩ s := by
  refine ⟨fun name prepend locator f hf => makeChildField_fits hf, ?_⟩
  obtain ⟨field, hbuilds, hnew, hrelayed⟩ := declared_relayed hstar h
  refine ⟨field, hbuilds, hnew, ?_⟩
  intro s log hruns
  have hs := relayed_runs hrelayed hruns
  obtain ⟨vx, hvx, hsensor⟩ := hs.sensor
  exact ⟨⟨vx, hvx, hsensor.isSensor⟩, hs.relays hstar hbuilds⟩

/-- Clients whose sensors have no prefix, and what one of the first group says of a sensor. -/
def plainClients : RelayClients := ⟨fun _ => false, fun _ => false⟩

def tempList (place : Nat) : SensorInform :=
  ⟨⟨0, place⟩, true, ["#sensor-list", "Temp", "chip", "C", "float"].map textOf⟩

def tempStatus (place : Nat) : SensorInform :=
  ⟨⟨0, place⟩, true, ["#sensor-status", "1300000000.000", "1", "Temp", "nominal", "40"].map textOf⟩

def temp : VrblRef := ⟨.group 0, textOf "temp"⟩

theorem tempList_starless : (RelayInform.list (tempList 0)).Starless := by
  intro name hname
  cases hname
  decide

theorem sensors_are_relayed_temp : ∃ s1 vx, plainClients.sensorListGroupInfo twoFlats (tempList 0) = some (s1, .ok) ∧
    plainClients.sensorStatusGroupInfo s1 (tempStatus 0) = some (s1.setVrbl temp vx, .ok) ∧
      vx.Shows (textOf "1300000000.000") (textOf "nominal") (textOf "40") := by
  obtain ⟨s1, h, hshadow⟩ : ∃ s1, plainClients.sensorListGroupInfo twoFlats (tempList 0) = some (s1, .ok) ∧
      s1.findRegion (.flat ⟨0, 0⟩) (textOf "temp") = none := ⟨_, rfl, rfl⟩
  obtain ⟨-, field, hbuilds, -, hruns⟩ :=
    sensors_are_relayed plainClients twoFlats s1 (tempList 0) tempList_starless h
  obtain ⟨name, hname, hfield⟩ := hbuilds
  cases hname
  have hfield : some (textOf "temp") = some field := hfield
  cases hfield
  obtain ⟨-, hrelays⟩ := hruns _ _ .start
  have hstar : (RelayInform.status (tempStatus 0)).Starless := by
    intro name hname
    cases hname
    decide
  have ht : (tempStatus 0).Takes (textOf "1300000000.000") (textOf "nominal") (textOf "40") :=
    ⟨rfl, rfl, rfl, _, textOf "1300000000.000" ++ List.replicate 6 0, 0, rfl, by decide +kernel, le_refl 0,
      by decide⟩
  obtain ⟨vx, hstatus, hshows⟩ := hrelays.updates _ _ _ _ hstar (hrelays.same (tempStatus 0) rfl rfl hshadow) ht
  exact ⟨s1, vx, h, hstatus, hshows⟩

/-- Another client of the group has the same name for its sensor, which is the same variable. -/
theorem sensor_of_another_client : ¬ ∀ (r : RelayClients) (s0 s1 s' : VrblShared) (a b : SensorInform)
    (field : Text) (result : InformResult), (RelayInform.list a).Starless → (RelayInform.status b).Starless →
      r.sensorListGroupInfo s0 a = some (s1, .ok) → r.Builds s0 a.fx (.list a) field → b.fx ≠ a.fx →
        r.sensorStatusGroupInfo s1 b = some (s', result) →
          s'.vrbl ⟨.group a.fx.fGroup, field⟩ = s1.vrbl ⟨.group a.fx.fGroup, field⟩ := by
  intro h
  obtain ⟨s1, s', hlist, hstatus, hbefore, hafter⟩ : ∃ s1 s',
      plainClients.sensorListGroupInfo twoFlats (tempList 0) = some (s1, .ok) ∧
        plainClients.sensorStatusGroupInfo s1 (tempStatus 1) = some (s', .ok) ∧
          (s1.vrbl temp).bind (findPayload · (some vrcStatus)) = none ∧
            (s'.vrbl temp).bind (findPayload · (some vrcStatus)) = some (.string (some (textOf "nominal"))) :=
    ⟨_, _, rfl, rfl, rfl, rfl⟩
  have hstar : (RelayInform.status (tempStatus 1)).Starless := by
    intro name hname
    cases hname
    decide
  have hkept : s'.vrbl temp = s1.vrbl temp := h plainClients twoFlats s1 s' (tempList 0) (tempStatus 1) _ _
    tempList_starless hstar hlist ⟨_, rfl, rfl⟩ (by decide) hstatus
  rw [hkept, hbefore] at hafter
  cases hafter

end

end Katcp
