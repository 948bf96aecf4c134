import Katcp.SensorInforms
import Katcp.VrblReadOnly

namespace Katcp

section

variable {vx vx' : Vrbl} {m m' : List (Text × Payload)} {flags : Nat} {text path key k : Text} {next : Nat}

theorem inferTypePath_tree (h : path.head? = some delimTree) : inferTypePath (some path) = some .tree := by
  rw [inferTypePath, Option.bind_some, h]
  rfl

theorem scanText_tree (hpath : path.head? = some delimTree) : scanText ⟨flags, .tree m⟩ text path =
    match scanTree (fun ty rest => scanPayload path.length ty (some text) rest .mayCreate (some .string)) m
      (some text) (some path) .mayCreate (some .string) with
    | .done py => some ⟨flags, py⟩
    | .refused py => some ⟨flags, py⟩
    | .wild => none := by
  rw [scanText, scanVrbl, if_neg (by rw [inferTypePath_tree hpath]; simp)]
  dsimp only
  rw [pathFuel, Option.getD_some, scanPayload]
  generalize scanTree (fun ty rest => scanPayload path.length ty (some text) rest .mayCreate (some .string)) m
    (some text) (some path) .mayCreate (some .string) = r
  cases r <;> rfl

/-- A scan leaves the other members alone. -/
theorem scanText_frame (hpath : path.head? = some delimTree) (hnext : nextElementPath path = some next)
    (h : scanText ⟨flags, .tree m⟩ text path = some vx') : ∃ m', vx' = ⟨flags, .tree m'⟩ ∧
      ∀ k, k ≠ memberName path next → KeyedList.find strcmp k m' = KeyedList.find strcmp k m := by
  rw [scanText_tree hpath, scanTree] at h
  dsimp only at h
  rw [if_neg (not_not.mpr hpath), hnext] at h
  dsimp only at h
  split at h
  next py hscan =>
    cases h
    split at hscan
    next => cases hscan
    next =>
      split at hscan
      next => cases hscan
      next ty hty =>
        obtain ⟨py', -, rfl⟩ := map_eq_done hscan
        exact ⟨_, rfl, fun k hk => KeyedList.find_put_of_ne hk⟩
  next py hscan =>
    cases h
    split at hscan
    next =>
      cases hscan
      exact ⟨m, rfl, fun _ _ => rfl⟩
    next =>
      split at hscan
      next =>
        cases hscan
        exact ⟨m, rfl, fun _ _ => rfl⟩
      next ty hty =>
        obtain ⟨py', -, rfl⟩ := Leaves.of_map (.inr hscan)
        exact ⟨_, rfl, fun k hk => KeyedList.find_put_of_ne hk⟩
  next => cases h

def StringOrNone (py : Option Payload) : Prop := ∀ p, py = some p → ∃ u, p = .string u

/-- A member that is a string takes the text, and so does one that is not there. -/
theorem scanText_member (hnext : nextElementPath (delimTree :: key) = some 0)
    (hm : StringOrNone (KeyedList.find strcmp key m)) : scanText ⟨flags, .tree m⟩ text (delimTree :: key) =
      some ⟨flags, .tree (KeyedList.put strcmp key (.string (some text)) m)⟩ := by
  have hchild : ∃ u, (KeyedList.find strcmp key m).or (createChild .mayCreate (some .string) none) =
      some (.string u) := by
    cases hfind : KeyedList.find strcmp key m with
    | none => exact ⟨none, rfl⟩
    | some p =>
      obtain ⟨u, rfl⟩ := hm p hfind
      exact ⟨u, rfl⟩
  obtain ⟨u, hu⟩ := hchild
  have hhead : ¬ (delimTree :: key).head? ≠ some delimTree := not_not.mpr rfl
  rw [scanText_tree rfl, scanTree]
  dsimp only
  rw [if_neg hhead, hnext]
  dsimp only
  rw [if_neg Nat.zero_ne_one]
  have hname : memberName (delimTree :: key) 0 = key := rfl
  have hrest : restPath (delimTree :: key) 0 = none := rfl
  rw [hname, hrest, hu]
  rfl

theorem findPayload_member (hnext : nextElementPath (delimTree :: key) = some 0) {u : Option Text}
    (hm : KeyedList.find strcmp key m = some (.string u)) :
    findPayload ⟨flags, .tree m⟩ (some (delimTree :: key)) = some (.string u) := by
  have hsuffix : pathSuffix (some (delimTree :: key)) = some (delimTree :: key) := by
    rw [pathSuffix, if_pos (by rw [inferTypePath_tree rfl]; rfl)]
  have hname : memberName (delimTree :: key) 0 = key := rfl
  have hrest : restPath (delimTree :: key) 0 = none := rfl
  have hhead : ¬ (delimTree :: key).head? ≠ some delimTree := not_not.mpr rfl
  rw [findPayload, hsuffix, pathFuel, Option.getD_some, elementPayload, elementTree]
  · rw [if_neg hhead, hnext, Option.bind_some, if_neg Nat.zero_ne_one, hname, hm, Option.bind_some, hrest]
    rfl
  · intro hnil
    cases hnil

/-- The members of a sensor that a status sets are strings, of which there is a value. -/
structure SensorTree (m : List (Text × Payload)) : Prop where
  time : StringOrNone (KeyedList.find strcmp (textOf "time") m)
  status : StringOrNone (KeyedList.find strcmp (textOf "status") m)
  value : ∃ u, KeyedList.find strcmp (textOf "value") m = some (.string u)

theorem stringOrNone_put {u : Option Text} (h : StringOrNone (KeyedList.find strcmp k m)) :
    StringOrNone (KeyedList.find strcmp k (KeyedList.put strcmp key (.string u) m)) := by
  by_cases hk : k = key
  · rw [hk, KeyedList.find_put_self]
    intro p hp
    cases hp
    exact ⟨u, rfl⟩
  · rwa [KeyedList.find_put_of_ne hk]

theorem SensorTree.put {u : Option Text} (h : SensorTree m) (key : Text) :
    SensorTree (KeyedList.put strcmp key (.string u) m) := by
  refine ⟨stringOrNone_put h.time, stringOrNone_put h.status, ?_⟩
  by_cases hk : textOf "value" = key
  · rw [hk, KeyedList.find_put_self]
    exact ⟨u, rfl⟩
  · rw [KeyedList.find_put_of_ne hk]
    exact h.value

/-- A sensor that was declared by an inform. -/
def SensorVrbl (vx : Vrbl) : Prop := ∃ m, vx = ⟨vrfSen, .tree m⟩ ∧ SensorTree m

theorem SensorVrbl.isSensor (h : SensorVrbl vx) : isVrblSensor vx = true := by
  obtain ⟨m, rfl, hm⟩ := h
  obtain ⟨u, hu⟩ := hm.value
  have hfind : findPayload ⟨vrfSen, .tree m⟩ (some vrcValue) = some (.string u) :=
    findPayload_member (by decide) hu
  have hflag : decide (vrfSen &&& vrfSen ≠ 0) = true := by decide
  rw [isVrblSensor, hfind, hflag]
  rfl

theorem updateSensor_spec {stamp status value : Text} (h : SensorVrbl vx) :
    ∃ vx', updateSensor vx stamp status value = some vx' ∧ SensorVrbl vx' ∧ vx'.Shows stamp status value := by
  obtain ⟨m, rfl, hm⟩ := h
  let m1 := KeyedList.put strcmp (textOf "time") (.string (some stamp)) m
  let m2 := KeyedList.put strcmp (textOf "status") (.string (some status)) m1
  let m3 := KeyedList.put strcmp (textOf "value") (.string (some value)) m2
  have hm1 : SensorTree m1 := hm.put _
  have hm2 : SensorTree m2 := hm1.put _
  have htime : scanText ⟨vrfSen ||| vrfHid, .tree m⟩ stamp vrcTime = some ⟨vrfSen ||| vrfHid, .tree m1⟩ :=
    scanText_member (by decide) hm.time
  have hstatus : scanText ⟨vrfSen ||| vrfHid, .tree m1⟩ status vrcStatus = some ⟨vrfSen ||| vrfHid, .tree m2⟩ :=
    scanText_member (by decide) hm1.status
  have hstring : StringOrNone (KeyedList.find strcmp (textOf "value") m2) := by
    obtain ⟨u, hu⟩ := hm2.value
    intro p hp
    exact ⟨u, Option.some.inj (hp.symm.trans hu)⟩
  have hvalue : scanText ⟨vrfSen, .tree m2⟩ value vrcValue = some ⟨vrfSen, .tree m3⟩ :=
    scanText_member (by decide) hstring
  have hhidden : ¬ vrfSen &&& vrfHid ≠ 0 := by decide
  have hset : (vrfSen &&& (0 ^^^ maskVrf)) ||| vrfHid = vrfSen ||| vrfHid := by decide
  have hclear : ((vrfSen ||| vrfHid) &&& (vrfHid ^^^ maskVrf)) ||| 0 = vrfSen := by decide
  have hhide : hideVrbl ⟨vrfSen, .tree m⟩ = ⟨vrfSen ||| vrfHid, .tree m⟩ := by
    rw [hideVrbl, flagsVrbl, hset]
  have hshow : showVrbl ⟨vrfSen ||| vrfHid, .tree m2⟩ = ⟨vrfSen, .tree m2⟩ := by
    rw [showVrbl, flagsVrbl, hclear]
  have hupdate : updateSensor ⟨vrfSen, .tree m⟩ stamp status value = some ⟨vrfSen, .tree m3⟩ := by
    rw [updateSensor]
    dsimp only
    rw [if_neg hhidden, hhide, htime]
    simp only [Option.bind_eq_bind, Option.bind_some, hstatus, if_neg hhidden, hshow, hvalue]
  have hne : textOf "time" ≠ textOf "status" := by decide
  have hne' : textOf "time" ≠ textOf "value" := by decide
  have hne'' : textOf "status" ≠ textOf "value" := by decide
  have htimed : KeyedList.find strcmp (textOf "time") m3 = some (.string (some stamp)) := by
    rw [KeyedList.find_put_of_ne hne', KeyedList.find_put_of_ne hne]
    exact KeyedList.find_put_self
  have hstated : KeyedList.find strcmp (textOf "status") m3 = some (.string (some status)) := by
    rw [KeyedList.find_put_of_ne hne'']
    exact KeyedList.find_put_self
  have hvalued : KeyedList.find strcmp (textOf "value") m3 = some (.string (some value)) := KeyedList.find_put_self
  exact ⟨_, hupdate, ⟨m3, rfl, hm2.put _⟩, findPayload_member (by decide) htimed,
    findPayload_member (by decide) hstated, findPayload_member (by decide) hvalued⟩

/-- A scan of another member leaves a sensor one. -/
theorem scanText_sensor (hm : SensorTree m) (hpath : path.head? = some delimTree)
    (hnext : nextElementPath path = some next)
    (hname : ∀ k ∈ ["time", "status", "value"].map textOf, k ≠ memberName path next)
    (h : scanText ⟨flags, .tree m⟩ text path = some vx') : ∃ m', vx' = ⟨flags, .tree m'⟩ ∧ SensorTree m' := by
  obtain ⟨m', rfl, hframe⟩ := scanText_frame hpath hnext h
  refine ⟨m', rfl, ?_, ?_, ?_⟩
  · rw [hframe _ (hname _ (by decide))]
    exact hm.time
  · rw [hframe _ (hname _ (by decide))]
    exact hm.status
  · rw [hframe _ (hname _ (by decide))]
    exact hm.value

theorem scanRange_sensor (hm : SensorTree m) (fields : List (Option Text))
    (h : scanRange ⟨flags, .tree m⟩ fields = some vx') : ∃ m', vx' = ⟨flags, .tree m'⟩ ∧ SensorTree m' := by
  induction fields generalizing m with
  | nil =>
    cases h
    exact ⟨m, rfl, hm⟩
  | cons field fields ih =>
    cases field with
    | none => exact ih hm h
    | some field =>
      obtain ⟨vx1, h1, h⟩ := Option.bind_eq_some_iff.mp h
      obtain ⟨m1, rfl, hm1⟩ := @scanText_sensor _ _ _ _ _ 6 hm rfl (by decide) (by decide) h1
      exact ih hm1 h

theorem declaredSensor_spec {a : SensorInform} {description type : Text}
    (h : RelayClients.declaredSensor a description type = some vx) :
    ∃ flags m, vx = ⟨flags, .tree m⟩ ∧ SensorTree m := by
  have hnew : scanVrbl none none (some vrcValue) .mayCreate (some .string) =
      .done (some ⟨0, .tree [(textOf "value", .string none)]⟩) := rfl
  have hm : SensorTree [(textOf "value", .string none)] := by
    refine ⟨?_, ?_, none, rfl⟩ <;>
    · intro p hp
      cases hp
  rw [RelayClients.declaredSensor, hnew] at h
  dsimp only at h
  rw [Option.bind_eq_bind] at h
  obtain ⟨vx1, h1, h⟩ := Option.bind_eq_some_iff.mp h
  obtain ⟨m1, rfl, hm1⟩ := @scanText_sensor _ _ _ _ _ 0 hm rfl (by decide) (by decide) h1
  obtain ⟨vx2, h2, h⟩ := Option.bind_eq_some_iff.mp h
  obtain ⟨m2, rfl, hm2⟩ := @scanText_sensor _ _ _ _ _ 0 hm1 rfl (by decide) (by decide) h2
  obtain ⟨vx3, h3, h⟩ := Option.bind_eq_some_iff.mp h
  have hunits : ∃ m3, vx3 = ⟨0, .tree m3⟩ ∧ SensorTree m3 := by
    cases hgiven : argString a.args 3 with
    | some units =>
      rw [hgiven] at h3
      exact @scanText_sensor _ _ _ _ _ 0 hm2 rfl (by decide) (by decide) h3
    | none =>
      rw [hgiven] at h3
      cases h3
      exact ⟨m2, rfl, hm2⟩
  obtain ⟨m3, rfl, hm3⟩ := hunits
  refine ⟨0, ?_⟩
  split at h
  · exact scanRange_sensor hm3 _ h
  · cases h
    exact ⟨m3, rfl, hm3⟩

end

end Katcp
