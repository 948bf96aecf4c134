import Katcp.Machine
import Katcp.SensorValues

namespace Katcp

namespace DiscreteSensor

/-- `extract_discrete_katcp` -/
def extract (ds : DiscreteSensor) (value : Nat) : Option DiscreteSensor :=
  if ds.vector.length < value then none else some { ds with current := value }

/-- `append_value_discrete_katcp`, which reads outside of the vector if it has no result. -/
def appendValue (ds : DiscreteSensor) : Option (Option Text) := ds.vector[ds.current]?

/-- `create_sensor_vector_discrete_katcp` -/
def create (vector : List (Option Text)) : Option DiscreteSensor :=
  if vector = [] then none else some ⟨0, vector⟩

/-- `expand_sensor_discrete_katcp` -/
def expand (ds : DiscreteSensor) (position : Nat) (name : Text) : DiscreteSensor :=
  if ds.vector.length ≤ position then
    let names := (List.range' ds.vector.length (position - ds.vector.length)).map fun (i : Nat) =>
      some (textOf "mode" ++ decimalText i)
    { ds with vector := ds.vector ++ names ++ [some name] }
  else { ds with vector := ds.vector.set position (some name) }

end DiscreteSensor

/-- `katcp_acquire` with `katcp_discrete_acquire`, and the sensors that it serves. -/
structure DiscreteAcquire where
  daCurrent : Nat
  sensors : List DiscreteSensor

namespace DiscreteAcquire

/-- `propagate_acquire_katcp`, without what the clients are sent. -/
def propagate (a : DiscreteAcquire) : DiscreteAcquire :=
  { a with sensors := a.sensors.map fun ds => (ds.extract a.daCurrent).getD ds }

/-- `set_discrete_acquire_katcp` -/
def setDiscrete (a : DiscreteAcquire) (value : Nat) : DiscreteAcquire := propagate { a with daCurrent := value }

/-- `scan_value_discrete_katcp` for one of the sensors; no result is a crash. -/
def scanValue (a : DiscreteAcquire) (k : Nat) (value : Text) : Option DiscreteAcquire :=
  (a.sensors[k]?).bind fun ds => (scanVector value ds.vector 0).map fun found =>
    { a with daCurrent := found.getD a.daCurrent }

end DiscreteAcquire

/-- The names of the modes, the acquire that serves the mode sensor, and all acquires of discrete
values. -/
structure DiscreteTable where
  sVector : List (Option Text)
  sModeSensor : Option Nat
  acquires : List DiscreteAcquire

inductive DiscreteAction where
  | register (vector : List (Option Text))
  | link (i : Nat) (vector : List (Option Text))
  | set (i value : Nat)
  | scan (i k : Nat) (value : Text)
  | expand (i k position : Nat) (name : Text)
  | propagate (i : Nat)
  | store (mode : Nat) (name : Option Text)
  | enter (mode : Nat)

namespace DiscreteTable

def modify (s : DiscreteTable) (i : Nat) (f : DiscreteAcquire → Option DiscreteAcquire) : Option DiscreteTable :=
  (s.acquires[i]?).bind fun a => (f a).map fun a' => { s with acquires := s.acquires.set i a' }

/-- `register_discrete_sensor_katcp` -/
def register (s : DiscreteTable) (vector : List (Option Text)) : Option DiscreteTable :=
  (DiscreteSensor.create vector).map fun ds => { s with acquires := s.acquires ++ [⟨0, [ds]⟩] }

/-- `register_multi_discrete_sensor_katcp` for an acquire that is there. -/
def link (s : DiscreteTable) (i : Nat) (vector : List (Option Text)) : Option DiscreteTable :=
  (DiscreteSensor.create vector).bind fun ds => s.modify i fun a => some { a with sensors := a.sensors ++ [ds] }

def expand (s : DiscreteTable) (i k position : Nat) (name : Text) : Option DiscreteTable :=
  s.modify i fun a => (a.sensors[k]?).map fun ds => { a with sensors := a.sensors.set k (ds.expand position name) }

/-- `expand_modes_katcp` -/
def expandModes (vector : List (Option Text)) (mode : Nat) : List (Option Text) :=
  vector ++ List.replicate (mode + 1 - vector.length) none

/-- `store_sensor_mode_katcp`, which makes the mode sensor for the first mode that has a name. -/
def storeSensorMode (s : DiscreteTable) (mode : Nat) (name : Option Text) : Option DiscreteTable :=
  let s := { s with sVector := (expandModes s.sVector mode).set mode name }
  match name, s.sModeSensor with
  | none, _ => some s
  | some name, some i => s.expand i 0 mode name
  | some name, none =>
    let made := { s with sModeSensor := some s.acquires.length }
    if mode > 0 then (made.register [some (textOf "mode0")]).bind fun s => s.expand (s.acquires.length - 1) 0 mode name
    else made.register [some name]

/-- What `complete_mode_katcp` does to the mode sensor once a stored mode has been entered. -/
def enterMode (s : DiscreteTable) (mode : Nat) : Option DiscreteTable :=
  if mode < s.sVector.length then
    match s.sModeSensor with
    | none => some s
    | some i => s.modify i fun a => some (a.setDiscrete mode)
  else none

def act (s : DiscreteTable) : DiscreteAction → Option DiscreteTable
  | .register vector => s.register vector
  | .link i vector => s.link i vector
  | .set i value => s.modify i fun a => some (a.setDiscrete value)
  | .scan i k value => s.modify i fun a => a.scanValue k value
  | .expand i k position name => s.expand i k position name
  | .propagate i => s.modify i fun a => some a.propagate
  | .store mode name => s.storeSensorMode mode name
  | .enter mode => s.enterMode mode

end DiscreteTable

/-- A server that has the one mode it starts with, which has no name, and no discrete sensors. -/
def discreteMachine : Machine DiscreteTable DiscreteAction Unit where
  start := ⟨[none], none, []⟩
  step s a := s.act a
  emits _ _ := []

def DiscreteAcquire.InRange (a : DiscreteAcquire) : Prop := ∀ ds ∈ a.sensors, ds.current < ds.vector.length

/-- The current index of every discrete sensor is that of one of its names. -/
def DiscreteInRange (s : DiscreteTable) : Prop := ∀ a ∈ s.acquires, a.InRange

/-- A value is not the number of the names, for any of the sensors. -/
def DiscreteAcquire.Apart (a : DiscreteAcquire) (value : Nat) : Prop := ∀ ds ∈ a.sensors, value ≠ ds.vector.length

/-- No value is taken over that is the number of a sensor's names. -/
def DiscreteApart (s : DiscreteTable) : DiscreteAction → Prop
  | .set i value => ∀ a, s.acquires[i]? = some a → a.Apart value
  | .propagate i => ∀ a, s.acquires[i]? = some a → a.Apart a.daCurrent
  | .enter mode => ∀ i, s.sModeSensor = some i → ∀ a, s.acquires[i]? = some a → a.Apart mode
  | _ => True

variable {s s' : DiscreteTable} {a a' : DiscreteAcquire} {ds : DiscreteSensor} {i k value position : Nat} {name : Text}
  {vector : List (Option Text)}

/-- What an extraction leaves is in range just if the value is not the number of names. -/
theorem DiscreteSensor.extract_inRange_iff (h : ds.current < ds.vector.length) :
    ((ds.extract value).getD ds).current < ((ds.extract value).getD ds).vector.length ↔ value ≠ ds.vector.length := by
  unfold extract
  split
  next hlt =>
    rw [Option.getD_none]
    omega
  next hle =>
    rw [Option.getD_some]
    dsimp only
    omega

theorem DiscreteAcquire.propagate_inRange_iff (h : a.InRange) : a.propagate.InRange ↔ a.Apart a.daCurrent := by
  constructor
  · intro hrange ds hds
    exact (DiscreteSensor.extract_inRange_iff (h ds hds)).mp (hrange _ (List.mem_map_of_mem hds))
  · intro hapart ds' hds'
    obtain ⟨ds, hds, rfl⟩ := List.mem_map.mp hds'
    exact (DiscreteSensor.extract_inRange_iff (h ds hds)).mpr (hapart ds hds)

theorem DiscreteSensor.create_inRange (h : DiscreteSensor.create vector = some ds) : ds.current < ds.vector.length := by
  obtain ⟨hne, h⟩ := Option.ite_none_left_eq_some.mp h
  cases h
  exact List.length_pos_iff.mpr hne

theorem DiscreteSensor.expand_length (ds : DiscreteSensor) (position : Nat) (name : Text) :
    (ds.expand position name).current = ds.current ∧
      (ds.expand position name).vector.length = max ds.vector.length (position + 1) := by
  unfold expand
  split
  next h =>
    refine ⟨rfl, ?_⟩
    simp only [List.length_append, List.length_map, List.length_range', List.length_singleton]
    omega
  next h =>
    refine ⟨rfl, ?_⟩
    simp only [List.length_set]
    omega

theorem DiscreteInRange.modify (h : DiscreteInRange s) {f : DiscreteAcquire → Option DiscreteAcquire}
    (hf : ∀ a a', s.acquires[i]? = some a → a.InRange → f a = some a' → a'.InRange) (hs : s.modify i f = some s') :
    DiscreteInRange s' := by
  obtain ⟨a, ha, hs⟩ := Option.bind_eq_some_iff.mp hs
  obtain ⟨a', ha', hs⟩ := Option.map_eq_some_iff.mp hs
  cases hs
  intro b hb
  rcases List.mem_or_eq_of_mem_set hb with hb | rfl
  · exact h b hb
  · exact hf a _ ha (h a (List.mem_of_getElem? ha)) ha'

theorem DiscreteInRange.register (h : DiscreteInRange s) (hs : s.register vector = some s') : DiscreteInRange s' := by
  obtain ⟨ds, hds, hs⟩ := Option.map_eq_some_iff.mp hs
  cases hs
  intro b hb
  rcases List.mem_append.mp hb with hb | hb
  · exact h b hb
  · cases List.mem_singleton.mp hb
    intro ds' hds'
    cases List.mem_singleton.mp hds'
    exact DiscreteSensor.create_inRange hds

theorem DiscreteInRange.link (h : DiscreteInRange s) (hs : s.link i vector = some s') : DiscreteInRange s' := by
  obtain ⟨ds, hds, hs⟩ := Option.bind_eq_some_iff.mp hs
  refine h.modify (fun a a' _ ha ha' => ?_) hs
  cases ha'
  intro ds' hds'
  rcases List.mem_append.mp hds' with hds' | hds'
  · exact ha ds' hds'
  · cases List.mem_singleton.mp hds'
    exact DiscreteSensor.create_inRange hds

theorem DiscreteInRange.expand (h : DiscreteInRange s) (hs : s.expand i k position name = some s') :
    DiscreteInRange s' := by
  refine h.modify (fun a a' _ ha ha' => ?_) hs
  obtain ⟨ds, hds, ha'⟩ := Option.map_eq_some_iff.mp ha'
  cases ha'
  intro ds' hds'
  rcases List.mem_or_eq_of_mem_set hds' with hds' | rfl
  · exact ha ds' hds'
  · obtain ⟨hcurrent, hlength⟩ := ds.expand_length position name
    have hlt := ha ds (List.mem_of_getElem? hds)
    omega

theorem DiscreteInRange.store (h : DiscreteInRange s) {mode : Nat} {name : Option Text}
    (hs : s.storeSensorMode mode name = some s') : DiscreteInRange s' := by
  unfold DiscreteTable.storeSensorMode at hs
  dsimp only at hs
  split at hs
  next =>
    cases hs
    exact h
  next name i _ =>
    refine DiscreteInRange.expand ?_ hs
    exact h
  next name _ =>
    split at hs
    next =>
      obtain ⟨s1, hs1, hs⟩ := Option.bind_eq_some_iff.mp hs
      have h1 : DiscreteInRange s1 := by
        refine DiscreteInRange.register ?_ hs1
        exact h
      exact h1.expand hs
    next =>
      refine DiscreteInRange.register ?_ hs
      exact h

theorem discrete_keeps : discreteMachine.Keeps DiscreteApart fun s _ => DiscreteInRange s := by
  intro s log action s' h hok hstep
  cases action with
  | register vector => exact h.register hstep
  | link i vector => exact h.link hstep
  | set i value =>
    refine h.modify (fun a a' ha hin ha' => ?_) hstep
    cases ha'
    exact (DiscreteAcquire.propagate_inRange_iff (a := { a with daCurrent := value }) hin).mpr (hok a ha)
  | scan i k value =>
    refine h.modify (fun a a' ha hin ha' => ?_) hstep
    obtain ⟨ds, _, ha'⟩ := Option.bind_eq_some_iff.mp ha'
    obtain ⟨found, _, ha'⟩ := Option.map_eq_some_iff.mp ha'
    cases ha'
    exact hin
  | expand i k position name => exact h.expand hstep
  | propagate i =>
    refine h.modify (fun a a' ha hin ha' => ?_) hstep
    cases ha'
    exact (DiscreteAcquire.propagate_inRange_iff hin).mpr (hok a ha)
  | store mode name => exact h.store hstep
  | enter mode =>
    obtain ⟨_, hstep⟩ := Option.ite_none_right_eq_some.mp hstep
    split at hstep
    next =>
      cases hstep
      exact h
    next i hi =>
      refine h.modify (fun a a' ha hin ha' => ?_) hstep
      cases ha'
      exact (DiscreteAcquire.propagate_inRange_iff (a := { a with daCurrent := mode }) hin).mpr (hok i hi a ha)

/-- As long as no value is taken over that is the number of a sensor's names, every report of a
discrete sensor finds its name. -/
theorem discrete_in_range {log : List Unit} (h : discreteMachine.Runs DiscreteApart s log) :
    ∀ a ∈ s.acquires, ∀ ds ∈ a.sensors, ds.current < ds.vector.length ∧ ds.appendValue ≠ none := by
  have hrange := h.invariant (fun s _ => DiscreteInRange s) (fun _ ha => (nomatch ha)) discrete_keeps
  intro a ha ds hds
  have hlt := hrange a ha ds hds
  refine ⟨hlt, ?_⟩
  unfold DiscreteSensor.appendValue
  rw [List.getElem?_eq_getElem hlt]
  exact nofun

/-- Two modes with names and one without, a value that is far too large, and one by its name. -/
def discreteRun : List DiscreteAction :=
  [.store 0 (some (textOf "idle")), .store 2 (some (textOf "busy")), .enter 2, .set 0 9, .scan 0 0 (textOf "mode1"),
    .propagate 0]

theorem discreteRun_meets : discreteMachine.Meets DiscreteApart discreteMachine.start discreteRun := by
  refine ⟨trivial, fun s hs => ⟨trivial, fun s' hs' => ?_⟩⟩
  cases hs
  cases hs'
  refine ⟨fun i hi a ha => ?_, fun s hs => ?_⟩
  · cases hi
    cases ha
    exact fun ds hds => by cases List.mem_singleton.mp hds; decide
  cases hs
  refine ⟨fun a ha => ?_, fun s hs => ?_⟩
  · cases ha
    exact fun ds hds => by cases List.mem_singleton.mp hds; decide
  cases hs
  refine ⟨trivial, fun s hs => ⟨fun a ha => ?_, fun _ _ => trivial⟩⟩
  cases hs
  cases ha
  exact fun ds hds => by cases List.mem_singleton.mp hds; decide

theorem discrete_in_range_modes : ∃ s : DiscreteTable, s.acquires.map (fun a => a.sensors.map DiscreteSensor.current) = [[1]] ∧
    ∀ a ∈ s.acquires, ∀ ds ∈ a.sensors, ds.current < ds.vector.length ∧ ds.appendValue ≠ none :=
  ⟨_, by decide, discrete_in_range (Machine.Runs.exec .start discreteRun rfl discreteRun_meets)⟩

/-- A mode without a name, just behind those that have one, is shown by an index outside. -/
theorem discrete_index_outside : ∃ s, discreteMachine.Runs (fun _ _ => True) s [] ∧
    ∃ a ∈ s.acquires, ∃ ds ∈ a.sensors, ds.vector.length ≤ ds.current ∧ ds.appendValue = none :=
  ⟨_, Machine.Runs.exec .start [.store 0 (some (textOf "idle")), .store 1 none, .enter 1] rfl (Machine.meets_true ..),
    _, List.mem_singleton_self _, _, List.mem_singleton_self _, by decide, rfl⟩

end Katcp
