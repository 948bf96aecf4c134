import Katcp.PollSingle
import Katcp.SensorValues

namespace Katcp

section

open Function

/-- All that is sampled while sensors come and go, and the types of the acquires that there are. -/
structure SensorStock where
  polling : Polling
  aType : AcquireId → Option SensorType

/-- `extended_create_acquire_katcp` does not set the current period: `current` is what was in
the memory of the acquire before. -/
def newAcquire (get : Bool) (current : Timeval) : KatcpAcquire :=
  ⟨[], get, 0, 0, ⟨1, 0⟩, current, ⟨0, 250000⟩, .zero⟩

/-- The functions that set up an acquire of some type; memory that is in use is not allocated. -/
def setupAcquire (s : SensorStock) (a : AcquireId) (type : SensorType) (get : Bool) (current : Timeval) :
    Option SensorStock :=
  if (s.aType a).isSome then none
  else some ⟨s.polling.putAcquire a (newAcquire get current), update s.aType a (some type)⟩

/-- `create_sensor_katcp`; the acquire follows when it is linked. -/
def createSensor (s : Polling) (sn : SensorId) (name : Text) (type : SensorType) (mode : Nat) : Option Polling :=
  if sn ∈ s.tally then none
  else some { s with
    tally := s.tally ++ [sn]
    sensors := update s.sensors sn { s.sensors sn with sName := name, sType := type, sMode := mode, sNonsense := [] } }

/-- The sensor that `link_acquire_katcp` has linked to an acquire. -/
def Polling.linked (s : Polling) (a : AcquireId) (sn : SensorId) : Polling :=
  let s := s.putAcquire a { s.acquires a with aSensors := (s.acquires a).aSensors ++ [sn] }
  { s with sensors := update s.sensors sn { s.sensors sn with sAcquire := a } }

/-- Without an extract function of its own a sensor has to be of the type of its acquire. -/
def linkAcquire (s : SensorStock) (a : AcquireId) (sn : SensorId) (extract : Bool) : Option SensorStock :=
  if extract || s.aType a = some (s.polling.sensors sn).sType then some { s with polling := s.polling.linked a sn }
  else none

/-- The part of `destroy_sensor_katcp` that takes a sensor out of the table. -/
def forgetSensor (s : Polling) (sn : SensorId) : Polling := { s with tally := excise sn s.tally }

/-- `destroy_acquire_katcp` for an acquire without sensors; no result is a crash. -/
def destroyAcquire (s : SensorStock) (a : AcquireId) : Option SensorStock :=
  let acq := s.polling.acquires a
  let s := { s with polling := s.polling.putAcquire a { acq with aSensors := [], aPeriodics := 0, aUsers := 0 } }
  if acq.aPeriodics > 0 then
    (disarmByRef s.polling.timers a).map fun (_, timers) =>
      ⟨{ s.polling with timers := timers }, update s.aType a none⟩
  else some { s with aType := update s.aType a none }

/-- A sensor with an acquire of its own, as the registration functions of each type make it. -/
def registerSensor (s : SensorStock) (sn : SensorId) (name : Text) (type : SensorType) (mode : Nat)
    (a : AcquireId) (get : Bool) (current : Timeval) : Option SensorStock := do
  let created ← createSensor s.polling sn name type mode
  let s ← setupAcquire { s with polling := created } a type get current
  match linkAcquire s a sn false with
  | some s => some s
  | none => destroyAcquire { s with polling := forgetSensor s.polling sn } a

/-- A sensor that shares an acquire, which has to be there. -/
def registerMulti (s : SensorStock) (sn : SensorId) (name : Text) (type : SensorType) (mode : Nat)
    (a : AcquireId) (extract : Bool) : Option SensorStock :=
  if (s.aType a).isNone then none
  else (createSensor s.polling sn name type mode).map fun created =>
    match linkAcquire { s with polling := created } a sn extract with
    | some s => s
    | none => { s with polling := forgetSensor created sn }

def delAcquire (s : SensorStock) (sn : SensorId) : Option SensorStock :=
  let a := (s.polling.sensors sn).sAcquire
  let left := excise sn (s.polling.acquires a).aSensors
  let s := { s with polling := s.polling.putAcquire a { s.polling.acquires a with aSensors := left } }
  if left = [] then destroyAcquire s a else some s

/-- The loop of `destroy_sensor_katcp`. -/
def destroyEntries : Nat → Polling → SensorId → Timeval → Option Polling
  | 0, s, sn, _ => if (s.sensors sn).sNonsense = [] then some s else none
  | n + 1, s, sn, now =>
    match (s.sensors sn).sNonsense with
    | [] => some s
    | id :: _ => (destroyNonsense s id now).bind fun s => destroyEntries n s sn now

def destroySensor (s : SensorStock) (sn : SensorId) (now : Timeval) : Option SensorStock := do
  let polling ← destroyEntries (s.polling.sensors sn).sNonsense.length s.polling sn now
  let s ← delAcquire { s with polling := polling } sn
  some { s with polling := forgetSensor s.polling sn }

/-- The loop of `destroy_sensors_katcp`. -/
def destroySensors : Nat → SensorStock → Timeval → Option SensorStock
  | 0, s, _ => if s.polling.tally = [] then some s else none
  | n + 1, s, now =>
    match s.polling.tally with
    | [] => some s
    | sn :: _ => (destroySensor s sn now).bind fun s => destroySensors n s now

/-- `?sensor destroy` of `sensor_cmd_katcp`. -/
def sensorDestroy (s : SensorStock) (label : Option Text) (now : Timeval) : Option (ResultCode × SensorStock) :=
  match label with
  | none => some (.fail, s)
  | some label =>
    if label = textOf "mode" then some (.fail, s)
    else
      match findSensor s.polling label with
      | none => some (.fail, s)
      | some sn =>
        if (s.polling.sensors sn).sNonsense = [] then (destroySensor s sn now).map fun s => (.ok, s)
        else some (.fail, s)

/-- `?sensor create` of `sensor_cmd_katcp`. -/
def sensorCreate (s : SensorStock) (label type : Option Text) (sn : SensorId) (a : AcquireId) (current : Timeval) :
    Option (ResultCode × SensorStock) :=
  match label, type with
  | some label, some type =>
    match typeCode type with
    | none | some .discrete | some .bigint => some (.fail, s)
    | some code => (registerSensor s sn label code 0 a false current).map fun s => (.ok, s)
  | _, _ => some (.fail, s)

inductive StockAction where
  | poll (action : PollAction)
  | setup (a : AcquireId) (type : SensorType) (get : Bool) (current : Timeval)
  | register (sn : SensorId) (name : Text) (type : SensorType) (mode : Nat) (a : AcquireId) (get : Bool)
      (current : Timeval)
  | registerMulti (sn : SensorId) (name : Text) (type : SensorType) (mode : Nat) (a : AcquireId) (extract : Bool)
  | create (args : Words) (sn : SensorId) (a : AcquireId) (current : Timeval)
  | destroy (args : Words) (now : Timeval)
  | shutdown (now : Timeval)

def stockAction (s : SensorStock) : StockAction → Option SensorStock
  | .poll action => (pollAction s.polling action).map fun polling => { s with polling := polling }
  | .setup a type get current => setupAcquire s a type get current
  | .register sn name type mode a get current => registerSensor s sn name type mode a get current
  | .registerMulti sn name type mode a extract => registerMulti s sn name type mode a extract
  | .create args sn a current => (sensorCreate s (argString args 2) (argString args 3) sn a current).map Prod.snd
  | .destroy args now => (sensorDestroy s (argString args 2) now).map Prod.snd
  | .shutdown now => destroySensors s.polling.tally.length s now

/-- Before any sensor was registered. -/
def noStock : SensorStock where
  polling :=
    { mode := 0
      tally := []
      sensors := fun _ => ⟨[], .integer, 0, 0, []⟩
      acquires := fun _ => newAcquire false .zero
      nonsenses := fun _ => none
      clients := fun _ => []
      timers := noTimers }
  aType := fun _ => none

def stockMachine : Machine SensorStock StockAction Unit := ⟨noStock, stockAction, fun _ _ => []⟩

end

section

open Function SwapVector

variable {p p' : Polling} {sn : SensorId} {name : Text} {type : SensorType} {mode : Nat}

theorem PollLinks.serves (h : PollLinks p) (a : AcquireId) (x : SensorId) :
    x ∈ (p.acquires a).aSensors ↔ x ∈ p.tally ∧ (p.sensors x).sAcquire = a := by
  constructor
  · intro hx
    exact ⟨h.tallied a x hx, h.named a x hx⟩
  · rintro ⟨hx, rfl⟩
    exact h.linked x hx

theorem PollLinks.unlisted (h : PollLinks p) (hsn : sn ∉ p.tally) : (p.sensors sn).sNonsense = [] := by
  refine List.eq_nil_iff_forall_not_mem.mpr fun id hid => hsn ?_
  obtain ⟨ns, hns, rfl⟩ := h.sensed sn id hid
  exact h.tallied _ _ (h.entered id ns hns).2.2

/-- Sensors came or went, but none that has clients. -/
theorem PollLinks.tabled (h : PollLinks p) (hns : p'.nonsenses = p.nonsenses) (hc : p'.clients = p.clients)
    (hsn : ∀ x, (p'.sensors x).sNonsense = (p.sensors x).sNonsense) (hlisted : p'.tally.Nodup)
    (hlinks : ∀ a x, x ∈ (p'.acquires a).aSensors ↔ x ∈ p'.tally ∧ (p'.sensors x).sAcquire = a)
    (honce : ∀ a, (p'.acquires a).aSensors.Nodup) (hkept : ∀ x, (p.sensors x).sNonsense ≠ [] → x ∈ p'.tally) :
    PollLinks p' := by
  refine ⟨⟨?_, ?_, honce, ?_, ?_, ?_, ?_⟩, hlisted, fun a x hx => ((hlinks a x).mp hx).1, hc ▸ h.held, ?_, ?_⟩
  · intro x hx
    exact (hlinks _ x).mpr ⟨hx, rfl⟩
  · intro a x hx
    exact ((hlinks a x).mp hx).2
  · intro x
    rw [hsn]
    exact h.single x
  · intro x id hid
    rw [hsn] at hid
    rw [hns]
    exact h.sensed x id hid
  · rw [hns, hc]
    exact h.owned
  · intro id ns hid
    rw [hns] at hid
    obtain ⟨hin, hown, _⟩ := h.entered id ns hid
    rw [hsn, hc]
    exact ⟨hin, hown, (hlinks _ _).mpr ⟨hkept _ (List.ne_nil_of_mem hin), rfl⟩⟩
  · rw [hns]
    exact h.sole
  · rw [hns]
    exact h.active

/-- A sensor that is in the table, but not linked to an acquire yet. -/
structure Creating (p p' : Polling) (sn : SensorId) : Prop where
  fresh : sn ∉ p.tally
  tally : p'.tally = p.tally ++ [sn]
  others : ∀ x, x ≠ sn → p'.sensors x = p.sensors x
  unused : (p'.sensors sn).sNonsense = []
  nonsenses : p'.nonsenses = p.nonsenses
  clients : p'.clients = p.clients
  served : ∀ b, (p'.acquires b).aSensors = (p.acquires b).aSensors

theorem createSensor_creating (hc : createSensor p sn name type mode = some p') : Creating p p' sn := by
  unfold createSensor at hc
  split at hc
  · cases hc
  next hfresh =>
    cases hc
    exact ⟨hfresh, rfl, fun x hx => update_of_ne hx _ _, by simp, rfl, rfl, fun _ => rfl⟩

theorem Creating.entries (h : Creating p p' sn) (hp : PollLinks p) (x : SensorId) :
    (p'.sensors x).sNonsense = (p.sensors x).sNonsense := by
  by_cases hx : x = sn
  · rw [hx, h.unused, hp.unlisted h.fresh]
  · rw [h.others x hx]

/-- The sensor is linked to some acquire. -/
theorem Creating.linked (h : Creating p p' sn) (hp : PollLinks p) (a : AcquireId) : PollLinks (p'.linked a sn) := by
  have hserved : ∀ b, ((p'.linked a sn).acquires b).aSensors =
      if b = a then (p.acquires b).aSensors ++ [sn] else (p.acquires b).aSensors := by
    intro b
    change (update p'.acquires a _ b).aSensors = _
    rw [update_apply]
    split
    next hb => rw [hb, ← h.served]
    next => exact h.served b
  have hacq : ∀ x, ((p'.linked a sn).sensors x).sAcquire = if x = sn then a else (p.sensors x).sAcquire := by
    intro x
    change (update p'.sensors sn _ x).sAcquire = _
    rw [update_apply]
    split
    · rfl
    next hx => rw [h.others x hx]
  have hunserved : ∀ b, sn ∉ (p.acquires b).aSensors := fun b hsn => h.fresh (hp.tallied b sn hsn)
  refine hp.tabled h.nonsenses h.clients (fun x => ?_) ?_ (fun b x => ?_) (fun b => ?_) fun x hx => ?_
  · change (update p'.sensors sn _ x).sNonsense = _
    rw [← h.entries hp, update_apply]
    split
    next hx =>
      rw [hx]
      rfl
    next => rfl
  · change p'.tally.Nodup
    rw [h.tally]
    exact List.nodup_append_comm.mp (List.nodup_cons.mpr ⟨h.fresh, hp.listed⟩)
  · change _ ↔ x ∈ p'.tally ∧ _
    rw [hserved, hacq, h.tally, List.mem_append, List.mem_singleton]
    have hserves := hp.serves b x
    by_cases hx : x = sn
    · subst hx
      have hunserved := hunserved b
      split
      next hb => simp [hb]
      next hb => simp [hunserved, Ne.symm hb]
    · simp only [hx, or_false, if_false]
      split
      · rw [List.mem_append, List.mem_singleton, or_iff_left hx]
        exact hserves
      · exact hserves
  · rw [hserved]
    split
    · exact List.nodup_append_comm.mp (List.nodup_cons.mpr ⟨hunserved b, hp.once b⟩)
    · exact hp.once b
  · change x ∈ p'.tally
    rw [h.tally]
    refine List.mem_append_left _ ?_
    by_contra hout
    exact hx (hp.unlisted hout)

/-- The sensor is given up, with no acquire to let go of. -/
theorem Creating.forgotten (h : Creating p p' sn) (hp : PollLinks p) : PollLinks (forgetSensor p' sn) := by
  have htally : ∀ x, x ∈ (forgetSensor p' sn).tally ↔ x ∈ p.tally := by
    intro x
    change x ∈ excise sn p'.tally ↔ _
    rw [mem_excise, h.tally, List.mem_append, List.mem_singleton]
    constructor
    · rintro ⟨hx | hx, hne⟩
      · exact hx
      · exact absurd hx hne
    · intro hx
      exact ⟨Or.inl hx, fun he => h.fresh (he ▸ hx)⟩
  refine hp.tabled h.nonsenses h.clients (h.entries hp) ?_ (fun b x => ?_) (fun b => ?_) fun x hx => ?_
  · change (excise sn p'.tally).Nodup
    rw [h.tally]
    exact excise_nodup (List.nodup_append_comm.mp (List.nodup_cons.mpr ⟨h.fresh, hp.listed⟩))
  · rw [htally]
    change x ∈ (p'.acquires b).aSensors ↔ _ ∧ (p'.sensors x).sAcquire = b
    rw [h.served, hp.serves]
    refine and_congr_right fun hx => ?_
    rw [h.others x fun he => h.fresh (he ▸ hx)]
  · change (p'.acquires b).aSensors.Nodup
    rw [h.served]
    exact hp.once b
  · rw [htally]
    by_contra hout
    exact hx (hp.unlisted hout)

end

section

open Function SwapVector

variable {s s' : SensorStock} {p : Polling} {a : AcquireId} {sn : SensorId} {name : Text} {type : SensorType}
  {mode : Nat} {get extract : Bool} {current now : Timeval}

/-- Every sensor of the table has an acquire that is there. -/
structure StockLinks (s : SensorStock) : Prop where
  links : PollLinks s.polling
  typed : ∀ sn ∈ s.polling.tally, (s.aType (s.polling.sensors sn).sAcquire).isSome

theorem StockLinks.vacant (h : StockLinks s) (ha : s.aType a = none) : (s.polling.acquires a).aSensors = [] := by
  refine List.eq_nil_iff_forall_not_mem.mpr fun x hx => ?_
  obtain ⟨hlisted, hacq⟩ := (h.links.serves a x).mp hx
  have htyped := h.typed x hlisted
  rw [hacq, ha] at htyped
  cases htyped

theorem setupAcquire_some (hs : setupAcquire s a type get current = some s') : s.aType a = none ∧
    s' = ⟨s.polling.putAcquire a (newAcquire get current), update s.aType a (some type)⟩ := by
  unfold setupAcquire at hs
  split at hs
  · cases hs
  next hfree => exact ⟨by simpa using hfree, (Option.some.inj hs).symm⟩

theorem setup_served (hvacant : (p.acquires a).aSensors = []) (get : Bool) (current : Timeval) (b : AcquireId) :
    ((p.putAcquire a (newAcquire get current)).acquires b).aSensors = (p.acquires b).aSensors := by
  change (update p.acquires a _ b).aSensors = _
  rw [update_apply]
  split
  next hb => rw [hb, hvacant, newAcquire]
  next => rfl

theorem typed_update {aType : AcquireId → Option SensorType} {b : AcquireId} (hb : (aType b).isSome)
    (type : SensorType) : (update aType a (some type) b).isSome := by
  rw [update_apply]
  split
  · rfl
  · exact hb

theorem setupAcquire_links (h : StockLinks s) (hs : setupAcquire s a type get current = some s') : StockLinks s' := by
  obtain ⟨hfree, rfl⟩ := setupAcquire_some hs
  exact ⟨h.links.frame rfl rfl rfl rfl (setup_served (h.vacant hfree) get current),
    fun sn hsn => typed_update (h.typed sn hsn) type⟩

theorem destroyAcquire_some (hd : destroyAcquire s a = some s') : ∃ acq timers, acq.aSensors = [] ∧
    s' = ⟨{ s.polling.putAcquire a acq with timers := timers }, update s.aType a none⟩ := by
  unfold destroyAcquire at hd
  dsimp only at hd
  split at hd
  · obtain ⟨⟨_, timers⟩, _, he⟩ := Option.map_eq_some_iff.mp hd
    exact ⟨_, timers, rfl, he.symm⟩
  · exact ⟨_, s.polling.timers, rfl, (Option.some.inj hd).symm⟩

theorem destroyAcquire_links (h : StockLinks s) (hunused : (s.polling.acquires a).aSensors = [])
    (hd : destroyAcquire s a = some s') : StockLinks s' := by
  obtain ⟨acq, timers, hacq, rfl⟩ := destroyAcquire_some hd
  refine ⟨h.links.frame rfl rfl rfl rfl fun b => ?_, fun sn hsn => ?_⟩
  · change (update s.polling.acquires a acq b).aSensors = _
    rw [update_apply]
    split
    next hb => rw [hb, hacq, hunused]
    next => rfl
  · change (update s.aType a none (s.polling.sensors sn).sAcquire).isSome
    rw [update_of_ne]
    · exact h.typed sn hsn
    · intro he
      have hsn := (h.links.serves a sn).mpr ⟨hsn, he⟩
      rw [hunused] at hsn
      cases hsn

/-- A sensor that was created is linked to an acquire that is there. -/
theorem Creating.stocked (hc : Creating s.polling p sn) (h : StockLinks s) {aType : AcquireId → Option SensorType}
    (htyped : ∀ b, (s.aType b).isSome → (aType b).isSome) (ha : (aType a).isSome) :
    StockLinks ⟨p.linked a sn, aType⟩ := by
  refine ⟨hc.linked h.links a, fun x hx => ?_⟩
  change (aType (update p.sensors sn { p.sensors sn with sAcquire := a } x).sAcquire).isSome
  rw [update_apply]
  split
  · exact ha
  next hne =>
    have hx : x ∈ p.tally := hx
    rw [hc.tally, List.mem_append, List.mem_singleton, or_iff_left hne] at hx
    rw [hc.others x hne]
    exact htyped _ (h.typed x hx)

/-- A sensor that was created is given up. -/
theorem Creating.dropped (hc : Creating s.polling p sn) (h : StockLinks s) {aType : AcquireId → Option SensorType}
    (htyped : ∀ b, (s.aType b).isSome → (aType b).isSome) : StockLinks ⟨forgetSensor p sn, aType⟩ := by
  refine ⟨hc.forgotten h.links, fun x hx => ?_⟩
  have hx : x ∈ excise sn p.tally := hx
  rw [mem_excise, hc.tally, List.mem_append, List.mem_singleton] at hx
  obtain ⟨hx, hne⟩ := hx
  change (aType (p.sensors x).sAcquire).isSome
  rw [hc.others x hne]
  exact htyped _ (h.typed x (hx.resolve_right hne))

theorem linkAcquire_some {extract : Bool} (hl : linkAcquire s a sn extract = some s') :
    s' = { s with polling := s.polling.linked a sn } := by
  unfold linkAcquire at hl
  split at hl
  · exact (Option.some.inj hl).symm
  · cases hl

theorem registerSensor_links (h : StockLinks s) (hr : registerSensor s sn name type mode a get current = some s') :
    StockLinks s' := by
  obtain ⟨p, hcreate, hr⟩ := Option.bind_eq_some_iff.mp hr
  obtain ⟨s1, hsetup, hr⟩ := Option.bind_eq_some_iff.mp hr
  obtain ⟨hfree, rfl⟩ := setupAcquire_some hsetup
  have hc := createSensor_creating hcreate
  have hserved : ∀ b, ((p.putAcquire a (newAcquire get current)).acquires b).aSensors =
      (s.polling.acquires b).aSensors := fun b =>
    (setup_served ((hc.served a).trans (h.vacant hfree)) get current b).trans (hc.served b)
  have hcreating : Creating s.polling (p.putAcquire a (newAcquire get current)) sn :=
    ⟨hc.fresh, hc.tally, hc.others, hc.unused, hc.nonsenses, hc.clients, hserved⟩
  have htyped : ∀ b, (s.aType b).isSome → (update s.aType a (some type) b).isSome := fun b hb => typed_update hb type
  dsimp only at hr
  split at hr
  next s2 hlink =>
    cases hr
    rw [linkAcquire_some hlink]
    exact hcreating.stocked h htyped (by simp)
  next =>
    refine destroyAcquire_links (hcreating.dropped h htyped) ?_ hr
    exact (hserved a).trans (h.vacant hfree)

theorem registerMulti_links (h : StockLinks s) (hr : registerMulti s sn name type mode a extract = some s') :
    StockLinks s' := by
  unfold registerMulti at hr
  split at hr
  · cases hr
  next ha =>
    obtain ⟨p, hcreate, hr⟩ := Option.map_eq_some_iff.mp hr
    have hc := createSensor_creating hcreate
    split at hr
    next s2 hlink =>
      rw [← hr, linkAcquire_some hlink]
      exact hc.stocked h (fun _ hb => hb) (by simpa [Option.isSome_iff_ne_none] using ha)
    next =>
      rw [← hr]
      exact hc.dropped h fun _ hb => hb

end

end Katcp
