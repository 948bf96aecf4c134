import Katcp.PollTable

namespace Katcp

section

open Function SwapVector

variable {s s' : SensorStock} {p p' : Polling} {a : AcquireId} {sn : SensorId} {now : Timeval}

theorem destroyEntries_links {n : Nat} (h : PollLinks p) (hd : destroyEntries n p sn now = some p') :
    PollLinks p' ∧ SameSensors p p' ∧ (p'.sensors sn).sNonsense = [] := by
  induction n generalizing p with
  | zero =>
    rw [destroyEntries] at hd
    split at hd
    next hnil =>
      cases hd
      exact ⟨h, .refl _, hnil⟩
    next => cases hd
  | succ n ih =>
    rw [destroyEntries] at hd
    split at hd
    next hnil =>
      cases hd
      exact ⟨h, .refl _, hnil⟩
    next =>
      obtain ⟨p1, h1, hd⟩ := Option.bind_eq_some_iff.mp hd
      obtain ⟨hlinks, hsame⟩ := destroyNonsense_links h h1
      obtain ⟨hlinks', hsame', hnil⟩ := ih hlinks hd
      exact ⟨hlinks', hsame.trans hsame', hnil⟩

theorem destroyNonsense_shorter {id : NonsenseId} (h : PollLinks p) (hid : id ∈ (p.sensors sn).sNonsense)
    (hd : destroyNonsense p id now = some p') :
    (p'.sensors sn).sNonsense.length < (p.sensors sn).sNonsense.length := by
  obtain ⟨ns, hns, rfl⟩ := h.sensed sn id hid
  unfold destroyNonsense at hd
  rw [hns] at hd
  obtain ⟨⟨r, p2⟩, hreload, he⟩ := Option.map_eq_some_iff.mp hd
  cases he
  obtain ⟨c, timers, rfl⟩ := reloadSensor_recounted hreload
  have hleft : ((p.unsensed id ns).sensors ns.nSensor).sNonsense = excise id (p.sensors ns.nSensor).sNonsense := by
    simp [Polling.unsensed, Polling.putSensor]
  change ((p.unsensed id ns).sensors ns.nSensor).sNonsense.length < _
  rw [hleft, (excise_perm id _).length_eq]
  exact List.length_filter_lt_length_iff_exists.mpr ⟨id, hid, by simp⟩

/-- The loop of `destroy_sensor_katcp` ends: it takes no more turns than there are entries. -/
theorem destroyEntries_enough {n : Nat} (h : PollLinks p) (hn : (p.sensors sn).sNonsense.length ≤ n) :
    destroyEntries (n + 1) p sn now = destroyEntries n p sn now := by
  induction n generalizing p with
  | zero =>
    have hnil : (p.sensors sn).sNonsense = [] := List.length_eq_zero_iff.mp (Nat.le_zero.mp hn)
    rw [destroyEntries, destroyEntries, hnil]
    rfl
  | succ n ih =>
    rw [destroyEntries, destroyEntries]
    cases hv : (p.sensors sn).sNonsense with
    | nil => rfl
    | cons id ids =>
      dsimp only
      cases h1 : destroyNonsense p id now with
      | none => rfl
      | some p1 =>
        have hid : id ∈ (p.sensors sn).sNonsense := by simp [hv]
        have hshorter := destroyNonsense_shorter h hid h1
        exact ih (destroyNonsense_links h h1).1 (by omega)

/-- A sensor that `del_acquire_katcp` has taken from its acquire. -/
structure Unserved (s s' : SensorStock) (sn : SensorId) : Prop where
  tally : s'.polling.tally = s.polling.tally
  sensors : s'.polling.sensors = s.polling.sensors
  nonsenses : s'.polling.nonsenses = s.polling.nonsenses
  clients : s'.polling.clients = s.polling.clients
  left : (s'.polling.acquireOf sn).aSensors = excise sn (s.polling.acquireOf sn).aSensors
  others : ∀ b, b ≠ (s.polling.sensors sn).sAcquire →
    (s'.polling.acquires b).aSensors = (s.polling.acquires b).aSensors ∧ s'.aType b = s.aType b
  typed : excise sn (s.polling.acquireOf sn).aSensors ≠ [] → s'.aType = s.aType

theorem delAcquire_unserved (hd : delAcquire s sn = some s') : Unserved s s' sn := by
  unfold delAcquire at hd
  dsimp only at hd
  split at hd
  next hnil =>
    obtain ⟨acq, timers, hacq, rfl⟩ := destroyAcquire_some hd
    refine ⟨rfl, rfl, rfl, rfl, ?_, fun b hb => ⟨?_, update_of_ne hb _ _⟩, fun hne => absurd hnil hne⟩
    · change (update (update s.polling.acquires _ _) (s.polling.sensors sn).sAcquire acq
        (s.polling.sensors sn).sAcquire).aSensors = _
      rw [update_self, hacq]
      exact hnil.symm
    · change (update (update s.polling.acquires _ _) (s.polling.sensors sn).sAcquire acq b).aSensors = _
      rw [update_of_ne hb, update_of_ne hb]
  next =>
    cases hd
    refine ⟨rfl, rfl, rfl, rfl, ?_, fun b hb => ⟨?_, rfl⟩, fun _ => rfl⟩
    · change (update s.polling.acquires (s.polling.sensors sn).sAcquire _ (s.polling.sensors sn).sAcquire).aSensors = _
      rw [update_self]
      rfl
    · change (update s.polling.acquires (s.polling.sensors sn).sAcquire _ b).aSensors = _
      rw [update_of_ne hb]

/-- A sensor without clients goes, and with it an acquire that no other sensor has. -/
theorem StockLinks.gone (h : StockLinks s) (hu : Unserved s s' sn) (hnil : (s.polling.sensors sn).sNonsense = []) :
    StockLinks { s' with polling := forgetSensor s'.polling sn } := by
  have htally : ∀ x, x ∈ (forgetSensor s'.polling sn).tally ↔ x ∈ s.polling.tally ∧ x ≠ sn := by
    intro x
    change x ∈ excise sn s'.polling.tally ↔ _
    rw [mem_excise, hu.tally]
  have hserved : ∀ b x, x ∈ (s'.polling.acquires b).aSensors ↔ x ∈ (s.polling.acquires b).aSensors ∧ x ≠ sn := by
    intro b x
    by_cases hb : b = (s.polling.sensors sn).sAcquire
    · have hleft := hu.left
      rw [Polling.acquireOf, hu.sensors, ← hb] at hleft
      rw [hleft, mem_excise, Polling.acquireOf, ← hb]
    · rw [(hu.others b hb).1]
      refine ⟨fun hx => ⟨hx, ?_⟩, And.left⟩
      rintro rfl
      exact hb (h.links.named b x hx).symm
  refine ⟨h.links.tabled hu.nonsenses hu.clients (fun x => ?_) ?_ (fun b x => ?_) (fun b => ?_) fun x hx => ?_,
    fun x hx => ?_⟩
  · change (s'.polling.sensors x).sNonsense = _
    rw [hu.sensors]
  · change (excise sn s'.polling.tally).Nodup
    rw [hu.tally]
    exact excise_nodup h.links.listed
  · rw [htally]
    change x ∈ (s'.polling.acquires b).aSensors ↔ _ ∧ (s'.polling.sensors x).sAcquire = b
    rw [hserved, h.links.serves, hu.sensors]
    exact and_right_comm
  · change (s'.polling.acquires b).aSensors.Nodup
    by_cases hb : b = (s.polling.sensors sn).sAcquire
    · have hleft := hu.left
      rw [Polling.acquireOf, hu.sensors, ← hb] at hleft
      rw [hleft]
      exact excise_nodup (h.links.once _)
    · rw [(hu.others b hb).1]
      exact h.links.once b
  · rw [htally]
    refine ⟨?_, fun he => hx (he ▸ hnil)⟩
    by_contra hout
    exact hx (h.links.unlisted hout)
  · obtain ⟨hlisted, hne⟩ := (htally x).mp hx
    change (s'.aType (s'.polling.sensors x).sAcquire).isSome
    rw [hu.sensors]
    by_cases hb : (s.polling.sensors x).sAcquire = (s.polling.sensors sn).sAcquire
    · -- the acquire stays for the other sensor
      have hx : x ∈ excise sn (s.polling.acquireOf sn).aSensors := by
        rw [mem_excise, Polling.acquireOf, ← hb]
        exact ⟨h.links.linked x hlisted, hne⟩
      rw [hu.typed (List.ne_nil_of_mem hx)]
      exact h.typed x hlisted
    · rw [(hu.others _ hb).2]
      exact h.typed x hlisted

theorem destroySensor_links (h : StockLinks s) (hd : destroySensor s sn now = some s') : StockLinks s' := by
  obtain ⟨p, hentries, hd⟩ := Option.bind_eq_some_iff.mp hd
  obtain ⟨s1, hdel, hd⟩ := Option.bind_eq_some_iff.mp hd
  cases hd
  obtain ⟨hlinks, hsame, hnil⟩ := destroyEntries_links h.links hentries
  have hstart : StockLinks { s with polling := p } := by
    refine ⟨hlinks, fun x hx => ?_⟩
    have hx : x ∈ p.tally := hx
    rw [hsame.tally] at hx
    change (s.aType (p.sensors x).sAcquire).isSome
    rw [hsame.sensor]
    exact h.typed x hx
  exact hstart.gone (delAcquire_unserved hdel) hnil

theorem destroySensors_links {n : Nat} (h : StockLinks s) (hd : destroySensors n s now = some s') : StockLinks s' := by
  induction n generalizing s with
  | zero =>
    rw [destroySensors] at hd
    split at hd
    · cases hd
      exact h
    · cases hd
  | succ n ih =>
    rw [destroySensors] at hd
    split at hd
    · cases hd
      exact h
    · obtain ⟨s1, h1, hd⟩ := Option.bind_eq_some_iff.mp hd
      exact ih (destroySensor_links h h1) hd

end

section

variable {s s' : SensorStock} {log : List Unit}

/-- Each entry is in the list of its client and in that of its sensor, which hold nothing else,
a client has one entry for a sensor, which is in use, and the acquire of a sensor has it once. -/
structure SensorLinks (s : SensorStock) : Prop where
  owned : ∀ d id, id ∈ s.polling.clients d ↔ ∃ ns, s.polling.nonsenses id = some ns ∧ ns.nClient = d
  sensed : ∀ sn id, id ∈ (s.polling.sensors sn).sNonsense ↔ ∃ ns, s.polling.nonsenses id = some ns ∧ ns.nSensor = sn
  once : (∀ d, (s.polling.clients d).Nodup) ∧ ∀ sn, (s.polling.sensors sn).sNonsense.Nodup
  single : ∀ d id id' ns ns', id ∈ s.polling.clients d → id' ∈ s.polling.clients d →
    s.polling.nonsenses id = some ns → s.polling.nonsenses id' = some ns' → ns'.nSensor = ns.nSensor → id' = id
  active : ∀ id ns, s.polling.nonsenses id = some ns → ns.nStrategy ≠ .off ∧ ns.nSensor ∈ s.polling.tally
  acquired : ∀ sn ∈ s.polling.tally, (s.aType (s.polling.sensors sn).sAcquire).isSome ∧
    (s.polling.acquireOf sn).aSensors.count sn = 1
  listed : s.polling.tally.Nodup

theorem StockLinks.sensorLinks (h : StockLinks s) : SensorLinks s := by
  have hw := h.links
  have howned : ∀ d id, id ∈ s.polling.clients d ↔ ∃ ns, s.polling.nonsenses id = some ns ∧ ns.nClient = d := by
    refine fun d id => ⟨hw.owned d id, ?_⟩
    rintro ⟨ns, hns, rfl⟩
    exact (hw.entered id ns hns).2.1
  refine ⟨howned, fun sn id => ⟨hw.sensed sn id, ?_⟩, ⟨hw.held, hw.single⟩, ?_, fun id ns hns => ?_,
    fun sn hsn => ⟨h.typed sn hsn, ?_⟩, hw.listed⟩
  · rintro ⟨ns, hns, rfl⟩
    exact (hw.entered id ns hns).1
  · intro d id id' ns ns' hid hid' hns hns' hsame
    obtain ⟨ms, hms, hd⟩ := (howned d id).mp hid
    obtain ⟨ms', hms', hd'⟩ := (howned d id').mp hid'
    rw [hns] at hms
    rw [hns'] at hms'
    cases hms
    cases hms'
    exact hw.sole id id' ns ns' hns hns' (hd'.trans hd.symm) hsame
  · exact ⟨hw.active id ns hns, hw.tallied _ _ (hw.entered id ns hns).2.2⟩
  · exact List.count_eq_one_of_mem (hw.once _) (hw.linked sn hsn)

theorem noStock_links : StockLinks noStock := by
  refine ⟨⟨⟨?_, ?_, fun _ => List.nodup_nil, fun _ => List.nodup_nil, ?_, ?_, ?_⟩, List.nodup_nil, ?_,
    fun _ => List.nodup_nil, ?_, ?_⟩, ?_⟩
  · intro sn hsn
    cases hsn
  · intro a sn hsn
    cases hsn
  · intro sn id hid
    cases hid
  · intro d id hid
    cases hid
  · intro id ns hns
    cases hns
  · intro a sn hsn
    cases hsn
  · intro k k' ms ms' hms
    cases hms
  · intro k ms hms
    cases hms
  · intro sn hsn
    cases hsn

/-- The first request of a client for a sensor lacks the argument of its strategy. -/
def RefusedFirst (s : SensorStock) : StockAction → Prop
  | .poll action => FirstRefused s.polling action
  | _ => False

theorem stock_keeps : stockMachine.Keeps (fun s action => ¬ RefusedFirst s action) fun s _ => StockLinks s := by
  intro s log action s' h hok hstep
  change stockAction s action = some s' at hstep
  cases action with
  | poll action =>
    obtain ⟨p, hpoll, rfl⟩ := Option.map_eq_some_iff.mp hstep
    obtain ⟨hlinks, hsame⟩ := pollAction_links h.links hok hpoll
    refine ⟨hlinks, fun sn hsn => ?_⟩
    have hsn : sn ∈ p.tally := hsn
    rw [hsame.tally] at hsn
    change (s.aType (p.sensors sn).sAcquire).isSome
    rw [hsame.sensor]
    exact h.typed sn hsn
  | setup a type get current => exact setupAcquire_links h hstep
  | register sn name type mode a get current => exact registerSensor_links h hstep
  | registerMulti sn name type mode a extract => exact registerMulti_links h hstep
  | create args sn a current =>
    obtain ⟨⟨code, s1⟩, hcmd, rfl⟩ := Option.map_eq_some_iff.mp hstep
    unfold sensorCreate at hcmd
    split at hcmd
    · split at hcmd
      · cases hcmd
        exact h
      · cases hcmd
        exact h
      · cases hcmd
        exact h
      · obtain ⟨s2, hregister, he⟩ := Option.map_eq_some_iff.mp hcmd
        cases he
        exact registerSensor_links h hregister
    · cases hcmd
      exact h
  | destroy args now =>
    obtain ⟨⟨code, s1⟩, hcmd, rfl⟩ := Option.map_eq_some_iff.mp hstep
    unfold sensorDestroy at hcmd
    split at hcmd
    · cases hcmd
      exact h
    split at hcmd
    · cases hcmd
      exact h
    split at hcmd
    · cases hcmd
      exact h
    split at hcmd
    · obtain ⟨s2, hdestroy, he⟩ := Option.map_eq_some_iff.mp hcmd
      cases he
      exact destroySensor_links h hdestroy
    · cases hcmd
      exact h
  | shutdown now => exact destroySensors_links h hstep

/-- Where no client's first request for a sensor lacks its extra argument, the links between
clients, sensors and acquires are in order in every state. -/
theorem sensors_linked (h : stockMachine.Runs (fun s action => ¬ RefusedFirst s action) s log) : SensorLinks s :=
  (h.invariant (fun s _ => StockLinks s) noStock_links stock_keeps).sensorLinks

/-- A sensor `s` of integers with an acquire of its own. -/
def registerOnly : StockAction := .register 0 (textOf "s") .integer 0 0 true .zero

theorem sensors_linked_period : ∃ s, SensorLinks s ∧ s.polling.clients 0 = [0] := by
  refine ⟨_, sensors_linked (Machine.Runs.exec (.start (m := stockMachine)) [registerOnly,
    .poll (onlyRequest [textOf "period", textOf "2"] 0)] rfl ⟨id, fun s hs => ⟨?_, fun _ _ => trivial⟩⟩), rfl⟩
  cases hs
  rintro ⟨sn, asked, extra, hasked, _, hlacks, _⟩
  cases hasked
  cases hlacks

/-- A first request without the period that its strategy needs leaves an entry that is switched
off. -/
theorem refused_stays_linked : ¬ ∀ (s : SensorStock) (log : List Unit),
    stockMachine.Runs (fun _ _ => True) s log → SensorLinks s := by
  intro hall
  have h := hall _ _ (Machine.Runs.exec (.start (m := stockMachine)) [registerOnly,
    .poll (onlyRequest [textOf "period"] 0)] rfl (Machine.meets_true _ _ _))
  exact (h.active 0 ⟨0, 0, .off, .zero⟩ rfl).1 rfl

end

end Katcp
