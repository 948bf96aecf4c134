import Katcp.PollLinks

namespace Katcp

section

open Function

variable {s s' : Polling} {a : AcquireId} {d : DispatchId} {sn : SensorId} {now after : Timeval}

/-- What a request for a strategy has to meet. -/
def PollsApart (s : Polling) : PollAction → Prop
  | .sampling d args _ _ => ∀ sn asked extra, samplingAsked s args = .ok (sn, asked, extra) →
      Configures s d sn (asked.getD .event) extra
  | _ => True

/-- An acquire is polled as its clients need it. -/
structure Scheduled (s : Polling) (a : AcquireId) : Prop where
  listed : ∀ id, id ∈ subscribers s a ↔ ∃ d ns, id ∈ s.clients d ∧ s.nonsenses id = some ns ∧
    (s.sensors ns.nSensor).sAcquire = a ∧ ns.nStrategy ≠ .off
  once : (subscribers s a).Nodup
  users : (s.acquires a).aUsers = (subscribers s a).length
  periodics : (s.acquires a).aPeriodics = (periods s a).length
  armed : (∃ k tv, pending s.timers k = some (a, tv)) ↔ periods s a ≠ []
  interval : ∀ k tv, pending s.timers k = some (a, tv) → Least tv (periods s a)
  single : ∀ k k' tv tv', pending s.timers k = some (a, tv) → pending s.timers k' = some (a, tv') → k' = k

theorem PollInv.armed (h : PollInv s) {k : TimerId} {tv : Timeval} (hk : pending s.timers k = some (a, tv)) :
    0 < (s.acquires a).aPeriodics ∧ tv = (s.acquires a).aCurrent := by
  have hpos : 0 < (s.acquires a).aPeriodics := by
    by_contra hz
    exact silent_iff.mp ((h.fits a).idle (by omega)) k tv hk
  refine ⟨hpos, ?_⟩
  have hsole := (h.fits a).polled hpos
  obtain ⟨k0, hk0⟩ := hsole.pends
  have he := hsole.single k0 k _ tv hk0 hk
  rw [he, hk0] at hk
  cases hk
  rfl

theorem PollInv.scheduled (h : PollInv s) (a : AcquireId) : Scheduled s a := by
  have hcounts := h.counts a
  have hpos : 0 < (s.acquires a).aPeriodics ↔ periods s a ≠ [] := by
    rw [hcounts.periodics]
    exact List.length_pos_iff
  refine ⟨fun id => ?_, h.subscribers_nodup a, hcounts.users, hcounts.periodics, ⟨?_, ?_⟩, ?_, ?_⟩
  · rw [h.mem_subscribers]
    constructor
    · rintro ⟨ns, hns, ha⟩
      exact ⟨ns.nClient, ns, (h.entered id ns hns).2.1, hns, ha, h.active id ns hns⟩
    · rintro ⟨d, ns, _, hns, ha, _⟩
      exact ⟨ns, hns, ha⟩
  · rintro ⟨k, tv, hk⟩
    exact hpos.mp (h.armed hk).1
  · intro hne
    obtain ⟨k, hk⟩ := ((h.fits a).polled (hpos.mpr hne)).pends
    exact ⟨k, _, hk⟩
  · intro k tv hk
    obtain ⟨hp, rfl⟩ := h.armed hk
    exact hcounts.current (hpos.mp hp)
  · intro k k' tv tv' hk hk'
    have hsole := (h.fits a).polled (h.armed hk).1
    exact hsole.single k k' tv tv' ((h.armed hk).2 ▸ hk) hk'

theorem runAcquire_frame (h : PollInv s) (a : AcquireId) (now : Timeval) :
    PollInv (runAcquire s a now) ∧ (runAcquire s a now).timers = s.timers := by
  unfold runAcquire
  dsimp only
  split
  · exact ⟨h, rfl⟩
  · refine ⟨h.frame rfl rfl rfl rfl (fun b => ?_) h.kept (fun b => unmoved_refl _ b), rfl⟩
    by_cases hb : b = a
    · subst hb
      exact ⟨now, by simp [Polling.putAcquire]⟩
    · exact ⟨_, by simp [Polling.putAcquire, hb]; rfl⟩

/-- A strategy that is never polled needs neither an extra argument nor a timer. -/
theorem configures_unpolled {strategy : Strategy} {extra : Option Text}
    (h : strategy = .forced ∨ strategy = .off) : Configures s d sn strategy extra := by
  unfold Configures TimerStarts
  rcases h with rfl | rfl
  · rw [if_neg (by simp [lacksExtra])]
    intro hneeds
    cases hneeds
  · rw [if_neg (by simp [lacksExtra])]
    intro hneeds
    cases hneeds

theorem reloadSensor_tally {r : Int} (h : reloadSensor s sn now = some (r, s')) : s'.tally = s.tally := by
  unfold reloadSensor scheduleAcquire at h
  dsimp only at h
  split at h
  · cases h
  split at h
  · split at h
    · obtain ⟨_, _, he⟩ := Option.map_eq_some_iff.mp h
      cases he
      rfl
    · cases h
      rfl
  · split at h
    · cases h
    · obtain ⟨_, _, he⟩ := Option.map_eq_some_iff.mp h
      cases he
      rfl
    · obtain ⟨_, _, he⟩ := Option.map_eq_some_iff.mp h
      cases he
      rfl

theorem configureSensor_tally {asked : Option Strategy} {extra : Option Text} {fresh : NonsenseId} {r : Int}
    (h : configureSensor s d sn asked extra fresh now = some (r, s')) : s'.tally = s.tally := by
  have henter : ∀ {s1 : Polling} {id : NonsenseId} {strategy : Strategy}, s1.tally = s.tally →
      enterStrategy s1 id sn strategy extra now = some (r, s') → s'.tally = s.tally := by
    intro s1 id strategy ht he
    unfold enterStrategy at he
    split at he
    · cases he
    split at he
    · cases he
      exact ht
    · exact (reloadSensor_tally he).trans ht
  unfold configureSensor at h
  dsimp only at h
  split at h
  · cases h
  · split at h
    · cases h
      rfl
    · obtain ⟨s1, hcreate, h⟩ := Option.bind_eq_some_iff.mp h
      obtain ⟨_, ns, _, rfl⟩ := createNonsense_entered hcreate
      exact @henter (s.entered fresh ns) _ _ rfl h
  · split at h
    · cases h
      rfl
    split at h
    · obtain ⟨s1, hd, he⟩ := Option.map_eq_some_iff.mp h
      cases he
      unfold destroyNonsense at hd
      split at hd
      · cases hd
      · obtain ⟨⟨r1, s2⟩, hreload, he⟩ := Option.map_eq_some_iff.mp hd
        cases he
        have ht := reloadSensor_tally hreload
        exact ht
    · exact henter rfl h

theorem forceAcquire_inv {fresh : NonsenseId} (h : PollInv s) (hsn : sn ∈ s.tally)
    (hf : forceAcquire s d sn fresh now = some s') : PollInv s' ∧ s'.tally = s.tally := by
  have hrun : ∀ {s1 : Polling} (a : AcquireId), (runAcquire s1 a now).tally = s1.tally := by
    intro s1 a
    unfold runAcquire
    dsimp only
    split <;> rfl
  unfold forceAcquire at hf
  split at hf
  · cases hf
  · cases hf
    exact ⟨(runAcquire_frame h _ now).1, hrun _⟩
  · obtain ⟨⟨r, s1⟩, hforced, hf⟩ := Option.bind_eq_some_iff.mp hf
    have h1 := configureSensor_inv h (h.linked sn hsn) (configures_unpolled (Or.inl rfl)) hforced
    have ht1 := configureSensor_tally hforced
    dsimp only at hf
    split at hf
    · cases hf
      exact ⟨h1, ht1⟩
    · obtain ⟨⟨r2, s2⟩, hoff, he⟩ := Option.map_eq_some_iff.mp hf
      cases he
      have h2 := (runAcquire_frame h1 (s1.sensors sn).sAcquire now).1
      have ht2 : (runAcquire s1 (s1.sensors sn).sAcquire now).tally = s.tally := (hrun _).trans ht1
      refine ⟨configureSensor_inv h2 (h2.linked sn (ht2 ▸ hsn)) (configures_unpolled (Or.inr rfl)) hoff, ?_⟩
      exact (configureSensor_tally hoff).trans ht2

theorem forceSensors_inv {fresh : SensorId → NonsenseId} {sns : List SensorId} (h : PollInv s)
    (hsns : ∀ sn ∈ sns, sn ∈ s.tally) (hf : forceSensors d fresh now sns s = some s') : PollInv s' := by
  induction sns generalizing s with
  | nil =>
    cases hf
    exact h
  | cons sn sns ih =>
    obtain ⟨s1, h1, hf⟩ := Option.bind_eq_some_iff.mp hf
    obtain ⟨hinv, ht⟩ := forceAcquire_inv h (hsns sn List.mem_cons_self) h1
    exact ih hinv (fun x hx => ht ▸ hsns x (List.mem_cons_of_mem sn hx)) hf

theorem destroyNonsensors_inv {n : Nat} (h : PollInv s) (hd : destroyNonsensors n s d now = some s') :
    PollInv s' ∧ s'.clients d = [] := by
  induction n generalizing s with
  | zero =>
    rw [destroyNonsensors] at hd
    split at hd
    next hnil =>
      cases hd
      exact ⟨h, hnil⟩
    next => cases hd
  | succ n ih =>
    rw [destroyNonsensors] at hd
    split at hd
    next hnil =>
      cases hd
      exact ⟨h, hnil⟩
    next =>
      obtain ⟨s1, h1, hd⟩ := Option.bind_eq_some_iff.mp hd
      exact ih (destroyNonsense_inv h h1) hd

theorem samplingAsked_tally {args : Words} {asked : Option Strategy} {extra : Option Text}
    (h : samplingAsked s args = .ok (sn, asked, extra)) : sn ∈ s.tally := by
  unfold samplingAsked at h
  split at h
  · cases h
  split at h
  · cases h
  split at h
  · cases h
  next sn' hfind =>
    have hmem := List.mem_of_find?_eq_some hfind
    split at h
    · cases h
    split at h
    · cases h
      exact hmem
    split at h
    · cases h
    · cases h
      exact hmem

theorem runPolling_inv (h : PollInv s) (hr : runPolling s now after = some s') : PollInv s' := by
  unfold runPolling at hr
  split at hr
  · cases hr
  next r timers hs =>
    cases hr
    obtain ⟨hk, hp⟩ := pending_idle h.kept hs
    exact h.frame rfl rfl rfl rfl (fun b => ⟨_, rfl⟩) hk (unmoved_fades hp (startPass_idle_fades hs))
  next k timers hs =>
    obtain ⟨hk, hp, htop, t, ht, hpend⟩ := pending_fires h.kept hs
    obtain ⟨hfades, _⟩ := startPass_fires_top hs
    obtain ⟨t', ht', hr⟩ := Option.bind_eq_some_iff.mp hr
    obtain ⟨⟨r, timers2⟩, hfin, hr⟩ := Option.bind_eq_some_iff.mp hr
    cases hr
    rw [ht] at ht'
    cases ht'
    have hstart : PollInv { s with timers := timers } :=
      h.frame rfl rfl rfl rfl (fun b => ⟨_, rfl⟩) hk (unmoved_fades hp hfades)
    obtain ⟨hacq, htimers⟩ := runAcquire_frame hstart t.tData now
    rw [htimers] at hfin
    -- the interval is the period of some client, which is not zero
    have hz : t.tInterval ≠ .zero := by
      obtain ⟨hpos, hcur⟩ := h.armed hpend
      have hne : periods s t.tData ≠ [] := by
        rw [(h.counts t.tData).periodics] at hpos
        exact List.length_pos_iff.mp hpos
      obtain ⟨hmem, _⟩ := (h.counts t.tData).current hne
      obtain ⟨id, hid, hperiod⟩ := List.mem_filterMap.mp hmem
      obtain ⟨ns, hns, ha⟩ := h.mem_subscribers.mp hid
      rw [pollPeriod, hns, Option.bind_some] at hperiod
      split at hperiod
      next hneeds =>
        rw [hcur, ← Option.some.inj hperiod]
        exact h.nonzero id ns hns (by rw [Polling.acquireOf, ha]; exact hneeds)
      next => cases hperiod
    obtain ⟨hk2, hp2⟩ := pending_finish hk htop ht hz hfin
    refine hacq.frame rfl rfl rfl rfl (fun b => ⟨_, rfl⟩) hk2 ?_
    rw [htimers]
    exact unmoved_fades hp2 (finishPass_fades (List.mem_of_head? htop) hfin)

theorem noPolling_inv (reg : Sensors) : PollInv (noPolling reg) := by
  have hsub : ∀ a, subscribers (noPolling reg) a = [] := by
    intro a
    simp [subscribers, noPolling]
  have hper : ∀ a, periods (noPolling reg) a = [] := by
    intro a
    rw [periods, hsub]
    rfl
  refine ⟨⟨reg.linked, reg.named, reg.once, fun _ => List.nodup_nil, ?_, ?_, ?_⟩, noTimers_kept, ?_, ?_, ?_, ?_⟩
  · intro sn id hid
    cases hid
  · intro d id hid
    cases hid
  · intro id ns hns
    cases hns
  · intro a
    exact ⟨fun hpos => absurd hpos (by simp [noPolling]), fun _ => silent_iff.mpr fun k tv hk => by
      simp [noPolling, pending_noTimers] at hk⟩
  · intro a
    exact ⟨by rw [hsub]; rfl, by rw [hper]; rfl, fun hne => absurd (hper a) hne⟩
  · intro id ns hns
    cases hns
  · intro id ns hns
    cases hns

theorem polling_keeps (reg : Sensors) : (pollingMachine reg).Keeps PollsApart fun s _ => PollInv s := by
  intro s log action s' h hok hstep
  change pollAction s action = some s' at hstep
  cases action with
  | sampling d args fresh now =>
    obtain ⟨⟨code, s1⟩, hcmd, rfl⟩ := Option.map_eq_some_iff.mp hstep
    unfold sensorSamplingCmd at hcmd
    split at hcmd
    · cases hcmd
      exact h
    next sn asked extra hasked =>
      obtain ⟨⟨r, s2⟩, hconf, he⟩ := Option.map_eq_some_iff.mp hcmd
      cases he
      exact configureSensor_inv h (h.linked sn (samplingAsked_tally hasked)) (hok sn asked extra hasked) hconf
  | value d args fresh now =>
    obtain ⟨⟨code, s1⟩, hcmd, rfl⟩ := Option.map_eq_some_iff.mp hstep
    obtain ⟨s2, hforce, he⟩ := Option.map_eq_some_iff.mp hcmd
    cases he
    exact forceSensors_inv h (fun sn hsn => (List.mem_filter.mp hsn).1) hforce
  | disconnect d now => exact (destroyNonsensors_inv h hstep).1
  | changeMode mode =>
    cases hstep
    exact h.frame rfl rfl rfl rfl (fun b => ⟨_, rfl⟩) h.kept (fun b => unmoved_refl _ b)
  | load now =>
    obtain ⟨⟨r, wait, timers⟩, hload, rfl⟩ := Option.map_eq_some_iff.mp hstep
    obtain ⟨hk, hp⟩ := pending_load h.kept hload
    exact h.frame rfl rfl rfl rfl (fun b => ⟨_, rfl⟩) hk (unmoved_fades hp (loadHeapTimers_fades hload))
  | run now after => exact runPolling_inv h hstep

/-- Where polling never begins over the timer of an earlier time and no request is refused
that made an entry, every acquire is scheduled for its clients in every state. -/
theorem polling_scheduled {reg : Sensors} {s : Polling} {log : List Unit}
    (h : (pollingMachine reg).Runs PollsApart s log) (a : AcquireId) : Scheduled s a :=
  (h.invariant (fun s _ => PollInv s) (noPolling_inv reg) (polling_keeps reg)).scheduled a

/-- One sensor with a function to get its value. -/
def onlySensor : Sensors where
  tally := [0]
  sensors := fun sn => ⟨textOf "s", .integer, 0, sn, []⟩
  acquires := fun a => ⟨[a], true, 0, 0, ⟨1, 0⟩, .zero, ⟨0, 250000⟩, .zero⟩
  linked := fun _ _ => List.mem_singleton.mpr rfl
  named := fun _ _ h => List.mem_singleton.mp h
  once := fun _ => List.nodup_singleton _

/-- A request about the sensor by the first client, at the time zero. -/
def onlyRequest (words : Words) (fresh : NonsenseId) : PollAction :=
  .sampling 0 (textOf "?sensor-sampling" :: textOf "s" :: words) fresh .zero

theorem polling_scheduled_period : ∃ s, Scheduled s 0 ∧ (s.acquires 0).aUsers = 1 := by
  refine ⟨_, polling_scheduled (Machine.Runs.exec (.start (m := pollingMachine onlySensor))
    [onlyRequest [textOf "period", textOf "2"] 0] rfl ⟨fun sn asked extra h => ?_, fun _ _ => trivial⟩) 0, rfl⟩
  cases h
  refine fun _ => ⟨fun _ k hk => ?_, Or.inr ⟨rfl, by decide⟩⟩
  cases hk

/-- A client that stops and asks again before the heap let go of the timer of before: the
timer stays disarmed. -/
theorem polling_finds_disarmed : ¬ ∀ (reg : Sensors) (s : Polling) (log : List Unit) (a : AcquireId),
    (pollingMachine reg).Runs (fun _ _ => True) s log → Scheduled s a := by
  intro hall
  have h := hall onlySensor _ _ 0 (Machine.Runs.exec (.start (m := pollingMachine onlySensor))
    [onlyRequest [textOf "period", textOf "2"] 0, onlyRequest [textOf "none"] 1,
      onlyRequest [textOf "period", textOf "2"] 2] rfl (Machine.meets_true _ _ _))
  obtain ⟨k, tv, hk⟩ := h.armed.mpr (by decide)
  obtain ⟨hmem, t, ht, harm, _⟩ := pending_some.mp hk
  cases List.mem_singleton.mp hmem
  cases ht
  cases harm

/-- A request that is refused for its extra argument leaves the client with an entry that is
switched off, and the numbers of the acquire as they were. -/
theorem refused_leaves_entry {asked : Option Strategy} {extra : Option Text} {fresh : NonsenseId}
    (hf : findNonsense s (s.sensors sn).sName (s.clients d) = some none) (hfree : s.nonsenses fresh = none)
    (hoff : asked.getD .event ≠ .off) (hextra : lacksExtra (s.sensors sn).sType (asked.getD .event) extra = true) :
    configureSensor s d sn asked extra fresh now =
      some (-1, s.entered fresh ⟨d, sn, .off, (s.acquireOf sn).aCurrent⟩) := by
  have hcreate : createNonsense s d sn fresh =
      some (s.entered fresh ⟨d, sn, .off, (s.acquireOf sn).aCurrent⟩) := by
    unfold createNonsense
    rw [if_neg (by simp [hfree])]
    rfl
  unfold configureSensor
  dsimp only
  rw [hf]
  dsimp only
  rw [if_neg hoff, hcreate, Option.bind_some]
  unfold enterStrategy
  rw [entered_nonsense, if_pos rfl]
  dsimp only
  rw [entered_type, if_pos hextra]

end

section

open Function

variable {s s' : Polling} {a : AcquireId} {d : DispatchId} {sn : SensorId} {id fresh : NonsenseId}
  {ns : KatcpNonsense} {now after : Timeval} {strategy : Strategy} {extra : Option Text} {r : Int}

theorem findNonsense_none {name : Text} {ids : List NonsenseId} (h : findNonsense s name ids = some none)
    {k : NonsenseId} {ms : KatcpNonsense} (hk : k ∈ ids) (hms : s.nonsenses k = some ms) :
    ¬ ((s.sensors ms.nSensor).sName = name ∧ inMode s ms.nSensor = true) := by
  induction ids with
  | nil => cases hk
  | cons id ids ih =>
    rw [findNonsense] at h
    split at h
    · cases h
    next ns hns =>
      split at h
      · cases h
      next hother =>
        rcases List.mem_cons.mp hk with rfl | hk
        · rw [hns] at hms
          cases hms
          simpa using hother
        · exact ih h hk

/-- The entry that a client gets together with its first strategy. -/
theorem entered_strategic (s : Polling) (id : NonsenseId) (ns : KatcpNonsense) (strategy : Strategy)
    (period : Timeval) : (s.entered id ns).strategic id ns strategy period =
      s.entered id { ns with nStrategy := strategy, nPeriod := period } := by
  have h : update (update s.nonsenses id (some ns)) id (some { ns with nStrategy := strategy, nPeriod := period }) =
      update s.nonsenses id (some { ns with nStrategy := strategy, nPeriod := period }) := update_idem ..
  simp only [Polling.strategic, Polling.entered, Polling.putNonsense, Polling.putSensor, Polling.putClient, h]

theorem sameSensors_entered (s : Polling) (id : NonsenseId) (ns : KatcpNonsense) :
    SameSensors s (s.entered id ns) := by
  refine ⟨rfl, rfl, fun sn => ?_⟩
  rw [entered_sensor]
  split
  next he => rw [he]
  next => rfl

/-- A client that is there takes up another strategy or, where that lacks its extra argument,
keeps the one it has. -/
theorem enterStrategy_links (h : PollLinks s) (hns : s.nonsenses id = some ns) (hoff : strategy ≠ .off)
    (he : enterStrategy s id sn strategy extra now = some (r, s')) : PollLinks s' ∧ SameSensors s s' := by
  unfold enterStrategy at he
  rw [hns] at he
  dsimp only at he
  split at he
  · cases he
    exact ⟨h, .refl _⟩
  · obtain ⟨hlinks, hsame⟩ := (h.strategic hns hoff (periodFor (s.acquireOf sn) strategy extra ns.nPeriod)).reloaded he
    exact ⟨hlinks, hsame.mode, hsame.tally, hsame.sensor⟩

/-- A client that is new to a sensor takes up its first strategy. -/
theorem enterStrategy_new (h : PollLinks s) (hsn : sn ∈ s.tally) (hmode : inMode s sn = true)
    (hf : findNonsense s (s.sensors sn).sName (s.clients d) = some none) (hoff : strategy ≠ .off)
    (hextra : lacksExtra (s.sensors sn).sType strategy extra = false)
    (hc : (createNonsense s d sn fresh).bind (fun s => enterStrategy s fresh sn strategy extra now) = some (r, s')) :
    PollLinks s' ∧ SameSensors s s' := by
  obtain ⟨s1, hcreate, hc⟩ := Option.bind_eq_some_iff.mp hc
  unfold createNonsense at hcreate
  generalize (s.acquireOf sn).aCurrent = current at hcreate
  split at hcreate
  · cases hcreate
  next hfree =>
    obtain rfl : s.entered fresh ⟨d, sn, .off, current⟩ = s1 := Option.some.inj hcreate
    unfold enterStrategy at hc
    rw [entered_nonsense, if_pos rfl] at hc
    dsimp only at hc
    rw [entered_type, hextra] at hc
    generalize periodFor _ strategy extra current = period at hc
    have hc : reloadSensor ((s.entered fresh ⟨d, sn, .off, current⟩).strategic fresh ⟨d, sn, .off, current⟩ strategy
      period) sn now = some (r, s') := hc
    rw [entered_strategic] at hc
    have hnew : ∀ k ms, s.nonsenses k = some ms → ms.nClient = d → ms.nSensor ≠ sn := by
      rintro k ms hms rfl rfl
      exact findNonsense_none hf (h.entered k ms hms).2.1 hms ⟨rfl, hmode⟩
    have hentered : PollLinks (s.entered fresh ⟨d, sn, strategy, period⟩) :=
      h.enter (by simpa using hfree) hsn hnew hoff
    obtain ⟨hlinks, hsame⟩ := hentered.reloaded hc
    exact ⟨hlinks, (sameSensors_entered s fresh _).trans hsame⟩

/-- A request for a strategy leaves nothing switched off behind, unless it is the first of its
client for the sensor and lacks its extra argument. -/
theorem configureSensor_links {asked : Option Strategy} (h : PollLinks s) (hsn : sn ∈ s.tally)
    (hmode : inMode s sn = true)
    (hok : asked.getD .event ≠ .off → lacksExtra (s.sensors sn).sType (asked.getD .event) extra = true →
      findNonsense s (s.sensors sn).sName (s.clients d) ≠ some none)
    (hc : configureSensor s d sn asked extra fresh now = some (r, s')) : PollLinks s' ∧ SameSensors s s' := by
  unfold configureSensor at hc
  dsimp only at hc
  generalize asked.getD .event = strategy at hok hc
  split at hc
  · cases hc
  next hf =>
    split at hc
    · cases hc
      exact ⟨h, .refl _⟩
    next hoff =>
      have hextra : lacksExtra (s.sensors sn).sType strategy extra = false := by
        by_contra hlacks
        exact hok hoff (by simpa using hlacks) hf
      exact enterStrategy_new h hsn hmode hf hoff hextra hc
  next id hf =>
    split at hc
    · cases hc
      exact ⟨h, .refl _⟩
    next hsame =>
      obtain ⟨ns, hns, _⟩ := Option.map_eq_some_iff.mp (not_not.mp hsame)
      split at hc
      · obtain ⟨s1, hd, he⟩ := Option.map_eq_some_iff.mp hc
        cases he
        exact destroyNonsense_links h hd
      next hoff => exact enterStrategy_links h hns hoff hc

theorem runAcquire_links (h : PollLinks s) (a : AcquireId) (now : Timeval) :
    PollLinks (runAcquire s a now) ∧ SameSensors s (runAcquire s a now) := by
  unfold runAcquire
  dsimp only
  split
  · exact ⟨h, .refl _⟩
  · refine ⟨h.frame rfl rfl rfl rfl fun b => ?_, rfl, rfl, fun _ => rfl⟩
    by_cases hb : b = a
    · subst hb
      simp [Polling.putAcquire]
    · simp [Polling.putAcquire, hb]

theorem forceAcquire_links (h : PollLinks s) (hsn : sn ∈ s.tally) (hmode : inMode s sn = true)
    (hf : forceAcquire s d sn fresh now = some s') : PollLinks s' ∧ SameSensors s s' := by
  unfold forceAcquire at hf
  split at hf
  · cases hf
  · cases hf
    exact runAcquire_links h _ now
  · obtain ⟨⟨r, s1⟩, hforced, hf⟩ := Option.bind_eq_some_iff.mp hf
    obtain ⟨h1, hsame⟩ := configureSensor_links h hsn hmode (by simp [lacksExtra]) hforced
    dsimp only at hf
    split at hf
    · cases hf
      exact ⟨h1, hsame⟩
    · obtain ⟨⟨r2, s2⟩, hoff, he⟩ := Option.map_eq_some_iff.mp hf
      cases he
      obtain ⟨h2, hrun⟩ := runAcquire_links h1 (s1.sensors sn).sAcquire now
      have hsame := hsame.trans hrun
      obtain ⟨h3, hleft⟩ := configureSensor_links h2 (hsame.tally ▸ hsn) ((hsame.inMode sn).trans hmode)
        (fun hne => absurd rfl hne) hoff
      exact ⟨h3, hsame.trans hleft⟩

theorem forceSensors_links {fresh : SensorId → NonsenseId} {sns : List SensorId} (h : PollLinks s)
    (hsns : ∀ sn ∈ sns, sn ∈ s.tally ∧ inMode s sn = true) (hf : forceSensors d fresh now sns s = some s') :
    PollLinks s' ∧ SameSensors s s' := by
  induction sns generalizing s with
  | nil =>
    cases hf
    exact ⟨h, .refl _⟩
  | cons sn sns ih =>
    obtain ⟨s1, h1, hf⟩ := Option.bind_eq_some_iff.mp hf
    obtain ⟨hsn, hmode⟩ := hsns sn List.mem_cons_self
    obtain ⟨hlinks, hsame⟩ := forceAcquire_links h hsn hmode h1
    have hrest : ∀ x ∈ sns, x ∈ s1.tally ∧ inMode s1 x = true := by
      intro x hx
      rw [hsame.tally, hsame.inMode]
      exact hsns x (List.mem_cons_of_mem sn hx)
    obtain ⟨hlinks', hsame'⟩ := ih hlinks hrest hf
    exact ⟨hlinks', hsame.trans hsame'⟩

theorem destroyNonsensors_links {n : Nat} (h : PollLinks s) (hd : destroyNonsensors n s d now = some s') :
    PollLinks s' ∧ SameSensors s s' := by
  induction n generalizing s with
  | zero =>
    rw [destroyNonsensors] at hd
    split at hd
    · cases hd
      exact ⟨h, .refl _⟩
    · cases hd
  | succ n ih =>
    rw [destroyNonsensors] at hd
    split at hd
    · cases hd
      exact ⟨h, .refl _⟩
    · obtain ⟨s1, h1, hd⟩ := Option.bind_eq_some_iff.mp hd
      obtain ⟨hlinks, hsame⟩ := destroyNonsense_links h h1
      obtain ⟨hlinks', hsame'⟩ := ih hlinks hd
      exact ⟨hlinks', hsame.trans hsame'⟩

theorem findSensor_inMode {name : Text} (h : findSensor s name = some sn) : sn ∈ s.tally ∧ inMode s sn = true := by
  have hsome := List.find?_some h
  simp only [Bool.and_eq_true] at hsome
  exact ⟨List.mem_of_find?_eq_some h, hsome.2⟩

theorem samplingAsked_inMode {args : Words} {asked : Option Strategy}
    (h : samplingAsked s args = .ok (sn, asked, extra)) : inMode s sn = true := by
  unfold samplingAsked at h
  split at h
  · cases h
  split at h
  · cases h
  split at h
  · cases h
  next sn' hfind =>
    have hmode := (findSensor_inMode hfind).2
    split at h
    · cases h
    split at h
    · cases h
      exact hmode
    split at h
    · cases h
    · cases h
      exact hmode

/-- The first request of a client for a sensor that is refused for its extra argument. -/
def FirstRefused (s : Polling) : PollAction → Prop
  | .sampling d args _ _ => ∃ sn asked extra, samplingAsked s args = .ok (sn, asked, extra) ∧
      asked.getD .event ≠ .off ∧ lacksExtra (s.sensors sn).sType (asked.getD .event) extra = true ∧
      findNonsense s (s.sensors sn).sName (s.clients d) = some none
  | _ => False

theorem pollAction_links {action : PollAction} (h : PollLinks s) (hok : ¬ FirstRefused s action)
    (hstep : pollAction s action = some s') : PollLinks s' ∧ SameSensors { s with mode := s'.mode } s' := by
  have hmoded : ∀ {t : Polling}, SameSensors s t → SameSensors { s with mode := t.mode } t :=
    fun hsame => ⟨rfl, hsame.tally, hsame.sensor⟩
  cases action with
  | sampling d args fresh now =>
    obtain ⟨⟨code, s1⟩, hcmd, rfl⟩ := Option.map_eq_some_iff.mp hstep
    unfold sensorSamplingCmd at hcmd
    split at hcmd
    · cases hcmd
      exact ⟨h, .refl _⟩
    next sn asked extra hasked =>
      obtain ⟨⟨r, s2⟩, hconf, he⟩ := Option.map_eq_some_iff.mp hcmd
      cases he
      obtain ⟨hlinks, hsame⟩ := configureSensor_links h (samplingAsked_tally hasked) (samplingAsked_inMode hasked)
        (fun hoff hlacks hf => hok ⟨sn, asked, extra, hasked, hoff, hlacks, hf⟩) hconf
      exact ⟨hlinks, hmoded hsame⟩
  | value d args fresh now =>
    obtain ⟨⟨code, s1⟩, hcmd, rfl⟩ := Option.map_eq_some_iff.mp hstep
    obtain ⟨s2, hforce, he⟩ := Option.map_eq_some_iff.mp hcmd
    cases he
    have hsns : ∀ sn ∈ valueSensors s (argString args 1), sn ∈ s.tally ∧ inMode s sn = true := by
      intro sn hsn
      obtain ⟨hsn, hasked⟩ := List.mem_filter.mp hsn
      simp only [Bool.and_eq_true] at hasked
      exact ⟨hsn, hasked.1⟩
    obtain ⟨hlinks, hsame⟩ := forceSensors_links h hsns hforce
    exact ⟨hlinks, hmoded hsame⟩
  | disconnect d now =>
    obtain ⟨hlinks, hsame⟩ := destroyNonsensors_links h hstep
    exact ⟨hlinks, hmoded hsame⟩
  | changeMode mode =>
    cases hstep
    exact ⟨h.frame rfl rfl rfl rfl fun _ => rfl, .refl _⟩
  | load now =>
    obtain ⟨⟨r, wait, timers⟩, _, rfl⟩ := Option.map_eq_some_iff.mp hstep
    exact ⟨h.frame rfl rfl rfl rfl fun _ => rfl, rfl, rfl, fun _ => rfl⟩
  | run now after =>
    have hstep : runPolling s now after = some s' := hstep
    unfold runPolling at hstep
    split at hstep
    · cases hstep
    · cases hstep
      exact ⟨h.frame rfl rfl rfl rfl fun _ => rfl, rfl, rfl, fun _ => rfl⟩
    next k timers _ =>
      obtain ⟨t, _, hstep⟩ := Option.bind_eq_some_iff.mp hstep
      obtain ⟨⟨r, timers2⟩, _, hstep⟩ := Option.bind_eq_some_iff.mp hstep
      cases hstep
      have hstart : PollLinks { s with timers := timers } := h.frame rfl rfl rfl rfl fun _ => rfl
      obtain ⟨hlinks, hsame⟩ := runAcquire_links hstart t.tData now
      exact ⟨hlinks.frame rfl rfl rfl rfl fun _ => rfl, rfl, hsame.tally, hsame.sensor⟩

end

end Katcp
