import Katcp.PollInvariant

namespace Katcp

section

open Function SwapVector

variable {s s' : Polling} {a b : AcquireId} {d : DispatchId} {sn : SensorId} {id : NonsenseId}
  {ns : KatcpNonsense} {now : Timeval}

theorem excise_perm (id : NonsenseId) (v : List NonsenseId) : (excise id v).Perm (v.filter fun x => x ≠ id) := by
  have h := @compact_perm _ _ (fun _ last => last) (fun x => decide (x = id)) (fun x : NonsenseId => x)
    (fun x => decide (x = id)) (fun _ _ => rfl) (fun _ => rfl) v
  simpa [excise] using h

theorem mem_excise {v : List NonsenseId} {x : NonsenseId} : x ∈ excise id v ↔ x ∈ v ∧ x ≠ id := by
  rw [(excise_perm id v).mem_iff]
  simp

theorem excise_nodup {v : List NonsenseId} (h : v.Nodup) : (excise id v).Nodup :=
  (excise_perm id v).nodup_iff.mpr (h.filter _)

/-- A sensor without one of its entries. -/
def Polling.unsensed (s : Polling) (id : NonsenseId) (ns : KatcpNonsense) : Polling :=
  s.putSensor ns.nSensor (excise id (s.sensors ns.nSensor).sNonsense)

/-- No trace of an entry is left. -/
def Polling.left (s : Polling) (id : NonsenseId) (ns : KatcpNonsense) : Polling :=
  ((s.unsensed id ns).putClient ns.nClient (excise id (s.clients ns.nClient))).putNonsense id none

theorem unsensed_acquire (s : Polling) (id : NonsenseId) (ns : KatcpNonsense) (sn : SensorId) :
    ((s.unsensed id ns).sensors sn).sAcquire = (s.sensors sn).sAcquire := by
  by_cases hs : sn = ns.nSensor
  · subst hs
    simp [Polling.unsensed, Polling.putSensor]
  · simp [Polling.unsensed, Polling.putSensor, hs]

theorem unsensed_sensor (h : Wired s) (hns : s.nonsenses id = some ns) (sn : SensorId) (k : NonsenseId) :
    k ∈ ((s.unsensed id ns).sensors sn).sNonsense ↔ k ∈ (s.sensors sn).sNonsense ∧ k ≠ id := by
  by_cases hs : sn = ns.nSensor
  · subst hs
    simp [Polling.unsensed, Polling.putSensor, mem_excise]
  · simp only [Polling.unsensed, Polling.putSensor, update_of_ne hs]
    refine ⟨fun hk => ⟨hk, ?_⟩, And.left⟩
    rintro rfl
    obtain ⟨ns', hns', rfl⟩ := h.sensed sn k hk
    rw [hns] at hns'
    cases hns'
    exact hs rfl

theorem unsensed_subscribers (h : Wired s) (hns : s.nonsenses id = some ns) (a : AcquireId) (k : NonsenseId) :
    k ∈ subscribers (s.unsensed id ns) a ↔ k ∈ subscribers s a ∧ k ≠ id := by
  unfold subscribers
  rw [List.mem_flatMap, List.mem_flatMap]
  constructor
  · rintro ⟨sn, hsn, hk⟩
    obtain ⟨hk, hne⟩ := (unsensed_sensor h hns sn k).mp hk
    exact ⟨⟨sn, hsn, hk⟩, hne⟩
  · rintro ⟨⟨sn, hsn, hk⟩, hne⟩
    exact ⟨sn, hsn, (unsensed_sensor h hns sn k).mpr ⟨hk, hne⟩⟩

theorem left_client (h : Wired s) (hns : s.nonsenses id = some ns) (d : DispatchId) (k : NonsenseId) :
    k ∈ (s.left id ns).clients d ↔ k ∈ s.clients d ∧ k ≠ id := by
  change k ∈ update s.clients ns.nClient (excise id (s.clients ns.nClient)) d ↔ _
  by_cases hd : d = ns.nClient
  · subst hd
    rw [update_self, mem_excise]
  · rw [update_of_ne hd]
    refine ⟨fun hk => ⟨hk, ?_⟩, And.left⟩
    rintro rfl
    obtain ⟨ns', hns', rfl⟩ := h.owned d k hk
    rw [hns] at hns'
    cases hns'
    exact hd rfl

theorem left_nonsense (s : Polling) (id : NonsenseId) (ns : KatcpNonsense) (k : NonsenseId) :
    (s.left id ns).nonsenses k = if k = id then none else s.nonsenses k := by
  change update s.nonsenses id none k = _
  rw [update_apply]

theorem Wired.leave (h : Wired s) (hns : s.nonsenses id = some ns) : Wired (s.left id ns) := by
  have hacq : ∀ sn, ((s.left id ns).sensors sn).sAcquire = (s.sensors sn).sAcquire := unsensed_acquire s id ns
  have hsens : ∀ sn k, k ∈ ((s.left id ns).sensors sn).sNonsense ↔ k ∈ (s.sensors sn).sNonsense ∧ k ≠ id :=
    unsensed_sensor h hns
  have hacquires : (s.left id ns).acquires = s.acquires := rfl
  refine ⟨?_, ?_, h.once, ?_, ?_, ?_, ?_⟩
  · intro sn hsn
    rw [Polling.acquireOf, hacq]
    exact h.linked sn hsn
  · intro a sn hsn
    rw [hacq]
    exact h.named a sn hsn
  · intro sn
    change ((s.unsensed id ns).sensors sn).sNonsense.Nodup
    by_cases hs : sn = ns.nSensor
    · subst hs
      simpa [Polling.unsensed, Polling.putSensor] using excise_nodup (h.single _)
    · simpa [Polling.unsensed, Polling.putSensor, hs] using h.single sn
  · intro sn k hk
    obtain ⟨hk, hne⟩ := (hsens sn k).mp hk
    rw [left_nonsense, if_neg hne]
    exact h.sensed sn k hk
  · intro d k hk
    obtain ⟨hk, hne⟩ := (left_client h hns d k).mp hk
    rw [left_nonsense, if_neg hne]
    exact h.owned d k hk
  · intro k ms hms
    rw [left_nonsense] at hms
    split at hms
    · cases hms
    next hne =>
      obtain ⟨hin, hown, hlink⟩ := h.entered k ms hms
      rw [Polling.acquireOf, hacq, hacquires]
      exact ⟨(hsens _ k).mpr ⟨hin, hne⟩, (left_client h hns _ k).mpr ⟨hown, hne⟩, hlink⟩

/-- An entry that is destroyed leaves everything in order. -/
theorem destroyNonsense_inv (h : PollInv s) (hd : destroyNonsense s id now = some s') : PollInv s' := by
  unfold destroyNonsense at hd
  split at hd
  · cases hd
  next ns hns =>
    obtain ⟨⟨r, s2⟩, hreload, he⟩ := Option.map_eq_some_iff.mp hd
    cases he
    have hw := h.toWired
    have hreload : reloadSensor (s.unsensed id ns) ns.nSensor now = some (r, s2) := hreload
    obtain ⟨_, hres⟩ := reloadSensor_spec (s := s.unsensed id ns) h.kept (unsensed_acquire s id ns ns.nSensor)
      (h.fits _) (fun hper hz => by
        refine absurd ?_ hper
        refine List.filterMap_eq_nil_iff.mpr fun k hk => ?_
        exact (h.counts _).idle hz ((unsensed_subscribers hw hns _ k).mp hk).1) hreload
    obtain ⟨⟨c, timers, rfl⟩, hkept, hcounts, hfits, hothers⟩ := hres
    have hw' := (hw.leave hns).recounted (s.sensors ns.nSensor).sAcquire c timers
    have hsub : ∀ a, subscribers { (s.left id ns).recounted (s.sensors ns.nSensor).sAcquire c with timers := timers } a =
        subscribers (s.unsensed id ns) a := fun a => recounted_subscribers (s.left id ns) _ a c timers
    have hrest : ∀ a, ∀ k ∈ subscribers (s.unsensed id ns) a, (s.left id ns).nonsenses k = s.nonsenses k := by
      intro a k hk
      rw [left_nonsense, if_neg ((unsensed_subscribers hw hns a k).mp hk).2]
    refine ⟨hw', hkept, fun b => ?_, fun b => ?_, ?_, ?_⟩
    · by_cases hb : b = (s.sensors ns.nSensor).sAcquire
      · rw [hb]
        exact hfits
      · change TimerFits timers b (((s.unsensed id ns).recounted _ c).acquires b)
        rw [recounted_other hb]
        exact (h.fits b).unmoved (hothers b hb)
    · by_cases hb : b = (s.sensors ns.nSensor).sAcquire
      · rw [hb]
        refine hcounts.frame ⟨_, rfl⟩ ?_ fun k hk => ?_
        · rw [recounted_subscribers]
          exact hsub _
        · rw [recounted_subscribers] at hk
          exact hrest _ k hk
      · have hsame : subscribers (s.unsensed id ns) b = subscribers s b := subscribers_putSensor hw hb _
        have hacq : (((s.unsensed id ns).recounted (s.sensors ns.nSensor).sAcquire c).acquires b) = s.acquires b :=
          recounted_other hb c
        exact (h.counts b).frame ⟨_, hacq⟩ ((hsub b).trans hsame) fun k hk => hrest b k (hsame ▸ hk)
    · intro k ms hms
      have hms : (s.left id ns).nonsenses k = some ms := hms
      rw [left_nonsense] at hms
      split at hms
      · cases hms
      · exact h.active k ms hms
    · intro k ms hms hneeds
      have hms : (s.left id ns).nonsenses k = some ms := hms
      rw [left_nonsense] at hms
      split at hms
      · cases hms
      · refine h.nonzero k ms hms ?_
        change needsPoll (((s.unsensed id ns).recounted _ c).acquires
          ((s.unsensed id ns).sensors ms.nSensor).sAcquire) ms.nStrategy = true at hneeds
        rw [needsPoll_congr (recounted_get _ _ _ c), unsensed_acquire] at hneeds
        exact hneeds

end

section

open Function

variable {s s' : Polling} {a b : AcquireId} {d : DispatchId} {sn : SensorId} {id : NonsenseId}
  {ns : KatcpNonsense} {now : Timeval} {strategy : Strategy} {extra : Option Text} {r : Int}

/-- A client may begin to be polled: no timer of an earlier time is left, and the times the
acquire was given are positive. -/
def TimerStarts (s : Polling) (sn : SensorId) (strategy : Strategy) : Prop :=
  needsPoll (s.acquireOf sn) strategy = true →
    ((s.acquireOf sn).aPeriodics = 0 → NoTimer s.timers (s.sensors sn).sAcquire) ∧
    (if strategy = .period then Timeval.zero.Earlier (s.acquireOf sn).aLimit
      else (s.acquireOf sn).aPoll ≠ .zero)

theorem periodFor_nonzero {old : Timeval} (hneeds : needsPoll (s.acquireOf sn) strategy = true)
    (h : TimerStarts s sn strategy) : periodFor (s.acquireOf sn) strategy extra old ≠ .zero := by
  have hpos := (h hneeds).2
  unfold periodFor
  cases strategy with
  | event => exact hpos
  | diff => exact hpos
  | off => cases hneeds
  | forced => cases hneeds
  | period =>
    rw [if_pos rfl] at hpos
    dsimp only
    generalize (s.acquireOf sn).aLimit = limit at hpos
    generalize (extra.bind stringToTv).getD old = period
    split
    next hlt =>
      unfold addTime
      intro hz
      unfold Timeval.Earlier Timeval.zero at hpos
      split at hz
      · simp [sensorLimitFudge, Timeval.zero] at hz hpos
        omega
      · simp [sensorLimitFudge, Timeval.zero] at hz hpos
        omega
    next hle =>
      rintro rfl
      have hcmp := (cmpTime_earlier _ _).mpr hpos
      rw [hcmp] at hle
      exact hle (by decide)

/-- The entry of a client takes up a strategy. -/
def Polling.strategic (s : Polling) (id : NonsenseId) (ns : KatcpNonsense) (strategy : Strategy)
    (period : Timeval) : Polling :=
  s.putNonsense id (some { ns with nStrategy := strategy, nPeriod := period })

theorem strategic_nonsense (s : Polling) (id : NonsenseId) (ns : KatcpNonsense) (strategy : Strategy)
    (period : Timeval) (k : NonsenseId) : (s.strategic id ns strategy period).nonsenses k =
      if k = id then some { ns with nStrategy := strategy, nPeriod := period } else s.nonsenses k := by
  change update s.nonsenses id _ k = _
  rw [update_apply]

theorem Wired.strategic (h : Wired s) (hns : s.nonsenses id = some ns) (period : Timeval) :
    Wired (s.strategic id ns strategy period) := by
  refine ⟨h.linked, h.named, h.once, h.single, ?_, ?_, ?_⟩
  · intro sn k hk
    rw [strategic_nonsense]
    obtain ⟨ms, hms, hsn⟩ := h.sensed sn k hk
    split
    next he =>
      rw [he, hns] at hms
      cases hms
      exact ⟨_, rfl, hsn⟩
    next => exact ⟨ms, hms, hsn⟩
  · intro d k hk
    rw [strategic_nonsense]
    obtain ⟨ms, hms, hd⟩ := h.owned d k hk
    split
    next he =>
      rw [he, hns] at hms
      cases hms
      exact ⟨_, rfl, hd⟩
    next => exact ⟨ms, hms, hd⟩
  · intro k ms hms
    rw [strategic_nonsense] at hms
    split at hms
    next he =>
      cases hms
      rw [he]
      exact h.entered id ns hns
    next => exact h.entered k ms hms

theorem Entering.strategic_inv (h : Entering s id ns) {period : Timeval} (hoff : strategy ≠ .off)
    (hperiod : needsPoll (s.acquireOf ns.nSensor) strategy = true → period ≠ .zero)
    (hclean : needsPoll (s.acquireOf ns.nSensor) strategy = true → (s.acquireOf ns.nSensor).aPeriodics = 0 →
      NoTimer s.timers (s.sensors ns.nSensor).sAcquire)
    (hr : reloadSensor (s.strategic id ns strategy period) ns.nSensor now = some (r, s')) :
    r = 0 ∧ PollInv s' := by
  have hw : Wired (s.strategic id ns strategy period) := h.toWired.strategic h.entry period
  have hnew := strategic_nonsense s id ns strategy period
  obtain ⟨rfl, ⟨c, timers, rfl⟩, hkept, hcounts, hfits, hothers⟩ :=
    reloadSensor_spec (s := s.strategic id ns strategy period) (a := (s.sensors ns.nSensor).sAcquire)
      h.kept rfl (h.fits _) (fun hper hz => by
      -- of the old entries none is polled
      obtain ⟨p, hp⟩ := List.exists_mem_of_ne_nil _ hper
      obtain ⟨k, hk, hkp⟩ := List.mem_filterMap.mp hp
      by_cases hkid : k = id
      · refine hclean ?_ hz
        rw [pollPeriod, hnew, if_pos hkid, Option.bind_some] at hkp
        split at hkp
        next hneeds => exact hneeds
        next => cases hkp
      · have hnone := h.idle hz k hkid hk
        rw [pollPeriod, hnew, if_neg hkid] at hkp
        rw [pollPeriod] at hnone
        exact absurd (hkp.symm.trans hnone) (by simp)) hr
  have hget : ∀ sn, needsPoll (({ (s.strategic id ns strategy period).recounted
      (s.sensors ns.nSensor).sAcquire c with timers := timers } : Polling).acquireOf sn) =
      needsPoll (s.acquireOf sn) := fun sn =>
    needsPoll_congr (recounted_get (s.strategic id ns strategy period) _ _ c)
  refine ⟨rfl, hw.recounted _ c timers, hkept, fun b => ?_, fun b => ?_, ?_, ?_⟩
  · by_cases hb : b = (s.sensors ns.nSensor).sAcquire
    · rw [hb]
      exact hfits
    · change TimerFits timers b (((s.strategic id ns strategy period).recounted _ c).acquires b)
      rw [recounted_other (s := s.strategic id ns strategy period) hb]
      exact (h.fits b).unmoved (hothers b hb)
  · by_cases hb : b = (s.sensors ns.nSensor).sAcquire
    · rw [hb]
      exact hcounts
    · have hacq : ((s.strategic id ns strategy period).recounted (s.sensors ns.nSensor).sAcquire c).acquires b =
          s.acquires b := recounted_other (s := s.strategic id ns strategy period) hb c
      refine (h.counts b hb).frame ⟨_, hacq⟩
        (recounted_subscribers (s.strategic id ns strategy period) _ b c timers) fun k hk => ?_
      refine (hnew k).trans (if_neg ?_)
      rintro rfl
      obtain ⟨ms, hms, hb'⟩ := h.mem_subscribers.mp hk
      rw [h.entry] at hms
      cases hms
      exact hb hb'.symm
  · intro k ms hms
    have hms := (hnew k).symm.trans hms
    split at hms
    · cases hms
      exact hoff
    next hk => exact h.active k ms hk hms
  · intro k ms hms hneeds
    have hms := (hnew k).symm.trans hms
    rw [hget] at hneeds
    split at hms
    · cases hms
      exact hperiod hneeds
    next hk => exact h.nonzero k ms hk hms hneeds

/-- A client is at most one step away from its strategy. -/
theorem enterStrategy_inv (h : Entering s id ns) (hsn : ns.nSensor = sn) (hoff : strategy ≠ .off)
    (hextra : lacksExtra (s.sensors sn).sType strategy extra = false) (hstarts : TimerStarts s sn strategy)
    (he : enterStrategy s id sn strategy extra now = some (r, s')) : r = 0 ∧ PollInv s' := by
  unfold enterStrategy at he
  rw [h.entry] at he
  dsimp only at he
  rw [hextra] at he
  subst hsn
  exact h.strategic_inv hoff (fun hneeds => periodFor_nonzero hneeds hstarts) (fun hneeds => (hstarts hneeds).1) he

/-- The entry of a client that is new. -/
theorem PollInv.created (h : PollInv s) (hlink : ns.nSensor ∈ (s.acquireOf ns.nSensor).aSensors)
    (hfree : s.nonsenses id = none) : Entering (s.entered id ns) id ns := by
  have hw := h.toWired.enter hfree hlink
  have hacq : ∀ sn, ((s.entered id ns).sensors sn).sAcquire = (s.sensors sn).sAcquire := entered_acquire s id ns
  have hof : ∀ sn, (s.entered id ns).acquireOf sn = s.acquireOf sn := by
    intro sn
    rw [Polling.acquireOf, hacq]
    rfl
  have hnone := entered_nonsense s id ns
  refine ⟨hw, by rw [hnone, if_pos rfl], h.kept, h.fits, fun b hb => ?_, ?_, ?_, fun hz k hk hmem => ?_⟩
  · rw [hacq] at hb
    have hsub : subscribers (s.entered id ns) b = subscribers s b := subscribers_putSensor h.toWired hb _
    refine (h.counts b).frame ⟨_, rfl⟩ hsub fun k hk => ?_
    rw [hnone, if_neg]
    rintro rfl
    obtain ⟨ms, hms, _⟩ := h.mem_subscribers.mp hk
    rw [hfree] at hms
    cases hms
  · intro k ms hk hms
    rw [hnone, if_neg hk] at hms
    exact h.active k ms hms
  · intro k ms hk hms hneeds
    rw [hnone, if_neg hk] at hms
    rw [hof] at hneeds
    exact h.nonzero k ms hms hneeds
  · rw [hof] at hz ⊢
    obtain ⟨ms, hms, hb⟩ := hw.mem_subscribers.mp hmem
    rw [hnone, if_neg hk] at hms
    rw [hacq, hacq] at hb
    rw [pollPeriod, hnone, if_neg hk]
    exact (h.counts _).idle hz (h.mem_subscribers.mpr ⟨ms, hms, hb⟩)

theorem createNonsense_entered (hc : createNonsense s d sn id = some s') :
    s.nonsenses id = none ∧ ∃ ns, ns.nSensor = sn ∧ s' = s.entered id ns := by
  unfold createNonsense at hc
  split at hc
  · cases hc
  next hfree =>
    cases Option.some.inj hc
    exact ⟨by simpa using hfree, ⟨d, sn, .off, (s.acquireOf sn).aCurrent⟩, rfl, rfl⟩

/-- What `configure_sensor_katcp` asks for may be done. -/
def Configures (s : Polling) (d : DispatchId) (sn : SensorId) (strategy : Strategy) (extra : Option Text) :
    Prop :=
  if lacksExtra (s.sensors sn).sType strategy extra then
    findNonsense s (s.sensors sn).sName (s.clients d) ≠ some none
  else TimerStarts s sn strategy

theorem configureSensor_inv {asked : Option Strategy} {fresh : NonsenseId} (h : PollInv s)
    (hsn : sn ∈ (s.acquireOf sn).aSensors) (hok : Configures s d sn (asked.getD .event) extra)
    (hc : configureSensor s d sn asked extra fresh now = some (r, s')) : PollInv s' := by
  unfold configureSensor at hc
  unfold Configures at hok
  dsimp only at hc
  generalize asked.getD .event = strategy at hok hc
  split at hc
  · cases hc
  next hf =>
    split at hc
    · cases hc
      exact h
    next hoff =>
      have hextra : lacksExtra (s.sensors sn).sType strategy extra = false := by
        by_contra hne
        rw [if_pos (by simpa using hne)] at hok
        exact hok hf
      rw [if_neg (by simp [hextra])] at hok
      obtain ⟨s1, hcreate, hc⟩ := Option.bind_eq_some_iff.mp hc
      obtain ⟨hfree, ns, rfl, rfl⟩ := createNonsense_entered hcreate
      have hent : Entering (s.entered _ ns) _ ns := h.created hsn hfree
      refine (enterStrategy_inv hent rfl hoff ?_ ?_ hc).2
      · rw [entered_type]
        exact hextra
      · have hof : (s.entered fresh ns).acquireOf ns.nSensor = s.acquireOf ns.nSensor := by
          rw [Polling.acquireOf, entered_acquire]
          rfl
        unfold TimerStarts
        rw [hof, entered_acquire]
        exact hok
  next id hf =>
    split at hc
    · cases hc
      exact h
    next hsame =>
      obtain ⟨ns, hns, hnsn⟩ := Option.map_eq_some_iff.mp (not_not.mp hsame)
      split at hc
      · obtain ⟨s1, hd, he⟩ := Option.map_eq_some_iff.mp hc
        cases he
        exact destroyNonsense_inv h hd
      next hoff =>
        by_cases hextra : lacksExtra (s.sensors sn).sType strategy extra = true
        · unfold enterStrategy at hc
          rw [hns] at hc
          dsimp only at hc
          rw [if_pos hextra] at hc
          cases hc
          exact h
        · rw [if_neg hextra] at hok
          exact (enterStrategy_inv (h.entering hns) hnsn hoff (by simpa using hextra) hok hc).2

end

section

open Function SwapVector

variable {s s' s'' : Polling} {a : AcquireId} {d : DispatchId} {sn : SensorId} {id : NonsenseId}
  {ns : KatcpNonsense} {now : Timeval} {strategy : Strategy} {extra : Option Text} {r : Int}

/-- Each client has at most one entry for a sensor, none of which is switched off, and the
sensors that an acquire serves are in the table. -/
structure PollLinks (s : Polling) : Prop extends Wired s where
  listed : s.tally.Nodup
  tallied : ∀ a, ∀ sn ∈ (s.acquires a).aSensors, sn ∈ s.tally
  held : ∀ d, (s.clients d).Nodup
  sole : ∀ k k' ms ms', s.nonsenses k = some ms → s.nonsenses k' = some ms' → ms'.nClient = ms.nClient →
    ms'.nSensor = ms.nSensor → k' = k
  active : ∀ k ms, s.nonsenses k = some ms → ms.nStrategy ≠ .off

/-- No sensor came, went or changed but for its clients. -/
structure SameSensors (s s' : Polling) : Prop where
  mode : s'.mode = s.mode
  tally : s'.tally = s.tally
  sensor : ∀ sn, s'.sensors sn = { s.sensors sn with sNonsense := (s'.sensors sn).sNonsense }

theorem SameSensors.refl (s : Polling) : SameSensors s s := ⟨rfl, rfl, fun _ => rfl⟩

theorem SameSensors.trans (h : SameSensors s s') (h' : SameSensors s' s'') : SameSensors s s'' := by
  refine ⟨h'.mode.trans h.mode, h'.tally.trans h.tally, fun sn => ?_⟩
  rw [h'.sensor sn, h.sensor sn]

theorem SameSensors.inMode (h : SameSensors s s') (sn : SensorId) : inMode s' sn = inMode s sn := by
  unfold Katcp.inMode
  rw [h.mode, h.sensor sn]

theorem PollLinks.frame (h : PollLinks s) (ht : s'.tally = s.tally) (hs : s'.sensors = s.sensors)
    (hns : s'.nonsenses = s.nonsenses) (hc : s'.clients = s.clients)
    (ha : ∀ a, (s'.acquires a).aSensors = (s.acquires a).aSensors) : PollLinks s' := by
  refine ⟨h.toWired.frame ht hs hns hc ha, ht ▸ h.listed, fun a sn hsn => ?_, hc ▸ h.held, ?_, ?_⟩
  · rw [ha] at hsn
    rw [ht]
    exact h.tallied a sn hsn
  · rw [hns]
    exact h.sole
  · rw [hns]
    exact h.active

theorem reloadSensor_recounted (hr : reloadSensor s sn now = some (r, s')) :
    ∃ c timers, s' = { s.recounted (s.sensors sn).sAcquire c with timers := timers } := by
  unfold reloadSensor scheduleAcquire at hr
  dsimp only at hr
  split at hr
  · cases hr
  next c _ =>
    split at hr
    · split at hr
      · obtain ⟨⟨_, timers⟩, _, he⟩ := Option.map_eq_some_iff.mp hr
        cases he
        exact ⟨c, timers, rfl⟩
      · cases hr
        exact ⟨c, s.timers, rfl⟩
    · split at hr
      · cases hr
      · obtain ⟨⟨_, timers⟩, _, he⟩ := Option.map_eq_some_iff.mp hr
        cases he
        exact ⟨c, timers, rfl⟩
      · obtain ⟨⟨_, timers⟩, _, he⟩ := Option.map_eq_some_iff.mp hr
        cases he
        exact ⟨c, timers, rfl⟩

theorem recounted_sensors (s : Polling) (a b : AcquireId) (c : Recount) :
    ((s.recounted a c).acquires b).aSensors = (s.acquires b).aSensors := by
  by_cases hb : b = a
  · rw [hb, recounted_self]
  · rw [recounted_other hb]

/-- What `reload_sensor_katcp` changes are the numbers of an acquire and its timer. -/
theorem PollLinks.reloaded (h : PollLinks s) (hr : reloadSensor s sn now = some (r, s')) :
    PollLinks s' ∧ SameSensors s s' := by
  obtain ⟨c, timers, rfl⟩ := reloadSensor_recounted hr
  exact ⟨h.frame rfl rfl rfl rfl fun b => recounted_sensors s _ b c, rfl, rfl, fun _ => rfl⟩

theorem PollLinks.leave (h : PollLinks s) (hns : s.nonsenses id = some ns) : PollLinks (s.left id ns) := by
  have hsome : ∀ {k ms}, (s.left id ns).nonsenses k = some ms → s.nonsenses k = some ms := by
    intro k ms hms
    rw [left_nonsense] at hms
    split at hms
    · cases hms
    · exact hms
  refine ⟨h.toWired.leave hns, h.listed, h.tallied, fun d => ?_, ?_, fun k ms hms => h.active k ms (hsome hms)⟩
  · change (update s.clients ns.nClient (excise id (s.clients ns.nClient)) d).Nodup
    by_cases hd : d = ns.nClient
    · rw [hd, update_self]
      exact excise_nodup (h.held _)
    · rw [update_of_ne hd]
      exact h.held d
  · intro k k' ms ms' hms hms'
    exact h.sole k k' ms ms' (hsome hms) (hsome hms')

theorem destroyNonsense_links (h : PollLinks s) (hd : destroyNonsense s id now = some s') :
    PollLinks s' ∧ SameSensors s s' := by
  unfold destroyNonsense at hd
  split at hd
  · cases hd
  next ns hns =>
    obtain ⟨⟨r, s2⟩, hreload, he⟩ := Option.map_eq_some_iff.mp hd
    cases he
    obtain ⟨c, timers, rfl⟩ := reloadSensor_recounted hreload
    refine ⟨(h.leave hns).frame rfl rfl rfl rfl fun b => recounted_sensors s _ b c, rfl, rfl, fun sn => ?_⟩
    change (s.unsensed id ns).sensors sn = { s.sensors sn with sNonsense := ((s.unsensed id ns).sensors sn).sNonsense }
    by_cases hs : sn = ns.nSensor
    · subst hs
      simp [Polling.unsensed, Polling.putSensor]
    · simp [Polling.unsensed, Polling.putSensor, hs]

theorem PollLinks.enter (h : PollLinks s) (hfree : s.nonsenses id = none) (hsn : ns.nSensor ∈ s.tally)
    (hnew : ∀ k ms, s.nonsenses k = some ms → ms.nClient = ns.nClient → ms.nSensor ≠ ns.nSensor)
    (hoff : ns.nStrategy ≠ .off) : PollLinks (s.entered id ns) := by
  refine ⟨h.toWired.enter hfree (h.linked _ hsn), h.listed, h.tallied, fun d => ?_, ?_, ?_⟩
  · rw [entered_client]
    split
    · refine List.nodup_append_comm.mp (List.nodup_cons.mpr ⟨fun hid => ?_, h.held _⟩)
      obtain ⟨ms, hms, _⟩ := h.owned _ id hid
      rw [hfree] at hms
      cases hms
    · exact h.held d
  · intro k k' ms ms' hms hms' hc hs
    rw [entered_nonsense] at hms hms'
    split at hms
    next hk =>
      cases hms
      split at hms'
      next hk' => exact hk'.trans hk.symm
      next => exact absurd hs (hnew k' ms' hms' hc)
    next =>
      split at hms'
      · cases hms'
        exact absurd hs.symm (hnew k ms hms hc.symm)
      · exact h.sole k k' ms ms' hms hms' hc hs
  · intro k ms hms
    rw [entered_nonsense] at hms
    split at hms
    · cases hms
      exact hoff
    · exact h.active k ms hms

theorem PollLinks.strategic (h : PollLinks s) (hns : s.nonsenses id = some ns) (hoff : strategy ≠ .off)
    (period : Timeval) : PollLinks (s.strategic id ns strategy period) := by
  have hold : ∀ {k ms}, (s.strategic id ns strategy period).nonsenses k = some ms →
      ∃ ms', s.nonsenses k = some ms' ∧ ms'.nClient = ms.nClient ∧ ms'.nSensor = ms.nSensor ∧
        (ms.nStrategy = strategy ∨ ms' = ms) := by
    intro k ms hms
    rw [strategic_nonsense] at hms
    split at hms
    next hk =>
      cases hms
      exact ⟨ns, hk ▸ hns, rfl, rfl, Or.inl rfl⟩
    next => exact ⟨ms, hms, rfl, rfl, Or.inr rfl⟩
  refine ⟨h.toWired.strategic hns period, h.listed, h.tallied, h.held, ?_, ?_⟩
  · intro k k' ms ms' hms hms' hc hs
    obtain ⟨os, hos, hoc, hosn, _⟩ := hold hms
    obtain ⟨os', hos', hoc', hosn', _⟩ := hold hms'
    exact h.sole k k' os os' hos hos' (hoc'.trans (hc.trans hoc.symm)) (hosn'.trans (hs.trans hosn.symm))
  · intro k ms hms
    obtain ⟨os, hos, _, _, rfl | rfl⟩ := hold hms
    · exact hoff
    · exact h.active k _ hos

end

end Katcp
