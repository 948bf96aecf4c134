import Katcp.RelayCommand

namespace Katcp

section

open SwapVector

variable {F : Type} {fl : Doubles F} {ns nx : RelayNonsense F} {sn : RelaySensor F} {more : SensorMore F}
  {status : SensorStatus} {now : Timeval} {d : DispatchId} {r : RelaySampling F}

namespace RelayNonsense

/-- The entry holds the status and the value. -/
def Holds (fl : Doubles F) (ns : RelayNonsense F) (status : SensorStatus) (v : SensorValue F) : Prop :=
  ns.nStatus = status ∧ (ns.previous = v ∨ fl.sameValue ns.previous v)

/-- The entry holds what the client was sent last. -/
def Current (fl : Doubles F) (ns : RelayNonsense F) : Prop :=
  ∀ status v, ns.shown = some (status, v) → ns.Holds fl status v

/-- An entry of the event strategy is current. -/
def Kept (fl : Doubles F) (ns : RelayNonsense F) : Prop := ns.nStrategy = .event → ns.Current fl

theorem Kept.of_strategy (h : ns.nStrategy ≠ .event) : ns.Kept fl := fun he => absurd he h

theorem eventCheck_frame (fl : Doubles F) (ns : RelayNonsense F) (status : SensorStatus) (v : SensorValue F) :
    (ns.eventCheck fl status v).1.nStrategy = ns.nStrategy ∧ (ns.eventCheck fl status v).1.shown = ns.shown := by
  have hstatus : (ns.statusCheck status).1.nStrategy = ns.nStrategy ∧ (ns.statusCheck status).1.shown = ns.shown := by
    unfold statusCheck
    split <;> exact ⟨rfl, rfl⟩
  rw [eventCheck]
  generalize ns.statusCheck status = checked at hstatus ⊢
  obtain ⟨ny, result⟩ := checked
  dsimp only
  split <;> exact hstatus

theorem check_frame :
    (ns.check fl more status now).1.nStrategy = ns.nStrategy ∧ (ns.check fl more status now).1.shown = ns.shown := by
  unfold check
  split
  next => exact ⟨rfl, rfl⟩
  next =>
    unfold periodCheck
    split <;> exact ⟨rfl, rfl⟩
  next => exact eventCheck_frame ..
  next =>
    unfold diffCheck
    split
    next => split <;> exact ⟨rfl, rfl⟩
    next => exact ⟨rfl, rfl⟩
  next => exact ⟨rfl, rfl⟩

/-- After an event check the entry holds the status and the value of the sensor; the client is
told unless it held them before. -/
theorem eventCheck_spec (fl : Doubles F) (ns : RelayNonsense F) (status : SensorStatus) (v : SensorValue F) :
    (ns.eventCheck fl status v).1.Holds fl status v ∧
      ((ns.eventCheck fl status v).2 = false → (ns.eventCheck fl status v).1 = ns ∧
        ns.nStatus = status ∧ fl.sameValue ns.previous v) := by
  unfold eventCheck statusCheck
  by_cases hstatus : status = ns.nStatus
  · by_cases hsame : fl.sameValue ns.previous v
    · simp [Holds, hstatus, hsame]
    · simp [Holds, hstatus, hsame]
  · by_cases hsame : fl.sameValue ns.previous v
    · simp [Holds, hstatus, hsame]
    · simp [Holds, hstatus, hsame]

end RelayNonsense

theorem informClient_strategy : (informClient fl sn now ns).1.nStrategy = ns.nStrategy := by
  have hframe : (ns.check fl sn.more sn.sStatus now).1.nStrategy = ns.nStrategy ∧ _ := RelayNonsense.check_frame
  rw [informClient]
  generalize ns.check fl sn.more sn.sStatus now = checked at hframe ⊢
  obtain ⟨ny, tell⟩ := checked
  dsimp only
  split <;> exact hframe.1

theorem informClient_event (he : ns.nStrategy = .event) (h : ns.Current fl) :
    (informClient fl sn now ns).1.Current fl ∧
      ((informClient fl sn now ns).2 = some (sensorUpdate fl sn sensorStatusInform) ∨
        ns.nStatus = sn.sStatus ∧ fl.sameValue ns.previous sn.more.current) := by
  have hframe := RelayNonsense.eventCheck_frame fl ns sn.sStatus sn.more.current
  have hspec := RelayNonsense.eventCheck_spec fl ns sn.sStatus sn.more.current
  rw [informClient, RelayNonsense.check, he]
  dsimp only
  generalize ns.eventCheck fl sn.sStatus sn.more.current = checked at hframe hspec ⊢
  obtain ⟨ny, tell⟩ := checked
  dsimp only at hframe hspec ⊢
  cases tell with
  | true =>
    rw [hframe.1, he]
    refine ⟨fun status v hv => ?_, Or.inl rfl⟩
    cases hv
    exact hspec.1
  | false =>
    obtain ⟨rfl, hstatus, hsame⟩ := hspec.2 rfl
    exact ⟨h, Or.inr ⟨hstatus, hsame⟩⟩

theorem informClient_kept (h : ns.Kept fl) : (informClient fl sn now ns).1.Kept fl := by
  intro he
  rw [informClient_strategy] at he
  exact (informClient_event he (h he)).1

/-- All entries of a sensor's clients are kept. -/
def RelaySensor.Kept (fl : Doubles F) (sn : RelaySensor F) : Prop := ∀ ns ∈ sn.sNonsense, ns.Kept fl

theorem propagate_kept (h : sn.Kept fl) : (propagateAcquire fl sn now).1.Kept fl := by
  unfold propagateAcquire
  split
  next => exact h
  next more status _ =>
    intro nx hx
    obtain ⟨_, htold, rfl⟩ := List.mem_map.mp hx
    obtain ⟨ns, hns, rfl⟩ := List.mem_map.mp htold
    exact informClient_kept (h ns hns)

theorem reload_kept (h : sn.Kept fl) : (reloadRelayed fl sn now).1.Kept fl := by
  unfold reloadRelayed
  split
  next => exact h
  next =>
    split
    next => exact propagate_kept h
    next => exact h

theorem drop_kept (h : sn.Kept fl) : (dropClient fl sn d now).Kept fl := by
  unfold dropClient
  split
  next => exact h
  next k hk =>
    obtain ⟨hlt, _⟩ := List.findIdx?_eq_some_iff_getElem.mp hk
    refine reload_kept fun nx hx => h nx ?_
    exact (removeAt_perm (List.getElem?_eq_getElem hlt)).mem_iff.mp (List.mem_cons_of_mem _ hx)

theorem enter_kept (h : sn.Kept fl) : (enterClient fl sn d now).1.Kept fl := by
  unfold enterClient
  split
  next => exact h
  next =>
    intro nx hx
    rcases List.mem_append.mp hx with hx | hx
    · exact h nx hx
    · cases List.mem_singleton.mp hx
      exact .of_strategy nofun

theorem modify_kept {k : Nat} {f : RelayNonsense F → RelayNonsense F} (h : sn.Kept fl)
    (hf : ∀ ns, sn.sNonsense[k]? = some ns → (f ns).Kept fl) : (sn.modify k f).Kept fl := by
  intro nx hx
  obtain ⟨j, hj⟩ := List.mem_iff_getElem?.mp hx
  rw [RelaySensor.modify, List.getElem?_modify] at hj
  split at hj
  next hkj =>
    obtain ⟨ns, hns, rfl⟩ := Option.map_eq_some_iff.mp hj
    subst hkj
    exact hf ns hns
  next => exact h nx (List.mem_of_getElem? (by simpa using hj))

theorem enterClient_entry (h : (enterClient fl sn d now).1.sNonsense[(enterClient fl sn d now).2]? = some ns) :
    (∃ k, clientAt sn d = some k ∧ sn.sNonsense[k]? = some ns) ∨ ns.shown = none := by
  unfold enterClient at h
  split at h
  next k hk => exact Or.inl ⟨k, hk, h⟩
  next =>
    dsimp only at h
    rw [List.getElem?_concat_length] at h
    cases h
    exact Or.inr rfl

theorem take_kept (h : r.strategy = .event → ns.Current fl) : (ns.take r now).Kept fl := by
  intro he
  unfold RelayNonsense.take at he ⊢
  split at he
  next hr => exact h hr
  next => cases he
  next => cases he
  next hne _ _ => exact absurd he hne

theorem configure_kept (h : sn.Kept fl) (hok : r.strategy = .event → ∀ k ns, clientAt sn d = some k →
    sn.sNonsense[k]? = some ns → ns.Current fl) : (configureRelayed fl sn d r now).Kept fl := by
  unfold configureRelayed
  split
  next => exact drop_kept h
  next =>
    dsimp only
    split
    next => exact enter_kept h
    next =>
      refine reload_kept (modify_kept (enter_kept h) fun ns hns => take_kept fun hr => ?_)
      rcases enterClient_entry hns with ⟨k, hk, hat⟩ | hnone
      · exact hok hr k ns hk hat
      · intro status v hv
        rw [hnone] at hv
        cases hv

theorem modify_at {k : Nat} (f : RelayNonsense F → RelayNonsense F) (h : sn.sNonsense[k]? = some ns) :
    (sn.modify k f).sNonsense[k]? = some (f ns) := by
  simp [RelaySensor.modify, h]

theorem force_kept (h : sn.Kept fl) (hok : ∀ k ns, clientAt sn d = some k → sn.sNonsense[k]? = some ns →
    ns.nStrategy = .event → ∀ more status, sn.more.extract fl sn.sStatus = some (more, status) →
      ns.Holds fl status more.current) : (forceRelayed fl sn d now).Kept fl := by
  unfold forceRelayed
  split
  next k old hfound =>
    obtain ⟨k', hk, hfound⟩ := Option.bind_eq_some_iff.mp hfound
    obtain ⟨ns, hns, heq⟩ := Option.map_eq_some_iff.mp hfound
    cases heq
    have hforced : (sn.modify k (·.withStrategy .forced)).Kept fl := modify_kept h fun _ _ => .of_strategy nofun
    refine modify_kept (propagate_kept hforced) fun nx hx he => ?_
    unfold propagateAcquire at hx
    split at hx
    next =>
      rw [modify_at _ hns] at hx
      cases hx
      exact h ns (List.mem_of_getElem? hns) he
    next more status hextract =>
      simp only [List.getElem?_map, modify_at _ hns, Option.map_some, Option.some.injEq] at hx
      subst hx
      intro st v hv
      cases hv
      exact hok k ns hk hns he more status hextract
  next => exact drop_kept (propagate_kept (configure_kept h nofun))

/-- What stays with a sensor. -/
def RelaySensor.label (sn : RelaySensor F) : Text × Option (KatcpUrl × Text) := (sn.sName, sn.origin)

theorem propagate_label : (propagateAcquire fl sn now).1.label = sn.label := by
  unfold propagateAcquire
  split <;> rfl

theorem reload_label : (reloadRelayed fl sn now).1.label = sn.label := by
  unfold reloadRelayed
  split
  next => rfl
  next =>
    split
    next => exact propagate_label
    next => rfl

theorem drop_label : (dropClient fl sn d now).label = sn.label := by
  unfold dropClient
  split
  next => rfl
  next => exact reload_label

theorem enter_label : (enterClient fl sn d now).1.label = sn.label := by
  unfold enterClient
  split <;> rfl

theorem configure_label : (configureRelayed fl sn d r now).label = sn.label := by
  unfold configureRelayed
  split
  next => exact drop_label
  next =>
    dsimp only
    split
    next => exact enter_label
    next => exact reload_label.trans enter_label

theorem force_label : (forceRelayed fl sn d now).label = sn.label := by
  unfold forceRelayed
  split
  next => exact propagate_label
  next => exact drop_label.trans (propagate_label.trans configure_label)

end

section

open SwapVector

variable {F : Type} {fl : Doubles F} {s t : RelayState F} {sn sx : RelaySensor F} {now : Timeval} {d : DispatchId}
  {notice : Text} {args : Words} {told : List (Option SensorUpdate)} {i j : Nat} {job : RelayJob}

/-- A status inform that its callback can make sense of. -/
def Readable (fl : Doubles F) (s : RelayState F) (notice : Text) (args : Words) : Prop :=
  ∃ inform name combine, argString args 0 = some inform ∧ inform ≠ returnJob ∧ argString args 3 = some name ∧
    ((argString args 4).isSome ∨ (argString args 5).isSome) ∧ pathFromNotice notice name = some combine ∧
    ∀ i sn v, findRelay s combine = some i → s.sensors[i]? = some sn → argString args 5 = some v →
      scanValue fl sn.more v ≠ some none

/-- No status inform loses the callback of its subordinate, and no entry falls behind what its
client is sent: neither as it takes up the event strategy after another, nor by a read that the
client forces while there is something that it has not been told. -/
def RelayOk (fl : Doubles F) (s : RelayState F) : RelayAction F → Prop
  | .status j args _ => ∀ job, s.jobs[j]? = some job → Readable fl s (noticeName job.url sensorStatusInform) args
  | .configure i d r _ => ∀ sn k ns, s.sensors[i]? = some sn → clientAt sn d = some k → sn.sNonsense[k]? = some ns →
      r.strategy = .event → ns.Current fl
  | .force i d _ => ∀ sn k ns, s.sensors[i]? = some sn → clientAt sn d = some k → sn.sNonsense[k]? = some ns →
      ns.nStrategy = .event → ∀ more status, sn.more.extract fl sn.sStatus = some (more, status) →
        ns.Holds fl status more.current
  | _ => True

structure RelayInv (fl : Doubles F) (s : RelayState F) : Prop where
  attached : ∀ (j : Nat) (job : RelayJob), s.jobs[j]? = some job → job.live → job.statuses
  kept : ∀ sn ∈ s.sensors, sn.origin.isSome → sn.Kept fl

namespace RelayInv

theorem setSensor (h : RelayInv fl s) (hx : sx.origin.isSome → sx.Kept fl) : RelayInv fl (s.setSensor i sx) := by
  refine ⟨h.attached, fun sn hsn horigin => ?_⟩
  rcases List.mem_or_eq_of_mem_set hsn with hsn | rfl
  · exact h.kept sn hsn horigin
  · exact hx horigin

theorem setJob (h : RelayInv fl s) {jx : RelayJob} (hx : jx.live → jx.statuses) : RelayInv fl (s.setJob j jx) := by
  refine ⟨fun k job hjob hlive => ?_, h.kept⟩
  rw [RelayState.setJob, List.getElem?_set] at hjob
  split at hjob
  next =>
    split at hjob
    next =>
      cases hjob
      exact hx hlive
    next => cases hjob
  next => exact h.attached k job hjob hlive

theorem changed (h : RelayInv fl s) {f : RelaySensor F → RelaySensor F} (hs : s.changed i f = some t)
    (hf : ∀ sn, s.sensors[i]? = some sn → sn.Kept fl → (f sn).Kept fl) : RelayInv fl t := by
  unfold RelayState.changed at hs
  split at hs
  next => cases hs
  next sn hsn =>
    split at hs
    next => cases hs
    next horigin =>
      cases hs
      refine h.setSensor fun _ => hf sn hsn (h.kept sn (List.mem_of_getElem? hsn) ?_)
      cases hcase : sn.origin with
      | none => simp [hcase] at horigin
      | some _ => rfl

end RelayInv

theorem scanned_same {value : Option Text} (h : scanned fl sn value = some (some sx)) :
    sx.label = sn.label ∧ sx.sNonsense = sn.sNonsense := by
  unfold scanned at h
  split at h
  next =>
    cases h
    exact ⟨rfl, rfl⟩
  next value =>
    obtain ⟨more, _, h⟩ := Option.map_eq_some_iff.mp h
    obtain ⟨more, _, rfl⟩ := Option.map_eq_some_iff.mp h
    exact ⟨rfl, rfl⟩

theorem updateStatus_cases {scan : Option (RelaySensor F)} {status : Option Text} {r : Int}
    (h : updateStatus fl s i status now scan = (r, t, told)) :
    t = s ∨ ∃ sx sy, scan = some sx ∧ sy.label = sx.label ∧ sy.sNonsense = sx.sNonsense ∧
      (t = s.setSensor i sy ∨ t = s.setSensor i (propagateAcquire fl sy now).1) := by
  unfold updateStatus at h
  split at h
  next => cases h; exact Or.inl rfl
  next sx =>
    split at h
    next => cases h; exact Or.inr ⟨sx, sx, rfl, rfl, rfl, Or.inl rfl⟩
    next code _ => cases h; exact Or.inr ⟨sx, { sx with sStatus := code }, rfl, rfl, rfl, Or.inr rfl⟩
    next => cases h; exact Or.inr ⟨sx, sx, rfl, rfl, rfl, Or.inr rfl⟩

/-- A status inform leaves everything, or it gets to a sensor. -/
theorem matchSensorStatus_cases {r : Int} (h : matchSensorStatus fl s notice args now = some (r, t, told)) :
    (t = s ∧ told = []) ∨ ∃ i sn scan, s.sensors[i]? = some sn ∧ scanned fl sn (argString args 5) = some scan ∧
      updateStatus fl s i (argString args 4) now scan = (r, t, told) := by
  unfold matchSensorStatus at h
  split at h
  next => cases h; exact Or.inl ⟨rfl, rfl⟩
  next =>
    split at h
    next => cases h; exact Or.inl ⟨rfl, rfl⟩
    next =>
      split at h
      next => cases h; exact Or.inl ⟨rfl, rfl⟩
      next =>
        split at h
        next => cases h; exact Or.inl ⟨rfl, rfl⟩
        next =>
          split at h
          next => cases h; exact Or.inl ⟨rfl, rfl⟩
          next =>
            split at h
            next => cases h; exact Or.inl ⟨rfl, rfl⟩
            next i _ =>
              obtain ⟨sn, hsn, h⟩ := Option.bind_eq_some_iff.mp h
              obtain ⟨scan, hscan, h⟩ := Option.map_eq_some_iff.mp h
              exact Or.inr ⟨i, sn, scan, hsn, hscan, h⟩

/-- How an inform with a name and a value or a status runs. -/
theorem matchSensorStatus_named {inform name combine : Text} (h0 : argString args 0 = some inform)
    (hne : inform ≠ returnJob) (h3 : argString args 3 = some name)
    (h45 : (argString args 4).isSome ∨ (argString args 5).isSome) (hpath : pathFromNotice notice name = some combine) :
    matchSensorStatus fl s notice args now =
      match findRelay s combine with
      | none => some (1, s, [])
      | some i => (s.sensors[i]?).bind fun sn =>
        (scanned fl sn (argString args 5)).map (updateStatus fl s i (argString args 4) now) := by
  have hsome : ¬ ((argString args 4).isNone ∧ (argString args 5).isNone) := by
    rintro ⟨h4, h5⟩
    rcases h45 with h | h <;> simp_all
  rw [matchSensorStatus, h0]
  dsimp only
  rw [if_neg hne, h3]
  dsimp only
  rw [if_neg hsome]
  generalize pathFromNotice notice name = path at hpath ⊢
  subst hpath
  rfl

theorem readable_result {r : Int} (hread : Readable fl s notice args)
    (h : matchSensorStatus fl s notice args now = some (r, t, told)) : r = 1 := by
  obtain ⟨inform, name, combine, h0, hne, h3, h45, hpath, hscans⟩ := hread
  rw [matchSensorStatus_named h0 hne h3 h45 hpath] at h
  split at h
  next => cases h; rfl
  next i hfind =>
    obtain ⟨sn, hsn, h⟩ := Option.bind_eq_some_iff.mp h
    obtain ⟨scan, hscan, h⟩ := Option.map_eq_some_iff.mp h
    cases scan with
    | none =>
      unfold scanned at hscan
      split at hscan
      next => cases hscan
      next value hvalue =>
        obtain ⟨more, hmore, heq⟩ := Option.map_eq_some_iff.mp hscan
        rw [Option.map_eq_none_iff.mp heq] at hmore
        exact absurd hmore (hscans i sn value hfind hsn hvalue)
    | some sx =>
      unfold updateStatus at h
      dsimp only at h
      split at h <;> cases h <;> rfl

theorem RelayInv.matched {r : Int} (h : RelayInv fl s) (hmatch : matchSensorStatus fl s notice args now = some (r, t, told)) :
    RelayInv fl t ∧ t.jobs = s.jobs := by
  rcases matchSensorStatus_cases hmatch with ⟨rfl, _⟩ | ⟨i, sn, scan, hsn, hscan, hupdate⟩
  · exact ⟨h, rfl⟩
  · rcases updateStatus_cases hupdate with rfl | ⟨sx, sy, rfl, hlabel, hsame, ht⟩
    · exact ⟨h, rfl⟩
    · obtain ⟨hlabel', hsame'⟩ := scanned_same hscan
      have hkept : sy.origin.isSome → sy.Kept fl := by
        intro horigin
        have hsn' : sn.origin = sy.origin := by rw [← (Prod.mk.inj (hlabel.trans hlabel')).2]
        rw [RelaySensor.Kept, hsame, hsame']
        exact h.kept sn (List.mem_of_getElem? hsn) (hsn' ▸ horigin)
      rcases ht with rfl | rfl
      · exact ⟨h.setSensor hkept, rfl⟩
      · refine ⟨h.setSensor fun horigin => propagate_kept (hkept ?_), rfl⟩
        rwa [← (Prod.mk.inj propagate_label).2]

/-- A sensor list inform leaves everything, or it adds a sensor. -/
theorem matchSensorList_cases (fl : Doubles F) (s : RelayState F) (ku : KatcpUrl) (notice : Text) (args : Words)
    (memory : CheckedSensor Int) : (matchSensorList fl s ku notice args memory).2 = s ∨
      ∃ combine more name, pathFromNotice notice name = some combine ∧
        (matchSensorList fl s ku notice args memory).2 =
          { s with sensors := s.sensors ++ [⟨combine, 0, .unknown, [], more, some (ku, name)⟩] } := by
  unfold matchSensorList
  split
  next => exact Or.inl rfl
  next =>
    split
    next => exact Or.inl rfl
    next =>
      split
      next name _ type _ _ _ =>
        unfold declareSensor
        split
        next => exact Or.inl rfl
        next combine hpath =>
          split
          next => exact Or.inl rfl
          next =>
            split
            next => exact Or.inl rfl
            next more _ => exact Or.inr ⟨combine, more, name, hpath, rfl⟩
      next => exact Or.inl rfl

theorem deliverList_cases {memory : CheckedSensor Int} (h : deliverList fl s j args memory = some t) :
    t = s ∨ ∃ job r, s.jobs[j]? = some job ∧
      t = (matchSensorList fl s job.url (noticeName job.url sensorListInform) args memory).2.setJob j
        { job with lists := r } := by
  unfold deliverList at h
  split at h
  next => cases h
  next job hjob =>
    split at h
    next => cases h
    next =>
      split at h
      next =>
        cases h
        exact Or.inl rfl
      next =>
        cases h
        exact Or.inr ⟨job, _, hjob, rfl⟩

theorem RelayInv.listed (h : RelayInv fl s) {memory : CheckedSensor Int} (hs : deliverList fl s j args memory = some t) :
    RelayInv fl t := by
  rcases deliverList_cases hs with rfl | ⟨job, r, hjob, rfl⟩
  · exact h
  · refine RelayInv.setJob ?_ (h.attached j job hjob)
    rcases matchSensorList_cases fl s job.url (noticeName job.url sensorListInform) args memory with
      heq | ⟨combine, more, name, _, heq⟩
    · rwa [heq]
    · rw [heq]
      refine ⟨h.attached, fun sn hsn horigin => ?_⟩
      rcases List.mem_append.mp hsn with hsn | hsn
      · exact h.kept sn hsn horigin
      · cases List.mem_singleton.mp hsn
        intro ns hns
        cases hns

theorem RelayInv.delivered (h : RelayInv fl s) (hok : RelayOk fl s (.status j args now))
    (hs : deliverStatus fl s j args now = some (t, told)) : RelayInv fl t := by
  unfold deliverStatus at hs
  split at hs
  next => cases hs
  next job hjob =>
    split at hs
    next => cases hs
    next =>
      split at hs
      next => cases hs; exact h
      next =>
        obtain ⟨⟨r, u, told⟩, hmatch, heq⟩ := Option.map_eq_some_iff.mp hs
        cases heq
        have hr := readable_result (hok job hjob) hmatch
        subst hr
        exact (h.matched hmatch).1.setJob fun _ => rfl

theorem relay_keeps (fl : Doubles F) : (relayMachine fl).Keeps (RelayOk fl) fun s _ => RelayInv fl s := by
  intro s log a t h hok hs
  cases a with
  | connect source =>
    obtain ⟨url, _, rfl⟩ := Option.map_eq_some_iff.mp hs
    refine ⟨fun k job hjob hlive => ?_, h.kept⟩
    rw [List.getElem?_append] at hjob
    split at hjob
    next => exact h.attached k job hjob hlive
    next => cases List.mem_singleton.mp (List.mem_of_getElem? hjob); rfl
  | list j args memory => exact h.listed hs
  | status j args now =>
    obtain ⟨⟨u, told⟩, hdeliver, rfl⟩ := Option.map_eq_some_iff.mp hs
    exact h.delivered hok hdeliver
  | suspend j mark =>
    obtain ⟨job, hjob, rfl⟩ := Option.map_eq_some_iff.mp hs
    unfold jobSuspendSensor
    split
    next => exact h
    next start _ =>
      refine ⟨h.attached, fun sn hsn horigin => ?_⟩
      obtain ⟨sx, hsx, rfl⟩ := List.mem_map.mp hsn
      by_cases hstart : start.isPrefixOf sx.sName
      · rw [if_pos hstart] at horigin ⊢
        exact h.kept sx hsx horigin
      · rw [if_neg hstart] at horigin ⊢
        exact h.kept sx hsx horigin
  | gone j =>
    obtain ⟨job, hjob, rfl⟩ := Option.map_eq_some_iff.mp hs
    exact h.setJob nofun
  | configure i d r now =>
    exact h.changed hs fun sn hsn hkept => configure_kept hkept fun hr k ns hk hns => hok sn k ns hsn hk hns hr
  | force i d now =>
    exact h.changed hs fun sn hsn hkept => force_kept hkept fun k ns hk hns => hok sn k ns hsn hk hns
  | poll i now => exact h.changed hs fun sn hsn hkept => propagate_kept hkept
  | leave d now =>
    cases hs
    refine ⟨h.attached, fun sn hsn horigin => ?_⟩
    obtain ⟨sx, hsx, rfl⟩ := List.mem_map.mp hsn
    rw [(Prod.mk.inj drop_label).2] at horigin
    exact drop_kept (h.kept sx hsx horigin)
  | createLocal sn =>
    unfold relayMachine relayStep at hs
    dsimp only at hs
    split at hs
    next => cases hs
    next hlocal =>
      cases hs
      refine ⟨h.attached, fun sx hsx horigin => ?_⟩
      rcases List.mem_append.mp hsx with hsx | hsx
      · exact h.kept sx hsx horigin
      · cases List.mem_singleton.mp hsx
        exact absurd horigin hlocal
  | changeLocal i sn =>
    unfold relayMachine relayStep at hs
    dsimp only at hs
    split at hs
    next => cases hs
    next hlocal =>
      split at hs
      next => cases hs
      next =>
        split at hs
        next => cases hs
        next =>
          cases hs
          exact h.setSensor fun horigin => absurd horigin hlocal
  | destroy i =>
    unfold relayMachine relayStep at hs
    dsimp only at hs
    split at hs
    next hlt =>
      cases hs
      refine ⟨h.attached, fun sn hsn => h.kept sn ?_⟩
      exact (removeAt_perm (List.getElem?_eq_getElem hlt)).mem_iff.mp (List.mem_cons_of_mem _ hsn)
    next => cases hs
  | mode mode =>
    cases hs
    exact ⟨h.attached, h.kept⟩

theorem RelayInv.start : RelayInv fl (relayMachine fl).start where
  attached j job hjob := by simp [relayMachine] at hjob
  kept sn hsn := by simp [relayMachine] at hsn

theorem relay_run_inv {log : List (Option SensorUpdate)} (h : (relayMachine fl).Runs (RelayOk fl) s log) : RelayInv fl s :=
  h.invariant (fun s _ => RelayInv fl s) .start (relay_keeps fl)

end

end Katcp
