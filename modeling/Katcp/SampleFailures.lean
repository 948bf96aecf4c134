import Katcp.PollSingle
import Katcp.SampleSteps

namespace Katcp

open Function

section

variable {δ : Type} {timers timers' : Timers δ} {now tv : Timeval} {data : δ} {r : Int}

theorem registerTimer_status {whenTv : Timeval} (h : registerTimer timers whenTv tv data none = some (r, timers')) :
    r = 0 := by
  unfold registerTimer at h
  exact (createTimer_perm rfl h).1

theorem readjusted_status {index : Nat} {id : TimerId} (h : readjusted timers now tv index id = some (r, timers')) :
    r = 0 := by
  unfold readjusted at h
  split at h
  next => cases h
  next =>
    obtain ⟨_, _, h⟩ := Option.map_eq_some_iff.mp h
    cases h
    rfl

end

section

variable {s s' : Polling} {d : DispatchId} {sn : SensorId} {asked : Option Strategy} {extra : Option Text}
  {fresh : NonsenseId} {now : Timeval} {r : Int}

/-- What a client had asked for, and for which sensors, is what it was. -/
structure ClientKept (s s' : Polling) (d : DispatchId) : Prop where
  clients : s'.clients d = s.clients d
  entries : ∀ id ∈ s.clients d, s'.nonsenses id = s.nonsenses id
  sensors : ∀ sn, (s'.sensors sn).sNonsense = (s.sensors sn).sNonsense

theorem ClientKept.refl (s : Polling) (d : DispatchId) : ClientKept s s d := ⟨rfl, fun _ _ => rfl, fun _ => rfl⟩

theorem scheduleAcquire_status {a : AcquireId} {current : Timeval}
    (h : scheduleAcquire s a now current = some (r, s')) : r = 0 := by
  unfold scheduleAcquire at h
  split at h
  next => cases h
  next =>
    obtain ⟨⟨r1, timers⟩, hr, h⟩ := Option.map_eq_some_iff.mp h
    cases registerTimer_status hr
    cases h
    rfl
  next p hp =>
    obtain ⟨⟨r1, timers⟩, hr, h⟩ := Option.map_eq_some_iff.mp h
    unfold adjustIntervalAnonymous at hr
    rw [hp] at hr
    cases readjusted_status hr
    cases h
    rfl

theorem reloadSensor_status (h : reloadSensor s sn now = some (r, s')) : r = 0 := by
  unfold reloadSensor at h
  dsimp only at h
  split at h
  next => cases h
  next =>
    split at h
    next =>
      split at h
      next =>
        obtain ⟨_, _, h⟩ := Option.map_eq_some_iff.mp h
        cases h
        rfl
      next =>
        cases h
        rfl
    next => exact scheduleAcquire_status h

/-- A strategy is refused before anything is changed, or not at all. -/
theorem enterStrategy_status {id : NonsenseId} {strategy : Strategy}
    (h : enterStrategy s id sn strategy extra now = some (r, s')) :
    (lacksExtra (s.sensors sn).sType strategy extra = true ∧ r = -1 ∧ s' = s) ∨
      (lacksExtra (s.sensors sn).sType strategy extra = false ∧ r = 0) := by
  unfold enterStrategy at h
  split at h
  next => cases h
  next =>
    split at h
    next hlacks =>
      cases h
      exact .inl ⟨hlacks, rfl, rfl⟩
    next hhas => exact .inr ⟨Bool.eq_false_iff.mpr hhas, reloadSensor_status h⟩

theorem createNonsense_spec {id : NonsenseId} (h : createNonsense s d sn id = some s') :
    s'.clients d = s.clients d ++ [id] ∧ (s'.sensors sn).sType = (s.sensors sn).sType := by
  cases (Option.ite_none_left_eq_some.mp h).2
  exact ⟨update_self .., by simp [Polling.putSensor, Polling.putNonsense, Polling.putClient]⟩

/-- A client that had no entry for the sensor has one after a refusal. -/
theorem configureSensor_failed (h : configureSensor s d sn asked extra fresh now = some (r, s')) :
    (r < 0 → ClientKept s s' d) ↔
      findNonsense s (s.sensors sn).sName (s.clients d) ≠ some none ∨
        lacksExtra (s.sensors sn).sType (asked.getD .event) extra = false := by
  unfold configureSensor at h
  dsimp only at h
  split at h
  next => cases h
  next hnone =>
    rw [hnone]
    split at h
    next hoff =>
      cases h
      rw [hoff]
      exact iff_of_true (fun hr => absurd hr (by decide)) (.inr rfl)
    next =>
      obtain ⟨s1, hcreate, h⟩ := Option.bind_eq_some_iff.mp h
      obtain ⟨hclients, htype⟩ := createNonsense_spec hcreate
      rw [← htype]
      obtain ⟨hlacks, rfl, rfl⟩ | ⟨hhas, rfl⟩ := enterStrategy_status h
      · rw [hlacks]
        refine iff_of_false (fun hkept => ?_) (fun hor => hor.elim (fun hne => hne rfl) (fun hf => by cases hf))
        have hlength := congrArg List.length ((hkept (by decide)).clients.symm.trans hclients)
        simp at hlength
      · exact iff_of_true (fun hr => absurd hr (by decide)) (.inr hhas)
  next id hid =>
    rw [hid]
    refine iff_of_true (fun hr => ?_) (.inl fun hne => by cases hne)
    split at h
    next =>
      cases h
      exact .refl s d
    split at h
    next =>
      obtain ⟨s1, _, h⟩ := Option.map_eq_some_iff.mp h
      cases h
      exact absurd hr (by decide)
    next =>
      obtain ⟨_, rfl, rfl⟩ | ⟨_, rfl⟩ := enterStrategy_status h
      · exact .refl _ d
      · exact absurd hr (by decide)

end

/-- The loop of `bulk_sensor_sampling_group_cmd_katcp` over its arguments, from the last on. -/
def searchStrategy : Words → Option Strategy
  | [] => none
  | arg :: rest =>
    if arg = [] then none
    else
      match strategyFromString (cString arg) with
      | some strategy => some strategy
      | none => searchStrategy rest

/-- The strategy and the keys of a bulk request, or why it is refused. -/
def bulkAsked (args : Words) : Except (ResultCode × Text) (Strategy × List Text) :=
  if args.length ≤ 2 then .error (.invalid, usage)
  else
    let keys (strategy : Strategy) : Except (ResultCode × Text) (Strategy × List Text) :=
      match argString args 1 with
      | none => .error (.fail, textOf "malloc")
      | some base => .ok (strategy, base.splitOn (byte ','))
    match searchStrategy (args.drop 2).reverse with
    | some .off => keys .off
    | some .event => keys .event
    | some .period => if ((argString args 3).bind stringToTv).isSome then keys .period else .error (.fail, usage)
    | _ => .error (.fail, usage)

/-- The checks of the loop on a key; `found` is `find_vrbl_katcp`. -/
def bulkTarget (s : Sampling) (found : Text → Option VrblId) (key : Text) : Option VrblId :=
  (found key).bind fun vx =>
    if ¬ (s.vrbls vx).vSen ∨ ¬ (s.vrbls vx).vValue then none
    else if (s.vrbls vx).vHid then none
    else some vx

/-- A sensor whose strategy is another one; the support for periods is left out of the build. -/
def bulkChange (s : Sampling) (vx : VrblId) (fx : Client) (prior strategy : Strategy) (fresh : SubscribeId) :
    Option (Option Text × List Words × Sampling) := do
  let (r, s) ← endSampling s vx fx.fPeer prior .event
  if r < 0 then some (some internal, [], s)
  else
    let (r, s) ← endSampling s vx fx.fPeer prior .period
    if r < 0 then some (some internal, [], s)
    else
      match strategy with
      | .event =>
        (monitorEvent s vx fx.fPeer fresh).map fun (r, shown, s) => (if r < 0 then some internal else none, shown, s)
      | .period => some (some usage, [], s)
      | .off => some (none, [], s)
      | _ => some (some internal, [], s)

/-- The loop over the keys. -/
def bulkKeys (found : Text → Option VrblId) (fx : Client) (strategy : Strategy) (fresh : Text → SubscribeId) :
    List Text → Sampling → Option Sampled
  | [], s => some ⟨.ok, [], [], s⟩
  | key :: rest, s =>
    match bulkTarget s found key with
    | none => some ⟨.fail, [notFound], [], s⟩
    | some vx => do
      let prior ← currentStrategy s vx fx.fPeer
      if prior = strategy then bulkKeys found fx strategy fresh rest s
      else
        let (failure, shown, s) ← bulkChange s vx fx prior strategy (fresh key)
        match failure with
        | some text => some ⟨.fail, [text], shown, s⟩
        | none => (bulkKeys found fx strategy fresh rest s).map fun o => { o with shown := shown ++ o.shown }

def bulkSampling (s : Sampling) (fx : Client) (args : Words) (found : Text → Option VrblId)
    (fresh : Text → SubscribeId) : Option Sampled :=
  match bulkAsked args with
  | .error (code, text) => some ⟨code, [text], [], s⟩
  | .ok (strategy, keys) => bulkKeys found fx strategy fresh keys s

section

variable {s s' : Sampling} {fx : Client} {vx : VrblId} {peer : EndpointId} {strategy prior : Strategy} {r : Int}
  {shown : List Words} {fresh id : SubscribeId} {args : Words} {found : Text → Option VrblId}

/-- What a request looks at in a variable does not change with its subscriptions. -/
def SameFlags (s s' : Sampling) : Prop :=
  ∀ vx, (s'.vrbls vx).vSen = (s.vrbls vx).vSen ∧ (s'.vrbls vx).vHid = (s.vrbls vx).vHid ∧
    (s'.vrbls vx).vValue = (s.vrbls vx).vValue

namespace SameFlags

theorem of_eq (h : s'.vrbls = s.vrbls) : SameFlags s s' := by
  intro vx
  rw [h]
  exact ⟨rfl, rfl, rfl⟩

theorem trans {s'' : Sampling} (h : SameFlags s s') (h' : SameFlags s' s'') : SameFlags s s'' := by
  intro vx
  obtain ⟨h1, h2, h3⟩ := h vx
  obtain ⟨h4, h5, h6⟩ := h' vx
  exact ⟨h4.trans h1, h5.trans h2, h6.trans h3⟩

theorem putWit (s : Sampling) (vx : VrblId) (w : KatcpWit) : SameFlags s (s.putWit vx w) := by
  intro x
  by_cases hx : x = vx
  · subst hx
    simp [Sampling.putWit]
  · simp [Sampling.putWit, hx]

theorem bulkTarget (h : SameFlags s s') (found : Text → Option VrblId) (key : Text) :
    bulkTarget s' found key = bulkTarget s found key := by
  unfold Katcp.bulkTarget
  cases found key with
  | none => rfl
  | some vx =>
    obtain ⟨h1, h2, h3⟩ := h vx
    rw [Option.bind_some, Option.bind_some, h1, h2, h3]

end SameFlags

theorem deleteSubscribe_flags {w : KatcpWit} (h : deleteSubscribe s vx w id = some s') : SameFlags s s' := by
  unfold deleteSubscribe at h
  split at h
  next => cases h
  split at h
  next => cases h
  split at h
  next => cases h
  obtain ⟨s1, hclose, hdestroy⟩ := Option.bind_eq_some_iff.mp h
  have hfirst : SameFlags s s1 := by
    unfold closeVector at hclose
    dsimp only at hclose
    split at hclose
    next =>
      obtain ⟨fixup, _, hclose⟩ := Option.bind_eq_some_iff.mp hclose
      obtain ⟨moved, _, hclose⟩ := Option.bind_eq_some_iff.mp hclose
      cases hclose
      exact SameFlags.trans (.of_eq rfl) (SameFlags.putWit (s.putSub fixup _) vx _)
    next =>
      cases hclose
      exact SameFlags.putWit s vx _
  refine hfirst.trans (.of_eq ?_)
  unfold destroySubscribe at hdestroy
  split at hdestroy
  next => cases hdestroy
  split at hdestroy
  next =>
    split at hdestroy
    next => cases hdestroy
    next =>
      cases (Option.ite_none_right_eq_some.mp hdestroy).2
      rfl
  next =>
    cases hdestroy
    rfl

theorem endSampling_status (h : endSampling s vx peer prior strategy = some (r, s')) : 0 ≤ r ∧ SameFlags s s' := by
  unfold endSampling at h
  split at h
  next =>
    unfold forgetVariable at h
    split at h
    next =>
      cases h
      exact ⟨by decide, .of_eq rfl⟩
    split at h
    next => cases h
    next =>
      cases h
      exact ⟨by decide, .of_eq rfl⟩
    next =>
      obtain ⟨s1, hdelete, h⟩ := Option.map_eq_some_iff.mp h
      cases h
      exact ⟨by decide, deleteSubscribe_flags hdelete⟩
  next =>
    cases h
    exact ⟨by decide, .of_eq rfl⟩

theorem attachVariable_status {o : Option Sampling} (hsen : (s.vrbls vx).vSen = true)
    (hstrategy : hasVector strategy = true) (h : attachVariable s vx peer strategy id = some o) :
    ∃ s1, o = some s1 ∧ SameFlags s s1 := by
  unfold attachVariable at h
  rw [if_neg (not_not.mpr hsen)] at h
  split at h
  next => cases h
  next hcreate =>
    have hvector := (Option.ite_none_left_eq_some.mp hcreate).2
    rw [if_pos hstrategy] at hvector
    cases hvector
  next s1 hcreate =>
    obtain ⟨sub, _, h⟩ := Option.map_eq_some_iff.mp h
    have hvector := (Option.ite_none_left_eq_some.mp hcreate).2
    rw [if_pos hstrategy] at hvector
    cases hvector
    exact ⟨_, h.symm, (SameFlags.of_eq rfl).trans ((SameFlags.putWit _ vx _).trans (.of_eq rfl))⟩

/-- A sensor can be monitored. -/
theorem monitorVariable_status {o : Option SubscribeId} (hsen : (s.vrbls vx).vSen = true)
    (hstrategy : hasVector strategy = true) (h : monitorVariable s vx peer strategy fresh = some (o, shown, s')) :
    o.isSome = true ∧ SameFlags s s' := by
  unfold monitorVariable at h
  split at h
  next => cases h
  split at h
  next => cases h
  next =>
    cases h
    exact ⟨rfl, .of_eq rfl⟩
  next =>
    split at h
    next => cases h
    next hattach =>
      obtain ⟨s1, hs1, _⟩ := attachVariable_status hsen hstrategy hattach
      cases hs1
    next hattach =>
      obtain ⟨s1, hs1, hflags⟩ := attachVariable_status hsen hstrategy hattach
      cases hs1
      cases h
      exact ⟨rfl, hflags⟩

theorem monitorEvent_status (hsen : (s.vrbls vx).vSen = true)
    (h : monitorEvent s vx peer fresh = some (r, shown, s')) : r = 0 ∧ SameFlags s s' := by
  unfold monitorEvent at h
  split at h
  next => cases h
  next hmonitor => cases (monitorVariable_status hsen rfl hmonitor).1
  next hmonitor =>
    obtain ⟨s1, hset, h⟩ := Option.map_eq_some_iff.mp h
    obtain ⟨sub, _, hset⟩ := Option.map_eq_some_iff.mp hset
    cases hset
    cases h
    exact ⟨rfl, (monitorVariable_status hsen rfl hmonitor).2.trans (.of_eq rfl)⟩

theorem onPeriodTimer_status {now tv : Timeval} {name : TimerName}
    (h : onPeriodTimer s now tv id name = some (r, s')) : r = 0 := by
  unfold onPeriodTimer at h
  split at h
  next => cases h
  next r1 timers hregister =>
    obtain ⟨s1, hset, h⟩ := Option.bind_eq_some_iff.mp h
    obtain ⟨sub, _, hset⟩ := Option.map_eq_some_iff.mp hset
    cases hset
    split at h
    next hone =>
      obtain ⟨⟨r2, timers2⟩, hadjust, h⟩ := Option.map_eq_some_iff.mp h
      cases h
      rcases registerTimer_name hregister with ⟨_, ⟨index, k⟩, hp⟩ | ⟨hzero, _⟩
      · rcases registerTimer_cases hregister with ⟨_, hids, hstore⟩ | ⟨hzero, _⟩
        · change adjustInterval timers now tv name = _ at hadjust
          unfold adjustInterval at hadjust
          rw [findByName_congr hids hstore, hp] at hadjust
          exact readjusted_status hadjust
        · rw [hone] at hzero
          cases hzero
      · rw [hone] at hzero
        cases hzero
    next hne =>
      cases h
      rcases registerTimer_name hregister with ⟨hone, _⟩ | ⟨hzero, _⟩
      · exact absurd hone hne
      · exact hzero

theorem monitorPeriod_status {now tv : Timeval} {name : TimerName} (hsen : (s.vrbls vx).vSen = true)
    (h : monitorPeriod s vx peer now tv name fresh = some (r, shown, s')) : r = 0 := by
  unfold monitorPeriod at h
  split at h
  next => cases h
  next hmonitor => cases (monitorVariable_status hsen rfl hmonitor).1
  next =>
    obtain ⟨⟨r1, s1⟩, htimer, h⟩ := Option.map_eq_some_iff.mp h
    cases h
    exact onPeriodTimer_status htimer

theorem samplingTarget_sensor {key : Text} {target : Option VrblId}
    (h : samplingTarget s args target = .ok (vx, key)) : (s.vrbls vx).vSen = true := by
  unfold samplingTarget at h
  split at h
  next => cases h
  split at h
  next => cases h
  split at h
  next => cases h
  split at h
  next => cases h
  next hsen =>
    split at h
    next => cases h
    next =>
      cases h
      rw [not_or, not_not, not_not] at hsen
      exact hsen.1

theorem sampledAs_ok {key strategy : Text} {m : Int × List Words × Sampling} (hm : 0 ≤ m.1) :
    (sampledAs key strategy m).code = .ok := by
  obtain ⟨r, shown, s⟩ := m
  unfold sampledAs
  dsimp only at hm ⊢
  rw [if_neg (not_lt.mpr hm)]

/-- A request for a client is refused before anything is changed. -/
theorem sensorSampling_failed {target : Option VrblId} {now : Timeval} {o : Sampled}
    (h : sensorSampling s fx args target fresh now = some o) (hcode : o.code ≠ .ok) : o.state = s := by
  unfold sensorSampling at h
  split at h
  next =>
    cases h
    rfl
  next key htarget =>
    have hsen := samplingTarget_sensor htarget
    obtain ⟨current, _, h⟩ := Option.bind_eq_some_iff.mp h
    dsimp only at h
    split at h
    next =>
      cases h
      rfl
    next =>
      obtain ⟨m, hevent, rfl⟩ := Option.map_eq_some_iff.mp h
      refine absurd (sampledAs_ok ?_) hcode
      obtain ⟨⟨r1, s1⟩, hend, hevent⟩ := Option.bind_eq_some_iff.mp hevent
      obtain ⟨hr, hflags⟩ := endSampling_status hend
      dsimp only at hevent
      rw [if_neg (not_lt.mpr hr)] at hevent
      rw [(monitorEvent_status ((hflags _).1.trans hsen) hevent).1]
    next =>
      obtain ⟨m, hperiod, rfl⟩ := Option.map_eq_some_iff.mp h
      refine absurd (sampledAs_ok ?_) hcode
      obtain ⟨⟨r1, s1⟩, hend, hperiod⟩ := Option.bind_eq_some_iff.mp hperiod
      obtain ⟨hr, hflags⟩ := endSampling_status hend
      dsimp only at hperiod
      rw [if_neg (not_lt.mpr hr)] at hperiod
      rw [monitorPeriod_status ((hflags _).1.trans hsen) hperiod]
    next =>
      obtain ⟨m, hoff, rfl⟩ := Option.map_eq_some_iff.mp h
      refine absurd (sampledAs_ok ?_) hcode
      obtain ⟨⟨r1, s1⟩, hend, hoff⟩ := Option.bind_eq_some_iff.mp hoff
      obtain ⟨hr, _⟩ := endSampling_status hend
      dsimp only at hoff
      rw [if_neg (not_lt.mpr hr)] at hoff
      obtain ⟨⟨r2, s2⟩, hlast, hoff⟩ := Option.bind_eq_some_iff.mp hoff
      cases hoff
      exact (endSampling_status hlast).1
    next =>
      cases h
      rfl

end

section

variable {s s' : Sampling} {fx : Client} {vx : VrblId} {strategy prior : Strategy} {args : Words}
  {found : Text → Option VrblId} {fresh : Text → SubscribeId} {key : Text} {keys : List Text} {o : Sampled}

/-- A key that the loop passes over: the client has the strategy already. -/
def passesOver (s : Sampling) (fx : Client) (found : Text → Option VrblId) (strategy : Strategy) (key : Text) :
    Bool :=
  (bulkTarget s found key).any fun vx => currentStrategy s vx fx.fPeer = some strategy

/-- A key that is refused at once: there is no such sensor, or a period is asked for one that the
client does not sample. -/
def refusedAtOnce (s : Sampling) (fx : Client) (found : Text → Option VrblId) (strategy : Strategy) (key : Text) :
    Bool :=
  (bulkTarget s found key).all fun vx => strategy = .period && currentStrategy s vx fx.fPeer = some .off

/-- The first key that is not passed over, if any, is refused at once, or all of them can be had. -/
def Harmless (s : Sampling) (fx : Client) (found : Text → Option VrblId) (strategy : Strategy) (keys : List Text) :
    Prop :=
  (keys.dropWhile (passesOver s fx found strategy)).head?.all (refusedAtOnce s fx found strategy) = true ∨
    strategy ≠ .period ∧ ∀ key ∈ keys, (bulkTarget s found key).isSome = true

theorem bulkKeys_refused (hfirst : (keys.dropWhile (passesOver s fx found strategy)).head?.all
      (refusedAtOnce s fx found strategy) = true)
    (h : bulkKeys found fx strategy fresh keys s = some o) (hcode : o.code ≠ .ok) : o.state = s := by
  induction keys generalizing o with
  | nil =>
    cases h
    rfl
  | cons key keys ih =>
    unfold bulkKeys at h
    rw [List.dropWhile_cons] at hfirst
    split at h
    next =>
      cases h
      rfl
    next vx htarget =>
      obtain ⟨prior, hprior, h⟩ := Option.bind_eq_some_iff.mp h
      have hpass : passesOver s fx found strategy key = decide (prior = strategy) := by
        simp [passesOver, htarget, hprior]
      rw [hpass] at hfirst
      split at h
      next hsame =>
        rw [if_pos (decide_eq_true hsame)] at hfirst
        exact ih hfirst h hcode
      next hother =>
        rw [if_neg (by simpa using hother), List.head?_cons, Option.all_some] at hfirst
        simp only [refusedAtOnce, htarget, hprior, Option.all_some, Bool.and_eq_true, decide_eq_true_eq,
          Option.some.injEq] at hfirst
        obtain ⟨rfl, rfl⟩ := hfirst
        cases h
        rfl

theorem bulkChange_status {one : SubscribeId} {failure : Option Text} {shown : List Words}
    (hsen : (s.vrbls vx).vSen = true) (hstrategy : strategy = .off ∨ strategy = .event)
    (h : bulkChange s vx fx prior strategy one = some (failure, shown, s')) : failure = none ∧ SameFlags s s' := by
  unfold bulkChange at h
  obtain ⟨⟨r1, s1⟩, hfirst, h⟩ := Option.bind_eq_some_iff.mp h
  obtain ⟨hr1, hflags1⟩ := endSampling_status hfirst
  dsimp only at h
  rw [if_neg (not_lt.mpr hr1)] at h
  obtain ⟨⟨r2, s2⟩, hsecond, h⟩ := Option.bind_eq_some_iff.mp h
  obtain ⟨hr2, hflags2⟩ := endSampling_status hsecond
  dsimp only at h
  rw [if_neg (not_lt.mpr hr2)] at h
  have hflags := hflags1.trans hflags2
  rcases hstrategy with rfl | rfl
  · cases h
    exact ⟨rfl, hflags⟩
  · obtain ⟨⟨r3, shown3, s3⟩, hevent, h⟩ := Option.map_eq_some_iff.mp h
    obtain ⟨rfl, hflags3⟩ := monitorEvent_status ((hflags vx).1.trans hsen) hevent
    cases h
    exact ⟨rfl, hflags.trans hflags3⟩

theorem bulkTarget_sensor (h : bulkTarget s found key = some vx) : (s.vrbls vx).vSen = true := by
  obtain ⟨v, _, h⟩ := Option.bind_eq_some_iff.mp h
  obtain ⟨hsen, h⟩ := Option.ite_none_left_eq_some.mp h
  cases (Option.ite_none_left_eq_some.mp h).2
  rw [not_or, not_not, not_not] at hsen
  exact hsen.1

/-- A request for sensors that are all there succeeds. -/
theorem bulkKeys_granted (hstrategy : strategy = .off ∨ strategy = .event)
    (hall : ∀ key ∈ keys, (bulkTarget s found key).isSome = true)
    (h : bulkKeys found fx strategy fresh keys s = some o) : o.code = .ok := by
  induction keys generalizing s o with
  | nil =>
    cases h
    rfl
  | cons key keys ih =>
    have hfound := hall key (List.mem_cons_self ..)
    have hrest := fun k hk => hall k (List.mem_cons_of_mem key hk)
    unfold bulkKeys at h
    split at h
    next hnone =>
      rw [hnone] at hfound
      cases hfound
    next vx htarget =>
      obtain ⟨prior, _, h⟩ := Option.bind_eq_some_iff.mp h
      split at h
      next => exact ih hrest h
      next =>
        obtain ⟨⟨failure, shown, s1⟩, hchange, h⟩ := Option.bind_eq_some_iff.mp h
        obtain ⟨rfl, hflags⟩ := bulkChange_status (bulkTarget_sensor htarget) hstrategy hchange
        obtain ⟨o1, hkeys, rfl⟩ := Option.map_eq_some_iff.mp h
        have hok : o1.code = .ok := ih (fun k hk => (hflags.bulkTarget found k) ▸ hrest k hk) hkeys
        exact hok

theorem bulkAsked_strategy (h : bulkAsked args = .ok (strategy, keys)) (hperiod : strategy ≠ .period) :
    strategy = .off ∨ strategy = .event := by
  unfold bulkAsked at h
  split at h
  next => cases h
  dsimp only at h
  split at h
  next =>
    split at h
    next => cases h
    next =>
      cases h
      exact .inl rfl
  next =>
    split at h
    next => cases h
    next =>
      cases h
      exact .inr rfl
  next =>
    split at h
    next =>
      split at h
      next => cases h
      next =>
        cases h
        exact absurd rfl hperiod
    next => cases h
  next => cases h

theorem bulkSampling_failed (hharmless : ∀ strategy keys, bulkAsked args = .ok (strategy, keys) →
      Harmless s fx found strategy keys)
    (h : bulkSampling s fx args found fresh = some o) (hcode : o.code ≠ .ok) : o.state = s := by
  unfold bulkSampling at h
  split at h
  next =>
    cases h
    rfl
  next strategy keys hasked =>
    rcases hharmless strategy keys hasked with hfirst | ⟨hperiod, hall⟩
    · exact bulkKeys_refused hfirst h hcode
    · exact absurd (bulkKeys_granted (bulkAsked_strategy hasked hperiod) hall h) hcode

end

def bulkWords (words : Words) : Words := textOf "?bulk-sensor-sampling" :: words

/-- Only the first of the sensors has a name. -/
def namedSensor (key : Text) : Option VrblId := if key = textOf "s" then some 0 else none

end Katcp
