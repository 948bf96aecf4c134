import Katcp.SampleInvariant

namespace Katcp

section

variable {s s' : Sampling} {log : List Granted} {vx : VrblId} {strategy current : Strategy}
  {id fresh : SubscribeId} {peer : EndpointId} {now tv : Timeval} {name : TimerName} {r : Int}
  {shown : List Words}

/-- The client has this subscription to the variable. -/
def Subscribed (s : Sampling) (vx : VrblId) (peer : EndpointId) (strategy : Strategy) (id : SubscribeId) :
    Prop :=
  id ∈ vectorOf s vx strategy ∧ ∃ sub, s.subs id = some sub ∧ sub.sEndpoint = peer

/-- The timer found under the name is the armed one of the client's own subscription, and
where the client has none, no timer is found. -/
def NameFits (s : Sampling) (vx : VrblId) (peer : EndpointId) (name : TimerName) : Prop :=
  match findByName s.timers name with
  | none => True
  | some none => ∀ id, ¬ Subscribed s vx peer .period id
  | some (some (_, k)) => ∃ id tv, Subscribed s vx peer .period id ∧ pending s.timers k = some (id, tv)

/-- What a request has to meet that starts, changes or ends periodic sampling. -/
def SamplesApart (s : Sampling) : SamplingAction → Prop
  | .request fx args found _ _ => ∀ vx key, samplingTarget s args found = .ok (vx, key) →
    match askedStrategy args with
    | .period tv => tv ≠ .zero ∧ NameFits s vx fx.fPeer (timerName fx key)
    | .event => ∀ id, Subscribed s vx fx.fPeer .period id → FirstArmed s id
    | .off => ∀ id, Subscribed s vx fx.fPeer .period id → FirstArmed s id
    | _ => True
  | _ => True

theorem Unsubscribed.not (h : Unsubscribed s vx peer) : ¬ Subscribed s vx peer strategy id := by
  rintro ⟨hmem, sub, hsub, hpeer⟩
  exact h strategy id hmem sub hsub hpeer

theorem currentStrategy_cases (h : InVectors s) (hc : currentStrategy s vx peer = some current) :
    (current = .off ∧ Unsubscribed s vx peer) ∨
      (hasVector current = true ∧ ∃ id, Subscribed s vx peer current id) := by
  unfold currentStrategy at hc
  split at hc
  · cases hc
  next hl =>
    cases hc
    exact Or.inl ⟨rfl, locateSubscribe_none hl⟩
  next id hl =>
    obtain ⟨t, sub, hmem, hsub, hpeer⟩ := locateSubscribe_some hl
    obtain ⟨i, e, _, hsub'⟩ := h.live hmem
    rw [hsub'] at hc
    cases hc
    exact Or.inr ⟨hasVector_of_mem hmem, id, hmem, sub, hsub, hpeer⟩

/-- Ending a client's subscription leaves the client without any. -/
theorem forgetVariable_inv (h : SamplingInv s log) (hsub : Subscribed s vx peer strategy id)
    (hfirst : strategy = .period → FirstArmed s id)
    (hf : forgetVariable s vx peer strategy = some (r, s')) :
    r = 0 ∧ SamplingInv s' log ∧ Unsubscribed s' vx peer ∧
      (strategy ≠ .period → s'.timers = s.timers) := by
  obtain ⟨hmem, sub, hsub, hpeer⟩ := hsub
  unfold forgetVariable at hf
  split at hf
  next hw => simp [vectorOf, hw] at hmem
  next w hw =>
    rw [← vectorOf_some hw] at hf
    split at hf
    · cases hf
    next hs => exact absurd hpeer (searchEndpoint_none hs id hmem sub hsub)
    next id' hs =>
      obtain ⟨s1, hd, he⟩ := Option.map_eq_some_iff.mp hf
      cases he
      obtain ⟨hmem', sub', hsub', hpeer'⟩ := searchEndpoint_some hs
      have hid : id' = id := h.single vx strategy strategy id id' sub sub' hmem hmem' hsub hsub'
        (hpeer'.trans hpeer.symm)
      subst hid
      obtain ⟨i, _, hi, _⟩ := h.vectors.live hmem
      have hdel := deleteSubscribe_deleted h.vectors hw hi hd
      refine ⟨rfl, h.deleted hi hdel hfirst, ?_, fun hne => ?_⟩
      · intro t x hx sub1 hsub1 hpeer1
        obtain ⟨hold, hne⟩ := hdel.mem h.vectors hi hx
        obtain ⟨sub0, hsub0, he⟩ := hdel.sub_some hsub1
        exact hne (h.single vx strategy t id' x sub sub0 hmem hold hsub hsub0
          (he.symm.trans (hpeer1.trans hpeer.symm)))
      · have ht := hdel.timers
        rwa [if_neg hne] at ht

theorem endSampling_inv (h : SamplingInv s log) (hc : currentStrategy s vx peer = some current)
    (hs : hasVector strategy = true)
    (hfirst : strategy = .period → ∀ id, Subscribed s vx peer .period id → FirstArmed s id)
    (he : endSampling s vx peer current strategy = some (r, s')) :
    r = 0 ∧ SamplingInv s' log ∧ (strategy ≠ .period → s'.timers = s.timers) ∧
      (Unsubscribed s' vx peer ∨ (s' = s ∧ current ≠ strategy ∧ ∃ id, Subscribed s vx peer current id)) := by
  unfold endSampling at he
  split at he
  next heq =>
    subst heq
    rcases currentStrategy_cases h.vectors hc with ⟨rfl, _⟩ | ⟨_, id, hsub⟩
    · cases hs
    · obtain ⟨hr, hinv, hnone, ht⟩ := forgetVariable_inv h hsub (fun hp => by
        subst hp
        exact hfirst rfl id hsub) he
      exact ⟨hr, hinv, ht, Or.inl hnone⟩
  next hne =>
    cases he
    refine ⟨rfl, h, fun _ => rfl, ?_⟩
    rcases currentStrategy_cases h.vectors hc with ⟨_, hnone⟩ | ⟨_, id, hsub⟩
    · exact Or.inl hnone
    · exact Or.inr ⟨rfl, hne, id, hsub⟩

/-- What monitoring a variable comes to: no subscription, the one that is there, or a new one. -/
theorem monitorVariable_cases {o : Option SubscribeId}
    (h : monitorVariable s vx peer strategy fresh = some (o, shown, s')) :
    (o = none ∧ s' = s) ∨ (∃ id, o = some id ∧ s' = s ∧ locateSubscribe s vx peer = some (some id)) ∨
    (o = some fresh ∧ locateSubscribe s vx peer = some none ∧
      attachVariable s vx peer strategy fresh = some (some s')) := by
  unfold monitorVariable at h
  split at h
  · cases h
  split at h
  · cases h
  next id hl =>
    cases h
    exact Or.inr (Or.inl ⟨id, rfl, rfl, hl⟩)
  next hl =>
    split at h
    · cases h
    · cases h
      exact Or.inl ⟨rfl, rfl⟩
    next ha =>
      cases h
      exact Or.inr (Or.inr ⟨rfl, hl, ha⟩)

theorem setStrategy_same {sub : KatcpSubscribe} (hsub : s.subs id = some sub)
    (hst : sub.sStrategy = strategy) (h : setStrategy s id strategy = some s') : s' = s := by
  unfold setStrategy at h
  rw [hsub] at h
  have h := Option.some.inj h
  subst hst
  simp only [Sampling.putSub, ← hsub, Function.update_eq_self] at h
  exact h.symm

theorem Attached.added {s1 s2 : Sampling} (ha : Attached s s1 vx peer strategy id)
    (hv : s2.vrbls = s1.vrbls) (hs : s2.subs = s1.subs) (h : setStrategy s2 id strategy = some s') :
    Added s s' vx peer strategy id ∧ s'.timers = s2.timers := by
  unfold setStrategy at h
  rw [hs, ha.subs, Function.update_self] at h
  have h := Option.some.inj h
  have hvrbls : s'.vrbls = s1.vrbls := by rw [← h, ← hv]; rfl
  refine ⟨⟨ha.unused, fun x t => ?_, ?_⟩, by rw [← h]; rfl⟩
  · rw [← ha.vectors, vectorOf, vectorOf, hvrbls]
  · rw [← h]
    simp only [Sampling.putSub]
    rw [hs, ha.subs, Function.update_idem]

/-- The subscription that is located is the one the client is known to have. -/
theorem located (h : Consistent s log) (hl : locateSubscribe s vx peer = some (some id)) {id' : SubscribeId}
    (hsub : Subscribed s vx peer strategy id') : id = id' := by
  obtain ⟨t, sub, hmem, hs, hpeer⟩ := locateSubscribe_some hl
  obtain ⟨hmem', sub', hs', hpeer'⟩ := hsub
  exact h.single vx strategy t id' id sub' sub hmem' hmem hs' hs (hpeer.trans hpeer'.symm)

theorem Subscribed.not_unlocated (hsub : Subscribed s vx peer strategy id) :
    locateSubscribe s vx peer ≠ some none := by
  intro hl
  exact (locateSubscribe_none hl).not hsub

theorem Unsubscribed.not_located (h : Unsubscribed s vx peer) :
    locateSubscribe s vx peer ≠ some (some id) := by
  intro hl
  obtain ⟨t, sub, hmem, hs, hpeer⟩ := locateSubscribe_some hl
  exact h t id hmem sub hs hpeer

theorem monitorEvent_inv (h : SamplingInv s log)
    (hc : Unsubscribed s vx peer ∨ ∃ id, Subscribed s vx peer .event id)
    (hm : monitorEvent s vx peer fresh = some (r, shown, s')) : SamplingInv s' log := by
  unfold monitorEvent at hm
  split at hm
  · cases hm
  next hv =>
    cases hm
    rcases monitorVariable_cases hv with ⟨_, rfl⟩ | ⟨id, ho, _⟩ | ⟨ho, _⟩
    · exact h
    · cases ho
    · cases ho
  next id shown s1 hv =>
    obtain ⟨s2, hset, he⟩ := Option.map_eq_some_iff.mp hm
    cases he
    rcases monitorVariable_cases hv with ⟨ho, _⟩ | ⟨id', ho, rfl, hl⟩ | ⟨ho, hl, ha⟩
    · cases ho
    · cases ho
      rcases hc with hnone | ⟨id', hsub⟩
      · exact absurd hl hnone.not_located
      · have hid := located h.toConsistent hl hsub
        subst hid
        obtain ⟨_, _, _, hs⟩ := h.vectors.live hsub.1
        rw [setStrategy_same hs rfl hset]
        exact h
    · cases ho
      obtain ⟨hadd, ht⟩ := (attachVariable_attached rfl ha).added rfl rfl hset
      exact h.addEvent hadd (locateSubscribe_none hl) (ht.trans (attachVariable_attached rfl ha).timers)

theorem monitorPeriod_cases (hm : monitorPeriod s vx peer now tv name fresh = some (r, shown, s')) :
    (r < 0 ∧ s' = s) ∨
    (∃ id, locateSubscribe s vx peer = some (some id) ∧ onPeriodTimer s now tv id name = some (r, s')) ∨
    (∃ s1, locateSubscribe s vx peer = some none ∧ Attached s s1 vx peer .period fresh ∧
      onPeriodTimer s1 now tv fresh name = some (r, s')) := by
  unfold monitorPeriod at hm
  split at hm
  · cases hm
  next hv =>
    cases hm
    rcases monitorVariable_cases hv with ⟨_, rfl⟩ | ⟨id, ho, _⟩ | ⟨ho, _⟩
    · exact Or.inl ⟨by decide, rfl⟩
    · cases ho
    · cases ho
  next id shown s1 hv =>
    obtain ⟨⟨r1, s2⟩, htimer, he⟩ := Option.map_eq_some_iff.mp hm
    cases he
    rcases monitorVariable_cases hv with ⟨ho, _⟩ | ⟨id', ho, rfl, hl⟩ | ⟨ho, hl, ha⟩
    · cases ho
    · cases ho
      exact Or.inr (Or.inl ⟨id, hl, htimer⟩)
    · cases ho
      exact Or.inr (Or.inr ⟨s1, hl, attachVariable_attached rfl ha, htimer⟩)

/-- Periodic samples for a client that had none. -/
theorem monitorPeriod_new (h : SamplingInv s log) (hnone : Unsubscribed s vx peer) (hz : tv ≠ .zero)
    (hname : ∀ p, findByName s.timers name ≠ some (some p))
    (hm : monitorPeriod s vx peer now tv name fresh = some (r, shown, s')) :
    (r < 0 ∧ SamplingInv s' log) ∨ (r = 0 ∧ SamplingInv s' (log ++ [⟨peer, vx, tv⟩])) := by
  rcases monitorPeriod_cases hm with ⟨hr, rfl⟩ | ⟨id, hl, _⟩ | ⟨s1, _, ha, htimer⟩
  · exact Or.inl ⟨hr, h⟩
  · exact absurd hl hnone.not_located
  · refine Or.inr ?_
    unfold onPeriodTimer at htimer
    split at htimer
    · cases htimer
    next r1 timers hreg =>
      obtain ⟨s2, hset, htimer⟩ := Option.bind_eq_some_iff.mp htimer
      rw [ha.timers] at hreg
      rcases registerTimer_name hreg with ⟨_, p, hp⟩ | ⟨rfl, _⟩
      · exact absurd hp (hname p)
      · obtain ⟨hk, ⟨h1, _⟩ | ⟨_, k, hfree, hp⟩⟩ := pending_register h.kept hreg
        · cases h1
        · rw [if_neg (by decide)] at htimer
          cases htimer
          obtain ⟨hadd, ht⟩ := @Attached.added s s' vx .period fresh peer s1 { s1 with timers := timers } ha rfl rfl hset
          exact ⟨rfl, h.addPeriod hadd hnone (by rw [ht]; exact hk) hz (by rw [ht]; exact hp) hfree⟩

/-- Another interval for a client whose timer is found under its name. -/
theorem monitorPeriod_again (h : SamplingInv s log) (hsub : Subscribed s vx peer .period id)
    (hz : tv ≠ .zero) (hname : NameFits s vx peer name)
    (hm : monitorPeriod s vx peer now tv name fresh = some (r, shown, s')) :
    (r < 0 ∧ SamplingInv s' log) ∨ (r = 0 ∧ SamplingInv s' (log ++ [⟨peer, vx, tv⟩])) := by
  rcases monitorPeriod_cases hm with ⟨hr, rfl⟩ | ⟨id', hl, htimer⟩ | ⟨s1, hl, _, _⟩
  · exact Or.inl ⟨hr, h⟩
  · refine Or.inr ?_
    have hid := located h.toConsistent hl hsub
    subst hid
    unfold onPeriodTimer at htimer
    split at htimer
    · cases htimer
    next r1 timers hreg =>
      obtain ⟨s2, hset, htimer⟩ := Option.bind_eq_some_iff.mp htimer
      obtain ⟨_, _, _, hs⟩ := h.vectors.live hsub.1
      have hs2 := setStrategy_same (s := { s with timers := timers }) hs rfl hset
      subst hs2
      unfold NameFits at hname
      rcases registerTimer_name hreg with ⟨rfl, ⟨index, k⟩, hp⟩ | ⟨_, hp⟩
      · rw [hp] at hname
        obtain ⟨id1, old, hsub1, hk⟩ := hname
        have hid := located h.toConsistent hl hsub1
        subst hid
        obtain ⟨hkept, ⟨_, hpend, hids, hst⟩ | ⟨h0, _⟩⟩ := pending_register h.kept hreg
        · rw [if_pos rfl] at htimer
          obtain ⟨⟨r2, timers2⟩, hadj, he⟩ := Option.map_eq_some_iff.mp htimer
          cases he
          unfold adjustInterval at hadj
          rw [findByName_congr hids hst, hp] at hadj
          obtain ⟨hk2, hr2, hp2⟩ := pending_readjust hkept (hids ▸ (findByName_spec hp).1) hadj
          rw [hpend, hk] at hp2
          obtain ⟨hmem, sub, hsubs, rfl⟩ := hsub
          exact ⟨hr2, h.readjust hmem hsubs hk hz hk2 hp2⟩
        · cases h0
      · rw [hp] at hname
        exact absurd hsub (hname _)
  · exact absurd hl hsub.not_unlocated

end

section

variable {s s' : Sampling} {log : List Granted} {vx : VrblId} {id : SubscribeId} {now after tv : Timeval}

theorem SamplingInv.putPeer (h : SamplingInv s log) (e : EndpointId) (ep : KatcpEndpoint) :
    SamplingInv (s.putPeer e ep) log := h.frame rfl rfl h.kept rfl

theorem broadcastLoop_inv {n i : Nat} {px : Words} (h : SamplingInv s log)
    (hb : broadcastLoop n s vx px i = some s') : SamplingInv s' log := by
  induction n generalizing s i with
  | zero =>
    cases hb
    exact h
  | succ n ih =>
    rw [broadcastLoop] at hb
    split at hb
    · cases hb
    next w hw =>
      split at hb
      · cases hb
        exact h
      next id hid =>
        split at hb
        · cases hb
        next sub hsub =>
          split at hb
          · cases hb
          split at hb
          · exact ih (h.putPeer _ _) hb
          next =>
            obtain ⟨s1, hd, hb⟩ := Option.bind_eq_some_iff.mp hb
            have hi : (vectorOf s vx .event)[i]? = some id := by rwa [vectorOf_some hw]
            have hdel := deleteSubscribe_deleted h.vectors hw hi hd
            exact ih (h.deleted hi hdel (fun he => by cases he)) hb

theorem onEventChange_inv (h : SamplingInv s log) (hc : onEventChange s vx = some s') :
    SamplingInv s' log := by
  unfold onEventChange at hc
  split at hc
  · cases hc
    exact h
  split at hc
  · cases hc
    exact h
  · obtain ⟨px, _, hb⟩ := Option.bind_eq_some_iff.mp hc
    exact broadcastLoop_inv h hb

/-- A search for data ends at the top of the heap if that is where the data is. -/
theorem findByDataRef_top {timers : Timers SubscribeId} {k : TimerId} {t : KatcpTime SubscribeId}
    (hk : timers.ids.head? = some k) (ht : timers.at? k = some t) :
    findByDataRef timers t.tData = some (some (0, k)) := by
  unfold findByDataRef
  cases hids : timers.ids with
  | nil => simp [hids] at hk
  | cons top rest =>
    rw [hids] at hk
    cases Option.some.inj hk
    rw [searchData, ht]
    simp

/-- The callback of a sampling timer that is at the top of the heap and pending. -/
theorem onPeriodTimeout_inv (h : SamplingInv s log) {k : TimerId} {t : KatcpTime SubscribeId}
    (hk : s.timers.ids.head? = some k) (ht : s.timers.at? k = some t) (harm : t.tArmed = true)
    (hc : onPeriodTimeout s t.tData = some s') : SamplingInv s' log ∧ s'.timers.ids.head? = some k ∧
      ∃ u, s'.timers.at? k = some u ∧ u.tInterval = t.tInterval := by
  have hsame : ∀ e ep, (s.putPeer e ep).timers = s.timers := fun _ _ => rfl
  unfold onPeriodTimeout at hc
  split at hc
  · cases hc
  next sub hsub =>
    split at hc
    · cases hc
      exact ⟨h, hk, t, ht, rfl⟩
    next vx hvx =>
      split at hc
      next px w _ hw =>
        split at hc
        · cases hc
        next hst =>
          have hst : sub.sStrategy = .period := not_not.mp hst
          split at hc
          · cases hc
            exact ⟨h.putPeer _ _, by rwa [hsame], t, by rwa [hsame], rfl⟩
          next =>
            have hpend : pending s.timers k = some (t.tData, t.tInterval) :=
              pending_some.mpr ⟨List.mem_of_head? hk, t, ht, harm, rfl, rfl⟩
            obtain ⟨v, hv⟩ := h.timed k t.tData t.tInterval hpend
            obtain ⟨i, e, hi, hsub'⟩ := h.vectors.live hv
            rw [hsub'] at hsub
            cases hsub
            cases hvx
            have hdel := deleteSubscribe_deleted h.vectors hw hi hc
            have htop := findByDataRef_top hk ht
            have hfirst : FirstArmed s t.tData := by
              intro index k' hfind
              rw [htop] at hfind
              cases hfind
              rw [hpend]
              rfl
            have hinv := h.deleted hi hdel (fun _ => hfirst)
            have htimers := hdel.timers
            rw [if_pos rfl, disarmByRef, htop] at htimers
            have htimers := (congrArg Prod.snd (Option.some.inj htimers)).symm
            dsimp only at htimers
            refine ⟨hinv, by rw [htimers, disarmed_ids]; exact hk, { t with tArmed := false }, ?_, rfl⟩
            rw [htimers, disarmed, ht]
            exact (at?_put ht _ k).trans (if_pos rfl)
      next => cases hc

theorem runSampling_inv (h : SamplingInv s log) (hr : runSampling s now after = some s') :
    SamplingInv s' log := by
  unfold runSampling at hr
  split at hr
  · cases hr
  next r timers hs =>
    cases hr
    obtain ⟨hk, hp⟩ := pending_idle h.kept hs
    exact h.frame rfl rfl hk hp
  next k timers hs =>
    obtain ⟨hk, hp, htop, t, ht, hpend⟩ := pending_fires h.kept hs
    obtain ⟨t', ht', hr⟩ := Option.bind_eq_some_iff.mp hr
    obtain ⟨s1, h1, hr⟩ := Option.bind_eq_some_iff.mp hr
    obtain ⟨⟨r, timers2⟩, hfin, hr⟩ := Option.bind_eq_some_iff.mp hr
    cases hr
    rw [ht] at ht'
    cases ht'
    have hstart : SamplingInv { s with timers := timers } log := h.frame rfl rfl hk hp
    have harm : t.tArmed = true := by
      rw [← hp] at hpend
      obtain ⟨_, u, hu, harm, _⟩ := pending_some.mp hpend
      rw [ht] at hu
      cases hu
      exact harm
    obtain ⟨hinv, htop1, u, hu, hi⟩ := onPeriodTimeout_inv hstart htop ht harm h1
    have hz : u.tInterval ≠ .zero := hi ▸ h.nonzero k t.tData t.tInterval hpend
    obtain ⟨hk2, hp2⟩ := pending_finish hinv.kept htop1 hu hz hfin
    exact hinv.frame rfl rfl hk2 hp2

/-- A periodic request leaves the client with the interval it asked for, or with none. -/
theorem samplePeriod_inv {fx : Client} {current : Strategy} {key : Text} {fresh : SubscribeId} {r : Int}
    {shown : List Words} (h : SamplingInv s log) (hc : currentStrategy s vx fx.fPeer = some current)
    (hz : tv ≠ .zero) (hname : NameFits s vx fx.fPeer (timerName fx key))
    (hs : samplePeriod s vx fx current now tv key fresh = some (r, shown, s')) :
    (r < 0 ∧ SamplingInv s' log) ∨ (r = 0 ∧ SamplingInv s' (log ++ [⟨fx.fPeer, vx, tv⟩])) := by
  obtain ⟨⟨r1, s1⟩, hend, hs⟩ := Option.bind_eq_some_iff.mp hs
  obtain ⟨hr1, hinv, htimers, hsub⟩ := endSampling_inv h hc rfl (fun he => by cases he) hend
  dsimp only at hs
  rw [if_neg (by omega)] at hs
  rcases hsub with hnone | ⟨rfl, hne, id, hsub⟩
  · rcases currentStrategy_cases h.vectors hc with ⟨hoff, hunsub⟩ | ⟨hvec, id, hsub⟩
    · refine monitorPeriod_new hinv hnone hz (fun p hp => ?_) hs
      rw [htimers (by decide)] at hp
      unfold NameFits at hname
      rw [hp] at hname
      obtain ⟨_, _, hsub, _⟩ := hname
      exact hunsub.not hsub
    · by_cases hp : current = .period
      · subst hp
        unfold endSampling at hend
        rw [if_neg (by decide)] at hend
        cases hend
        exact absurd hsub hnone.not
      · refine monitorPeriod_new hinv hnone hz (fun p hfind => ?_) hs
        rw [htimers (by decide)] at hfind
        unfold NameFits at hname
        rw [hfind] at hname
        obtain ⟨id', _, ⟨hmem', sub', hsub', hpeer'⟩, _⟩ := hname
        obtain ⟨hmem, sub, hsubs, hpeer⟩ := hsub
        have hid := h.single vx _ _ id id' sub sub' hmem hmem' hsubs hsub' (hpeer'.trans hpeer.symm)
        subst hid
        exact hp (h.vectors.unique hmem' hmem).2
  · have hper : current = .period := by
      have hvec := hasVector_of_mem hsub.1
      cases current with
      | period => rfl
      | event => exact absurd rfl hne
      | off => cases hvec
      | diff => cases hvec
      | forced => cases hvec
    subst hper
    exact monitorPeriod_again hinv hsub hz hname hs

theorem sampleEvent_inv {fx : Client} {current : Strategy} {fresh : SubscribeId} {r : Int}
    {shown : List Words} (h : SamplingInv s log) (hc : currentStrategy s vx fx.fPeer = some current)
    (hfirst : ∀ id, Subscribed s vx fx.fPeer .period id → FirstArmed s id)
    (hs : sampleEvent s vx fx current fresh = some (r, shown, s')) : SamplingInv s' log := by
  obtain ⟨⟨r1, s1⟩, hend, hs⟩ := Option.bind_eq_some_iff.mp hs
  obtain ⟨hr1, hinv, _, hsub⟩ := endSampling_inv h hc rfl (fun _ => hfirst) hend
  dsimp only at hs
  rw [if_neg (by omega)] at hs
  refine monitorEvent_inv hinv ?_ hs
  rcases hsub with hnone | ⟨rfl, hne, id, hsub⟩
  · exact Or.inl hnone
  · have hevent : current = .event := by
      have hvec := hasVector_of_mem hsub.1
      cases current with
      | event => rfl
      | period => exact absurd rfl hne
      | off => cases hvec
      | diff => cases hvec
      | forced => cases hvec
    subst hevent
    exact Or.inr ⟨id, hsub⟩

theorem sampleOff_inv {fx : Client} {current : Strategy} {r : Int} {shown : List Words}
    (h : SamplingInv s log) (hc : currentStrategy s vx fx.fPeer = some current)
    (hfirst : ∀ id, Subscribed s vx fx.fPeer .period id → FirstArmed s id)
    (hs : sampleOff s vx fx current = some (r, shown, s')) : SamplingInv s' log := by
  obtain ⟨⟨r1, s1⟩, hend, hs⟩ := Option.bind_eq_some_iff.mp hs
  obtain ⟨hr1, hinv, _, _⟩ := endSampling_inv h hc rfl (fun he => by cases he) hend
  dsimp only at hs
  rw [if_neg (by omega)] at hs
  obtain ⟨⟨r2, s2⟩, hend2, hs⟩ := Option.bind_eq_some_iff.mp hs
  cases hs
  by_cases hp : current = .period
  · subst hp
    have hsame : s1 = s := by
      unfold endSampling at hend
      rw [if_neg (by decide)] at hend
      cases hend
      rfl
    subst hsame
    exact (endSampling_inv h hc rfl (fun _ => hfirst) hend2).2.1
  · unfold endSampling at hend2
    rw [if_neg hp] at hend2
    cases hend2
    exact hinv

@[simp] theorem sampledAs_state (key strategy : Text) (out : Int × List Words × Sampling) :
    (sampledAs key strategy out).state = out.2.2 := by
  obtain ⟨r, shown, s⟩ := out
  simp only [sampledAs]
  split <;> rfl

theorem request_inv {fx : Client} {args : Words} {found : Option VrblId} {fresh : SubscribeId}
    {out : Sampled} (h : SamplingInv s log) (hok : SamplesApart s (.request fx args found fresh now))
    (hs : sensorSampling s fx args found fresh now = some out) :
    SamplingInv out.state (log ++ grants s (.request fx args found fresh now)) := by
  simp only [SamplesApart] at hok
  simp only [grants, hs, Option.any_some]
  unfold sensorSampling at hs
  cases ht : samplingTarget s args found with
  | error e =>
    rw [ht] at hs
    cases hs
    simpa using h
  | ok target =>
    obtain ⟨vx, key⟩ := target
    rw [ht] at hs
    obtain ⟨current, hc, hs⟩ := Option.bind_eq_some_iff.mp hs
    have hok := hok vx key ht
    cases ha : askedStrategy args with
    | query =>
      rw [ha] at hs
      cases hs
      simpa using h
    | event =>
      rw [ha] at hs hok
      obtain ⟨⟨r, shown, s1⟩, hsample, rfl⟩ := Option.map_eq_some_iff.mp hs
      simpa using sampleEvent_inv h hc hok hsample
    | off =>
      rw [ha] at hs hok
      obtain ⟨⟨r, shown, s1⟩, hsample, rfl⟩ := Option.map_eq_some_iff.mp hs
      simpa using sampleOff_inv h hc hok hsample
    | period tv =>
      rw [ha] at hs hok
      obtain ⟨⟨r, shown, s1⟩, hsample, rfl⟩ := Option.map_eq_some_iff.mp hs
      rcases samplePeriod_inv h hc hok.1 hok.2 hsample with ⟨hr, hinv⟩ | ⟨rfl, hinv⟩
      · simpa [sampledAs, hr] using hinv
      · simpa [sampledAs] using hinv
    | refused =>
      rw [ha] at hs
      cases hs
      simpa using h

theorem sampling_keeps (sensors : VrblId → KatcpVrbl) :
    (samplingMachine sensors).Keeps SamplesApart SamplingInv := by
  intro s log a s' h hok hstep
  change samplingAction s a = some s' at hstep
  change SamplingInv s' (log ++ grants s a)
  cases a with
  | request fx args found fresh now =>
    obtain ⟨out, hout, rfl⟩ := Option.map_eq_some_iff.mp hstep
    exact request_inv h hok hout
  | change vx shown =>
    have hframe : SamplingInv { s with
        vrbls := Function.update s.vrbls vx { s.vrbls vx with vShown := shown, vValue := true } } log := by
      refine h.frame ?_ rfl h.kept rfl
      funext v t
      by_cases hv : v = vx
      · subst hv
        simp [vectorOf]
      · simp [vectorOf, hv]
    simpa [grants] using onEventChange_inv hframe hstep
  | disconnect e =>
    cases hstep
    simpa [grants] using h.putPeer e goneEndpoint
  | load now =>
    obtain ⟨⟨r, wait, timers⟩, hload, rfl⟩ := Option.map_eq_some_iff.mp hstep
    obtain ⟨hk, hp⟩ := pending_load h.kept hload
    have hinv : SamplingInv { s with timers := timers } log := h.frame rfl rfl hk hp
    simpa [grants] using hinv
  | run now after => simpa [grants] using runSampling_inv h hstep

/-- Where names and references lead to the client's own timer, every reachable state is
consistent. -/
theorem sampling_consistent {sensors : VrblId → KatcpVrbl} {s : Sampling} {log : List Granted}
    (h : (samplingMachine sensors).Runs SamplesApart s log) : Consistent s log :=
  (h.invariant SamplingInv (noSampling_inv sensors) (sampling_keeps sensors)).toConsistent

/-- Sensors that may all be sampled. -/
def plainSensors (_ : VrblId) : KatcpVrbl := ⟨true, false, true, [textOf "5"], none⟩

def plainClient : Client := ⟨⟨0, .peer⟩, textOf "g", textOf "c"⟩

/-- A request for the first sensor, made at the time zero. -/
def plainRequest (words : Words) (fresh : SubscribeId) : SamplingAction :=
  .request plainClient (textOf "?sensor-sampling" :: textOf "s" :: words) (some 0) fresh .zero

/-- A client asks for samples every second, and its timer runs. -/
theorem sampling_consistent_every : ∃ s, Consistent s [⟨plainClient.fPeer, 0, ⟨1, 0⟩⟩] := by
  refine ⟨_, sampling_consistent (Machine.Runs.exec (.start (m := samplingMachine plainSensors))
    [plainRequest [textOf "period", textOf "1"] 0, .run (.ofUsec 1000001) (.ofUsec 1000002)] rfl
    ⟨fun vx key h => ?_, fun _ _ => ⟨trivial, fun _ _ => trivial⟩⟩)⟩
  cases h
  refine ⟨by decide, fun id hsub => ?_⟩
  cases hsub.1

/-- Sampling that was ended and is asked for again finds the timer of before under its name:
it stays disarmed, and the new subscription has none. -/
theorem sampling_finds_disarmed : ¬ ∀ (sensors : VrblId → KatcpVrbl) (s : Sampling) (log : List Granted),
    (samplingMachine sensors).Runs (fun _ _ => True) s log → Consistent s log := by
  intro hall
  have h := hall plainSensors _ _ (Machine.Runs.exec (.start (m := samplingMachine plainSensors))
    [plainRequest [textOf "period", textOf "1"] 0, plainRequest [textOf "none"] 0,
      plainRequest [textOf "period", textOf "1"] 1] rfl (Machine.meets_true _ _ _))
  obtain ⟨k, tv, hk, _⟩ := h.periodic 0 1 _ (List.mem_singleton.mpr rfl) rfl
  obtain ⟨hmem, t, ht, harm, _⟩ := pending_some.mp hk
  cases List.mem_singleton.mp hmem
  cases ht
  cases harm

end

end Katcp
