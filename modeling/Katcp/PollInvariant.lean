import Katcp.PollCommand
import Katcp.TimerSole

namespace Katcp

section

open Function

variable {s s' : Polling} {a : AcquireId} {acq : KatcpAcquire} {now : Timeval}

/-- The entries of the clients of all sensors that share an acquire. -/
def subscribers (s : Polling) (a : AcquireId) : List NonsenseId :=
  (s.acquires a).aSensors.flatMap fun sn => (s.sensors sn).sNonsense

/-- Whether a client with this strategy relies on the acquire being run by a timer. -/
def needsPoll (acq : KatcpAcquire) (strategy : Strategy) : Bool :=
  match strategy with
  | .period => true
  | .event | .diff => hasPoll acq
  | .forced | .off => false

/-- The period of a client that needs polling. -/
def pollPeriod (s : Polling) (acq : KatcpAcquire) (id : NonsenseId) : Option Timeval :=
  (s.nonsenses id).bind fun ns => if needsPoll acq ns.nStrategy then some ns.nPeriod else none

def periods (s : Polling) (a : AcquireId) : List Timeval :=
  (subscribers s a).filterMap (pollPeriod s (s.acquires a))

theorem needsPoll_congr {acq' : KatcpAcquire} (hg : acq'.aGet = acq.aGet) : needsPoll acq' = needsPoll acq := by
  funext strategy
  cases strategy with
  | event => exact hg
  | diff => exact hg
  | off => rfl
  | period => rfl
  | forced => rfl

theorem pollPeriod_congr {acq' : KatcpAcquire} (hns : s'.nonsenses = s.nonsenses) (hg : acq'.aGet = acq.aGet) :
    pollPeriod s' acq' = pollPeriod s acq := by
  funext id
  rw [pollPeriod, hns, needsPoll_congr hg, pollPeriod]

/-- The minimum of some times. -/
def Least (tv : Timeval) (ps : List Timeval) : Prop := tv ∈ ps ∧ ∀ p ∈ ps, ¬ p.Earlier tv

theorem cmpTime_pos (x y : Timeval) : 0 < cmpTime x y ↔ y.Earlier x := by
  unfold cmpTime Timeval.Earlier
  split
  next => simp; omega
  next =>
    split
    next => simp; omega
    next =>
      split
      next => simp; omega
      next =>
        split
        next => simp; omega
        next => simp; omega

theorem Timeval.Earlier.trans_not {x y z : Timeval} (h : x.Earlier y) (hn : ¬ z.Earlier y) : ¬ z.Earlier x := by
  unfold Timeval.Earlier at *
  omega

theorem Timeval.Earlier.irrefl (x : Timeval) : ¬ x.Earlier x := by
  unfold Timeval.Earlier
  omega

/-- What was counted so far, against the periods met. -/
structure Tracks (c : Recount) (ps : List Timeval) : Prop where
  periodics : c.periodics = ps.length
  least : ps ≠ [] → Least c.current ps

theorem Tracks.period {c : Recount} {ps : List Timeval} (h : Tracks c ps) (p : Timeval) :
    Tracks (countPeriod c p) (ps ++ [p]) := by
  refine ⟨by simp [countPeriod, h.periodics], fun _ => ?_⟩
  unfold countPeriod Least
  dsimp only
  by_cases hz : c.periodics = 0
  · have hnil : ps = [] := List.length_eq_zero_iff.mp (h.periodics.symm.trans hz)
    rw [if_pos hz, hnil]
    simpa using Timeval.Earlier.irrefl p
  · have hne : ps ≠ [] := by
      rintro rfl
      exact hz h.periodics
    obtain ⟨hmem, hmin⟩ := h.least hne
    rw [if_neg hz]
    split
    next hlt =>
      have hearlier := (cmpTime_pos _ _).mp hlt
      refine ⟨by simp, fun q hq => ?_⟩
      rcases List.mem_append.mp hq with hq | hq
      · exact hearlier.trans_not (hmin q hq)
      · cases List.mem_singleton.mp hq
        exact Timeval.Earlier.irrefl p
    next hle =>
      refine ⟨List.mem_append_left _ hmem, fun q hq => ?_⟩
      rcases List.mem_append.mp hq with hq | hq
      · exact hmin q hq
      · cases List.mem_singleton.mp hq
        exact fun he => hle ((cmpTime_pos _ _).mpr he)

theorem Tracks.nonsense {c : Recount} {ps : List Timeval} (h : Tracks c ps) (acq : KatcpAcquire)
    (ns : KatcpNonsense) : Tracks (countNonsense (hasPoll acq) c ns)
      (ps ++ (if needsPoll acq ns.nStrategy then some ns.nPeriod else none).toList) := by
  unfold countNonsense needsPoll
  cases ns.nStrategy with
  | off => simpa using h
  | forced => simpa using h
  | period => exact h.period _
  | event =>
    cases hasPoll acq with
    | false => simpa using h
    | true => exact h.period _
  | diff =>
    cases hasPoll acq with
    | false => simpa using h
    | true => exact h.period _

theorem countNonsense_users (polling : Bool) (c : Recount) (ns : KatcpNonsense) :
    (countNonsense polling c ns).users = c.users := by
  unfold countNonsense countPeriod
  repeat' split
  all_goals rfl

theorem countSensor_tracks {ids : List NonsenseId} {c c' : Recount} {ps : List Timeval} (h : Tracks c ps)
    (hc : countSensor s (hasPoll acq) ids c = some c') :
    Tracks c' (ps ++ ids.filterMap (pollPeriod s acq)) ∧ c'.users = c.users := by
  induction ids generalizing c ps with
  | nil =>
    cases hc
    exact ⟨by simpa using h, rfl⟩
  | cons id ids ih =>
    rw [countSensor] at hc
    split at hc
    · cases hc
    next ns hns =>
      obtain ⟨htracks, husers⟩ := ih (h.nonsense acq ns) hc
      refine ⟨?_, husers.trans (countNonsense_users _ _ _)⟩
      rw [List.append_assoc] at htracks
      have hp : pollPeriod s acq id = if needsPoll acq ns.nStrategy then some ns.nPeriod else none := by
        rw [pollPeriod, hns, Option.bind_some]
      rw [List.filterMap_cons, hp]
      by_cases hn : needsPoll acq ns.nStrategy = true
      · simpa [hn] using htracks
      · simpa [hn] using htracks

theorem countSensors_tracks {sns : List SensorId} {c c' : Recount} {ps : List Timeval} (h : Tracks c ps)
    (hc : countSensors s (hasPoll acq) sns c = some c') :
    Tracks c' (ps ++ (sns.flatMap fun sn => (s.sensors sn).sNonsense).filterMap (pollPeriod s acq)) ∧
      c'.users = c.users + (sns.flatMap fun sn => (s.sensors sn).sNonsense).length := by
  induction sns generalizing c ps with
  | nil =>
    cases hc
    exact ⟨by simpa using h, rfl⟩
  | cons sn sns ih =>
    rw [countSensors] at hc
    split at hc
    · cases hc
    next c1 h1 =>
      obtain ⟨htracks1, husers1⟩ := countSensor_tracks h h1
      obtain ⟨htracks, husers⟩ := @ih { c1 with users := c1.users + (s.sensors sn).sNonsense.length } _
        ⟨htracks1.periodics, htracks1.least⟩ hc
      rw [List.flatMap_cons, List.filterMap_append, List.length_append]
      refine ⟨by simpa [List.append_assoc] using htracks, ?_⟩
      dsimp only at husers
      omega

/-- An acquire's numbers are those of the clients of its sensors. -/
structure Counts (s : Polling) (a : AcquireId) : Prop where
  users : (s.acquires a).aUsers = (subscribers s a).length
  periodics : (s.acquires a).aPeriodics = (periods s a).length
  current : periods s a ≠ [] → Least (s.acquires a).aCurrent (periods s a)

theorem recount_counts {c : Recount} (h : recount s a = some c) :
    c.users = (subscribers s a).length ∧ c.periodics = (periods s a).length ∧
      (periods s a ≠ [] → Least c.current (periods s a)) := by
  obtain ⟨htracks, husers⟩ := countSensors_tracks (⟨rfl, fun h => absurd rfl h⟩ : Tracks _ []) h
  exact ⟨husers.trans (Nat.zero_add _), htracks.periodics, htracks.least⟩

/-- The timer of an acquire is the one its numbers ask for. -/
structure TimerFits (timers : Timers AcquireId) (a : AcquireId) (acq : KatcpAcquire) : Prop where
  polled : 0 < acq.aPeriodics → Sole timers a acq.aCurrent
  idle : acq.aPeriodics = 0 → Silent timers a

theorem TimerFits.congr {timers : Timers AcquireId} {acq' : KatcpAcquire} (h : TimerFits timers a acq)
    (hp : acq'.aPeriodics = acq.aPeriodics) (hc : acq'.aCurrent = acq.aCurrent) : TimerFits timers a acq' := by
  refine ⟨fun h0 => ?_, fun h0 => h.idle (hp ▸ h0)⟩
  rw [hc]
  exact h.polled (hp ▸ h0)

theorem TimerFits.unmoved {timers timers' : Timers AcquireId} (h : TimerFits timers a acq)
    (hu : Unmoved timers timers' a) : TimerFits timers' a acq :=
  ⟨fun h0 => hu.sole _ (h.polled h0), fun h0 => hu.silent (h.idle h0)⟩

/-- What is left behind where an acquire is scheduled anew. -/
structure Rescheduled (s s' : Polling) (a : AcquireId) : Prop where
  state : ∃ c timers, s' = { s.recounted a c with timers := timers }
  kept : Kept s'.timers
  counts : Counts s' a
  fits : TimerFits s'.timers a (s'.acquires a)
  others : ∀ b, b ≠ a → Unmoved s.timers s'.timers b

/-- No timer of the acquire, armed or not, is left on the heap. -/
def NoTimer (timers : Timers AcquireId) (a : AcquireId) : Prop :=
  ∀ k ∈ timers.ids, ∀ t, timers.at? k = some t → t.tData ≠ a

theorem unmoved_refl (timers : Timers AcquireId) (b : AcquireId) : Unmoved timers timers b :=
  unmoved_fades rfl (Fades.refl timers) b

@[simp] theorem recounted_self (s : Polling) (a : AcquireId) (c : Recount) : (s.recounted a c).acquires a =
    { s.acquires a with aUsers := c.users, aPeriodics := c.periodics, aCurrent := c.current } := by
  simp [Polling.recounted, Polling.putAcquire]

theorem recounted_other {b : AcquireId} (h : b ≠ a) (c : Recount) :
    (s.recounted a c).acquires b = s.acquires b := by
  simp [Polling.recounted, Polling.putAcquire, h]

theorem recounted_get (s : Polling) (a b : AcquireId) (c : Recount) :
    ((s.recounted a c).acquires b).aGet = (s.acquires b).aGet := by
  by_cases hb : b = a
  · rw [hb, recounted_self]
  · rw [recounted_other hb]

theorem recounted_subscribers (s : Polling) (a b : AcquireId) (c : Recount) (timers : Timers AcquireId) :
    subscribers { s.recounted a c with timers := timers } b = subscribers s b := by
  unfold subscribers
  by_cases hb : b = a
  · subst hb
    simp [Polling.recounted, Polling.putAcquire]
  · simp [Polling.recounted, Polling.putAcquire, hb]

theorem recounted_periods (s : Polling) (a b : AcquireId) (c : Recount) (timers : Timers AcquireId) :
    periods { s.recounted a c with timers := timers } b = periods s b := by
  unfold periods
  rw [recounted_subscribers]
  exact congrArg (fun f => (subscribers s b).filterMap f) (pollPeriod_congr rfl (recounted_get s a b c))

theorem recounted_counts {c : Recount} (hc : recount s a = some c) (timers : Timers AcquireId) :
    Counts { s.recounted a c with timers := timers } a := by
  obtain ⟨husers, hperiodics, hcurrent⟩ := recount_counts hc
  have hself := recounted_self s a c
  refine ⟨?_, ?_, ?_⟩
  · rw [recounted_subscribers, hself]
    exact husers
  · rw [recounted_periods, hself]
    exact hperiodics
  · rw [recounted_periods, hself]
    exact hcurrent

/-- The acquire is given the timer it needs, where it has one or there is none of it at all. -/
theorem scheduleAcquire_sole {r : Int} {current : Timeval} (hk : Kept s.timers)
    (hready : (∃ tv, Sole s.timers a tv) ∨ NoTimer s.timers a)
    (h : scheduleAcquire s a now current = some (r, s')) :
    r = 0 ∧ ∃ timers, s' = { s with timers := timers } ∧ Kept timers ∧ Sole timers a current ∧
      ∀ b, b ≠ a → Unmoved s.timers timers b := by
  unfold scheduleAcquire at h
  split at h
  · cases h
  next hf =>
    obtain ⟨⟨r', timers⟩, hreg, he⟩ := Option.map_eq_some_iff.mp h
    cases he
    obtain ⟨hk', rfl, hsole, hothers⟩ := registerEvery_sole hk hf hreg
    exact ⟨rfl, timers, rfl, hk', hsole, hothers⟩
  next hf =>
    obtain ⟨⟨r', timers⟩, hadj, he⟩ := Option.map_eq_some_iff.mp h
    cases he
    rcases hready with ⟨tv, hsole⟩ | hnone
    · obtain ⟨hk', rfl, hsole', hothers⟩ := adjustIntervalAnonymous_sole hk hsole hadj
      exact ⟨rfl, timers, rfl, hk', hsole', hothers⟩
    · obtain ⟨hget, t, ht, hd⟩ := findByDataRef_spec hf
      exact absurd hd (hnone _ (List.mem_of_getElem? hget) t ht)

/-- A sensor is reloaded, where polling does not begin over the timer of an earlier time. -/
theorem reloadSensor_spec {r : Int} {sn : SensorId} (hk : Kept s.timers)
    (ha : (s.sensors sn).sAcquire = a) (hfits : TimerFits s.timers a (s.acquires a))
    (hclean : periods s a ≠ [] → (s.acquires a).aPeriodics = 0 → NoTimer s.timers a)
    (h : reloadSensor s sn now = some (r, s')) : r = 0 ∧ Rescheduled s s' a := by
  unfold reloadSensor at h
  dsimp only at h
  rw [ha] at h
  split at h
  · cases h
  next c hc =>
    have hcounts := recounted_counts hc
    have hself := recounted_self s a c
    by_cases hz : c.periodics = 0
    · have hidle : ∀ timers, Silent timers a → TimerFits timers a ((s.recounted a c).acquires a) := by
        intro timers hsilent
        rw [hself]
        exact ⟨fun h0 => absurd h0 (by simp [hz]), fun _ => hsilent⟩
      rw [if_pos hz] at h
      split at h
      next hbefore =>
        obtain ⟨⟨r', timers⟩, hdis, he⟩ := Option.map_eq_some_iff.mp h
        cases he
        obtain ⟨hk', hsilent, hothers⟩ := disarmByRef_sole hk (hfits.polled hbefore) hdis
        exact ⟨rfl, ⟨c, timers, rfl⟩, hk', hcounts timers, hidle timers hsilent, hothers⟩
      next hbefore =>
        cases h
        exact ⟨rfl, ⟨c, s.timers, rfl⟩, hk, hcounts s.timers, hidle s.timers (hfits.idle (by omega)),
          fun b _ => unmoved_refl _ b⟩
    · rw [if_neg hz] at h
      have hready : (∃ tv, Sole s.timers a tv) ∨ NoTimer s.timers a := by
        by_cases hbefore : (s.acquires a).aPeriodics = 0
        · refine Or.inr (hclean (fun hnil => ?_) hbefore)
          have hperiodics := (recount_counts hc).2.1
          rw [hnil] at hperiodics
          exact hz hperiodics
        · exact Or.inl ⟨_, hfits.polled (by omega)⟩
      obtain ⟨hr, timers, rfl, hk', hsole, hothers⟩ := scheduleAcquire_sole (s := s.recounted a c) hk hready h
      refine ⟨hr, ⟨c, timers, rfl⟩, hk', hcounts timers, ?_, hothers⟩
      change TimerFits timers a ((s.recounted a c).acquires a)
      rw [hself]
      exact ⟨fun _ => hsole, fun h0 => absurd h0 hz⟩

end

section

open Function SwapVector

variable {s s' : Polling} {a b : AcquireId} {d : DispatchId} {sn : SensorId} {id : NonsenseId}
  {ns : KatcpNonsense} {now : Timeval}

/-- Sensors, acquires and clients refer to each other. -/
structure Wired (s : Polling) : Prop where
  linked : ∀ sn ∈ s.tally, sn ∈ (s.acquireOf sn).aSensors
  named : ∀ a, ∀ sn ∈ (s.acquires a).aSensors, (s.sensors sn).sAcquire = a
  once : ∀ a, (s.acquires a).aSensors.Nodup
  single : ∀ sn, (s.sensors sn).sNonsense.Nodup
  sensed : ∀ sn id, id ∈ (s.sensors sn).sNonsense → ∃ ns, s.nonsenses id = some ns ∧ ns.nSensor = sn
  owned : ∀ d id, id ∈ s.clients d → ∃ ns, s.nonsenses id = some ns ∧ ns.nClient = d
  entered : ∀ id ns, s.nonsenses id = some ns → id ∈ (s.sensors ns.nSensor).sNonsense ∧
    id ∈ s.clients ns.nClient ∧ ns.nSensor ∈ (s.acquireOf ns.nSensor).aSensors

/-- Numbers and timers are those of the subscriptions, of which none is switched off and none
asks to be polled without a pause. -/
structure PollInv (s : Polling) : Prop extends Wired s where
  kept : Kept s.timers
  fits : ∀ a, TimerFits s.timers a (s.acquires a)
  counts : ∀ a, Counts s a
  active : ∀ id ns, s.nonsenses id = some ns → ns.nStrategy ≠ .off
  nonzero : ∀ id ns, s.nonsenses id = some ns → needsPoll (s.acquireOf ns.nSensor) ns.nStrategy = true →
    ns.nPeriod ≠ .zero

theorem Wired.mem_subscribers (h : Wired s) : id ∈ subscribers s a ↔
    ∃ ns, s.nonsenses id = some ns ∧ (s.sensors ns.nSensor).sAcquire = a := by
  unfold subscribers
  rw [List.mem_flatMap]
  constructor
  · rintro ⟨sn, hsn, hid⟩
    obtain ⟨ns, hns, rfl⟩ := h.sensed sn id hid
    exact ⟨ns, hns, h.named a _ hsn⟩
  · rintro ⟨ns, hns, rfl⟩
    obtain ⟨hid, _, hsn⟩ := h.entered id ns hns
    exact ⟨ns.nSensor, hsn, hid⟩

theorem Wired.subscribers_nodup (h : Wired s) (a : AcquireId) : (subscribers s a).Nodup := by
  refine List.nodup_flatMap.mpr ⟨fun sn _ => h.single sn, ?_⟩
  refine (h.once a).imp fun {x y} hxy => ?_
  intro id hx hy
  obtain ⟨ns, hns, rfl⟩ := h.sensed x id hx
  obtain ⟨ns', hns', rfl⟩ := h.sensed y id hy
  rw [hns] at hns'
  cases hns'
  exact hxy rfl

theorem Wired.frame (h : Wired s) (ht : s'.tally = s.tally) (hs : s'.sensors = s.sensors)
    (hns : s'.nonsenses = s.nonsenses) (hc : s'.clients = s.clients)
    (ha : ∀ a, (s'.acquires a).aSensors = (s.acquires a).aSensors) : Wired s' := by
  refine ⟨?_, ?_, ?_, ?_, ?_, ?_, ?_⟩
  · intro sn hsn
    rw [ht] at hsn
    rw [Polling.acquireOf, ha, hs]
    exact h.linked sn hsn
  · intro a sn hsn
    rw [ha] at hsn
    rw [hs]
    exact h.named a sn hsn
  · intro a
    rw [ha]
    exact h.once a
  · rw [hs]
    exact h.single
  · rw [hs, hns]
    exact h.sensed
  · rw [hns, hc]
    exact h.owned
  · intro id ns hid
    rw [hns] at hid
    rw [Polling.acquireOf, ha, hs, hc]
    exact h.entered id ns hid

theorem Counts.frame (h : Counts s b) (ha : ∃ last, s'.acquires b = { s.acquires b with aLast := last })
    (hsub : subscribers s' b = subscribers s b)
    (hns : ∀ id ∈ subscribers s b, s'.nonsenses id = s.nonsenses id) : Counts s' b := by
  obtain ⟨last, ha⟩ := ha
  have hper : periods s' b = periods s b := by
    unfold periods
    rw [hsub]
    refine List.filterMap_congr fun id hid => ?_
    have hneeds : needsPoll (s'.acquires b) = needsPoll (s.acquires b) := needsPoll_congr (by rw [ha])
    rw [pollPeriod, hns id hid, hneeds, pollPeriod]
  refine ⟨?_, ?_, ?_⟩
  · rw [ha, hsub]
    exact h.users
  · rw [ha, hper]
    exact h.periodics
  · rw [ha, hper]
    exact h.current

/-- Time passes and timers run, but nobody subscribes. -/
theorem PollInv.frame (h : PollInv s) (ht : s'.tally = s.tally) (hs : s'.sensors = s.sensors)
    (hns : s'.nonsenses = s.nonsenses) (hc : s'.clients = s.clients)
    (ha : ∀ a, ∃ last, s'.acquires a = { s.acquires a with aLast := last }) (hk : Kept s'.timers)
    (hu : ∀ a, Unmoved s.timers s'.timers a) : PollInv s' := by
  have hsame : ∀ a, (s'.acquires a).aSensors = (s.acquires a).aSensors := by
    intro a
    obtain ⟨last, he⟩ := ha a
    rw [he]
  refine ⟨h.toWired.frame ht hs hns hc hsame, hk, fun a => ?_, fun a => ?_, ?_, ?_⟩
  · obtain ⟨last, he⟩ := ha a
    rw [he]
    exact ((h.fits a).unmoved (hu a)).congr rfl rfl
  · obtain ⟨last, he⟩ := ha a
    refine (h.counts a).frame ⟨last, he⟩ ?_ fun id _ => by rw [hns]
    unfold subscribers
    rw [hsame, hs]
  · rw [hns]
    exact h.active
  · intro id ns hid hneeds
    rw [hns] at hid
    obtain ⟨last, he⟩ := ha (s.sensors ns.nSensor).sAcquire
    rw [Polling.acquireOf, hs, he] at hneeds
    exact h.nonzero id ns hid hneeds

theorem Wired.recounted (h : Wired s) (a : AcquireId) (c : Recount) (timers : Timers AcquireId) :
    Wired { s.recounted a c with timers := timers } := by
  refine h.frame rfl rfl rfl rfl fun b => ?_
  by_cases hb : b = a
  · rw [hb]
    change ((s.recounted a c).acquires a).aSensors = _
    rw [recounted_self]
  · change ((s.recounted a c).acquires b).aSensors = _
    rw [recounted_other hb]

/-- All is in order but for one entry, which its client is about to use. -/
structure Entering (s : Polling) (id : NonsenseId) (ns : KatcpNonsense) : Prop extends Wired s where
  entry : s.nonsenses id = some ns
  kept : Kept s.timers
  fits : ∀ a, TimerFits s.timers a (s.acquires a)
  counts : ∀ b, b ≠ (s.sensors ns.nSensor).sAcquire → Counts s b
  active : ∀ k ms, k ≠ id → s.nonsenses k = some ms → ms.nStrategy ≠ .off
  nonzero : ∀ k ms, k ≠ id → s.nonsenses k = some ms →
    needsPoll (s.acquireOf ms.nSensor) ms.nStrategy = true → ms.nPeriod ≠ .zero
  idle : (s.acquireOf ns.nSensor).aPeriodics = 0 → ∀ k, k ≠ id →
    k ∈ subscribers s (s.sensors ns.nSensor).sAcquire → pollPeriod s (s.acquireOf ns.nSensor) k = none

theorem Counts.idle (h : Counts s a) (hz : (s.acquires a).aPeriodics = 0) {k : NonsenseId}
    (hk : k ∈ subscribers s a) : pollPeriod s (s.acquires a) k = none := by
  have hnil : periods s a = [] := List.length_eq_zero_iff.mp (h.periodics.symm.trans hz)
  exact List.filterMap_eq_nil_iff.mp hnil k hk

theorem PollInv.entering (h : PollInv s) (hns : s.nonsenses id = some ns) : Entering s id ns :=
  ⟨h.toWired, hns, h.kept, h.fits, fun b _ => h.counts b, fun k ms _ => h.active k ms,
    fun k ms _ => h.nonzero k ms, fun hz _ _ hk => (h.counts _).idle hz hk⟩

theorem subscribers_putSensor (h : Wired s) (hb : b ≠ (s.sensors sn).sAcquire) (ids : List NonsenseId) :
    subscribers (s.putSensor sn ids) b = subscribers s b := by
  unfold subscribers
  refine List.flatMap_congr fun sn' hsn' => ?_
  have hne : sn' ≠ sn := by
    rintro rfl
    exact hb (h.named b sn' hsn').symm
  simp [Polling.putSensor, hne]

/-- The entry of a new client of a sensor. -/
def Polling.entered (s : Polling) (id : NonsenseId) (ns : KatcpNonsense) : Polling :=
  ((s.putNonsense id (some ns)).putSensor ns.nSensor ((s.sensors ns.nSensor).sNonsense ++ [id])).putClient
    ns.nClient (s.clients ns.nClient ++ [id])

theorem entered_sensor (s : Polling) (id : NonsenseId) (ns : KatcpNonsense) (sn : SensorId) :
    (s.entered id ns).sensors sn = if sn = ns.nSensor then { s.sensors ns.nSensor with
      sNonsense := (s.sensors ns.nSensor).sNonsense ++ [id] } else s.sensors sn := by
  change update s.sensors ns.nSensor _ sn = _
  rw [update_apply]
  rfl

theorem entered_acquire (s : Polling) (id : NonsenseId) (ns : KatcpNonsense) (sn : SensorId) :
    ((s.entered id ns).sensors sn).sAcquire = (s.sensors sn).sAcquire := by
  rw [entered_sensor]
  split
  next he => rw [he]
  next => rfl

theorem entered_type (s : Polling) (id : NonsenseId) (ns : KatcpNonsense) (sn : SensorId) :
    ((s.entered id ns).sensors sn).sType = (s.sensors sn).sType := by
  rw [entered_sensor]
  split
  next he => rw [he]
  next => rfl

theorem entered_sNonsense (s : Polling) (id : NonsenseId) (ns : KatcpNonsense) (sn : SensorId) :
    ((s.entered id ns).sensors sn).sNonsense =
      if sn = ns.nSensor then (s.sensors ns.nSensor).sNonsense ++ [id] else (s.sensors sn).sNonsense := by
  rw [entered_sensor]
  split <;> rfl

theorem entered_client (s : Polling) (id : NonsenseId) (ns : KatcpNonsense) (d : DispatchId) :
    (s.entered id ns).clients d = if d = ns.nClient then s.clients ns.nClient ++ [id] else s.clients d := by
  change update s.clients ns.nClient _ d = _
  rw [update_apply]

theorem entered_nonsense (s : Polling) (id : NonsenseId) (ns : KatcpNonsense) (k : NonsenseId) :
    (s.entered id ns).nonsenses k = if k = id then some ns else s.nonsenses k := by
  change update s.nonsenses id _ k = _
  rw [update_apply]

theorem Wired.enter (h : Wired s) (hfree : s.nonsenses id = none)
    (hsn : ns.nSensor ∈ (s.acquireOf ns.nSensor).aSensors) : Wired (s.entered id ns) := by
  have hacq := entered_acquire s id ns
  have hsens := entered_sNonsense s id ns
  have hclient := entered_client s id ns
  have hnone := entered_nonsense s id ns
  have hacquires : (s.entered id ns).acquires = s.acquires := rfl
  have hunused : ∀ sn, id ∉ (s.sensors sn).sNonsense := by
    intro sn hid
    obtain ⟨ns', hns', _⟩ := h.sensed sn id hid
    rw [hfree] at hns'
    cases hns'
  have hunowned : ∀ d, id ∉ s.clients d := by
    intro d hid
    obtain ⟨ns', hns', _⟩ := h.owned d id hid
    rw [hfree] at hns'
    cases hns'
  refine ⟨?_, ?_, h.once, ?_, ?_, ?_, ?_⟩
  · intro sn hsn
    rw [Polling.acquireOf, hacq]
    exact h.linked sn hsn
  · intro a sn hsn
    rw [hacq]
    exact h.named a sn hsn
  · intro sn
    rw [hsens]
    split
    · exact List.nodup_append_comm.mp (List.nodup_cons.mpr ⟨hunused _, h.single _⟩)
    · exact h.single sn
  · intro sn k hk
    rw [hsens] at hk
    rw [hnone]
    by_cases hkid : k = id
    · rw [if_pos hkid]
      refine ⟨ns, rfl, ?_⟩
      by_contra hne
      rw [if_neg (Ne.symm hne), hkid] at hk
      exact hunused sn hk
    · rw [if_neg hkid]
      split at hk
      next hs =>
        rw [hs]
        exact h.sensed _ k ((List.mem_append.mp hk).resolve_right (by simpa using hkid))
      next => exact h.sensed sn k hk
  · intro d k hk
    rw [hclient] at hk
    rw [hnone]
    by_cases hkid : k = id
    · rw [if_pos hkid]
      refine ⟨ns, rfl, ?_⟩
      by_contra hne
      rw [if_neg (Ne.symm hne), hkid] at hk
      exact hunowned d hk
    · rw [if_neg hkid]
      split at hk
      next hd =>
        rw [hd]
        exact h.owned _ k ((List.mem_append.mp hk).resolve_right (by simpa using hkid))
      next => exact h.owned d k hk
  · intro k ms hms
    rw [hnone] at hms
    rw [hsens, hclient, Polling.acquireOf, hacq, hacquires]
    split at hms
    next hk =>
      cases hms
      rw [hk, if_pos rfl, if_pos rfl]
      exact ⟨by simp, by simp, hsn⟩
    next hk =>
      obtain ⟨hin, hown, hlink⟩ := h.entered k ms hms
      refine ⟨?_, ?_, hlink⟩
      · split
        next hs =>
          rw [hs] at hin
          exact List.mem_append_left _ hin
        next => exact hin
      · split
        next hd =>
          rw [hd] at hown
          exact List.mem_append_left _ hown
        next => exact hown

end

end Katcp
