import Katcp.TimerKept
import Mathlib.Data.List.Nodup

namespace Katcp

open LevelHeap

variable {δ : Type}

theorem searchName_spec {s : Timers δ} {name : TimerName} {ids : List TimerId} {i index : Nat}
    {id : TimerId} (h : searchName s name i ids = some (some (index, id))) :
    ∃ j t n, index = i + j ∧ ids[j]? = some id ∧ s.at? id = some t ∧ t.tName = some n ∧
      n.isPrefixOf name = true := by
  induction ids generalizing i with
  | nil => cases h
  | cons x ids ih =>
    rw [searchName] at h
    split at h
    · cases h
    next t ht =>
      split at h
      · cases h
      next n hn =>
        split at h
        next hp =>
          cases h
          exact ⟨0, t, n, rfl, rfl, ht, hn, hp⟩
        next =>
          obtain ⟨j, u, m, hj, hget, hu, hm, hp⟩ := ih h
          exact ⟨j + 1, u, m, by omega, hget, hu, hm, hp⟩

theorem findByName_spec {s : Timers δ} {name : TimerName} {index : Nat} {id : TimerId}
    (h : findByName s name = some (some (index, id))) :
    s.ids[index]? = some id ∧ ∃ t n, s.at? id = some t ∧ t.tName = some n ∧ n.isPrefixOf name = true := by
  obtain ⟨j, t, n, hj, hget, ht, hn, hp⟩ := searchName_spec h
  rw [Nat.zero_add] at hj
  subst hj
  exact ⟨hget, t, n, ht, hn, hp⟩

variable [DecidableEq δ]

theorem searchData_spec {s : Timers δ} {data : δ} {ids : List TimerId} {i index : Nat} {id : TimerId}
    (h : searchData s data i ids = some (some (index, id))) :
    ∃ j t, index = i + j ∧ ids[j]? = some id ∧ s.at? id = some t ∧ t.tData = data := by
  induction ids generalizing i with
  | nil => cases h
  | cons x ids ih =>
    rw [searchData] at h
    split at h
    · cases h
    next t ht =>
      split at h
      next hd =>
        cases h
        exact ⟨0, t, rfl, rfl, ht, hd⟩
      next =>
        obtain ⟨j, u, hj, hget, hu, hd⟩ := ih h
        exact ⟨j + 1, u, by omega, hget, hu, hd⟩

theorem findByDataRef_spec {s : Timers δ} {data : δ} {index : Nat} {id : TimerId}
    (h : findByDataRef s data = some (some (index, id))) :
    s.ids[index]? = some id ∧ ∃ t, s.at? id = some t ∧ t.tData = data := by
  obtain ⟨j, t, hj, hget, ht, hd⟩ := searchData_spec h
  rw [Nat.zero_add] at hj
  subst hj
  exact ⟨hget, t, ht, hd⟩

omit [DecidableEq δ] in
theorem Kept.disarm {s : Timers δ} (h : Kept s) (id : TimerId) : Kept (disarmed s id) := by
  unfold disarmed
  split
  · exact h
  next t ht => exact h.put ht rfl

omit [DecidableEq δ] in
theorem disarmed_ids (s : Timers δ) (id : TimerId) : (disarmed s id).ids = s.ids := by
  unfold disarmed
  split <;> rfl

omit [DecidableEq δ] in
theorem Kept.readjust {s s' : Timers δ} (h : Kept s) {now tv : Timeval} {index : Nat} {id : TimerId}
    {r : Int} (hindex : s.ids[index]? = some id) (hr : readjusted s now tv index id = some (r, s')) :
    Kept s' ∧ s'.ids.Perm s.ids := by
  unfold readjusted at hr
  split at hr
  · cases hr
  next t ht =>
    obtain ⟨s1, h1, hk, hp, _⟩ := h.update hindex ht { t with tInterval := tv, tWhen := addTime now tv }
    rw [h1] at hr
    cases Option.some.inj hr
    exact ⟨hk, hp⟩

/-- The data that a call registers. -/
def registrant : TimerCall δ → Option δ
  | .registerAt _ data _ => some data
  | .registerIn _ _ data _ => some data
  | .registerEvery _ _ data _ => some data
  | _ => none

/-- All that a call of a timer function can do. -/
inductive CallEffect (s : Timers δ) (r : Int) : Option δ → Timers δ → Prop
  | registers {whenTv interval : Timeval} {data : δ} {name : Option TimerName} {s' : Timers δ} :
      registerTimer s whenTv interval data name = some (r, s') → CallEffect s r (some data) s'
  | nothing : CallEffect s r none s
  | changes {id : TimerId} {t u : KatcpTime δ} : s.at? id = some t → u.tWhen = t.tWhen →
      u.tData = t.tData → (u.tArmed = true → t.tArmed = true) → CallEffect s r none (s.put id u)
  | readjusts {now tv : Timeval} {index : Nat} {id : TimerId} {s' : Timers δ} :
      s.ids[index]? = some id → readjusted s now tv index id = some (r, s') → CallEffect s r none s'

omit [DecidableEq δ] in
theorem disarmed_effect (s : Timers δ) (id : TimerId) (r : Int) : CallEffect s r none (disarmed s id) := by
  unfold disarmed
  split
  · exact .nothing
  next t ht => exact .changes ht rfl rfl (fun h => by cases h)

theorem timerCall_effect {s s' : Timers δ} {c : TimerCall δ} {r : Int}
    (h : timerCall s c = some (r, s')) : CallEffect s r (registrant c) s' := by
  cases c with
  | registerAt tv data name => exact .registers h
  | registerIn now tv data name => exact .registers h
  | registerEvery now tv data name => exact .registers h
  | discharge data =>
    simp only [timerCall, disarmByRef] at h
    split at h
    · cases h
    · cases Option.some.inj h; exact .nothing
    · cases Option.some.inj h; exact disarmed_effect s _ _
  | dischargeNamed name =>
    simp only [timerCall, disarmByName] at h
    split at h
    · cases h
    · cases Option.some.inj h; exact .nothing
    · cases Option.some.inj h; exact disarmed_effect s _ _
  | adjust now tv name =>
    simp only [timerCall, adjustInterval] at h
    split at h
    · cases h
    · cases Option.some.inj h; exact .nothing
    next hf => exact .readjusts (findByName_spec hf).1 h
  | adjustAnonymous now tv data =>
    simp only [timerCall, adjustIntervalAnonymous] at h
    split at h
    · cases h
    · cases Option.some.inj h; exact .nothing
    next hf => exact .readjusts (findByDataRef_spec hf).1 h
  | rename oldName newName =>
    simp only [timerCall, renameTimer] at h
    split at h
    · cases h
    · cases Option.some.inj h; exact .nothing
    · split at h
      · cases h
      · cases Option.some.inj h; exact .nothing
      · split at h
        · cases h
        next t ht =>
          cases Option.some.inj h
          exact .changes ht rfl rfl (fun h => h)

/-- No call of a timer function spoils the heap or takes a timer off it. -/
theorem timerCall_kept {s s' : Timers δ} {c : TimerCall δ} {r : Int} (h : Kept s)
    (hc : timerCall s c = some (r, s')) : Kept s' ∧ ∀ k ∈ s.ids, k ∈ s'.ids := by
  have heffect := timerCall_effect hc
  generalize registrant c = data at heffect
  cases heffect with
  | registers hr =>
    obtain ⟨hk, ⟨hids, _⟩ | ⟨hp, _⟩⟩ := h.register hr
    · exact ⟨hk, fun k hk => hids ▸ hk⟩
    · exact ⟨hk, fun k hk => hp.mem_iff.mpr (List.mem_cons_of_mem _ hk)⟩
  | nothing => exact ⟨h, fun _ hk => hk⟩
  | changes ht hw _ _ => exact ⟨h.put ht hw, fun _ hk => hk⟩
  | readjusts hid hr =>
    obtain ⟨hk, hp⟩ := h.readjust hid hr
    exact ⟨hk, fun k hk => hp.mem_iff.mpr hk⟩

theorem timerCalls_kept {cs : List (TimerCall δ)} {s s' : Timers δ} (h : Kept s)
    (hc : timerCalls s cs = some s') : Kept s' ∧ ∀ k ∈ s.ids, k ∈ s'.ids := by
  induction cs generalizing s with
  | nil =>
    cases Option.some.inj hc
    exact ⟨h, fun _ hk => hk⟩
  | cons c cs ih =>
    obtain ⟨⟨r, s1⟩, h1, hc⟩ := Option.bind_eq_some_iff.mp hc
    obtain ⟨hk1, hm1⟩ := timerCall_kept h h1
    obtain ⟨hk2, hm2⟩ := ih hk1 hc
    exact ⟨hk2, fun k hk => hm2 k (hm1 k hk)⟩

/-- The end of a pass does to the timer it fired, and to no other, what its interval asks
for: `s` are the timers as the callback left them. -/
structure Settles (s s' : Timers δ) (id : TimerId) (after : Timeval) : Prop where
  kept : Kept s'
  others : ∀ k, k ≠ id → s'.ids.count k = s.ids.count k ∧ s'.at? k = s.at? k
  fired : ∃ t, s.at? id = some t ∧
    if t.tInterval = .zero then s'.ids.count id = 0 ∧ s'.at? id = none
    else s'.ids.count id = 1 ∧ s'.at? id = reschedule t after ∧ s'.at? id ≠ none

/-- One pass keeps the timers in order and touches none but the one it fires. -/
def PassCorrect (s : Timers δ) (now : Timeval) (callback : List (TimerCall δ)) (after : Timeval) : Prop :=
  match startPass s now with
  | none => False
  | some (.returns r s') => runHeapTimers s now callback after = some (r, s') ∧ Kept s' ∧
      ∀ k t, s.at? k = some t → t.tArmed = true → s'.ids.count k = s.ids.count k ∧ s'.at? k = s.at? k
  | some (.fires id s0) => ∃ s1 r s2, timerCalls s0 callback = some s1 ∧
      runHeapTimers s now callback after = some (r, s2) ∧ Settles s1 s2 id after

omit [DecidableEq δ] in
theorem interval_zero (t : KatcpTime δ) :
    t.tInterval = .zero ↔ t.tInterval.tvSec = 0 ∧ t.tInterval.tvUsec = 0 := by
  obtain ⟨_, _, ⟨sec, usec⟩, _⟩ := t
  simp [Timeval.zero]

/-- The deadlines that a periodic timer has missed can be counted. -/
def Countable (t : KatcpTime δ) (after : Timeval) : Prop :=
  cmpTime (addTime t.tWhen t.tInterval) after ≤ 0 → t.tInterval = .zero ∨ t.tInterval.usecs ≠ 0

omit [DecidableEq δ] in
theorem reschedule_keeps {t u : KatcpTime δ} {now : Timeval} (h : reschedule t now = some u) :
    u.tData = t.tData ∧ u.tArmed = t.tArmed ∧ u.tName = t.tName ∧ u.tInterval = t.tInterval := by
  simp only [reschedule] at h
  split at h
  · split at h
    · cases h
    · cases Option.some.inj h
      exact ⟨rfl, rfl, rfl, rfl⟩
  · cases Option.some.inj h
    exact ⟨rfl, rfl, rfl, rfl⟩

omit [DecidableEq δ] in
theorem reschedule_some {t : KatcpTime δ} {after : Timeval} (h : Countable t after)
    (hz : t.tInterval ≠ .zero) : ∃ u, reschedule t after = some u := by
  simp only [reschedule]
  split
  next hmissed =>
    rcases h hmissed with h0 | h0
    · exact absurd h0 hz
    · rw [if_neg h0]
      exact ⟨_, rfl⟩
  next => exact ⟨_, rfl⟩

omit [DecidableEq δ] in
theorem count_eq_one {s : Timers δ} (h : Kept s) {k : TimerId} (hk : k ∈ s.ids) : s.ids.count k = 1 :=
  List.count_eq_one_of_mem h.nodup hk

omit [DecidableEq δ] in
/-- A pass that finds its timer at the top again settles it. -/
theorem finishPass_settles {s : Timers δ} (h : Kept s) {id : TimerId} {t : KatcpTime δ}
    (hid : s.ids.head? = some id) (ht : s.at? id = some t) {after : Timeval} (hcount : Countable t after) :
    ∃ r s', finishPass s id after = some (r, s') ∧ Settles s s' id after := by
  have hmem : id ∈ s.ids := List.mem_of_head? hid
  unfold finishPass
  simp only [ht]
  by_cases hz : t.tInterval.tvSec = 0 ∧ t.tInterval.tvUsec = 0
  · rw [if_pos hz]
    have hput := h.put ht (u := { t with tArmed := false }) rfl
    obtain ⟨s2, h2, hk, hp, hst⟩ := hput.removeTop hid
    rw [h2]
    refine ⟨0, destroyTs s2 id, rfl, hk, fun k hkid => ⟨?_, ?_⟩, t, ht, ?_⟩
    · have hc := hp.count_eq k
      rw [List.count_cons_of_ne (Ne.symm hkid)] at hc
      exact hc
    · rw [at?_destroyTs, if_neg hkid, Timers.at?, hst]
      exact (at?_put ht _ k).trans (if_neg hkid)
    · rw [if_pos ((interval_zero t).mpr hz)]
      have hc := hp.count_eq id
      rw [List.count_cons_self, count_eq_one hput hmem] at hc
      have hzero : s2.ids.count id = 0 := by simpa using hc
      exact ⟨hzero, by rw [at?_destroyTs, if_pos rfl]⟩
  · rw [if_neg hz]
    have htop : s.ids[0]? = some id := by rw [← List.head?_eq_getElem?]; exact hid
    obtain ⟨u, hu⟩ := reschedule_some hcount (fun he => hz ((interval_zero t).mp he))
    obtain ⟨s2, h2, hk, hp, hst⟩ := h.update htop ht u
    simp only [hu, h2]
    have hat : s2.at? id = some u := by
      rw [Timers.at?, hst]
      exact (at?_put ht u id).trans (if_pos rfl)
    refine ⟨0, s2, rfl, hk, fun k hkid => ⟨hp.count_eq k, ?_⟩, t, ht, ?_⟩
    · rw [Timers.at?, hst]
      exact (at?_put ht _ k).trans (if_neg hkid)
    · rw [if_neg (fun he => hz ((interval_zero t).mp he))]
      exact ⟨(hp.count_eq id).trans (count_eq_one h hmem), hat.trans hu.symm, by simp [hat]⟩

omit [DecidableEq δ] in
theorem head_of_mem {s : Timers δ} {id : TimerId} (h : id ∈ s.ids) :
    ∃ heap top rest, s.tmrHeap = some heap ∧ s.ids = heap.datas ∧ heap.datas = top :: rest := by
  cases hh : s.tmrHeap with
  | none => simp [Timers.ids, hh] at h
  | some heap =>
    have hids : s.ids = heap.datas := by simp [Timers.ids, hh]
    rw [hids] at h
    cases hd : heap.datas with
    | nil => simp [hd] at h
    | cons top rest => exact ⟨heap, top, rest, rfl, hids, hd⟩

omit [DecidableEq δ] in
/-- A pass that finds another timer at the top takes that one off the heap. -/
theorem finishPass_loses_top {s s' : Timers δ} (h : Kept s) {id top : TimerId} (hmem : id ∈ s.ids)
    (htop : s.ids.head? = some top) (hne : top ≠ id) {after : Timeval} {r : Int}
    (hf : finishPass s id after = some (r, s')) : s'.ids.count top = 0 := by
  obtain ⟨t, ht⟩ := h.live id hmem
  unfold finishPass at hf
  simp only [ht] at hf
  split at hf
  · have hput := h.put ht (u := { t with tArmed := false }) rfl
    obtain ⟨s2, h2, _, hp, _⟩ := hput.removeTop htop
    rw [h2] at hf
    cases Option.some.inj hf
    have hc := hp.count_eq top
    have htm : top ∈ s.ids := List.mem_of_head? htop
    rw [List.count_cons_self, count_eq_one hput htm] at hc
    have hzero : s2.ids.count top = 0 := by simpa using hc
    exact hzero
  · obtain ⟨heap, first, rest, hheap, hids, hd⟩ := head_of_mem hmem
    have hfirst : first = top := by
      rw [hids, hd] at htop
      exact Option.some.inj htop
    subst hfirst
    have hnodup := h.nodup
    rw [hids, hd, List.nodup_cons] at hnodup
    have hsize : 0 < heap.hSize := by
      rw [← heap.datas_length, hd]
      simp
    split at hf
    · cases hf
    next u hu =>
    simp only [updateOnHeap, Timers.put, hheap] at hf
    split at hf
    · cases Option.some.inj hf
      simp only [Timers.ids]
      rw [updateNode_datas heap hsize, hd, List.set_cons_zero]
      have hp := (@siftDown_perm _ (cmpHeapTimers (s.put id u)) heap.hSize
        (siftUp (cmpHeapTimers (s.put id u)) heap.hSize (id :: rest) 0) 0).trans
        (siftUp_perm heap.hSize (id :: rest) 0)
      have hc := hp.count_eq first
      simp only [Timers.put, hheap] at hc
      rw [hc, List.count_cons_of_ne (Ne.symm hne)]
      exact List.count_eq_zero.mpr hnodup.1
    · cases hf

omit [DecidableEq δ] in
theorem startPass_returns {s s' : Timers δ} (h : Kept s) {now : Timeval} {r : Int}
    (hs : startPass s now = some (.returns r s')) : Kept s' ∧
      ∀ k t, s.at? k = some t → t.tArmed = true → s'.ids.count k = s.ids.count k ∧ s'.at? k = s.at? k := by
  have hsame : Kept s ∧ ∀ k t, s.at? k = some t → t.tArmed = true →
      s.ids.count k = s.ids.count k ∧ s.at? k = s.at? k := ⟨h, fun _ _ _ _ => ⟨rfl, rfl⟩⟩
  unfold startPass at hs
  split at hs
  · cases hs; exact hsame
  split at hs
  · cases hs; exact hsame
  next id hid =>
    split at hs
    · cases hs
    next t ht =>
      split at hs
      next hunarmed =>
        obtain ⟨s2, h2, hk, hp, hst⟩ := h.removeTop hid
        rw [h2] at hs
        cases hs
        refine ⟨hk, fun k u hu harmed => ?_⟩
        have hkid : k ≠ id := by
          rintro rfl
          rw [ht] at hu
          cases hu
          exact hunarmed harmed
        have hc := hp.count_eq k
        rw [List.count_cons_of_ne (Ne.symm hkid)] at hc
        refine ⟨hc, ?_⟩
        rw [at?_destroyTs, if_neg hkid, Timers.at?, hst]
        rfl
      next =>
        split at hs
        · cases hs; exact hsame
        split at hs <;> cases hs

omit [DecidableEq δ] in
theorem startPass_fires {s s0 : Timers δ} (h : Kept s) {now : Timeval} {id : TimerId}
    (hs : startPass s now = some (.fires id s0)) : Kept s0 ∧ s0.ids = s.ids ∧ id ∈ s.ids := by
  unfold startPass at hs
  split at hs
  · cases hs
  split at hs
  · cases hs
  next top htop =>
    split at hs
    · cases hs
    next t ht =>
      split at hs
      · split at hs <;> cases hs
      next harmed =>
        split at hs
        · cases hs
        next hdue =>
          split at hs <;> cases hs
          · exact ⟨h.put ht rfl, rfl, List.mem_of_head? htop⟩
          · exact ⟨h.put ht rfl, rfl, List.mem_of_head? htop⟩

omit [DecidableEq δ] in
theorem startPass_total {s : Timers δ} (h : Kept s) (now : Timeval) : startPass s now ≠ none := by
  intro hs
  unfold startPass at hs
  split at hs
  · cases hs
  split at hs
  · cases hs
  next id hid =>
    obtain ⟨t, ht⟩ := h.live id (List.mem_of_head? hid)
    obtain ⟨s2, h2, _⟩ := h.removeTop hid
    simp only [ht, h2] at hs
    repeat' split at hs
    all_goals cases hs

omit [DecidableEq δ] in
theorem countable_of_finishPass {s s' : Timers δ} {id : TimerId} {t : KatcpTime δ} {after : Timeval}
    {r : Int} (ht : s.at? id = some t) (h : finishPass s id after = some (r, s')) : Countable t after := by
  intro hmissed
  by_contra hnone
  obtain ⟨hz, h0⟩ := not_or.mp hnone
  have h0 : t.tInterval.usecs = 0 := not_not.mp h0
  unfold finishPass at h
  rw [ht] at h
  dsimp only at h
  rw [if_neg (fun he => hz ((interval_zero t).mpr he))] at h
  simp only [reschedule, hmissed, h0, ↓reduceIte] at h
  cases h

/-- A pass does its work exactly when the calls of the callback come back, leave the timer
that is fired at the top of the heap, and its missed deadlines can be counted. -/
theorem run_pass_iff {s : Timers δ} (h : Kept s) (now : Timeval) (callback : List (TimerCall δ))
    (after : Timeval) : PassCorrect s now callback after ↔
      ∀ id s0, startPass s now = some (.fires id s0) → ∃ s1, timerCalls s0 callback = some s1 ∧
        s1.ids.head? = some id ∧ ∀ t, s1.at? id = some t → Countable t after := by
  unfold PassCorrect
  cases hs : startPass s now with
  | none => exact absurd hs (startPass_total h now)
  | some start =>
    cases start with
    | returns r s' =>
      dsimp only
      refine ⟨fun _ id s0 hf => (by cases hf), fun _ => ⟨?_, startPass_returns h hs⟩⟩
      simp [runHeapTimers, hs]
    | fires id s0 =>
      obtain ⟨hk0, hids0, hmem⟩ := startPass_fires h hs
      constructor
      · rintro ⟨s1, r, s2, h1, hrun, hsettle⟩ id' s0' hf
        cases hf
        obtain ⟨hk1, hm1⟩ := timerCalls_kept hk0 h1
        have hmem1 : id ∈ s1.ids := hm1 id (hids0 ▸ hmem)
        simp only [runHeapTimers, hs, h1, Option.bind_eq_bind, Option.bind_some] at hrun
        refine ⟨s1, h1, ?_, fun t ht => countable_of_finishPass ht hrun⟩
        obtain ⟨heap, top, rest, _, hids, hd⟩ := head_of_mem hmem1
        have htop : s1.ids.head? = some top := by rw [hids, hd]; rfl
        by_contra hne
        have hti : top ≠ id := fun he => hne (he ▸ htop)
        have hlost := finishPass_loses_top hk1 hmem1 htop hti hrun
        rw [(hsettle.others top hti).1, count_eq_one hk1 (List.mem_of_head? htop)] at hlost
        cases hlost
      · intro hcond
        obtain ⟨s1, h1, htop, hcount⟩ := hcond id s0 rfl
        obtain ⟨hk1, _⟩ := timerCalls_kept hk0 h1
        obtain ⟨t, ht⟩ := hk1.live id (List.mem_of_head? htop)
        obtain ⟨r, s2, hfin, hsettle⟩ := finishPass_settles hk1 htop ht (hcount t ht)
        refine ⟨s1, r, s2, h1, ?_, hsettle⟩
        simp only [runHeapTimers, hs, h1, Option.bind_eq_bind, Option.bind_some]
        exact hfin

/-- One timer, due after five microseconds. -/
def loneTimer (interval : Timeval) : Timers Nat where
  tmrHeap := some ⟨[⟨0, 0⟩], rfl⟩
  store := [some ⟨none, .ofUsec 5, interval, true, 7, 0, 0, 0⟩]

theorem loneTimer_kept (interval : Timeval) : Kept (loneTimer interval) :=
  (noTimers_kept.register (show registerTimer noTimers (.ofUsec 5) interval 7 none =
    some (0, loneTimer interval) from rfl)).1

/-- A callback that registers a later timer does no harm. -/
theorem run_pass_iff_later :
    PassCorrect (loneTimer (.ofUsec 100)) (.ofUsec 6) [.registerAt (.ofUsec 9) 8 none] (.ofUsec 7) :=
  (run_pass_iff (loneTimer_kept _) _ _ _).mpr fun id s0 h => by
    cases h
    refine ⟨_, rfl, rfl, fun t ht hmissed => ?_⟩
    cases ht
    exact absurd hmissed (by decide)

/-- A callback that registers an earlier timer makes the pass remove that one, and destroy the
timer it fired while it is still on the heap. -/
theorem run_pass_removes_other : ¬ ∀ (s : Timers Nat) (now : Timeval) (callback : List (TimerCall Nat))
    (after : Timeval), Kept s → PassCorrect s now callback after := by
  intro hall
  have h := hall (loneTimer .zero) (.ofUsec 6) [.registerAt (.ofUsec 1) 8 none] (.ofUsec 7)
    (loneTimer_kept .zero)
  obtain ⟨s1, r, s2, h1, hrun, hsettle⟩ := h
  cases h1
  cases hrun
  have hlost := (hsettle.others 1 (by decide)).1
  exact absurd hlost (by decide)

end Katcp
