import Katcp.TimerDischarge
import Mathlib.Logic.Function.Basic

namespace Katcp

section

open Function

variable {δ : Type}

/-- What the timers are there for: the data and the interval of each one that is armed. -/
def pending (s : Timers δ) (k : TimerId) : Option (δ × Timeval) :=
  if k ∈ s.ids then
    (s.at? k).bind fun t => if t.tArmed then some (t.tData, t.tInterval) else none
  else none

theorem pending_some {s : Timers δ} {k : TimerId} {data : δ} {tv : Timeval} :
    pending s k = some (data, tv) ↔ k ∈ s.ids ∧ ∃ t, s.at? k = some t ∧ t.tArmed = true ∧
      t.tData = data ∧ t.tInterval = tv := by
  unfold pending
  split
  next hk =>
    rw [Option.bind_eq_some_iff]
    constructor
    · rintro ⟨t, ht, hp⟩
      split at hp
      next harm =>
        cases hp
        exact ⟨hk, t, ht, harm, rfl, rfl⟩
      next => cases hp
    · rintro ⟨_, t, ht, harm, rfl, rfl⟩
      exact ⟨t, ht, by rw [if_pos harm]⟩
  next hk => simp [hk]

theorem pending_noTimers (k : TimerId) : pending (noTimers : Timers δ) k = none := by
  simp [pending, noTimers, Timers.ids]

/-- Timers that stand on the same heap and look the same. -/
theorem pending_congr {s s' : Timers δ} {k : TimerId} (hids : k ∈ s'.ids ↔ k ∈ s.ids)
    (hat : s'.at? k = s.at? k) : pending s' k = pending s k := by
  unfold pending
  rw [hat]
  by_cases hk : k ∈ s.ids
  · rw [if_pos (hids.mpr hk), if_pos hk]
  · rw [if_neg (fun h => hk (hids.mp h)), if_neg hk]

theorem pending_put {s : Timers δ} {id : TimerId} {t : KatcpTime δ} (ht : s.at? id = some t)
    (hid : id ∈ s.ids) (u : KatcpTime δ) : pending (s.put id u) =
      update (pending s) id (if u.tArmed then some (u.tData, u.tInterval) else none) := by
  funext k
  by_cases hk : k = id
  · subst hk
    have hmem : k ∈ (s.put k u).ids := hid
    rw [update_self, pending, if_pos hmem, at?_put ht, if_pos rfl]
    rfl
  · rw [update_of_ne hk]
    exact pending_congr Iff.rfl (by rw [at?_put ht, if_neg hk])

/-- A change that leaves data, interval and armed flag of a timer as they are. -/
theorem pending_put_same {s : Timers δ} {id : TimerId} {t u : KatcpTime δ} (ht : s.at? id = some t)
    (ha : u.tArmed = t.tArmed) (hd : u.tData = t.tData) (hi : u.tInterval = t.tInterval) :
    pending (s.put id u) = pending s := by
  funext k
  unfold pending
  rw [at?_put ht]
  by_cases hk : k = id
  · subst hk
    rw [if_pos rfl, ht, Option.bind_some, Option.bind_some, ha, hd, hi]
    rfl
  · rw [if_neg hk]
    rfl

theorem pending_disarmed {s : Timers δ} {id : TimerId} (hid : id ∈ s.ids) :
    pending (disarmed s id) = update (pending s) id none := by
  unfold disarmed
  split
  next hat =>
    rw [eq_comm, update_eq_self_iff, pending, hat]
    simp
  next t ht =>
    rw [pending_put ht hid]
    rfl

theorem searchName_congr {s s' : Timers δ} (hst : s'.store = s.store) (name : TimerName) (i : Nat)
    (ids : List TimerId) : searchName s' name i ids = searchName s name i ids := by
  induction ids generalizing i with
  | nil => rfl
  | cons id ids ih => rw [searchName, searchName, Timers.at?, hst, ← Timers.at?, ih]

theorem findByName_congr {s s' : Timers δ} (hids : s'.ids = s.ids) (hst : s'.store = s.store)
    (name : TimerName) : findByName s' name = findByName s name := by
  rw [findByName, hids, searchName_congr hst, findByName]

/-- A registration under a name that is not there yet. -/
theorem pending_register {s s' : Timers δ} (h : Kept s) {whenTv interval : Timeval} {data : δ}
    {name : Option TimerName} {r : Int} (hr : registerTimer s whenTv interval data name = some (r, s')) :
    Kept s' ∧ ((r = 1 ∧ pending s' = pending s ∧ s'.ids = s.ids ∧ s'.store = s.store) ∨
      (r = 0 ∧ ∃ k, pending s k = none ∧ pending s' = update (pending s) k (some (data, interval)))) := by
  refine ⟨(h.register hr).1, ?_⟩
  rcases registerTimer_cases hr with ⟨hr, hids, hst⟩ | ⟨hr, hp, hst⟩
  · refine Or.inl ⟨hr, funext fun k => pending_congr (by rw [hids]) ?_, hids, hst⟩
    rw [Timers.at?, hst]
    rfl
  · refine Or.inr ⟨hr, s.store.length, ?_, ?_⟩
    · rw [pending, Timers.at?, List.getElem?_eq_none (Nat.le_refl _)]
      simp
    · funext k
      by_cases hk : k = s.store.length
      · rw [hk, update_self, pending, if_pos (hp.mem_iff.mpr List.mem_cons_self), at?_appended hst, if_pos rfl]
        rfl
      · rw [update_of_ne hk]
        refine pending_congr ?_ (by rw [at?_appended hst, if_neg hk])
        rw [hp.mem_iff, List.mem_cons]
        exact ⟨fun hm => hm.resolve_left hk, Or.inr⟩

/-- A name that is taken is found, and one that is not is registered. -/
theorem registerTimer_name {s s' : Timers δ} {whenTv interval : Timeval} {data : δ} {name : TimerName}
    {r : Int} (hr : registerTimer s whenTv interval data (some name) = some (r, s')) :
    (r = 1 ∧ ∃ p, findByName s name = some (some p)) ∨ (r = 0 ∧ findByName s name = some none) := by
  have hopen := findByName_congr (openHeap_ids s) (show (Timers.mk (some (s.tmrHeap.getD initHeap)) s.store).store =
    s.store from rfl) name
  unfold registerTimer at hr
  dsimp only at hr
  split at hr
  · cases hr
  next p hp =>
    cases Option.some.inj hr
    exact Or.inl ⟨rfl, p, hopen.symm.trans hp⟩
  next hp => exact Or.inr ⟨(createTimer_perm rfl hr).1, hopen.symm.trans hp⟩

theorem pending_readjust {s s' : Timers δ} (h : Kept s) {now tv : Timeval} {index : Nat} {id : TimerId}
    {r : Int} (hindex : s.ids[index]? = some id) (hr : readjusted s now tv index id = some (r, s')) :
    Kept s' ∧ r = 0 ∧ pending s' = update (pending s) id ((pending s id).map fun p => (p.1, tv)) := by
  unfold readjusted at hr
  split at hr
  · cases hr
  next t ht =>
    obtain ⟨s1, h1, hk, hp, hst⟩ := h.update hindex ht { t with tInterval := tv, tWhen := addTime now tv }
    rw [h1] at hr
    cases Option.some.inj hr
    have hid : id ∈ s.ids := List.mem_of_getElem? hindex
    refine ⟨hk, rfl, ?_⟩
    have hput := pending_put ht hid { t with tInterval := tv, tWhen := addTime now tv }
    have hsame : pending s' = pending (s.put id { t with tInterval := tv, tWhen := addTime now tv }) := by
      funext k
      refine pending_congr (hp.mem_iff) ?_
      rw [Timers.at?, hst]
      rfl
    rw [hsame, hput, pending, if_pos hid, ht, Option.bind_some]
    cases t.tArmed <;> rfl

/-- The timer at the top goes, unless it is armed. -/
theorem pending_removeTop {s s' : Timers δ} (h : Kept s) {id : TimerId} {t : KatcpTime δ}
    (hid : s.ids.head? = some id) (ht : s.at? id = some t) (harm : t.tArmed = false)
    (hr : removeTopTimer s = some s') :
    Kept (destroyTs s' id) ∧ pending (destroyTs s' id) = pending s := by
  obtain ⟨s1, h1, hk, hp, hst⟩ := h.removeTop hid
  rw [h1] at hr
  cases hr
  refine ⟨hk, funext fun k => ?_⟩
  by_cases hkid : k = id
  · subst hkid
    rw [pending, at?_destroyTs, if_pos rfl, pending, ht, Option.bind_some, harm]
    simp
  · refine pending_congr ?_ ?_
    · rw [← hp.mem_iff, List.mem_cons]
      exact ⟨Or.inr, fun hm => hm.resolve_left hkid⟩
    · rw [at?_destroyTs, if_neg hkid, Timers.at?, hst]
      rfl

theorem pending_load {s s' : Timers δ} (h : Kept s) {now : Timeval} {r : Int} {wait : Option Timeval}
    (hl : loadHeapTimers s now = some (r, wait, s')) : Kept s' ∧ pending s' = pending s := by
  have hloop : ∀ {n : Nat} {s : Timers δ}, Kept s → loadLoop n s now = some (r, wait, s') →
      Kept s' ∧ pending s' = pending s := by
    intro n
    induction n with
    | zero =>
      intro s h hl
      cases hl
      exact ⟨h, rfl⟩
    | succ n ih =>
      intro s h hl
      rw [loadLoop] at hl
      split at hl
      · cases hl; exact ⟨h, rfl⟩
      next id hid =>
        split at hl
        · cases hl
        next t ht =>
          split at hl
          · cases hl; exact ⟨h, rfl⟩
          next harm =>
            split at hl
            · cases hl
            next s1 h1 =>
              obtain ⟨hk, hp⟩ := pending_removeTop h hid ht (by simpa using harm) h1
              obtain ⟨hk', hp'⟩ := ih hk hl
              exact ⟨hk', hp'.trans hp⟩
  unfold loadHeapTimers at hl
  split at hl
  · cases hl; exact ⟨h, rfl⟩
  · exact hloop h hl

theorem pending_idle {s s' : Timers δ} (h : Kept s) {now : Timeval} {r : Int}
    (hs : startPass s now = some (.returns r s')) : Kept s' ∧ pending s' = pending s := by
  unfold startPass at hs
  split at hs
  · cases hs; exact ⟨h, rfl⟩
  split at hs
  · cases hs; exact ⟨h, rfl⟩
  next id hid =>
    split at hs
    · cases hs
    next t ht =>
      split at hs
      next harm =>
        split at hs
        · cases hs
        next s1 h1 =>
          cases hs
          exact pending_removeTop h hid ht (by simpa using harm) h1
      next =>
        split at hs
        · cases hs; exact ⟨h, rfl⟩
        split at hs <;> cases hs

theorem pending_fires {s s0 : Timers δ} (h : Kept s) {now : Timeval} {id : TimerId}
    (hs : startPass s now = some (.fires id s0)) : Kept s0 ∧ pending s0 = pending s ∧
      s0.ids.head? = some id ∧ ∃ t, s0.at? id = some t ∧ pending s id = some (t.tData, t.tInterval) := by
  unfold startPass at hs
  split at hs
  · cases hs
  split at hs
  · cases hs
  next top htop =>
    split at hs
    · cases hs
    next t ht =>
      split at hs
      · split at hs <;> cases hs
      next harmed =>
        have hp : pending s top = some (t.tData, t.tInterval) :=
          pending_some.mpr ⟨List.mem_of_head? htop, t, ht, by simpa using harmed, rfl, rfl⟩
        split at hs
        · cases hs
        split at hs
        all_goals
          cases hs
          exact ⟨h.put ht rfl, pending_put_same ht rfl rfl rfl, htop, _, (at?_put ht _ _).trans (if_pos rfl), hp⟩

/-- The end of the pass of a periodic timer. -/
theorem pending_finish {s s' : Timers δ} (h : Kept s) {id : TimerId} {t : KatcpTime δ}
    (hid : s.ids.head? = some id) (ht : s.at? id = some t) (hz : t.tInterval ≠ .zero) {after : Timeval}
    {r : Int} (hf : finishPass s id after = some (r, s')) : Kept s' ∧ pending s' = pending s := by
  unfold finishPass at hf
  simp only [ht] at hf
  rw [if_neg (fun he => hz ((interval_zero t).mpr he))] at hf
  split at hf
  · cases hf
  next u hu =>
    have htop : s.ids[0]? = some id := by rw [← List.head?_eq_getElem?]; exact hid
    obtain ⟨hd, ha, _, hi⟩ := reschedule_keeps hu
    obtain ⟨s1, h1, hk, hp, hst⟩ := h.update htop ht u
    rw [h1] at hf
    cases Option.some.inj hf
    refine ⟨hk, ?_⟩
    rw [← pending_put_same ht ha hd hi]
    funext k
    refine pending_congr (hp.mem_iff) ?_
    rw [Timers.at?, hst]
    rfl

end

section

open Function

variable {δ : Type} {s s' : Timers δ} {data other : δ} {tv now : Timeval} {r : Int}

/-- Of this data the heap holds timers that are armed, namely one, with this interval. -/
structure Sole (s : Timers δ) (data : δ) (tv : Timeval) : Prop where
  pends : ∃ k, pending s k = some (data, tv)
  single : ∀ k k' tv tv', pending s k = some (data, tv) → pending s k' = some (data, tv') → k' = k
  armed : ∀ k ∈ s.ids, ∀ t, s.at? k = some t → t.tData = data → t.tArmed = true

/-- What happened to the timers left those of this data as they were. -/
structure Unmoved (s s' : Timers δ) (data : δ) : Prop where
  sole : ∀ tv, Sole s data tv → Sole s' data tv
  silent : Silent s data → Silent s' data

theorem silent_iff : Silent s data ↔ ∀ k tv, pending s k ≠ some (data, tv) := by
  constructor
  · intro h k tv hk
    obtain ⟨hid, t, ht, harm, hd, _⟩ := pending_some.mp hk
    rw [h k hid t ht hd] at harm
    cases harm
  · intro h k hid t ht hd
    cases harm : t.tArmed with
    | false => rfl
    | true => exact absurd (pending_some.mpr ⟨hid, t, ht, harm, hd, rfl⟩) (h k t.tInterval)

/-- Timers of this data are armed as before, and none came onto the heap. -/
theorem unmoved_of (hp : ∀ k tv, pending s' k = some (data, tv) ↔ pending s k = some (data, tv))
    (hold : ∀ k ∈ s'.ids, ∀ t', s'.at? k = some t' → t'.tData = data →
      ∃ t, k ∈ s.ids ∧ s.at? k = some t ∧ t.tData = data) : Unmoved s s' data := by
  refine ⟨fun tv h => ⟨?_, ?_, ?_⟩, fun h => ?_⟩
  · obtain ⟨k, hk⟩ := h.pends
    exact ⟨k, (hp k tv).mpr hk⟩
  · intro k k' tv tv' hk hk'
    exact h.single k k' tv tv' ((hp k tv).mp hk) ((hp k' tv').mp hk')
  · intro k hk t' ht' hd'
    obtain ⟨t, hid, ht, hd⟩ := hold k hk t' ht' hd'
    have hpend := (hp k t.tInterval).mpr (pending_some.mpr ⟨hid, t, ht, h.armed k hid t ht hd, hd, rfl⟩)
    obtain ⟨_, u, hu, harm, _⟩ := pending_some.mp hpend
    rw [ht'] at hu
    cases hu
    exact harm
  · rw [silent_iff] at h ⊢
    intro k tv hk
    exact h k tv ((hp k tv).mp hk)

theorem unmoved_fades (hp : pending s' = pending s) (hf : Fades s s') (data : δ) :
    Unmoved s s' data := by
  refine unmoved_of (fun k tv => by rw [hp]) fun k hk t' ht' hd' => ?_
  obtain ⟨t, hid, ht, hd, _⟩ := hf k hk t' ht'
  exact ⟨t, hid, ht, hd.symm.trans hd'⟩

/-- A change of what is pending at one place, where nothing of this data was or is. -/
theorem pending_elsewhere {k0 : TimerId} {p : Option (δ × Timeval)} (hp : pending s' = update (pending s) k0 p)
    (hbefore : ∀ tv, pending s k0 ≠ some (data, tv)) (hafter : ∀ tv, p ≠ some (data, tv)) (k : TimerId)
    (tv : Timeval) : pending s' k = some (data, tv) ↔ pending s k = some (data, tv) := by
  rw [hp]
  by_cases hk : k = k0
  · rw [hk, update_self]
    exact ⟨fun h => absurd h (hafter tv), fun h => absurd h (hbefore tv)⟩
  · rw [update_of_ne hk]

variable [DecidableEq δ]

theorem searchData_none {ids : List TimerId} {i : Nat} (h : searchData s data i ids = some none)
    {k : TimerId} (hk : k ∈ ids) {t : KatcpTime δ} (ht : s.at? k = some t) : t.tData ≠ data := by
  induction ids generalizing i with
  | nil => cases hk
  | cons x ids ih =>
    rw [searchData] at h
    split at h
    · cases h
    next u hu =>
      split at h
      · cases h
      next hne =>
        rcases List.mem_cons.mp hk with rfl | hk
        · rw [hu] at ht
          cases ht
          exact hne
        · exact ih h hk

/-- A timer is registered where there was none of its data. -/
theorem registerEvery_sole (hk : Kept s) (hnone : findByDataRef s data = some none)
    (hr : registerEvery s now tv data none = some (r, s')) :
    Kept s' ∧ r = 0 ∧ Sole s' data tv ∧ ∀ other, other ≠ data → Unmoved s s' other := by
  obtain ⟨hk', ⟨rfl, _, hids, hst⟩ | ⟨rfl, k, hfree, hp⟩⟩ := pending_register hk hr
  · -- only a name can be taken
    have hcreate : createTimer _ _ _ = some (1, s') := hr
    exact absurd (createTimer_perm rfl hcreate).1 (by decide)
  · rcases registerTimer_cases hr with ⟨h1, _⟩ | ⟨_, hids, hst⟩
    · cases h1
    have hold : ∀ k t, k ∈ s'.ids → s'.at? k = some t → t.tData = data → t.tArmed = true := by
      intro k t hk ht hd
      rw [at?_appended hst] at ht
      split at ht
      · cases ht
        rfl
      next hne =>
        have hmem := (List.mem_cons.mp (hids.mem_iff.mp hk)).resolve_left hne
        exact absurd hd (searchData_none hnone hmem ht)
    refine ⟨hk', rfl, ⟨⟨k, by rw [hp, update_self]⟩, ?_, fun k hk t ht => hold k t hk ht⟩, fun other hne => ?_⟩
    · have hat : ∀ k' tv', pending s' k' = some (data, tv') → k' = k := by
        intro k' tv' hk'
        by_contra hkk
        rw [hp, update_of_ne hkk] at hk'
        obtain ⟨hid, t, ht, _, hd, _⟩ := pending_some.mp hk'
        exact searchData_none hnone hid ht hd
      intro k1 k2 tv1 tv2 h1 h2
      rw [hat k1 tv1 h1, hat k2 tv2 h2]
    · refine unmoved_of (pending_elsewhere hp (by simp [hfree]) (by simp [hne.symm])) ?_
      intro k1 hk1 t1 ht1 hd1
      rw [at?_appended hst] at ht1
      split at ht1
      · cases ht1
        exact absurd hd1 hne.symm
      next hne1 => exact ⟨t1, (List.mem_cons.mp (hids.mem_iff.mp hk1)).resolve_left hne1, ht1, hd1⟩

/-- Where a search finds the sole timer of its data. -/
theorem Sole.found (h : Sole s data tv) {index : Nat} {k : TimerId}
    (hf : findByDataRef s data = some (some (index, k))) : pending s k = some (data, tv) := by
  obtain ⟨hget, t, ht, hd⟩ := findByDataRef_spec hf
  have hid := List.mem_of_getElem? hget
  have hpend := pending_some.mpr ⟨hid, t, ht, h.armed k hid t ht hd, hd, rfl⟩
  obtain ⟨k0, hk0⟩ := h.pends
  have hk := h.single k0 k tv t.tInterval hk0 hpend
  rw [hk]
  exact hk0

theorem Sole.not_missing (h : Sole s data tv) : findByDataRef s data ≠ some none := by
  intro hf
  obtain ⟨k, hk⟩ := h.pends
  obtain ⟨hid, t, ht, _, hd, _⟩ := pending_some.mp hk
  exact searchData_none hf hid ht hd

/-- The sole timer of the data gets another interval. -/
theorem adjustIntervalAnonymous_sole {old : Timeval} (hk : Kept s) (h : Sole s data old)
    (hr : adjustIntervalAnonymous s now tv data = some (r, s')) :
    Kept s' ∧ r = 0 ∧ Sole s' data tv ∧ ∀ other, other ≠ data → Unmoved s s' other := by
  unfold adjustIntervalAnonymous at hr
  split at hr
  · cases hr
  next hf => exact absurd hf h.not_missing
  next index k hf =>
    obtain ⟨hget, _⟩ := findByDataRef_spec hf
    have hpk := h.found hf
    obtain ⟨hk', hr0, hp⟩ := pending_readjust hk hget hr
    obtain ⟨hfades, _⟩ := readjusted_fades hget hr
    rw [hpk] at hp
    change pending s' = update (pending s) k (some (data, tv)) at hp
    have hat : ∀ k' tv', pending s' k' = some (data, tv') → k' = k := by
      intro k' tv' hk'
      by_contra hkk
      rw [hp, update_of_ne hkk] at hk'
      exact hkk (h.single k k' old tv' hpk hk')
    refine ⟨hk', hr0, ⟨⟨k, by rw [hp, update_self]⟩, fun k1 k2 tv1 tv2 h1 h2 => ?_, ?_⟩, fun other hne => ?_⟩
    · rw [hat k1 tv1 h1, hat k2 tv2 h2]
    · intro k1 hk1 t1 ht1 hd1
      obtain ⟨t, hid, ht, hd, _⟩ := hfades k1 hk1 t1 ht1
      have hd : t.tData = data := hd.symm.trans hd1
      have hpend := pending_some.mpr ⟨hid, t, ht, h.armed k1 hid t ht hd, hd, rfl⟩
      have hk1k := h.single k k1 old t.tInterval hpk hpend
      have hnow : pending s' k1 = some (data, tv) := by rw [hk1k, hp, update_self]
      obtain ⟨_, u, hu, harm, _⟩ := pending_some.mp hnow
      rw [ht1] at hu
      cases hu
      exact harm
    · refine unmoved_of (pending_elsewhere hp (by simp [hpk, hne.symm]) (by simp [hne.symm])) ?_
      intro k1 hk1 t1 ht1 hd1
      obtain ⟨t, hid, ht, hd, _⟩ := hfades k1 hk1 t1 ht1
      exact ⟨t, hid, ht, hd.symm.trans hd1⟩

/-- The sole timer of the data is discharged. -/
theorem disarmByRef_sole (hk : Kept s) (h : Sole s data tv) (hr : disarmByRef s data = some (r, s')) :
    Kept s' ∧ Silent s' data ∧ ∀ other, other ≠ data → Unmoved s s' other := by
  unfold disarmByRef at hr
  split at hr
  · cases hr
  next hf => exact absurd hf h.not_missing
  next index k hf =>
    cases Option.some.inj hr
    have hpk := h.found hf
    have hp := pending_disarmed (List.mem_of_getElem? (findByDataRef_spec hf).1)
    refine ⟨hk.disarm k, silent_iff.mpr fun k' tv' hk' => ?_, fun other hne => ?_⟩
    · by_cases hkk : k' = k
      · rw [hp, hkk, update_self] at hk'
        cases hk'
      · rw [hp, update_of_ne hkk] at hk'
        exact hkk (h.single k k' tv tv' hpk hk')
    · refine unmoved_of (pending_elsewhere hp (by simp [hpk, hne.symm]) (by simp)) ?_
      intro k1 hk1 t1 ht1 hd1
      obtain ⟨t, hid, ht, hd, _⟩ := disarmed_fades s k k1 hk1 t1 ht1
      exact ⟨t, hid, ht, hd.symm.trans hd1⟩

end

end Katcp
