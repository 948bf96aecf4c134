import Katcp.TimerSole
import Mathlib.Logic.Relation

namespace Katcp

section

variable {δ : Type}

def Timers.nameAt (s : Timers δ) (id : TimerId) : Option TimerName := (s.at? id).bind (·.tName)

/-- A timer on the heap whose name is exactly this one. -/
def CarriesName (s : Timers δ) (name : TimerName) (id : TimerId) : Prop :=
  id ∈ s.ids ∧ s.nameAt id = some name

/-- The timers a search comes to before the first one of this very name: all, if none is. -/
def searchedFirst (s : Timers δ) (name : TimerName) : List TimerId :=
  s.ids.takeWhile fun id => s.nameAt id != some name

/-- A timer that a search for the name passes by. -/
def PassedBy (s : Timers δ) (name : TimerName) (id : TimerId) : Prop :=
  ∃ n, s.nameAt id = some n ∧ n.isPrefixOf name = false

/-- What a search has to return: a timer of this very name, or nothing if there is none. -/
def FoundExactly (s : Timers δ) (name : TimerName) (ids : List TimerId) :
    Option (Option (Nat × TimerId)) → Prop
  | none => False
  | some none => ∀ id ∈ ids, s.nameAt id ≠ some name
  | some (some (_, id)) => s.nameAt id = some name

def Live (s : Timers δ) : Prop := ∀ id ∈ s.ids, ∃ t, s.at? id = some t

theorem nameAt_of {s : Timers δ} {id : TimerId} {t : KatcpTime δ} (h : s.at? id = some t) :
    s.nameAt id = t.tName := by
  simp [Timers.nameAt, h]

theorem isPrefixOf_refl (name : TimerName) : name.isPrefixOf name = true := by
  simp

theorem searchName_exact {s : Timers δ} {name : TimerName} {ids : List TimerId} {i : Nat}
    (hlive : ∀ id ∈ ids, ∃ t, s.at? id = some t) :
    FoundExactly s name ids (searchName s name i ids) ↔
      ∀ id ∈ ids.takeWhile (fun id => s.nameAt id != some name), PassedBy s name id := by
  induction ids generalizing i with
  | nil => simp [searchName, FoundExactly]
  | cons x ids ih =>
    obtain ⟨t, ht⟩ := hlive x List.mem_cons_self
    have hx := nameAt_of ht
    rw [searchName, ht]
    dsimp only
    cases hn : t.tName with
    | none =>
      rw [hn] at hx
      refine iff_of_false id fun hall => ?_
      obtain ⟨n, hn', _⟩ := hall x (by simp [hx])
      rw [hx] at hn'
      cases hn'
    | some n =>
      rw [hn] at hx
      dsimp only
      by_cases hp : n.isPrefixOf name = true
      · rw [if_pos hp]
        by_cases he : n = name
        · subst he
          simp [FoundExactly, hx]
        · refine iff_of_false (fun hf => he ?_) fun hall => ?_
          · exact Option.some.inj (hx.symm.trans hf)
          · obtain ⟨m, hm, hmp⟩ := hall x (by simp [hx, he])
            cases hx.symm.trans hm
            rw [hp] at hmp
            cases hmp
      · have he : n ≠ name := fun he => hp (he ▸ isPrefixOf_refl n)
        have hne : s.nameAt x ≠ some name := fun h => he (Option.some.inj (hx.symm.trans h))
        have hfound : ∀ r, FoundExactly s name (x :: ids) r ↔ FoundExactly s name ids r := by
          intro r
          rcases r with _ | _ | p
          · exact Iff.rfl
          · simp [FoundExactly, hne]
          · exact Iff.rfl
        rw [if_neg hp, hfound, ih fun id hid => hlive id (List.mem_cons_of_mem _ hid)]
        have hpass : PassedBy s name x := ⟨n, hx, Bool.not_eq_true _ ▸ hp⟩
        simp [hne, hpass]

theorem findByName_exact {s : Timers δ} {name : TimerName} (hlive : Live s) :
    FoundExactly s name s.ids (findByName s name) ↔ ∀ id ∈ searchedFirst s name, PassedBy s name id :=
  searchName_exact hlive

/-- The three calls that register a timer under a name. -/
def registersName (name : TimerName) : TimerCall δ → Bool
  | .registerAt _ _ n | .registerIn _ _ _ n | .registerEvery _ _ _ n => n == some name
  | _ => false

/-- The calls that change the timer of a name. -/
def changesName (name : TimerName) : TimerCall δ → Bool
  | .dischargeNamed n | .adjust _ _ n | .rename n _ => n == name
  | _ => false

variable [DecidableEq δ]

/-- What the names of timers are for: a search finds the timer of exactly this name, a
registration is refused if there is one and accepted if not, and the calls that change it
leave the timers of every other name as they are. -/
structure NamesExactly (s : Timers δ) (name : TimerName) : Prop where
  found : FoundExactly s name s.ids (findByName s name)
  refused : ∀ c, registersName name c = true → ∃ r s', timerCall s c = some (r, s') ∧
    ((∃ id, CarriesName s name id) → r = 1 ∧ s'.ids = s.ids ∧ s'.store = s.store) ∧
    ((¬ ∃ id, CarriesName s name id) → r = 0)
  others : ∀ c r s', changesName name c = true → timerCall s c = some (r, s') →
    ∀ id t, s.at? id = some t → t.tName ≠ some name →
      s'.at? id = some t ∧ (id ∈ s'.ids ↔ id ∈ s.ids)

omit [DecidableEq δ] in
theorem Live.comparable {s : Timers δ} (h : Live s) : comparable s = true := by
  refine List.all_eq_true.mpr fun id hid => ?_
  obtain ⟨t, ht⟩ := h id hid
  rw [ht]
  rfl

omit [DecidableEq δ] in
theorem Live.createTimer {s : Timers δ} (h : Live s) (t : KatcpTime δ) :
    ∃ s', createTimer { s with tmrHeap := some (s.tmrHeap.getD initHeap) } (s.tmrHeap.getD initHeap) t =
      some (0, s') := by
  unfold Katcp.createTimer
  dsimp only
  rw [if_pos]
  · exact ⟨_, rfl⟩
  · refine Live.comparable fun id hid => ?_
    have hid' : id ∈ s.ids := (openHeap_ids s) ▸ hid
    obtain ⟨u, hu⟩ := h id hid'
    refine ⟨u, ?_⟩
    rw [at?_append, if_neg (Nat.ne_of_lt (at?_lt hu)), hu]

omit [DecidableEq δ] in
theorem registerTimer_exact {s : Timers δ} {name : TimerName} (hlive : Live s)
    (hf : FoundExactly s name s.ids (findByName s name)) (whenTv interval : Timeval) (data : δ) :
    ∃ r s', registerTimer s whenTv interval data (some name) = some (r, s') ∧
      ((∃ id, CarriesName s name id) → r = 1 ∧ s'.ids = s.ids ∧ s'.store = s.store) ∧
      ((¬ ∃ id, CarriesName s name id) → r = 0) := by
  have hopen := findByName_congr (openHeap_ids s) (show (Timers.mk (some (s.tmrHeap.getD initHeap)) s.store).store =
    s.store from rfl) name
  unfold registerTimer
  dsimp only
  rw [hopen]
  match hs : findByName s name with
  | none =>
    rw [hs] at hf
    cases hf
  | some none =>
    rw [hs] at hf
    obtain ⟨s', hc⟩ := hlive.createTimer ⟨some name, whenTv, interval, true, data, 0, 0, 0⟩
    refine ⟨0, s', hc, ?_, fun _ => rfl⟩
    rintro ⟨id, hid, hn⟩
    exact absurd hn (hf id hid)
  | some (some (index, id)) =>
    rw [hs] at hf
    obtain ⟨hget, _⟩ := findByName_spec hs
    refine ⟨1, _, rfl, fun _ => ⟨rfl, openHeap_ids s, rfl⟩, fun hno => ?_⟩
    exact absurd ⟨id, List.mem_of_getElem? hget, hf⟩ hno

omit [DecidableEq δ] in
theorem nameAt_ne {s : Timers δ} {name : TimerName} {id k : TimerId} {t : KatcpTime δ}
    (hid : s.nameAt id = some name) (ht : s.at? k = some t) (hn : t.tName ≠ some name) : k ≠ id := by
  rintro rfl
  exact hn ((nameAt_of ht).symm.trans hid)

theorem changesName_others {s : Timers δ} {name : TimerName}
    (hf : FoundExactly s name s.ids (findByName s name)) {c : TimerCall δ} {r : Int} {s' : Timers δ}
    (hc : changesName name c = true) (h : timerCall s c = some (r, s')) {k : TimerId} {t : KatcpTime δ}
    (ht : s.at? k = some t) (hn : t.tName ≠ some name) : s'.at? k = some t ∧ (k ∈ s'.ids ↔ k ∈ s.ids) := by
  cases c with
  | dischargeNamed n =>
    obtain rfl : n = name := beq_iff_eq.mp hc
    simp only [timerCall, disarmByName] at h
    split at h
    · cases h
    · cases Option.some.inj h
      exact ⟨ht, Iff.rfl⟩
    next index id hs =>
      rw [hs] at hf
      cases Option.some.inj h
      unfold disarmed
      split
      · exact ⟨ht, Iff.rfl⟩
      next u hu => exact ⟨by rw [at?_put hu, if_neg (nameAt_ne hf ht hn), ht], Iff.rfl⟩
  | adjust now tv n =>
    obtain rfl : n = name := beq_iff_eq.mp hc
    simp only [timerCall, adjustInterval] at h
    split at h
    · cases h
    · cases Option.some.inj h
      exact ⟨ht, Iff.rfl⟩
    next index id hs =>
      rw [hs] at hf
      obtain ⟨hget, _⟩ := findByName_spec hs
      unfold readjusted at h
      split at h
      · cases h
      next u hu =>
        obtain ⟨s1, h1, h⟩ := Option.map_eq_some_iff.mp h
        cases h
        have hput := at?_put hu { u with tInterval := tv, tWhen := addTime now tv } k
        rw [if_neg (nameAt_ne hf ht hn), ht] at hput
        have hget' : (s.put id { u with tInterval := tv, tWhen := addTime now tv }).ids[index]? = some id := hget
        obtain ⟨_, hst⟩ := updateOnHeap_members (List.mem_of_getElem? hget') h1
        exact ⟨by rw [← hput, Timers.at?, Timers.at?, hst], (updateOnHeap_perm hget' h1).mem_iff⟩
  | rename n new =>
    obtain rfl : n = name := beq_iff_eq.mp hc
    simp only [timerCall, renameTimer] at h
    split at h
    · cases h
    · cases Option.some.inj h
      exact ⟨ht, Iff.rfl⟩
    next index id hs =>
      rw [hs] at hf
      split at h
      · cases h
      · cases Option.some.inj h
        exact ⟨ht, Iff.rfl⟩
      · split at h
        · cases h
        next u hu =>
          cases Option.some.inj h
          exact ⟨by rw [at?_put hu, if_neg (nameAt_ne hf ht hn), ht], Iff.rfl⟩
  | registerAt | registerIn | registerEvery | discharge | adjustAnonymous => cases hc

/-- A name means the timer of exactly that name if and only if every timer a search comes to
before it carries a name that does not begin this one. -/
theorem names_are_exact {s : Timers δ} {name : TimerName} (hlive : Live s) :
    NamesExactly s name ↔ ∀ id ∈ searchedFirst s name, PassedBy s name id := by
  rw [← findByName_exact hlive]
  refine ⟨fun h => h.found, fun hf => ⟨hf, fun c hc => ?_, fun c r s' hc h id t ht hn => ?_⟩⟩
  · cases c with
    | registerAt tv data n | registerIn now tv data n | registerEvery now tv data n =>
      obtain rfl : n = some name := beq_iff_eq.mp hc
      exact registerTimer_exact hlive hf _ _ _
    | discharge | dischargeNamed | adjust | adjustAnonymous | rename => cases hc
  · exact changesName_others hf hc h ht hn

/-- A timer whose name is longer than the one asked for is not taken for it. -/
theorem names_are_exact_longer : ∃ s : Timers Nat,
    timerCalls noTimers [.registerAt (.ofUsec 5) 1 (some [97, 98])] = some s ∧ Live s ∧
      ((∀ id ∈ searchedFirst s [97], PassedBy s [97] id) → NamesExactly s [97]) := by
  refine ⟨_, rfl, ?_⟩
  have hlive : ∀ s1 : Timers Nat, registerAt noTimers (.ofUsec 5) 1 (some [97, 98]) = some (0, s1) → Live s1 := by
    intro s1 h1
    cases h1
    intro id hid
    cases List.mem_singleton.mp hid
    exact ⟨_, rfl⟩
  exact ⟨hlive _ rfl, (names_are_exact (hlive _ rfl)).mpr⟩

/-- The timer `a` stands for `ab` as well, and a timer without a name ends every search that
comes to it in a crash. -/
theorem other_timer_found :
    (∃ s : Timers Nat, timerCalls noTimers [.registerAt (.ofUsec 5) 1 (some [97])] = some s ∧
      findByName s [97, 98] = some (some (0, 0)) ∧ ¬ NamesExactly s [97, 98]) ∧
    (∃ s : Timers Nat, timerCalls noTimers [.registerAt (.ofUsec 5) 1 none] = some s ∧
      findByName s [97] = none ∧ ¬ NamesExactly s [97]) := by
  refine ⟨⟨_, rfl, rfl, fun h => ?_⟩, _, rfl, rfl, fun h => ?_⟩
  · cases Option.some.inj h.found
  · exact h.found

end

section

open Function Relation LevelHeap

variable {δ κ : Type}

/-- The timers with their callbacks, which no call changes once a timer has been created. -/
structure CalledTimers (δ κ : Type) where
  timers : Timers δ
  tCall : TimerId → Option κ

def noCalledTimers : CalledTimers δ κ := ⟨noTimers, fun _ => none⟩

/-- The time, the interval and the data that a registering call asks for. -/
def asked : TimerCall δ → Option (Timeval × Timeval × δ)
  | .registerAt tv data _ => some (tv, .zero, data)
  | .registerIn now tv data _ => some (addTime now tv, .zero, data)
  | .registerEvery now tv data _ => some (addTime now tv, tv, data)
  | _ => none

/-- An armed timer of this name with exactly this time, interval, data and callback. -/
def ArmedAs (s : CalledTimers δ κ) (name : TimerName) (w : Timeval × Timeval × δ) (call : κ) : Prop :=
  ∃ id ∈ s.timers.ids, s.tCall id = some call ∧ ∃ t, s.timers.at? id = some t ∧
    t.tArmed = true ∧ t.tName = some name ∧ (t.tWhen, t.tInterval, t.tData) = w

variable [DecidableEq δ]

/-- A call of a timer function; `call` is the callback that goes with a registration. -/
def calledCall (s : CalledTimers δ κ) (c : TimerCall δ) (call : κ) : Option (Int × CalledTimers δ κ) := do
  let (r, timers) ← timerCall s.timers c
  if r = 0 ∧ (registrant c).isSome then
    some (r, ⟨timers, update s.tCall s.timers.store.length (some call)⟩)
  else some (r, ⟨timers, s.tCall⟩)

def OneCall (s s' : CalledTimers δ κ) : Prop := ∃ c call r, calledCall s c call = some (r, s')

/-- What can happen to the timers: a call, a load, or a pass, with the calls of its callback
if it comes to one. -/
inductive CalledStep : CalledTimers δ κ → CalledTimers δ κ → Prop
  | call {s s' : CalledTimers δ κ} : OneCall s s' → CalledStep s s'
  | load {s : CalledTimers δ κ} {t : Timers δ} {now : Timeval} {r : Int} {interval : Option Timeval} :
      loadHeapTimers s.timers now = some (r, interval, t) → CalledStep s ⟨t, s.tCall⟩
  | idle {s : CalledTimers δ κ} {t : Timers δ} {now : Timeval} {r : Int} :
      startPass s.timers now = some (.returns r t) → CalledStep s ⟨t, s.tCall⟩
  | pass {s s1 : CalledTimers δ κ} {t0 t2 : Timers δ} {now after : Timeval} {id : TimerId} {r : Int} :
      startPass s.timers now = some (.fires id t0) → ReflTransGen OneCall ⟨t0, s.tCall⟩ s1 →
      finishPass s1.timers id after = some (r, t2) → CalledStep s ⟨t2, s1.tCall⟩

/-- A reachable state in which `name` has been discharged, with whatever happened since. -/
def DischargedBefore (s : CalledTimers δ κ) (name : TimerName) : Prop :=
  ∃ s0 s1 : CalledTimers δ κ, ReflTransGen CalledStep noCalledTimers s0 ∧
    disarmByName s0.timers name = some (0, s1.timers) ∧ s1.tCall = s0.tCall ∧
    ReflTransGen CalledStep s1 s

omit [DecidableEq δ] in
theorem passed_all {s : Timers δ} {name : TimerName} (h : findByName s name = some none) :
    ∀ id ∈ s.ids, PassedBy s name id := by
  have hsearch : ∀ {ids : List TimerId} {i : Nat}, searchName s name i ids = some none →
      ∀ id ∈ ids, PassedBy s name id := by
    intro ids
    induction ids with
    | nil => intro i _ id hid; cases hid
    | cons x ids ih =>
      intro i h id hid
      rw [searchName] at h
      split at h
      · cases h
      next t ht =>
        split at h
        · cases h
        next n hn =>
          split at h
          · cases h
          next hp =>
            rcases List.mem_cons.mp hid with rfl | hid
            · exact ⟨n, (nameAt_of ht).trans hn, Bool.not_eq_true _ ▸ hp⟩
            · exact ih h id hid
  exact hsearch h

omit [DecidableEq δ] in
theorem PassedBy.live {s : Timers δ} {name : TimerName} {id : TimerId} (h : PassedBy s name id) :
    ∃ t, s.at? id = some t := by
  obtain ⟨n, hn, _⟩ := h
  obtain ⟨t, ht, _⟩ := Option.bind_eq_some_iff.mp hn
  exact ⟨t, ht⟩

omit [DecidableEq δ] in
theorem PassedBy.ne {s : Timers δ} {name : TimerName} {id : TimerId} (h : PassedBy s name id) :
    s.nameAt id ≠ some name := by
  obtain ⟨n, hn, hp⟩ := h
  intro he
  cases hn.symm.trans he
  rw [isPrefixOf_refl] at hp
  cases hp

omit [DecidableEq δ] in
/-- A name that every timer on the heap passes by is registered. -/
theorem registerTimer_passed {s : Timers δ} {name : TimerName} (h : ∀ id ∈ s.ids, PassedBy s name id)
    (whenTv interval : Timeval) (data : δ) :
    ∃ s', registerTimer s whenTv interval data (some name) = some (0, s') := by
  have hlive : Live s := fun id hid => (h id hid).live
  have hf : FoundExactly s name s.ids (findByName s name) := by
    rw [findByName_exact hlive]
    exact fun id hid => h id (List.takeWhile_subset _ hid)
  obtain ⟨r, s', hr, _, hfree⟩ := registerTimer_exact hlive hf whenTv interval data
  have hnone : ¬ ∃ id, CarriesName s name id := fun ⟨id, hid, hn⟩ => (h id hid).ne hn
  rw [hfree hnone] at hr
  exact ⟨s', hr⟩

theorem timerCall_registers {c : TimerCall δ} {name : TimerName} {whenTv interval : Timeval} {data : δ}
    (hc : registersName name c = true) (hw : asked c = some (whenTv, interval, data)) (s : Timers δ) :
    timerCall s c = registerTimer s whenTv interval data (some name) ∧ registrant c = some data := by
  cases c with
  | registerAt tv d n | registerIn now tv d n | registerEvery now tv d n =>
    obtain rfl : n = some name := beq_iff_eq.mp hc
    cases hw
    exact ⟨rfl, rfl⟩
  | discharge | dischargeNamed | adjust | adjustAnonymous | rename => cases hc

omit [DecidableEq δ] in
theorem searchName_same {s s' : Timers δ} (h : ∀ k, (s'.at? k).map (·.tName) = (s.at? k).map (·.tName))
    (name : TimerName) (i : Nat) (ids : List TimerId) : searchName s' name i ids = searchName s name i ids := by
  induction ids generalizing i with
  | nil => rfl
  | cons x ids ih =>
    have hx := h x
    rw [searchName, searchName]
    cases ht : s.at? x with
    | none =>
      rw [ht, Option.map_none, Option.map_eq_none_iff] at hx
      rw [hx]
    | some t =>
      rw [ht] at hx
      obtain ⟨t', ht', hn⟩ := Option.map_eq_some_iff.mp hx
      simp only [ht', hn, ih]

/-- A discharged timer keeps its name taken: a registration that follows at once is refused. -/
theorem refused_at_once {s s1 : Timers δ} {name : TimerName} (hd : disarmByName s name = some (0, s1))
    {c : TimerCall δ} (hc : registersName name c = true) :
    ∃ s2, timerCall s1 c = some (1, s2) ∧ s2.ids = s1.ids ∧ s2.store = s1.store := by
  unfold disarmByName at hd
  split at hd
  · cases hd
  · cases Option.some.inj hd
  next p id hfound =>
    cases Option.some.inj hd
    have hsame : ∀ k, ((disarmed s id).at? k).map (·.tName) = (s.at? k).map (·.tName) := by
      intro k
      unfold disarmed
      split
      · rfl
      next t ht =>
        rw [at?_put ht]
        split
        next hk => rw [hk, ht]; rfl
        next => rfl
    have hagain : findByName (disarmed s id) name = some (some (p, id)) := by
      rw [findByName, disarmed_ids, searchName_same hsame]
      exact hfound
    have hopen := findByName_congr (openHeap_ids (disarmed s id))
      (show (Timers.mk (some ((disarmed s id).tmrHeap.getD initHeap)) (disarmed s id).store).store = _ from rfl) name
    have hrefused : ∀ whenTv interval data, ∃ s2,
        registerTimer (disarmed s id) whenTv interval data (some name) = some (1, s2) ∧
          s2.ids = (disarmed s id).ids ∧ s2.store = (disarmed s id).store := by
      intro whenTv interval data
      unfold registerTimer
      simp only [hopen, hagain]
      exact ⟨_, rfl, openHeap_ids _, rfl⟩
    cases c with
    | registerAt tv d n | registerIn now tv d n | registerEvery now tv d n =>
      obtain rfl : n = some name := beq_iff_eq.mp hc
      exact hrefused _ _ _
    | discharge | dischargeNamed | adjust | adjustAnonymous | rename => cases hc

omit [DecidableEq δ] in
theorem top_not_after {s : Timers δ} (h : Kept s) {a top : TimerId} (htop : s.ids.head? = some top)
    (ha : a ∈ s.ids) : ¬ (s.whenOf a).Earlier (s.whenOf top) := by
  intro hlt
  obtain ⟨i, hi⟩ := List.getElem?_of_mem ha
  have hbefore := h.ordered.top (cmpHeapTimers_weak s) i
  rw [List.head?_eq_getElem?] at htop
  rw [before, hi, htop] at hbefore
  have hcmp := (cmpHeapTimers_iff s a top).mpr hlt
  simp [hcmp] at hbefore

omit [DecidableEq δ] in
/-- A load collects no timer that an armed one comes before. -/
theorem load_leaves {s s' : Timers δ} (h : Kept s) {now : Timeval} {r : Int} {wait : Option Timeval}
    (hl : loadHeapTimers s now = some (r, wait, s')) {a k : TimerId} {u : KatcpTime δ} (ha : a ∈ s.ids)
    (hk : k ∈ s.ids) (hu : s.at? a = some u) (harm : u.tArmed = true)
    (hearlier : (s.whenOf a).Earlier (s.whenOf k)) : k ∈ s'.ids ∧ s'.at? k = s.at? k := by
  have hloop : ∀ {n : Nat} {s : Timers δ}, Kept s → loadLoop n s now = some (r, wait, s') →
      a ∈ s.ids → k ∈ s.ids → s.at? a = some u → (s.whenOf a).Earlier (s.whenOf k) →
      k ∈ s'.ids ∧ s'.at? k = s.at? k := by
    intro n
    induction n with
    | zero =>
      intro s _ hl _ hk _ _
      cases hl
      exact ⟨hk, rfl⟩
    | succ n ih =>
      intro s h hl ha hk hu hearlier
      rw [loadLoop] at hl
      split at hl
      · cases hl; exact ⟨hk, rfl⟩
      next id hid =>
        split at hl
        · cases hl
        next t ht =>
          split at hl
          · cases hl; exact ⟨hk, rfl⟩
          next hoff =>
            split at hl
            · cases hl
            next s1 h1 =>
              obtain ⟨s2, h2, hkept, hp, hst⟩ := h.removeTop hid
              rw [h1] at h2
              cases h2
              have hane : a ≠ id := by
                rintro rfl
                cases hu.symm.trans ht
                exact hoff harm
              have hkne : k ≠ id := by
                rintro rfl
                exact top_not_after h hid ha hearlier
              have hat : ∀ x, x ≠ id → (destroyTs s1 id).at? x = s.at? x := by
                intro x hx
                rw [at?_destroyTs, if_neg hx, Timers.at?, hst]
                rfl
              have hin : ∀ x, x ≠ id → x ∈ s.ids → x ∈ (destroyTs s1 id).ids := fun x hx hm =>
                (List.mem_cons.mp (hp.mem_iff.mpr hm)).resolve_left hx
              obtain ⟨hmem, hkeep⟩ := ih hkept hl (hin a hane ha) (hin k hkne hk)
                ((hat a hane).trans hu) (by simpa only [Timers.whenOf, hat a hane, hat k hkne] using hearlier)
              exact ⟨hmem, hkeep.trans (hat k hkne)⟩
  unfold loadHeapTimers at hl
  split at hl
  · cases hl; exact ⟨hk, rfl⟩
  · exact hloop h hl ha hk hu hearlier

/-- After a discharge, whatever has happened since, a registration of the same name with a new
callback, data and time leaves exactly such a timer armed if and only if no timer that is then
on the heap lacks a name or has one that this name begins with. -/
theorem registered_anew_iff {s : CalledTimers δ κ} {name : TimerName} (_ : DischargedBefore s name)
    {c : TimerCall δ} {w : Timeval × Timeval × δ} {call : κ} (hc : registersName name c = true)
    (hw : asked c = some w) (hnew : ¬ ArmedAs s name w call) :
    (∃ r s', calledCall s c call = some (r, s') ∧ ArmedAs s' name w call) ↔
      ∀ id ∈ s.timers.ids, PassedBy s.timers name id := by
  obtain ⟨whenTv, interval, data⟩ := w
  obtain ⟨hcall, hreg⟩ := timerCall_registers hc hw s.timers
  constructor
  · rintro ⟨r, s', hs, harmed⟩
    obtain ⟨⟨r0, timers⟩, hr, hs⟩ := Option.bind_eq_some_iff.mp hs
    rw [hcall] at hr
    rcases registerTimer_name hr with ⟨rfl, _⟩ | ⟨rfl, hnone⟩
    · obtain ⟨rfl, rfl⟩ := Prod.mk.inj (Option.some.inj hs)
      refine absurd ?_ hnew
      obtain ⟨id, hid, hcalled, t, ht, hrest⟩ := harmed
      rcases registerTimer_cases hr with ⟨_, hids, hst⟩ | ⟨h0, _⟩
      · refine ⟨id, hids ▸ hid, hcalled, t, ?_, hrest⟩
        rw [Timers.at?, ← hst]
        exact ht
      · cases h0
    · exact passed_all hnone
  · intro hall
    obtain ⟨timers, hr⟩ := registerTimer_passed hall whenTv interval data
    refine ⟨0, ⟨timers, update s.tCall s.timers.store.length (some call)⟩, ?_, s.timers.store.length, ?_⟩
    · simp [calledCall, hcall, hr, hreg]
    · rcases registerTimer_cases hr with ⟨h1, _⟩ | ⟨_, hids, hst⟩
      · cases h1
      · exact ⟨hids.mem_iff.mpr List.mem_cons_self, update_self _ _ _, _,
          (at?_appended hst _).trans (if_pos rfl), rfl, rfl, rfl⟩

/-- A load in between collects the discharged timer, with no other timer before it. -/
theorem registered_anew_collected : ∃ s : CalledTimers Nat Nat, DischargedBefore s [97] ∧
    ∃ r s', calledCall s (.registerAt (.ofUsec 9) 2 (some [97])) 20 = some (r, s') ∧
      ArmedAs s' [97] (.ofUsec 9, .zero, 2) 20 := by
  obtain ⟨s, hd, hids⟩ : ∃ s : CalledTimers Nat Nat, DischargedBefore s [97] ∧ s.timers.ids = [] :=
    ⟨_, ⟨_, ⟨_, _⟩, .single (.call ⟨.registerAt (.ofUsec 5) 1 (some [97]), 10, 0, rfl⟩), rfl, rfl,
      .single (.load (show loadHeapTimers _ (.ofUsec 6) = _ from rfl))⟩, rfl⟩
  refine ⟨s, hd, (registered_anew_iff hd rfl rfl ?_).mpr ?_⟩
  · rintro ⟨id, hid, _⟩
    rw [hids] at hid
    cases hid
  · intro id hid
    rw [hids] at hid
    cases hid

/-- With another timer pending before it, the discharged timer stays through the load, and the
registration is refused. -/
theorem registration_refused : ¬ ∀ (s : CalledTimers Nat Nat) (name : TimerName) (c : TimerCall Nat)
    (w : Timeval × Timeval × Nat) (call : Nat), DischargedBefore s name → registersName name c = true →
      asked c = some w → ¬ ArmedAs s name w call →
      ∃ r s', calledCall s c call = some (r, s') ∧ ArmedAs s' name w call := by
  intro hall
  have hnone : ∀ s : CalledTimers Nat Nat, s.tCall 0 = some 10 → s.tCall 1 = some 11 →
      (∀ id ∈ s.timers.ids, id = 0 ∨ id = 1) → ¬ ArmedAs s [97] (.ofUsec 9, .zero, 2) 20 := by
    rintro s h0 h1 hids ⟨id, hid, hcall, _⟩
    rcases hids id hid with rfl | rfl
    · cases h0.symm.trans hcall
    · cases h1.symm.trans hcall
  obtain ⟨s0, hrun, t1, hdis, t2, r, wait, hload, s', hcall, hno, hno'⟩ :
      ∃ s0 : CalledTimers Nat Nat, ReflTransGen CalledStep noCalledTimers s0 ∧
        ∃ t1, disarmByName s0.timers [97] = some (0, t1) ∧
        ∃ t2 r wait, loadHeapTimers t1 (.ofUsec 2) = some (r, wait, t2) ∧
        ∃ s', calledCall ⟨t2, s0.tCall⟩ (.registerAt (.ofUsec 9) 2 (some [97])) 20 = some (1, s') ∧
          ¬ ArmedAs ⟨t2, s0.tCall⟩ [97] (.ofUsec 9, .zero, 2) 20 ∧
          ¬ ArmedAs s' [97] (.ofUsec 9, .zero, 2) 20 :=
    ⟨_, .tail (.single (.call ⟨.registerAt (.ofUsec 3) 1 (some [98]), 10, 0, rfl⟩))
        (.call ⟨.registerAt (.ofUsec 5) 1 (some [97]), 11, 0, rfl⟩),
      _, rfl, _, _, _, rfl, _, rfl, hnone _ rfl rfl (by decide), hnone _ rfl rfl (by decide)⟩
  have hd : DischargedBefore (⟨t2, s0.tCall⟩ : CalledTimers Nat Nat) [97] :=
    ⟨s0, ⟨t1, s0.tCall⟩, hrun, hdis, rfl, .single (.load hload)⟩
  obtain ⟨r, s1, h1, harmed⟩ := hall _ [97] (.registerAt (.ofUsec 9) 2 (some [97])) _ 20 hd rfl rfl hno
  cases hcall.symm.trans h1
  exact hno' harmed

end

end Katcp
