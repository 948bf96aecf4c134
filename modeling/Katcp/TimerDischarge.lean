import Katcp.TimerRun

namespace Katcp

section

open LevelHeap

variable {δ : Type}

/-- No armed timer of this data is on the heap. -/
def Silent (s : Timers δ) (data : δ) : Prop :=
  ∀ id ∈ s.ids, ∀ t, s.at? id = some t → t.tData = data → t.tArmed = false

/-- Nothing came onto the heap of `s'` and nothing was armed there that was not in `s`. -/
def Fades (s s' : Timers δ) : Prop :=
  ∀ id ∈ s'.ids, ∀ t', s'.at? id = some t' → ∃ t, id ∈ s.ids ∧ s.at? id = some t ∧
    t'.tData = t.tData ∧ (t'.tArmed = true → t.tArmed = true)

theorem Fades.refl (s : Timers δ) : Fades s s := fun _ hid t ht => ⟨t, hid, ht, rfl, fun h => h⟩

theorem Fades.trans {s s' s'' : Timers δ} (h : Fades s s') (h' : Fades s' s'') : Fades s s'' := by
  intro id hid t ht
  obtain ⟨t1, hid1, ht1, hd1, ha1⟩ := h' id hid t ht
  obtain ⟨t2, hid2, ht2, hd2, ha2⟩ := h id hid1 t1 ht1
  exact ⟨t2, hid2, ht2, hd1.trans hd2, fun ha => ha2 (ha1 ha)⟩

theorem Silent.fades {s s' : Timers δ} {data : δ} (h : Silent s data) (hf : Fades s s') :
    Silent s' data := by
  intro id hid t ht hd
  obtain ⟨u, hidu, hu, hdu, ha⟩ := hf id hid t ht
  have hq := h id hidu u hu (hdu.symm.trans hd)
  cases harm : t.tArmed with
  | false => rfl
  | true =>
    rw [ha harm] at hq
    cases hq

theorem fades_put {s : Timers δ} {id : TimerId} {t u : KatcpTime δ} (ht : s.at? id = some t)
    (hd : u.tData = t.tData) (ha : u.tArmed = true → t.tArmed = true) : Fades s (s.put id u) := by
  intro k hk v hv
  rw [at?_put ht] at hv
  split at hv
  next he =>
    subst he
    cases hv
    exact ⟨t, hk, ht, hd, ha⟩
  next => exact ⟨v, hk, hv, rfl, fun h => h⟩

theorem fades_of_subset {s s' : Timers δ} (hids : ∀ k ∈ s'.ids, k ∈ s.ids) (hst : s'.store = s.store) :
    Fades s s' := by
  intro k hk t ht
  refine ⟨t, hids k hk, ?_, rfl, fun h => h⟩
  rw [Timers.at?, hst] at ht
  exact ht

theorem fades_destroyTs (s : Timers δ) (id : TimerId) : Fades s (destroyTs s id) := by
  intro k hk t ht
  rw [at?_destroyTs] at ht
  split at ht
  · cases ht
  · exact ⟨t, hk, ht, rfl, fun h => h⟩

theorem removeTopTimer_fades {s s' : Timers δ} (h : removeTopTimer s = some s') : Fades s s' := by
  unfold removeTopTimer at h
  split at h
  · cases h
  next heap hheap =>
    split at h
    · cases Option.some.inj h
      refine fades_of_subset ?_ rfl
      intro k hk
      simp only [Timers.ids, hheap] at hk ⊢
      by_cases hz : heap.hSize = 0
      · simpa [removeTop, hz] using hk
      · rw [removeTop_datas hz] at hk
        have hk := (siftDown_perm _ _ _).mem_iff.mp hk
        cases hd : heap.datas with
        | nil => rw [← heap.datas_length, hd] at hz; exact absurd rfl hz
        | cons x rest =>
          rw [hd] at hk
          exact List.mem_cons_of_mem x (topless_perm.mem_iff.mp hk)
    · cases h

theorem updateOnHeap_members {s s' : Timers δ} {index : Nat} {id : TimerId} (hid : id ∈ s.ids)
    (h : updateOnHeap s index id = some s') : (∀ k ∈ s'.ids, k ∈ s.ids) ∧ s'.store = s.store := by
  unfold updateOnHeap at h
  split at h
  · cases h
  next heap hheap =>
    split at h
    · cases Option.some.inj h
      refine ⟨fun k hk => ?_, rfl⟩
      simp only [Timers.ids, hheap] at hk hid ⊢
      by_cases hin : index < heap.hSize
      · rw [updateNode_datas heap hin] at hk
        have hk := ((siftDown_perm _ _ _).trans (siftUp_perm _ _ _)).mem_iff.mp hk
        rcases List.mem_or_eq_of_mem_set hk with hk | rfl
        · exact hk
        · exact hid
      · have hnone : heap.hArray[index]? = none := List.getElem?_eq_none (Nat.le_of_not_lt hin)
        unfold updateNode at hk
        split at hk
        · exact hk
        next n hn => rw [hnone] at hn; cases hn
    · cases h

theorem updateOnHeap_perm {s s' : Timers δ} {index : Nat} {id : TimerId} (hid : s.ids[index]? = some id)
    (h : updateOnHeap s index id = some s') : s'.ids.Perm s.ids := by
  unfold updateOnHeap at h
  split at h
  · cases h
  next heap hheap =>
    split at h
    · cases Option.some.inj h
      simp only [Timers.ids, hheap] at hid ⊢
      obtain ⟨hlt, rfl⟩ := List.getElem?_eq_some_iff.mp hid
      rw [updateNode_datas heap (by rwa [← heap.datas_length]), List.set_getElem_self hlt]
      exact (siftDown_perm _ _ _).trans (siftUp_perm _ _ _)
    · cases h

theorem createTimer_perm {s s' : Timers δ} {heap : Heap TimerId} (hheap : s.tmrHeap = some heap)
    {t : KatcpTime δ} {r : Int} (h : createTimer s heap t = some (r, s')) :
    r = 0 ∧ s'.ids.Perm (s.store.length :: s.ids) ∧ s'.store = s.store ++ [some t] := by
  unfold createTimer at h
  dsimp only at h
  split at h
  · cases Option.some.inj h
    refine ⟨rfl, ?_, rfl⟩
    simp only [Timers.ids, hheap]
    rw [addToHeap_datas, List.length_append, List.length_singleton, Nat.add_sub_cancel]
    exact (siftUp_perm _ _ _).trans (List.perm_append_singleton _ _)
  · cases h

/-- A registration that succeeds puts one armed timer of the data onto the heap. -/
theorem registerTimer_cases {s s' : Timers δ} {whenTv interval : Timeval} {data : δ}
    {name : Option TimerName} {r : Int} (h : registerTimer s whenTv interval data name = some (r, s')) :
    (r = 1 ∧ s'.ids = s.ids ∧ s'.store = s.store) ∨
    (r = 0 ∧ s'.ids.Perm (s.store.length :: s.ids) ∧
      s'.store = s.store ++ [some ⟨name, whenTv, interval, true, data, 0, 0, 0⟩]) := by
  have hcreate : ∀ {r : Int} {s' : Timers δ},
      createTimer { s with tmrHeap := some (s.tmrHeap.getD initHeap) } (s.tmrHeap.getD initHeap)
        ⟨name, whenTv, interval, true, data, 0, 0, 0⟩ = some (r, s') →
      r = 0 ∧ s'.ids.Perm (s.store.length :: s.ids) ∧
        s'.store = s.store ++ [some ⟨name, whenTv, interval, true, data, 0, 0, 0⟩] := by
    intro r s' hc
    obtain ⟨hr, hp, hst⟩ := createTimer_perm rfl hc
    rw [openHeap_ids] at hp
    exact ⟨hr, hp, hst⟩
  unfold registerTimer at h
  dsimp only at h
  cases name with
  | none => exact Or.inr (hcreate h)
  | some n =>
    dsimp only at h
    split at h
    · cases h
    · cases Option.some.inj h
      exact Or.inl ⟨rfl, openHeap_ids s, rfl⟩
    · exact Or.inr (hcreate h)

theorem at?_appended {s s' : Timers δ} {t : KatcpTime δ} (hst : s'.store = s.store ++ [some t]) (k : TimerId) :
    s'.at? k = if k = s.store.length then some t else s.at? k := by
  rw [← at?_append s t none k, Timers.at?, Timers.at?, hst]

theorem silent_appended {s s' : Timers δ} {data : δ} {t : KatcpTime δ} (h : Silent s data)
    (hids : s'.ids.Perm (s.store.length :: s.ids)) (hst : s'.store = s.store ++ [some t])
    (ht : t.tData ≠ data) : Silent s' data := by
  intro k hk u hu hd
  rw [at?_appended hst] at hu
  split at hu
  · cases hu
    exact absurd hd ht
  next hne =>
    rcases List.mem_cons.mp (hids.mem_iff.mp hk) with rfl | hk
    · exact absurd rfl hne
    · exact h k hk u hu hd

theorem disarmed_fades (s : Timers δ) (id : TimerId) : Fades s (disarmed s id) := by
  unfold disarmed
  split
  · exact Fades.refl s
  next t ht => exact fades_put ht rfl (fun h => by cases h)

theorem readjusted_fades {s s' : Timers δ} {now tv : Timeval} {index : Nat} {id : TimerId} {r : Int}
    (hid : s.ids[index]? = some id) (h : readjusted s now tv index id = some (r, s')) :
    Fades s s' ∧ ∀ k ∈ s.ids, k ∈ s'.ids := by
  unfold readjusted at h
  split at h
  · cases h
  next t ht =>
    obtain ⟨s1, h1, h⟩ := Option.map_eq_some_iff.mp h
    cases h
    generalize hu : ({ t with tInterval := tv, tWhen := addTime now tv } : KatcpTime δ) = u at h1
    have hput : Fades s (s.put id u) := fades_put ht (by rw [← hu]) (by rw [← hu]; exact fun h => h)
    have hid' : (s.put id u).ids[index]? = some id := hid
    obtain ⟨hsub, hst⟩ := updateOnHeap_members (List.mem_of_getElem? hid') h1
    exact ⟨hput.trans (fades_of_subset hsub hst), fun k hk => (updateOnHeap_perm hid' h1).mem_iff.mpr hk⟩

theorem startPass_fires_top {s s0 : Timers δ} {now : Timeval} {id : TimerId}
    (h : startPass s now = some (.fires id s0)) : Fades s s0 ∧ s0.ids = s.ids ∧ id ∈ s.ids ∧
      ∃ t, s.at? id = some t ∧ t.tArmed = true ∧ ∃ t0, s0.at? id = some t0 ∧ t0.tData = t.tData := by
  unfold startPass at h
  split at h
  · cases h
  split at h
  · cases h
  next top htop =>
    split at h
    · cases h
    next t ht =>
      split at h
      · split at h <;> cases h
      next harmed =>
        split at h
        · cases h
        split at h
        all_goals
          cases h
          exact ⟨fades_put ht rfl fun h => h, rfl, List.mem_of_head? htop, t, ht, by simpa using harmed, _,
            (at?_put ht _ _).trans (if_pos rfl), rfl⟩

theorem startPass_idle_fades {s s' : Timers δ} {now : Timeval} {r : Int}
    (h : startPass s now = some (.returns r s')) : Fades s s' := by
  unfold startPass at h
  split at h
  · cases h; exact Fades.refl s
  split at h
  · cases h; exact Fades.refl s
  split at h
  · cases h
  split at h
  · split at h
    · cases h
    next s1 h1 =>
      cases h
      exact (removeTopTimer_fades h1).trans (fades_destroyTs s1 _)
  · split at h
    · cases h; exact Fades.refl s
    split at h <;> cases h

theorem finishPass_fades {s s' : Timers δ} {id : TimerId} {after : Timeval} {r : Int} (hid : id ∈ s.ids)
    (h : finishPass s id after = some (r, s')) : Fades s s' := by
  unfold finishPass at h
  split at h
  · cases h
  next t ht =>
    split at h
    · obtain ⟨s1, h1, h⟩ := Option.map_eq_some_iff.mp h
      cases h
      have hput : Fades s (s.put id { t with tArmed := false }) := fades_put ht rfl (fun h => by cases h)
      exact (hput.trans (removeTopTimer_fades h1)).trans (fades_destroyTs s1 id)
    · split at h
      · cases h
      next u hu =>
        obtain ⟨s1, h1, h⟩ := Option.map_eq_some_iff.mp h
        cases h
        obtain ⟨hd, harm, _⟩ := reschedule_keeps hu
        have hput : Fades s (s.put id u) := fades_put ht hd (fun h => harm ▸ h)
        obtain ⟨hsub, hst⟩ := updateOnHeap_members (s := s.put id u) hid h1
        exact hput.trans (fades_of_subset hsub hst)

theorem loadLoop_fades {n : Nat} {s s' : Timers δ} {now : Timeval} {r : Int} {interval : Option Timeval}
    (h : loadLoop n s now = some (r, interval, s')) : Fades s s' := by
  induction n generalizing s with
  | zero => cases h; exact Fades.refl _
  | succ n ih =>
    rw [loadLoop] at h
    split at h
    · cases h; exact Fades.refl _
    split at h
    · cases h
    split at h
    · cases h; exact Fades.refl _
    split at h
    · cases h
    next s1 h1 => exact ((removeTopTimer_fades h1).trans (fades_destroyTs s1 _)).trans (ih h)

theorem loadHeapTimers_fades {s s' : Timers δ} {now : Timeval} {r : Int} {interval : Option Timeval}
    (h : loadHeapTimers s now = some (r, interval, s')) : Fades s s' := by
  unfold loadHeapTimers at h
  split at h
  · cases h; exact Fades.refl _
  · exact loadLoop_fades h

end

section

variable {δ : Type} [DecidableEq δ]

inductive TimerEvent (δ : Type) where
  | registered (data : δ)
  | discharged (data : δ)
  | fired (data : δ)
  deriving DecidableEq, Repr

/-- What a call that returned `result` has done to the timers of some data. -/
def callEvents (c : TimerCall δ) (result : Int) : List (TimerEvent δ) :=
  if result ≠ 0 then []
  else match c with
    | .discharge data => [.discharged data]
    | c => (registrant c).toList.map .registered

omit [DecidableEq δ] in
theorem callEvents_quiet {c : TimerCall δ} {r : Int} (hc : registrant c = none)
    (hr : ∀ data, c = .discharge data → r ≠ 0) : callEvents c r = [] := by
  unfold callEvents
  split
  · rfl
  next h0 =>
    split
    next data => exact absurd (hr data rfl) h0
    next => rw [hc]; rfl

/-- Calls made one after the other, each of which meets `ok` when it is made. -/
inductive CallsRun (ok : Timers δ → TimerCall δ → Prop) :
    Timers δ → List (TimerEvent δ) → Timers δ → Prop
  | nil (s : Timers δ) : CallsRun ok s [] s
  | call {s s1 s2 : Timers δ} {c : TimerCall δ} {r : Int} {events : List (TimerEvent δ)} :
      ok s c → timerCall s c = some (r, s1) → CallsRun ok s1 events s2 →
      CallsRun ok s (callEvents c r ++ events) s2

/-- A history of the timers: calls, loads, and passes with the calls of their callbacks. -/
inductive TimerRuns (ok : Timers δ → TimerCall δ → Prop) : Timers δ → List (TimerEvent δ) → Prop
  | start : TimerRuns ok noTimers []
  | calls {s s' : Timers δ} {past events : List (TimerEvent δ)} : TimerRuns ok s past →
      CallsRun ok s events s' → TimerRuns ok s' (past ++ events)
  | load {s s' : Timers δ} {past : List (TimerEvent δ)} {now : Timeval} {r : Int}
      {interval : Option Timeval} : TimerRuns ok s past →
      loadHeapTimers s now = some (r, interval, s') → TimerRuns ok s' past
  | idle {s s' : Timers δ} {past : List (TimerEvent δ)} {now : Timeval} {r : Int} :
      TimerRuns ok s past → startPass s now = some (.returns r s') → TimerRuns ok s' past
  | pass {s s0 s1 s2 : Timers δ} {past events : List (TimerEvent δ)} {now after : Timeval}
      {id : TimerId} {t : KatcpTime δ} {r : Int} : TimerRuns ok s past →
      startPass s now = some (.fires id s0) → s0.at? id = some t → CallsRun ok s0 events s1 →
      finishPass s1 id after = some (r, s2) →
      TimerRuns ok s2 (past ++ .fired t.tData :: events)

/-- Only a registration can arm a timer: it puts one of its data onto the heap. -/
theorem timerCall_fades {s s' : Timers δ} {c : TimerCall δ} {r : Int} (h : timerCall s c = some (r, s')) :
    (∀ k ∈ s.ids, k ∈ s'.ids) ∧ ((Fades s s' ∧ (callEvents c r = [] ∨ registrant c = none)) ∨
      ∃ data, callEvents c r = [.registered data] ∧ ∀ d, d ≠ data → Silent s d → Silent s' d) := by
  have heffect := timerCall_effect h
  generalize hc : registrant c = data at heffect
  cases heffect with
  | @registers _ _ data _ _ hr =>
    have hevents : callEvents c r = if r ≠ 0 then [] else [.registered data] := by
      cases c <;> cases hc <;> rfl
    rcases registerTimer_cases hr with ⟨h1, hids, hst⟩ | ⟨h0, hp, hst⟩
    · refine ⟨fun k hk => hids ▸ hk, Or.inl ⟨fades_of_subset (fun k hk => hids ▸ hk) hst, Or.inl ?_⟩⟩
      rw [hevents, h1]
      rfl
    · refine ⟨fun k hk => hp.mem_iff.mpr (List.mem_cons_of_mem _ hk), Or.inr ⟨data, ?_, ?_⟩⟩
      · rw [hevents, h0]
        rfl
      · exact fun d hd hq => silent_appended hq hp hst (Ne.symm hd)
  | nothing => exact ⟨fun _ hk => hk, Or.inl ⟨Fades.refl s, Or.inr rfl⟩⟩
  | changes ht _ hd ha => exact ⟨fun _ hk => hk, Or.inl ⟨fades_put ht hd ha, Or.inr rfl⟩⟩
  | readjusts hid hr =>
    obtain ⟨hf, hm⟩ := readjusted_fades hid hr
    exact ⟨hm, Or.inl ⟨hf, Or.inr rfl⟩⟩

/-- The heap's first timer with this data is the only one of them that may be armed. -/
def FirstOnly (s : Timers δ) (data : δ) : Prop :=
  ∀ k ∈ s.ids, ∀ t, s.at? k = some t → t.tData = data → t.tArmed = true →
    s.ids.find? (fun id => (s.at? id).any fun u => u.tData = data) = some k

/-- What the discharges of a run have to meet. -/
def DischargesFirst (s : Timers δ) (c : TimerCall δ) : Prop :=
  ∀ data, c = .discharge data → FirstOnly s data

theorem searchData_find {s : Timers δ} {data : δ} {ids : List TimerId} {i index : Nat} {id : TimerId}
    (h : searchData s data i ids = some (some (index, id))) :
    ids.find? (fun id => (s.at? id).any fun u => u.tData = data) = some id := by
  induction ids generalizing i with
  | nil => cases h
  | cons x ids ih =>
    rw [searchData] at h
    split at h
    · cases h
    next t ht =>
      split at h
      next hd =>
        cases h
        rw [List.find?_cons_of_pos]
        simp [ht, hd]
      next hd =>
        rw [List.find?_cons_of_neg, ih h]
        simp [ht, hd]

theorem discharge_silent {s s' : Timers δ} {data : δ} (hfirst : FirstOnly s data)
    (h : disarmByRef s data = some (0, s')) : Silent s' data := by
  unfold disarmByRef at h
  split at h
  · cases h
  · cases h
  next index id hf =>
    cases Option.some.inj h
    obtain ⟨_, t, ht, hd⟩ := findByDataRef_spec hf
    intro k hk u hu hud
    have hdisarmed : disarmed s id = s.put id { t with tArmed := false } := by simp [disarmed, ht]
    rw [hdisarmed, at?_put ht] at hu
    rw [disarmed_ids] at hk
    split at hu
    · cases hu
      rfl
    next hne =>
      cases harm : u.tArmed with
      | false => rfl
      | true =>
        have hk := hfirst k hk u hu hud harm
        rw [searchData_find hf] at hk
        exact absurd (Option.some.inj hk).symm hne

/-- Whether the data was discharged, and not registered since. -/
def muted (data : δ) (past : List (TimerEvent δ)) : Bool :=
  past.foldl (fun m e =>
    match e with
    | .registered d => if d = data then false else m
    | .discharged d => if d = data then true else m
    | .fired _ => m) false

@[simp] theorem muted_append (data : δ) (past : List (TimerEvent δ)) (e : TimerEvent δ) :
    muted data (past ++ [e]) =
      match e with
      | .registered d => if d = data then false else muted data past
      | .discharged d => if d = data then true else muted data past
      | .fired _ => muted data past := by
  simp [muted]

theorem muted_keeps {data : δ} {past mid : List (TimerEvent δ)} (h : muted data past = true)
    (hmid : .registered data ∉ mid) : muted data (past ++ mid) = true := by
  induction mid generalizing past with
  | nil => rwa [List.append_nil]
  | cons e mid ih =>
    rw [← List.singleton_append, ← List.append_assoc]
    refine ih ?_ (fun hm => hmid (List.mem_cons_of_mem _ hm))
    rw [muted_append]
    cases e with
    | registered d =>
      have hne : d ≠ data := fun he => hmid (he ▸ List.mem_cons_self)
      simpa [hne] using h
    | discharged d =>
      dsimp only
      split
      · rfl
      · exact h
    | fired d => exact h

/-- What a history leaves: data that is muted has no armed timer, and none of it ever fired
while it was. -/
structure Muted (s : Timers δ) (past : List (TimerEvent δ)) : Prop where
  silent : ∀ data, muted data past = true → Silent s data
  fired : ∀ pre data post, past = pre ++ .fired data :: post → muted data pre = false

theorem Muted.fades {s s' : Timers δ} {past : List (TimerEvent δ)} (h : Muted s past) (hf : Fades s s') :
    Muted s' past := ⟨fun data hm => (h.silent data hm).fades hf, h.fired⟩

omit [DecidableEq δ] in
theorem split_append_singleton {past pre post : List (TimerEvent δ)} {e e' : TimerEvent δ}
    (h : past ++ [e] = pre ++ e' :: post) : (e = e' ∧ past = pre) ∨ ∃ post', past = pre ++ e' :: post' := by
  rcases List.eq_nil_or_concat post with rfl | ⟨post', x, rfl⟩
  · obtain ⟨hp, he⟩ := List.append_inj' h rfl
    exact Or.inl ⟨(List.cons.inj he).1, hp⟩
  · refine Or.inr ⟨post', ?_⟩
    rw [List.concat_eq_append, ← List.cons_append, ← List.append_assoc] at h
    exact (List.append_inj' h rfl).1

theorem Muted.event {s s' : Timers δ} {past : List (TimerEvent δ)} {e : TimerEvent δ} (h : Muted s past)
    (hsilent : ∀ data, muted data (past ++ [e]) = true → Silent s' data)
    (hfired : ∀ data, e = .fired data → muted data past = false) : Muted s' (past ++ [e]) := by
  refine ⟨hsilent, ?_⟩
  intro pre data post hp
  rcases split_append_singleton hp with ⟨he, rfl⟩ | ⟨post', hp⟩
  · exact hfired data he
  · exact h.fired pre data post' hp

theorem Muted.call {s s' : Timers δ} {past : List (TimerEvent δ)} {c : TimerCall δ} {r : Int}
    (h : Muted s past) (hok : DischargesFirst s c) (hc : timerCall s c = some (r, s')) :
    Muted s' (past ++ callEvents c r) := by
  rcases (timerCall_fades hc).2 with ⟨hf, he⟩ | ⟨data, he, hother⟩
  · by_cases hdis : ∃ data, c = .discharge data ∧ r = 0
    · obtain ⟨data, rfl, rfl⟩ := hdis
      -- the one call that mutes
      refine h.event ?_ (fun d hd => by cases hd)
      intro d hm
      simp only [muted_append] at hm
      split at hm
      next he => exact he ▸ discharge_silent (hok data rfl) hc
      next => exact (h.silent d hm).fades hf
    · have hnone : callEvents c r = [] :=
        he.elim (fun h => h) fun hc => callEvents_quiet hc fun data hd h0 => hdis ⟨data, hd, h0⟩
      rw [hnone, List.append_nil]
      exact h.fades hf
  · rw [he]
    refine h.event ?_ (fun d hd => by cases hd)
    intro d hm
    simp only [muted_append] at hm
    split at hm
    · cases hm
    next hne => exact hother d (Ne.symm hne) (h.silent d hm)

theorem Muted.calls {s s' : Timers δ} {past events : List (TimerEvent δ)} (h : Muted s past)
    (hc : CallsRun DischargesFirst s events s') : Muted s' (past ++ events) ∧ ∀ k ∈ s.ids, k ∈ s'.ids := by
  induction hc generalizing past with
  | nil s => exact ⟨by rwa [List.append_nil], fun _ hk => hk⟩
  | call hok hc _ ih =>
    obtain ⟨hm, hids⟩ := ih (h.call hok hc)
    rw [← List.append_assoc]
    exact ⟨hm, fun k hk => hids k ((timerCall_fades hc).1 k hk)⟩

theorem TimerRuns.muted {s : Timers δ} {past : List (TimerEvent δ)} (h : TimerRuns DischargesFirst s past) :
    Muted s past := by
  induction h with
  | start =>
    refine ⟨fun data hm => ?_, fun pre data post hp => ?_⟩
    · cases hm
    · cases pre <;> cases hp
  | calls _ hc ih => exact (ih.calls hc).1
  | load _ hl ih => exact ih.fades (loadHeapTimers_fades hl)
  | idle _ hi ih => exact ih.fades (startPass_idle_fades hi)
  | @pass s s0 s1 s2 past events now after id t0 r _ hs h0 hc hf ih =>
    obtain ⟨hfades, hids, hmem, t, ht, harm, u, hu, hd⟩ := startPass_fires_top hs
    rw [h0] at hu
    cases hu
    have hstart : Muted s0 (past ++ [.fired t0.tData]) := by
      refine (ih.fades hfades).event (fun d hm => ?_) (fun d he => ?_)
      · rw [muted_append] at hm
        exact (ih.silent d hm).fades hfades
      · cases he
        rw [hd]
        -- an armed timer of muted data cannot be on the heap
        cases hm : Katcp.muted t.tData past with
        | false => rfl
        | true =>
          have hoff := ih.silent t.tData hm id hmem t ht rfl
          rw [harm] at hoff
          cases hoff
    obtain ⟨hrun, hmembers⟩ := hstart.calls hc
    rw [List.append_assoc] at hrun
    exact hrun.fades (finishPass_fades (hmembers id (hids ▸ hmem)) hf)

/-- Where every discharge meets at most its own timer armed, data that was discharged fires
again only once it has been registered anew. -/
theorem discharged_stays_silent {s : Timers δ} {pre mid post : List (TimerEvent δ)} {data : δ}
    (h : TimerRuns DischargesFirst s (pre ++ .discharged data :: mid ++ .fired data :: post)) :
    .registered data ∈ mid := by
  by_contra hmid
  have hm := h.muted.fired _ data post rfl
  have hstart : muted data (pre ++ [.discharged data]) = true := by simp
  have hkeep := muted_keeps hstart hmid
  rw [List.append_assoc, List.singleton_append, hm] at hkeep
  cases hkeep

/-- A discharge, the pass that collects the timer, and a registration anew before it fires. -/
theorem discharged_stays_silent_anew : ∃ s : Timers Nat, TimerRuns DischargesFirst s
    ([.registered 7] ++ .discharged 7 :: [.registered 7] ++ .fired 7 :: []) ∧
      .registered 7 ∈ ([.registered 7] : List (TimerEvent Nat)) := by
  have hone : ∀ s1, registerAt noTimers (.ofUsec 5) 7 none = some (0, s1) →
      DischargesFirst s1 (.discharge (7 : Nat)) := by
    intro s1 h1 data hd k hk t _ _ _
    cases h1
    cases hd
    cases List.mem_singleton.mp hk
    rfl
  have hcalls := TimerRuns.calls (@TimerRuns.start Nat _ DischargesFirst)
    (.call (c := .registerAt (.ofUsec 5) 7 none) (fun _ h => by cases h) rfl
      (.call (c := .discharge 7) (hone _ rfl) rfl (.nil _)))
  have hidle := TimerRuns.idle hcalls (show startPass _ (.ofUsec 6) = _ from rfl)
  have hagain := TimerRuns.calls hidle
    (.call (c := .registerAt (.ofUsec 9) 7 none) (fun _ h => by cases h) rfl (.nil _))
  have hfires := TimerRuns.pass hagain (show startPass _ (.ofUsec 10) = _ from rfl) rfl (.nil _)
    (show finishPass _ _ (.ofUsec 11) = _ from rfl)
  have hrun : TimerRuns DischargesFirst _
    ([.registered 7] ++ .discharged 7 :: [.registered 7] ++ .fired 7 :: []) := hfires
  exact ⟨_, hrun, discharged_stays_silent hrun⟩

/-- A discharge that finds a timer discharged earlier succeeds, and the armed one fires. -/
theorem discharge_finds_earlier : ¬ ∀ (s : Timers Nat) (pre mid post : List (TimerEvent Nat)) (data : Nat),
    TimerRuns (fun _ _ => True) s (pre ++ .discharged data :: mid ++ .fired data :: post) →
      .registered data ∈ mid := by
  intro hall
  have hcalls := TimerRuns.calls (@TimerRuns.start Nat _ fun _ _ => True)
    (.call (c := .registerAt (.ofUsec 5) 7 none) trivial rfl
      (.call (c := .discharge 7) trivial rfl
        (.call (c := .registerAt (.ofUsec 9) 7 none) trivial rfl
          (.call (c := .discharge 7) trivial rfl (.nil _)))))
  have hidle := TimerRuns.idle hcalls (show startPass _ (.ofUsec 6) = _ from rfl)
  have hfires := TimerRuns.pass hidle (show startPass _ (.ofUsec 10) = _ from rfl) rfl (.nil _)
    (show finishPass _ _ (.ofUsec 11) = _ from rfl)
  have hrun : TimerRuns (fun _ _ => True) _
    ([.registered 7, .discharged 7, .registered 7] ++ .discharged 7 :: [] ++ .fired 7 :: []) := hfires
  cases hall _ _ _ _ _ hrun

end

end Katcp
