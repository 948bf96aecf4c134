import Katcp.TimerPass

namespace Katcp

open LevelHeap

variable {δ : Type}

theorem cmpHeapTimers_iff (s : Timers δ) (x y : TimerId) :
    cmpHeapTimers s x y = true ↔ (s.whenOf x).Earlier (s.whenOf y) := by
  rw [cmpHeapTimers, decide_eq_true_eq, cmpTime_earlier]

theorem cmpHeapTimers_weak (s : Timers δ) : WeakOrder (cmpHeapTimers s) := by
  have hfalse : ∀ x y, cmpHeapTimers s x y = false ↔ ¬ (s.whenOf x).Earlier (s.whenOf y) := by
    intro x y
    rw [← cmpHeapTimers_iff, Bool.not_eq_true]
  constructor
  · intro x y h
    rw [cmpHeapTimers_iff] at h
    rw [hfalse]
    unfold Timeval.Earlier at *
    omega
  · intro x y z h h'
    rw [hfalse] at h h' ⊢
    unfold Timeval.Earlier at *
    omega

/-- What holds of the timers between two calls: each timer on the heap is there once and
alive, and the heap is in the order of their times. -/
structure Kept (s : Timers δ) : Prop where
  nodup : s.ids.Nodup
  live : ∀ id ∈ s.ids, ∃ t, s.at? id = some t
  ordered : Ordered (cmpHeapTimers s) s.ids

theorem noTimers_kept : Kept (noTimers : Timers δ) := by
  refine ⟨List.nodup_nil, ?_, ?_⟩
  · intro id h
    simp [noTimers, Timers.ids] at h
  · intro k _
    simp [before, noTimers, Timers.ids]

theorem at?_put {s : Timers δ} {id : TimerId} {t : KatcpTime δ} (h : s.at? id = some t)
    (u : KatcpTime δ) (k : TimerId) : (s.put id u).at? k = if k = id then some u else s.at? k := by
  have hlt : id < s.store.length := by
    by_contra hge
    simp [Timers.at?, List.getElem?_eq_none (Nat.le_of_not_lt hge)] at h
  unfold Timers.at? Timers.put
  rw [List.getElem?_set]
  by_cases hk : k = id
  · subst hk
    simp [hlt]
  · simp [hk, Ne.symm hk]

theorem whenOf_put {s : Timers δ} {id : TimerId} {t : KatcpTime δ} (h : s.at? id = some t)
    (u : KatcpTime δ) (k : TimerId) : (s.put id u).whenOf k = if k = id then u.tWhen else s.whenOf k := by
  unfold Timers.whenOf
  rw [at?_put h]
  by_cases hk : k = id <;> simp [hk]

theorem before_of_whens (s s' : Timers δ) (h : ∀ id ∈ s.ids, s'.whenOf id = s.whenOf id) (i j : Nat) :
    before (cmpHeapTimers s') s.ids i j = before (cmpHeapTimers s) s.ids i j := by
  unfold before
  cases hi : s.ids[i]? with
  | none => rfl
  | some x =>
    cases hj : s.ids[j]? with
    | none => rfl
    | some y =>
      simp only [cmpHeapTimers, h x (List.mem_of_getElem? hi), h y (List.mem_of_getElem? hj)]

theorem Kept.comparable {s : Timers δ} (h : Kept s) : comparable s = true := by
  rw [Katcp.comparable, List.all_eq_true]
  intro id hid
  obtain ⟨t, ht⟩ := h.live id hid
  rw [ht]
  rfl

/-- Changing a timer but not its time. -/
theorem Kept.put {s : Timers δ} (h : Kept s) {id : TimerId} {t u : KatcpTime δ}
    (ht : s.at? id = some t) (hu : u.tWhen = t.tWhen) : Kept (s.put id u) := by
  refine ⟨h.nodup, ?_, ?_⟩
  · intro k hk
    rw [at?_put ht]
    split
    · exact ⟨u, rfl⟩
    · exact h.live k hk
  · intro k hk
    have hw : ∀ x ∈ s.ids, (s.put id u).whenOf x = s.whenOf x := by
      intro x _
      rw [whenOf_put ht]
      split
      next hx =>
        subst hx
        rw [hu, Timers.whenOf, ht]
      next => rfl
    exact (before_of_whens s _ hw k (parent k)).trans (h.ordered k hk)

/-- Changing the time of a timer on the heap, which then has to find its place. -/
theorem Kept.update {s : Timers δ} (h : Kept s) {index : Nat} {id : TimerId} {t : KatcpTime δ}
    (hindex : s.ids[index]? = some id) (ht : s.at? id = some t) (u : KatcpTime δ) :
    ∃ s', updateOnHeap (s.put id u) index id = some s' ∧ Kept s' ∧ s'.ids.Perm s.ids ∧
      s'.store = (s.put id u).store := by
  obtain ⟨heap, hheap⟩ : ∃ heap, s.tmrHeap = some heap := by
    cases hh : s.tmrHeap with
    | none => simp [Timers.ids, hh] at hindex
    | some heap => exact ⟨heap, rfl⟩
  have hids : s.ids = heap.datas := by simp [Timers.ids, hheap]
  have hlive : ∀ k ∈ s.ids, ∃ v, (s.put id u).at? k = some v := by
    intro k hk
    rw [at?_put ht]
    split
    · exact ⟨u, rfl⟩
    · exact h.live k hk
  have hcmp : Katcp.comparable (s.put id u) = true := by
    rw [Katcp.comparable, List.all_eq_true]
    intro k hk
    obtain ⟨v, hv⟩ := hlive k hk
    rw [hv]
    rfl
  have hin : index < heap.hSize := by
    rw [← heap.datas_length, ← hids]
    exact (List.getElem?_eq_some_iff.mp hindex).1
  have hset : heap.datas.set index id = heap.datas := by
    rw [hids] at hindex
    obtain ⟨hlt, rfl⟩ := List.getElem?_eq_some_iff.mp hindex
    exact List.set_getElem_self hlt
  refine ⟨{ s.put id u with tmrHeap := some (updateNode (cmpHeapTimers (s.put id u)) heap index id) }, ?_, ?_⟩
  · simp [updateOnHeap, Timers.put, hheap] at hcmp ⊢
    exact hcmp
  have hdatas := @updateNode_datas _ (cmpHeapTimers (s.put id u)) heap _ hin id
  rw [hset] at hdatas
  have hperm : (updateNode (cmpHeapTimers (s.put id u)) heap index id).datas.Perm s.ids := by
    rw [hdatas, hids]
    exact (siftDown_perm _ _ _).trans (siftUp_perm _ _ _)
  refine ⟨⟨hperm.nodup_iff.mpr h.nodup, fun k hk => hlive k (hperm.mem_iff.mp hk), ?_⟩, hperm, rfl⟩
  have hhole : Hole (cmpHeapTimers (s.put id u)) heap.datas index := by
    refine Hole.of_ordered (cmpHeapTimers_weak s) (hids ▸ h.ordered) (by rwa [heap.datas_length]) ?_
    intro k l hk hl
    -- away from `index` stand the other timers, whose times are as before
    have hother : ∀ {j : Nat} {x : TimerId}, j ≠ index → heap.datas[j]? = some x →
        (s.put id u).whenOf x = s.whenOf x := by
      intro j x hj hx
      rw [whenOf_put ht, if_neg]
      intro he
      subst he
      rw [← hids] at hx
      have hjl := (List.getElem?_eq_some_iff.mp hx).1
      exact hj ((List.getElem?_inj hjl h.nodup).mp (hx.trans hindex.symm))
    unfold before
    cases hxk : heap.datas[k]? with
    | none => rfl
    | some x =>
      cases hxl : heap.datas[l]? with
      | none => rfl
      | some y => simp only [cmpHeapTimers, hother hk hxk, hother hl hxl]
  have hord := hhole.sift (cmpHeapTimers_weak _) (by rwa [heap.datas_length]) (show index ≤ heap.hSize by omega)
    (show heap.datas.length ≤ heap.hSize + index by rw [heap.datas_length]; omega)
  rw [← hdatas] at hord
  exact hord

theorem at?_append (s : Timers δ) (t : KatcpTime δ) (h : Option (Heap TimerId)) (k : TimerId) :
    (⟨h, s.store ++ [some t]⟩ : Timers δ).at? k = if k = s.store.length then some t else s.at? k := by
  unfold Timers.at?
  rcases Nat.lt_trichotomy k s.store.length with hk | rfl | hk
  · rw [List.getElem?_append_left hk, if_neg (Nat.ne_of_lt hk)]
  · simp
  · rw [if_neg (Nat.ne_of_gt hk), List.getElem?_eq_none (by rw [List.length_append]; exact hk),
      List.getElem?_eq_none (Nat.le_of_lt hk)]

theorem at?_lt {s : Timers δ} {id : TimerId} {t : KatcpTime δ} (h : s.at? id = some t) :
    id < s.store.length := by
  by_contra hge
  simp [Timers.at?, List.getElem?_eq_none (Nat.le_of_not_lt hge)] at h

theorem Kept.create {s : Timers δ} (h : Kept s) {heap : Heap TimerId} (hheap : s.tmrHeap = some heap)
    (t : KatcpTime δ) : ∃ s', createTimer s heap t = some (0, s') ∧ Kept s' ∧
      s'.ids.Perm (s.store.length :: s.ids) ∧ s'.store = s.store ++ [some t] := by
  have hids : s.ids = heap.datas := by simp [Timers.ids, hheap]
  generalize hg : ({ s with store := s.store ++ [some t] } : Timers δ) = g
  have hgat : ∀ k, g.at? k = if k = s.store.length then some t else s.at? k := by
    intro k
    rw [← hg]
    exact at?_append s t s.tmrHeap k
  have hold : ∀ k ∈ s.ids, k ≠ s.store.length := by
    intro k hk
    obtain ⟨u, hu⟩ := h.live k hk
    exact Nat.ne_of_lt (at?_lt hu)
  have hglive : ∀ k ∈ s.store.length :: s.ids, ∃ u, g.at? k = some u := by
    intro k hk
    rcases List.mem_cons.mp hk with rfl | hk
    · exact ⟨t, by simp [hgat]⟩
    · rw [hgat, if_neg (hold k hk)]
      exact h.live k hk
  have hgids : g.ids = s.ids := by rw [← hg]; rfl
  have hcmp : Katcp.comparable g = true := by
    rw [Katcp.comparable, List.all_eq_true]
    intro k hk
    rw [hgids] at hk
    obtain ⟨u, hu⟩ := hglive k (List.mem_cons_of_mem _ hk)
    rw [hu]
    rfl
  have hlen : g.store.length - 1 = s.store.length := by rw [← hg]; simp
  have hdatas := @addToHeap_datas _ (cmpHeapTimers g) heap s.store.length
  have hperm : (addToHeap (cmpHeapTimers g) heap s.store.length).datas.Perm (s.store.length :: s.ids) := by
    rw [hdatas, hids]
    exact (siftUp_perm _ _ _).trans (List.perm_append_singleton _ _)
  refine ⟨{ g with tmrHeap := some (addToHeap (cmpHeapTimers g) heap s.store.length) }, ?_, ?_, hperm,
    by rw [← hg]⟩
  · subst hg
    simp only [createTimer, hcmp, ↓reduceIte, hlen]
  refine ⟨?_, fun k hk => hglive k (hperm.mem_iff.mp hk), ?_⟩
  · refine hperm.nodup_iff.mpr (List.nodup_cons.mpr ⟨fun hmem => hold _ hmem rfl, h.nodup⟩)
  · have hord : Ordered (cmpHeapTimers g) heap.datas := by
      intro k hk
      rw [← hids, before_of_whens s]
      · exact h.ordered k hk
      · intro x hx
        unfold Timers.whenOf
        rw [hgat, if_neg (hold x hx)]
    have hup := siftUp_ordered (cmpHeapTimers_weak g) (n := heap.hSize + 1)
      (UpReady.of_append hord s.store.length) (by simp) (by rw [heap.datas_length]; omega)
    rw [heap.datas_length, ← hdatas] at hup
    exact hup

theorem Kept.openHeap {s : Timers δ} (h : Kept s) :
    Kept { s with tmrHeap := some (s.tmrHeap.getD initHeap) } := by
  cases hh : s.tmrHeap with
  | none =>
    refine ⟨List.nodup_nil, fun id hid => ?_, fun k _ => ?_⟩
    · simp [Timers.ids, Heap.datas, initHeap] at hid
    · simp [before, Timers.ids, Heap.datas, initHeap]
  | some heap =>
    have hs : ({ s with tmrHeap := some heap } : Timers δ) = s := by rw [← hh]
    simpa [hs] using h

theorem openHeap_ids (s : Timers δ) :
    ({ s with tmrHeap := some (s.tmrHeap.getD initHeap) } : Timers δ).ids = s.ids := by
  cases hh : s.tmrHeap <;> simp [Timers.ids, hh, Heap.datas, initHeap]

/-- A registration adds a timer of its own or, under a name that is taken, changes nothing. -/
theorem Kept.register {s s' : Timers δ} (h : Kept s) {whenTv interval : Timeval} {data : δ}
    {name : Option TimerName} {r : Int}
    (hr : registerTimer s whenTv interval data name = some (r, s')) :
    Kept s' ∧ (s'.ids = s.ids ∧ s'.store = s.store ∨
      s'.ids.Perm (s.store.length :: s.ids) ∧
        s'.store = s.store ++ [some ⟨name, whenTv, interval, true, data, 0, 0, 0⟩]) := by
  have hcreate : ∀ {r : Int} {s' : Timers δ},
      createTimer { s with tmrHeap := some (s.tmrHeap.getD initHeap) } (s.tmrHeap.getD initHeap)
        ⟨name, whenTv, interval, true, data, 0, 0, 0⟩ = some (r, s') →
      Kept s' ∧ s'.ids.Perm (s.store.length :: s.ids) ∧
        s'.store = s.store ++ [some ⟨name, whenTv, interval, true, data, 0, 0, 0⟩] := by
    intro r s' hc
    obtain ⟨s1, h1, hk, hp, hst⟩ := h.openHeap.create rfl ⟨name, whenTv, interval, true, data, 0, 0, 0⟩
    rw [h1] at hc
    cases Option.some.inj hc
    rw [openHeap_ids] at hp
    exact ⟨hk, hp, hst⟩
  unfold registerTimer at hr
  dsimp only at hr
  cases name with
  | none =>
    obtain ⟨hk, hp, hst⟩ := hcreate hr
    exact ⟨hk, Or.inr ⟨hp, hst⟩⟩
  | some n =>
    dsimp only at hr
    split at hr
    · cases hr
    · cases Option.some.inj hr
      exact ⟨h.openHeap, Or.inl ⟨openHeap_ids s, rfl⟩⟩
    · obtain ⟨hk, hp, hst⟩ := hcreate hr
      exact ⟨hk, Or.inr ⟨hp, hst⟩⟩

theorem at?_destroyTs (s : Timers δ) (id k : TimerId) :
    (destroyTs s id).at? k = if k = id then none else s.at? k := by
  unfold Timers.at? destroyTs
  simp only [List.getElem?_set]
  by_cases hk : k = id
  · subst hk
    by_cases hlt : k < s.store.length <;> simp [hlt]
  · simp [hk, Ne.symm hk]

/-- Taking the top off the heap and destroying it. -/
theorem Kept.removeTop {s : Timers δ} (h : Kept s) {id : TimerId} (hid : s.ids.head? = some id) :
    ∃ s', removeTopTimer s = some s' ∧ Kept (destroyTs s' id) ∧ (id :: s'.ids).Perm s.ids ∧
      s'.store = s.store := by
  obtain ⟨heap, hheap⟩ : ∃ heap, s.tmrHeap = some heap := by
    cases hh : s.tmrHeap with
    | none => simp [Timers.ids, hh] at hid
    | some heap => exact ⟨heap, rfl⟩
  have hids : s.ids = heap.datas := by simp [Timers.ids, hheap]
  obtain ⟨rest, hrest⟩ : ∃ rest, heap.datas = id :: rest := by
    rw [hids] at hid
    cases hd : heap.datas with
    | nil => simp [hd] at hid
    | cons x rest =>
      simp only [hd, List.head?_cons, Option.some.injEq] at hid
      exact ⟨rest, by rw [hid]⟩
  have hsize : heap.hSize ≠ 0 := by
    rw [← heap.datas_length, hrest]
    simp
  have hdatas := @removeTop_datas _ (cmpHeapTimers s) _ hsize
  have hperm : (Katcp.removeTop (cmpHeapTimers s) heap).datas.Perm rest := by
    rw [hdatas, hrest]
    exact (siftDown_perm _ _ _).trans topless_perm
  have hnodup := h.nodup
  rw [hids, hrest, List.nodup_cons] at hnodup
  refine ⟨{ s with tmrHeap := some (Katcp.removeTop (cmpHeapTimers s) heap) }, ?_, ?_, ?_, rfl⟩
  · simp only [removeTopTimer, hheap, h.comparable, ↓reduceIte]
  · have hrid : ∀ k ∈ rest, k ≠ id := fun k hk he => hnodup.1 (he ▸ hk)
    refine ⟨hperm.nodup_iff.mpr hnodup.2, ?_, ?_⟩
    · intro k hk
      have hk' := hperm.mem_iff.mp hk
      rw [at?_destroyTs, if_neg (hrid k hk')]
      exact h.live k (by rw [hids, hrest]; exact List.mem_cons_of_mem _ hk')
    · have hsort : Ordered (cmpHeapTimers s) (Katcp.removeTop (cmpHeapTimers s) heap).datas := by
        rw [hdatas]
        refine siftDown_ordered (cmpHeapTimers_weak s) (DownReady.of_topless ?_) ?_
        · rw [← hids]
          exact h.ordered
        · rw [hrest, topless_perm.length_eq]
          have := heap.datas_length
          rw [hrest, List.length_cons] at this
          omega
      intro k hk
      have hsame := before_of_whens { s with tmrHeap := some (Katcp.removeTop (cmpHeapTimers s) heap) }
        (destroyTs { s with tmrHeap := some (Katcp.removeTop (cmpHeapTimers s) heap) } id) (by
          intro x hx
          have hx' := hperm.mem_iff.mp hx
          unfold Timers.whenOf
          rw [at?_destroyTs, if_neg (hrid x hx')]) k (parent k)
      exact hsame.trans (hsort k hk)
  · rw [hids, hrest]
    exact List.Perm.cons id hperm

end Katcp
