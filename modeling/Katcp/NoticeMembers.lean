import Katcp.NoticeCalled

namespace Katcp

section

open SwapVector

variable {s t : Notices} {id k : NoticeId} {n m : SharedNotice} {d : ClientId}

/-- What `notice_compact_notice_katcp` leaves of a notice. Those who stay in their place keep
everything; those at the end who fill the gaps keep their client, call and data. -/
structure OthersKept (d : ClientId) (n m : SharedNotice) : Prop where
  frame : m = { n with nVector := m.nVector }
  others : (m.nVector.map (·.toSubscriber)).Perm ((n.nVector.map (·.toSubscriber)).filter fun v => !(v.vClient = d))
  vector : Packed (fun v => v.vClient = d) (·.toSubscriber) n.nVector m.nVector

/-- What `remove_notice_katcp` leaves of a notice: all but the entry that it finds, with their marks. -/
structure EntryTaken (call : Option CallId) (data : DataId) (n m : SharedNotice) : Prop where
  frame : m = { n with nVector := m.nVector }
  missed : findEntry n call data = none → m = n
  others : ∀ i v, findEntry n call data = some (i, v) → (v :: m.nVector).Perm n.nVector
  stays : ∀ i v, findEntry n call data = some (i, v) → ∀ j < m.nVector.length, j ≠ i →
    m.nVector[j]? = n.nVector[j]?
  fills : ∀ i v, findEntry n call data = some (i, v) → i < m.nVector.length →
    m.nVector[i]? = n.nVector.getLast?

theorem noticeCompact_kept (d : ClientId) (n : SharedNotice) : OthersKept d n (n.noticeCompact d) where
  frame := rfl
  others := noticeCompact_subscribers n d
  vector := @compact_packed _ _ (fun x y => { y with vTrigger := x.vTrigger }) (fun v => decide (v.vClient = d))
    (·.toSubscriber) (fun _ _ => rfl) (fun _ _ => rfl) n.nVector

theorem noticeCompact_none (h : ∀ v ∈ n.nVector, v.vClient ≠ d) : n.noticeCompact d = n := by
  have hkept := noticeCompact_kept d n
  have hsame := hkept.vector.eq_of_none (fun v hv => decide_eq_false (h v hv))
  rw [hkept.frame, hsame]

theorem noticeCompact_gone (d : ClientId) (n : SharedNotice) : ∀ v ∈ (n.noticeCompact d).nVector, v.vClient ≠ d := by
  intro v hv hd
  have hmem := (noticeCompact_subscribers n d).mem_iff.mp (List.mem_map_of_mem hv)
  simp [hd] at hmem

theorem compactAll_store {ids : List NoticeId}
    (hs : ids.foldlM (fun (t : Notices) id => t.onNotice id (·.noticeCompact d)) s = some t) (k : NoticeId) :
    t.store k = if k ∈ ids then (s.store k).map (·.noticeCompact d) else s.store k := by
  induction ids generalizing s with
  | nil =>
    cases hs
    rfl
  | cons id rest ih =>
    rw [List.foldlM_cons] at hs
    obtain ⟨s1, hone, hs⟩ := Option.bind_eq_some_iff.mp hs
    obtain ⟨n, hn, rfl⟩ := onNotice_some hone
    rw [ih hs]
    by_cases hk : k = id
    · subst hk
      have hput : (s.putNotice k (n.noticeCompact d)).store k = some (n.noticeCompact d) := Function.update_self ..
      rw [hput, hn, if_pos (List.mem_cons_self ..), Option.map_some, Option.map_some,
        noticeCompact_none (noticeCompact_gone d n), ite_self]
    · have hput : (s.putNotice id (n.noticeCompact d)).store k = s.store k := Function.update_of_ne hk ..
      simp only [hput, List.mem_cons, hk, false_or]

theorem disownNotices_store (hs : disownNotices s d = some t) (k : NoticeId) :
    t.store k = if k ∈ s.dNotices d then (s.store k).map (·.noticeCompact d) else s.store k := by
  obtain ⟨u, hu, rfl⟩ := Option.map_eq_some_iff.mp hs
  have hstore := compactAll_store hu k
  simpa only [List.mem_reverse] using hstore

theorem findEntry_some {call : Option CallId} {data : DataId} {i : Nat} {v : Invoke}
    (h : findEntry n call data = some (i, v)) : n.nVector[i]? = some v := by
  obtain ⟨j, _, hj⟩ := Option.bind_eq_some_iff.mp h
  obtain ⟨w, hw, he⟩ := Option.map_eq_some_iff.mp hj
  cases he
  exact hw

theorem entry_taken {call : Option CallId} {data : DataId} {i : Nat} {v : Invoke}
    (h : findEntry n call data = some (i, v)) :
    EntryTaken call data n { n with nVector := removeAt n.nVector i } := by
  have hv := findEntry_some h
  obtain ⟨hi, _⟩ := List.getElem?_eq_some_iff.mp hv
  have hlen := removeAt_length n.nVector i
  have hget := getElem?_removeAt hi
  refine ⟨rfl, ?_, ?_, ?_, ?_⟩
  · intro hnone
    rw [h] at hnone
    cases hnone
  · intro j w hj
    cases h.symm.trans hj
    exact removeAt_perm hv
  · intro j w hj a ha hne
    cases h.symm.trans hj
    dsimp only at ha ⊢
    rw [hget, if_pos (by omega), if_neg hne]
  · intro j w hj ha
    cases h.symm.trans hj
    dsimp only at ha ⊢
    rw [hget, if_pos (by omega), if_pos rfl]

theorem EntryTaken.none {call : Option CallId} {data : DataId} (h : findEntry n call data = none) :
    EntryTaken call data n n := by
  refine ⟨rfl, fun _ => rfl, ?_, ?_, ?_⟩ <;> intro i v hi <;> cases h.symm.trans hi

/-- A client that goes, or an entry that is removed, leaves the others as they are; those at the end
of a vector fill the gaps in it. -/
theorem removal_local (s : Notices) :
    (∀ d t, disownNotices s d = some t → ∀ k n, s.store k = some n → ∃ m, t.store k = some m ∧
      if k ∈ s.dNotices d then OthersKept d n m else m = n) ∧
    ∀ id call data t, removeNotice s id call data = some t → ∀ k n, s.store k = some n →
      ∃ m, t.store k = some m ∧ if k = id then EntryTaken call data n m else m = n := by
  constructor
  · intro d t hs k n hn
    rw [disownNotices_store hs, hn]
    split
    · exact ⟨_, rfl, noticeCompact_kept d n⟩
    · exact ⟨n, rfl, rfl⟩
  · intro id call data t hs k n hn
    obtain ⟨n', hn', hs⟩ := Option.map_eq_some_iff.mp hs
    by_cases hk : k = id
    · subst hk
      cases hn.symm.trans hn'
      split at hs
      next hnone =>
        cases hs
        exact ⟨n, hn, by rw [if_pos rfl]; exact .none hnone⟩
      next i v hf =>
        cases hs
        exact ⟨_, Function.update_self .., by rw [if_pos rfl]; exact entry_taken hf⟩
    · split at hs
      · cases hs
        exact ⟨n, hn, by rw [if_neg hk]⟩
      · cases hs
        exact ⟨n, (Function.update_of_ne hk _ _).trans hn, by rw [if_neg hk]⟩

/-- Three clients have been added to a notice. -/
def threeWatching : Notices :=
  ((noticeMachine.exec noNotices
    [.op (.create none none), .op (.add 0 0 5 7), .op (.add 1 0 5 8), .op (.add 2 0 5 9)]).map Prod.fst).getD noNotices

theorem threeWatching_runs : noticeMachine.Runs (fun _ _ => True) threeWatching [] :=
  Machine.Runs.exec .start [.op (.create none none), .op (.add 0 0 5 7), .op (.add 1 0 5 8), .op (.add 2 0 5 9)]
    rfl (Machine.meets_true _ _ _)

def watchedByThree : SharedNotice :=
  { freshNotice none with
    nVector := [⟨⟨0, 5, 7⟩, false⟩, ⟨⟨1, 5, 8⟩, false⟩, ⟨⟨2, 5, 9⟩, false⟩]
    nSingle := false }

theorem removal_local_three : ∃ t, disownNotices threeWatching 0 = some t ∧
    ∃ m, t.store 0 = some m ∧ OthersKept 0 watchedByThree m := by
  obtain ⟨m, hm, hkept⟩ := (removal_local threeWatching).1 0 _ rfl 0 watchedByThree rfl
  have hlisted : 0 ∈ threeWatching.dNotices 0 := by decide
  rw [if_pos hlisted] at hkept
  exact ⟨_, rfl, m, hm, hkept⟩

/-- When the first of three goes, the last one is called before the second. -/
theorem removal_reorders : ¬ ∀ (s t : Notices) (log : List Called) (d : ClientId) (id : NoticeId) (n m : SharedNotice),
    noticeMachine.Runs (fun _ _ => True) s log → disownNotices s d = some t → s.store id = some n →
    t.store id = some m → m.nVector = n.nVector.filter fun v => v.vClient ≠ d := by
  intro hall
  have h := hall threeWatching _ [] 0 0 watchedByThree _ threeWatching_runs rfl rfl rfl
  revert h
  decide

end

section

open SwapVector

variable {s s' t : Notices} {id k : NoticeId} {n m : SharedNotice} {d : ClientId} {w : Subscriber}
  {call : CallId} {data : DataId} {a : NoticeAction} {log out : List Called}

/-- The action does not end this subscription. -/
def LeavesIn (id : NoticeId) (w : Subscriber) (s : Notices) : NoticeAction → Prop
  | .op (.remove k call data) => k = id → ∀ n i v, s.store k = some n →
      findEntry n call data = some (i, v) → v.toSubscriber ≠ w
  | .op (.disown d) => d ≠ w.vClient
  | .answer result => 0 < result ∨ ∀ i r n v, s.run = some ⟨i, some r⟩ → r.id = id →
      s.store r.id = some n → n.nVector[r.k]? = some v → v.toSubscriber ≠ w
  | _ => True

theorem mem_subscribers : w ∈ s.subscribers id ↔
    ∃ n v, s.store id = some n ∧ v ∈ n.nVector ∧ v.toSubscriber = w := by
  constructor
  · intro hw
    cases hn : s.store id with
    | none => simp [Notices.subscribers, hn] at hw
    | some n =>
      rw [subscribers_some hn] at hw
      obtain ⟨v, hv, hvw⟩ := List.mem_map.mp hw
      exact ⟨n, v, rfl, hv, hvw⟩
  · rintro ⟨n, v, hn, hv, rfl⟩
    rw [subscribers_some hn]
    exact List.mem_map_of_mem hv

theorem QuietStep.subscribed (hq : QuietStep id s s') (hw : w ∈ s.subscribers id) : w ∈ s'.subscribers id := by
  obtain ⟨n, v, hn, hv, hvw⟩ := mem_subscribers.mp hw
  obtain ⟨m, hm, _, _, more, hvm, _⟩ := hq.kept n hn
  exact mem_subscribers.mpr ⟨m, v, hm, hvm ▸ List.mem_append_left more hv, hvw⟩

theorem subscribers_put (hn : s.store k = some n) (hs : s'.store = Function.update s.store k (some m))
    (hm : m.nVector.map (·.toSubscriber) = n.nVector.map (·.toSubscriber)) (id : NoticeId) :
    s'.subscribers id = s.subscribers id := by
  rw [subscribers_update hs]
  split
  next hid => rw [hid, hm, subscribers_some hn]
  next => rfl

theorem leaveNotice_subscribers {i : Nat} (hn : s.store k = some n)
    (hm : m.nVector.map (·.toSubscriber) = n.nVector.map (·.toSubscriber)) (id : NoticeId) :
    (s.leaveNotice i k m).subscribers id = s.subscribers id := by
  unfold Notices.leaveNotice
  split
  next hempty =>
    unfold Notices.subscribers
    dsimp only
    rw [Function.update_apply]
    split
    next hid =>
      rw [hid, hn, Option.map_some, Option.getD_some, ← hm, hempty.1]
      rfl
    next => rfl
  next => exact subscribers_put hn rfl hm id

theorem dropEntry_subscribed {i : Nat} {v : Invoke} (hn : s.store k = some n) (hv : n.nVector[i]? = some v)
    (hne : k = id → v.toSubscriber ≠ w) (hw : w ∈ s.subscribers id) :
    w ∈ (s.dropEntry k n i v).subscribers id := by
  rw [subscribers_update rfl]
  split
  next hid =>
    subst hid
    obtain ⟨n', x, hn', hx, rfl⟩ := mem_subscribers.mp hw
    cases hn.symm.trans hn'
    rcases List.mem_cons.mp ((removeAt_perm hv).mem_iff.mpr hx) with rfl | hx
    · exact absurd rfl (hne rfl)
    · exact List.mem_map_of_mem hx
  next => exact hw

theorem disownNotices_subscribed (hs : disownNotices s d = some s') (hd : d ≠ w.vClient)
    (hw : w ∈ s.subscribers id) : w ∈ s'.subscribers id := by
  obtain ⟨n, v, hn, hv, rfl⟩ := mem_subscribers.mp hw
  have hstore := disownNotices_store hs id
  rw [hn] at hstore
  split at hstore
  · have hmem : v.toSubscriber ∈ (n.noticeCompact d).nVector.map (·.toSubscriber) := by
      rw [(noticeCompact_subscribers n d).mem_iff, List.mem_filter]
      exact ⟨List.mem_map_of_mem hv, by simpa using Ne.symm hd⟩
    obtain ⟨x, hx, hxv⟩ := List.mem_map.mp hmem
    exact mem_subscribers.mpr ⟨_, x, hstore, hx, hxv⟩
  · exact mem_subscribers.mpr ⟨n, v, hstore, hv, rfl⟩

theorem onNotice_subscribers {f : SharedNotice → SharedNotice} (hs : s.onNotice k f = some s')
    (hf : ∀ n, (f n).nVector.map (·.toSubscriber) = n.nVector.map (·.toSubscriber)) (id : NoticeId) :
    s'.subscribers id = s.subscribers id := by
  obtain ⟨n, hn, rfl⟩ := onNotice_some hs
  exact subscribers_put hn rfl (hf n) id

theorem noticeOp_subscribed {o : NoticeOp} (h : NoticesInv s) (hw : w ∈ s.subscribers id)
    (hl : LeavesIn id w s (.op o)) (hs : noticeOp s o = some s') : w ∈ s'.subscribers id := by
  have hquiet : QuietFor id (.op o) → w ∈ s'.subscribers id := fun hq => (noticeOp_quiet h hq hs).subscribed hw
  cases o with
  | trigger k => exact (onNotice_subscribers hs (fun _ => rfl) id).symm ▸ hw
  | triggerSingle k data =>
    exact (onNotice_subscribers hs (fun n => triggerSingle_subscribers n data) id).symm ▸ hw
  | disown d => exact disownNotices_subscribed hs hl hw
  | remove k call data =>
    obtain ⟨n, hn, hs⟩ := Option.map_eq_some_iff.mp hs
    split at hs
    · cases hs
      exact hw
    next i v hf =>
      cases hs
      exact dropEntry_subscribed hn (findEntry_some hf) (fun hk => hl hk n i v hn hf) hw
  | create | add | setParse | addParse | removeParse | hold | release => exact hquiet trivial

theorem advance_subscribers (ha : Advance s s' log) (id : NoticeId) : s'.subscribers id = s.subscribers id := by
  cases ha with
  | finished | passed => rfl
  | entered _ _ hn =>
    refine subscribers_put hn rfl ?_ id
    rfl
  | skipped _ _ hn => exact leaveNotice_subscribers hn rfl id
  | called _ hn hv => exact subscribers_put hn rfl (set_trigger_subscribers hv false) id
  | turned _ _ hn => exact subscribers_put hn rfl (by rw [turnParse_nVector]) id
  | ended _ _ hn => exact leaveNotice_subscribers hn (by rw [turnParse_nVector]) id

theorem answerCall_subscribed {result : Int} (hw : w ∈ s.subscribers id) (hl : LeavesIn id w s (.answer result))
    (hs : answerCall s result = some s') : w ∈ s'.subscribers id := by
  unfold answerCall at hs
  split at hs
  next i r hrun =>
    split at hs
    · cases hs
    split at hs
    · cases hs
      exact hw
    next hres =>
      split at hs
      · cases hs
      obtain ⟨n, hn, hs⟩ := Option.bind_eq_some_iff.mp hs
      obtain ⟨v, hv, hs⟩ := Option.map_eq_some_iff.mp hs
      cases hs
      have hkeeps := hl.resolve_left hres
      exact dropEntry_subscribed hn hv (fun hid => hkeeps i r n v hrun hid hn hv) hw
  next => cases hs

theorem stepNotices_subscribed (h : NoticesInv s) (hw : w ∈ s.subscribers id) (hl : LeavesIn id w s a)
    (hs : stepNotices s a = some s') : w ∈ s'.subscribers id := by
  cases a with
  | op o =>
    rw [stepNotices] at hs
    split at hs
    · exact noticeOp_subscribed h hw hl hs
    · cases hs
  | run =>
    rw [stepNotices] at hs
    split at hs
    · cases hs
      exact hw
    · cases hs
  | advance => exact (advance_subscribers (advanceRun_advance hs) id).symm ▸ hw
  | answer result => exact answerCall_subscribed hw hl hs

/-- The client is subscribed, and each trigger of the notice leads to a call until something ends
the subscription. -/
def Awaits (id : NoticeId) (w : Subscriber) (s : Notices) : Prop :=
  w ∈ s.subscribers id ∧ ∀ (before rest : List NoticeAction) (u t : Notices) (log out : List Called),
    noticeMachine.Meets (LeavesIn id w) s before → noticeMachine.exec s before = some (u, log) →
    noticeMachine.exec u (.op (.trigger id) :: .run :: rest) = some (t, out) → (∀ a ∈ rest, QuietFor id a) →
    t.run = none → ∃ p, (⟨id, w, p⟩ : Called) ∈ out

theorem awaits_of_subscribed (hi : NoticesInv s) (hw : w ∈ s.subscribers id) : Awaits id w s := by
  refine ⟨hw, ?_⟩
  intro before rest u t log out hm hbefore he hq hdone
  have hkept : NoticesInv u ∧ w ∈ u.subscribers id := hm.keeps (fun s => NoticesInv s ∧ w ∈ s.subscribers id)
    hbefore ⟨hi, hw⟩ (fun s a s' h hl hs => ⟨h.1.step hs, stepNotices_subscribed h.1 h.2 hl hs⟩)
  obtain ⟨n, v, hn, hv, rfl⟩ := mem_subscribers.mp hkept.2
  exact @woken_called u t id n out [] v hkept.1 hn hv rest hq he hdone (Or.inl rfl)

theorem addNotice_cases (hs : addNotice s d id call data = some s') :
    ∃ n, s.store id = some n ∧
      ((∃ v ∈ n.nVector, v.vCall = call ∧ v.vData = data) ∧ s' = s ∨
        (∀ v ∈ n.nVector, ¬ (v.vCall = call ∧ v.vData = data)) ∧
          s'.subscribers id = s.subscribers id ++ [⟨d, call, data⟩]) := by
  obtain ⟨n, hn, hs⟩ := Option.map_eq_some_iff.mp hs
  refine ⟨n, hn, ?_⟩
  split at hs
  next hdup =>
    obtain ⟨v, hv, hvk⟩ := List.any_eq_true.mp hdup
    exact Or.inl ⟨⟨v, hv, by simpa using hvk⟩, hs.symm⟩
  next hnew =>
    cases hs
    refine Or.inr ⟨?_, ?_⟩
    · intro v hv hvk
      exact hnew (List.any_eq_true.mpr ⟨v, hv, by simpa using hvk⟩)
    · rw [subscribers_update rfl, if_pos rfl, subscribers_some hn, List.map_append]
      rfl

theorem addNotice_subscribed_iff (hi : NoticesInv s) (hs : addNotice s d id call data = some s') :
    ⟨d, call, data⟩ ∈ s'.subscribers id ↔
      ∀ v ∈ s.subscribers id, v.vCall = call → v.vData = data → v.vClient = d := by
  obtain ⟨n, hn, ⟨⟨v, hv, hcall, hdata⟩, he⟩ | ⟨hnew, hsub⟩⟩ := addNotice_cases hs
  · rw [he]
    have hmem : v.toSubscriber ∈ s.subscribers id := mem_subscribers.mpr ⟨n, v, hn, hv, rfl⟩
    constructor
    · intro hw x hx hxc hxd
      exact congrArg Subscriber.vClient (List.inj_on_of_nodup_map (hi.keyed id) hx hw (by
        simp [Subscriber.key, hxc, hxd]))
    · intro hall
      have hclient := hall v.toSubscriber hmem hcall hdata
      rw [← hclient, ← hcall, ← hdata]
      exact hmem
  · refine iff_of_true (by simp [hsub]) ?_
    intro x hx hxc hxd
    obtain ⟨n', v, hn', hv, rfl⟩ := mem_subscribers.mp hx
    cases hn.symm.trans hn'
    exact absurd ⟨hxc, hxd⟩ (hnew v hv)

/-- When `add_notice_katcp` succeeds the client awaits the notice, unless another client is there
already with this call and this data. -/
theorem added_awaits_iff {ok : Notices → NoticeAction → Prop} (h : noticeMachine.Runs ok s log)
    (hs : noticeMachine.step s (.op (.add d id call data)) = some s') :
    Awaits id ⟨d, call, data⟩ s' ↔
      ∀ v ∈ s.subscribers id, v.vCall = call → v.vData = data → v.vClient = d := by
  have hi := notices_inv h
  have hadd : addNotice s d id call data = some s' := by
    replace hs : stepNotices s (.op (.add d id call data)) = some s' := hs
    rw [stepNotices] at hs
    split at hs
    · exact hs
    · cases hs
  rw [← addNotice_subscribed_iff hi hadd]
  exact ⟨fun hw => hw.1, fun hw => awaits_of_subscribed (hi.step hs) hw⟩

end

section

/-- A third client joins two others with data of its own. -/
theorem added_awaits_iff_third : ∃ s', noticeMachine.step twoWaiting (.op (.add 2 0 5 9)) = some s' ∧
    Awaits 0 ⟨2, 5, 9⟩ s' :=
  ⟨_, rfl, (added_awaits_iff twoWaiting_runs rfl).mpr (by decide)⟩

/-- A client that watches a notice which another one watches in the same way is not added, and is not
called when the notice is triggered. -/
theorem watcher_not_added : ¬ ∀ (s s' : Notices) (log : List Called) (d : ClientId) (id : NoticeId)
    (call : CallId) (data : DataId), noticeMachine.Runs (fun _ _ => True) s log →
    noticeMachine.step s (.op (.add d id call data)) = some s' → Awaits id ⟨d, call, data⟩ s' := by
  intro hall
  have hmem := (hall twoWaiting _ [] 2 0 5 7 twoWaiting_runs rfl).1
  revert hmem
  decide

end

end Katcp
