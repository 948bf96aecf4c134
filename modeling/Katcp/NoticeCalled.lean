import Katcp.NoticeSilent

namespace Katcp

section

open SwapVector

variable {s s' t : Notices} {id k : NoticeId} {n m : SharedNotice} {log out : List Called}
  {w : Subscriber} {a : NoticeAction}

/-- The subscriber was called, or the run is still to come to it. -/
inductive Hopeful (id : NoticeId) (w : Subscriber) (s : Notices) (out : List Called) : Prop
  | called {p : Option Words} : ⟨id, w, p⟩ ∈ out → Hopeful id w s out
  | waiting {n : SharedNotice} {v : Invoke} {i j : Nat} {r : Option NoticeRound} :
      s.store id = some n → n.nTrigger = true → v ∈ n.nVector → v.toSubscriber = w →
      (v.vTrigger || !n.nSingle) = true → s.run = some ⟨i, r⟩ → s.sNotices[j]? = some id → i ≤ j →
      (i = j → r = none) → Hopeful id w s out
  | inRound {n : SharedNotice} {v : Invoke} {i j : Nat} {r : NoticeRound} :
      s.store id = some n → s.run = some ⟨i, some r⟩ → r.id = id → n.nVector[j]? = some v →
      v.toSubscriber = w → (v.vTrigger || !r.single) = true → r.k ≤ j → (r.calling = true → r.k ≠ j) →
      Hopeful id w s out

theorem NoticesInv.same_place (h : NoticesInv s) {i j : Nat} (hi : s.sNotices[i]? = some k)
    (hj : s.sNotices[j]? = some k) : i = j := by
  obtain ⟨hlt, _⟩ := List.getElem?_eq_some_iff.mp hi
  exact (List.getElem?_inj hlt h.nodup).mp (hi.trans hj.symm)

theorem run_moved {r' : Option NoticeRun} (hr : r' = s.run ∨ ∃ k, r' = s.run.map (·.moved k)) {i : Nat}
    {r : Option NoticeRound} (hrun : s.run = some ⟨i, r⟩) :
    ∃ f : NoticeRound → NoticeRound, r' = some ⟨i, r.map f⟩ ∧
      ∀ x, (f x).id = x.id ∧ (f x).single = x.single ∧ (f x).k = x.k ∧ (f x).calling = x.calling := by
  rcases hr with rfl | ⟨k, rfl⟩
  · exact ⟨fun x => x, by simp [hrun], fun _ => ⟨rfl, rfl, rfl, rfl⟩⟩
  · exact ⟨fun x => { x with moved := x.moved || x.id = k }, by simp [hrun, NoticeRun.moved],
      fun _ => ⟨rfl, rfl, rfl, rfl⟩⟩

theorem Hopeful.quiet (h : Hopeful id w s out) (hq : QuietStep id s s') : Hopeful id w s' out := by
  cases h with
  | called hp => exact .called hp
  | waiting hn ht hv hw htest hrun hj hij hr =>
    obtain ⟨m, hm, htm, hsm, more, hvm, _⟩ := hq.kept _ hn
    obtain ⟨f, hf, _⟩ := run_moved hq.run hrun
    refine .waiting hm (htm.trans ht) (hvm ▸ List.mem_append_left more hv) hw (hsm ▸ htest) hf
      (hq.listed _ _ hj) hij ?_
    intro he
    rw [hr he]
    rfl
  | inRound hn hrun hid hv hw htest hk hcall =>
    obtain ⟨m, hm, htm, hsm, more, hvm, _⟩ := hq.kept _ hn
    obtain ⟨f, hf, hsame⟩ := run_moved hq.run hrun
    obtain ⟨hfid, hfsingle, hfk, hfcall⟩ := hsame _
    obtain ⟨hlt, _⟩ := List.getElem?_eq_some_iff.mp hv
    refine .inRound hm hf (hfid.trans hid) ?_ hw (hfsingle ▸ htest) (hfk ▸ hk) ?_
    · rw [hvm, List.getElem?_append_left hlt, hv]
    · rw [hfcall, hfk]
      exact hcall

theorem Hopeful.more (h : Hopeful id w s out) (more : List Called) : Hopeful id w s (out ++ more) := by
  cases h with
  | called hp => exact .called (List.mem_append_left more hp)
  | waiting hn ht hv hw htest hrun hj hij hr => exact .waiting hn ht hv hw htest hrun hj hij hr
  | inRound hn hrun hid hv hw htest hk hcall => exact .inRound hn hrun hid hv hw htest hk hcall

theorem store_leave {i : Nat} (hk : k ≠ id) : (s.leaveNotice i k m).store id = s.store id := by
  unfold Notices.leaveNotice
  split <;> exact Function.update_of_ne (Ne.symm hk) _ _

/-- The run leaves a notice that is listed before this one. -/
theorem leave_before {i j : Nat} (hj : s.sNotices[j]? = some id)
    (hij : i < j) : ∃ i' j', (s.leaveNotice i k m).run = some ⟨i', none⟩ ∧
      (s.leaveNotice i k m).sNotices[j']? = some id ∧ i' ≤ j' := by
  unfold Notices.leaveNotice
  split
  · refine ⟨i, j - 1, rfl, ?_, by omega⟩
    dsimp only
    rw [List.getElem?_eraseIdx, if_neg (by omega), Nat.sub_add_cancel (by omega), hj]
  · exact ⟨i + 1, j, rfl, hj, hij⟩

theorem Hopeful.waiting_advance {i j : Nat} {r : Option NoticeRound} {v : Invoke} (hi : NoticesInv s)
    (hn : s.store id = some n) (ht : n.nTrigger = true) (hv : v ∈ n.nVector) (hw : v.toSubscriber = w)
    (htest : (v.vTrigger || !n.nSingle) = true) (hrun : s.run = some ⟨i, r⟩)
    (hj : s.sNotices[j]? = some id) (hij : i ≤ j) (hr : i = j → r = none) (ha : Advance s s' log) :
    Hopeful id w s' (out ++ log) := by
  have hleave : ∀ {k m}, s.sNotices[i]? = some k → k ≠ id →
      Hopeful id w (s.leaveNotice i k m) (out ++ []) := by
    intro k m hk hne
    have hlt : i < j := Nat.lt_of_le_of_ne hij (by
      rintro rfl
      rw [hk] at hj
      exact hne (Option.some.inj hj))
    obtain ⟨i', j', hrun', hj', hle⟩ := leave_before (k := k) (m := m) hj hlt
    exact .waiting ((store_leave hne).trans hn) ht hv hw htest hrun' hj' hle (fun _ => rfl)
  have hround : ∀ {x : NoticeRound}, s.run = some ⟨i, some x⟩ →
      s.sNotices[i]? = some x.id ∧ x.id ≠ id ∧ i < j := by
    intro x hx
    have hplace := hi.here i x hx
    have hne : i ≠ j := by
      intro he
      have hrx : r = some x := by
        rw [hrun] at hx
        cases hx
        rfl
      rw [hr he] at hrx
      cases hrx
    refine ⟨hplace, fun hid => hne (hi.same_place (hid ▸ hplace) hj), by omega⟩
  have hput : ∀ {k m r'}, k ≠ id → i < j → Hopeful id w { s.putNotice k m with run := some ⟨i, r'⟩ } (out ++ log) :=
    fun hk hlt => .waiting ((Function.update_of_ne (Ne.symm hk) _ _).trans hn) ht hv hw htest rfl hj hij
      (fun he => absurd he (Nat.ne_of_lt hlt))
  cases ha with
  | finished hx hnone =>
    rw [hrun] at hx
    cases hx
    have hlen := List.getElem?_eq_none_iff.mp hnone
    obtain ⟨hlt, _⟩ := List.getElem?_eq_some_iff.mp hj
    omega
  | @entered i' k m hx hk hm _ =>
    rw [hrun] at hx
    cases hx
    by_cases hid : k = id
    · subst hid
      rw [hn] at hm
      cases hm
      obtain ⟨p, hp⟩ := List.getElem?_of_mem hv
      exact .inRound (Function.update_self ..) rfl rfl hp hw htest (Nat.zero_le p) (by simp)
    · refine hput hid (Nat.lt_of_le_of_ne hij ?_)
      rintro rfl
      rw [hk] at hj
      exact hid (Option.some.inj hj)
  | @skipped i' k m hx hk hm hoff =>
    rw [hrun] at hx
    cases hx
    refine hleave hk ?_
    rintro rfl
    rw [hn] at hm
    cases hm
    rw [ht] at hoff
    cases hoff
  | called hx =>
    rw [hrun] at hx
    cases hx
    obtain ⟨_, hne, hlt⟩ := hround hrun
    exact hput hne hlt
  | passed hx =>
    rw [hrun] at hx
    cases hx
    obtain ⟨_, hne, hlt⟩ := hround hrun
    exact .waiting hn ht hv hw htest rfl hj hij (fun he => absurd he (Nat.ne_of_lt hlt))
  | turned hx =>
    rw [hrun] at hx
    cases hx
    obtain ⟨_, hne, hlt⟩ := hround hrun
    exact hput hne hlt
  | ended hx =>
    rw [hrun] at hx
    cases hx
    obtain ⟨hplace, hne, _⟩ := hround hrun
    exact hleave hplace hne

theorem Hopeful.inRound_advance {i j : Nat} {r : NoticeRound} {v : Invoke}
    (hn : s.store id = some n) (hrun : s.run = some ⟨i, some r⟩) (hid : r.id = id)
    (hv : n.nVector[j]? = some v) (hw : v.toSubscriber = w) (htest : (v.vTrigger || !r.single) = true)
    (hk : r.k ≤ j) (ha : Advance s s' log) : Hopeful id w s' (out ++ log) := by
  obtain ⟨hlt, _⟩ := List.getElem?_eq_some_iff.mp hv
  subst hid
  cases ha with
  | finished hx | entered hx | skipped hx =>
    rw [hrun] at hx
    cases hx
  | @called _ _ m x hx hm hvx =>
    rw [hrun] at hx
    cases hx
    rw [hn] at hm
    cases hm
    by_cases hkj : r.k = j
    · rw [hkj, hv] at hvx
      cases hvx
      exact .called (p := n.nParse) (List.mem_append_right out (by simp [hw]))
    · refine .inRound (Function.update_self ..) rfl rfl ?_ hw htest hk (fun _ => hkj)
      dsimp only
      rw [List.getElem?_set_ne hkj, hv]
  | passed hx hcall hm hvx hoff =>
    rw [hrun] at hx
    cases hx
    rw [hn] at hm
    cases hm
    have hne : r.k ≠ j := by
      intro he
      rw [he, hv] at hvx
      cases hvx
      rw [htest] at hoff
      cases hoff
    exact .inRound hn rfl rfl hv hw htest (Nat.lt_of_le_of_ne hk hne) (by simp [hcall])
  | turned hx _ hm hlen | ended hx _ hm hlen =>
    rw [hrun] at hx
    cases hx
    rw [hn] at hm
    cases hm
    omega

theorem Hopeful.answer {result : Int} (h : Hopeful id w s out) (hi : NoticesInv s)
    (hs : answerCall s result = some s') : Hopeful id w s' out := by
  unfold answerCall at hs
  split at hs
  next i r hrun =>
    split at hs
    · cases hs
    next hcalling =>
      have hcalled : r.calling = true := by simpa using hcalling
      cases h with
      | called hp => exact .called hp
      | waiting hn ht hv hw htest hx hj hij hr =>
        rw [hrun] at hx
        cases hx
        have hplace := hi.here i r hrun
        have hne : i ≠ _ := fun he => by simpa using hr he
        have hother : r.id ≠ id := fun hid => hne (hi.same_place (hid ▸ hplace) hj)
        split at hs
        · cases hs
          exact .waiting hn ht hv hw htest rfl hj hij (fun he => absurd he hne)
        split at hs
        · cases hs
        obtain ⟨m, hm, hs⟩ := Option.bind_eq_some_iff.mp hs
        obtain ⟨x, hx, hs⟩ := Option.map_eq_some_iff.mp hs
        cases hs
        exact .waiting ((Function.update_of_ne (Ne.symm hother) _ _).trans hn) ht hv hw htest rfl hj hij
          (fun he => absurd he hne)
      | @inRound n v i' j r' hn hx hid hv hw htest hk hcall =>
        rw [hrun] at hx
        cases hx
        subst hid
        have hlt : r.k < j := Nat.lt_of_le_of_ne hk (hcall hcalled)
        split at hs
        · cases hs
          exact .inRound hn rfl rfl hv hw htest hlt (by simp)
        split at hs
        · cases hs
        obtain ⟨m, hm, hs⟩ := Option.bind_eq_some_iff.mp hs
        obtain ⟨x, hx, hs⟩ := Option.map_eq_some_iff.mp hs
        cases hs
        rw [hn] at hm
        cases hm
        obtain ⟨hjlt, _⟩ := List.getElem?_eq_some_iff.mp hv
        have hget := @getElem?_removeAt _ n.nVector r.k (by omega)
        by_cases hend : j + 1 < n.nVector.length
        · refine .inRound (Function.update_self ..) rfl rfl (j := j) ?_ hw htest hk (by simp)
          rw [hget, if_pos hend, if_neg (by omega), hv]
        · refine .inRound (Function.update_self ..) rfl rfl (j := r.k) ?_ hw htest (Nat.le_refl _) (by simp)
          rw [hget, if_pos (by omega), if_pos rfl, List.getLast?_eq_getElem?, ← hv]
          congr 1
          omega
  next => cases hs

theorem Hopeful.step (h : Hopeful id w s out) (hi : NoticesInv s) (hq : QuietFor id a)
    (hs : stepNotices s a = some s') : Hopeful id w s' (out ++ calls s a) := by
  cases a with
  | op o =>
    rw [stepNotices] at hs
    split at hs
    · exact (h.quiet (noticeOp_quiet hi hq hs)).more _
    · cases hs
  | run => exact hq.elim
  | advance =>
    have ha := advanceRun_advance hs
    generalize calls s .advance = log at ha
    cases h with
    | called hp => exact .called (List.mem_append_left _ hp)
    | waiting hn ht hv hw htest hrun hj hij hr =>
      exact .waiting_advance hi hn ht hv hw htest hrun hj hij hr ha
    | inRound hn hrun hid hv hw htest hk => exact .inRound_advance hn hrun hid hv hw htest hk ha
  | answer result => exact (h.answer hi hs).more _

end

section

variable {s s' t : Notices} {id k : NoticeId} {n m : SharedNotice} {log out : List Called}
  {later : List Wake} {v : Invoke}

/-- What the last trigger and the marks say of this subscriber, after `trigger_notice_katcp` and
the triggers that came later. -/
def Woken (id : NoticeId) (v : Invoke) (later : List Wake) : Prop :=
  Wake.lastSingle id false later = false ∨ v.vTrigger = true ∨ .single id v.vData ∈ later

theorem woken_single_eq (n : SharedNotice) :
    (n.woken id (.all id :: later)).nSingle = Wake.lastSingle id false later := by
  rw [SharedNotice.woken, lastSingle_cons, Wake.id, Wake.isSingle, if_pos rfl]

theorem woken_entry (hv : v ∈ n.nVector) : ∃ x ∈ (n.woken id (.all id :: later)).nVector,
    x.toSubscriber = v.toSubscriber ∧
      (x.vTrigger = true ↔ v.vTrigger = true ∨ .single id v.vData ∈ later) := by
  refine ⟨_, List.mem_map_of_mem hv, rfl, ?_⟩
  simp

theorem hopeful_of_woken (hi : NoticesInv s) (hn : s.store id = some (n.woken id (.all id :: later)))
    (hv : v ∈ n.nVector) (hw : Woken id v later) :
    Hopeful id v.toSubscriber { s with run := some ⟨0, none⟩ } [] := by
  obtain ⟨x, hx, hsub, hmark⟩ := @woken_entry id n later v hv
  obtain ⟨j, hj⟩ := List.getElem?_of_mem ((hi.listed id).mpr ⟨_, hn⟩)
  refine .waiting hn ?_ hx hsub ?_ rfl hj (Nat.zero_le j) (fun _ => rfl)
  · simp [SharedNotice.woken, Wake.id]
  · rw [woken_single_eq, Bool.or_eq_true, hmark]
    rcases hw with hlast | hw
    · simp [hlast]
    · exact Or.inl hw

theorem hopeless_of_not_woken (hn : s.store id = some (n.woken id (.all id :: later)))
    (hkeyed : ((n.nVector.map (·.toSubscriber)).map Subscriber.key).Nodup) (hv : v ∈ n.nVector)
    (hw : ¬ Woken id v later) :
    Hopeless id v.toSubscriber { s with run := some ⟨0, none⟩ } [] := by
  obtain ⟨hlast, hmark⟩ := not_or.mp hw
  refine ⟨by simp, ?_, by simp⟩
  intro m hm
  rw [hn] at hm
  cases hm
  refine ⟨fun _ => by rw [woken_single_eq]; simpa using hlast, ?_⟩
  intro x hx hsub
  obtain ⟨y, hy, rfl⟩ := List.mem_map.mp hx
  rw [List.map_map] at hkeyed
  have hyv : y = v := List.inj_on_of_nodup_map hkeyed hy hv (congrArg Subscriber.key hsub)
  subst hyv
  simpa using hmark

theorem NoticesInv.step {s s' : Notices} {a : NoticeAction} (h : NoticesInv s)
    (hs : noticeMachine.step s a = some s') : NoticesInv s' :=
  h.change (stepNotices_change h hs)

/-- The notice is triggered for all, perhaps triggered again, and then a run begins. -/
theorem triggered_run (hi : NoticesInv s) (hn : s.store id = some n) {rest : List NoticeAction}
    (he : noticeMachine.exec s
      (.op (.trigger id) :: later.map (·.action) ++ .run :: rest) = some (t, out)) :
    ∃ s1, NoticesInv s1 ∧ s1.store id = some (n.woken id (.all id :: later)) ∧
      noticeMachine.exec { s1 with run := some ⟨0, none⟩ } rest = some (t, out) := by
  have hwakes : .op (.trigger id) :: later.map (·.action) = (Wake.all id :: later).map (·.action) := rfl
  rw [hwakes, Machine.exec_append] at he
  obtain ⟨⟨s1, before⟩, h1, he⟩ := Option.bind_eq_some_iff.mp he
  obtain ⟨⟨t1, after⟩, hrun, he⟩ := Option.map_eq_some_iff.mp he
  cases he
  obtain ⟨_, _, hstore, rfl⟩ := wakes_exec hn h1
  have hinv1 : NoticesInv s1 := @Machine.exec_keeps _ _ _ _ _ [] _ _ (fun s _ => NoticesInv s) _ h1 hi
    (fun _ _ _ _ _ hi hs => hi.step hs)
  obtain ⟨s2, h2, hrest⟩ := Option.bind_eq_some_iff.mp hrun
  obtain ⟨⟨t2, calls⟩, hcalls, he⟩ := Option.map_eq_some_iff.mp hrest
  cases he
  have hstart : s2 = { s1 with run := some ⟨0, none⟩ } := by
    replace h2 : stepNotices s1 .run = some s2 := h2
    rw [stepNotices] at h2
    split at h2
    · exact (Option.some.inj h2).symm
    · cases h2
  exact ⟨s1, hinv1, hstore, hstart ▸ hcalls⟩

theorem NoticesInv.begun (h : NoticesInv s) : NoticesInv { s with run := some ⟨0, none⟩ } :=
  h.moveRun (by simp)

theorem woken_called (hi : NoticesInv s) (hn : s.store id = some n) (hv : v ∈ n.nVector)
    {rest : List NoticeAction} (hq : ∀ a ∈ rest, QuietFor id a)
    (he : noticeMachine.exec s
      (.op (.trigger id) :: later.map (·.action) ++ .run :: rest) = some (t, out))
    (hdone : t.run = none) (hw : Woken id v later) : ∃ p, (⟨id, v.toSubscriber, p⟩ : Called) ∈ out := by
  obtain ⟨s1, hi1, hstore, hrest⟩ := triggered_run hi hn he
  have hend := Machine.exec_keeps (fun s out => NoticesInv s ∧ Hopeful id v.toSubscriber s out) rest
    hrest ⟨hi1.begun, hopeful_of_woken hi1 hstore hv hw⟩
    (fun s log a s' ha hi hs => ⟨hi.1.step hs, hi.2.step hi.1 (hq a ha) hs⟩)
  cases hend.2 with
  | called hp => exact ⟨_, hp⟩
  | waiting _ _ _ _ _ hr | inRound _ hr =>
    rw [hdone] at hr
    cases hr

/-- Whoever was subscribed when the notice was triggered is called by the next run, unless the
last of the later triggers is for a single subscriber and it is not marked itself. -/
theorem triggered_called_iff {ok : Notices → NoticeAction → Prop} (h : noticeMachine.Runs ok s log)
    (hn : s.store id = some n) (hv : v ∈ n.nVector) {rest : List NoticeAction}
    (hq : ∀ a ∈ rest, QuietFor id a)
    (he : noticeMachine.exec s
      (.op (.trigger id) :: later.map (·.action) ++ .run :: rest) = some (t, out))
    (hdone : t.run = none) :
    (∃ p, (⟨id, v.toSubscriber, p⟩ : Called) ∈ out) ↔ Woken id v later := by
  have hinv := notices_inv h
  by_cases hw : Woken id v later
  · exact iff_of_true (woken_called hinv hn hv hq he hdone hw) hw
  · obtain ⟨s1, hi1, hstore, hrest⟩ := triggered_run hinv hn he
    have hend := Machine.exec_keeps (fun s out => NoticesInv s ∧ Hopeless id v.toSubscriber s out) rest
      hrest ⟨hi1.begun, hopeless_of_not_woken hstore (hinv.keyed_of hn) hv hw⟩
      (fun s log a s' ha hi hs => ⟨hi.1.step hs, hi.2.step hi.1 (hq a ha) hs⟩)
    exact iff_of_false (fun ⟨p, hp⟩ => hend.2.silent p hp) hw

def waitedFor : SharedNotice :=
  { freshNotice none with nVector := [⟨⟨0, 5, 7⟩, false⟩, ⟨⟨1, 5, 8⟩, false⟩], nSingle := false }

/-- Two clients have been added to a notice. -/
def twoWaiting : Notices :=
  ((noticeMachine.exec noNotices [.op (.create none none), .op (.add 0 0 5 7), .op (.add 1 0 5 8)]).map
    Prod.fst).getD noNotices

theorem twoWaiting_runs : noticeMachine.Runs (fun _ _ => True) twoWaiting [] :=
  Machine.Runs.exec .start [.op (.create none none), .op (.add 0 0 5 7), .op (.add 1 0 5 8)] rfl
    (Machine.meets_true _ _ _)

/-- A trigger for the first subscriber alone, and then one for all: the second is called. -/
theorem triggered_called_iff_last : ∃ out,
    (noticeMachine.exec twoWaiting (.op (.trigger 0) :: [Wake.single 0 7, .all 0].map (·.action) ++
      .run :: [.advance, .advance, .answer 1, .advance, .answer 1, .advance, .advance])).map Prod.snd =
        some out ∧ ∃ p, (⟨0, ⟨1, 5, 8⟩, p⟩ : Called) ∈ out :=
  ⟨_, rfl, (@triggered_called_iff twoWaiting _ 0 waitedFor [] _ [.single 0 7, .all 0]
    ⟨⟨1, 5, 8⟩, false⟩ _ twoWaiting_runs rfl (by decide)
    [.advance, .advance, .answer 1, .advance, .answer 1, .advance, .advance] (by simp [QuietFor]) rfl
    rfl).mpr (Or.inl rfl)⟩

/-- A trigger for a single subscriber takes the place of the one for all before it. -/
theorem single_trigger_hides_all : ¬ ∀ (s t : Notices) (log out : List Called) (id : NoticeId)
    (n : SharedNotice) (v : Invoke) (later : List Wake) (rest : List NoticeAction),
    noticeMachine.Runs (fun _ _ => True) s log → s.store id = some n → v ∈ n.nVector →
    (∀ a ∈ rest, QuietFor id a) → noticeMachine.exec s
      (.op (.trigger id) :: later.map (·.action) ++ .run :: rest) = some (t, out) → t.run = none →
    ∃ p, (⟨id, v.toSubscriber, p⟩ : Called) ∈ out := by
  intro hall
  obtain ⟨p, hp⟩ := hall twoWaiting _ [] [⟨0, ⟨0, 5, 7⟩, none⟩] 0 waitedFor ⟨⟨1, 5, 8⟩, false⟩ [.single 0 7]
    [.advance, .advance, .answer 1, .advance, .advance, .advance] twoWaiting_runs rfl (by decide)
    (by simp [QuietFor]) rfl rfl
  simp at hp

end

end Katcp
