import Katcp.NoticeRun

namespace Katcp

section

open SwapVector

inductive Wake
  | all (id : NoticeId)
  | single (id : NoticeId) (data : DataId)
deriving DecidableEq

namespace Wake

def id : Wake → NoticeId
  | all id => id
  | single id _ => id

def isSingle : Wake → Bool
  | all _ => false
  | single _ _ => true

/-- `trigger_notice_katcp` or `trigger_single_notice_katcp` -/
def action : Wake → NoticeAction
  | all id => .op (.trigger id)
  | single id data => .op (.triggerSingle id data)

/-- Whether the last of these for the notice is for a single subscriber. -/
def lastSingle (id : NoticeId) (single : Bool) (wakes : List Wake) : Bool :=
  match (wakes.filter fun w => w.id = id).getLast? with
  | some w => w.isSingle
  | none => single

end Wake

variable {s s' t : Notices} {id k : NoticeId} {n m : SharedNotice} {log out : List Called}

/-- A notice after these: its trigger, and the mark of each subscriber. -/
def SharedNotice.woken (n : SharedNotice) (id : NoticeId) (wakes : List Wake) : SharedNotice :=
  { n with
    nTrigger := n.nTrigger || wakes.any fun w => w.id = id
    nSingle := Wake.lastSingle id n.nSingle wakes
    nVector := n.nVector.map fun v =>
      { v with vTrigger := v.vTrigger || wakes.contains (.single id v.vData) } }

theorem lastSingle_cons (id : NoticeId) (single : Bool) (w : Wake) (wakes : List Wake) :
    Wake.lastSingle id single (w :: wakes) =
      Wake.lastSingle id (if w.id = id then w.isSingle else single) wakes := by
  unfold Wake.lastSingle
  rw [List.filter_cons]
  by_cases hw : w.id = id
  · simp only [hw, decide_true, if_true]
    rw [List.getLast?_cons]
    cases (wakes.filter fun w => w.id = id).getLast? <;> rfl
  · simp [hw]

theorem woken_nil (n : SharedNotice) (id : NoticeId) : n.woken id [] = n := by
  simp [SharedNotice.woken, Wake.lastSingle]

theorem woken_all (n : SharedNotice) (id : NoticeId) (wakes : List Wake) :
    n.triggerAll.woken id wakes = n.woken id (.all id :: wakes) := by
  simp [SharedNotice.woken, SharedNotice.triggerAll, lastSingle_cons, Wake.id, Wake.isSingle]

theorem woken_single (n : SharedNotice) (id : NoticeId) (data : DataId) (wakes : List Wake) :
    (n.triggerSingle data).woken id wakes = n.woken id (.single id data :: wakes) := by
  simp only [SharedNotice.woken, SharedNotice.triggerSingle, lastSingle_cons, Wake.id, Wake.isSingle,
    if_true, List.map_map, List.any_cons, decide_true, Bool.true_or, Bool.or_true,
    SharedNotice.mk.injEq, and_true, true_and]
  apply List.map_congr_left
  intro v _
  by_cases hv : v.vData = data
  · simp [hv]
  · simp [hv]

theorem woken_other (n : SharedNotice) {w : Wake} (hw : w.id ≠ id) (wakes : List Wake) :
    n.woken id wakes = n.woken id (w :: wakes) := by
  have hne : ∀ data, Wake.single id data ≠ w := by
    rintro data rfl
    exact hw rfl
  simp [SharedNotice.woken, lastSingle_cons, hw, hne]

theorem wake_step {w : Wake} (hs : stepNotices s w.action = some s') :
    s'.run = s.run ∧ s'.sNotices = s.sNotices ∧
      ∀ k n, s.store k = some n → ∃ m, s'.store k = some m ∧
        ∀ wakes, m.woken k wakes = n.woken k (w :: wakes) := by
  have hop : ∀ (id : NoticeId) (f : SharedNotice → SharedNotice), w.id = id →
      (∀ n wakes, (f n).woken id wakes = n.woken id (w :: wakes)) → s.onNotice id f = some s' →
      s'.run = s.run ∧ s'.sNotices = s.sNotices ∧
        ∀ k n, s.store k = some n → ∃ m, s'.store k = some m ∧
          ∀ wakes, m.woken k wakes = n.woken k (w :: wakes) := by
    intro id f hw hf ho
    obtain ⟨n, hn, rfl⟩ := onNotice_some ho
    refine ⟨rfl, rfl, fun k x hx => ?_⟩
    by_cases hk : k = id
    · subst hk
      rw [hn] at hx
      cases hx
      exact ⟨f n, Function.update_self .., hf n⟩
    · exact ⟨x, (Function.update_of_ne hk _ _).trans hx,
        woken_other x (fun he => hk (he.symm.trans hw))⟩
  cases w with
  | all id =>
    rw [Wake.action, stepNotices] at hs
    split at hs
    · exact hop id _ rfl (fun n wakes => woken_all n id wakes) hs
    · cases hs
  | single id data =>
    rw [Wake.action, stepNotices] at hs
    split at hs
    · exact hop id _ rfl (fun n wakes => woken_single n id data wakes) hs
    · cases hs

theorem wakes_exec {wakes : List Wake} (hn : s.store id = some n)
    (he : noticeMachine.exec s (wakes.map (·.action)) = some (t, out)) :
    t.run = s.run ∧ t.sNotices = s.sNotices ∧ t.store id = some (n.woken id wakes) ∧ out = [] := by
  induction wakes generalizing s n out with
  | nil =>
    cases he
    exact ⟨rfl, rfl, by rw [woken_nil, hn], rfl⟩
  | cons w rest ih =>
    obtain ⟨s1, h1, he⟩ := Option.bind_eq_some_iff.mp he
    obtain ⟨⟨t1, more⟩, hmore, he⟩ := Option.map_eq_some_iff.mp he
    cases he
    obtain ⟨hrun, hlist, hstore⟩ := wake_step h1
    obtain ⟨m, hm, hw⟩ := hstore id n hn
    obtain ⟨hrun1, hlist1, hstore1, hout⟩ := ih hm hmore
    have hquiet : calls s w.action = [] := by cases w <;> rfl
    refine ⟨hrun1.trans hrun, hlist1.trans hlist, by rw [hstore1, hw], ?_⟩
    show calls s w.action ++ more = []
    rw [hquiet, hout, List.append_nil]

end

section

open SwapVector

variable {s s' t : Notices} {id k : NoticeId} {n m : SharedNotice} {log out : List Called}
  {w : Subscriber}

/-- An action of a run, or of its calls, that neither triggers this notice nor ends subscriptions
to it. -/
def QuietFor (id : NoticeId) : NoticeAction → Prop
  | .op (.remove k _ _) => k ≠ id
  | .op (.trigger k) => k ≠ id
  | .op (.triggerSingle k _) => k ≠ id
  | .op (.disown _) => False
  | .op _ => True
  | .run => False
  | .advance => True
  | .answer _ => True

/-- The notice keeps its trigger, its entries stay where they are, and new ones are not marked. -/
def Undisturbed (n m : SharedNotice) : Prop :=
  m.nTrigger = n.nTrigger ∧ m.nSingle = n.nSingle ∧
    ∃ more, m.nVector = n.nVector ++ more ∧ ∀ v ∈ more, v.vTrigger = false

theorem Undisturbed.refl (n : SharedNotice) : Undisturbed n n :=
  ⟨rfl, rfl, [], (List.append_nil _).symm, by simp⟩

/-- What others do while a run waits for the answer of a call. -/
structure QuietStep (id : NoticeId) (s s' : Notices) : Prop where
  store : ∀ m, s'.store id = some m → m.nTrigger = false ∧ m.nVector = [] ∨
    ∃ n, s.store id = some n ∧ Undisturbed n m
  kept : ∀ n, s.store id = some n → ∃ m, s'.store id = some m ∧ Undisturbed n m
  listed : ∀ (j : Nat) k, s.sNotices[j]? = some k → s'.sNotices[j]? = some k
  run : s'.run = s.run ∨ ∃ k, s'.run = s.run.map (·.moved k)

theorem QuietStep.put (hn : s.store k = some n) (hm : k = id → Undisturbed n m)
    {links : ClientId → List NoticeId} {r : Option NoticeRun} (hr : r = s.run ∨ ∃ k, r = s.run.map (·.moved k)) :
    QuietStep id s { s.putNotice k m with dNotices := links, run := r } where
  store x hx := by
    right
    simp only [Notices.putNotice, Function.update_apply] at hx
    split at hx
    next hk =>
      cases hx
      exact ⟨n, hk ▸ hn, hm hk.symm⟩
    next => exact ⟨x, hx, .refl x⟩
  kept x hx := by
    simp only [Notices.putNotice, Function.update_apply]
    split
    next hk =>
      rw [hk, hn] at hx
      cases hx
      exact ⟨m, rfl, hm hk.symm⟩
    next => exact ⟨x, hx, .refl x⟩
  listed _ _ h := h
  run := hr

theorem QuietStep.refl (id : NoticeId) (s : Notices) : QuietStep id s s where
  store m hm := Or.inr ⟨m, hm, .refl m⟩
  kept n hn := ⟨n, hn, .refl n⟩
  listed _ _ h := h
  run := Or.inl rfl

theorem onNotice_quiet {f : SharedNotice → SharedNotice} (hs : s.onNotice k f = some s')
    (hf : k = id → ∀ n, Undisturbed n (f n)) : QuietStep id s s' := by
  obtain ⟨n, hn, rfl⟩ := onNotice_some hs
  exact .put hn (fun hk => hf hk n) (Or.inl rfl)

theorem createSharedNotice_quiet (h : NoticesInv s) (name : Option Text) (p : Option Words) :
    QuietStep id s (createSharedNotice s name p) := by
  unfold createSharedNotice
  split
  next k hk =>
    cases hp : p.bind fun p => s.onNotice k (·.addParse p) with
    | none => exact .refl id s
    | some t =>
      obtain ⟨p, _, ht⟩ := Option.bind_eq_some_iff.mp hp
      exact onNotice_quiet ht (fun _ n => .refl n)
  next =>
    have hold : ∀ n, s.store id = some n → id ≠ s.fresh := fun n hn => Nat.ne_of_lt (h.below id n hn)
    constructor
    · intro m hm
      dsimp only at hm
      rw [Function.update_apply] at hm
      split at hm
      · cases hm
        left
        cases p <;> exact ⟨rfl, rfl⟩
      · exact Or.inr ⟨m, hm, .refl m⟩
    · intro n hn
      exact ⟨n, (Function.update_of_ne (hold n hn) _ _).trans hn, .refl n⟩
    · intro j k hj
      obtain ⟨hlt, rfl⟩ := List.getElem?_eq_some_iff.mp hj
      rw [List.getElem?_append_left hlt, hj]
    · exact Or.inl rfl

theorem noticeOp_quiet {o : NoticeOp} (h : NoticesInv s) (hq : QuietFor id (.op o))
    (hs : noticeOp s o = some s') : QuietStep id s s' := by
  have hsame : ∀ n : SharedNotice, ∀ x : Notice, x.nTrigger = n.nTrigger →
      Undisturbed n { n with toNotice := x } := fun n x hx => ⟨hx, rfl, [], by simp, by simp⟩
  cases o with
  | create name p =>
    cases hs
    exact createSharedNotice_quiet h name p
  | add d k call data =>
    obtain ⟨n, hn, hs⟩ := Option.map_eq_some_iff.mp hs
    split at hs
    · cases hs
      exact .refl id s
    · cases hs
      refine .put hn ?_ (Or.inr ⟨k, rfl⟩)
      exact fun _ => ⟨rfl, rfl, [⟨⟨d, call, data⟩, false⟩], rfl, by simp⟩
  | remove k call data =>
    obtain ⟨n, hn, hs⟩ := Option.map_eq_some_iff.mp hs
    split at hs
    · cases hs
      exact .refl id s
    · cases hs
      exact .put hn (fun hk => absurd hk hq) (Or.inl rfl)
  | trigger => exact onNotice_quiet hs (fun hk => absurd hk hq)
  | triggerSingle => exact onNotice_quiet hs (fun hk => absurd hk hq)
  | setParse k p =>
    refine onNotice_quiet hs (fun _ n => ?_)
    cases p <;> exact hsame n _ rfl
  | addParse => exact onNotice_quiet hs (fun _ n => hsame n _ rfl)
  | removeParse =>
    refine onNotice_quiet hs (fun _ n => hsame n _ ?_)
    unfold Notice.removeParse
    split <;> rfl
  | hold => exact onNotice_quiet hs (fun _ n => hsame n _ rfl)
  | release => exact onNotice_quiet hs (fun _ n => hsame n _ rfl)
  | disown => exact hq.elim

end

section

open SwapVector

variable {s s' t : Notices} {id k : NoticeId} {n m : SharedNotice} {log out : List Called}
  {w : Subscriber} {a : NoticeAction}

/-- The subscriber is not marked, and the notice is triggered for marked ones only. -/
def PassesBy (w : Subscriber) (n : SharedNotice) : Prop :=
  (n.nTrigger = true → n.nSingle = true) ∧ ∀ v ∈ n.nVector, v.toSubscriber = w → v.vTrigger = false

/-- The subscriber was not called and will not be. -/
structure Hopeless (id : NoticeId) (w : Subscriber) (s : Notices) (out : List Called) : Prop where
  silent : ∀ p, (⟨id, w, p⟩ : Called) ∉ out
  passes : ∀ n, s.store id = some n → PassesBy w n
  single : ∀ i r, s.run = some ⟨i, some r⟩ → r.id = id → r.single = true

theorem PassesBy.of_subset (h : PassesBy w n) (ht : m.nTrigger = true → n.nTrigger = true)
    (hs : m.nSingle = n.nSingle) (hv : ∀ v ∈ m.nVector, v ∈ n.nVector ∨ v.vTrigger = false) :
    PassesBy w m := by
  refine ⟨fun hm => hs ▸ h.1 (ht hm), fun v hm hw => ?_⟩
  rcases hv v hm with hv | hv
  · exact h.2 v hv hw
  · exact hv

theorem Undisturbed.passesBy (hu : Undisturbed n m) (h : PassesBy w n) : PassesBy w m := by
  obtain ⟨ht, hs, more, hv, hmore⟩ := hu
  refine h.of_subset (fun hm => ht ▸ hm) hs ?_
  intro v hm
  rw [hv, List.mem_append] at hm
  exact hm.imp_right (hmore v)

theorem turnParse_trigger (n : SharedNotice) (limit : Nat) :
    (n.turnParse limit).nTrigger = n.nTrigger ∧ (n.turnParse limit).nSingle = n.nSingle := by
  unfold SharedNotice.turnParse
  split <;> exact ⟨rfl, rfl⟩

theorem turnParse_undisturbed (n : SharedNotice) (limit : Nat) : Undisturbed n (n.turnParse limit) :=
  ⟨(turnParse_trigger n limit).1, (turnParse_trigger n limit).2, [],
    by rw [turnParse_nVector, List.append_nil], by simp⟩

theorem Hopeless.quiet (h : Hopeless id w s out) (hq : QuietStep id s s') : Hopeless id w s' out where
  silent := h.silent
  passes m hm := by
    rcases hq.store m hm with ⟨ht, hv⟩ | ⟨n, hn, hu⟩
    · exact ⟨fun htrue => by simp [ht] at htrue, by simp [hv]⟩
    · exact hu.passesBy (h.passes n hn)
  single i r hr hid := by
    rcases hq.run with he | ⟨k, he⟩
    · exact h.single i r (he ▸ hr) hid
    · rw [he] at hr
      obtain ⟨⟨j, x⟩, hx, hr⟩ := Option.map_eq_some_iff.mp hr
      cases x with
      | none => cases hr
      | some x =>
        cases hr
        exact h.single j x hx hid

theorem Hopeless.put {more : List Called} {r : Option NoticeRun} {links : ClientId → List NoticeId}
    (h : Hopeless id w s out) (hmore : ∀ p, (⟨id, w, p⟩ : Called) ∉ more)
    (hm : k = id → PassesBy w m) (hr : ∀ i x, r = some ⟨i, some x⟩ → x.id = id → x.single = true) :
    Hopeless id w { s.putNotice k m with dNotices := links, run := r } (out ++ more) where
  silent p hp := by
    rcases List.mem_append.mp hp with hp | hp
    · exact h.silent p hp
    · exact hmore p hp
  passes x hx := by
    simp only [Notices.putNotice, Function.update_apply] at hx
    split at hx
    next hk =>
      cases hx
      exact hm hk.symm
    next => exact h.passes x hx
  single := hr

theorem Hopeless.leave {i : Nat} (h : Hopeless id w s out) (hm : k = id → PassesBy w m) :
    Hopeless id w (s.leaveNotice i k m) (out ++ []) := by
  unfold Notices.leaveNotice
  split
  · refine ⟨by simpa using h.silent, ?_, by simp⟩
    intro x hx
    simp only [Function.update_apply] at hx
    split at hx
    · cases hx
    · exact h.passes x hx
  · exact h.put (by simp) hm (by simp)

theorem Hopeless.stay {i : Nat} {r x : NoticeRound} (h : Hopeless id w s out)
    (hrun : s.run = some ⟨i, some r⟩) (hid : x.id = r.id) (hsingle : x.single = r.single) (j : Nat)
    (y : NoticeRound) (hy : (some ⟨i, some x⟩ : Option NoticeRun) = some ⟨j, some y⟩) (hyid : y.id = id) :
    y.single = true := by
  cases hy
  rw [hsingle]
  exact h.single i r hrun (hid ▸ hyid)

theorem Hopeless.advance (h : Hopeless id w s out) (ha : Advance s s' log) :
    Hopeless id w s' (out ++ log) := by
  have hstill : ∀ {r : Option NoticeRun}, (∀ i x, r = some ⟨i, some x⟩ → x.id = id → x.single = true) →
      Hopeless id w { s with run := r } (out ++ []) := fun hr =>
    ⟨by simpa using h.silent, h.passes, hr⟩
  cases ha with
  | finished => exact hstill (by simp)
  | entered hrun hi hn ht =>
    refine h.put (by simp) ?_ ?_
    · rintro rfl
      exact (h.passes _ hn).of_subset (by simp) rfl (fun _ hv => Or.inl hv)
    · intro j x hx hid
      cases hx
      exact (h.passes _ (hid ▸ hn)).1 ht
  | skipped hrun hi hn =>
    exact h.leave (fun hk => h.passes _ (hk ▸ hn))
  | @called i r n v hrun hn hv htest =>
    refine h.put ?_ ?_ (h.stay hrun rfl rfl)
    · intro p hp
      obtain ⟨hid, hw, _⟩ := Called.mk.inj (List.mem_singleton.mp hp)
      have hmark := (h.passes n (hid ▸ hn)).2 v (List.mem_of_getElem? hv) hw.symm
      have hsingle := h.single i r hrun hid.symm
      simp [hmark, hsingle] at htest
    · intro hid
      refine (h.passes n (hid ▸ hn)).of_subset (fun ht => ht) rfl ?_
      intro x hx
      rcases List.mem_or_eq_of_mem_set hx with hx | hx
      · exact Or.inl hx
      · exact Or.inr (by rw [hx])
  | passed hrun => exact hstill (h.stay hrun rfl rfl)
  | @turned i r n hrun _ hn =>
    exact h.put (by simp) (fun hk => (turnParse_undisturbed n r.limit).passesBy (h.passes n (hk ▸ hn)))
      (h.stay hrun rfl rfl)
  | @ended i r n hrun _ hn =>
    exact h.leave (fun hk => (turnParse_undisturbed n r.limit).passesBy (h.passes n (hk ▸ hn)))

theorem Hopeless.answer {result : Int} (h : Hopeless id w s out) (hs : answerCall s result = some s') :
    Hopeless id w s' (out ++ []) := by
  unfold answerCall at hs
  split at hs
  next i r hrun =>
    split at hs
    · cases hs
    split at hs
    · cases hs
      exact ⟨by simpa using h.silent, h.passes, h.stay hrun rfl rfl⟩
    split at hs
    · cases hs
    obtain ⟨n, hn, hs⟩ := Option.bind_eq_some_iff.mp hs
    obtain ⟨v, hv, hs⟩ := Option.map_eq_some_iff.mp hs
    cases hs
    refine h.put (by simp) ?_ (h.stay hrun rfl rfl)
    intro hid
    refine (h.passes n (hid ▸ hn)).of_subset (fun ht => ht) rfl ?_
    intro x hx
    exact Or.inl ((removeAt_perm hv).mem_iff.mp (List.mem_cons_of_mem v hx))
  next => cases hs

theorem Hopeless.step (h : Hopeless id w s out) (hi : NoticesInv s) (hq : QuietFor id a)
    (hs : stepNotices s a = some s') : Hopeless id w s' (out ++ calls s a) := by
  cases a with
  | op o =>
    rw [stepNotices] at hs
    split at hs
    · simpa [calls] using h.quiet (noticeOp_quiet hi hq hs)
    · cases hs
  | run => exact hq.elim
  | advance => exact h.advance (advanceRun_advance hs)
  | answer result => exact h.answer hs

end

end Katcp
