import Katcp.NoticeKept

namespace Katcp

section

open SwapVector

/-- The run, if it is at a triggered notice, is at the one in its place. -/
def InPlace (s : Notices) (r : Option NoticeRun) : Prop :=
  ∀ i x, r = some ⟨i, some x⟩ → s.sNotices[i]? = some x.id

/-- What one action can do. Where an entry is taken out, `lone` says that its client has no other
in that notice. -/
inductive NoticeChange (lone : Prop) (s : Notices) : Notices → Prop
  | moved {r : Option NoticeRun} : InPlace s r → NoticeChange lone s { s with run := r }
  | put {id : NoticeId} {n m : SharedNotice} {r : Option NoticeRun} : s.store id = some n →
      m.nVector.map (·.toSubscriber) = n.nVector.map (·.toSubscriber) → InPlace s r →
      NoticeChange lone s { s.putNotice id m with run := r }
  | made {m : SharedNotice} : m.nVector = [] → NoticeChange lone s { s with
      sNotices := s.sNotices ++ [s.fresh]
      store := Function.update s.store s.fresh (some m)
      fresh := s.fresh + 1 }
  | added {id : NoticeId} {n : SharedNotice} {v : Subscriber} {r : Option NoticeRun} :
      s.store id = some n → (∀ w ∈ n.nVector, w.key ≠ v.key) → InPlace s r →
      NoticeChange lone s { s.putNotice id { n with nVector := n.nVector ++ [⟨v, false⟩] } with
        dNotices := Function.update s.dNotices v.vClient (s.dNotices v.vClient ++ [id])
        run := r }
  | dropped {id : NoticeId} {n : SharedNotice} {i : Nat} {v : Invoke} {r : Option NoticeRun} :
      s.store id = some n → n.nVector[i]? = some v →
      (lone → s.subscriptions id v.vClient = 1) → InPlace s r →
      NoticeChange lone s { s.dropEntry id n i v with run := r }
  | disowned {d : ClientId} {s' : Notices} : disownNotices s d = some s' → NoticeChange lone s s'
  | left {i : Nat} {id : NoticeId} {n m : SharedNotice} : s.store id = some n →
      s.sNotices[i]? = some id →
      m.nVector.map (·.toSubscriber) = n.nVector.map (·.toSubscriber) →
      NoticeChange lone s (s.leaveNotice i id m)

/-- An action ends a subscription only where it is the only one of its client with that notice. -/
def Lone (s : Notices) : NoticeAction → Prop
  | .op (.remove id call data) => ∀ n i v, s.store id = some n → findEntry n call data = some (i, v) →
      s.subscriptions id v.vClient = 1
  | .answer result => 0 < result ∨ ∃ i r n v, s.run = some ⟨i, some r⟩ ∧ r.moved = false ∧
      s.store r.id = some n ∧ n.nVector[r.k]? = some v ∧ s.subscriptions r.id v.vClient = 1
  | _ => True

variable {s s' : Notices} {id k : NoticeId} {n m : SharedNotice} {d : ClientId} {lone : Prop}

theorem NoticesInv.change (h : NoticesInv s) (hc : NoticeChange lone s s') : NoticesInv s' := by
  cases hc with
  | moved hr => exact h.moveRun hr
  | put hn hm hr => exact h.put hn rfl rfl rfl hr (hm ▸ h.keyed_of hn)
  | made hm => exact h.made hm
  | added hn hnew hr => exact h.added hn hnew hr
  | dropped hn hv _ hr => exact (h.drop hn hv).moveRun hr
  | disowned hs => exact h.disown hs
  | left hn hi hm => exact h.leave hn hi hm

theorem LinksMatch.made (h : LinksMatch s) (hi : NoticesInv s) (hm : m.nVector = []) :
    LinksMatch { s with
      sNotices := s.sNotices ++ [s.fresh]
      store := Function.update s.store s.fresh (some m)
      fresh := s.fresh + 1 } := by
  refine h.frame (fun k => ?_) rfl
  rw [subscribers_update rfl]
  split
  next hk =>
    have hnone : s.store k = none := by
      rw [Option.eq_none_iff_forall_ne_some]
      intro x hx
      exact Nat.lt_irrefl k (Nat.lt_of_lt_of_eq (hi.below k x hx) hk.symm)
    simp [hm, Notices.subscribers, hnone]
  next => rfl

theorem LinksMatch.added {v : Subscriber} (h : LinksMatch s) (hn : s.store id = some n)
    {r : Option NoticeRun} :
    LinksMatch { s.putNotice id { n with nVector := n.nVector ++ [⟨v, false⟩] } with
      dNotices := Function.update s.dNotices v.vClient (s.dNotices v.vClient ++ [id])
      run := r } := by
  intro k d
  have hd := h k d
  unfold Notices.subscriptions at hd ⊢
  rw [subscribers_update rfl]
  dsimp only
  rw [Function.update_apply]
  by_cases hk : k = id
  · subst hk
    by_cases hv : d = v.vClient
    · subst hv
      simp [← subscribers_some hn, List.countP_append, hd]
    · simp [← subscribers_some hn, List.countP_append, hd, hv, Ne.symm hv]
  · by_cases hv : d = v.vClient
    · subst hv
      simp [hk, hd, List.count_append, Ne.symm hk]
    · simp [hk, hd, hv]

theorem LinksMatch.leave {i : Nat} (h : LinksMatch s) (hn : s.store id = some n)
    (hm : m.nVector.map (·.toSubscriber) = n.nVector.map (·.toSubscriber)) :
    LinksMatch (s.leaveNotice i id m) := by
  unfold Notices.leaveNotice
  split
  next hempty =>
    refine h.frame (fun k => ?_) rfl
    unfold Notices.subscribers
    dsimp only
    rw [Function.update_apply]
    split
    next hk =>
      rw [hk, hn, Option.map_some, Option.getD_some, ← hm, hempty.1]
      rfl
    next => rfl
  next => exact h.put hn rfl hm rfl

theorem LinksMatch.change (h : LinksMatch s) (hi : NoticesInv s) (hl : lone)
    (hc : NoticeChange lone s s') : LinksMatch s' := by
  cases hc with
  | moved => exact h.frame (fun _ => rfl) rfl
  | put hn hm => exact h.put hn rfl hm rfl
  | made hm => exact h.made hi hm
  | added hn => exact h.added hn
  | dropped hn hv hlone => exact (h.drop hn hv (hlone hl)).frame (fun _ => rfl) rfl
  | disowned hs =>
    obtain ⟨t, ht, hm, _⟩ := h.disown _
    rw [ht] at hs
    cases hs
    exact hm
  | left hn _ hm => exact h.leave hn hm

end

section

variable {s s' : Notices} {n : SharedNotice}

/-- What a turn of the loops of `run_notices_katcp` does, and whom it calls. -/
inductive Advance (s : Notices) : Notices → List Called → Prop
  | finished {i : Nat} : s.run = some ⟨i, none⟩ → s.sNotices[i]? = none →
      Advance s { s with run := none } []
  | entered {i : Nat} {id : NoticeId} {n : SharedNotice} : s.run = some ⟨i, none⟩ →
      s.sNotices[i]? = some id → s.store id = some n → n.nTrigger = true →
      Advance s { s.putNotice id { n with toNotice := { n.toNotice.nextParse with nTrigger := false } } with
        run := some ⟨i, some ⟨id, n.nSingle, n.nQueue.count, 0, false, false⟩⟩ } []
  | skipped {i : Nat} {id : NoticeId} {n : SharedNotice} : s.run = some ⟨i, none⟩ →
      s.sNotices[i]? = some id → s.store id = some n → n.nTrigger = false →
      Advance s (s.leaveNotice i id n) []
  | called {i : Nat} {r : NoticeRound} {n : SharedNotice} {v : Invoke} : s.run = some ⟨i, some r⟩ →
      s.store r.id = some n → n.nVector[r.k]? = some v → (v.vTrigger || !r.single) = true →
      Advance s { s.putNotice r.id { n with nVector := n.nVector.set r.k { v with vTrigger := false } } with
        run := some ⟨i, some { r with calling := true, moved := false }⟩ } [⟨r.id, v.toSubscriber, n.nParse⟩]
  | passed {i : Nat} {r : NoticeRound} {n : SharedNotice} {v : Invoke} : s.run = some ⟨i, some r⟩ →
      r.calling = false → s.store r.id = some n → n.nVector[r.k]? = some v →
      (v.vTrigger || !r.single) = false → Advance s { s with run := some ⟨i, some { r with k := r.k + 1 }⟩ } []
  | turned {i : Nat} {r : NoticeRound} {n : SharedNotice} : s.run = some ⟨i, some r⟩ →
      r.calling = false → s.store r.id = some n → n.nVector.length ≤ r.k →
      Advance s { s.putNotice r.id (n.turnParse r.limit) with
        run := some ⟨i, some { r with limit := r.limit - 1, k := 0 }⟩ } []
  | ended {i : Nat} {r : NoticeRound} {n : SharedNotice} : s.run = some ⟨i, some r⟩ →
      r.calling = false → s.store r.id = some n → n.nVector.length ≤ r.k →
      Advance s (s.leaveNotice i r.id (n.turnParse r.limit)) []

theorem stepRound_advance {i : Nat} {r : NoticeRound} (hrun : s.run = some ⟨i, some r⟩)
    (hs : stepRound s i r = some s') : Advance s s' (calls s .advance) := by
  unfold stepRound at hs
  split at hs
  · cases hs
  next hcall =>
    have hcalling : r.calling = false := by simpa using hcall
    obtain ⟨n, hn, hs⟩ := Option.map_eq_some_iff.mp hs
    have hcalls : calls s .advance = ((due n r).map fun v => Called.mk r.id v.toSubscriber n.nParse).toList := by
      simp [calls, hrun, hn]
    rw [hcalls]
    cases hdue : due n r with
    | some v =>
      rw [hdue] at hs
      cases hs
      obtain ⟨hv, htest⟩ := Option.filter_eq_some_iff.mp hdue
      exact .called hrun hn hv htest
    | none =>
      rw [hdue] at hs
      dsimp only at hs
      split at hs
      next hlt =>
        cases hs
        have hv := List.getElem?_eq_getElem hlt
        refine .passed hrun hcalling hn hv ?_
        rw [due, hv] at hdue
        simpa using hdue
      next hlt =>
        have hlen : n.nVector.length ≤ r.k := Nat.le_of_not_lt hlt
        cases hs
        unfold endRound
        split
        · exact .turned hrun hcalling hn hlen
        · exact .ended hrun hcalling hn hlen

theorem advanceRun_advance (hs : advanceRun s = some s') : Advance s s' (calls s .advance) := by
  unfold advanceRun at hs
  split at hs
  · cases hs
  next i hrun =>
    have hcalls : calls s .advance = [] := by simp [calls, hrun]
    rw [hcalls]
    unfold visitNotice at hs
    split at hs
    next hi =>
      cases hs
      exact .finished hrun hi
    next id hi =>
      obtain ⟨n, hn, hs⟩ := Option.map_eq_some_iff.mp hs
      split at hs
      next htrigger =>
        cases hs
        exact .entered hrun hi hn htrigger
      next htrigger =>
        cases hs
        exact .skipped hrun hi hn (by simpa using htrigger)
  next i r hrun => exact stepRound_advance hrun hs

end

section

open SwapVector

variable {s s' : Notices} {id k : NoticeId} {n m : SharedNotice} {d : ClientId} {lone : Prop}
  {log : List Called}

theorem onNotice_change {f : SharedNotice → SharedNotice} (h : NoticesInv s)
    (hs : s.onNotice id f = some s')
    (hf : ∀ n, (f n).nVector.map (·.toSubscriber) = n.nVector.map (·.toSubscriber)) :
    NoticeChange lone s s' := by
  obtain ⟨n, hn, rfl⟩ := onNotice_some hs
  exact .put hn (hf n) h.here

theorem createSharedNotice_change (h : NoticesInv s) (name : Option Text) (p : Option Words) :
    NoticeChange lone s (createSharedNotice s name p) := by
  have hsame : NoticeChange lone s s := .moved h.here
  unfold createSharedNotice
  split
  next id hid =>
    cases hp : p.bind fun p => s.onNotice id (·.addParse p) with
    | none => exact hsame
    | some t =>
      obtain ⟨p, _, ht⟩ := Option.bind_eq_some_iff.mp hp
      exact onNotice_change h ht (fun _ => rfl)
  next =>
    apply NoticeChange.made
    cases p <;> rfl

theorem addNotice_change {call : CallId} {data : DataId} (h : NoticesInv s)
    (hs : addNotice s d id call data = some s') : NoticeChange lone s s' := by
  obtain ⟨n, hn, hs⟩ := Option.map_eq_some_iff.mp hs
  split at hs
  · cases hs
    exact .moved h.here
  next hnew =>
    cases hs
    refine .added hn ?_ ?_
    · intro w hw hk
      refine hnew (List.any_eq_true.mpr ⟨w, hw, ?_⟩)
      simpa [Subscriber.key] using hk
    · intro i x hx
      obtain ⟨⟨j, y⟩, hr, hy⟩ := Option.map_eq_some_iff.mp hx
      cases y with
      | none => cases hy
      | some y =>
        cases hy
        exact h.here j y hr

theorem removeNotice_change {call : Option CallId} {data : DataId} (h : NoticesInv s)
    (hs : removeNotice s id call data = some s') :
    NoticeChange (Lone s (.op (.remove id call data))) s s' := by
  obtain ⟨n, hn, hs⟩ := Option.map_eq_some_iff.mp hs
  split at hs
  · cases hs
    exact .moved h.here
  next i v hf =>
    cases hs
    obtain ⟨j, _, hv⟩ := Option.bind_eq_some_iff.mp hf
    obtain ⟨w, hw, hwe⟩ := Option.map_eq_some_iff.mp hv
    cases hwe
    exact .dropped hn hw (fun hl => hl n i v hn hf) h.here

theorem noticeOp_change {o : NoticeOp} (h : NoticesInv s) (hs : noticeOp s o = some s') :
    NoticeChange (Lone s (.op o)) s s' := by
  cases o with
  | create name p =>
    cases hs
    exact createSharedNotice_change h name p
  | add => exact addNotice_change h hs
  | remove => exact removeNotice_change h hs
  | trigger => exact onNotice_change h hs (fun _ => rfl)
  | triggerSingle => exact onNotice_change h hs (fun n => triggerSingle_subscribers n _)
  | setParse => exact onNotice_change h hs (fun n => by rw [setParse_nVector])
  | addParse => exact onNotice_change h hs (fun _ => rfl)
  | removeParse => exact onNotice_change h hs (fun _ => rfl)
  | hold => exact onNotice_change h hs (fun _ => rfl)
  | release => exact onNotice_change h hs (fun _ => rfl)
  | disown => exact .disowned hs

theorem turnParse_nVector (n : SharedNotice) (limit : Nat) : (n.turnParse limit).nVector = n.nVector := by
  unfold SharedNotice.turnParse
  split <;> rfl

theorem set_trigger_subscribers {vector : List Invoke} {i : Nat} {v : Invoke} (hv : vector[i]? = some v)
    (mark : Bool) : (vector.set i { v with vTrigger := mark }).map (·.toSubscriber) =
      vector.map (·.toSubscriber) := by
  apply List.ext_getElem?
  intro j
  rw [List.getElem?_map, List.getElem?_set, List.getElem?_map]
  split
  next hj =>
    obtain ⟨hlt, _⟩ := List.getElem?_eq_some_iff.mp hv
    rw [if_pos hlt, ← hj, hv]
    rfl
  next => rfl

theorem NoticesInv.stay (h : NoticesInv s) {i : Nat} {r x : NoticeRound}
    (hrun : s.run = some ⟨i, some r⟩) (hx : x.id = r.id) : InPlace s (some ⟨i, some x⟩) := by
  intro j y hy
  cases hy
  exact hx ▸ h.here i r hrun

theorem advanceRun_change (h : NoticesInv s) (hs : advanceRun s = some s') :
    NoticeChange lone s s' := by
  have ha := advanceRun_advance hs
  generalize calls s .advance = out at ha
  cases ha with
  | finished => exact .moved (by simp [InPlace])
  | entered hrun hi hn =>
    refine .put hn rfl ?_
    intro j x hx
    cases hx
    exact hi
  | skipped hrun hi hn => exact .left hn hi rfl
  | called hrun hn hv => exact .put hn (set_trigger_subscribers hv false) (h.stay hrun rfl)
  | passed hrun => exact .moved (h.stay hrun rfl)
  | turned hrun _ hn => exact .put hn (by rw [turnParse_nVector]) (h.stay hrun rfl)
  | ended hrun _ hn => exact .left hn (h.here _ _ hrun) (by rw [turnParse_nVector])

theorem answerCall_change {result : Int} (h : NoticesInv s) (hs : answerCall s result = some s') :
    NoticeChange (Lone s (.answer result)) s s' := by
  unfold answerCall at hs
  split at hs
  next i r hrun =>
    split at hs
    · cases hs
    split at hs
    · cases hs
      exact .moved (h.stay hrun rfl)
    next hres =>
      split at hs
      · cases hs
      obtain ⟨n, hn, hs⟩ := Option.bind_eq_some_iff.mp hs
      obtain ⟨v, hv, hs⟩ := Option.map_eq_some_iff.mp hs
      cases hs
      refine .dropped hn hv ?_ (h.stay hrun rfl)
      intro hl
      obtain ⟨j, x, m, w, hx, _, hm, hw, hone⟩ := hl.resolve_left hres
      rw [hrun] at hx
      cases hx
      rw [hn] at hm
      cases hm
      rw [hv] at hw
      cases hw
      exact hone
  next => cases hs

theorem stepNotices_change {a : NoticeAction} (h : NoticesInv s) (hs : stepNotices s a = some s') :
    NoticeChange (Lone s a) s s' := by
  cases a with
  | op o =>
    rw [stepNotices] at hs
    split at hs
    · exact noticeOp_change h hs
    · cases hs
  | run =>
    rw [stepNotices] at hs
    split at hs
    · cases hs
      exact .moved (by simp [InPlace])
    · cases hs
  | advance => exact advanceRun_change h hs
  | answer result => exact answerCall_change h hs

theorem notices_inv {ok : Notices → NoticeAction → Prop} (h : noticeMachine.Runs ok s log) :
    NoticesInv s := by
  refine h.invariant (fun s _ => NoticesInv s) noNotices_inv ?_
  intro s log a s' hi _ hs
  exact hi.change (stepNotices_change hi hs)

theorem links_match (h : noticeMachine.Runs Lone s log) : NoticesInv s ∧ LinksMatch s := by
  refine h.invariant (fun s _ => NoticesInv s ∧ LinksMatch s) ⟨noNotices_inv, ?_⟩ ?_
  · intro id d
    rfl
  · intro s log a s' hi hok hs
    have hc := stepNotices_change hi.1 hs
    exact ⟨hi.1.change hc, hi.2.change hi.1 hok hc⟩

/-- Each notice lists each client as often as the client lists it, so that nothing points to a
client that has been disowned. -/
theorem notice_links_symmetric (h : noticeMachine.Runs Lone s log) :
    (∀ id d, s.subscriptions id d = (s.dNotices d).count id) ∧
    ∀ d, ∃ t, disownNotices s d = some t ∧
      ∀ id n, t.store id = some n → ∀ v ∈ n.nVector, v.vClient ≠ d := by
  have hl := (links_match h).2
  refine ⟨hl, fun d => ?_⟩
  obtain ⟨t, ht, _, hz⟩ := hl.disown d
  refine ⟨t, ht, fun id n hn v hv hd => ?_⟩
  have hzero := hz id
  rw [Notices.subscriptions, subscribers_some hn, List.countP_eq_zero] at hzero
  exact hzero v.toSubscriber (List.mem_map_of_mem hv) (by simpa using hd)

theorem lone_answer {i : Nat} {r : NoticeRound} {v : Invoke} (result : Int)
    (hrun : s.run = some ⟨i, some r⟩) (hr : r.moved = false) (hn : s.store r.id = some n)
    (hv : n.nVector[r.k]? = some v) (hone : s.subscriptions r.id v.vClient = 1) :
    Lone s (.answer result) :=
  Or.inr ⟨i, r, n, v, hrun, hr, hn, hv, hone⟩

/-- Two clients wait for a notice and are called, the first has done with it. -/
theorem notice_links_symmetric_two : ∃ s : Notices, s.dNotices 0 = [] ∧ s.dNotices 1 = [0] ∧
    (∀ id d, s.subscriptions id d = (s.dNotices d).count id) ∧
    ∀ d, ∃ t, disownNotices s d = some t ∧ ∀ id n, t.store id = some n → ∀ v ∈ n.nVector, v.vClient ≠ d := by
  have called := Machine.Runs.exec (.start : noticeMachine.Runs Lone _ _)
    [.op (.create none none), .op (.add 0 0 5 7), .op (.add 1 0 5 8), .op (.trigger 0), .run, .advance,
      .advance] rfl ⟨trivial, fun _ _ => ⟨trivial, fun _ _ => ⟨trivial, fun _ _ => ⟨trivial, fun _ _ =>
      ⟨trivial, fun _ _ => ⟨trivial, fun _ _ => ⟨trivial, fun _ _ => trivial⟩⟩⟩⟩⟩⟩⟩
  have answered := called.step (lone_answer 0 rfl rfl rfl rfl rfl) rfl
  exact ⟨_, rfl, rfl, notice_links_symmetric (answered.exec [.advance, .answer 1] rfl
    ⟨trivial, fun _ _ => ⟨Or.inl Int.one_pos, fun _ _ => trivial⟩⟩)⟩

/-- A client that waits twice for a notice and ends one of the two keeps no link for the other:
when it goes, the notice still points to it. -/
theorem notice_keeps_disowned : ¬ ∀ (s : Notices) (log : List Called),
    noticeMachine.Runs (fun _ _ => True) s log →
    (∀ id d, s.subscriptions id d = (s.dNotices d).count id) ∧
    ∀ d, ∃ t, disownNotices s d = some t ∧
      ∀ id n, t.store id = some n → ∀ v ∈ n.nVector, v.vClient ≠ d := by
  intro hall
  obtain ⟨_, h⟩ := hall _ _ (Machine.Runs.exec (.start (m := noticeMachine))
    [.op (.create none none), .op (.add 0 0 5 7), .op (.add 0 0 5 8), .op (.remove 0 none 7)] rfl
    (Machine.meets_true _ _ _))
  obtain ⟨t, ht, hgone⟩ := h 0
  cases ht
  exact hgone 0 _ rfl ⟨⟨0, 5, 8⟩, false⟩ (by decide) rfl

end

end Katcp
