import Katcp.NoticeServing

namespace Katcp

section

open SwapVector

variable {s s' t : Notices} {id : NoticeId} {n m : SharedNotice} {r : NoticeRound} {w : Subscriber}
  {q : List Words} {first : List Subscriber} {log out rest : List Delivery} {i b : Nat} {e : Delivery}

/-- A subscription that was there when the run came to the notice, or began after the first `b`
messages had been delivered. -/
def Begun (first : List Subscriber) (log : List Delivery) (w : Subscriber) (b : Nat) (rest : List Delivery) : Prop :=
  w ∈ first ∧ b = 0 ∧ rest = log ∨ ∃ before, log = before ++ .joined w :: rest ∧ b = (releases before).length

theorem Begun.bound (h : Begun first log w b rest) : b ≤ (releases log).length := by
  rcases h with ⟨_, rfl, _⟩ | ⟨before, rfl, rfl⟩
  · exact Nat.zero_le _
  · rw [releases_append, List.length_append]
    exact Nat.le_add_right _ _

theorem Begun.snoc (h : Begun first (log ++ [e]) w b rest) :
    (e = .joined w ∧ rest = [] ∧ b = (releases log).length) ∨
    ∃ rest', rest = rest' ++ [e] ∧ Begun first log w b rest' := by
  rcases h with ⟨hw, hb, rfl⟩ | ⟨before, hlog, hb⟩
  · exact Or.inr ⟨log, rfl, Or.inl ⟨hw, hb, rfl⟩⟩
  · rcases List.eq_nil_or_concat rest with rfl | ⟨rest', e', rfl⟩
    · obtain ⟨rfl, he⟩ := List.append_inj' hlog rfl
      cases he
      exact Or.inl ⟨rfl, rfl, hb⟩
    · rw [List.concat_eq_append] at hlog ⊢
      rw [← List.cons_append, ← List.append_assoc] at hlog
      obtain ⟨hinit, he⟩ := List.append_inj' hlog rfl
      cases he
      exact Or.inr ⟨rest', rfl, Or.inr ⟨before, hinit, hb⟩⟩

/-- Where a run is with a notice that had these messages and subscribers when it came to it. -/
structure PassInv (id : NoticeId) (q : List Words) (first : List Subscriber) (s : Notices) (log : List Delivery)
    (i : Nat) (r : NoticeRound) (n : SharedNotice) : Prop where
  inv : NoticesInv s
  run : s.run = some ⟨i, some r⟩
  place : r.id = id
  notice : s.store r.id = some n
  all : r.single = false
  within : r.k ≤ n.nVector.length
  busy : r.calling = true → r.k < n.nVector.length
  parse : (parses q)[(releases log).length]? = some n.nParse
  limit : r.limit = q.length - (releases log).length
  queue : n.nQueue.contents.take (r.limit - 1) = q.drop ((releases log).length + 1)
  released : releases log = q.take (releases log).length
  served : ∀ w b rest, Begun first log w b rest →
    Serving ((parses q).drop b) w rest ((releases log).length - b) r n

theorem PassInv.nodup (h : PassInv id q first s log i r n) : (n.nVector.map (·.toSubscriber)).Nodup :=
  (h.inv.keyed_of h.notice).of_map _

theorem PassInv.next (h : PassInv id q first s log i r n) (hb : Begun first log w b rest) :
    ((parses q).drop b)[(releases log).length - b]? = some n.nParse := by
  have hle := hb.bound
  rw [List.getElem?_drop, Nat.add_sub_cancel' hle]
  exact h.parse

/-- What the subscriptions have when one thing more has happened, which no message's end is. -/
theorem Begun.serve {r' : NoticeRound} (he : releases [e] = []) (hjoin : ∀ w, e ≠ .joined w)
    (hstep : ∀ w b rest, Begun first log w b rest →
      Serving ((parses q).drop b) w (rest ++ [e]) ((releases log).length - b) r' m) :
    ∀ w b rest, Begun first (log ++ [e]) w b rest →
      Serving ((parses q).drop b) w rest ((releases (log ++ [e])).length - b) r' m := by
  intro w b rest hb
  rw [releases_append, he, List.append_nil]
  rcases hb.snoc with ⟨hj, _⟩ | ⟨rest', rfl, hbegun⟩
  · exact absurd hj (hjoin w)
  · exact hstep w b rest' hbegun

theorem PassInv.advance_called {v : Invoke} (h : PassInv id q first s log i r n) (hcalling : r.calling = false)
    (hv : n.nVector[r.k]? = some v) (hs : s' = { s.putNotice r.id
      { n with nVector := n.nVector.set r.k { v with vTrigger := false } } with
      run := some ⟨i, some { r with calling := true, moved := false }⟩ }) (hinv : NoticesInv s') :
    PassInv id q first s' (log ++ [.handed v.toSubscriber n.nParse]) i { r with calling := true, moved := false }
      { n with nVector := n.nVector.set r.k { v with vTrigger := false } } := by
  obtain ⟨hlt, _⟩ := List.getElem?_eq_some_iff.mp hv
  have hrel : releases (log ++ [.handed v.toSubscriber n.nParse]) = releases log := by
    rw [releases_append]
    simp [releases]
  subst hs
  refine ⟨hinv, rfl, h.place, Function.update_self .., h.all, ?_, fun _ => ?_, ?_, ?_, ?_, ?_, ?_⟩
  · rw [List.length_set]
    exact h.within
  · rw [List.length_set]
    exact hlt
  · rw [hrel]
    exact h.parse
  · rw [hrel]
    exact h.limit
  · rw [hrel]
    exact h.queue
  · rw [hrel]
    exact h.released
  · exact Begun.serve rfl (fun w hw => by cases hw) fun w b rest hb =>
      (h.served w b rest hb).called h.nodup hcalling hv (h.next hb)

/-- The next message is taken from the queue. -/
theorem PassInv.turn (h : PassInv id q first s log i r n) (hnext : (n.turnParse r.limit).nParse.isSome) :
    ∃ p, n.nParse = some p ∧ q[(releases log).length]? = some p ∧ 1 < r.limit ∧
      (n.turnParse r.limit).nParse = q[(releases log).length + 1]? ∧
      (n.turnParse r.limit).nQueue.contents = n.nQueue.contents.tail := by
  have hlimit : 1 < r.limit := by
    by_contra hle
    rw [SharedNotice.turnParse, if_neg hle] at hnext
    cases hnext
  have hlim := h.limit
  have hne : q ≠ [] := by
    rintro rfl
    rw [List.length_nil] at hlim
    omega
  have hlt : (releases log).length < q.length := by omega
  have hparse := h.parse
  rw [parses, if_neg hne, List.getElem?_map, List.getElem?_eq_getElem hlt, Option.map_some] at hparse
  have hhead : n.nQueue.getHead = q[(releases log).length + 1]? := by
    have hq := congrArg List.head? h.queue
    rw [List.head?_take, if_neg (by omega), List.head?_drop] at hq
    rw [RingQueue.getHead_eq, hq]
  rw [SharedNotice.turnParse, if_pos hlimit]
  exact ⟨_, (Option.some.inj hparse).symm, List.getElem?_eq_getElem hlt, hlimit, hhead, RingQueue.contents_removeHead _⟩

theorem PassInv.advance_turned (h : PassInv id q first s log i r n) (hcalling : r.calling = false)
    (hlen : n.nVector.length ≤ r.k) (hnext : (n.turnParse r.limit).nParse.isSome)
    (hs : s' = { s.putNotice r.id (n.turnParse r.limit) with
      run := some ⟨i, some { r with limit := r.limit - 1, k := 0 }⟩ }) (hinv : NoticesInv s') :
    PassInv id q first s' (log ++ (n.nParse.map .released).toList) i { r with limit := r.limit - 1, k := 0 }
      (n.turnParse r.limit) := by
  obtain ⟨p, hp, hqp, hlimit, hparse, htail⟩ := h.turn hnext
  have hne : q ≠ [] := by
    rintro rfl
    cases hqp
  have hlim := h.limit
  have hrel : releases (log ++ [.released p]) = releases log ++ [p] := by
    rw [releases_append]
    rfl
  have hcount : (releases (log ++ [.released p])).length = (releases log).length + 1 := by
    rw [hrel, List.length_append, List.length_singleton]
  rw [hp]
  subst hs
  refine ⟨hinv, rfl, h.place, Function.update_self .., h.all, Nat.zero_le _, fun hc => ?_, ?_, ?_, ?_, ?_, ?_⟩
  · rw [hcalling] at hc
    cases hc
  · change (parses q)[(releases (log ++ [.released p])).length]? = _
    rw [hcount, parses, if_neg hne, List.getElem?_map, hparse]
    rw [List.getElem?_eq_getElem (by omega), Option.map_some]
  · change r.limit - 1 = q.length - (releases (log ++ [.released p])).length
    rw [hcount]
    omega
  · change (n.turnParse r.limit).nQueue.contents.take (r.limit - 1 - 1) =
      q.drop ((releases (log ++ [.released p])).length + 1)
    rw [htail, hcount, ← List.drop_one, List.take_drop, Nat.add_sub_cancel' (by omega), h.queue, List.drop_drop]
  · change releases (log ++ [.released p]) = q.take (releases (log ++ [.released p])).length
    rw [hcount, List.take_add_one, hqp, ← h.released, hrel]
    rfl
  · intro w b rest hb
    change Serving _ w rest ((releases (log ++ [.released p])).length - b) _ _
    rw [hcount]
    rcases Begun.snoc hb with ⟨hj, _⟩ | ⟨rest', rfl, hbegun⟩
    · cases hj
    · have hle := hbegun.bound
      have hsame : (n.turnParse r.limit).nVector.map (·.toSubscriber) = n.nVector.map (·.toSubscriber) := by
        rw [turnParse_nVector]
      rw [Nat.sub_add_comm hle]
      exact (h.served w b rest' hbegun).turned hlen hcalling hsame (some p) (r.limit - 1)

theorem PassInv.answer {v : Invoke} {result : Int} (h : PassInv id q first s log i r n) (hcalling : r.calling = true)
    (hv : n.nVector[r.k]? = some v) (hpos : 0 < result)
    (hs : s' = { s with run := some ⟨i, some { r with k := r.k + 1, calling := false }⟩ }) (hinv : NoticesInv s') :
    PassInv id q first s' (log ++ [.answered v.toSubscriber result]) i { r with k := r.k + 1, calling := false } n := by
  have hrel : releases (log ++ [.answered v.toSubscriber result]) = releases log := by
    rw [releases_append]
    simp [releases]
  subst hs
  refine ⟨hinv, rfl, h.place, h.notice, h.all, h.busy hcalling, fun hc => ?_, ?_, ?_, ?_, ?_, ?_⟩
  · cases hc
  · rw [hrel]
    exact h.parse
  · rw [hrel]
    exact h.limit
  · rw [hrel]
    exact h.queue
  · rw [hrel]
    exact h.released
  · exact Begun.serve rfl (fun w hw => by cases hw) fun w b rest hb =>
      (h.served w b rest hb).answered h.nodup hcalling hv hpos

theorem PassInv.refuse {v : Invoke} {result : Int} (h : PassInv id q first s log i r n) (hcalling : r.calling = true)
    (hv : n.nVector[r.k]? = some v) (hneg : result ≤ 0)
    (hs : s' = { s.dropEntry r.id n r.k v with run := some ⟨i, some { r with calling := false }⟩ })
    (hinv : NoticesInv s') :
    PassInv id q first s' (log ++ [.answered v.toSubscriber result]) i { r with calling := false }
      { n with nVector := removeAt n.nVector r.k } := by
  have hlt := h.busy hcalling
  have hrel : releases (log ++ [.answered v.toSubscriber result]) = releases log := by
    rw [releases_append]
    simp [releases]
  subst hs
  refine ⟨hinv, rfl, h.place, Function.update_self .., h.all, ?_, fun hc => ?_, ?_, ?_, ?_, ?_, ?_⟩
  · rw [removeAt_length]
    exact Nat.le_sub_one_of_lt hlt
  · cases hc
  · rw [hrel]
    exact h.parse
  · rw [hrel]
    exact h.limit
  · rw [hrel]
    exact h.queue
  · rw [hrel]
    exact h.released
  · exact Begun.serve rfl (fun w hw => by cases hw) fun w b rest hb =>
      (h.served w b rest hb).refused h.nodup hcalling hv hneg

/-- Something is done in a call that spares the notice. -/
theorem PassInv.op {o : NoticeOp} (h : PassInv id q first s log i r n) (hcalling : r.calling = true)
    (hsp : Spares s s') (hs : noticeOp s o = some s') (hinv : NoticesInv s') :
    ∃ r' m, PassInv id q first s' (log ++ deliveries s (.op o)) i r' m := by
  obtain ⟨m, moved, hm, hrun, hspared, hjoin⟩ := noticeOp_spared h.inv h.run h.notice hsp hs
  have hlen := congrArg List.length hspared.subscribers
  rw [List.length_map, List.length_append, List.length_map] at hlen
  have hbusy := h.busy hcalling
  have hrel : releases (log ++ deliveries s (.op o)) = releases log := by
    rw [releases_append]
    rcases hjoin with hnone | ⟨v, hsome, _⟩
    · simp [hnone, releases]
    · simp [hsome, releases]
  refine ⟨{ r with moved := moved }, m, hinv, hrun, h.place, hm, h.all, ?_, fun _ => ?_, ?_, ?_, ?_, ?_, ?_⟩
  · exact Nat.le_trans h.within (by omega)
  · exact Nat.lt_of_lt_of_le hbusy (by omega)
  · rw [hrel, hspared.parse]
    exact h.parse
  · rw [hrel]
    exact h.limit
  · rw [hrel]
    exact hspared.queue.trans h.queue
  · rw [hrel]
    exact h.released
  · intro w b rest hb
    rw [hrel]
    rcases hjoin with hnone | ⟨v, hsome, hnew⟩
    · rw [hnone, List.append_nil] at hb
      refine (h.served w b rest hb).unlogged ?_ moved
      rw [hspared.subscribers, hnone]
      exact List.append_nil _
    · rw [hsome] at hb
      have hsubs : m.nVector.map (·.toSubscriber) = n.nVector.map (·.toSubscriber) ++ [v] := by
        rw [hspared.subscribers, hsome]
        rfl
      have hfresh : v ∉ n.nVector.map (·.toSubscriber) := by
        intro hv
        obtain ⟨x, hx, rfl⟩ := List.mem_map.mp hv
        exact hnew x hx rfl
      rcases Begun.snoc hb with ⟨hj, rfl, rfl⟩ | ⟨rest', rfl, hbegun⟩
      · cases hj
        rw [Nat.sub_self]
        refine .begun (j := n.nVector.length) ?_ h.within fun _ => Nat.ne_of_lt hbusy
        rw [hsubs, List.getElem?_append_right (by simp), List.length_map, Nat.sub_self]
        rfl
      · exact (h.served w b rest' hbegun).joined hsubs hfresh moved

end

section

open SwapVector

variable {s s' t u : Notices} {id : NoticeId} {n m : SharedNotice} {r : NoticeRound} {w : Subscriber}
  {q : List Words} {first : List Subscriber} {log rest : List Delivery} {i b done : Nat}
  {messages : List (Option Words)} {a : NoticeAction}

/-- The run comes to a notice that was triggered for all. -/
theorem PassInv.entered (h : NoticesInv s) (hrun : s.run = some ⟨i, none⟩) (hi : s.sNotices[i]? = some id)
    (hn : s.store id = some n) (ht : n.nTrigger = true) (hall : n.nSingle = false)
    (hs : stepNotices s .advance = some s') :
    ∃ r m, PassInv id n.nQueue.contents (n.nVector.map (·.toSubscriber)) s' [] i r m := by
  have hinv : NoticesInv s' := h.change (stepNotices_change h hs)
  have hs : visitNotice s i = some s' := by
    simpa [stepNotices, advanceRun, hrun] using hs
  unfold visitNotice at hs
  rw [hi] at hs
  dsimp only at hs
  rw [hn, Option.map_some, if_pos ht] at hs
  cases Option.some.inj hs
  have hlater : ∀ w b rest, Begun (n.nVector.map (·.toSubscriber)) [] w b rest →
      w ∈ n.nVector.map (·.toSubscriber) ∧ b = 0 ∧ rest = [] := by
    rintro w b rest (hb | ⟨before, hlog, _⟩)
    · exact hb
    · simp at hlog
  refine ⟨_, _, hinv, rfl, rfl, Function.update_self .., hall, Nat.zero_le _, fun hc => ?_, ?_, ?_, ?_, rfl, ?_⟩
  · cases hc
  · change (parses n.nQueue.contents)[0]? = some n.nQueue.getHead
    rw [RingQueue.getHead_eq, parses]
    cases n.nQueue.contents <;> rfl
  · exact (RingQueue.contents_length n.nQueue).symm
  · change n.nQueue.removeHead.contents.take (n.nQueue.count - 1) = n.nQueue.contents.drop 1
    rw [RingQueue.contents_removeHead, List.drop_one, List.take_of_length_le]
    rw [List.length_tail, RingQueue.contents_length]
  · intro w b rest hb
    obtain ⟨hw, rfl, rfl⟩ := hlater w b rest hb
    obtain ⟨j, hj⟩ := List.getElem?_of_mem hw
    exact .begun hj (Nat.zero_le j) fun hc => by cases hc

/-- One thing more happens while the run is at the notice. -/
theorem PassInv.step (h : PassInv id q first s log i r n) (hok : PassesOver id s a)
    (hs : stepNotices s a = some s') :
    (∃ r' m, PassInv id q first s' (log ++ deliveries s a) i r' m) ∨
      a = .advance ∧ r.calling = false ∧ n.nVector.length ≤ r.k ∧ (n.turnParse r.limit).nParse = none ∧
        deliveries s a = (n.nParse.map .released).toList ∧ s' = s.leaveNotice i r.id (n.turnParse r.limit) := by
  have hinv : NoticesInv s' := h.inv.change (stepNotices_change h.inv hs)
  have hround : roundOf s = some (r, n) := roundOf_some.mpr ⟨by rw [h.run]; rfl, h.notice⟩
  cases a with
  | op o =>
    rw [stepNotices] at hs
    split at hs
    next hy =>
      have hcalling : r.calling = true := by
        rw [Notices.yielding, h.run] at hy
        exact hy
      exact Or.inl (h.op hcalling (hok.2 s' hs) hs hinv)
    next => cases hs
  | run =>
    rw [stepNotices, if_neg (by simp [h.run])] at hs
    cases hs
  | advance =>
    obtain ⟨hcalling, hround⟩ := advance_roundStep h.run h.notice h.all hs
    generalize deliveries s .advance = out at hround ⊢
    cases hround with
    | called hv => exact Or.inl ⟨_, _, h.advance_called hcalling hv rfl hinv⟩
    | turned hlen hnext => exact Or.inl ⟨_, _, h.advance_turned hcalling hlen hnext rfl hinv⟩
    | ended hlen hnext => exact Or.inr ⟨rfl, hcalling, hlen, hnext, rfl, rfl⟩
  | answer result =>
    have hs : answerCall s result = some s' := hs
    unfold answerCall at hs
    rw [h.run] at hs
    dsimp only at hs
    split at hs
    · cases hs
    next hc =>
      have hcalling : r.calling = true := by simpa using hc
      have hlt := h.busy hcalling
      have hv := List.getElem?_eq_getElem hlt
      have hout : deliveries s (.answer result) = [.answered n.nVector[r.k].toSubscriber result] := by
        unfold deliveries
        rw [hround]
        dsimp only
        rw [hv]
        rfl
      rw [hout]
      split at hs
      next hpos =>
        cases Option.some.inj hs
        exact Or.inl ⟨_, _, h.answer hcalling hv hpos rfl hinv⟩
      next hneg =>
        split at hs
        · cases hs
        · rw [h.notice, Option.bind_some, hv, Option.map_some] at hs
          cases Option.some.inj hs
          exact Or.inl ⟨_, _, h.refuse hcalling hv (Int.not_lt.mp hneg) rfl hinv⟩

theorem leaveNotice_round (s : Notices) (i : Nat) (id : NoticeId) (n : SharedNotice) :
    (s.leaveNotice i id n).run.bind (·.round) = none := by
  unfold Notices.leaveNotice
  split <;> rfl

theorem pass_inv (h : NoticesInv s) (hrun : s.run = some ⟨i, none⟩) (hi : s.sNotices[i]? = some id)
    (hn : s.store id = some n) (ht : n.nTrigger = true) (hall : n.nSingle = false)
    (hs : stepNotices s .advance = some s') (hp : (passMachine s').Runs (PassesOver id) u log) :
    u.run.bind (·.round) = none ∨
      ∃ r m, PassInv id n.nQueue.contents (n.nVector.map (·.toSubscriber)) u log i r m := by
  refine hp.invariant (fun u log => u.run.bind (·.round) = none ∨
    ∃ r m, PassInv id n.nQueue.contents (n.nVector.map (·.toSubscriber)) u log i r m)
    (Or.inr (PassInv.entered h hrun hi hn ht hall hs)) ?_
  rintro u log a u' (hleft | ⟨r, m, hinv⟩) hok hstep
  · have hat := hok.1
    rw [hleft] at hat
    cases hat
  · rcases hinv.step hok hstep with hnext | ⟨_, _, _, _, _, rfl⟩
    · exact Or.inr hnext
    · exact Or.inl (leaveNotice_round ..)

/-- All messages were delivered to those who wanted them. -/
theorem Serving.delivered (h : Serving messages w rest done r n) (hk : r.k = 0) (hcalling : r.calling = false)
    (hall : messages.length = done) : DeliveredTo messages w rest (w ∈ n.nVector.map (·.toSubscriber)) := by
  cases h with
  | present hj hjoined hhanded hanswers hpos =>
    have hstint := stint_self hjoined
    rw [if_neg (by simp [hk, hcalling]), Nat.add_zero, ← hall, List.take_length] at hhanded
    rw [if_neg (by simp [hk]), Nat.add_zero] at hanswers
    refine ⟨?_, ?_, fun _ => ⟨hhanded, hjoined, List.mem_of_getElem? hj⟩, ?_⟩
    · rw [hstint, hanswers, ← hall, List.take_length]
      exact hhanded
    · rw [hstint]
      exact fun x hx => hpos x (List.mem_of_mem_dropLast hx)
    · rw [hstint]
      rintro ⟨x, hx, hle⟩
      exact absurd (hpos x hx) (Int.not_lt.mpr hle)
  | parted hanswers hlast hfirst hhanded hgone =>
    refine ⟨?_, ?_, ?_, fun _ => hgone⟩
    · rw [hhanded, hanswers, List.length_append]
      rfl
    · rw [hanswers, List.dropLast_concat]
      exact hfirst
    · rw [hanswers]
      intro hpos
      exact absurd (hpos _ List.mem_concat_self) (Int.not_lt.mpr hlast)

/-- The run is done with the last message. -/
theorem PassInv.finished (h : PassInv id q first s log i r n) (hnext : (n.turnParse r.limit).nParse = none) :
    releases (log ++ (n.nParse.map .released).toList) = q ∧ (parses q).length = (releases log).length + 1 := by
  have hlimit : r.limit ≤ 1 := by
    by_contra hlt
    have hlim := h.limit
    have hparse : (n.turnParse r.limit).nParse = n.nQueue.getHead := by
      rw [SharedNotice.turnParse, if_pos (by omega)]
      rfl
    have hq := congrArg List.head? h.queue
    rw [List.head?_take, if_neg (by omega), List.head?_drop, ← RingQueue.getHead_eq, ← hparse, hnext,
      List.getElem?_eq_getElem (by omega)] at hq
    cases hq
  obtain ⟨hlt, hget⟩ := List.getElem?_eq_some_iff.mp h.parse
  have hlim := h.limit
  have hrel := h.released
  by_cases hq : q = []
  · subst hq
    rw [List.take_nil] at hrel
    have hnone : n.nParse = none := by
      simpa [hrel, parses] using hget.symm
    rw [hnone, hrel]
    exact ⟨by simpa using hrel, rfl⟩
  · have hlen : (parses q).length = q.length := by rw [parses, if_neg hq, List.length_map]
    rw [hlen] at hlt ⊢
    have hparse := h.parse
    rw [parses, if_neg hq, List.getElem?_map, List.getElem?_eq_getElem hlt, Option.map_some] at hparse
    refine ⟨?_, by omega⟩
    rw [releases_append, ← Option.some.inj hparse]
    refine (congrArg (· ++ [q[(releases log).length]]) hrel).trans ?_
    rw [List.take_append_getElem, List.take_of_length_le (by omega)]

theorem subscribers_leave (hsub : (m.nVector.map (·.toSubscriber)) = n.nVector.map (·.toSubscriber)) :
    (s.leaveNotice i id m).subscribers id = n.nVector.map (·.toSubscriber) := by
  unfold Notices.leaveNotice
  split
  next hempty =>
    rw [← hsub, hempty.1, Notices.subscribers]
    simp
  next =>
    rw [Notices.subscribers]
    simp [Notices.putNotice, hsub]

/-- In a pass of a run over a notice that was triggered for all, in whose calls neither
subscribers nor messages are taken from it, each subscriber is called with each message until it
ends its subscription, and each message is let go of once. -/
theorem messages_delivered {ok : Notices → NoticeAction → Prop} {past : List Called}
    (h : noticeMachine.Runs ok s past) (hrun : s.run = some ⟨i, none⟩) (hi : s.sNotices[i]? = some id)
    (hn : s.store id = some n) (ht : n.nTrigger = true) (hall : n.nSingle = false)
    (hs : stepNotices s .advance = some s') (hp : (passMachine s').Runs (PassesOver id) u log)
    (hok : PassesOver id u .advance) (ha : stepNotices u .advance = some t) (hleft : t.run.bind (·.round) = none) :
    ∃ m, u.store id = some m ∧ (t.store id = none ↔ m.nVector = [] ∧ m.nUse = 0) ∧
      releases (log ++ deliveries u .advance) = n.nQueue.contents ∧
      ∀ w b rest, Begun (n.nVector.map (·.toSubscriber)) (log ++ deliveries u .advance) w b rest →
        DeliveredTo ((parses n.nQueue.contents).drop b) w rest (w ∈ t.subscribers id) := by
  rcases pass_inv (notices_inv h) hrun hi hn ht hall hs hp with hout | ⟨r, m, hinv⟩
  · have hat := hok.1
    rw [hout] at hat
    cases hat
  rcases hinv.step hok ha with ⟨r', m', hnext⟩ | ⟨_, hcalling, hlen, hnext, hout, rfl⟩
  · rw [hnext.run] at hleft
    cases hleft
  have hid := hinv.place
  subst hid
  obtain ⟨hreleased, hcount⟩ := hinv.finished hnext
  have hsame := turnParse_nVector m r.limit
  refine ⟨m, hinv.notice, ?_, hout ▸ hreleased, fun w b rest hb => ?_⟩
  · have huse : (m.turnParse r.limit).nUse = m.nUse := by
      unfold SharedNotice.turnParse
      split <;> rfl
    unfold Notices.leaveNotice
    rw [hsame, huse]
    split
    next hempty => simp [hempty]
    next hempty => simpa [Notices.putNotice] using hempty
  · have hsub : (m.turnParse r.limit).nVector.map (·.toSubscriber) = m.nVector.map (·.toSubscriber) := by rw [hsame]
    rw [subscribers_leave hsub]
    rw [hout] at hb
    have hserved : ∃ rest', rest = rest' ++ (m.nParse.map .released).toList ∧
        Begun (n.nVector.map (·.toSubscriber)) log w b rest' := by
      cases hparse : m.nParse with
      | none =>
        rw [hparse] at hb
        simp only [Option.map_none, Option.toList_none, List.append_nil] at hb ⊢
        exact ⟨rest, rfl, hb⟩
      | some p =>
        rw [hparse] at hb
        rcases Begun.snoc hb with ⟨hj, _⟩ | hbegun
        · cases hj
        · exact hbegun
    obtain ⟨rest', rfl, hbegun⟩ := hserved
    have hle := hbegun.bound
    have hturned := (hinv.served w b rest' hbegun).turned hlen hcalling (m := m) rfl m.nParse r.limit
    refine hturned.delivered rfl hcalling ?_
    rw [List.length_drop, hcount]
    omega

/-- A run has begun, where a first notice has been prepared and triggered. -/
def prepared (ops : List NoticeOp) : List NoticeAction :=
  .op (.create none none) :: ops.map .op ++ [.op (.trigger 0), .run]

/-- The notices after some actions. -/
def noticesAfter (actions : List NoticeAction) : Notices :=
  ((noticeMachine.exec noNotices actions).map Prod.fst).getD noNotices

def bothWaiting : List NoticeAction :=
  prepared [.add 0 0 5 7, .add 1 0 5 8, .addParse 0 [textOf "#a"], .addParse 0 [textOf "#b"]]

/-- The second of two clients has enough of a notice with two messages after the first. -/
theorem messages_delivered_two : ∃ log, releases log = [[textOf "#a"], [textOf "#b"]] ∧
    DeliveredTo [some [textOf "#a"], some [textOf "#b"]] ⟨0, 5, 7⟩ log
      (⟨0, 5, 7⟩ ∈ (noticesAfter (bothWaiting ++ [.advance, .advance, .answer 1, .advance, .answer 0, .advance,
        .advance, .answer 1, .advance])).subscribers 0) := by
  have waiting : noticeMachine.Runs (fun _ _ => True) (noticesAfter bothWaiting) [] :=
    Machine.Runs.exec .start bothWaiting rfl (Machine.meets_true _ _ _)
  have h0 : (passMachine (noticesAfter (bothWaiting ++ [.advance]))).Runs (PassesOver 0) _ [] := .start
  have h1 := h0.step (a := .advance) ⟨rfl, trivial⟩ rfl
  have h2 := h1.step (a := .answer 1) ⟨rfl, Or.inl Int.one_pos⟩ rfl
  have h3 := h2.step (a := .advance) ⟨rfl, trivial⟩ rfl
  have h4 := h3.step (a := .answer 0) ⟨rfl, Or.inr fun r hr => by cases hr; rfl⟩ rfl
  have h5 := h4.step (a := .advance) ⟨rfl, trivial⟩ rfl
  have h6 := h5.step (a := .advance) ⟨rfl, trivial⟩ rfl
  have h7 := h6.step (a := .answer 1) ⟨rfl, Or.inl Int.one_pos⟩ rfl
  obtain ⟨m, _, _, hreleased, hdelivered⟩ :=
    messages_delivered waiting rfl rfl rfl rfl rfl rfl h7 ⟨rfl, trivial⟩ rfl rfl
  exact ⟨_, hreleased, hdelivered ⟨0, 5, 7⟩ 0 _ (Or.inl ⟨List.mem_cons_self, rfl, rfl⟩)⟩

def threeWaiting : List NoticeAction :=
  prepared [.add 0 0 5 7, .add 1 0 5 8, .add 2 0 5 9, .addParse 0 [textOf "#a"]]

/-- The second of three clients ends the subscription of the first in its call: the third moves to
a place that the run has passed, and is not called. -/
theorem moved_misses_message : ¬ ∀ (s s' u t : Notices) (id : NoticeId) (n : SharedNotice) (i : Nat)
    (past : List Called) (log : List Delivery), noticeMachine.Runs (fun _ _ => True) s past →
    s.run = some ⟨i, none⟩ → s.sNotices[i]? = some id → s.store id = some n → n.nTrigger = true → n.nSingle = false →
    stepNotices s .advance = some s' →
    (passMachine s').Runs (fun s _ => (s.run.bind (·.round)).map (·.id) = some id) u log →
    (u.run.bind (·.round)).map (·.id) = some id → stepNotices u .advance = some t → t.run.bind (·.round) = none →
    ∀ w b rest, Begun (n.nVector.map (·.toSubscriber)) (log ++ deliveries u .advance) w b rest →
      DeliveredTo ((parses n.nQueue.contents).drop b) w rest (w ∈ t.subscribers id) := by
  intro hall
  have waiting : noticeMachine.Runs (fun _ _ => True) (noticesAfter threeWaiting) [] :=
    Machine.Runs.exec .start threeWaiting rfl (Machine.meets_true _ _ _)
  have h0 : (passMachine (noticesAfter (threeWaiting ++ [.advance]))).Runs
    (fun s _ => (s.run.bind (·.round)).map (·.id) = some 0) _ [] := .start
  have h1 := h0.step (a := .advance) rfl rfl
  have h2 := h1.step (a := .answer 1) rfl rfl
  have h3 := h2.step (a := .advance) rfl rfl
  have h4 := h3.step (a := .op (.remove 0 none 7)) rfl rfl
  have h5 := h4.step (a := .answer 1) rfl rfl
  have hmissed := hall _ _ _ _ 0 _ _ _ _ waiting rfl rfl rfl rfl rfl rfl h5 rfl rfl rfl ⟨2, 5, 9⟩ 0 _
    (Or.inl ⟨by decide, rfl, rfl⟩)
  have hhanded := (hmissed.kept fun x hx => by cases hx).1
  cases hhanded

/-- Between calls a run goes on, and after a call it does unless the code is about to read what
the call has moved. -/
theorem PassInv.goes_on (h : PassInv id q first s log i r n) :
    (r.calling = false → ∃ s', stepNotices s .advance = some s') ∧
    ∀ result, r.calling = true → 0 < result ∨ r.moved = false → ∃ s', stepNotices s (.answer result) = some s' := by
  refine ⟨fun hcalling => ?_, fun result hcalling hok => ?_⟩
  · simp [stepNotices, advanceRun, h.run, stepRound, hcalling, h.notice]
  · have hlt := h.busy hcalling
    unfold stepNotices answerCall
    rw [h.run]
    dsimp only
    rw [hcalling, if_neg (by simp)]
    split
    · exact ⟨_, rfl⟩
    next hneg =>
      rw [if_neg (by simp [hok.resolve_left hneg]), h.notice, Option.bind_some, List.getElem?_eq_getElem hlt]
      exact ⟨_, rfl⟩

/-- What takes away from a notice. -/
def Taking (id : NoticeId) : NoticeOp → Prop
  | .remove k _ _ => k = id
  | .setParse k _ => k = id
  | .removeParse k => k = id
  | .disown _ => True
  | _ => False

theorem Spares.keep (h : ∀ r n, roundOf s = some (r, n) → s'.store r.id = some n) : Spares s s' :=
  fun r n hround => ⟨n, h r n hround, rfl, rfl, List.prefix_refl _⟩

theorem onNotice_spares {k : NoticeId} {f : SharedNotice → SharedNotice} (hs : s.onNotice k f = some s')
    (hf : ∀ n, (f n).nParse = n.nParse ∧ (f n).nVector.map (·.toSubscriber) = n.nVector.map (·.toSubscriber))
    (hqueue : ∀ r n, roundOf s = some (r, n) → r.id = k →
      (f n).nQueue.contents.take (r.limit - 1) = n.nQueue.contents.take (r.limit - 1)) : Spares s s' := by
  obtain ⟨n, hn, rfl⟩ := onNotice_some hs
  intro r x hround
  obtain ⟨_, hx⟩ := roundOf_some.mp hround
  by_cases hk : r.id = k
  · have he := hk ▸ hx
    rw [hn] at he
    cases he
    subst hk
    exact ⟨f n, Function.update_self .., (hf n).1, hqueue r n hround rfl, by rw [(hf n).2]⟩
  · exact ⟨x, (Function.update_of_ne hk _ _).trans hx, rfl, rfl, List.prefix_refl _⟩

/-- The messages that are still to be delivered come first in the queue. -/
theorem PassInv.take_append (h : PassInv id q first s log i r n) (p : Words) :
    (n.nQueue.contents ++ [p]).take (r.limit - 1) = n.nQueue.contents.take (r.limit - 1) := by
  have hlen := congrArg List.length h.queue
  have hlim := h.limit
  rw [List.length_take, List.length_drop] at hlen
  exact List.take_append_of_le_length (by omega)

/-- A call that takes nothing from the notice spares it: it may add messages, subscribers and
notices, and do anything with other notices. -/
theorem PassInv.spares {o : NoticeOp} (h : PassInv id q first s log i r n) (ho : ¬ Taking id o)
    (hs : noticeOp s o = some s') : Spares s s' := by
  have hround : ∀ r' n', roundOf s = some (r', n') → r' = r ∧ n' = n := by
    intro r' n' hround
    obtain ⟨hr, hn⟩ := roundOf_some.mp hround
    rw [h.run] at hr
    cases Option.some.inj hr
    rw [h.notice] at hn
    cases hn
    exact ⟨rfl, rfl⟩
  have hother : ∀ {k f}, k ≠ id → s.onNotice k f = some s' → Spares s s' := by
    intro k f hk hs
    obtain ⟨x, _, rfl⟩ := onNotice_some hs
    refine .keep fun r' n' hr => ?_
    obtain ⟨rfl, rfl⟩ := hround r' n' hr
    exact (Function.update_of_ne (h.place.trans_ne hk.symm) _ _).trans h.notice
  have hadd : ∀ {k p t}, s.onNotice k (·.addParse p) = some t → Spares s t := by
    intro k p t hs
    refine onNotice_spares hs (fun n => ⟨rfl, rfl⟩) fun r' n' hr _ => ?_
    obtain ⟨rfl, rfl⟩ := hround r' n' hr
    change (n'.nQueue.addTail p).contents.take _ = _
    rw [RingQueue.contents_addTail]
    exact h.take_append p
  cases o with
  | create name p =>
    cases hs
    unfold createSharedNotice
    split
    next k _ =>
      cases hp : p.bind fun p => s.onNotice k (·.addParse p) with
      | none => exact .keep fun r' n' hr => (roundOf_some.mp hr).2
      | some t =>
        obtain ⟨p, _, ht⟩ := Option.bind_eq_some_iff.mp hp
        exact hadd ht
    next =>
      refine .keep fun r' n' hr => ?_
      obtain ⟨rfl, rfl⟩ := hround r' n' hr
      exact (Function.update_of_ne (Nat.ne_of_lt (h.inv.below _ n' h.notice)) _ _).trans h.notice
  | add d k call data =>
    obtain ⟨x, hx, hs⟩ := Option.map_eq_some_iff.mp hs
    split at hs
    · cases hs
      exact .keep fun r' n' hr => (roundOf_some.mp hr).2
    · cases hs
      intro r' n' hr
      obtain ⟨_, hn'⟩ := roundOf_some.mp hr
      by_cases hk : r'.id = k
      · subst hk
        rw [hx] at hn'
        cases hn'
        exact ⟨_, Function.update_self .., rfl, rfl, by simp⟩
      · exact ⟨n', (Function.update_of_ne hk _ _).trans hn', rfl, rfl, List.prefix_refl _⟩
  | remove k call data =>
    obtain ⟨x, hx, hs⟩ := Option.map_eq_some_iff.mp hs
    refine .keep fun r' n' hr => ?_
    obtain ⟨rfl, rfl⟩ := hround r' n' hr
    split at hs
    · cases hs
      exact h.notice
    · cases hs
      exact (Function.update_of_ne (h.place.trans_ne (Ne.symm ho)) _ _).trans h.notice
  | trigger => exact onNotice_spares hs (fun n => ⟨rfl, rfl⟩) fun _ _ _ _ => rfl
  | triggerSingle k data =>
    exact onNotice_spares hs (fun n => ⟨rfl, triggerSingle_subscribers n data⟩) fun _ _ _ _ => rfl
  | setParse => exact hother ho hs
  | addParse => exact hadd hs
  | removeParse => exact hother ho hs
  | hold => exact onNotice_spares hs (fun n => ⟨rfl, rfl⟩) fun _ _ _ _ => rfl
  | release => exact onNotice_spares hs (fun n => ⟨rfl, rfl⟩) fun _ _ _ _ => rfl
  | disown => exact absurd trivial ho

end

end Katcp
