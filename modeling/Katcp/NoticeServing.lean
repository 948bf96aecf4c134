import Katcp.NoticeRun
import Mathlib.Data.List.TakeWhile

namespace Katcp

section

open SwapVector

/-- What happens to a notice while a run is at it: a client subscribes, a subscriber is called
with a message and answers, and a message is let go of. -/
inductive Delivery
  | joined (w : Subscriber)
  | handed (w : Subscriber) (p : Option Words)
  | answered (w : Subscriber) (result : Int)
  | released (p : Words)
deriving DecidableEq

/-- The triggered notice that the run is at. -/
def roundOf (s : Notices) : Option (NoticeRound × SharedNotice) :=
  (s.run.bind (·.round)).bind fun r => (s.store r.id).map (r, ·)

def deliveries (s : Notices) : NoticeAction → List Delivery
  | .op (.add d id call data) =>
    match roundOf s with
    | none => []
    | some (r, n) =>
      if r.id ≠ id ∨ n.nVector.any fun v => v.vCall = call && v.vData = data then [] else [.joined ⟨d, call, data⟩]
  | .advance =>
    match roundOf s with
    | none => []
    | some (r, n) =>
      match due n r with
      | some v => [.handed v.toSubscriber n.nParse]
      | none => if r.k < n.nVector.length then [] else (n.nParse.map .released).toList
  | .answer result =>
    match roundOf s with
    | none => []
    | some (r, n) => ((n.nVector[r.k]?).map fun v => .answered v.toSubscriber result).toList
  | _ => []

/-- A run from the state in which it has come to a notice. -/
def passMachine (s : Notices) : Machine Notices NoticeAction Delivery := ⟨s, stepNotices, deliveries⟩

/-- What is done in a call takes from the notice neither a subscriber nor a message that is still
to be delivered. -/
def Spares (s s' : Notices) : Prop :=
  ∀ r n, roundOf s = some (r, n) → ∃ m, s'.store r.id = some m ∧ m.nParse = n.nParse ∧
    m.nQueue.contents.take (r.limit - 1) = n.nQueue.contents.take (r.limit - 1) ∧
    n.nVector.map (·.toSubscriber) <+: m.nVector.map (·.toSubscriber)

/-- The run is still at this notice, which the calls spare, and none ends its own subscription
after it has added another. -/
def PassesOver (id : NoticeId) (s : Notices) (a : NoticeAction) : Prop :=
  (s.run.bind (·.round)).map (·.id) = some id ∧
  match a with
  | .op o => ∀ s', noticeOp s o = some s' → Spares s s'
  | .answer result => 0 < result ∨ ∀ r, s.run.bind (·.round) = some r → r.moved = false
  | _ => True

def handedTo (w : Subscriber) (log : List Delivery) : List (Option Words) :=
  log.filterMap fun
    | .handed v p => if v = w then some p else none
    | _ => none

def answersOf (w : Subscriber) (log : List Delivery) : List Int :=
  log.filterMap fun
    | .answered v result => if v = w then some result else none
    | _ => none

def releases (log : List Delivery) : List Words :=
  log.filterMap fun
    | .released p => some p
    | _ => none

/-- The subscribers of a notice that has no message are called once, without one. -/
def parses (q : List Words) : List (Option Words) := if q = [] then [none] else q.map some

/-- The part before the client subscribes anew with the same call and data. -/
def stint (w : Subscriber) (log : List Delivery) : List Delivery :=
  log.takeWhile fun e => e ≠ .joined w

/-- How a subscription went to which these messages were delivered: each message was handed over
in order until an answer that was not positive, which ended it. -/
structure DeliveredTo (messages : List (Option Words)) (w : Subscriber) (log : List Delivery) (present : Prop) :
    Prop where
  handed : handedTo w (stint w log) = messages.take (answersOf w (stint w log)).length
  going : ∀ result ∈ (answersOf w (stint w log)).dropLast, 0 < result
  kept : (∀ result ∈ answersOf w (stint w log), 0 < result) →
    handedTo w log = messages ∧ Delivery.joined w ∉ log ∧ present
  ended : (∃ result ∈ answersOf w (stint w log), result ≤ 0) → present → Delivery.joined w ∈ log

variable {s s' : Notices} {id : NoticeId} {n m : SharedNotice} {r : NoticeRound} {w : Subscriber}
  {log out : List Delivery} {i : Nat}

theorem roundOf_some : roundOf s = some (r, n) ↔ s.run.bind (·.round) = some r ∧ s.store r.id = some n := by
  unfold roundOf
  constructor
  · intro h
    obtain ⟨r', hr, h⟩ := Option.bind_eq_some_iff.mp h
    obtain ⟨n', hn, he⟩ := Option.map_eq_some_iff.mp h
    cases he
    exact ⟨hr, hn⟩
  · rintro ⟨hr, hn⟩
    rw [hr, Option.bind_some, hn, Option.map_some]

theorem handedTo_append (w : Subscriber) (log out : List Delivery) :
    handedTo w (log ++ out) = handedTo w log ++ handedTo w out := List.filterMap_append

theorem answersOf_append (w : Subscriber) (log out : List Delivery) :
    answersOf w (log ++ out) = answersOf w log ++ answersOf w out := List.filterMap_append

theorem releases_append (log out : List Delivery) : releases (log ++ out) = releases log ++ releases out :=
  List.filterMap_append

theorem stint_self (h : Delivery.joined w ∉ log) : stint w log = log := by
  refine List.takeWhile_eq_self_iff.mpr fun e he => ?_
  simpa using fun hj : e = .joined w => h (hj ▸ he)

theorem stint_of_notMem (h : Delivery.joined w ∉ log) (out : List Delivery) :
    stint w (log ++ out) = log ++ stint w out := by
  refine List.takeWhile_append_of_pos fun e he => ?_
  simpa using fun hj : e = .joined w => h (hj ▸ he)

theorem stint_of_mem (h : Delivery.joined w ∈ log) (out : List Delivery) :
    stint w (log ++ out) = stint w log := by
  unfold stint
  rw [List.takeWhile_append, if_neg]
  intro hall
  have htake := (List.takeWhile_prefix (fun e => decide (e ≠ Delivery.joined w)) (l := log)).eq_of_length hall
  rw [← htake] at h
  simpa using List.mem_takeWhile_imp h

/-- A run that is done with a message, and the notice with the next. -/
inductive RoundStep (s : Notices) (i : Nat) (r : NoticeRound) (n : SharedNotice) : Notices → List Delivery → Prop
  | called {v : Invoke} : n.nVector[r.k]? = some v →
      RoundStep s i r n { s.putNotice r.id { n with nVector := n.nVector.set r.k { v with vTrigger := false } } with
        run := some ⟨i, some { r with calling := true, moved := false }⟩ } [.handed v.toSubscriber n.nParse]
  | turned : n.nVector.length ≤ r.k → (n.turnParse r.limit).nParse.isSome →
      RoundStep s i r n { s.putNotice r.id (n.turnParse r.limit) with
        run := some ⟨i, some { r with limit := r.limit - 1, k := 0 }⟩ } (n.nParse.map .released).toList
  | ended : n.nVector.length ≤ r.k → (n.turnParse r.limit).nParse = none →
      RoundStep s i r n (s.leaveNotice i r.id (n.turnParse r.limit)) (n.nParse.map .released).toList

theorem advance_roundStep (hrun : s.run = some ⟨i, some r⟩) (hn : s.store r.id = some n)
    (hall : r.single = false) (hs : stepNotices s .advance = some s') :
    r.calling = false ∧ RoundStep s i r n s' (deliveries s .advance) := by
  have hround : roundOf s = some (r, n) := roundOf_some.mpr ⟨by rw [hrun]; rfl, hn⟩
  have hs : stepRound s i r = some s' := by
    simpa [stepNotices, advanceRun, hrun] using hs
  unfold stepRound at hs
  split at hs
  · cases hs
  next hcalling =>
    refine ⟨by simpa using hcalling, ?_⟩
    rw [hn, Option.map_some] at hs
    have hdue : due n r = n.nVector[r.k]? := by
      unfold due
      cases n.nVector[r.k]? with
      | none => rfl
      | some v => simp [hall]
    unfold deliveries
    rw [hround]
    dsimp only
    rw [hdue] at hs ⊢
    cases hv : n.nVector[r.k]? with
    | some v =>
      rw [hv] at hs
      cases hs
      exact .called hv
    | none =>
      have hlen : n.nVector.length ≤ r.k := List.getElem?_eq_none_iff.mp hv
      rw [hv] at hs
      dsimp only at hs ⊢
      rw [if_neg (Nat.not_lt_of_le hlen)] at hs ⊢
      cases hs
      unfold endRound
      split
      next hnext => exact .turned hlen hnext
      next hnext => exact .ended hlen (by simpa using hnext)

end

section

open SwapVector

variable {s s' t : Notices} {id k : NoticeId} {n m : SharedNotice} {r : NoticeRound} {w : Subscriber}
  {d : ClientId} {i : Nat}

/-- Nobody subscribes to this notice, and the run stays where it is. -/
def NoLonger (id : NoticeId) (s s' : Notices) : Prop :=
  s'.run = s.run ∧ ∀ n, s.store id = some n → ∃ m, s'.store id = some m ∧ m.nVector.length ≤ n.nVector.length

theorem NoLonger.refl (id : NoticeId) (s : Notices) : NoLonger id s s :=
  ⟨rfl, fun n hn => ⟨n, hn, Nat.le_refl _⟩⟩

theorem NoLonger.trans (h : NoLonger id s s') (h' : NoLonger id s' t) : NoLonger id s t := by
  refine ⟨h'.1.trans h.1, fun n hn => ?_⟩
  obtain ⟨m, hm, hle⟩ := h.2 n hn
  obtain ⟨x, hx, hle'⟩ := h'.2 m hm
  exact ⟨x, hx, Nat.le_trans hle' hle⟩

theorem NoLonger.put (hn : s.store k = some n) (hm : m.nVector.length ≤ n.nVector.length)
    (hstore : s'.store = Function.update s.store k (some m)) (hrun : s'.run = s.run) : NoLonger id s s' := by
  refine ⟨hrun, fun x hx => ?_⟩
  rw [hstore, Function.update_apply]
  split
  next hk =>
    rw [hk, hn] at hx
    cases hx
    exact ⟨m, rfl, hm⟩
  next => exact ⟨x, hx, Nat.le_refl _⟩

theorem onNotice_noLonger {f : SharedNotice → SharedNotice} (hs : s.onNotice k f = some s')
    (hf : ∀ n, (f n).nVector.length ≤ n.nVector.length) : NoLonger id s s' := by
  obtain ⟨n, hn, rfl⟩ := onNotice_some hs
  exact .put hn (hf n) rfl rfl

theorem noticeCompact_length (n : SharedNotice) (d : ClientId) :
    (n.noticeCompact d).nVector.length ≤ n.nVector.length := by
  have hperm := (noticeCompact_subscribers n d).length_eq
  have hfilter := List.length_filter_le (fun v : Subscriber => !(v.vClient = d)) (n.nVector.map (·.toSubscriber))
  rw [List.length_map] at hperm hfilter
  omega

theorem compactAll_noLonger {ids : List NoticeId}
    (hs : ids.foldlM (fun (t : Notices) id => t.onNotice id (·.noticeCompact d)) s = some s') :
    NoLonger id s s' := by
  induction ids generalizing s with
  | nil =>
    cases hs
    exact .refl id _
  | cons k rest ih =>
    rw [List.foldlM_cons] at hs
    obtain ⟨s1, hone, hs⟩ := Option.bind_eq_some_iff.mp hs
    exact (onNotice_noLonger hone fun n => noticeCompact_length n d).trans (ih hs)

theorem createSharedNotice_noLonger (h : NoticesInv s) (name : Option Text) (p : Option Words) :
    NoLonger id s (createSharedNotice s name p) := by
  unfold createSharedNotice
  split
  next k hk =>
    cases hp : p.bind fun p => s.onNotice k (·.addParse p) with
    | none => exact .refl id s
    | some t =>
      obtain ⟨p, _, ht⟩ := Option.bind_eq_some_iff.mp hp
      exact onNotice_noLonger ht fun n => Nat.le_refl _
  next =>
    refine ⟨rfl, fun n hn => ⟨n, ?_, Nat.le_refl _⟩⟩
    exact (Function.update_of_ne (Nat.ne_of_lt (h.below id n hn)) _ _).trans hn

/-- Who subscribes to the notice that the run is at. -/
def joiners (log : List Delivery) : List Subscriber :=
  log.filterMap fun
    | .joined w => some w
    | _ => none

theorem noticeOp_joins {o : NoticeOp} (h : NoticesInv s) (hrun : s.run = some ⟨i, some r⟩)
    (hn : s.store r.id = some n) (hs : noticeOp s o = some s') :
    deliveries s (.op o) = [] ∧ NoLonger r.id s s' ∨
    ∃ v, deliveries s (.op o) = [.joined v] ∧ (∀ x ∈ n.nVector, x.key ≠ v.key) ∧
      s'.store r.id = some { n with nVector := n.nVector ++ [⟨v, false⟩] } ∧ s'.run = s.run.map (·.moved r.id) := by
  have hround : roundOf s = some (r, n) := roundOf_some.mpr ⟨by rw [hrun]; rfl, hn⟩
  cases o with
  | create name p =>
    cases hs
    exact Or.inl ⟨rfl, createSharedNotice_noLonger h name p⟩
  | add d k call data =>
    obtain ⟨x, hx, hs⟩ := Option.map_eq_some_iff.mp hs
    unfold deliveries
    rw [hround]
    dsimp only
    split at hs
    next hold =>
      cases hs
      refine Or.inl ⟨?_, .refl _ s⟩
      by_cases hk : r.id = k
      · subst hk
        rw [hn] at hx
        cases hx
        rw [if_pos (Or.inr hold)]
      · rw [if_pos (Or.inl hk)]
    next hnew =>
      cases hs
      by_cases hk : r.id = k
      · subst hk
        rw [hn] at hx
        cases hx
        refine Or.inr ⟨⟨d, call, data⟩, ?_, fun v hv hkey => ?_, Function.update_self .., rfl⟩
        · rw [if_neg (by simpa using hnew)]
        · refine hnew (List.any_eq_true.mpr ⟨v, hv, ?_⟩)
          simpa [Subscriber.key] using hkey
      · rw [if_pos (Or.inl hk)]
        refine Or.inl ⟨rfl, ?_, fun v hv => ⟨v, (Function.update_of_ne hk _ _).trans hv, Nat.le_refl _⟩⟩
        simp [hrun, NoticeRun.moved, hk]
  | remove k call data =>
    obtain ⟨x, hx, hs⟩ := Option.map_eq_some_iff.mp hs
    refine Or.inl ⟨rfl, ?_⟩
    split at hs
    · cases hs
      exact .refl _ s
    next j v hf =>
      cases hs
      refine .put hx ?_ rfl rfl
      rw [removeAt_length]
      exact Nat.sub_le _ _
  | trigger => exact Or.inl ⟨rfl, onNotice_noLonger hs fun n => Nat.le_refl _⟩
  | triggerSingle => exact Or.inl ⟨rfl, onNotice_noLonger hs fun n => Nat.le_of_eq (List.length_map _)⟩
  | setParse k p => exact Or.inl ⟨rfl, onNotice_noLonger hs fun n => by rw [setParse_nVector]⟩
  | addParse => exact Or.inl ⟨rfl, onNotice_noLonger hs fun n => Nat.le_refl _⟩
  | removeParse => exact Or.inl ⟨rfl, onNotice_noLonger hs fun n => Nat.le_refl _⟩
  | hold => exact Or.inl ⟨rfl, onNotice_noLonger hs fun n => Nat.le_refl _⟩
  | release => exact Or.inl ⟨rfl, onNotice_noLonger hs fun n => Nat.le_refl _⟩
  | disown d =>
    obtain ⟨t, ht, rfl⟩ := Option.map_eq_some_iff.mp hs
    have hsame : NoLonger r.id s t := compactAll_noLonger ht
    exact Or.inl ⟨rfl, hsame.1, hsame.2⟩

/-- What a spared notice is after something was done in a call. -/
structure Spared (r : NoticeRound) (n m : SharedNotice) (joined : List Subscriber) : Prop where
  parse : m.nParse = n.nParse
  queue : m.nQueue.contents.take (r.limit - 1) = n.nQueue.contents.take (r.limit - 1)
  subscribers : m.nVector.map (·.toSubscriber) = n.nVector.map (·.toSubscriber) ++ joined

theorem noticeOp_spared {o : NoticeOp} (h : NoticesInv s) (hrun : s.run = some ⟨i, some r⟩)
    (hn : s.store r.id = some n) (hsp : Spares s s') (hs : noticeOp s o = some s') :
    ∃ m moved, s'.store r.id = some m ∧ s'.run = some ⟨i, some { r with moved := moved }⟩ ∧
      Spared r n m (joiners (deliveries s (.op o))) ∧
      ((deliveries s (.op o) = []) ∨ ∃ v, deliveries s (.op o) = [.joined v] ∧ ∀ x ∈ n.nVector, x.key ≠ v.key) := by
  have hround : roundOf s = some (r, n) := roundOf_some.mpr ⟨by rw [hrun]; rfl, hn⟩
  obtain ⟨m, hm, hparse, hqueue, more, hmore⟩ := hsp r n hround
  rcases noticeOp_joins h hrun hn hs with ⟨hnone, hsame, hle⟩ | ⟨v, hjoin, hnew, hstore, hmoved⟩
  · obtain ⟨x, hx, hle⟩ := hle n hn
    rw [hm] at hx
    cases hx
    have hnil : more = [] := by
      have hlen := congrArg List.length hmore
      rw [List.length_append, List.length_map, List.length_map] at hlen
      exact List.length_eq_zero_iff.mp (by omega)
    refine ⟨m, r.moved, hm, hsame.trans hrun, ⟨hparse, hqueue, ?_⟩, Or.inl hnone⟩
    rw [← hmore, hnil, hnone]
    rfl
  · rw [hm] at hstore
    cases hstore
    refine ⟨_, (r.moved || r.id = r.id), hm, ?_, ⟨hparse, hqueue, ?_⟩, Or.inr ⟨v, hjoin, hnew⟩⟩
    · rw [hmoved, hrun]
      rfl
    · rw [hjoin]
      simp [joiners]

end

section

open SwapVector

variable {n m : SharedNotice} {r : NoticeRound} {w : Subscriber} {v : Invoke} {messages : List (Option Words)}
  {rest out : List Delivery} {done : Nat} {result : Int}

/-- How far a client is that subscribed in front of these messages, of which all subscribers
were called with the first ones. -/
inductive Serving (messages : List (Option Words)) (w : Subscriber) (rest : List Delivery) (done : Nat)
    (r : NoticeRound) (n : SharedNotice) : Prop
  | present {j : Nat} : (n.nVector.map (·.toSubscriber))[j]? = some w → Delivery.joined w ∉ rest →
      handedTo w rest = messages.take (done + if j < r.k ∨ j = r.k ∧ r.calling = true then 1 else 0) →
      (answersOf w rest).length = done + (if j < r.k then 1 else 0) → (∀ x ∈ answersOf w rest, 0 < x) →
      Serving messages w rest done r n
  | parted {first : List Int} {last : Int} : answersOf w (stint w rest) = first ++ [last] → last ≤ 0 →
      (∀ x ∈ first, 0 < x) → handedTo w (stint w rest) = messages.take (first.length + 1) →
      (w ∈ n.nVector.map (·.toSubscriber) → Delivery.joined w ∈ rest) → Serving messages w rest done r n

/-- What becomes of those who have done, as long as nobody is called in their name. -/
theorem Serving.stay {r' : NoticeRound} {done' : Nat} {first : List Int} {last : Int}
    (hanswers : answersOf w (stint w rest) = first ++ [last]) (hlast : last ≤ 0) (hfirst : ∀ x ∈ first, 0 < x)
    (hhanded : handedTo w (stint w rest) = messages.take (first.length + 1))
    (hgone : w ∈ n.nVector.map (·.toSubscriber) → Delivery.joined w ∈ rest)
    (hout : w ∉ n.nVector.map (·.toSubscriber) → Delivery.joined w ∉ out →
      handedTo w out = [] ∧ answersOf w out = [])
    (hsub : w ∈ m.nVector.map (·.toSubscriber) → w ∈ n.nVector.map (·.toSubscriber) ∨ Delivery.joined w ∈ out)
    (hbegin : Delivery.joined w ∈ out → stint w out = []) :
    Serving messages w (rest ++ out) done' r' m := by
  have hmem : w ∈ m.nVector.map (·.toSubscriber) → Delivery.joined w ∈ rest ++ out := by
    intro hm
    rw [List.mem_append]
    exact (hsub hm).imp_left hgone
  by_cases hjoined : Delivery.joined w ∈ rest
  · refine @Serving.parted _ _ _ _ _ _ first last ?_ hlast hfirst ?_ hmem
    · rw [stint_of_mem hjoined]
      exact hanswers
    · rw [stint_of_mem hjoined]
      exact hhanded
  · have hempty : handedTo w (stint w out) = [] ∧ answersOf w (stint w out) = [] := by
      by_cases hjoin : Delivery.joined w ∈ out
      · rw [hbegin hjoin]
        exact ⟨rfl, rfl⟩
      · rw [stint_self hjoin]
        exact hout (fun hw => hjoined (hgone hw)) hjoin
    rw [stint_self hjoined] at hanswers hhanded
    refine @Serving.parted _ _ _ _ _ _ first last ?_ hlast hfirst ?_ hmem
    · rw [stint_of_notMem hjoined, answersOf_append, hempty.2, List.append_nil]
      exact hanswers
    · rw [stint_of_notMem hjoined, handedTo_append, hempty.1, List.append_nil]
      exact hhanded

theorem subscriber_at (hv : n.nVector[r.k]? = some v) :
    (n.nVector.map (·.toSubscriber))[r.k]? = some v.toSubscriber := by
  rw [List.getElem?_map, hv, Option.map_some]

/-- Another subscriber than the one at this place. -/
theorem other_subscriber (hnodup : (n.nVector.map (·.toSubscriber)).Nodup) (hv : n.nVector[r.k]? = some v) {j : Nat}
    (hj : (n.nVector.map (·.toSubscriber))[j]? = some w) (hne : j ≠ r.k) : v.toSubscriber ≠ w := by
  intro he
  obtain ⟨hlt, _⟩ := List.getElem?_eq_some_iff.mp hj
  have hk := subscriber_at hv
  rw [he, ← hj] at hk
  exact hne ((List.getElem?_inj hlt hnodup).mp hk.symm)

theorem Serving.called (h : Serving messages w rest done r n) (hnodup : (n.nVector.map (·.toSubscriber)).Nodup)
    (hcalling : r.calling = false) (hv : n.nVector[r.k]? = some v) (hparse : messages[done]? = some n.nParse) :
    Serving messages w (rest ++ [.handed v.toSubscriber n.nParse]) done { r with calling := true, moved := false }
      { n with nVector := n.nVector.set r.k { v with vTrigger := false } } := by
  have hsubs := set_trigger_subscribers hv false
  cases h with
  | @present j hj hjoined hhanded hanswers hpos =>
    refine .present (j := j) (by rw [hsubs]; exact hj) (by simpa using hjoined) ?_ ?_ ?_
    · rw [handedTo_append, hhanded]
      by_cases hjk : j = r.k
      · subst hjk
        have hw : v.toSubscriber = w := by
          have hk := subscriber_at hv
          rw [hj] at hk
          exact (Option.some.inj hk).symm
        simp only [hcalling, Nat.lt_irrefl, false_or, and_false, Bool.false_eq_true, if_false, Nat.add_zero, and_true,
          if_true, handedTo, List.filterMap_cons, hw, List.filterMap_nil]
        rw [List.take_add_one, hparse]
        rfl
      · have hne := other_subscriber hnodup hv hj hjk
        simp [handedTo, hne, hjk, hcalling]
    · simpa [answersOf] using hanswers
    · simpa [answersOf] using hpos
  | @parted first last hanswers hlast hfirst hhanded hgone =>
    refine .stay hanswers hlast hfirst hhanded hgone ?_ ?_ (by simp)
    · intro hw _
      have hne : v.toSubscriber ≠ w := by
        rintro rfl
        exact hw (List.mem_of_getElem? (subscriber_at hv))
      simp [handedTo, answersOf, hne]
    · intro hm
      rw [hsubs] at hm
      exact Or.inl hm

/-- All were called with the message, and the next one is taken. -/
theorem Serving.turned (h : Serving messages w rest done r n) (hlen : n.nVector.length ≤ r.k)
    (hcalling : r.calling = false) (hsubs : m.nVector.map (·.toSubscriber) = n.nVector.map (·.toSubscriber))
    (p : Option Words) (limit : Nat) :
    Serving messages w (rest ++ (p.map .released).toList) (done + 1) { r with limit := limit, k := 0 } m := by
  have hout : handedTo w (p.map Delivery.released).toList = [] ∧ answersOf w (p.map Delivery.released).toList = [] ∧
      Delivery.joined w ∉ (p.map Delivery.released).toList := by
    cases p <;> simp [handedTo, answersOf]
  obtain ⟨hno, hnoanswer, hnojoin⟩ := hout
  cases h with
  | @present j hj hjoined hhanded hanswers hpos =>
    obtain ⟨hlt, _⟩ := List.getElem?_eq_some_iff.mp hj
    rw [List.length_map] at hlt
    have hjk : j < r.k := Nat.lt_of_lt_of_le hlt hlen
    rw [if_pos (Or.inl hjk)] at hhanded
    rw [if_pos hjk] at hanswers
    refine .present (j := j) (by rw [hsubs]; exact hj) ?_ ?_ ?_ ?_
    · rw [List.mem_append]
      exact fun hj => hj.elim hjoined hnojoin
    · rw [handedTo_append, hno, hhanded]
      simp [hcalling]
    · rw [answersOf_append, hnoanswer, List.append_nil, hanswers]
      simp
    · rw [answersOf_append, hnoanswer, List.append_nil]
      exact hpos
  | @parted first last hanswers hlast hfirst hhanded hgone =>
    exact .stay hanswers hlast hfirst hhanded hgone (fun _ _ => ⟨hno, hnoanswer⟩)
      (fun hm => Or.inl (hsubs ▸ hm)) (fun hj => absurd hj hnojoin)

/-- The subscriber that was called is kept. -/
theorem Serving.answered (h : Serving messages w rest done r n) (hnodup : (n.nVector.map (·.toSubscriber)).Nodup)
    (hcalling : r.calling = true) (hv : n.nVector[r.k]? = some v) (hpos : 0 < result) :
    Serving messages w (rest ++ [.answered v.toSubscriber result]) done { r with k := r.k + 1, calling := false } n := by
  cases h with
  | @present j hj hjoined hhanded hanswers hall =>
    refine .present (j := j) hj (by simpa using hjoined) ?_ ?_ ?_
    · rw [handedTo_append, hhanded]
      by_cases hjk : j = r.k
      · simp [hjk, hcalling, handedTo]
      · have hlt : j < r.k + 1 ↔ j < r.k := by omega
        simp [hjk, hlt, handedTo]
    · rw [answersOf_append, List.length_append, hanswers]
      by_cases hjk : j = r.k
      · subst hjk
        have hw : v.toSubscriber = w := by
          have hk := subscriber_at hv
          rw [hj] at hk
          exact (Option.some.inj hk).symm
        simp [answersOf, hw]
      · have hne := other_subscriber hnodup hv hj hjk
        have hlt : j < r.k + 1 ↔ j < r.k := by omega
        simp [answersOf, hne, hlt]
    · intro x hx
      rw [answersOf_append, List.mem_append] at hx
      rcases hx with hx | hx
      · exact hall x hx
      · obtain ⟨e, he, hex⟩ := List.mem_filterMap.mp hx
        rw [List.mem_singleton] at he
        subst he
        dsimp only at hex
        split at hex
        · cases hex
          exact hpos
        · cases hex
  | @parted first last hanswers hlast hfirst hhanded hgone =>
    refine .stay hanswers hlast hfirst hhanded hgone ?_ Or.inl (by simp)
    intro hw _
    have hne : v.toSubscriber ≠ w := by
      rintro rfl
      exact hw (List.mem_of_getElem? (subscriber_at hv))
    simp [handedTo, answersOf, hne]

theorem removeAt_other {α : Type*} {xs : List α} {i j : Nat} {x : α} (hi : i < xs.length) (hj : xs[j]? = some x)
    (hne : j ≠ i) : ∃ p, (removeAt xs i)[p]? = some x ∧ (p = j ∨ p = i ∧ i < j) := by
  obtain ⟨hlt, _⟩ := List.getElem?_eq_some_iff.mp hj
  by_cases hend : j + 1 < xs.length
  · exact ⟨j, by rw [getElem?_removeAt hi, if_pos hend, if_neg hne, hj], Or.inl rfl⟩
  · -- the last one moves into the gap
    have hij : i < j := by omega
    refine ⟨i, ?_, Or.inr ⟨rfl, hij⟩⟩
    rw [getElem?_removeAt hi, if_pos (by omega), if_pos rfl, List.getLast?_eq_getElem?, ← hj]
    congr 1
    omega

/-- The subscription of the one that was called ends. -/
theorem Serving.refused (h : Serving messages w rest done r n) (hnodup : (n.nVector.map (·.toSubscriber)).Nodup)
    (hcalling : r.calling = true) (hv : n.nVector[r.k]? = some v) (hneg : result ≤ 0) :
    Serving messages w (rest ++ [.answered v.toSubscriber result]) done { r with calling := false }
      { n with nVector := removeAt n.nVector r.k } := by
  have hsubs : (removeAt n.nVector r.k).map (·.toSubscriber) = removeAt (n.nVector.map (·.toSubscriber)) r.k :=
    removeAt_map _ _ _
  have hgone := mem_removeAt_iff hnodup (subscriber_at hv)
  cases h with
  | @present j hj hjoined hhanded hanswers hall =>
    by_cases hjk : j = r.k
    · subst hjk
      have hw : v.toSubscriber = w := by
        have hk := subscriber_at hv
        rw [hj] at hk
        exact (Option.some.inj hk).symm
      rw [if_pos (Or.inr ⟨rfl, hcalling⟩)] at hhanded
      rw [if_neg (Nat.lt_irrefl _), Nat.add_zero] at hanswers
      have hstint : stint w (rest ++ [.answered v.toSubscriber result]) =
          rest ++ [.answered v.toSubscriber result] := stint_self (by simpa using hjoined)
      refine @Serving.parted _ _ _ _ _ _ (answersOf w rest) result ?_ hneg hall ?_ ?_
      · rw [hstint, answersOf_append]
        simp [answersOf, hw]
      · rw [hstint, handedTo_append, hhanded, hanswers]
        simp [handedTo]
      · intro hm
        rw [hsubs, hgone] at hm
        exact absurd hw.symm hm.2
    · have hne := other_subscriber hnodup hv hj hjk
      obtain ⟨hklt, _⟩ := List.getElem?_eq_some_iff.mp (subscriber_at hv)
      obtain ⟨p, hp, hpj⟩ := removeAt_other hklt hj hjk
      have hbefore : p < r.k ↔ j < r.k := by omega
      refine .present (j := p) (by rw [hsubs]; exact hp) (by simpa using hjoined) ?_ ?_ ?_
      · rw [handedTo_append, hhanded]
        simp [handedTo, hbefore, hjk]
      · rw [answersOf_append, List.length_append, hanswers]
        simp [answersOf, hne, hbefore]
      · rw [answersOf_append]
        simpa [answersOf, hne] using hall
  | @parted first last hanswers hlast hfirst hhanded hout =>
    refine .stay hanswers hlast hfirst hhanded hout ?_ ?_ (by simp)
    · intro hw _
      have hne : v.toSubscriber ≠ w := by
        rintro rfl
        exact hw (List.mem_of_getElem? (subscriber_at hv))
      simp [handedTo, answersOf, hne]
    · intro hm
      rw [hsubs, hgone] at hm
      exact Or.inl hm.1

theorem Serving.unlogged (h : Serving messages w rest done r n)
    (hsubs : m.nVector.map (·.toSubscriber) = n.nVector.map (·.toSubscriber)) (moved : Bool) :
    Serving messages w rest done { r with moved := moved } m := by
  cases h with
  | present hj hjoined hhanded hanswers hpos => exact .present (by rw [hsubs]; exact hj) hjoined hhanded hanswers hpos
  | parted hanswers hlast hfirst hhanded hgone =>
    exact .parted hanswers hlast hfirst hhanded fun hm => hgone (hsubs ▸ hm)

/-- Somebody else subscribes, or one whose subscription has ended does so again. -/
theorem Serving.joined {u : Subscriber} (h : Serving messages w rest done r n)
    (hsubs : m.nVector.map (·.toSubscriber) = n.nVector.map (·.toSubscriber) ++ [u])
    (hnew : u ∉ n.nVector.map (·.toSubscriber)) (moved : Bool) :
    Serving messages w (rest ++ [.joined u]) done { r with moved := moved } m := by
  cases h with
  | @present j hj hjoined hhanded hanswers hpos =>
    have hne : u ≠ w := by
      rintro rfl
      exact hnew (List.mem_of_getElem? hj)
    obtain ⟨hlt, _⟩ := List.getElem?_eq_some_iff.mp hj
    refine .present (j := j) ?_ ?_ ?_ ?_ ?_
    · rw [hsubs, List.getElem?_append_left hlt]
      exact hj
    · rw [List.mem_append, List.mem_singleton]
      rintro (hjoin | hjoin)
      · exact hjoined hjoin
      · cases hjoin
        exact hne rfl
    · simpa [handedTo_append, handedTo] using hhanded
    · simpa [answersOf_append, answersOf] using hanswers
    · simpa [answersOf_append, answersOf] using hpos
  | @parted first last hanswers hlast hfirst hhanded hgone =>
    refine .stay hanswers hlast hfirst hhanded hgone (fun _ _ => by simp [handedTo, answersOf]) ?_ ?_
    · intro hm
      rw [hsubs, List.mem_append, List.mem_singleton] at hm
      exact hm.imp id fun he => by simp [he]
    · intro hjoin
      rw [List.mem_singleton] at hjoin
      cases hjoin
      simp [stint]

/-- A subscription begins at a place that the calls for this message are still to come to. -/
theorem Serving.begun {j : Nat} (hj : (n.nVector.map (·.toSubscriber))[j]? = some w) (hk : r.k ≤ j)
    (hidle : r.calling = true → r.k ≠ j) : Serving messages w [] 0 r n := by
  have hlate : ¬ j < r.k := Nat.not_lt_of_le hk
  refine .present hj List.not_mem_nil ?_ ?_ (by simp [answersOf])
  · rw [if_neg]
    · rfl
    · rintro (hlt | ⟨he, hc⟩)
      · exact hlate hlt
      · exact hidle hc he.symm
  · rw [if_neg hlate]
    rfl

end

end Katcp
