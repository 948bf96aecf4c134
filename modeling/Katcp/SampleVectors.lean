import Katcp.SampleCommand
import Katcp.TimerSole

namespace Katcp

open SwapVector

variable {s s' : Sampling} {vx : VrblId} {w : KatcpWit} {strategy : Strategy} {id : SubscribeId}
  {peer : EndpointId}

/-- The subscriptions to a variable, in the order of the vector of their strategy. -/
def vectorOf (s : Sampling) (vx : VrblId) (strategy : Strategy) : List SubscribeId :=
  ((s.vrbls vx).vExtra.map fun w => w.vector strategy).getD []

theorem vectorOf_some (hw : (s.vrbls vx).vExtra = some w) (strategy : Strategy) :
    vectorOf s vx strategy = w.vector strategy := by
  rw [vectorOf, hw]
  rfl

theorem hasVector_of_mem (h : id ∈ vectorOf s vx strategy) : hasVector strategy = true := by
  unfold vectorOf at h
  cases hw : (s.vrbls vx).vExtra with
  | none => simp [hw] at h
  | some w => cases strategy <;> simp [hw, KatcpWit.vector, hasVector] at h ⊢

theorem vector_setVector (w : KatcpWit) (hs : hasVector strategy = true) (v : List SubscribeId)
    (t : Strategy) : (w.setVector strategy v).vector t = if t = strategy then v else w.vector t := by
  cases strategy <;> cases t <;> simp_all [hasVector, KatcpWit.vector, KatcpWit.setVector]

theorem vectorOf_putWit (hw : vectorOf s vx = w.vector) (hs : hasVector strategy = true)
    (v : List SubscribeId) (x : VrblId) (t : Strategy) :
    vectorOf (s.putWit vx (w.setVector strategy v)) x t =
      if x = vx ∧ t = strategy then v else vectorOf s x t := by
  by_cases hx : x = vx
  · subst hx
    simp only [vectorOf, Sampling.putWit, Function.update_self, Option.map_some, Option.getD_some, true_and]
    rw [vector_setVector w hs, ← hw]
    rfl
  · simp [vectorOf, Sampling.putWit, hx]

/-- Every subscription in a vector is alive and knows its variable, strategy and position. -/
def InVectors (s : Sampling) : Prop :=
  ∀ vx strategy i id, (vectorOf s vx strategy)[i]? = some id →
    ∃ e, s.subs id = some ⟨some vx, e, strategy, i⟩

namespace InVectors

def position (s : Sampling) (id : SubscribeId) : Nat := ((s.subs id).map KatcpSubscribe.sIndex).getD 0

theorem indexed (h : InVectors s) (vx : VrblId) (strategy : Strategy) :
    Indexed (position s) (vectorOf s vx strategy) := by
  intro i id hi
  obtain ⟨e, hsub⟩ := h vx strategy i id hi
  simp [position, hsub]

theorem live (h : InVectors s) (hid : id ∈ vectorOf s vx strategy) :
    ∃ i e, (vectorOf s vx strategy)[i]? = some id ∧ s.subs id = some ⟨some vx, e, strategy, i⟩ := by
  obtain ⟨i, hi⟩ := List.getElem?_of_mem hid
  obtain ⟨e, hsub⟩ := h vx strategy i id hi
  exact ⟨i, e, hi, hsub⟩

/-- A subscription stands in one vector only. -/
theorem unique (h : InVectors s) {vx' : VrblId} {strategy' : Strategy} (hid : id ∈ vectorOf s vx strategy)
    (hid' : id ∈ vectorOf s vx' strategy') : vx' = vx ∧ strategy' = strategy := by
  obtain ⟨_, _, _, hsub⟩ := h.live hid
  obtain ⟨_, _, _, hsub'⟩ := h.live hid'
  rw [hsub] at hsub'
  cases hsub'
  exact ⟨rfl, rfl⟩

end InVectors

/-- What is left of `s` once the subscription `id` at position `i` was deleted. -/
structure Deleted (s s' : Sampling) (vx : VrblId) (strategy : Strategy) (i : Nat) (id : SubscribeId) :
    Prop where
  vectors : ∀ x t, vectorOf s' x t =
    if x = vx ∧ t = strategy then removeAt (vectorOf s vx strategy) i else vectorOf s x t
  subs : ∀ x, s'.subs x = if x = id then none
    else if (vectorOf s vx strategy).getLast? = some x then (s.subs x).map ({ · with sIndex := i })
    else s.subs x
  peers : s'.peers = s.peers
  timers : if strategy = .period then disarmByRef s.timers id = some (0, s'.timers)
    else s'.timers = s.timers

theorem take_eq_removeAt {v : List SubscribeId} {i : Nat} (hi : i + 1 = v.length) :
    v.take (v.length - 1) = removeAt v i := by
  unfold removeAt
  cases hl : v.getLast? with
  | none => simp [List.getLast?_eq_none_iff.mp hl]
  | some x =>
    dsimp only
    rw [List.dropLast_eq_take, List.length_set]
    apply List.ext_getElem?
    intro j
    rw [List.getElem?_take, List.getElem?_take]
    split
    · rw [List.getElem?_set_ne (by omega)]
    · rfl

theorem set_take_eq_removeAt {v : List SubscribeId} {i : Nat} {x : SubscribeId}
    (hx : v[v.length - 1]? = some x) : (v.set i x).take (v.length - 1) = removeAt v i := by
  unfold removeAt
  rw [List.getLast?_eq_getElem?, hx]
  dsimp only
  rw [List.dropLast_eq_take, List.length_set]

/-- What `destroy_subscribe_katcp` does to a subscription that is alive. -/
theorem destroySubscribe_some {sub : KatcpSubscribe} (hsub : s.subs id = some sub)
    (h : destroySubscribe s id = some s') : s'.vrbls = s.vrbls ∧ s'.peers = s.peers ∧
      s'.subs = Function.update s.subs id none ∧
      if sub.sStrategy = .period then disarmByRef s.timers id = some (0, s'.timers)
      else s'.timers = s.timers := by
  unfold destroySubscribe at h
  rw [hsub] at h
  dsimp only at h
  split at h
  next hp =>
    rw [if_pos hp]
    split at h
    · cases h
    next r timers hd =>
      split at h
      next hr =>
        cases h
        subst hr
        exact ⟨rfl, rfl, rfl, hd⟩
      next => cases h
  next hp =>
    rw [if_neg hp]
    cases h
    exact ⟨rfl, rfl, rfl, rfl⟩

theorem deleteSubscribe_deleted (h : InVectors s) (hw : (s.vrbls vx).vExtra = some w) {i : Nat}
    (hi : (vectorOf s vx strategy)[i]? = some id) (hd : deleteSubscribe s vx w id = some s') :
    Deleted s s' vx strategy i id := by
  obtain ⟨e, hsub⟩ := h vx strategy i id hi
  have hvec := hasVector_of_mem (List.mem_of_getElem? hi)
  have hvw : vectorOf s vx = w.vector := funext (vectorOf_some hw)
  obtain ⟨hlt, hget⟩ := List.getElem?_eq_some_iff.mp hi
  unfold deleteSubscribe at hd
  simp only [hsub, hvec, not_true_eq_false, ↓reduceIte, ← hvw] at hd
  rw [if_neg (Nat.not_le.mpr hlt)] at hd
  obtain ⟨s1, hclose, hdestroy⟩ := Option.bind_eq_some_iff.mp hd
  unfold closeVector at hclose
  simp only [← hvw] at hclose
  split at hclose
  next hmove =>
    obtain ⟨fixup, hfix, hclose⟩ := Option.bind_eq_some_iff.mp hclose
    obtain ⟨moved, hmoved, hclose⟩ := Option.bind_eq_some_iff.mp hclose
    cases hclose
    -- the last subscription is another one than `id`, which stands before it
    have hne : id ≠ fixup := by
      rintro rfl
      have := h.indexed vx strategy i id hi
      have := h.indexed vx strategy _ id hfix
      omega
    have hlast : (vectorOf s vx strategy).getLast? = some fixup := by rw [List.getLast?_eq_getElem?, hfix]
    have hsub1 : ((s.putSub fixup (some { moved with sIndex := i })).putWit vx
        (w.setVector strategy (((vectorOf s vx strategy).set i fixup).take
          ((vectorOf s vx strategy).length - 1)))).subs id = some ⟨some vx, e, strategy, i⟩ := by
      simp [Sampling.putWit, Sampling.putSub, hne, hsub]
    obtain ⟨hv, hp, hs, ht⟩ := destroySubscribe_some hsub1 hdestroy
    refine ⟨fun x t => ?_, fun x => ?_, hp, ht⟩
    · rw [← set_take_eq_removeAt hfix,
        show vectorOf s' x t = vectorOf (s.putWit vx (w.setVector strategy
          (((vectorOf s vx strategy).set i fixup).take ((vectorOf s vx strategy).length - 1)))) x t by
          rw [vectorOf, hv]; rfl]
      exact vectorOf_putWit hvw hvec _ x t
    · rw [hs, hlast]
      by_cases hx : x = id
      · rw [hx, Function.update_self, if_pos rfl]
      · rw [Function.update_of_ne hx, if_neg hx]
        by_cases hxf : fixup = x
        · subst hxf
          rw [if_pos rfl, hmoved]
          simp [Sampling.putWit, Sampling.putSub]
        · rw [if_neg (fun he => hxf (Option.some.inj he))]
          simp [Sampling.putWit, Sampling.putSub, Ne.symm hxf]
  next hend =>
    cases hclose
    have hlast : (vectorOf s vx strategy).getLast? = some id := by
      rw [List.getLast?_eq_getElem?, ← hi]
      congr 1
      omega
    obtain ⟨hv, hp, hs, ht⟩ := destroySubscribe_some
      (show (s.putWit vx _).subs id = some ⟨some vx, e, strategy, i⟩ from hsub) hdestroy
    refine ⟨fun x t => ?_, fun x => ?_, hp, ht⟩
    · rw [← take_eq_removeAt (show i + 1 = (vectorOf s vx strategy).length by omega),
        show vectorOf s' x t = vectorOf (s.putWit vx (w.setVector strategy
          ((vectorOf s vx strategy).take ((vectorOf s vx strategy).length - 1)))) x t by
          rw [vectorOf, hv]; rfl]
      exact vectorOf_putWit hvw hvec _ x t
    · rw [hs, hlast]
      by_cases hx : x = id
      · rw [hx, Function.update_self, if_pos rfl]
      · rw [Function.update_of_ne hx, if_neg hx, if_neg (fun he => hx (Option.some.inj he).symm)]
        rfl

/-- What the search of a vector finds. -/
theorem searchEndpoint_some {ids : List SubscribeId} (h : searchEndpoint s peer ids = some (some id)) :
    id ∈ ids ∧ ∃ sub, s.subs id = some sub ∧ sub.sEndpoint = peer := by
  induction ids with
  | nil => cases h
  | cons x ids ih =>
    rw [searchEndpoint] at h
    split at h
    · cases h
    next sub hsub =>
      split at h
      next he =>
        cases h
        exact ⟨List.mem_cons_self, sub, hsub, he⟩
      next =>
        obtain ⟨hmem, hsub'⟩ := ih h
        exact ⟨List.mem_cons_of_mem _ hmem, hsub'⟩

theorem searchEndpoint_none {ids : List SubscribeId} (h : searchEndpoint s peer ids = some none) :
    ∀ x ∈ ids, ∀ sub, s.subs x = some sub → sub.sEndpoint ≠ peer := by
  induction ids with
  | nil => intro x hx; cases hx
  | cons y ids ih =>
    rw [searchEndpoint] at h
    split at h
    · cases h
    next sub hsub =>
      split at h
      · cases h
      next he =>
        intro x hx sub' hsub'
        rcases List.mem_cons.mp hx with rfl | hx
        · rw [hsub] at hsub'
          cases hsub'
          exact he
        · exact ih h x hx sub' hsub'

/-- The client has no subscription to the variable. -/
def Unsubscribed (s : Sampling) (vx : VrblId) (peer : EndpointId) : Prop :=
  ∀ strategy, ∀ x ∈ vectorOf s vx strategy, ∀ sub, s.subs x = some sub → sub.sEndpoint ≠ peer

theorem locateSubscribe_none (h : locateSubscribe s vx peer = some none) : Unsubscribed s vx peer := by
  intro strategy x hx
  unfold locateSubscribe at h
  cases hw : (s.vrbls vx).vExtra with
  | none => simp [vectorOf, hw] at hx
  | some w =>
    rw [vectorOf_some hw] at hx
    rw [hw] at h
    dsimp only at h
    split at h
    · cases h
    · cases h
    next he =>
      cases strategy with
      | event => exact searchEndpoint_none he x hx
      | period => exact searchEndpoint_none h x hx
      | off => simp [KatcpWit.vector] at hx
      | diff => simp [KatcpWit.vector] at hx
      | forced => simp [KatcpWit.vector] at hx

theorem locateSubscribe_some (h : locateSubscribe s vx peer = some (some id)) :
    ∃ strategy sub, id ∈ vectorOf s vx strategy ∧ s.subs id = some sub ∧ sub.sEndpoint = peer := by
  unfold locateSubscribe at h
  cases hw : (s.vrbls vx).vExtra with
  | none => simp [hw] at h
  | some w =>
    rw [hw] at h
    dsimp only at h
    split at h
    · cases h
    next he =>
      cases h
      obtain ⟨hmem, sub, hsub, hpeer⟩ := searchEndpoint_some he
      exact ⟨.event, sub, by rwa [vectorOf_some hw], hsub, hpeer⟩
    next =>
      obtain ⟨hmem, sub, hsub, hpeer⟩ := searchEndpoint_some h
      exact ⟨.period, sub, by rwa [vectorOf_some hw], hsub, hpeer⟩

/-- A new subscription that has its place, but not its strategy yet. -/
structure Attached (s s' : Sampling) (vx : VrblId) (peer : EndpointId) (strategy : Strategy)
    (id : SubscribeId) : Prop where
  unused : s.subs id = none
  vectors : ∀ x t, vectorOf s' x t =
    if x = vx ∧ t = strategy then vectorOf s vx strategy ++ [id] else vectorOf s x t
  subs : s'.subs = Function.update s.subs id
    (some ⟨some vx, peer, .off, (vectorOf s vx strategy).length⟩)
  peers : s'.peers = s.peers
  timers : s'.timers = s.timers

theorem attachVariable_attached (hs : hasVector strategy = true)
    (h : attachVariable s vx peer strategy id = some (some s')) : Attached s s' vx peer strategy id := by
  have hvw : vectorOf s vx = ((s.vrbls vx).vExtra.getD createWit).vector := by
    funext t
    cases hw : (s.vrbls vx).vExtra with
    | none => cases t <;> simp [vectorOf, hw, createWit, KatcpWit.vector]
    | some w => simp [vectorOf, hw]
  unfold attachVariable at h
  split at h
  · cases h
  split at h
  · cases h
  · cases h
  next s1 h1 =>
    unfold createSubscribe at h1
    split at h1
    · cases h1
    next hunused =>
      have h1 := Option.some.inj (Option.some.inj h1)
      obtain ⟨sub, hsub, h⟩ := Option.map_eq_some_iff.mp h
      have h := Option.some.inj h
      have hsub1 : s1.subs = Function.update s.subs id
          (some ⟨none, peer, .off, (vectorOf s vx strategy).length⟩) := by rw [← h1, hvw]; rfl
      rw [hsub1, Function.update_self] at hsub
      cases hsub
      refine ⟨by simpa using hunused, fun x t => ?_, ?_, ?_, ?_⟩
      · rw [hvw, show vectorOf s' x t = vectorOf (s.putWit vx (((s.vrbls vx).vExtra.getD createWit).setVector
          strategy (((s.vrbls vx).vExtra.getD createWit).vector strategy ++ [id]))) x t by rw [← h, ← h1]; rfl]
        exact vectorOf_putWit hvw hs _ x t
      · rw [← h, Sampling.putSub]
        dsimp only
        rw [hsub1, Function.update_idem]
      · rw [← h, ← h1]; rfl
      · rw [← h, ← h1]; rfl

end Katcp
