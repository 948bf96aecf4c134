import Katcp.SampleVectors

namespace Katcp

open SwapVector

variable {s s' : Sampling} {log : List Granted} {vx : VrblId} {strategy : Strategy} {id : SubscribeId}
  {peer : EndpointId}

/-- The interval that was last granted to a client for a variable. -/
def lastGranted (log : List Granted) (peer : EndpointId) (vx : VrblId) : Option Timeval :=
  ((log.filter fun g => g.peer = peer ∧ g.vx = vx).getLast?).map Granted.interval

theorem lastGranted_append (log : List Granted) (g : Granted) (peer : EndpointId) (vx : VrblId) :
    lastGranted (log ++ [g]) peer vx =
      if g.peer = peer ∧ g.vx = vx then some g.interval else lastGranted log peer vx := by
  unfold lastGranted
  rw [List.filter_append]
  split
  next h => simp [h]
  next h => simp [h]

/-- Vectors, subscriptions and timers agree with each other and with what was granted. -/
structure Consistent (s : Sampling) (log : List Granted) : Prop where
  kept : Kept s.timers
  vectors : InVectors s
  periodic : ∀ vx id sub, id ∈ vectorOf s vx .period → s.subs id = some sub →
    ∃ k tv, pending s.timers k = some (id, tv) ∧ lastGranted log sub.sEndpoint vx = some tv ∧
      ∀ k' tv', pending s.timers k' = some (id, tv') → k' = k
  timed : ∀ k id tv, pending s.timers k = some (id, tv) → ∃ vx, id ∈ vectorOf s vx .period
  single : ∀ vx strategy strategy' id id' sub sub', id ∈ vectorOf s vx strategy →
    id' ∈ vectorOf s vx strategy' → s.subs id = some sub → s.subs id' = some sub' →
    sub'.sEndpoint = sub.sEndpoint → id' = id

structure SamplingInv (s : Sampling) (log : List Granted) : Prop extends Consistent s log where
  nonzero : ∀ k id tv, pending s.timers k = some (id, tv) → tv ≠ .zero

/-- Changes that touch neither a subscription nor what is pending. -/
theorem SamplingInv.frame (h : SamplingInv s log) (hv : vectorOf s' = vectorOf s) (hs : s'.subs = s.subs)
    (hk : Kept s'.timers) (hp : pending s'.timers = pending s.timers) : SamplingInv s' log := by
  refine ⟨⟨hk, ?_, ?_, ?_, ?_⟩, ?_⟩
  · intro vx strategy i id hi
    rw [hs]
    rw [hv] at hi
    exact h.vectors vx strategy i id hi
  · intro vx id sub hid hsub
    rw [hv] at hid
    rw [hs] at hsub
    rw [hp]
    exact h.periodic vx id sub hid hsub
  · rw [hp, hv]
    exact h.timed
  · rw [hv, hs]
    exact h.single
  · rw [hp]
    exact h.nonzero

theorem noSampling_inv (sensors : VrblId → KatcpVrbl) : SamplingInv (noSampling sensors) [] := by
  have hv : ∀ vx strategy, vectorOf (noSampling sensors) vx strategy = [] := fun _ _ => rfl
  have hp : ∀ k, pending (noSampling sensors).timers k = none := pending_noTimers
  refine ⟨⟨noTimers_kept, ?_, ?_, ?_, ?_⟩, ?_⟩
  · intro vx strategy i id hi
    simp [hv] at hi
  · intro vx id sub hid
    simp [hv] at hid
  · intro k id tv hk
    simp [hp] at hk
  · intro vx strategy strategy' id id' sub sub' hid
    simp [hv] at hid
  · intro k id tv hk
    simp [hp] at hk

/-- The heap's first timer with this data is armed. -/
def FirstArmed (s : Sampling) (id : SubscribeId) : Prop :=
  ∀ index k, findByDataRef s.timers id = some (some (index, k)) → (pending s.timers k).isSome = true

namespace Deleted

variable {i : Nat}

theorem mem (hd : Deleted s s' vx strategy i id) (h : InVectors s)
    (hi : (vectorOf s vx strategy)[i]? = some id) {x : SubscribeId} {v : VrblId} {t : Strategy}
    (hx : x ∈ vectorOf s' v t) : x ∈ vectorOf s v t ∧ x ≠ id := by
  rw [hd.vectors] at hx
  split at hx
  next he =>
    obtain ⟨rfl, rfl⟩ := he
    exact (mem_removeAt (h.indexed v t) hi x).mp hx
  next he =>
    refine ⟨hx, ?_⟩
    rintro rfl
    exact he (h.unique (List.mem_of_getElem? hi) hx)

theorem mem_of_ne (hd : Deleted s s' vx strategy i id) (h : InVectors s)
    (hi : (vectorOf s vx strategy)[i]? = some id) {x : SubscribeId} {v : VrblId} {t : Strategy}
    (hx : x ∈ vectorOf s v t) (hne : x ≠ id) : x ∈ vectorOf s' v t := by
  rw [hd.vectors]
  split
  next he =>
    obtain ⟨rfl, rfl⟩ := he
    exact (mem_removeAt (h.indexed v t) hi x).mpr ⟨hx, hne⟩
  next => exact hx

/-- Deleting a subscription moves another one, but changes no client's subscription. -/
theorem sub_some (hd : Deleted s s' vx strategy i id) {x : SubscribeId} {sub' : KatcpSubscribe}
    (hx : s'.subs x = some sub') : ∃ sub, s.subs x = some sub ∧ sub'.sEndpoint = sub.sEndpoint := by
  rw [hd.subs] at hx
  split at hx
  · cases hx
  split at hx
  · obtain ⟨sub, hsub, rfl⟩ := Option.map_eq_some_iff.mp hx
    exact ⟨sub, hsub, rfl⟩
  · exact ⟨sub', hx, rfl⟩

theorem inVectors (hd : Deleted s s' vx strategy i id) (h : InVectors s)
    (hi : (vectorOf s vx strategy)[i]? = some id) : InVectors s' := by
  intro v t j x hx
  have hxid := (hd.mem h hi (List.mem_of_getElem? hx)).2
  rw [hd.vectors] at hx
  rw [hd.subs, if_neg hxid]
  split at hx
  next he =>
    obtain ⟨rfl, rfl⟩ := he
    have hlt := (List.getElem?_eq_some_iff.mp hi).1
    rw [getElem?_removeAt hlt] at hx
    split at hx
    next hj =>
      split at hx
      next hji =>
        have hend : (vectorOf s v t)[(vectorOf s v t).length - 1]? = some x := by
          rw [← List.getLast?_eq_getElem?, hx]
        obtain ⟨e, hsub⟩ := h v t _ x hend
        rw [if_pos hx, hsub, hji]
        exact ⟨e, rfl⟩
      next hji =>
        obtain ⟨e, hsub⟩ := h v t j x hx
        rw [if_neg]
        · exact ⟨e, hsub⟩
        · intro hlast
          rw [List.getLast?_eq_getElem?] at hlast
          have := h.indexed v t _ x hlast
          have := h.indexed v t j x hx
          omega
    next => cases hx
  next he =>
    rw [if_neg]
    · exact h v t j x hx
    · intro hlast
      exact he (h.unique (List.mem_of_getLast? hlast) (List.mem_of_getElem? hx))

end Deleted

theorem SamplingInv.deleted (h : SamplingInv s log) {i : Nat}
    (hi : (vectorOf s vx strategy)[i]? = some id) (hd : Deleted s s' vx strategy i id)
    (hfirst : strategy = .period → FirstArmed s id) : SamplingInv s' log := by
  have hmem : id ∈ vectorOf s vx strategy := List.mem_of_getElem? hi
  have hpend : Kept s'.timers ∧ (∀ k x tv, pending s'.timers k = some (x, tv) ↔
      pending s.timers k = some (x, tv) ∧ x ≠ id) := by
    have htimers := hd.timers
    split at htimers
    next hp =>
      unfold disarmByRef at htimers
      split at htimers
      · cases htimers
      · cases htimers
      next index k hfind =>
        have htimers : s'.timers = disarmed s.timers k := by
          have he := Option.some.inj htimers
          exact (congrArg Prod.snd he).symm
        obtain ⟨hget, t, ht, hdata⟩ := findByDataRef_spec hfind
        obtain ⟨⟨data, tv0⟩, hk⟩ := Option.isSome_iff_exists.mp (hfirst hp index k hfind)
        have hdid : data = id := by
          obtain ⟨_, u, hu, _, hud, _⟩ := pending_some.mp hk
          rw [ht] at hu
          cases hu
          exact hud.symm.trans hdata
        subst hdid
        refine ⟨htimers ▸ h.kept.disarm k, fun k' x tv => ?_⟩
        rw [htimers, pending_disarmed (List.mem_of_getElem? hget)]
        by_cases hkk : k' = k
        · subst hkk
          rw [Function.update_self, hk]
          constructor
          · intro hx
            cases hx
          · rintro ⟨hx, hne⟩
            cases hx
            exact absurd rfl hne
        · rw [Function.update_of_ne hkk]
          refine ⟨fun hx => ⟨hx, ?_⟩, And.left⟩
          rintro rfl
          -- the timer just disarmed was the only one of this data
          obtain ⟨_, _, _, hsub⟩ := h.vectors.live (hp ▸ hmem)
          obtain ⟨_, _, _, _, hone⟩ := h.periodic vx x _ (hp ▸ hmem) hsub
          exact hkk ((hone _ _ hx).trans (hone _ _ hk).symm)
    next hp =>
      rw [htimers]
      refine ⟨h.kept, fun k x tv => ⟨fun hx => ⟨hx, ?_⟩, And.left⟩⟩
      rintro rfl
      obtain ⟨v, hv⟩ := h.timed k x tv hx
      exact hp (h.vectors.unique hv hmem).2
  refine ⟨⟨hpend.1, hd.inVectors h.vectors hi, ?_, ?_, ?_⟩, ?_⟩
  · intro v x sub' hx hsub'
    obtain ⟨hxold, hne⟩ := hd.mem h.vectors hi hx
    obtain ⟨sub, hsub, he⟩ := hd.sub_some hsub'
    obtain ⟨k, tv, hk, hg, hone⟩ := h.periodic v x sub hxold hsub
    refine ⟨k, tv, (hpend.2 k x tv).mpr ⟨hk, hne⟩, he ▸ hg, fun k' tv' hk' => ?_⟩
    exact hone k' tv' ((hpend.2 k' x tv').mp hk').1
  · intro k x tv hk
    obtain ⟨hk, hne⟩ := (hpend.2 k x tv).mp hk
    obtain ⟨v, hv⟩ := h.timed k x tv hk
    exact ⟨v, hd.mem_of_ne h.vectors hi hv hne⟩
  · intro v t t' x x' sub1 sub1' hx hx' hsub hsub' he
    obtain ⟨sub, hs1, he1⟩ := hd.sub_some hsub
    obtain ⟨sub', hs2, he2⟩ := hd.sub_some hsub'
    exact h.single v t t' x x' sub sub' (hd.mem h.vectors hi hx).1 (hd.mem h.vectors hi hx').1 hs1 hs2
      (he2.symm.trans (he.trans he1))
  · intro k x tv hk
    exact h.nonzero k x tv ((hpend.2 k x tv).mp hk).1

/-- A new subscription with its place and its strategy. -/
structure Added (s s' : Sampling) (vx : VrblId) (peer : EndpointId) (strategy : Strategy)
    (id : SubscribeId) : Prop where
  unused : s.subs id = none
  vectors : ∀ x t, vectorOf s' x t =
    if x = vx ∧ t = strategy then vectorOf s vx strategy ++ [id] else vectorOf s x t
  subs : s'.subs = Function.update s.subs id
    (some ⟨some vx, peer, strategy, (vectorOf s vx strategy).length⟩)

namespace Added

theorem mem (ha : Added s s' vx peer strategy id) {x : SubscribeId} {v : VrblId} {t : Strategy}
    (hx : x ∈ vectorOf s' v t) : x ∈ vectorOf s v t ∨ (v = vx ∧ t = strategy ∧ x = id) := by
  rw [ha.vectors] at hx
  split at hx
  next he =>
    obtain ⟨rfl, rfl⟩ := he
    rcases List.mem_append.mp hx with hx | hx
    · exact Or.inl hx
    · exact Or.inr ⟨rfl, rfl, List.mem_singleton.mp hx⟩
  next => exact Or.inl hx

theorem mem_of_mem (ha : Added s s' vx peer strategy id) {x : SubscribeId} {v : VrblId} {t : Strategy}
    (hx : x ∈ vectorOf s v t) : x ∈ vectorOf s' v t := by
  rw [ha.vectors]
  split
  next he =>
    obtain ⟨rfl, rfl⟩ := he
    exact List.mem_append_left _ hx
  next => exact hx

theorem mem_new (ha : Added s s' vx peer strategy id) : id ∈ vectorOf s' vx strategy := by
  rw [ha.vectors, if_pos ⟨rfl, rfl⟩]
  simp

theorem ne (ha : Added s s' vx peer strategy id) (h : InVectors s) {x : SubscribeId} {v : VrblId}
    {t : Strategy} (hx : x ∈ vectorOf s v t) : x ≠ id := by
  rintro rfl
  obtain ⟨_, _, _, hsub⟩ := h.live hx
  rw [ha.unused] at hsub
  cases hsub

theorem sub_old (ha : Added s s' vx peer strategy id) (h : InVectors s) {x : SubscribeId} {v : VrblId}
    {t : Strategy} (hx : x ∈ vectorOf s v t) : s'.subs x = s.subs x := by
  rw [ha.subs, Function.update_of_ne (ha.ne h hx)]

theorem sub_new (ha : Added s s' vx peer strategy id) :
    s'.subs id = some ⟨some vx, peer, strategy, (vectorOf s vx strategy).length⟩ := by
  rw [ha.subs, Function.update_self]

theorem inVectors (ha : Added s s' vx peer strategy id) (h : InVectors s) : InVectors s' := by
  intro v t j x hx
  rw [ha.vectors] at hx
  split at hx
  next he =>
    obtain ⟨rfl, rfl⟩ := he
    by_cases hj : j < (vectorOf s v t).length
    · rw [List.getElem?_append_left hj] at hx
      rw [ha.sub_old h (List.mem_of_getElem? hx)]
      exact h v t j x hx
    · rw [List.getElem?_append_right (Nat.le_of_not_lt hj)] at hx
      obtain ⟨hj0, rfl⟩ := List.getElem?_eq_some_iff.mp hx
      have hj0 : j = (vectorOf s v t).length := by
        rw [List.length_singleton] at hj0
        omega
      subst hj0
      exact ⟨peer, by simpa using ha.sub_new⟩
  next =>
    rw [ha.sub_old h (List.mem_of_getElem? hx)]
    exact h v t j x hx

theorem single (ha : Added s s' vx peer strategy id) (h : Consistent s log)
    (hnone : Unsubscribed s vx peer) : ∀ v t t' x x' sub sub', x ∈ vectorOf s' v t →
      x' ∈ vectorOf s' v t' → s'.subs x = some sub → s'.subs x' = some sub' →
      sub'.sEndpoint = sub.sEndpoint → x' = x := by
  intro v t t' x x' sub sub' hx hx' hsub hsub' he
  rcases ha.mem hx with hx | ⟨hv, _, rfl⟩
  · rw [ha.sub_old h.vectors hx] at hsub
    rcases ha.mem hx' with hx' | ⟨rfl, _, rfl⟩
    · rw [ha.sub_old h.vectors hx'] at hsub'
      exact h.single v t t' x x' sub sub' hx hx' hsub hsub' he
    · rw [ha.sub_new] at hsub'
      cases hsub'
      exact absurd he.symm (hnone t x hx sub hsub)
  · rcases ha.mem hx' with hx' | ⟨_, _, rfl⟩
    · rw [ha.sub_old h.vectors hx'] at hsub'
      rw [ha.sub_new] at hsub
      cases hsub
      exact absurd he (hnone t' x' (hv ▸ hx') sub' hsub')
    · rfl

end Added

/-- A subscription to events needs no timer. -/
theorem SamplingInv.addEvent (h : SamplingInv s log) (ha : Added s s' vx peer .event id)
    (hnone : Unsubscribed s vx peer) (ht : s'.timers = s.timers) : SamplingInv s' log := by
  refine ⟨⟨ht ▸ h.kept, ha.inVectors h.vectors, ?_, ?_, ha.single h.toConsistent hnone⟩, ?_⟩
  · intro v x sub hx hsub
    rcases ha.mem hx with hx | ⟨_, ht, _⟩
    · rw [ha.sub_old h.vectors hx] at hsub
      rw [ht]
      exact h.periodic v x sub hx hsub
    · cases ht
  · intro k x tv hk
    rw [ht] at hk
    obtain ⟨v, hv⟩ := h.timed k x tv hk
    exact ⟨v, ha.mem_of_mem hv⟩
  · rw [ht]
    exact h.nonzero

/-- A periodic subscription with a timer of its own. -/
theorem SamplingInv.addPeriod (h : SamplingInv s log) (ha : Added s s' vx peer .period id)
    (hnone : Unsubscribed s vx peer) (hk : Kept s'.timers) {k : TimerId} {tv : Timeval} (hz : tv ≠ .zero)
    (hp : pending s'.timers = Function.update (pending s.timers) k (some (id, tv)))
    (hfree : pending s.timers k = none) : SamplingInv s' (log ++ [⟨peer, vx, tv⟩]) := by
  have hold : ∀ k' x tv', x ≠ id → (pending s'.timers k' = some (x, tv') ↔
      pending s.timers k' = some (x, tv')) := by
    intro k' x tv' hx
    rw [hp]
    by_cases hkk : k' = k
    · rw [hkk, Function.update_self, hfree]
      simp [Ne.symm hx]
    · rw [Function.update_of_ne hkk]
  have hnew : ∀ k' tv', pending s'.timers k' = some (id, tv') → k' = k ∧ tv' = tv := by
    intro k' tv' hk'
    rw [hp] at hk'
    by_cases hkk : k' = k
    · rw [hkk, Function.update_self] at hk'
      cases hk'
      exact ⟨hkk, rfl⟩
    · rw [Function.update_of_ne hkk] at hk'
      obtain ⟨v, hv⟩ := h.timed k' id tv' hk'
      exact absurd rfl (ha.ne h.vectors hv)
  have hself : pending s'.timers k = some (id, tv) := by rw [hp, Function.update_self]
  refine ⟨⟨hk, ha.inVectors h.vectors, ?_, ?_, ha.single h.toConsistent hnone⟩, ?_⟩
  · intro v x sub hx hsub
    rw [lastGranted_append]
    rcases ha.mem hx with hx | ⟨rfl, _, rfl⟩
    · rw [ha.sub_old h.vectors hx] at hsub
      have hne := ha.ne h.vectors hx
      obtain ⟨k0, tv0, hk0, hg, hone⟩ := h.periodic v x sub hx hsub
      refine ⟨k0, tv0, (hold _ _ _ hne).mpr hk0, ?_, fun k' tv' hk' => hone k' tv' ((hold _ _ _ hne).mp hk')⟩
      rw [if_neg, hg]
      rintro ⟨he, rfl⟩
      exact hnone .period x hx sub hsub he.symm
    · rw [ha.sub_new] at hsub
      cases hsub
      exact ⟨k, tv, hself, if_pos ⟨rfl, rfl⟩, fun k' tv' hk' => (hnew k' tv' hk').1⟩
  · intro k' x tv' hk'
    by_cases hx : x = id
    · exact ⟨vx, hx ▸ ha.mem_new⟩
    · obtain ⟨v, hv⟩ := h.timed k' x tv' ((hold _ _ _ hx).mp hk')
      exact ⟨v, ha.mem_of_mem hv⟩
  · intro k' x tv' hk'
    by_cases hx : x = id
    · rw [hx] at hk'
      rw [(hnew k' tv' hk').2]
      exact hz
    · exact h.nonzero k' x tv' ((hold _ _ _ hx).mp hk')

/-- The timer of a periodic subscription gets another interval. -/
theorem SamplingInv.readjust (h : SamplingInv s log) {sub : KatcpSubscribe}
    (hid : id ∈ vectorOf s vx .period) (hsub : s.subs id = some sub) {k : TimerId} {old tv : Timeval}
    (hk : pending s.timers k = some (id, old)) (hz : tv ≠ .zero) {timers : Timers SubscribeId}
    (hkept : Kept timers) (hp : pending timers = Function.update (pending s.timers) k (some (id, tv))) :
    SamplingInv { s with timers := timers } (log ++ [⟨sub.sEndpoint, vx, tv⟩]) := by
  have hcases : ∀ k' x tv', pending timers k' = some (x, tv') →
      (k' = k ∧ x = id ∧ tv' = tv) ∨ (k' ≠ k ∧ pending s.timers k' = some (x, tv')) := by
    intro k' x tv' hk'
    rw [hp] at hk'
    by_cases hkk : k' = k
    · rw [hkk, Function.update_self] at hk'
      cases hk'
      exact Or.inl ⟨hkk, rfl, rfl⟩
    · rw [Function.update_of_ne hkk] at hk'
      exact Or.inr ⟨hkk, hk'⟩
  obtain ⟨k1, _, _, _, hone⟩ := h.periodic vx id sub hid hsub
  have hk1 : k = k1 := hone _ _ hk
  subst hk1
  refine ⟨⟨hkept, h.vectors, ?_, ?_, h.single⟩, ?_⟩
  · intro v x sub' hx hsub'
    rw [lastGranted_append]
    by_cases hxid : x = id
    · subst hxid
      rw [hsub] at hsub'
      cases hsub'
      obtain ⟨rfl, _⟩ := h.vectors.unique hid hx
      refine ⟨k, tv, by rw [hp, Function.update_self], if_pos ⟨rfl, rfl⟩, fun k' tv' hk' => ?_⟩
      rcases hcases k' x tv' hk' with ⟨rfl, _⟩ | ⟨_, hk'⟩
      · rfl
      · exact hone k' tv' hk'
    · obtain ⟨k0, tv0, hk0, hg, hone0⟩ := h.periodic v x sub' hx hsub'
      have hne : k0 ≠ k := by
        rintro rfl
        rw [hk] at hk0
        cases hk0
        exact hxid rfl
      refine ⟨k0, tv0, by rw [hp, Function.update_of_ne hne, hk0], ?_, fun k' tv' hk' => ?_⟩
      · rw [if_neg, hg]
        rintro ⟨he, rfl⟩
        exact hxid (h.single vx .period .period id x sub sub' hid hx hsub hsub' he.symm)
      · rcases hcases k' x tv' hk' with ⟨_, rfl, _⟩ | ⟨_, hk'⟩
        · exact absurd rfl hxid
        · exact hone0 k' tv' hk'
  · intro k' x tv' hk'
    rcases hcases k' x tv' hk' with ⟨_, rfl, _⟩ | ⟨_, hk'⟩
    · exact ⟨vx, hid⟩
    · exact h.timed k' x tv' hk'
  · intro k' x tv' hk'
    rcases hcases k' x tv' hk' with ⟨_, _, rfl⟩ | ⟨_, hk'⟩
    · exact hz
    · exact h.nonzero k' x tv' hk'

end Katcp
