import Katcp.EndpointWalk

namespace Katcp

section

open Function LinkedPath

variable {s s' : Endpoints} {queued queued' : List EpMessage} {fresh visited rest : List EpId} {ep : EpId}
  {m r : EpMessage} {a : EndpointAction} {out : List EndpointEvent} {code : ResultCode} {extra : Option Text}

theorem answer_mem_receives (h : r ∈ (s.answer m code extra).toList) : s.receives r.mTo = true := by
  obtain ⟨-, -, source, -, hrx, rfl⟩ := answer_eq_some.mp (Option.mem_toList.mp h)
  exact hrx

theorem outcome_mem_receives {result : KatcpResult} (h : r ∈ (s.outcome m result).toList) :
    s.receives r.mTo = true := by
  cases result with
  | done code => exact answer_mem_receives h
  | own => simp [Endpoints.outcome] at h
  | pause => simp [Endpoints.outcome] at h
  | yield => simp [Endpoints.outcome] at h

theorem Open.receiving {st : Station} (ho : Open s queued) (hrx : s.receives ep = true)
    (hst : s.station ep = some st) : st.eUp = true ∧ st.eWake = true :=
  ho.receiver ep st hst (by simpa [Endpoints.receives, hst] using hrx)

/-- Messages may be added for endpoints that receive. -/
theorem Open.same (ho : Open s queued) (hstation : s'.station = s.station)
    (hq : ∀ m ∈ queued', m ∈ queued ∨ s.receives m.mTo = true) : Open s' queued' := by
  refine ⟨fun x st hx => ?_, fun x st hx => ?_, fun m hm st hx => ?_⟩
  all_goals rw [hstation] at hx
  · exact ho.down x st hx
  · exact ho.receiver x st hx
  · rcases hq m hm with hm | hrx
    · exact ho.reached m hm st hx
    · exact ho.receiving hrx hx

/-- One station changes, which has to be in order then. -/
theorem Open.update {st : Station} (ho : Open s queued) (hstation : s'.station = update s.station ep (some st))
    (hdown : st.eUp = false → st.gone = true) (hrx : st.eRx = true → st.eUp = true ∧ st.eWake = true)
    (hq : ∀ m ∈ queued', (m ∈ queued ∨ s.receives m.mTo = true) ∧ (m.mTo = ep → st.eUp = true ∧ st.eWake = true)) :
    Open s' queued' := by
  refine ⟨fun x st' hx => ?_, fun x st' hx => ?_, fun m hm st' hx => ?_⟩
  all_goals rw [hstation] at hx
  · by_cases hxe : x = ep
    · rw [hxe, update_self] at hx
      cases hx
      exact hdown
    · rw [update_of_ne hxe] at hx
      exact ho.down x st' hx
  · by_cases hxe : x = ep
    · rw [hxe, update_self] at hx
      cases hx
      exact hrx
    · rw [update_of_ne hxe] at hx
      exact ho.receiver x st' hx
  · obtain ⟨hfrom, hhere⟩ := hq m hm
    by_cases hxe : m.mTo = ep
    · rw [hxe, update_self] at hx
      cases hx
      exact hhere hxe
    · rw [update_of_ne hxe] at hx
      rcases hfrom with hm | hrx
      · exact ho.reached m hm st' hx
      · exact ho.receiving hrx hx

theorem Served.open {c : EndpointCall} (h : Ledger s [] queued) (ho : Open s queued)
    (hc : Served s queued c s' queued' out) : Open s' queued' := by
  cases hc with
  | created hnone hstation hfirst hwalk =>
    refine ho.update hstation nofun (fun hrx => ⟨rfl, hrx⟩) fun m hm => ⟨.inl hm, fun he => ?_⟩
    exact absurd he (h.absent hnone hm).2
  | sent hsame hrx =>
    refine ho.same (funext hsame.station) fun m hm => ?_
    rcases List.mem_append.mp hm with hm | hm
    · exact .inl hm
    · obtain rfl := List.mem_singleton.mp hm
      exact .inr hrx
  | unsent hsame hrx => exact ho.same (funext hsame.station) fun m hm => .inl hm
  | held hstation hfirst hwalk => exact ho.same hstation fun m hm => .inl hm
  | @closed c ep st rx tx s' hst hup hrx htx hstation hfirst hwalk =>
    refine ho.update hstation (fun hdown => ?_) (fun hr => ?_) fun m hm => ⟨.inl hm, fun he => ?_⟩
    · exact absurd (hdown.symm.trans hup) nofun
    · exact ho.receiver ep st hst (hrx hr)
    · exact ho.reached m hm st (he ▸ hst)
  | @released ep st s' hst hup hstation hfirst hwalk =>
    refine ho.update hstation (fun _ => rfl) nofun fun m hm => ?_
    rcases List.mem_append.mp hm with hm | hm
    · obtain ⟨hm, hne⟩ := List.mem_filter.mp hm
      exact ⟨.inl hm, fun he => absurd he (by simpa using hne)⟩
    · obtain ⟨m0, hm0, hr⟩ := List.mem_filterMap.mp hm
      obtain ⟨hm0, hto⟩ := List.mem_filter.mp hm0
      have hreply : m ∈ (s.answer m0 .fail (some (textOf "handler detached"))).toList := Option.mem_toList.mpr hr
      refine ⟨.inr (answer_mem_receives hreply), fun he => ?_⟩
      have hnone := queuedAt_answer h hm0 .fail (some (textOf "handler detached"))
      have hin : m ∈ queuedAt (s.answer m0 .fail (some (textOf "handler detached"))).toList m0.mTo :=
        List.mem_filter.mpr ⟨hreply, by simpa [he] using (of_decide_eq_true hto).symm⟩
      rw [hnone] at hin
      cases hin

theorem Walked.open (ho : Open s queued) (hw : Walked s queued a s' queued' out) : Open s' queued' := by
  cases hw with
  | begun => exact ho.same rfl fun m hm => .inl hm
  | ended => exact ho.same rfl fun m hm => .inl hm
  | came => exact ho.same rfl fun m hm => .inl hm
  | drained => exact ho.same rfl fun m hm => .inl hm
  | woken => exact ho.same rfl fun m hm => .inl hm
  | kept hwalk hk hstation => exact ho.same hstation fun m hm => .inl hm
  | taken hwalk hk hm hstation =>
    refine ho.same hstation fun m hm => ?_
    rcases List.mem_append.mp hm with hm | hm
    · exact .inl (List.mem_of_mem_erase hm)
    · exact .inr (outcome_mem_receives hm)
  | passed => exact ho.same rfl fun m hm => .inl hm
  | @collected ex ep st s' hwalk hst hgone hz hheld hstation hfirst =>
    refine ⟨fun x st' hx => ?_, fun x st' hx => ?_, fun m hm st' hx => ?_⟩
    all_goals
      rw [hstation] at hx
      obtain ⟨hne, st0, h0, en, rfl⟩ := without_station hx
    · exact ho.down x st0 h0
    · exact ho.receiver x st0 h0
    · exact ho.reached m hm st0 h0

theorem queuedAt_append (ms ms' : List EpMessage) (ep : EpId) :
    queuedAt (ms ++ ms') ep = queuedAt ms ep ++ queuedAt ms' ep := List.filter_append ..

/-- A release takes nothing out of other queues. -/
theorem queuedAt_others {x : EpId} (hne : ep ≠ x) (queued : List EpMessage) :
    queuedAt (queued.filter (·.mTo ≠ x)) ep = queuedAt queued ep := by
  rw [queuedAt, List.filter_filter]
  refine List.filter_congr fun m _ => ?_
  by_cases hm : m.mTo = ep
  · simp [hm, hne]
  · simp [hm]

/-- While a wake function runs, its message is the first one of its endpoint. -/
def Heading (s : Endpoints) (queued : List EpMessage) : Prop :=
  ∀ ex ep m, s.walk = .waking ex ep m → ∀ st, s.station ep = some st → st.eUp = true →
    (queuedAt queued ep).head? = some m

theorem Heading.append {ms : List EpMessage} (h : Heading s queued) (hstation : s'.station = s.station)
    (hwalk : s'.walk = s.walk) : Heading s' (queued ++ ms) := by
  intro ex ep m hw st hst hup
  rw [hwalk] at hw
  rw [hstation] at hst
  rw [queuedAt_append, List.head?_append, h ex ep m hw st hst hup]
  rfl

/-- One station changes, which either was up before or is not the one that is awake. -/
theorem Heading.update {st' : Station} (h : Heading s queued) (hstation : s'.station = update s.station ep (some st'))
    (hwalk : s'.walk = s.walk) (hup : st'.eUp = true → (∃ ex m, s.walk = .waking ex ep m) →
      ∃ st, s.station ep = some st ∧ st.eUp = true) : Heading s' queued := by
  intro ex x m hw st hst hst'
  rw [hwalk] at hw
  rw [hstation] at hst
  by_cases hx : x = ep
  · subst hx
    rw [update_self] at hst
    cases hst
    obtain ⟨st0, h0, hup0⟩ := hup hst' ⟨ex, m, hw⟩
    exact h ex x m hw st0 h0 hup0
  · rw [update_of_ne hx] at hst
    exact h ex x m hw st hst hst'

theorem Served.heading {c : EndpointCall} (hp : WalkPlace s fresh visited rest) (hh : Heading s queued)
    (hc : Served s queued c s' queued' out) : Heading s' queued' := by
  cases hc with
  | @created wake fast ep s' hnone hstation hfirst hwalk =>
    refine hh.update hstation hwalk fun _ ⟨ex, m, hw⟩ => ?_
    have hpos : s.walk.position = some (ex, some ep) := by rw [hw]; rfl
    obtain ⟨-, -, hlive⟩ := hp.here hpos
    rw [hnone] at hlive
    cases hlive
  | sent hsame hrx => exact hh.append (funext hsame.station) hsame.walk
  | unsent hsame hrx => exact List.append_nil queued ▸ hh.append (funext hsame.station) hsame.walk
  | held hstation hfirst hwalk => exact List.append_nil queued ▸ hh.append hstation hwalk
  | closed hst hup hrx htx hstation hfirst hwalk => exact hh.update hstation hwalk fun _ _ => ⟨_, hst, hup⟩
  | @released x st s' hst hup hstation hfirst hwalk =>
    intro ex ep m hw st' hst' hup'
    rw [hwalk] at hw
    rw [hstation] at hst'
    by_cases hx : ep = x
    · subst hx
      rw [update_self] at hst'
      cases hst'
      cases hup'
    · rw [update_of_ne hx] at hst'
      rw [queuedAt_append, queuedAt_others hx, List.head?_append, hh ex ep m hw st' hst' hup']
      rfl

theorem Walked.heading (hw : Walked s queued a s' queued' out) : Heading s' queued' := by
  cases hw with
  | begun => exact nofun
  | ended => exact nofun
  | @came ex ep st =>
    intro ex' ep' m hw
    dsimp only at hw
    split at hw <;> cases hw
  | drained => exact nofun
  | @woken ex ep m rest hwalk hq =>
    intro ex' ep' m' hw st hst hup
    cases hw
    rw [hq]
    rfl
  | kept hwalk hk hstation hfirst hwalk' =>
    intro ex' ep' m' hw
    rw [hwalk'] at hw
    cases hw
  | taken hwalk hk hm hstation hfirst hwalk' =>
    intro ex' ep' m' hw
    rcases hwalk' with hwalk' | hwalk'
    all_goals
      rw [hwalk'] at hw
      cases hw
  | passed => exact nofun
  | collected hwalk hst hgone hz hheld hstation hfirst hwalk' =>
    intro ex' ep' m' hw
    rw [hwalk'] at hw
    cases hw

end

section

open Function LinkedPath

variable {s s' : Endpoints} {queued queued' : List EpMessage} {fresh fresh' visited rest : List EpId} {ep : EpId}
  {a : EndpointAction} {out : List EndpointEvent}

/-- Others are only called where the walk has an endpoint that is up, or none. -/
theorem Complete.call (h : Complete s fresh visited rest) (hlets : s.walk.lets = true) (hwalk : s'.walk = s.walk)
    (hall : ∀ x, (s'.station x).isSome → x ∈ fresh' ++ visited ++ rest)
    (hup : ∀ ex ep m st, s.walk = .waking ex ep m → s.station ep = some st → st.eUp = true →
      ∃ st', s'.station ep = some st' ∧ st'.eUp = true) : Complete s' fresh' visited rest := by
  refine ⟨hall, fun ex p hw => ?_, fun ex ep hw => ?_, fun ex ep hw => ?_⟩
  all_goals rw [hwalk] at hw
  · rw [hw] at hlets
    cases hlets
  · rcases hw with hw | ⟨m, hw⟩
    · rw [hw] at hlets
      cases hlets
    · obtain ⟨st, hst, hstup⟩ := h.polled ex ep (.inr ⟨m, hw⟩)
      exact hup ex ep m st hw hst hstup
  · rw [hw] at hlets
    cases hlets

theorem Complete.same (h : Complete s fresh visited rest) (hlets : s.walk.lets = true)
    (hstation : s'.station = s.station) (hwalk : s'.walk = s.walk) : Complete s' fresh visited rest := by
  refine h.call hlets hwalk (fun x hx => h.all x ?_) fun ex ep m st hw hst hup => ⟨st, ?_, hup⟩
  · rwa [hstation] at hx
  · rwa [hstation]

theorem Complete.update {st st' : Station} (h : Complete s fresh visited rest) (hlets : s.walk.lets = true)
    (hst : s.station ep = some st) (hstation : s'.station = update s.station ep (some st'))
    (hwalk : s'.walk = s.walk) (hup : st'.eUp = true ∨ ∀ ex m, s.walk ≠ .waking ex ep m) :
    Complete s' fresh visited rest := by
  refine h.call hlets hwalk (fun x hx => h.all x ?_) fun ex x m st0 hw h0 hup0 => ?_
  all_goals rw [hstation] at *
  · by_cases hxe : x = ep
    · rw [hxe, hst]
      rfl
    · rwa [update_of_ne hxe] at hx
  · by_cases hxe : x = ep
    · subst hxe
      rcases hup with hup | hno
      · exact ⟨st', update_self .., hup⟩
      · exact absurd hw (hno ex m)
    · exact ⟨st0, by rwa [update_of_ne hxe], hup0⟩

theorem Served.place {c : EndpointCall} (hp : WalkPlace s fresh visited rest) (hlets : s.walk.lets = true)
    (hc : Served s queued c s' queued' out) : ∃ fresh', WalkPlace s' fresh' visited rest ∧
      (OwnKept s (.call c) → Complete s fresh visited rest → Complete s' fresh' visited rest) := by
  cases hc with
  | @created wake fast ep s' hnone hstation hfirst hwalk =>
    refine ⟨ep :: fresh, hp.create hnone rfl hstation hfirst hwalk, fun _ h => ?_⟩
    refine h.call hlets hwalk (fun x hx => ?_) fun ex x m st hw hst hup => ⟨st, ?_, hup⟩
    all_goals rw [hstation] at *
    · by_cases hxe : x = ep
      · simp [hxe]
      · rw [update_of_ne hxe] at hx
        exact List.mem_cons_of_mem _ (h.all x hx)
    · rw [update_of_ne, hst]
      rintro rfl
      rw [hnone] at hst
      cases hst
  | sent hsame hrx =>
    exact ⟨fresh, hp.same (funext hsame.station) hsame.first (congrArg _ hsame.walk),
      fun _ h => h.same hlets (funext hsame.station) hsame.walk⟩
  | unsent hsame hrx =>
    exact ⟨fresh, hp.same (funext hsame.station) hsame.first (congrArg _ hsame.walk),
      fun _ h => h.same hlets (funext hsame.station) hsame.walk⟩
  | held hstation hfirst hwalk =>
    exact ⟨fresh, hp.same hstation hfirst (congrArg _ hwalk), fun _ h => h.same hlets hstation hwalk⟩
  | closed hst hup hrx htx hstation hfirst hwalk =>
    exact ⟨fresh, hp.update hst hstation rfl hfirst (congrArg _ hwalk),
      fun _ h => h.update hlets hst hstation hwalk (.inl hup)⟩
  | released hst hup hstation hfirst hwalk =>
    exact ⟨fresh, hp.update hst hstation rfl hfirst (congrArg _ hwalk),
      fun hown h => h.update hlets hst hstation hwalk (.inr fun ex m hw => hown ex _ m hw rfl)⟩

theorem Walked.place (hp : WalkPlace s fresh visited rest)
    (hw : Walked s queued a s' queued' out) : ∃ fresh' visited' rest', WalkPlace s' fresh' visited' rest' ∧
      (Complete s fresh visited rest → Complete s' fresh' visited' rest') := by
  cases hw with
  | begun hwalk =>
    refine ⟨[], [], fresh ++ visited ++ rest, hp.begin, fun h => ⟨h.all, fun _ _ _ _ => rfl, ?_, nofun⟩⟩
    rintro ex ep (hw | ⟨m, hw⟩) <;> cases hw
  | ended hwalk =>
    refine ⟨fresh, visited, rest, hp.finish, fun h => ⟨h.all, nofun, ?_, nofun⟩⟩
    rintro ex ep (hw | ⟨m, hw⟩) <;> cases hw
  | @came ex ep st hwalk hst =>
    refine ⟨fresh, visited, rest, hp.same rfl rfl ?_, fun h => ⟨h.all, fun ex' p hw => ?_, fun ex' x hw => ?_,
      fun ex' x hw hv => .inl (h.arriving ex _ hwalk hv)⟩⟩
    · rw [hwalk]
      dsimp only
      split <;> rfl
    · dsimp only at hw
      split at hw <;> cases hw
    · dsimp only at hw
      split at hw
      next hup =>
        rcases hw with hw | ⟨m, hw⟩
        · cases hw
          exact ⟨st, hst, hup⟩
        · cases hw
      next =>
        rcases hw with hw | ⟨m, hw⟩
        · cases hw
        · cases hw
  | @drained ex ep hwalk hq =>
    refine ⟨fresh, visited, rest, hp.same rfl rfl (by rw [hwalk]; rfl), fun h => ⟨h.all, nofun, ?_,
      fun ex' x hw hv => .inr ?_⟩⟩
    · rintro ex' x (hw | ⟨m, hw⟩) <;> cases hw
    · cases hw
      exact h.polled ex ep (.inl hwalk)
  | @woken ex ep m more hwalk hq =>
    refine ⟨fresh, visited, rest, hp.same rfl rfl (by rw [hwalk]; rfl), fun h => ⟨h.all, nofun, ?_, nofun⟩⟩
    rintro ex' x (hw | ⟨m', hw⟩)
    · cases hw
    · cases hw
      exact h.polled ex ep (.inl hwalk)
  | @kept ex ep m r s' hwalk hk hstation hfirst hwalk' =>
    refine ⟨fresh, visited, rest, hp.same hstation hfirst (by rw [hwalk, hwalk']; rfl), fun h =>
      ⟨fun x hx => h.all x (hstation ▸ hx), fun ex' p hw => ?_, fun ex' x hw => ?_, fun ex' x hw hv => .inr ?_⟩⟩
    all_goals rw [hwalk'] at hw
    · cases hw
    · rcases hw with hw | ⟨m', hw⟩ <;> cases hw
    · cases hw
      rw [hstation]
      exact h.polled ex ep (.inr ⟨m, hwalk⟩)
  | @taken ex ep m r s' hwalk hk hm hstation hfirst hwalk' =>
    have hpos : s'.walk.position = s.walk.position := by
      rcases hwalk' with hwalk' | hwalk' <;> rw [hwalk, hwalk'] <;> rfl
    refine ⟨fresh, visited, rest, hp.same hstation hfirst hpos, fun h =>
      ⟨fun x hx => h.all x (hstation ▸ hx), fun ex' p hw => ?_, fun ex' x hw => ?_, fun ex' x hw hv => .inr ?_⟩⟩
    · rcases hwalk' with hwalk' | hwalk' <;> rw [hwalk'] at hw <;> cases hw
    · rcases hwalk' with hwalk' | hwalk'
      all_goals
        rw [hwalk'] at hw
        rcases hw with hw | ⟨m', hw⟩ <;> cases hw
      rw [hstation]
      exact h.polled ex ep (.inr ⟨m, hwalk⟩)
    · rcases hwalk' with hwalk' | hwalk'
      all_goals
        rw [hwalk'] at hw
        cases hw
      rw [hstation]
      exact h.polled ex ep (.inr ⟨m, hwalk⟩)
  | @passed ex ep st hwalk hst =>
    have hpos : s.walk.position = some (ex, some ep) := by rw [hwalk]; rfl
    obtain ⟨more, rfl, -⟩ := hp.here hpos
    refine ⟨fresh, visited ++ [ep], more, hp.pass hst, fun h => ⟨fun x hx => ?_, fun ex' p hw hv => ?_, ?_, nofun⟩⟩
    · have hin := h.all x hx
      simpa using hin
    · simp at hv
    · rintro ex' x (hw | ⟨m, hw⟩) <;> cases hw
  | @collected ex ep st s' hwalk hst hgone hz hheld hstation hfirst hwalk' =>
    have hpos : s.walk.position = some (ex, some ep) := by rw [hwalk]; rfl
    obtain ⟨more, rfl, -⟩ := hp.here hpos
    refine ⟨_, visited, more, hp.collect (hp.position _ _ hpos).1 hst hstation hfirst hwalk', fun h =>
      ⟨fun x hx => ?_, fun ex' p hw hv => ?_, fun ex' x hw => ?_, fun ex' x hw => ?_⟩⟩
    · obtain ⟨st', hx'⟩ := Option.isSome_iff_exists.mp hx
      rw [hstation] at hx'
      obtain ⟨hne, st0, h0, -⟩ := without_station hx'
      have hin := h.all x (by rw [h0]; rfl)
      have hfront : visited = [] → fresh = [] := fun hv => by
        rcases h.settling ex ep hwalk hv with hf | ⟨st1, h1, hup⟩
        · exact hf
        · cases hst.symm.trans h1
          simp [Station.gone, hup] at hgone
      by_cases hv : visited = []
      · simpa [hv, hfront hv, hne] using hin
      · simpa [hv, hne] using hin
    · rw [if_pos hv]
    · rw [hwalk'] at hw
      rcases hw with hw | ⟨m, hw⟩ <;> cases hw
    · rw [hwalk'] at hw
      cases hw

/-- What holds of the endpoints in every state. -/
structure EndpointsInv (s : Endpoints) (queued : List EpMessage) : Prop where
  ledger : Ledger s [] queued
  openness : Open s queued
  heading : Heading s queued
  place : ∃ fresh visited rest, WalkPlace s fresh visited rest

theorem EndpointsInv.awake (h : EndpointsInv s queued) :
    ∀ ex ep m, s.walk = .waking ex ep m → (s.station ep).isSome := by
  intro ex ep m hw
  obtain ⟨fresh, visited, rest, hp⟩ := h.place
  have hpos : s.walk.position = some (ex, some ep) := by rw [hw]; rfl
  obtain ⟨-, -, hlive⟩ := hp.here hpos
  exact hlive

theorem noEndpoints_inv : EndpointsInv noEndpoints [] :=
  ⟨⟨⟨nofun, nofun, nofun⟩, .refl _, List.nodup_nil, nofun, nofun, nofun, fun _ _ => rfl⟩, ⟨nofun, nofun, nofun⟩,
    nofun, [], [], [], rfl, List.nodup_nil, nofun, nofun⟩

/-- Every action does what it should, and keeps the endpoints in order. -/
theorem EndpointsInv.act (h : EndpointsInv s queued) (hs : s.act a = some (s', out)) :
    ∃ queued', Acted s queued a s' queued' out ∧ EndpointsInv s' queued' := by
  obtain ⟨queued', hacted, hledger⟩ := act_spec h.ledger h.openness h.awake hs
  obtain ⟨fresh, visited, rest, hp⟩ := h.place
  refine ⟨queued', hacted, hledger, ?_, ?_, ?_⟩
  · cases hacted with
    | served hlets hc => exact hc.open h.ledger h.openness
    | walked hw => exact hw.open h.openness
  · cases hacted with
    | served hlets hc => exact hc.heading hp h.heading
    | walked hw => exact hw.heading
  · cases hacted with
    | served hlets hc =>
      obtain ⟨fresh', hp', -⟩ := hc.place hp hlets
      exact ⟨fresh', visited, rest, hp'⟩
    | walked hw =>
      obtain ⟨fresh', visited', rest', hp', -⟩ := hw.place hp
      exact ⟨fresh', visited', rest', hp'⟩

/-- The references to an endpoint are those of the messages and of others, its queue holds the
messages to it, and every endpoint is on the list once. -/
structure EndpointsSound (s : Endpoints) : Prop where
  messages : ∃ queued : List EpMessage, s.heap.Perm (queued.map EpMessage.mAddress) ∧
    (queued.map EpMessage.mAddress).Nodup ∧ (∀ m ∈ queued, (s.store m.mTo).isSome) ∧
    ∀ ep e, s.store ep = some e →
      e.eRefcount = queued.countP (·.mFrom = some ep) + queued.countP (·.mTo = ep) + s.held ep ∧
      Window e.eQueue (queued.filter (·.mTo = ep))
  list : ∃ ids, Path s.next s.sEndpoints ids none ∧ ids.Nodup ∧ ∀ ep, ep ∈ ids ↔ (s.store ep).isSome

theorem namings_count (ms : List EpMessage) (ep : EpId) :
    namings ms ep = ms.countP (·.mFrom = some ep) + ms.countP (·.mTo = ep) := by
  induction ms with
  | nil => rfl
  | cons m ms ih =>
    rw [namings_cons, ih, List.countP_cons, List.countP_cons, EpMessage.names]
    simp only [decide_eq_true_eq]
    omega

theorem station_isSome (s : Endpoints) (ep : EpId) : (s.station ep).isSome = (s.store ep).isSome := by
  simp [Endpoints.station]

theorem EndpointsInv.sound (h : EndpointsInv s queued) (hp : WalkPlace s fresh visited rest)
    (hc : Complete s fresh visited rest) : EndpointsSound s := by
  have hheap := h.ledger.heap
  have hdistinct := h.ledger.distinct
  rw [List.nil_append] at hheap hdistinct
  refine ⟨⟨queued, hheap, hdistinct, fun m hm => ?_, fun ep e he => ⟨?_, (h.ledger.tally.queue ep e he).window⟩⟩,
    fresh ++ visited ++ rest, hp.path, hp.nodup, fun ep => ⟨fun hin => ?_, fun hlive => ?_⟩⟩
  · rw [← station_isSome]
    exact h.ledger.target m hm
  · rw [h.ledger.tally.counted ep e he, List.nil_append, namings_count]
  · rw [← station_isSome]
    exact hp.live ep hin
  · rw [← station_isSome] at hlive
    exact hc.all ep hlive

theorem update_isSome {f : EpId → Option Station} {st : Station} {x : EpId} (h : (f x).isSome) :
    (update f ep (some st) x).isSome := by
  by_cases hx : x = ep
  · rw [hx, update_self]
    rfl
  · rwa [update_of_ne hx]

theorem Served.live {c : EndpointCall} (hc : Served s queued c s' queued' out) (h : (s.station ep).isSome) :
    (s'.station ep).isSome := by
  cases hc with
  | created _ hstation => exact hstation ▸ update_isSome h
  | sent hsame => rwa [hsame.station]
  | unsent hsame => rwa [hsame.station]
  | held hstation => rwa [hstation]
  | closed _ _ _ _ hstation => exact hstation ▸ update_isSome h
  | released _ _ hstation => exact hstation ▸ update_isSome h

/-- Where an endpoint is freed, it was released, and nothing referred to it. -/
theorem Acted.freed {e : Endpoint} (h : Ledger s [] queued) (ha : Acted s queued a s' queued' out)
    (he : s.store ep = some e) (hnone : s'.store ep = none) :
    e.gone = true ∧ e.eRefcount = 0 ∧ s.held ep = 0 ∧ e.eQueue.gCount = 0 := by
  have hst := Endpoints.station_of_store he
  have hlive : (s.station ep).isSome := by rw [hst]; rfl
  have hdead : (s'.station ep).isSome = false := by rw [station_isSome, hnone]; rfl
  cases ha with
  | served _ hc =>
    rw [hc.live hlive] at hdead
    cases hdead
  | walked hw =>
    cases hw with
    | begun => exact absurd (hlive.symm.trans hdead) nofun
    | ended => exact absurd (hlive.symm.trans hdead) nofun
    | came => exact absurd (hlive.symm.trans hdead) nofun
    | drained => exact absurd (hlive.symm.trans hdead) nofun
    | woken => exact absurd (hlive.symm.trans hdead) nofun
    | kept _ _ hstation =>
      rw [hstation, hlive] at hdead
      cases hdead
    | taken _ _ _ hstation =>
      rw [hstation, hlive] at hdead
      cases hdead
    | passed => exact absurd (hlive.symm.trans hdead) nofun
    | @collected ex x st s' hwalk hx hgone hz hheld hstation hfirst hwalk' =>
      have hxe : ep = x := by
        by_contra hne
        rw [hstation, without_isSome hne, hlive] at hdead
        cases hdead
      subst hxe
      obtain rfl := Option.some.inj (hx.symm.trans hst)
      have hunnamed := namings_eq_zero.mp hz
      have hcount := h.tally.counted ep e he
      have hempty : queuedAt queued ep = [] := List.filter_eq_nil_iff.mpr fun m hm => by
        simpa using (hunnamed m hm).2
      refine ⟨hgone, ?_, hheld, ?_⟩
      · rw [hcount, List.nil_append, hz, hheld]
      · rw [(h.tally.queue ep e he).count, hempty]
        rfl

theorem endpoints_run_inv {log : List EndpointEvent} (h : endpointMachine.Runs OwnKept s log) :
    ∃ queued, EndpointsInv s queued ∧
      ∃ fresh visited rest, WalkPlace s fresh visited rest ∧ Complete s fresh visited rest := by
  refine h.invariant (fun s _ => ∃ queued, EndpointsInv s queued ∧
    ∃ fresh visited rest, WalkPlace s fresh visited rest ∧ Complete s fresh visited rest) ?_ ?_
  · refine ⟨[], noEndpoints_inv, [], [], [], ⟨rfl, List.nodup_nil, nofun, nofun⟩, nofun, nofun, ?_, nofun⟩
    rintro ex ep (hw | ⟨m, hw⟩) <;> cases hw
  · rintro s log a s' ⟨queued, hinv, fresh, visited, rest, hp, hc⟩ hown hs
    obtain ⟨⟨s1, out⟩, ha, rfl⟩ := Option.map_eq_some_iff.mp hs
    obtain ⟨queued', hacted, hinv'⟩ := hinv.act ha
    refine ⟨queued', hinv', ?_⟩
    cases hacted with
    | served hlets hserved =>
      obtain ⟨fresh', hp', hc'⟩ := hserved.place hp hlets
      exact ⟨fresh', visited, rest, hp', hc' hown hc⟩
    | walked hw =>
      obtain ⟨fresh', visited', rest', hp', hc'⟩ := hw.place hp
      exact ⟨fresh', visited', rest', hp', hc' hc⟩

/-- Where wake functions do not release their own endpoint, references and list are right in every
state, and an endpoint is freed only once it is released, unreferenced and empty. -/
theorem endpoints_stay_sound {log : List EndpointEvent} (h : endpointMachine.Runs OwnKept s log) :
    EndpointsSound s ∧ ∀ a s', endpointMachine.step s a = some s' → ∀ ep e, s.store ep = some e →
      s'.store ep = none → e.gone = true ∧ e.eRefcount = 0 ∧ s.held ep = 0 ∧ e.eQueue.gCount = 0 := by
  obtain ⟨queued, hinv, fresh, visited, rest, hp, hc⟩ := endpoints_run_inv h
  refine ⟨hinv.sound hp hc, fun a s' hs ep e he hnone => ?_⟩
  obtain ⟨⟨s1, out⟩, ha, rfl⟩ := Option.map_eq_some_iff.mp hs
  obtain ⟨queued', hacted, -⟩ := hinv.act ha
  exact hacted.freed hinv.ledger he hnone

theorem ownKept_of_ne (h : ∀ ep, a ≠ .call (.release ep)) : OwnKept s a := fun _ ep _ _ => h ep

/-- A wake function makes an endpoint and releases another one, the sender of its request. -/
theorem endpoints_stay_sound_released : ∃ s, EndpointsSound s ∧ (s.store 1).isNone ∧ s.sEndpoints = some 3 := by
  have hrun := Machine.Runs.exec (.start : endpointMachine.Runs OwnKept noEndpoints [])
    [.call (.create true false 1), .call (.create true false 2),
      .call (.send (some 1) 2 [textOf "?do"] true 50), .advance, .advance, .advance,
      .call (.create true false 3), .call (.release 1), .wakeReturns (.done .ok), .advance, .advance, .advance]
    rfl
    ⟨ownKept_of_ne nofun, fun s1 h1 => ⟨ownKept_of_ne nofun, fun s2 h2 => ⟨ownKept_of_ne nofun, fun s3 h3 =>
      ⟨ownKept_of_ne nofun, fun s4 h4 => ⟨ownKept_of_ne nofun, fun s5 h5 => ⟨ownKept_of_ne nofun, fun s6 h6 =>
      ⟨ownKept_of_ne nofun, fun s7 h7 => ⟨?_, fun s8 _ => ⟨ownKept_of_ne nofun, fun s9 _ =>
      ⟨ownKept_of_ne nofun, fun s10 _ => ⟨ownKept_of_ne nofun, fun s11 _ => ⟨ownKept_of_ne nofun,
      fun s12 _ => trivial⟩⟩⟩⟩⟩⟩⟩⟩⟩⟩⟩⟩
  · exact ⟨_, (endpoints_stay_sound hrun).1, rfl, rfl⟩
  · obtain rfl := Option.some.inj h1
    obtain rfl := Option.some.inj h2
    obtain rfl := Option.some.inj h3
    obtain rfl := Option.some.inj h4
    obtain rfl := Option.some.inj h5
    obtain rfl := Option.some.inj h6
    obtain rfl := Option.some.inj h7
    intro ex ep m hw
    cases hw
    nofun

end

end Katcp
