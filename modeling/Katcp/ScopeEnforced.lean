import Katcp.ScopeCommands

namespace Katcp

open Function

variable {s : ScopedClients} {this fx : FlatId} {f z : GroupFlat} {o : ScopedOutcome} {g : GroupId} {args : Words}

/-- An outcome that changes and sends nothing. -/
theorem enforced_answer (s : ScopedClients) (this : FlatId) (f : GroupFlat) (result : ResultCode) (extra : Option Text) :
    Enforced s this f (s.answer result extra) := by
  refine ⟨fun fz z hz _ => ⟨hz, rfl⟩, fun fz m z hm => (nomatch hm), fun g hg => (nomatch hg), fun g gx hg _ => ?_⟩
  unfold ScopedClients.answer
  dsimp only
  rw [hg]
  rfl

/-- The search that keeps to the scope of the client finds none outside. -/
theorem scopeNameFull_inside (hs : GroupInv s.groups) (hf : s.groups.flats this = some f) (hscope : f.fScope ≠ .all)
    (group : Option Text) (n : Text) : ∃ r, s.groups.scopeNameFull (some this) none group (some n) = some r ∧
      ∀ fx, r = some fx → ∃ z, s.groups.flats fx = some z ∧ ¬Outside this f fx z := by
  have hgrouped := hs.grouped
  obtain ⟨g, gx, hg, -⟩ := hgrouped.client this f hf
  cases hscope' : f.fScope with
  | all => exact absurd hscope' hscope
  | client =>
    refine ⟨if f.fName = some n then some this else none, ?_, ?_⟩
    · simp only [Groups.scopeNameFull, Option.none_or, hf, Option.bind_some, hscope']
      split <;> rfl
    · intro fx hfx
      split at hfx
      · cases hfx
        refine ⟨f, hf, ?_⟩
        rw [Outside, hscope']
        exact fun hne => hne rfl
      · cases hfx
  | group =>
    refine ⟨if group.isSome ∧ s.groups.groupName g ≠ group then none else searchIn s.groups [g] n, ?_, ?_⟩
    · simp only [Groups.scopeNameFull, Option.none_or, hf, Option.bind_some, hscope', hg, searchName_group]
      split <;> rfl
    · intro fx hfx
      split at hfx
      · cases hfx
      · obtain ⟨_, g', hfirst, hmem⟩ := searchIn_some hfx
        cases List.mem_singleton.mp hfirst.mem
        obtain ⟨z, hz, hzg⟩ := hgrouped.mem_members.mp hmem
        refine ⟨z, hz, ?_⟩
        rw [Outside, hscope', hg, hzg]
        exact fun hne => hne rfl

/-- A change to a client inside the scope. -/
theorem enforced_flat {s' : ScopedClients} {result : ResultCode} {extra : Option Text}
    (hz : s.groups.flats fx = some z) (hin : ¬Outside this f fx z)
    (hflats : ∀ fz, fz ≠ fx → s'.groups.flats fz = s.groups.flats fz) (hflags : ∀ fz, fz ≠ fx → s'.fFlags fz = s.fFlags fz)
    (hgroups : s'.groups.groups = s.groups.groups) : Enforced s this f (s'.answer result extra) := by
  refine ⟨fun fz y hy hout => ?_, fun fz m y hm => (nomatch hm), fun g hg => (nomatch hg), fun g gx hg _ => ?_⟩
  · have hne : fz ≠ fx := by
      rintro rfl
      rw [hz] at hy
      cases hy
      exact hin hout
    exact ⟨(hflats fz hne).trans hy, hflags fz hne⟩
  · unfold ScopedClients.answer
    dsimp only
    rw [hgroups, hg]
    rfl

theorem configFlat_enforced (hz : s.groups.flats fx = some z) (hin : ¬Outside this f fx z) (option : Text) :
    ∃ o, s.configFlat fx option = some o ∧ Enforced s this f o := by
  unfold ScopedClients.configFlat
  split
  next => exact ⟨_, rfl, enforced_answer ..⟩
  next mask set _ =>
    unfold ScopedClients.reconfigureFlat
    rw [hz, Option.map_some, Option.map_some]
    refine ⟨_, rfl, ?_⟩
    cases z.fGroup with
    | none => exact enforced_flat hz hin (fun _ _ => rfl) (fun _ _ => rfl) rfl
    | some gx => exact enforced_flat hz hin (fun _ _ => rfl) (fun fz hne => update_of_ne hne ..) rfl

theorem haltFlat_enforced (hz : s.groups.flats fx = some z) (hin : ¬Outside this f fx z) :
    ∃ o, s.haltFlat fx = some o ∧ Enforced s this f o := by
  unfold ScopedClients.haltFlat Groups.terminateFlat
  rw [hz, Option.map_some, Option.map_some]
  refine ⟨_, rfl, ?_⟩
  cases z.fState <;>
    exact enforced_flat hz hin (fun fz hne => by first | rfl | exact update_of_ne hne ..) (fun _ _ => rfl) rfl

theorem setScope_enforced (hz : s.groups.flats fx = some z) (hin : ¬Outside this f fx z) (scope : ClientScope) :
    ∃ o, s.setScope fx scope = some o ∧ Enforced s this f o := by
  unfold ScopedClients.setScope
  rw [hz, Option.map_some]
  exact ⟨_, rfl, enforced_flat hz hin (fun fz hne => update_of_ne hne ..) (fun _ _ => rfl) rfl⟩

theorem not_outside_self (hscope : f.fScope ≠ .all) : ¬Outside this f this f := by
  unfold Outside
  cases hscope' : f.fScope with
  | all => exact absurd hscope' hscope
  | client => exact fun hne => hne rfl
  | group => exact fun hne => hne rfl

theorem clientConfig_enforced (hs : GroupInv s.groups) (hf : s.groups.flats this = some f) (hscope : f.fScope ≠ .all)
    (args : Words) : ∃ o, s.clientConfig this args = some o ∧ Enforced s this f o := by
  unfold ScopedClients.clientConfig
  split
  · exact ⟨_, rfl, enforced_answer ..⟩
  · split
    next => exact ⟨_, rfl, enforced_answer ..⟩
    next option _ =>
      split
      · split
        next => exact ⟨_, rfl, enforced_answer ..⟩
        next client _ =>
          obtain ⟨r, hr, hin⟩ := scopeNameFull_inside hs hf hscope none client
          rw [hr, Option.bind_some]
          cases r with
          | none => exact ⟨_, rfl, enforced_answer ..⟩
          | some fx =>
            obtain ⟨z, hz, hout⟩ := hin fx rfl
            exact configFlat_enforced hz hout option
      · exact configFlat_enforced hf (not_outside_self hscope) option

theorem clientHalt_enforced (hs : GroupInv s.groups) (hf : s.groups.flats this = some f) (hscope : f.fScope ≠ .all)
    (args : Words) : ∃ o, s.clientHalt this args = some o ∧ Enforced s this f o := by
  unfold ScopedClients.clientHalt
  split
  · split
    next => exact ⟨_, rfl, enforced_answer ..⟩
    next client _ =>
      split
      · exact ⟨_, rfl, enforced_answer ..⟩
      · obtain ⟨r, hr, hin⟩ := scopeNameFull_inside hs hf hscope (argString args 2) client
        rw [hr, Option.bind_some]
        cases r with
        | none => exact ⟨_, rfl, enforced_answer ..⟩
        | some fx =>
          obtain ⟨z, hz, hout⟩ := hin fx rfl
          exact haltFlat_enforced hz hout
  · exact haltFlat_enforced hf (not_outside_self hscope)

/-- What becomes of the state of a client that is terminated. -/
def haltedState : FlatState → FlatState
  | .connecting => .crashing
  | .up => .finishing
  | st => st

theorem haltedState_ne_gone {st : FlatState} (h : st ≠ .gone) : haltedState st ≠ .gone := by
  cases st with
  | gone => exact absurd rfl h
  | _ => exact nofun

theorem haltedState_eq {st : FlatState} : haltedState st = st ↔ st ≠ .up ∧ st ≠ .connecting := by
  cases st <;> simp [haltedState]

theorem setFlat_same {s : Groups} (hz : s.flats fx = some z) : s.setFlat fx (some z) = s := by
  rw [Groups.setFlat, ← hz, update_eq_self]

theorem terminateFlat_eq {s : Groups} (hz : s.flats fx = some z) :
    ∃ r, s.terminateFlat fx = some (r, s.setFlat fx (some { z with fState := haltedState z.fState })) := by
  unfold Groups.terminateFlat
  rw [hz, Option.map_some]
  have hsame := setFlat_same hz
  obtain ⟨fName, fGroup, fScope, fState, fRenameLock⟩ := z
  cases fState with
  | connecting => exact ⟨0, rfl⟩
  | up => exact ⟨0, rfl⟩
  | _ => exact ⟨1, congrArg (fun t => some ((1 : Int), t)) hsame.symm⟩

section

variable {s s' : Groups} {gs : List GroupId} {fs : GroupId → List FlatId}

/-- The loop of a termination reaches each of the clients that are left once. -/
theorem terminateFlats_spec {n i : Nat} (hh : Housed s gs fs) (hg : g ∈ gs) (hn : i + n = (fs g).length) :
    ∃ s', Groups.terminateFlats g n i s = some s' ∧ s'.groups = s.groups ∧
      (∀ fz, fz ∉ (fs g).drop i → s'.flats fz = s.flats fz) ∧
      ∀ fz z, fz ∈ (fs g).drop i → s.flats fz = some z →
        s'.flats fz = some { z with fState := haltedState z.fState } := by
  induction n generalizing s i with
  | zero =>
    have hnone : (fs g).drop i = [] := List.drop_eq_nil_of_le (by omega)
    refine ⟨s, rfl, rfl, fun _ _ => rfl, fun fz z hin => ?_⟩
    rw [hnone] at hin
    cases hin
  | succ n ih =>
    obtain ⟨gx, hgx⟩ := hh.group hg
    have hi : i < (fs g).length := by omega
    have hlists := hh.holds g gx hgx
    have hread : gx.gFlats.block[i]?.join = some (fs g)[i] := by
      rw [hlists.get (hlists.count ▸ hi), List.getElem?_eq_getElem hi]
      rfl
    obtain ⟨z, hz, hzg⟩ := (hh.member g hg (fs g)[i]).mp (List.getElem_mem hi)
    obtain ⟨r, ht⟩ := terminateFlat_eq hz
    have hdrop : (fs g).drop i = (fs g)[i] :: (fs g).drop (i + 1) := List.drop_eq_getElem_cons hi
    have hnodup : (fs g)[i] ∉ (fs g).drop (i + 1) :=
      (List.nodup_cons.mp (hdrop ▸ (hh.once g hg).sublist (List.drop_sublist i _))).1
    have hnext : Housed (s.setFlat (fs g)[i] (some { z with fState := haltedState z.fState })) gs fs :=
      hh.setFlat hz rfl (haltedState_ne_gone (hh.alive _ z hz))
    obtain ⟨s', hs', hgroups, hrest, hhalted⟩ := ih (i := i + 1) hnext (by omega)
    refine ⟨s', ?_, hgroups, fun fz hout => ?_, fun fz y hin hy => ?_⟩
    · unfold Groups.terminateFlats
      rw [hgx, Option.bind_some, hread, Option.bind_some, ht, Option.bind_some]
      exact hs'
    · rw [hdrop, List.mem_cons, not_or] at hout
      rw [hrest fz hout.2]
      exact update_of_ne hout.1 ..
    · rw [hdrop, List.mem_cons] at hin
      rcases hin with rfl | hin
      · rw [hrest _ hnodup]
        rw [hz] at hy
        cases hy
        exact update_self ..
      · have hne : fz ≠ (fs g)[i] := fun he => hnodup (he ▸ hin)
        exact hhalted fz y hin ((update_of_ne hne ..).trans hy)

/-- A hard termination takes down the clients of the group, and marks it. -/
theorem terminateGroup_spec {gx : KatcpGroup} (hs : GroupInv s) (hgx : s.groups g = some gx) :
    ∃ s', s.terminateGroup g true = some s' ∧ s'.groups = update s.groups g (some { gx with gAutoremove := true }) ∧
      (∀ fz z, s.flats fz = some z → z.fGroup ≠ some g → s'.flats fz = some z) ∧
      ∀ fz z, s.flats fz = some z → z.fGroup = some g → s'.flats fz = some { z with fState := haltedState z.fState } := by
  obtain ⟨gs, fs, hh, -⟩ := hs
  have hg := hh.mem hgx
  have hcount : gx.gFlats.count = (fs g).length := (hh.holds g gx hgx).count
  obtain ⟨s', hs', hgroups, hrest, hhalted⟩ := terminateFlats_spec (i := 0) (n := (fs g).length) hh hg (Nat.zero_add _)
  rw [List.drop_zero] at hrest hhalted
  refine ⟨s'.setGroup g (some { gx with gAutoremove := true }), ?_, ?_, fun fz z hz hne => ?_, fun fz z hz he => ?_⟩
  · unfold Groups.terminateGroup
    rw [hgx, Option.bind_some, hcount, hs', Option.bind_some, if_pos rfl, hgroups, hgx]
    rfl
  · rw [Groups.setGroup_groups, hgroups]
  · refine (hrest fz fun hin => ?_).trans hz
    obtain ⟨y, hy, hyg⟩ := (hh.member g hg fz).mp hin
    rw [hz] at hy
    cases hy
    exact hne hyg
  · exact hhalted fz z ((hh.member g hg fz).mpr ⟨z, hz, he⟩) hz

end

theorem groupHalt_iff (hs : GroupInv s.groups) (hf : s.groups.flats this = some f) (args : Words) :
    (∃ o, s.groupHalt this args = some o ∧ Enforced s this f o) ↔ Heeds s this f (.groupHalt args) := by
  unfold Heeds ScopedClients.groupHalt
  dsimp only
  cases htarget : s.haltTarget this args with
  | none => exact ⟨fun _ g hg => (nomatch hg), fun _ => ⟨_, rfl, enforced_answer ..⟩⟩
  | some g =>
    have hgx : ∃ gx, s.groups.groups g = some gx := by
      unfold ScopedClients.haltTarget at htarget
      split at htarget
      · obtain ⟨g', gx, hg', hgx, -⟩ := hs.grouped.client this f hf
        have hthis : s.groups.thisGroup (some this) = f.fGroup := by
          rw [Groups.thisGroup, hf, Option.bind_some]
        rw [hthis, hg'] at htarget
        cases htarget
        exact ⟨gx, hgx⟩
      · obtain ⟨name, _, hfind⟩ := Option.bind_eq_some_iff.mp htarget
        exact hs.grouped.mem_allGroups.mp (List.mem_of_find?_eq_some hfind)
    obtain ⟨gx, hgx⟩ := hgx
    obtain ⟨s', hs', hgroups, hrest, hhalted⟩ := terminateGroup_spec hs hgx
    dsimp only
    rw [hs', Option.map_some]
    constructor
    · rintro ⟨o, ho, henforced⟩ g' hg'
      cases ho
      cases hg'
      refine ⟨henforced.halted g (List.mem_singleton_self g), fun fz z hz hzg hout => ?_⟩
      have hkept : s'.flats fz = some z := (henforced.spared fz z hz hout).1
      rw [hhalted fz z hz hzg] at hkept
      exact haltedState_eq.mp (congrArg GroupFlat.fState (Option.some.inj hkept))
    · intro hheeds
      obtain ⟨hown, hquiet⟩ := hheeds g rfl
      refine ⟨_, rfl, ?_, fun fz m z hm => (nomatch hm), ?_, ?_⟩
      · intro fz z hz hout
        refine ⟨?_, rfl⟩
        by_cases hzg : z.fGroup = some g
        · refine (hhalted fz z hz hzg).trans ?_
          rw [haltedState_eq.mpr (hquiet fz z hz hzg hout)]
        · exact hrest fz z hz hzg
      · intro g' hg'
        rw [List.mem_singleton.mp hg', hown]
      · intro g' gt hgt hne
        dsimp only
        have hother : g' ≠ g := fun he => hne (he ▸ hown)
        rw [hgroups, update_of_ne hother, hgt]
        rfl

theorem broadcastFlat_mem (hs : GroupInv s.groups) {px m : Words} :
    (fx, m) ∈ s.broadcastFlat none px ↔ m = px ∧ ∃ z, s.groups.flats fx = some z ∧ z.fState = .up := by
  unfold ScopedClients.broadcastFlat ScopedClients.broadcastGroup
  have hgrouped := hs.grouped
  simp only [List.mem_flatMap, List.mem_map, List.mem_filter, Prod.mk.injEq, hgrouped.mem_members]
  constructor
  · rintro ⟨g, _, fz, ⟨⟨z, hz, _⟩, hup⟩, rfl, rfl⟩
    rw [hz, Option.any_some, decide_eq_true_eq] at hup
    exact ⟨rfl, z, hz, hup⟩
  · rintro ⟨rfl, z, hz, hup⟩
    obtain ⟨g, gx, hzg, hgx, _⟩ := hgrouped.client fx z hz
    refine ⟨g, hgrouped.mem_allGroups.mpr ⟨gx, hgx⟩, fx, ⟨⟨z, hz, hzg⟩, ?_⟩, rfl, rfl⟩
    rw [hz, Option.any_some, hup]
    rfl

/-- A message that only goes to a group is heard by clients of that group. -/
theorem broadcastFlat_group (hs : GroupInv s.groups) {px m : Words} (h : (fx, m) ∈ s.broadcastFlat (some g) px) :
    ∃ z, s.groups.flats fx = some z ∧ z.fGroup = some g := by
  unfold ScopedClients.broadcastFlat ScopedClients.broadcastGroup at h
  obtain ⟨fz, hfz, he⟩ := List.mem_map.mp h
  cases he
  exact hs.grouped.mem_members.mp (List.mem_of_mem_filter hfz)

/-- A message that is sent leaves everything as it is. -/
theorem sendBroadcast_enforced {gx : Option GroupId}
    (h : ∀ inform, argString args 2 = some inform → inform.head? ≠ some (byte '!') → inform.head? ≠ some (byte '?') →
      ∀ fz m z, (fz, m) ∈ s.broadcastFlat gx (ScopedClients.defaultInform inform :: args.drop 3) →
        s.groups.flats fz = some z → ¬Outside this f fz z) : Enforced s this f (s.sendBroadcast gx args) := by
  unfold ScopedClients.sendBroadcast
  split
  next => exact enforced_answer ..
  next inform hinform =>
    split
    next => exact enforced_answer ..
    next hkind =>
      rw [not_or] at hkind
      refine ⟨fun fz z hz _ => ⟨hz, rfl⟩, h inform hinform hkind.1 hkind.2, fun g hg => (nomatch hg), fun g gx hg _ => ?_⟩
      dsimp only
      rw [hg]
      rfl

/-- A restricted client finds no group by name, and with a group that has no name the search ends
in an abort. -/
theorem scopeNameGroup_restricted {n : Text} (hf : s.groups.flats this = some f) (hg : f.fGroup = some g)
    (hscope : f.fScope ≠ .all) : s.groups.scopeNameGroup (some n) (some this) =
      if f.fName.isSome ∧ s.groups.groupName g = none then none else some none := by
  unfold Groups.scopeNameGroup
  dsimp only
  rw [hf, Option.bind_some, hg, Option.bind_some]
  cases hscope' : f.fScope with
  | all => exact absurd hscope' hscope
  | client | group => cases f.fName <;> cases s.groups.groupName g <;> rfl

theorem broadcast_iff (hs : GroupInv s.groups) (hf : s.groups.flats this = some f) (hscope : f.fScope ≠ .all)
    (args : Words) :
    (∃ o, s.broadcast this args = some o ∧ Enforced s this f o) ↔ Heeds s this f (.broadcast args) := by
  obtain ⟨g, gx, hg, -⟩ := hs.grouped.client this f hf
  unfold Heeds ScopedClients.broadcast
  rw [hf, Option.bind_some]
  dsimp only
  by_cases hlen : args.length < 3
  · rw [if_pos hlen]
    exact ⟨fun _ hge => absurd hlen (by omega), fun _ => ⟨_, rfl, enforced_answer ..⟩⟩
  rw [if_neg hlen]
  cases harg : argString args 1 with
  | none =>
    refine ⟨fun _ _ group hgroup => (nomatch hgroup), fun _ => ?_⟩
    cases hscope' : f.fScope with
    | all => exact absurd hscope' hscope
    | client => exact ⟨_, rfl, enforced_answer ..⟩
    | group =>
      refine ⟨_, rfl, sendBroadcast_enforced fun inform _ _ _ fz m z hm hz hout => ?_⟩
      have hthis : s.groups.thisGroup (some this) = some g := by
        rw [Groups.thisGroup, hf, Option.bind_some, hg]
      rw [hthis] at hm
      obtain ⟨y, hy, hyg⟩ := broadcastFlat_group hs hm
      rw [hz] at hy
      cases hy
      rw [Outside, hscope', hg] at hout
      exact hout hyg
  | some group =>
    dsimp only
    rw [scopeNameGroup_restricted hf hg hscope]
    by_cases hcrash : f.fName.isSome ∧ s.groups.groupName g = none
    · rw [if_pos hcrash]
      refine ⟨fun ⟨o, ho, _⟩ => (nomatch ho), fun hheeds => ?_⟩
      have hnamed := (hheeds (by omega) group rfl).1 hcrash.1 g hg
      rw [hcrash.2] at hnamed
      cases hnamed
    · rw [if_neg hcrash, Option.map_some]
      have hnamed : f.fName.isSome → ∀ g', f.fGroup = some g' → (s.groups.groupName g').isSome := by
        intro hname g' hg'
        rw [hg] at hg'
        cases hg'
        exact Option.isSome_iff_ne_none.mpr fun he => hcrash ⟨hname, he⟩
      by_cases hstar : group = textOf "*"
      · rw [if_neg (fun h => h.2 hstar)]
        constructor
        · rintro ⟨o, ho, henforced⟩ - group' hgroup'
          cases hgroup'
          refine ⟨hnamed, fun _ inform hinform hreply hrequest fz z hz hup => ?_⟩
          cases ho
          unfold ScopedClients.sendBroadcast at henforced
          rw [hinform] at henforced
          dsimp only at henforced
          rw [if_neg (not_or.mpr ⟨hreply, hrequest⟩)] at henforced
          exact henforced.unheard fz _ z ((broadcastFlat_mem hs).mpr ⟨rfl, z, hz, hup⟩) hz
        · intro hheeds
          refine ⟨_, rfl, sendBroadcast_enforced fun inform hinform hreply hrequest fz m z hm hz => ?_⟩
          obtain ⟨_, y, hy, hup⟩ := (broadcastFlat_mem hs).mp hm
          rw [hz] at hy
          cases hy
          exact (hheeds (by omega) group rfl).2 hstar inform hinform hreply hrequest fz z hz hup
      · rw [if_pos ⟨rfl, hstar⟩]
        refine ⟨fun _ _ group' hgroup' => ?_, fun _ => ⟨_, rfl, enforced_answer ..⟩⟩
        cases hgroup'
        exact ⟨hnamed, fun he => absurd he hstar⟩

theorem setGroupScope_iff {gx : KatcpGroup} (hgx : s.groups.groups g = some gx) (scope : ClientScope) :
    (∃ o, s.setGroupScope g scope = some o ∧ Enforced s this f o) ↔ (f.fGroup = some g ∨ gx.gScope = scope) := by
  unfold ScopedClients.setGroupScope
  rw [hgx, Option.map_some]
  constructor
  · rintro ⟨o, ho, henforced⟩
    cases ho
    by_cases hown : f.fGroup = some g
    · exact .inl hown
    · have hkept := henforced.scopes g gx hgx hown
      unfold ScopedClients.answer at hkept
      dsimp only at hkept
      rw [Groups.setGroup_groups, update_self] at hkept
      exact .inr (Option.some.inj hkept).symm
  · intro hsame
    refine ⟨_, rfl, fun fz z hz _ => ⟨hz, rfl⟩, fun fz m z hm => (nomatch hm), fun g hg => (nomatch hg), fun g' gt hgt hne => ?_⟩
    unfold ScopedClients.answer
    dsimp only
    rw [Groups.setGroup_groups]
    by_cases he : g' = g
    · subst he
      rw [hgx] at hgt
      cases hgt
      rw [update_self, ← hsame.resolve_left hne]
      rfl
    · rw [update_of_ne he, hgt]
      rfl

theorem scopeCommand_iff (hs : GroupInv s.groups) (hf : s.groups.flats this = some f) (hscope : f.fScope ≠ .all)
    (args : Words) :
    (∃ o, s.scopeCommand this args = some o ∧ Enforced s this f o) ↔ Heeds s this f (.scope args) := by
  unfold Heeds ScopedClients.scopeCommand
  dsimp only
  by_cases hlen : args.length ≤ 1
  · rw [if_pos hlen]
    exact ⟨fun _ hge => absurd hlen (by omega), fun _ => ⟨_, rfl, enforced_answer ..⟩⟩
  rw [if_neg hlen]
  cases harg : argString args 1 with
  | none => exact ⟨fun _ _ _ scope g gx hcode => (nomatch hcode), fun _ => ⟨_, rfl, enforced_answer ..⟩⟩
  | some text =>
    rw [Option.bind_some]
    dsimp only
    cases hcode : codeFromScope text with
    | none => exact ⟨fun _ _ _ scope g gx hcode => (nomatch hcode), fun _ => ⟨_, rfl, enforced_answer ..⟩⟩
    | some scope =>
      dsimp only
      by_cases hmore : 3 < args.length
      · rw [if_pos hmore]
        cases hextent : argString args 2 with
        | none => exact ⟨fun _ _ he => (nomatch he), fun _ => ⟨_, rfl, enforced_answer ..⟩⟩
        | some extent =>
          cases hname : argString args 3 with
          | none => exact ⟨fun _ _ _ scope g gx _ hfind => (nomatch hfind), fun _ => ⟨_, rfl, enforced_answer ..⟩⟩
          | some name =>
            dsimp only
            rw [Option.bind_some]
            by_cases hclient : extent = textOf "client"
            · rw [if_pos hclient]
              have hother : extent ≠ textOf "group" := hclient ▸ by decide
              refine ⟨fun _ _ he => absurd (Option.some.inj he) hother, fun _ => ?_⟩
              obtain ⟨r, hr, hin⟩ := scopeNameFull_inside hs hf hscope none name
              rw [hr, Option.bind_some]
              cases r with
              | none => exact ⟨_, rfl, enforced_answer ..⟩
              | some fx =>
                obtain ⟨z, hz, hout⟩ := hin fx rfl
                exact setScope_enforced hz hout scope
            · rw [if_neg hclient]
              by_cases hgroup : extent = textOf "group"
              · rw [if_pos hgroup]
                cases hfind : s.groups.findGroup (some name) with
                | none => exact ⟨fun _ _ _ scope g gx _ hfind => (nomatch hfind), fun _ => ⟨_, rfl, enforced_answer ..⟩⟩
                | some g =>
                  obtain ⟨gx, hgx⟩ := hs.grouped.mem_allGroups.mp (List.mem_of_find?_eq_some hfind)
                  refine (setGroupScope_iff hgx scope).trans ⟨fun h _ _ scope' g' gx' hscope' hg' hgx' => ?_, fun h => ?_⟩
                  · cases hscope'
                    cases hg'
                    rw [hgx] at hgx'
                    cases hgx'
                    exact h
                  · exact h hmore (by rw [hgroup]) scope g gx rfl rfl hgx
              · rw [if_neg hgroup]
                exact ⟨fun _ _ he => absurd (Option.some.inj he) hgroup, fun _ => ⟨_, rfl, enforced_answer ..⟩⟩
      · rw [if_neg hmore]
        exact ⟨fun _ hge => absurd hge hmore, fun _ => setScope_enforced hf (not_outside_self hscope) scope⟩

/-- A request of a client that does not see everything keeps to its scope exactly when it heeds it. -/
theorem scope_enforced_iff (hs : GroupInv s.groups) (hf : s.groups.flats this = some f) (hscope : f.fScope ≠ .all)
    (request : ScopedRequest) :
    (∃ o, s.run this request = some o ∧ Enforced s this f o) ↔ Heeds s this f request := by
  cases request with
  | clientConfig args => exact iff_of_true (clientConfig_enforced hs hf hscope args) trivial
  | clientHalt args => exact iff_of_true (clientHalt_enforced hs hf hscope args) trivial
  | groupHalt args => exact groupHalt_iff hs hf args
  | broadcast args => exact broadcast_iff hs hf hscope args
  | scope args => exact scopeCommand_iff hs hf hscope args

/-- Two groups with a client each, which see their own group. -/
def neighbourSteps : List GroupAction :=
  [.createGroup (some (textOf "side")) 1, .createFlat false (some (textOf "a")) none 7,
    .createFlat false (some (textOf "b")) (some 1) 8]

def neighbours : ScopedClients where
  groups := ((groupMachine 0).exec (groupMachine 0).start neighbourSteps).elim noGroups Prod.fst
  fFlags _ := flatToClient
  fLogLevel _ := 2
  gLogLevel _ := 2

theorem neighbours_sound : GroupInv neighbours.groups :=
  group_runs_inv (Machine.Runs.exec (.start (m := groupMachine 0)) neighbourSteps rfl (Machine.meets_true _ _ _))

theorem neighbours_flat : neighbours.groups.flats 7 = some ⟨some (textOf "a"), some 0, .group, .up, false⟩ := rfl

theorem scope_enforced_iff_halt : ∃ f o, neighbours.run 7 (.clientHalt [textOf "?client-halt", textOf "a"]) = some o ∧
    Enforced neighbours 7 f o :=
  ⟨_, (scope_enforced_iff neighbours_sound neighbours_flat nofun _).mpr trivial⟩

/-- A client that sees its own group halts another one. -/
theorem other_group_halted : ¬∀ (s : ScopedClients) (this : FlatId) (f : GroupFlat) (request : ScopedRequest),
    GroupInv s.groups → s.groups.flats this = some f → f.fScope ≠ .all →
      ∃ o, s.run this request = some o ∧ Enforced s this f o := by
  intro hall
  obtain ⟨o, ho, henforced⟩ := hall neighbours 7 _ (.groupHalt [textOf "?group-halt", textOf "side"])
    neighbours_sound neighbours_flat nofun
  obtain rfl := Option.some.inj ho
  cases henforced.halted 1 (List.mem_singleton_self 1)

end Katcp
