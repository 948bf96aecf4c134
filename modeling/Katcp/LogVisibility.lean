import Katcp.ClientNames

namespace Katcp

/-- The groups and clients in order, with what the log uses of a client: `fLogLevel` is the value
as an unsigned one, as it is compared. -/
structure LogShared where
  groups : Groups
  sound : GroupInv groups
  fLogLevel : FlatId → Nat
  fLayer : FlatId → Int

/-- The values of `katcp.h`. -/
def ClientScope.value : ClientScope → Int
  | .client => 0
  | .group => 1
  | .all => 2

/-- `level_to_scope_katcp`, of a level that is not negative. -/
def levelToScope (level : Nat) : Int := 2 - (level / 256 : Nat)

namespace LogShared

/-- `each_log_parse_katcp`: the client whose line the message is queued on, should it be. -/
def eachLogParse (s : LogShared) (limit : Nat) (fx : FlatId) : List FlatId :=
  if limit < s.fLogLevel fx then [] else [fx]

/-- The test of the inner loop of `log_parse_katcp`. -/
def sees (s : LogShared) (layer cmp : Int) (fx : FlatId) : Bool :=
  decide (layer < s.fLayer fx) || ((s.groups.flats fx).any fun f => decide (f.fScope.value ≤ cmp))

/-- One turn of the outer loop of `log_parse_katcp`. -/
def logGroup (s : LogShared) (ft : Option FlatId) (layer scope : Int) (limit : Nat) (gx : GroupId) : List FlatId :=
  let cmp := if scope = 1 ∧ s.groups.thisGroup ft ≠ some gx then -1 else scope
  (s.groups.members gx).flatMap fun fx =>
    if some fx ≠ ft ∧ s.sees layer cmp fx = true then s.eachLogParse limit fx else []

/-- `log_parse_katcp` for a message with `inform` as its first argument, run for the client `ft`:
the clients that it is queued for, or nothing when it is refused. -/
def logParse (s : LogShared) (ft : Option FlatId) (level : Int) (echo : Bool) (inform : Option Text) :
    Option (List FlatId) :=
  if inform ≠ some (textOf "#log") ∨ level < 0 then none
  else
    let layer := (ft.map s.fLayer).getD 0
    let limit := level.toNat % 256
    let scope := levelToScope (level.toNat - limit)
    let first := if echo then ft.toList.flatMap (s.eachLogParse limit) else []
    let scope := if scope ≤ 0 then -1 else scope
    some (first ++ s.groups.allGroups.flatMap (s.logGroup ft layer scope limit))

end LogShared

/-- How far a message goes. -/
def reachOf (level : Nat) : ClientScope :=
  if level / 256 = 0 then .all else if level / 256 = 1 then .group else .client

/-- What lies within a scope, of clients other than the one it is for. -/
def ClientScope.Includes (scope : ClientScope) (sameGroup : Prop) : Prop :=
  match scope with
  | .client => False
  | .group => sameGroup
  | .all => True

variable {s : LogShared} {ft : Option FlatId} {level : Nat} {echo : Bool} {fx : FlatId} {f : GroupFlat} {g : GroupId}

def LogShared.senderLayer (s : LogShared) (ft : Option FlatId) : Int := (ft.map s.fLayer).getD 0

/-- Whether a client should see a message: its sender when it is local, and another client when
it lies deeper, or when each is within the scope of the other. -/
def Hears (s : LogShared) (ft : Option FlatId) (level : Nat) (echo : Bool) (fx : FlatId) : Prop :=
  s.fLogLevel fx ≤ level % 256 ∧
    ((ft = some fx ∧ echo = true) ∨
      (ft ≠ some fx ∧ ∃ f, s.groups.flats fx = some f ∧
        (s.senderLayer ft < s.fLayer fx ∨
          ((reachOf level).Includes (f.fGroup = s.groups.thisGroup ft) ∧
            f.fScope.Includes (f.fGroup = s.groups.thisGroup ft)))))

/-- The clients that should see a message are those it is queued for, once each. -/
def LogSeen (s : LogShared) (ft : Option FlatId) (level : Nat) (echo : Bool) : Prop :=
  ∃ queued, s.logParse ft level echo (some (textOf "#log")) = some queued ∧ queued.Nodup ∧
    ∀ fx, fx ∈ queued ↔ Hears s ft level echo fx

/-- Of the clients that do not lie deeper and want messages of the level, those that a message
reaches everywhere see all or are of the sender's group and see that, and those that a message
reaches within the group see just the group. -/
def ScopesAgree (s : LogShared) (ft : Option FlatId) (level : Nat) : Prop :=
  ∀ fx f, s.groups.flats fx = some f → ft ≠ some fx → s.fLayer fx ≤ s.senderLayer ft →
    s.fLogLevel fx ≤ level % 256 →
    match reachOf level with
    | .all => f.fScope = .all ∨ (f.fScope = .group ∧ f.fGroup = s.groups.thisGroup ft)
    | .group => f.fGroup = s.groups.thisGroup ft → f.fScope = .group
    | .client => True

theorem mem_eachLogParse {limit : Nat} {fy : FlatId} :
    fy ∈ s.eachLogParse limit fx ↔ fy = fx ∧ s.fLogLevel fx ≤ limit := by
  unfold LogShared.eachLogParse
  split
  next hlt => simp [Nat.not_le.mpr hlt]
  next hle => simp [Nat.not_lt.mp hle]

/-- One turn of the outer loop picks clients out of a group. -/
theorem logGroup_eq (s : LogShared) (ft : Option FlatId) (layer scope : Int) (limit : Nat) (g : GroupId) :
    s.logGroup ft layer scope limit g = (s.groups.members g).filter fun fx => some fx ≠ ft ∧
      s.sees layer (if scope = 1 ∧ s.groups.thisGroup ft ≠ some g then -1 else scope) fx = true ∧
      s.fLogLevel fx ≤ limit := by
  unfold LogShared.logGroup
  dsimp only
  generalize (if scope = 1 ∧ s.groups.thisGroup ft ≠ some g then -1 else scope) = cmp
  induction s.groups.members g with
  | nil => rfl
  | cons fx fs ih =>
    rw [List.flatMap_cons, ih, List.filter_cons]
    unfold LogShared.eachLogParse
    by_cases hcond : some fx ≠ ft ∧ s.sees layer cmp fx = true
    · by_cases hlevel : limit < s.fLogLevel fx
      · simp [hcond, hlevel]
      · simp [hcond, hlevel, Nat.not_lt.mp hlevel]
    · have hnot : ¬(some fx ≠ ft ∧ s.sees layer cmp fx = true ∧ s.fLogLevel fx ≤ limit) :=
        fun h => hcond ⟨h.1, h.2.1⟩
      simp [hcond, hnot]

/-- The loops meet nobody twice. -/
theorem logGroups_nodup (s : LogShared) (ft : Option FlatId) (layer scope : Int) (limit : Nat) :
    (s.groups.allGroups.flatMap (s.logGroup ft layer scope limit)).Nodup := by
  obtain ⟨honce, hapart⟩ := List.nodup_flatMap.mp s.sound.clients_nodup
  rw [List.nodup_flatMap]
  constructor
  · intro g hg
    rw [logGroup_eq]
    exact (honce g hg).filter _
  · refine hapart.imp fun hdisjoint fx hx hy => ?_
    rw [logGroup_eq] at hx hy
    exact hdisjoint (List.mem_of_mem_filter hx) (List.mem_of_mem_filter hy)

/-- What the comparison of a message with the scope of a client comes to. -/
def Compared (reach scope : ClientScope) (sameGroup : Prop) : Prop :=
  match reach with
  | .all => True
  | .group => sameGroup ∧ scope ≠ .all
  | .client => False

theorem value_le_iff (scope : ClientScope) (level : Nat) (gt : Option GroupId) (g : GroupId) :
    (scope.value ≤ if (if levelToScope (level - level % 256) ≤ 0 then -1 else levelToScope (level - level % 256)) = 1 ∧
        gt ≠ some g then -1 else (if levelToScope (level - level % 256) ≤ 0 then -1 else levelToScope (level - level % 256)))
      ↔ Compared (reachOf level) scope (some g = gt) := by
  have hdiv : (level - level % 256) / 256 = level / 256 := by omega
  unfold levelToScope reachOf
  rw [hdiv]
  generalize level / 256 = n
  by_cases hzero : n = 0
  · subst hzero
    cases scope <;> simp [ClientScope.value, Compared]
  · by_cases hone : n = 1
    · subst hone
      by_cases hsame : some g = gt
      · cases scope <;> simp [ClientScope.value, Compared, hsame]
      · have hne : gt ≠ some g := fun he => hsame he.symm
        cases scope <;> simp [ClientScope.value, Compared, hsame, hne]
    · have hle : (2 : Int) - (n : Nat) ≤ 0 := by omega
      cases scope <;> simp [ClientScope.value, Compared, hzero, hone, hle]

theorem mem_logParse {queued : List FlatId} (h : s.logParse ft level echo (some (textOf "#log")) = some queued) :
    fx ∈ queued ↔ s.fLogLevel fx ≤ level % 256 ∧ ((ft = some fx ∧ echo = true) ∨
      (ft ≠ some fx ∧ ∃ f, s.groups.flats fx = some f ∧ (s.senderLayer ft < s.fLayer fx ∨
        Compared (reachOf level) f.fScope (f.fGroup = s.groups.thisGroup ft)))) := by
  unfold LogShared.logParse at h
  rw [if_neg (by simp)] at h
  dsimp only at h
  cases Option.some.inj h
  rw [List.mem_append, Int.toNat_natCast]
  have hfirst : fx ∈ (if echo = true then ft.toList.flatMap (s.eachLogParse (level % 256)) else []) ↔
      s.fLogLevel fx ≤ level % 256 ∧ ft = some fx ∧ echo = true := by
    cases echo with
    | false => simp
    | true =>
      cases ft with
      | none => simp
      | some fy =>
        simp only [if_true, Option.toList_some, List.flatMap_singleton, mem_eachLogParse, Option.some.injEq, and_true]
        constructor
        · rintro ⟨rfl, hlevel⟩
          exact ⟨hlevel, rfl⟩
        · rintro ⟨hlevel, rfl⟩
          exact ⟨rfl, hlevel⟩
  have hrest : fx ∈ s.groups.allGroups.flatMap (s.logGroup ft ((ft.map s.fLayer).getD 0)
      (if levelToScope (level - level % 256) ≤ 0 then -1 else levelToScope (level - level % 256)) (level % 256)) ↔
      s.fLogLevel fx ≤ level % 256 ∧ ft ≠ some fx ∧ ∃ f, s.groups.flats fx = some f ∧
        (s.senderLayer ft < s.fLayer fx ∨ Compared (reachOf level) f.fScope (f.fGroup = s.groups.thisGroup ft)) := by
    have hgrouped := s.sound.grouped
    simp only [List.mem_flatMap, logGroup_eq, List.mem_filter, decide_eq_true_eq, hgrouped.mem_members]
    constructor
    · rintro ⟨g, _, ⟨f, hf, hfg⟩, hne, hsees, hlevel⟩
      refine ⟨hlevel, fun he => hne he.symm, f, hf, ?_⟩
      unfold LogShared.sees at hsees
      rw [hf, Bool.or_eq_true, Option.any_some, decide_eq_true_eq, decide_eq_true_eq, value_le_iff] at hsees
      rw [hfg]
      exact hsees
    · rintro ⟨hlevel, hne, f, hf, hsees⟩
      obtain ⟨g, gx, hfg, hgx, _⟩ := hgrouped.client fx f hf
      refine ⟨g, hgrouped.mem_allGroups.mpr ⟨gx, hgx⟩, ⟨f, hf, hfg⟩, fun he => hne he.symm, ?_, hlevel⟩
      unfold LogShared.sees
      rw [hf, Bool.or_eq_true, Option.any_some, decide_eq_true_eq, decide_eq_true_eq, value_le_iff]
      rw [hfg] at hsees
      exact hsees
  rw [hfirst, hrest, and_or_left]

/-- The comparison is right for a client exactly when the scopes agree. -/
theorem compared_iff (reach scope : ClientScope) (sameGroup : Prop) :
    (Compared reach scope sameGroup ↔ reach.Includes sameGroup ∧ scope.Includes sameGroup) ↔
      match reach with
      | .all => scope = .all ∨ (scope = .group ∧ sameGroup)
      | .group => sameGroup → scope = .group
      | .client => True := by
  cases reach <;> cases scope <;> simp [Compared, ClientScope.Includes]

theorem logParse_nodup {queued : List FlatId} (h : s.logParse ft level echo (some (textOf "#log")) = some queued) :
    queued.Nodup := by
  unfold LogShared.logParse at h
  rw [if_neg (by simp)] at h
  dsimp only at h
  cases Option.some.inj h
  rw [List.nodup_append]
  refine ⟨?_, logGroups_nodup .., ?_⟩
  · split
    · cases ft with
      | none => exact List.nodup_nil
      | some fy =>
        rw [Option.toList_some, List.flatMap_singleton]
        unfold LogShared.eachLogParse
        split <;> simp
    · exact List.nodup_nil
  · intro fx hx fy hy he
    subst he
    obtain ⟨g, _, hin⟩ := List.mem_flatMap.mp hy
    rw [logGroup_eq, List.mem_filter, decide_eq_true_eq] at hin
    split at hx
    · obtain ⟨fz, hz, hmem⟩ := List.mem_flatMap.mp hx
      rw [(mem_eachLogParse.mp hmem).1] at hin
      exact hin.2.1 (Option.mem_toList.mp hz).symm
    · cases hx

/-- A message is seen by the clients it should be seen by if and only if the scopes agree. -/
theorem log_seen_iff (s : LogShared) (ft : Option FlatId) (level : Nat) (echo : Bool) :
    LogSeen s ft level echo ↔ ScopesAgree s ft level := by
  constructor
  · rintro ⟨queued, hqueued, _, hseen⟩ fx f hf hne hlayer hlevel
    have hmem := (mem_logParse hqueued).symm.trans (hseen fx)
    apply (compared_iff _ _ _).mp
    unfold Hears at hmem
    have hdeep : ¬s.senderLayer ft < s.fLayer fx := Int.not_lt.mpr hlayer
    simpa [hf, hne, hlevel, hdeep] using hmem
  · intro hagree
    obtain ⟨queued, hqueued⟩ : ∃ queued, s.logParse ft level echo (some (textOf "#log")) = some queued :=
      ⟨_, if_neg (by simp)⟩
    refine ⟨queued, hqueued, logParse_nodup hqueued, fun fx => ?_⟩
    rw [mem_logParse hqueued]
    unfold Hears
    refine and_congr_right fun hlevel => or_congr_right (and_congr_right fun hne => ?_)
    refine exists_congr fun f => and_congr_right fun hf => ?_
    by_cases hdeep : s.senderLayer ft < s.fLayer fx
    · simp [hdeep]
    · rw [(compared_iff _ _ _).mpr (hagree fx f hf hne (Int.not_lt.mp hdeep) hlevel)]

/-- Clients of two groups, each to see what its own group does. -/
theorem twoGroups_sound : ∃ s : Groups, GroupInv s ∧ s.thisGroup (some 7) = some 0 ∧
    s.flats 8 = some ⟨some (textOf "b"), some 1, .group, .up, false⟩ :=
  ⟨_, group_runs_inv (Machine.Runs.exec (.start (m := groupMachine 0))
    [.createGroup (some (textOf "side")) 1, .createFlat false (some (textOf "a")) none 7,
      .createFlat false (some (textOf "b")) (some 1) 8] rfl (Machine.meets_true _ _ _)), rfl, rfl⟩

/-- A client that sees its own group is told of another. -/
theorem other_group_told : ¬∀ s ft level echo, LogSeen s ft level echo := by
  intro hall
  obtain ⟨groups, hsound, hthis, hflat⟩ := twoGroups_sound
  obtain ⟨queued, hqueued, _, hseen⟩ := hall ⟨groups, hsound, fun _ => 2, fun _ => 0⟩ (some 7) 2 true
  have htold : 8 ∈ queued := (mem_logParse hqueued).mpr
    ⟨Nat.le_refl 2, .inr ⟨by simp, _, hflat, .inr trivial⟩⟩
  obtain ⟨_, ⟨hsame, _⟩ | ⟨_, f, hf, hdeep | ⟨_, hscope⟩⟩⟩ := (hseen 8).mp htold
  · cases hsame
  · exact absurd hdeep (Int.lt_irrefl 0)
  · dsimp only at hf hscope
    rw [hflat] at hf
    cases hf
    rw [hthis] at hscope
    cases hscope

end Katcp
