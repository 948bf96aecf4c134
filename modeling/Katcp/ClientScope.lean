import Katcp.ClientNames

namespace Katcp

section

namespace Groups

/-- The name that stands for any group. -/
def anyGroup : Text := textOf "*"

/-- `scope_name_full_katcp`; no result is an abort. -/
def scopeNameFull (s : Groups) (this fx : Option FlatId) (group name : Option Text) : Option (Option FlatId) :=
  match name, fx.or this with
  | none, _ => some none
  | some _, none => some none
  | some name, some fy =>
    (s.flats fy).bind fun f =>
      match f.fScope with
      | .client => if f.fName = some name then some (some fy) else some none
      | .group =>
        f.fGroup.bind fun gy =>
          if group.isSome ∧ s.groupName gy ≠ group then some none
          else some (s.searchName this (some name) (some gy) true)
      | .all =>
        if group = none ∨ group ≠ some anyGroup then some (s.searchName this (some name) f.fGroup false)
        else
          match s.findGroup group with
          | none => some none
          | some gy => some (s.searchName this (some name) (some gy) true)

/-- `scope_name_group_katcp`; no result is an abort, or a comparison with the name of a group that
has none. -/
def scopeNameGroup (s : Groups) (name : Option Text) (fx : Option FlatId) : Option (Option GroupId) :=
  match fx, name with
  | none, _ => some none
  | some _, none => some none
  | some fx, some name =>
    (s.flats fx).bind fun f => f.fGroup.bind fun gx =>
      match f.fScope with
      | .all => some (s.findGroup (some name))
      | .group => if f.fName = none then some none else if (s.groupName gx).isSome then some none else none
      | .client => if f.fName = none then some none else if (s.groupName gx).isSome then some none else none

end Groups

open Groups

variable {s : Groups} {g : GroupId} {gs : List GroupId} {fx fz : FlatId} {f : GroupFlat} {n : Text}
  {this : Option FlatId} {group name : Option Text}

/-- A member of the group has the name. -/
def NameIn (s : Groups) (g : GroupId) (n : Text) : Prop := ∃ fz ∈ s.members g, s.flatName fz = some n

/-- The first of these groups to have a member of the name. -/
def FirstWith (s : Groups) (gs : List GroupId) (n : Text) (g : GroupId) : Prop :=
  ∃ before after, gs = before ++ g :: after ∧ (∀ g' ∈ before, ¬ NameIn s g' n) ∧ NameIn s g n

/-- The groups but this one, in their order. -/
def otherGroups (s : Groups) (g : GroupId) : List GroupId := s.allGroups.filter fun g' => some g' ≠ some g

/-- The first member of the name, group after group. -/
def searchIn (s : Groups) (gs : List GroupId) (n : Text) : Option FlatId :=
  (gs.flatMap s.members).find? fun fx => s.flatName fx = some n

theorem searchName_group (s : Groups) (this : Option FlatId) (n : Text) (g : GroupId) :
    s.searchName this (some n) (some g) true = searchIn s [g] n := by
  unfold searchName searchIn
  rw [Option.bind_some, List.flatMap_singleton]
  dsimp only [Option.some_or, Option.map_some, Option.getD_some]
  cases (s.members g).find? fun fx => s.flatName fx = some n with
  | some fx => rfl
  | none => exact if_pos ⟨rfl, rfl⟩

theorem searchName_all (s : Groups) (this : Option FlatId) (n : Text) (g : GroupId) :
    s.searchName this (some n) (some g) false = searchIn s (g :: otherGroups s g) n := by
  unfold searchName searchIn otherGroups
  rw [Option.bind_some, List.flatMap_cons, List.find?_append]
  dsimp only [Option.some_or, Option.map_some, Option.getD_some]
  cases (s.members g).find? fun fx => s.flatName fx = some n with
  | some fx => rfl
  | none => exact if_neg (by simp)

theorem searchIn_none : searchIn s gs n = none ↔ ∀ g ∈ gs, ¬ NameIn s g n := by
  unfold searchIn NameIn
  rw [List.find?_eq_none]
  simp only [List.mem_flatMap, decide_eq_true_eq, not_exists, not_and]
  exact ⟨fun h g hg fz hz => h fz ⟨g, hg, hz⟩, fun h fz ⟨g, hg, hz⟩ => h g hg fz hz⟩

/-- What is found has the name, and is a member of the first group with such a member. -/
theorem searchIn_some (h : searchIn s gs n = some fz) :
    s.flatName fz = some n ∧ ∃ g, FirstWith s gs n g ∧ fz ∈ s.members g := by
  unfold searchIn at h
  have hname := List.find?_some h
  rw [List.find?_flatMap, List.findSome?_eq_some_iff] at h
  obtain ⟨before, g, after, hgs, hg, hbefore⟩ := h
  have hmem := List.mem_of_find?_eq_some hg
  refine ⟨of_decide_eq_true hname, g, ⟨before, after, hgs, fun g' hg' ⟨fy, hfy, hn⟩ => ?_, fz, hmem,
    of_decide_eq_true hname⟩, hmem⟩
  exact absurd hn (of_decide_eq_false (Bool.not_eq_true _ ▸ List.find?_eq_none.mp (hbefore g' hg') fy hfy))

theorem FirstWith.mem {g : GroupId} (h : FirstWith s gs n g) : g ∈ gs := by
  obtain ⟨before, after, hgs, -⟩ := h
  rw [hgs]
  exact List.mem_append_right _ (List.mem_cons_self ..)

theorem FirstWith.unique {g g' : GroupId} (h : FirstWith s gs n g) (h' : FirstWith s gs n g') : g = g' := by
  obtain ⟨before, after, hgs, hnone, hin⟩ := h
  obtain ⟨before', after', hgs', hnone', hin'⟩ := h'
  rw [hgs] at hgs'
  rcases List.append_eq_append_iff.mp hgs' with ⟨more, hb, ha⟩ | ⟨more, hb, ha⟩
  · cases more with
    | nil => exact (List.cons.inj ha).1
    | cons x more =>
      cases (List.cons.inj ha).1
      exact absurd hin (hnone' g (by rw [hb]; simp))
  · cases more with
    | nil => exact (List.cons.inj ha).1.symm
    | cons x more =>
      cases (List.cons.inj ha).1
      exact absurd hin' (hnone g' (by rw [hb]; simp))

/-- Whom the scope of a client lets it reach. -/
def Permits (s : Groups) (fx : FlatId) (f : GroupFlat) (fz : FlatId) : Prop :=
  match f.fScope with
  | .client => fz = fx
  | .group => ∃ z, s.flats fz = some z ∧ z.fGroup = f.fGroup
  | .all => (s.flats fz).isSome

/-- A client belongs to the group asked for, where one is. -/
def InAsked (s : Groups) (group : Option Text) (fz : FlatId) : Prop :=
  group = none ∨ group = some anyGroup ∨ ∃ z g, s.flats fz = some z ∧ z.fGroup = some g ∧ s.groupName g = group

/-- Only clients that the scope permits and that are in the group asked for are found, and one is
wherever there is such a client of the name. -/
def ScopeKept (s : Groups) (this : Option FlatId) (fx : FlatId) (f : GroupFlat) (group name : Option Text) : Prop :=
  ∃ r, s.scopeNameFull this (some fx) group name = some r ∧
    (∀ fz, r = some fz → Permits s fx f fz ∧ InAsked s group fz ∧ s.flatName fz = name) ∧
    ∀ fz n, name = some n → Permits s fx f fz → InAsked s group fz → s.flatName fz = some n → r.isSome

/-- When the search keeps to the scope. A client of its own scope only asks for itself in its own
group; one of the scope of its group does not ask for any group, unless nobody there has the name;
and where one of all scopes names a group, the first client of the name, in its own group or else in
the order of all groups, is in a group of that name. Asking for any group it finds what there is only
in a group that is called so. -/
def ScopeFits (s : Groups) (fx : FlatId) (f : GroupFlat) (g : GroupId) (group : Option Text) (n : Text) : Prop :=
  match f.fScope with
  | .client => f.fName = some n → InAsked s group fx
  | .group => group = some anyGroup → s.groupName g = some anyGroup ∨ ¬ NameIn s g n
  | .all =>
    if group = some anyGroup then
      (∀ g' ∈ s.allGroups, ¬ NameIn s g' n) ∨
        ∃ before gy after, s.allGroups = before ++ gy :: after ∧ (∀ g' ∈ before, s.groupName g' ≠ some anyGroup) ∧
          s.groupName gy = some anyGroup ∧ NameIn s gy n
    else group = none ∨ ∀ g', FirstWith s (g :: otherGroups s g) n g' → s.groupName g' = group

/-- What a result has to be like. -/
def ResultKept (s : Groups) (fx : FlatId) (f : GroupFlat) (group : Option Text) (n : Text) (r : Option FlatId) : Prop :=
  (∀ fz, r = some fz → Permits s fx f fz ∧ InAsked s group fz ∧ s.flatName fz = some n) ∧
    ∀ fz, Permits s fx f fz → InAsked s group fz → s.flatName fz = some n → r.isSome

theorem scopeKept_result {r : Option FlatId} (h : s.scopeNameFull this (some fx) group (some n) = some r) :
    ScopeKept s this fx f group (some n) ↔ ResultKept s fx f group n r := by
  constructor
  · rintro ⟨r', hr, hsound, hcomplete⟩
    cases h.symm.trans hr
    exact ⟨hsound, fun fz hp ha hn => hcomplete fz n rfl hp ha hn⟩
  · rintro ⟨hsound, hcomplete⟩
    refine ⟨r, h, hsound, fun fz n' he hp ha hn => ?_⟩
    cases he
    exact hcomplete fz hp ha hn

theorem Grouped.nameIn_of_live (h : Grouped s) (hn : s.flatName fz = some n) : ∃ g ∈ s.allGroups, NameIn s g n := by
  obtain ⟨z, hz, _⟩ := Option.bind_eq_some_iff.mp hn
  obtain ⟨g, gx, hg, hgx, -, -⟩ := h.client fz z hz
  exact ⟨g, h.mem_allGroups.mpr ⟨gx, hgx⟩, fz, h.mem_members.mpr ⟨z, hz, hg⟩, hn⟩

theorem mem_otherGroups (hin : g ∈ s.allGroups) (g' : GroupId) : g ∈ g' :: otherGroups s g' := by
  by_cases he : g = g'
  · exact he ▸ List.mem_cons_self ..
  · exact List.mem_cons_of_mem _ (List.mem_filter.mpr ⟨hin, by simpa using he⟩)

theorem scopeKept_client (hf : s.flats fx = some f) (hscope : f.fScope = .client) :
    ScopeKept s this fx f group (some n) ↔ ScopeFits s fx f g group n := by
  have hname : s.flatName fx = f.fName := by rw [Groups.flatName, hf, Option.bind_some]
  rw [ScopeFits, hscope]
  dsimp only
  by_cases hn : f.fName = some n
  · have hr : s.scopeNameFull this (some fx) group (some n) = some (some fx) := by
      simp only [scopeNameFull, Option.some_or, hf, Option.bind_some, hscope, if_pos hn]
    rw [scopeKept_result hr]
    constructor
    · exact fun h _ => (h.1 fx rfl).2.1
    · intro hasked
      refine ⟨fun fz hz => ?_, fun _ _ _ _ => rfl⟩
      cases hz
      exact ⟨by rw [Permits, hscope], hasked hn, hname.trans hn⟩
  · have hr : s.scopeNameFull this (some fx) group (some n) = some none := by
      simp only [scopeNameFull, Option.some_or, hf, Option.bind_some, hscope, if_neg hn]
    rw [scopeKept_result hr]
    refine ⟨fun _ h => absurd h hn, fun _ => ⟨fun _ h => (by cases h), fun fz hp _ hz => ?_⟩⟩
    rw [Permits, hscope] at hp
    rw [show fz = fx from hp, hname] at hz
    exact absurd hz hn

theorem scopeKept_group (h : Grouped s) (hf : s.flats fx = some f) (hg : f.fGroup = some g) (hscope : f.fScope = .group) :
    ScopeKept s this fx f group (some n) ↔ ScopeFits s fx f g group n := by
  have hpermits : ∀ fz, Permits s fx f fz ↔ fz ∈ s.members g := by
    intro fz
    rw [Permits, hscope, h.mem_members, ← hg]
  rw [ScopeFits, hscope]
  dsimp only
  by_cases hother : group.isSome ∧ s.groupName g ≠ group
  · have hr : s.scopeNameFull this (some fx) group (some n) = some none := by
      simp only [scopeNameFull, Option.some_or, hf, Option.bind_some, hscope, hg, if_pos hother]
    rw [scopeKept_result hr]
    constructor
    · rintro ⟨-, hcomplete⟩ hany
      refine Or.inr fun ⟨fz, hz, hn⟩ => ?_
      exact absurd (hcomplete fz ((hpermits fz).mpr hz) (Or.inr (Or.inl hany)) hn) Bool.false_ne_true
    · intro hfit
      refine ⟨nofun, fun fz hp hasked hn => ?_⟩
      rcases hasked with he | hany | ⟨z, g', hz, hzg, hgn⟩
      · rw [he] at hother
        exact absurd hother.1 Bool.false_ne_true
      · rcases hfit hany with hgn | hnone
        · exact absurd (hgn.trans hany.symm) hother.2
        · exact absurd ⟨fz, (hpermits fz).mp hp, hn⟩ hnone
      · obtain ⟨z', hz', hzg'⟩ := h.mem_members.mp ((hpermits fz).mp hp)
        rw [hz] at hz'
        cases hz'
        cases hzg.symm.trans hzg'
        exact absurd hgn hother.2
  · have hr : s.scopeNameFull this (some fx) group (some n) = some (searchIn s [g] n) := by
      simp only [scopeNameFull, Option.some_or, hf, Option.bind_some, hscope, hg, if_neg hother, searchName_group]
    have hown : group = none ∨ s.groupName g = group := by
      cases group with
      | none => exact Or.inl rfl
      | some gn => exact Or.inr (by_contra fun hne => hother ⟨rfl, hne⟩)
    rw [scopeKept_result hr]
    refine ⟨fun _ hany => Or.inl ?_, fun _ => ⟨fun fz hz => ?_, fun fz hp _ hn => ?_⟩⟩
    · rcases hown with he | he
      · rw [he] at hany
        cases hany
      · exact he.trans hany
    · obtain ⟨hn, g', hfirst, hmem⟩ := searchIn_some hz
      cases List.mem_singleton.mp hfirst.mem
      obtain ⟨z, hz, hzg⟩ := h.mem_members.mp hmem
      exact ⟨(hpermits fz).mpr hmem, hown.imp_right fun he => Or.inr ⟨z, g, hz, hzg, he⟩, hn⟩
    · by_contra hnone
      exact searchIn_none.mp (Option.not_isSome_iff_eq_none.mp hnone) g (List.mem_singleton_self g)
        ⟨fz, (hpermits fz).mp hp, hn⟩

/-- Every group is asked for, and the search goes to the group that is called so. -/
theorem scopeKept_any (h : Grouped s) (hf : s.flats fx = some f) (hscope : f.fScope = .all) :
    ScopeKept s this fx f (some anyGroup) (some n) ↔ ScopeFits s fx f g (some anyGroup) n := by
  have hlive : ∀ fz g', fz ∈ s.members g' → Permits s fx f fz := by
    intro fz g' hmem
    obtain ⟨z, hz, -⟩ := h.mem_members.mp hmem
    rw [Permits, hscope, hz]
    rfl
  rw [ScopeFits, hscope]
  dsimp only
  rw [if_pos rfl]
  cases hfind : s.findGroup (some anyGroup) with
  | none =>
    have hr : s.scopeNameFull this (some fx) (some anyGroup) (some n) = some none := by
      simp [scopeNameFull, hf, hscope, hfind]
    have hnot : ∀ g' ∈ s.allGroups, s.groupName g' ≠ some anyGroup := fun g' hg' =>
      of_decide_eq_false (Bool.not_eq_true _ ▸ List.find?_eq_none.mp hfind g' hg')
    rw [scopeKept_result hr]
    constructor
    · rintro ⟨-, hcomplete⟩
      refine Or.inl fun g' _ ⟨fz, hz, hn⟩ => ?_
      exact absurd (hcomplete fz (hlive fz g' hz) (Or.inr (Or.inl rfl)) hn) Bool.false_ne_true
    · intro hfit
      refine ⟨nofun, fun fz _ _ hn => ?_⟩
      rcases hfit with hnone | ⟨before, gy, after, hgs, -, hgy, -⟩
      · obtain ⟨g', hg', hin⟩ := h.nameIn_of_live hn
        exact absurd hin (hnone g' hg')
      · exact absurd hgy (hnot gy (by rw [hgs]; simp))
  | some gy =>
    have hr : s.scopeNameFull this (some fx) (some anyGroup) (some n) = some (searchIn s [gy] n) := by
      simp [scopeNameFull, hf, hscope, hfind, searchName_group]
    rw [scopeKept_result hr]
    constructor
    · rintro ⟨-, hcomplete⟩
      by_cases hin : NameIn s gy n
      · obtain ⟨hgy, before, after, hgs, hbefore⟩ := List.find?_eq_some_iff_append.mp hfind
        exact Or.inr ⟨before, gy, after, hgs, fun g' hg' => by simpa using hbefore g' hg',
          of_decide_eq_true hgy, hin⟩
      · refine Or.inl fun g' _ ⟨fz, hz, hn⟩ => ?_
        have hnone : searchIn s [gy] n = none := searchIn_none.mpr fun g'' hg'' => List.mem_singleton.mp hg'' ▸ hin
        have hsome := hcomplete fz (hlive fz g' hz) (Or.inr (Or.inl rfl)) hn
        rw [hnone] at hsome
        cases hsome
    · intro hfit
      refine ⟨fun fz hz => ?_, fun fz _ _ hn => ?_⟩
      · obtain ⟨hn, g', hfirst, hmem⟩ := searchIn_some hz
        exact ⟨hlive fz g' hmem, Or.inr (Or.inl rfl), hn⟩
      · rcases hfit with hnone | ⟨before, gy', after, hgs, hbefore, hgy', hin⟩
        · obtain ⟨g', hg', hin⟩ := h.nameIn_of_live hn
          exact absurd hin (hnone g' hg')
        · have hfound : s.findGroup (some anyGroup) = some gy' := List.find?_eq_some_iff_append.mpr
            ⟨decide_eq_true hgy', before, after, hgs, fun g' hg' => by simp [hbefore g' hg']⟩
          cases hfind.symm.trans hfound
          by_contra hnone
          exact searchIn_none.mp (Option.not_isSome_iff_eq_none.mp hnone) gy (List.mem_singleton_self gy) hin

theorem scopeKept_all (h : Grouped s) (hf : s.flats fx = some f) (hg : f.fGroup = some g) (hscope : f.fScope = .all)
    (hany : group ≠ some anyGroup) :
    ScopeKept s this fx f group (some n) ↔ ScopeFits s fx f g group n := by
  have hr : s.scopeNameFull this (some fx) group (some n) = some (searchIn s (g :: otherGroups s g) n) := by
    simp only [scopeNameFull, Option.some_or, hf, Option.bind_some, hscope, hg, if_pos (Or.inr hany), searchName_all]
  rw [ScopeFits, hscope]
  dsimp only
  rw [if_neg hany, scopeKept_result hr]
  constructor
  · rintro ⟨hsound, -⟩
    by_cases hno : group = none
    · exact Or.inl hno
    · refine Or.inr fun g' hfirst => ?_
      cases hs : searchIn s (g :: otherGroups s g) n with
      | none =>
        obtain ⟨before, after, hgs, -, hin⟩ := id hfirst
        exact absurd hin (searchIn_none.mp hs g' hfirst.mem)
      | some fz =>
        obtain ⟨-, g'', hfirst', hmem⟩ := searchIn_some hs
        cases hfirst.unique hfirst'
        rcases (hsound fz hs).2.1 with he | he | ⟨z, go, hz, hzg, hgo⟩
        · exact absurd he hno
        · exact absurd he hany
        · obtain ⟨z', hz', hzg'⟩ := h.mem_members.mp hmem
          cases hz.symm.trans hz'
          cases hzg.symm.trans hzg'
          exact hgo
  · intro hfit
    refine ⟨fun fz hz => ?_, fun fz _ _ hn => ?_⟩
    · obtain ⟨hn, g', hfirst, hmem⟩ := searchIn_some hz
      obtain ⟨z, hz, hzg⟩ := h.mem_members.mp hmem
      refine ⟨?_, hfit.imp_right fun hall => Or.inr ⟨z, g', hz, hzg, hall g' hfirst⟩, hn⟩
      rw [Permits, hscope, hz]
      rfl
    · obtain ⟨g', hg', hin⟩ := h.nameIn_of_live hn
      by_contra hnone
      exact searchIn_none.mp (Option.not_isSome_iff_eq_none.mp hnone) g' (mem_otherGroups hg' g) hin

/-- Whatever the groups and clients are, a search keeps to the scope of its client exactly where it
fits. -/
theorem scope_kept_iff {s : Groups} {fx : FlatId} {f : GroupFlat} {g : GroupId} (h : Grouped s)
    (hf : s.flats fx = some f) (hg : f.fGroup = some g) (this : Option FlatId) (group name : Option Text) :
    ScopeKept s this fx f group name ↔ ∀ n, name = some n → ScopeFits s fx f g group n := by
  cases name with
  | none =>
    refine ⟨fun _ => nofun, fun _ => ⟨none, ?_, nofun, nofun⟩⟩
    unfold scopeNameFull
    rfl
  | some n =>
    have hfits : (∀ n', some n = some n' → ScopeFits s fx f g group n') ↔ ScopeFits s fx f g group n :=
      ⟨fun hall => hall n rfl, fun hfit n' he => Option.some.inj he ▸ hfit⟩
    rw [hfits]
    cases hscope : f.fScope with
    | client => exact scopeKept_client hf hscope
    | group => exact scopeKept_group h hf hg hscope
    | all =>
      by_cases hany : group = some anyGroup
      · rw [hany]
        exact scopeKept_any h hf hscope
      · exact scopeKept_all h hf hg hscope hany

/-- A client of all scopes that names no group. -/
theorem scopeFits_any (hscope : f.fScope = .all) : ScopeFits s fx f g none n := by
  rw [ScopeFits, hscope]
  dsimp only
  rw [if_neg (nomatch ·)]
  exact Or.inl rfl

/-- Two clients of the default group, the first of which may reach everybody, and a group without
clients. -/
def scopedSteps : List GroupAction :=
  [.createFlat false (some (textOf "a")) none 7, .createFlat false (some (textOf "b")) none 8,
    .createGroup (some (textOf "side")) 1, .flatScope 7 .all]

theorem scope_kept_iff_all : ∃ s f, ScopeKept s none 7 f none (some (textOf "b")) ∧ f.fScope = .all :=
  ⟨_, _, (scope_kept_iff (group_runs_inv (Machine.Runs.exec (.start (m := groupMachine 0)) scopedSteps rfl
    (Machine.meets_true _ _ _))).grouped rfl rfl none none (some (textOf "b"))).mpr fun _ _ => scopeFits_any rfl, rfl⟩

/-- A client that asks for a name in one group is given a client of another. -/
theorem named_group_ignored : ¬ ∀ (s : Groups) (fx : FlatId) (f : GroupFlat) (g : GroupId) (this : Option FlatId)
    (group name : Option Text), Grouped s → s.flats fx = some f → f.fGroup = some g →
      ScopeKept s this fx f group name := by
  intro hall
  obtain ⟨r, hr, hsound, -⟩ := hall _ 7 _ 0 none (some (textOf "side")) (some (textOf "b"))
    (group_runs_inv (Machine.Runs.exec (.start (m := groupMachine 0)) scopedSteps rfl
      (Machine.meets_true _ _ _))).grouped rfl rfl
  obtain rfl := Option.some.inj hr
  rcases (hsound 8 rfl).2.1 with he | he | ⟨z, g, hz, hg, he⟩
  · cases he
  · exact absurd he (by decide)
  · obtain rfl := Option.some.inj hz
    obtain rfl := Option.some.inj hg
    exact absurd he (by decide)

end

section

open Groups

variable {s : Groups} {g : GroupId} {fx : FlatId} {f : GroupFlat} {name : Option Text}

/-- A client gets its own group for its name or for none, another group only where its scope is that
of all, and never a group of another name. -/
def GroupScopeKept (s : Groups) (fx : FlatId) (f : GroupFlat) (g : GroupId) (name : Option Text) : Prop :=
  ∃ r, s.scopeNameGroup name (some fx) = some r ∧
    (name = none ∨ s.groupName g = name → r = some g) ∧
    (∀ g', r = some g' → g' ≠ g → f.fScope = .all) ∧
    ∀ g' n, r = some g' → name = some n → s.groupName g' = some n

/-- When it does: a name is given, and a client of all scopes that gives the name of its own group is
in the first group of that name, while any other client does not give the name of its own group, and
that group has a name or the client none. -/
def GroupScopeFits (s : Groups) (f : GroupFlat) (g : GroupId) : Option Text → Prop
  | none => False
  | some n =>
    match f.fScope with
    | .all => s.groupName g = some n →
        ∃ before after, s.allGroups = before ++ g :: after ∧ ∀ g' ∈ before, s.groupName g' ≠ some n
    | .group => s.groupName g ≠ some n ∧ (f.fName = none ∨ (s.groupName g).isSome)
    | .client => s.groupName g ≠ some n ∧ (f.fName = none ∨ (s.groupName g).isSome)

theorem groupScope_result {r : Option GroupId} (h : s.scopeNameGroup name (some fx) = some r) :
    GroupScopeKept s fx f g name ↔ (name = none ∨ s.groupName g = name → r = some g) ∧
      (∀ g', r = some g' → g' ≠ g → f.fScope = .all) ∧
      ∀ g' n, r = some g' → name = some n → s.groupName g' = some n := by
  constructor
  · rintro ⟨r', hr, hkept⟩
    cases h.symm.trans hr
    exact hkept
  · exact fun hkept => ⟨r, h, hkept⟩

/-- A search for a group of a name finds the first one. -/
theorem findGroup_name {n : Text} {g' : GroupId} (h : s.findGroup (some n) = some g') : s.groupName g' = some n :=
  of_decide_eq_true (List.find?_some (p := fun g => decide (s.groupName g = some n)) h)

theorem findGroup_own {n : Text} (hname : s.groupName g = some n) : s.findGroup (some n) = some g ↔
    ∃ before after, s.allGroups = before ++ g :: after ∧ ∀ g' ∈ before, s.groupName g' ≠ some n := by
  rw [findGroup, List.find?_eq_some_iff_append]
  constructor
  · rintro ⟨-, before, after, hgs, hnone⟩
    exact ⟨before, after, hgs, fun g' hg' => by simpa using hnone g' hg'⟩
  · rintro ⟨before, after, hgs, hnone⟩
    exact ⟨decide_eq_true hname, before, after, hgs, fun g' hg' => by simpa using hnone g' hg'⟩

theorem groupScope_all {n : Text} (hf : s.flats fx = some f) (hg : f.fGroup = some g) (hscope : f.fScope = .all) :
    GroupScopeKept s fx f g (some n) ↔ GroupScopeFits s f g (some n) := by
  have hr : s.scopeNameGroup (some n) (some fx) = some (s.findGroup (some n)) := by
    simp only [scopeNameGroup, hf, Option.bind_some, hg, hscope]
  rw [groupScope_result hr, GroupScopeFits, hscope]
  dsimp only
  constructor
  · rintro ⟨hown, -, -⟩ hname
    exact (findGroup_own hname).mp (hown (Or.inr hname))
  · intro hfit
    refine ⟨fun hname => ?_, fun _ _ _ => rfl, fun g' n' hg' hn' => ?_⟩
    · have hname := hname.resolve_left nofun
      exact (findGroup_own hname).mpr (hfit hname)
    · cases hn'
      exact findGroup_name hg'

/-- A client of a smaller scope never gets a group. -/
theorem groupScope_own {n : Text} (hf : s.flats fx = some f) (hg : f.fGroup = some g) (hscope : f.fScope ≠ .all) :
    GroupScopeKept s fx f g (some n) ↔ s.groupName g ≠ some n ∧ (f.fName = none ∨ (s.groupName g).isSome) := by
  have hsame : s.scopeNameGroup (some n) (some fx) =
      if f.fName = none then some none else if (s.groupName g).isSome then some none else none := by
    cases hcase : f.fScope with
    | all => exact absurd hcase hscope
    | group => simp only [scopeNameGroup, hf, Option.bind_some, hg, hcase]
    | client => simp only [scopeNameGroup, hf, Option.bind_some, hg, hcase]
  by_cases hanswer : f.fName = none ∨ (s.groupName g).isSome
  · have hr : s.scopeNameGroup (some n) (some fx) = some none := by
      rw [hsame]
      by_cases hnone : f.fName = none
      · rw [if_pos hnone]
      · rw [if_neg hnone, if_pos (hanswer.resolve_left hnone)]
    rw [groupScope_result hr]
    constructor
    · rintro ⟨hown, -, -⟩
      exact ⟨fun hname => (nomatch hown (Or.inr hname)), hanswer⟩
    · rintro ⟨hname, -⟩
      exact ⟨fun h => absurd (h.resolve_left nofun) hname, nofun, nofun⟩
  · refine ⟨fun ⟨r, hr, _⟩ => ?_, fun hfit => absurd hfit.2 hanswer⟩
    rw [hsame, if_neg fun h => hanswer (Or.inl h), if_neg fun h => hanswer (Or.inr h)] at hr
    cases hr

/-- Whatever the groups and clients are, a search for a group keeps to the scope of its client exactly
where it fits. -/
theorem group_scope_iff {s : Groups} {fx : FlatId} {f : GroupFlat} {g : GroupId} (hf : s.flats fx = some f)
    (hg : f.fGroup = some g) (name : Option Text) : GroupScopeKept s fx f g name ↔ GroupScopeFits s f g name := by
  cases name with
  | none =>
    refine ⟨fun ⟨r, hr, hown, _⟩ => ?_, False.elim⟩
    cases hr
    cases hown (Or.inl rfl)
  | some n =>
    cases hscope : f.fScope with
    | all => exact groupScope_all hf hg hscope
    | group =>
      rw [GroupScopeFits, hscope]
      exact groupScope_own hf hg (hscope ▸ nofun)
    | client =>
      rw [GroupScopeFits, hscope]
      exact groupScope_own hf hg (hscope ▸ nofun)

/-- A client of all scopes asks for another group than its own. -/
theorem group_scope_iff_all : ∃ s f, GroupScopeKept s 7 f 0 (some (textOf "side")) ∧ f.fScope = .all := by
  refine ⟨_, _, (@group_scope_iff (((groupMachine 0).exec (groupMachine 0).start scopedSteps).elim noGroups
    Prod.fst) 7 _ 0 rfl rfl (some (textOf "side"))).mpr ?_, rfl⟩
  exact fun h => absurd h (by decide)

/-- A client is denied its own group. -/
theorem own_group_denied : ¬ ∀ (s : Groups) (fx : FlatId) (f : GroupFlat) (g : GroupId) (name : Option Text),
    Grouped s → s.flats fx = some f → f.fGroup = some g → GroupScopeKept s fx f g name := by
  intro hall
  obtain ⟨r, hr, hown, -⟩ := hall _ 8 _ 0 (some (textOf "default"))
    (group_runs_inv (Machine.Runs.exec (.start (m := groupMachine 0)) scopedSteps rfl
      (Machine.meets_true _ _ _))).grouped rfl rfl
  obtain rfl := Option.some.inj hr
  cases hown (Or.inr rfl)

end

end Katcp
