import Katcp.GroupRun
import Mathlib.Data.List.ReduceOption

namespace Katcp

section

open Function

variable {s s' s'' : Groups} {g : GroupId} {gx : KatcpGroup} {fx fy : FlatId} {f f' : GroupFlat}

theorem Groups.mem_allGroups_iff : g ∈ s.allGroups ↔ some g ∈ s.sGroups.entries := by
  simp [Groups.allGroups, List.reduceOption_mem_iff]

theorem Groups.mem_members_iff : fx ∈ s.members g ↔ ∃ gx, s.groups g = some gx ∧ some fx ∈ gx.gFlats.entries := by
  unfold Groups.members
  cases s.groups g with
  | none => simp
  | some gx => simp [List.reduceOption_mem_iff]

theorem Grouped.mem_allGroups (h : Grouped s) : g ∈ s.allGroups ↔ ∃ gx, s.groups g = some gx := by
  rw [Groups.mem_allGroups_iff]
  constructor
  · intro hin
    obtain ⟨g', gx, he, hg⟩ := h.groups.2 _ hin
    cases he
    exact ⟨gx, hg⟩
  · rintro ⟨gx, hg⟩
    exact List.count_pos_iff.mp (by rw [h.group g gx hg]; exact Nat.one_pos)

/-- The members of a group are the clients that belong to it. -/
theorem Grouped.mem_members (h : Grouped s) : fx ∈ s.members g ↔ ∃ f, s.flats fx = some f ∧ f.fGroup = some g := by
  rw [Groups.mem_members_iff]
  constructor
  · rintro ⟨gx, hg, hin⟩
    obtain ⟨fy, f, he, hf⟩ := (h.vector g gx hg).2 _ hin
    cases he
    obtain ⟨g', gx', hfg, hg', -, hout⟩ := h.client fx f hf
    by_cases he : g = g'
    · exact ⟨f, hf, he ▸ hfg⟩
    · exact absurd hin (hout g gx hg he)
  · rintro ⟨f, hf, hfg⟩
    obtain ⟨g', gx, hfg', hg, hcount, -⟩ := h.client fx f hf
    cases hfg.symm.trans hfg'
    exact ⟨gx, hg, List.count_pos_iff.mp (by rw [hcount]; exact Nat.one_pos)⟩

theorem GroupInv.mem_members (h : GroupInv s) : fx ∈ s.members g ↔ ∃ f, s.flats fx = some f ∧ f.fGroup = some g :=
  h.grouped.mem_members

/-- No two clients of a group have the same name. -/
def UniqueNames (s : Groups) : Prop :=
  ∀ g, ∀ fx ∈ s.members g, ∀ fy ∈ s.members g, ∀ name, s.flatName fx = some name → s.flatName fy = some name → fx = fy

/-- No client of a group but perhaps this one has the name. -/
def NameFree (s : Groups) (g : GroupId) (name : Text) (fx : FlatId) : Prop :=
  ∀ fy ∈ s.members g, s.flatName fy = some name → fy = fx

/-- A client is made with, or is switched into a group with, a name that is free there; so is the
new name in the group of the client that a rename finds, where the rename is not refused. -/
def NamesApart (s : Groups) : GroupAction → Prop
  | .acceptFlat i name fresh => ∀ g, s.listeners[i]? = some g → NameFree s g name fresh
  | .createFlat _ name g fresh => ∀ n gx, name = some n → g.or s.sFallback = some gx → NameFree s gx n fresh
  | .switchGroup fx g => ∀ n, s.flatName fx = some n → NameFree s g n fx
  | .renameFlat this group was should => ∀ fx f g, s.findName this group (some should) true = none →
      s.findName this group (some was) false = some fx → s.flats fx = some f → f.fRenameLock = false →
      f.fGroup = some g → NameFree s g should fx
  | _ => True

/-- Clients may be gone, but those that are left have their names and groups. -/
def Remain (s s' : Groups) : Prop :=
  ∀ fx f', s'.flats fx = some f' → ∃ f, s.flats fx = some f ∧ f'.fName = f.fName ∧ f'.fGroup = f.fGroup

theorem Remain.refl (s : Groups) : Remain s s := fun _ f hf => ⟨f, hf, rfl, rfl⟩

theorem Remain.trans (h : Remain s s') (h' : Remain s' s'') : Remain s s'' := by
  intro fx f2 h2
  obtain ⟨f1, h1, hn1, hg1⟩ := h' fx f2 h2
  obtain ⟨f0, h0, hn0, hg0⟩ := h fx f1 h1
  exact ⟨f0, h0, hn1.trans hn0, hg1.trans hg0⟩

theorem Remain.of_flats (h : s'.flats = s.flats) : Remain s s' := by
  intro fx f hf
  rw [h] at hf
  exact ⟨f, hf, rfl, rfl⟩

theorem Remain.setFlat (hf : s.flats fx = some f) (hn : f'.fName = f.fName) (hg : f'.fGroup = f.fGroup) :
    Remain s (s.setFlat fx (some f')) := by
  intro fy fz hz
  rw [Groups.setFlat_flats] at hz
  by_cases he : fy = fx
  · subst he
    rw [update_self] at hz
    cases hz
    exact ⟨f, hf, hn, hg⟩
  · rw [update_of_ne he] at hz
    exact ⟨fz, hz, rfl, rfl⟩

theorem Remain.removed (s : Groups) (fx : FlatId) : Remain s (s.setFlat fx none) := by
  intro fy fz hz
  rw [Groups.setFlat_flats] at hz
  by_cases he : fy = fx
  · subst he
    rw [update_self] at hz
    cases hz
  · rw [update_of_ne he] at hz
    exact ⟨fz, hz, rfl, rfl⟩

/-- Uniqueness, told by the clients. -/
theorem GroupInv.unique_iff (h : GroupInv s) : UniqueNames s ↔ ∀ fx fy f f' name g, s.flats fx = some f →
    s.flats fy = some f' → f.fGroup = some g → f'.fGroup = some g → f.fName = some name → f'.fName = some name →
    fx = fy := by
  constructor
  · intro hu fx fy f f' name g hf hf' hg hg' hn hn'
    exact hu g fx (h.mem_members.mpr ⟨f, hf, hg⟩) fy (h.mem_members.mpr ⟨f', hf', hg'⟩) name
      (by rw [Groups.flatName, hf]; exact hn) (by rw [Groups.flatName, hf']; exact hn')
  · intro hu g fx hx fy hy name hn hn'
    obtain ⟨f, hf, hg⟩ := h.mem_members.mp hx
    obtain ⟨f', hf', hg'⟩ := h.mem_members.mp hy
    rw [Groups.flatName, hf] at hn
    rw [Groups.flatName, hf'] at hn'
    exact hu fx fy f f' name g hf hf' hg hg' hn hn'

theorem UniqueNames.remain (hu : UniqueNames s) (h : GroupInv s) (h' : GroupInv s') (hr : Remain s s') :
    UniqueNames s' := by
  rw [h'.unique_iff]
  intro fx fy f1 f2 name g h1 h2 hg1 hg2 hn1 hn2
  obtain ⟨f1', h1', hna, hga⟩ := hr fx f1 h1
  obtain ⟨f2', h2', hnb, hgb⟩ := hr fy f2 h2
  exact h.unique_iff.mp hu fx fy f1' f2' name g h1' h2' (hga ▸ hg1) (hgb ▸ hg2) (hna ▸ hn1) (hnb ▸ hn2)

/-- One client changes, or is new, and its name is free in the group that it is then in. -/
theorem UniqueNames.placed (hu : UniqueNames s) (h : GroupInv s) (h' : GroupInv s')
    (hflats : s'.flats = update s.flats fx (some f'))
    (hfree : ∀ name g, f'.fName = some name → f'.fGroup = some g → NameFree s g name fx) : UniqueNames s' := by
  have hother : ∀ fy fo name g, fy ≠ fx → s'.flats fy = some fo → f'.fName = some name → f'.fGroup = some g →
      fo.fName = some name → fo.fGroup = some g → False := by
    intro fy fo name g hne ho hn hg hno hgo
    rw [hflats, update_of_ne hne] at ho
    refine hne (hfree name g hn hg fy (h.mem_members.mpr ⟨fo, ho, hgo⟩) ?_)
    rw [Groups.flatName, ho]
    exact hno
  have hself : ∀ fo, s'.flats fx = some fo → fo = f' := by
    intro fo ho
    rw [hflats, update_self] at ho
    exact (Option.some.inj ho).symm
  rw [h'.unique_iff]
  intro fy fz f1 f2 name g h1 h2 hg1 hg2 hn1 hn2
  by_cases hy : fy = fx
  · by_cases hz : fz = fx
    · rw [hy, hz]
    · rw [hy] at h1
      cases hself f1 h1
      exact (hother fz f2 name g hz h2 hn1 hg1 hn2 hg2).elim
  · by_cases hz : fz = fx
    · rw [hz] at h2
      cases hself f2 h2
      exact (hother fy f1 name g hy h1 hn2 hg2 hn1 hg1).elim
    · rw [hflats, update_of_ne hy] at h1
      rw [hflats, update_of_ne hz] at h2
      exact h.unique_iff.mp hu fy fz f1 f2 name g h1 h2 hg1 hg2 hn1 hn2

theorem destroyGroup_remain (hs : s.destroyGroup g = some s') : Remain s s' := by
  obtain ⟨⟨r, s1⟩, hd, hs⟩ := Option.bind_eq_some_iff.mp hs
  obtain ⟨gx, _, hd⟩ := Option.bind_eq_some_iff.mp hd
  have h1 : s1.flats = s.flats := by
    split at hd
    · cases hd
      rfl
    · split at hd
      · cases hd
      · cases hd
        rfl
  dsimp only at hs
  split at hs
  · exact Remain.of_flats (Option.some.inj hs ▸ h1)
  · split at hs
    · exact Remain.of_flats (Option.some.inj hs ▸ h1)
    · cases hs

theorem terminateFlat_remain {r : Int} (hs : s.terminateFlat fx = some (r, s')) : Remain s s' := by
  obtain ⟨f, hf, he⟩ := Option.map_eq_some_iff.mp hs
  split at he
  next =>
    cases he
    exact Remain.setFlat hf rfl rfl
  next =>
    cases he
    exact Remain.setFlat hf rfl rfl
  next =>
    cases he
    exact Remain.refl s

theorem terminateFlats_remain {n i : Nat} (hs : Groups.terminateFlats g n i s = some s') : Remain s s' := by
  induction n generalizing s i with
  | zero => exact Option.some.inj hs ▸ Remain.refl s
  | succ n ih =>
    obtain ⟨gx, _, hs⟩ := Option.bind_eq_some_iff.mp hs
    obtain ⟨fx, _, hs⟩ := Option.bind_eq_some_iff.mp hs
    obtain ⟨⟨r, s1⟩, ht, hs⟩ := Option.bind_eq_some_iff.mp hs
    exact (terminateFlat_remain ht).trans (ih hs)

theorem terminateGroup_remain {hard : Bool} (hs : s.terminateGroup g hard = some s') : Remain s s' := by
  obtain ⟨gx, _, hs⟩ := Option.bind_eq_some_iff.mp hs
  obtain ⟨s1, ht, hs⟩ := Option.bind_eq_some_iff.mp hs
  have h1 := terminateFlats_remain ht
  split at hs
  next =>
    obtain ⟨gy, _, he⟩ := Option.map_eq_some_iff.mp hs
    exact he ▸ h1.trans (Remain.of_flats rfl)
  next => exact Option.some.inj hs ▸ h1

theorem destroyFlat_remain (hs : s.destroyFlat fx = some s') : Remain s s' := by
  obtain ⟨f, _, hs⟩ := Option.bind_eq_some_iff.mp hs
  obtain ⟨g, _, hs⟩ := Option.bind_eq_some_iff.mp hs
  obtain ⟨gx, _, hs⟩ := Option.bind_eq_some_iff.mp hs
  split at hs
  next => cases hs
  next =>
    dsimp only at hs
    split at hs
    next => exact Option.some.inj hs ▸ Remain.removed _ fx
    next => cases hs

theorem loadFlats_remain {settled : FlatId → Bool} {n i : Nat} (hs : Groups.loadFlats settled g n i s = some s') :
    Remain s s' := by
  induction n generalizing s i with
  | zero => exact Option.some.inj hs ▸ Remain.refl s
  | succ n ih =>
    obtain ⟨gx, _, hs⟩ := Option.bind_eq_some_iff.mp hs
    obtain ⟨fx, _, hs⟩ := Option.bind_eq_some_iff.mp hs
    obtain ⟨f, hf, hs⟩ := Option.bind_eq_some_iff.mp hs
    split at hs
    next => cases hs
    next st _ =>
      refine Remain.trans ?_ (ih hs)
      exact Remain.setFlat hf rfl rfl
    next =>
      refine Remain.trans ?_ (ih hs)
      exact Remain.removed _ fx

theorem loadGroups_remain {settled : FlatId → Bool} {n j : Nat} (hs : Groups.loadGroups settled n j s = some s') :
    Remain s s' := by
  induction n generalizing s j with
  | zero => exact Option.some.inj hs ▸ Remain.refl s
  | succ n ih =>
    obtain ⟨g, _, hs⟩ := Option.bind_eq_some_iff.mp hs
    obtain ⟨gx, _, hs⟩ := Option.bind_eq_some_iff.mp hs
    obtain ⟨s1, hload, hs⟩ := Option.bind_eq_some_iff.mp hs
    obtain ⟨gy, hy, hs⟩ := Option.bind_eq_some_iff.mp hs
    have h1 := loadFlats_remain hload
    split at hs
    next hremove =>
      rw [Groups.deallocateGroup, hy, Option.bind_some, if_neg (by omega), if_neg (by omega), Option.bind_some] at hs
      refine h1.trans (Remain.trans ?_ (ih hs))
      exact Remain.of_flats rfl
    next => exact h1.trans (ih hs)

end

section

open Function

variable {s s' : Groups} {g : GroupId} {fx : FlatId}

theorem createFlat_unique {connecting : Bool} {name : Option Text} {og : Option GroupId} {fresh : FlatId}
    (hu : UniqueNames s) (h : GroupInv s) (hs : s.createFlat connecting name og fresh = some s')
    (hfree : ∀ n gx, name = some n → og.or s.sFallback = some gx → NameFree s gx n fresh) : UniqueNames s' := by
  have h' := createFlat_inv h hs
  unfold Groups.createFlat at hs
  split at hs
  next => exact Option.some.inj hs ▸ hu
  next =>
    split at hs
    next => cases hs
    next =>
      obtain ⟨g, hg, hs⟩ := Option.bind_eq_some_iff.mp hs
      obtain ⟨gx, _, he⟩ := Option.map_eq_some_iff.mp hs
      subst he
      refine hu.placed h h' rfl fun n g' hn hg' => ?_
      cases hg'
      exact hfree n g hn hg

theorem switchGroup_unique {r : Int} (hu : UniqueNames s) (h : GroupInv s) (hs : s.switchGroup fx g = some (r, s'))
    (hfree : ∀ n, s.flatName fx = some n → NameFree s g n fx) : UniqueNames s' := by
  have h' := switchGroup_inv h hs
  obtain ⟨f, hf, hs⟩ := Option.bind_eq_some_iff.mp hs
  split at hs
  next =>
    cases hs
    exact hu
  next =>
    obtain ⟨old, _, hs⟩ := Option.bind_eq_some_iff.mp hs
    obtain ⟨gt, _, hs⟩ := Option.bind_eq_some_iff.mp hs
    obtain ⟨gx, _, hs⟩ := Option.bind_eq_some_iff.mp hs
    dsimp only at hs
    split at hs
    next => cases hs
    next =>
      cases hs
      refine hu.placed h h' rfl fun n g' hn hg' => ?_
      cases hg'
      exact hfree n (by rw [Groups.flatName, hf]; exact hn)

theorem renameFlat_unique {this : Option FlatId} {group : Option Text} {was should : Text} (hu : UniqueNames s)
    (h : GroupInv s) (hfree : NamesApart s (.renameFlat this group was should)) :
    UniqueNames (s.renameFlat this group was should).2 := by
  rcases renameFlat_cases s this group was should with he | ⟨fx, f, hnew, hfx, hf, hlock, he⟩
  · exact he.symm ▸ hu
  · have h' := @renameFlat_inv _ this group was should h
    rw [he] at h' ⊢
    refine hu.placed h h' rfl fun n g hn hg => ?_
    cases hn
    exact hfree fx f g hnew hfx hf hlock hg

theorem names_keep (first : GroupId) :
    (groupMachine first).Keeps NamesApart fun s _ => GroupInv s ∧ UniqueNames s := by
  rintro s log a s' ⟨h, hu⟩ hfree hstep
  have h' := group_keeps first s log a s' h trivial hstep
  refine ⟨h', ?_⟩
  cases a with
  | createGroup name fresh =>
    obtain ⟨-, he⟩ := Option.ite_none_left_eq_some.mp hstep
    exact hu.remain h h' (Option.some.inj he ▸ Remain.of_flats rfl)
  | duplicateGroup go name fresh =>
    obtain ⟨-, hstep⟩ := Option.ite_none_right_eq_some.mp hstep
    obtain ⟨gt, _, hstep⟩ := Option.bind_eq_some_iff.mp hstep
    obtain ⟨s1, hc, he⟩ := Option.map_eq_some_iff.mp hstep
    obtain ⟨-, hc⟩ := Option.ite_none_left_eq_some.mp hc
    cases Option.some.inj hc
    exact hu.remain h h' (he ▸ Remain.of_flats rfl)
  | destroyGroup g =>
    obtain ⟨gx, _, hstep⟩ := Option.bind_eq_some_iff.mp hstep
    obtain ⟨-, hstep⟩ := Option.ite_none_right_eq_some.mp hstep
    exact hu.remain h h' (destroyGroup_remain hstep)
  | terminateGroup g hard =>
    obtain ⟨-, hstep⟩ := Option.ite_none_right_eq_some.mp hstep
    exact hu.remain h h' (terminateGroup_remain hstep)
  | groupScope g scope =>
    obtain ⟨gx, _, he⟩ := Option.map_eq_some_iff.mp hstep
    exact hu.remain h h' (he ▸ Remain.of_flats rfl)
  | createListener g =>
    obtain ⟨-, hstep⟩ := Option.ite_none_right_eq_some.mp hstep
    unfold Groups.createListener at hstep
    split at hstep
    next => exact Option.some.inj hstep ▸ hu
    next =>
      obtain ⟨s1, hhold, he⟩ := Option.map_eq_some_iff.mp hstep
      obtain ⟨gx, _, h1⟩ := Option.map_eq_some_iff.mp hhold
      subst h1
      exact hu.remain h h' (he ▸ Remain.of_flats rfl)
  | releaseListener i =>
    obtain ⟨g, _, hstep⟩ := Option.bind_eq_some_iff.mp hstep
    obtain ⟨s1, hd, he⟩ := Option.map_eq_some_iff.mp hstep
    exact hu.remain h h' ((destroyGroup_remain hd).trans (he ▸ Remain.of_flats rfl))
  | acceptFlat i name fresh =>
    obtain ⟨g, hg, hstep⟩ := Option.bind_eq_some_iff.mp hstep
    refine createFlat_unique hu h hstep fun n gx hn hgx => ?_
    cases hn
    cases hgx
    exact hfree g hg
  | createFlat connecting name g fresh =>
    obtain ⟨-, hstep⟩ := Option.ite_none_right_eq_some.mp hstep
    exact createFlat_unique hu h hstep hfree
  | renameFlat this group was should =>
    cases Option.some.inj hstep
    exact renameFlat_unique hu h hfree
  | renameLock fx locked =>
    obtain ⟨f, hf, he⟩ := Option.map_eq_some_iff.mp hstep
    exact hu.remain h h' (he ▸ Remain.setFlat hf rfl rfl)
  | flatScope fx scope =>
    obtain ⟨f, hf, he⟩ := Option.map_eq_some_iff.mp hstep
    exact hu.remain h h' (he ▸ Remain.setFlat hf rfl rfl)
  | switchGroup fx g =>
    obtain ⟨-, hstep⟩ := Option.ite_none_right_eq_some.mp hstep
    obtain ⟨⟨r, s1⟩, hs, he⟩ := Option.map_eq_some_iff.mp hstep
    exact he ▸ switchGroup_unique hu h hs hfree
  | terminateFlat fx =>
    obtain ⟨⟨r, s1⟩, hs, he⟩ := Option.map_eq_some_iff.mp hstep
    exact he ▸ hu.remain h (he ▸ h') (terminateFlat_remain hs)
  | network fx broken =>
    obtain ⟨f, hf, he⟩ := Option.map_eq_some_iff.mp hstep
    exact hu.remain h h' (he ▸ Remain.setFlat hf rfl rfl)
  | destroyFlat fx => exact hu.remain h h' (destroyFlat_remain hstep)
  | load settled => exact hu.remain h h' (loadGroups_remain hstep)

end

end Katcp
