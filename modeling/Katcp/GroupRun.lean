import Katcp.GroupSteps
import Katcp.Machine
import Mathlib.Data.List.Count
import Mathlib.Data.List.ReduceOption

namespace Katcp

open Function

/-- What happens to the groups and clients. A group to go to comes from the vector of the groups,
a client is one that lives, and what the network reports is that a connection is up or broken. -/
inductive GroupAction where
  | createGroup (name : Option Text) (fresh : GroupId)
  | duplicateGroup (go : GroupId) (name : Option Text) (fresh : GroupId)
  | destroyGroup (g : GroupId)
  | terminateGroup (g : GroupId) (hard : Bool)
  | groupScope (g : GroupId) (scope : ClientScope)
  | createListener (g : Option GroupId)
  | releaseListener (i : Nat)
  | acceptFlat (i : Nat) (name : Text) (fresh : FlatId)
  | createFlat (connecting : Bool) (name : Option Text) (g : Option GroupId) (fresh : FlatId)
  | renameFlat (this : Option FlatId) (group : Option Text) (was should : Text)
  | renameLock (fx : FlatId) (locked : Bool)
  | flatScope (fx : FlatId) (scope : ClientScope)
  | switchGroup (fx : FlatId) (g : GroupId)
  | terminateFlat (fx : FlatId)
  | network (fx : FlatId) (broken : Bool)
  | destroyFlat (fx : FlatId)
  | load (settled : FlatId → Bool)

def groupStep (s : Groups) : GroupAction → Option Groups
  | .createGroup name fresh => s.createGroup name fresh
  | .duplicateGroup go name fresh => if go ∈ s.allGroups then s.duplicateGroup go name fresh else none
  | .destroyGroup g => (s.groups g).bind fun gx => if gx.gUse = 0 then s.destroyGroup g else none
  | .terminateGroup g hard => if g ∈ s.allGroups then s.terminateGroup g hard else none
  | .groupScope g scope => (s.groups g).map fun gx => s.setGroup g (some { gx with gScope := scope })
  | .createListener g => if g.all (· ∈ s.allGroups) then s.createListener g else none
  | .releaseListener i => s.releaseListener i
  | .acceptFlat i name fresh => s.listeners[i]?.bind fun g => s.createFlat false (some name) (some g) fresh
  | .createFlat connecting name g fresh =>
    if g.all (· ∈ s.allGroups) then s.createFlat connecting name g fresh else none
  | .renameFlat this group was should => some (s.renameFlat this group was should).2
  | .renameLock fx locked => (s.flats fx).map fun f => s.setFlat fx (some { f with fRenameLock := locked })
  | .flatScope fx scope => (s.flats fx).map fun f => s.setFlat fx (some { f with fScope := scope })
  | .switchGroup fx g => if g ∈ s.allGroups then (s.switchGroup fx g).map Prod.snd else none
  | .terminateFlat fx => (s.terminateFlat fx).map Prod.snd
  | .network fx broken => (s.flats fx).map fun f =>
      s.setFlat fx (some { f with fState := if broken then .crashing else .up })
  | .destroyFlat fx => s.destroyFlat fx
  | .load settled => s.loadFlat settled

def noGroups : Groups := ⟨.empty, none, fun _ => none, fun _ => none, []⟩

/-- The groups after `startup_duplex_katcp`. -/
def startupGroups (first : GroupId) : Groups := (noGroups.setupDefaultGroup (textOf "default") first).getD noGroups

def groupMachine (first : GroupId) : Machine Groups GroupAction Unit := ⟨startupGroups first, groupStep, fun _ _ => []⟩

variable {s s' : Groups} {g : GroupId} {fx : FlatId}

/-- The default group as it is at startup. -/
def defaultGroup : KatcpGroup := ⟨some (textOf "default"), .empty, .group, 1, false⟩

theorem startupGroups_eq (first : GroupId) : startupGroups first =
    { sGroups := CountedVector.empty.add first, sFallback := some first,
      groups := update (fun _ => none) first (some defaultGroup), flats := fun _ => none, listeners := [] } := by
  simp [startupGroups, Groups.setupDefaultGroup, Groups.createGroup, Groups.holdGroup, Groups.setGroup, noGroups,
    defaultGroup]

theorem startupGroups_inv (first : GroupId) : GroupInv (startupGroups first) := by
  have hempty : Housed noGroups [] fun _ => [] :=
    ⟨CountedVector.empty_lists, List.nodup_nil, fun _ => ⟨nofun, nofun⟩, nofun, nofun, nofun, nofun, nofun⟩
  have h := @Housed.found _ _ _ first defaultGroup hempty rfl rfl
  rw [startupGroups_eq]
  refine ⟨[first], _, ⟨h.listed, h.nodup, h.live, h.holds, h.once, h.member, h.placed, h.alive⟩, fun g gx hg => ?_,
    ⟨first, List.mem_singleton_self _, rfl⟩, nofun⟩
  dsimp only at hg
  by_cases he : g = first
  · subst he
    rw [update_self] at hg
    cases hg
    rw [if_pos rfl]
    rfl
  · rw [update_of_ne he] at hg
    cases hg

theorem group_keeps (first : GroupId) : (groupMachine first).Keeps (fun _ _ => True) fun s _ => GroupInv s := by
  intro s log a s' h _ hstep
  have halive : ∀ fx f, s.flats fx = some f → f.fState ≠ .gone := by
    obtain ⟨gs, fs, hh, -⟩ := h
    exact hh.alive
  cases a with
  | createGroup name fresh => exact (createGroup_inv h hstep).1
  | duplicateGroup go name fresh =>
    obtain ⟨-, hstep⟩ := Option.ite_none_right_eq_some.mp hstep
    exact duplicateGroup_inv h hstep
  | destroyGroup g =>
    obtain ⟨gx, hg, hstep⟩ := Option.bind_eq_some_iff.mp hstep
    obtain ⟨hz, hstep⟩ := Option.ite_none_right_eq_some.mp hstep
    exact destroyGroup_inv h hg hz hstep
  | terminateGroup g hard =>
    obtain ⟨-, hstep⟩ := Option.ite_none_right_eq_some.mp hstep
    exact terminateGroup_inv h hstep
  | groupScope g scope =>
    obtain ⟨gx, hg, he⟩ := Option.map_eq_some_iff.mp hstep
    exact he ▸ h.setGroup hg rfl rfl
  | createListener g =>
    obtain ⟨-, hstep⟩ := Option.ite_none_right_eq_some.mp hstep
    exact createListener_inv h hstep
  | releaseListener i => exact releaseListener_inv h hstep
  | acceptFlat i name fresh =>
    obtain ⟨g, _, hstep⟩ := Option.bind_eq_some_iff.mp hstep
    exact createFlat_inv h hstep
  | createFlat connecting name g fresh =>
    obtain ⟨-, hstep⟩ := Option.ite_none_right_eq_some.mp hstep
    exact createFlat_inv h hstep
  | renameFlat this group was should =>
    cases Option.some.inj hstep
    exact renameFlat_inv h
  | renameLock fx locked =>
    obtain ⟨f, hf, he⟩ := Option.map_eq_some_iff.mp hstep
    exact he ▸ h.setFlat hf rfl (halive fx f hf)
  | flatScope fx scope =>
    obtain ⟨f, hf, he⟩ := Option.map_eq_some_iff.mp hstep
    exact he ▸ h.setFlat hf rfl (halive fx f hf)
  | switchGroup fx g =>
    obtain ⟨-, hstep⟩ := Option.ite_none_right_eq_some.mp hstep
    obtain ⟨⟨r, s1⟩, hs, he⟩ := Option.map_eq_some_iff.mp hstep
    exact he ▸ switchGroup_inv h hs
  | terminateFlat fx =>
    obtain ⟨⟨r, s1⟩, hs, he⟩ := Option.map_eq_some_iff.mp hstep
    exact he ▸ (terminateFlat_inv h hs).1
  | network fx broken =>
    obtain ⟨f, hf, he⟩ := Option.map_eq_some_iff.mp hstep
    refine he ▸ h.setFlat hf rfl ?_
    dsimp only
    split <;> nofun
  | destroyFlat fx => exact destroyFlat_inv h hstep
  | load settled =>
    obtain ⟨s1, hs, h1⟩ := loadFlat_spec h settled
    cases hs.symm.trans hstep
    exact h1

/-- Every client is once in one vector, that of its group, every vector holds as many clients as it
counts, and every group is once in the vector of the groups. -/
structure Grouped (s : Groups) : Prop where
  client : ∀ fx f, s.flats fx = some f → ∃ g gx, f.fGroup = some g ∧ s.groups g = some gx ∧
    gx.gFlats.entries.count (some fx) = 1 ∧
    ∀ g' gx', s.groups g' = some gx' → g' ≠ g → some fx ∉ gx'.gFlats.entries
  vector : ∀ g gx, s.groups g = some gx → gx.gFlats.entries.length = gx.gFlats.count ∧
    ∀ e ∈ gx.gFlats.entries, ∃ fx f, e = some fx ∧ s.flats fx = some f
  group : ∀ g gx, s.groups g = some gx → s.sGroups.entries.count (some g) = 1
  groups : s.sGroups.entries.length = s.sGroups.count ∧
    ∀ e ∈ s.sGroups.entries, ∃ g gx, e = some g ∧ s.groups g = some gx

theorem GroupInv.grouped (h : GroupInv s) : Grouped s := by
  obtain ⟨gs, fs, hh, -⟩ := h
  refine ⟨fun fx f hf => ?_, fun g gx hg => ⟨?_, fun e he => ?_⟩, fun g gx hg => ?_, ?_, fun e he => ?_⟩
  · obtain ⟨g, hg, hfg⟩ := hh.placed fx f hf
    obtain ⟨gx, hgx⟩ := hh.group hg
    refine ⟨g, gx, hfg, hgx, ?_, fun g' gx' hg' hne hin => ?_⟩
    · rw [(hh.holds g gx hgx).entries, List.count_map_of_injective _ _ (Option.some_injective _)]
      exact List.count_eq_one_of_mem (hh.once g hg) ((hh.member g hg fx).mpr ⟨f, hf, hfg⟩)
    · rw [(hh.holds g' gx' hg').entries] at hin
      obtain ⟨fy, hfy, he⟩ := List.mem_map.mp hin
      cases he
      obtain ⟨fo, ho, hgo⟩ := (hh.member g' (hh.mem hg') fx).mp hfy
      rw [hf] at ho
      cases ho
      exact hne (Option.some.inj (hgo.symm.trans hfg))
  · rw [(hh.holds g gx hg).entries, List.length_map, (hh.holds g gx hg).count]
  · rw [(hh.holds g gx hg).entries] at he
    obtain ⟨fx, hfx, rfl⟩ := List.mem_map.mp he
    obtain ⟨f, hf, -⟩ := (hh.member g (hh.mem hg) fx).mp hfx
    exact ⟨fx, f, rfl, hf⟩
  · rw [hh.listed.entries, List.count_map_of_injective _ _ (Option.some_injective _)]
    exact List.count_eq_one_of_mem hh.nodup (hh.mem hg)
  · rw [hh.listed.entries, List.length_map, hh.listed.count]
  · rw [hh.listed.entries] at he
    obtain ⟨g, hg, rfl⟩ := List.mem_map.mp he
    obtain ⟨gx, hgx⟩ := hh.group hg
    exact ⟨g, gx, rfl, hgx⟩

theorem reduceOption_map_some {α : Type*} (l : List α) : (l.map some).reduceOption = l := by
  induction l with
  | nil => rfl
  | cons a l ih => rw [List.map_cons, List.reduceOption_cons_of_some, ih]

theorem Housed.allGroups {s : Groups} {gs : List GroupId} {fs : GroupId → List FlatId} (h : Housed s gs fs) :
    s.allGroups = gs := by
  unfold Groups.allGroups
  rw [h.listed.entries]
  exact reduceOption_map_some _

theorem Housed.members {s : Groups} {gs : List GroupId} {fs : GroupId → List FlatId} {g : GroupId} (h : Housed s gs fs)
    (hg : g ∈ gs) :
    s.members g = fs g := by
  obtain ⟨gx, hgx⟩ := h.group hg
  unfold Groups.members
  rw [hgx, Option.map_some, Option.getD_some, (h.holds g gx hgx).entries]
  exact reduceOption_map_some _

/-- Through all the groups nobody is met twice. -/
theorem GroupInv.clients_nodup {s : Groups} (h : GroupInv s) : (s.allGroups.flatMap s.members).Nodup := by
  obtain ⟨gs, fs, hh, -⟩ := h
  rw [hh.allGroups, List.nodup_flatMap]
  constructor
  · intro g hg
    rw [hh.members hg]
    exact hh.once g hg
  · refine hh.nodup.imp_of_mem fun hg hg' hne fx hx hy => ?_
    rw [hh.members hg] at hx
    rw [hh.members hg'] at hy
    obtain ⟨f, hf, hfg⟩ := (hh.member _ hg fx).mp hx
    obtain ⟨f', hf', hfg'⟩ := (hh.member _ hg' fx).mp hy
    cases hf.symm.trans hf'
    exact hne (Option.some.inj (hfg.symm.trans hfg'))

theorem GroupInv.mem_clients {s : Groups} {fx : FlatId} {f : GroupFlat} (h : GroupInv s) (hf : s.flats fx = some f) :
    fx ∈ s.allGroups.flatMap s.members := by
  obtain ⟨gs, fs, hh, -⟩ := h
  obtain ⟨g, hg, hfg⟩ := hh.placed fx f hf
  rw [hh.allGroups, List.mem_flatMap]
  refine ⟨g, hg, ?_⟩
  rw [hh.members hg]
  exact (hh.member g hg fx).mpr ⟨f, hf, hfg⟩

theorem group_runs_inv {first : GroupId} {s : Groups} {log : List Unit}
    (h : (groupMachine first).Runs (fun _ _ => True) s log) : GroupInv s :=
  h.invariant (fun s _ => GroupInv s) (startupGroups_inv first) (group_keeps first)

/-- In every state the groups and clients are in order, and a pass over them comes to its end. -/
theorem clients_stay_grouped {first : GroupId} {s : Groups} {log : List Unit}
    (h : (groupMachine first).Runs (fun _ _ => True) s log) :
    Grouped s ∧ ∀ settled, (s.loadFlat settled).isSome := by
  have hinv := group_runs_inv h
  refine ⟨hinv.grouped, fun settled => ?_⟩
  obtain ⟨s', hs, -⟩ := loadFlat_spec hinv settled
  rw [hs]
  rfl

/-- Two clients of a second group, the first of which goes over to the default group. -/
theorem clients_stay_grouped_two : ∃ s, Grouped s ∧ s.members 0 = [7] ∧ s.members 1 = [8] :=
  ⟨_, (clients_stay_grouped (Machine.Runs.exec (.start (m := groupMachine 0))
    [.createGroup (some (textOf "side")) 1, .createFlat false (some (textOf "a")) (some 1) 7,
      .createFlat false (some (textOf "b")) (some 1) 8, .switchGroup 7 0] rfl (Machine.meets_true _ _ _))).1, rfl, rfl⟩

end Katcp
