import Katcp.CountedVector
import Katcp.DuplexData
import Mathlib.Logic.Function.Basic

namespace Katcp

section

open Function

abbrev GroupId := Nat

/-- `KATCP_SCOPE_LOCAL`, `KATCP_SCOPE_GROUP` and `KATCP_SCOPE_ALL`, one of which every client has. -/
inductive ClientScope where
  | client | group | all
  deriving DecidableEq, Repr

/-- What the groups see of a `katcp_flat`. -/
structure GroupFlat where
  fName : Option Text
  fGroup : Option GroupId
  fScope : ClientScope
  fState : FlatState
  fRenameLock : Bool

structure KatcpGroup where
  gName : Option Text
  gFlats : CountedVector FlatId
  gScope : ClientScope
  gUse : Nat
  gAutoremove : Bool

/-- The groups and clients of a `katcp_shared`; what is not allocated is `none`. The listeners are
told by their groups. -/
structure Groups where
  sGroups : CountedVector GroupId
  sFallback : Option GroupId
  groups : GroupId → Option KatcpGroup
  flats : FlatId → Option GroupFlat
  listeners : List GroupId

namespace Groups

def setGroup (s : Groups) (g : GroupId) (gx : Option KatcpGroup) : Groups := { s with groups := update s.groups g gx }

def setFlat (s : Groups) (fx : FlatId) (f : Option GroupFlat) : Groups := { s with flats := update s.flats fx f }

section

variable (s : Groups) (g : GroupId) (gx : Option KatcpGroup) (fx : FlatId) (f : Option GroupFlat)

@[simp] theorem setGroup_groups : (s.setGroup g gx).groups = update s.groups g gx := rfl

@[simp] theorem setGroup_flats : (s.setGroup g gx).flats = s.flats := rfl

@[simp] theorem setGroup_sGroups : (s.setGroup g gx).sGroups = s.sGroups := rfl

@[simp] theorem setGroup_sFallback : (s.setGroup g gx).sFallback = s.sFallback := rfl

@[simp] theorem setGroup_listeners : (s.setGroup g gx).listeners = s.listeners := rfl

@[simp] theorem setFlat_groups : (s.setFlat fx f).groups = s.groups := rfl

@[simp] theorem setFlat_flats : (s.setFlat fx f).flats = update s.flats fx f := rfl

@[simp] theorem setFlat_sGroups : (s.setFlat fx f).sGroups = s.sGroups := rfl

@[simp] theorem setFlat_sFallback : (s.setFlat fx f).sFallback = s.sFallback := rfl

@[simp] theorem setFlat_listeners : (s.setFlat fx f).listeners = s.listeners := rfl

end

/-- `create_group_katcp`, which is given memory that nothing lives in. -/
def createGroup (s : Groups) (name : Option Text) (fresh : GroupId) : Option Groups :=
  if (s.groups fresh).isSome then none
  else some { s.setGroup fresh (some ⟨name, .empty, .group, 0, false⟩) with sGroups := s.sGroups.add fresh }

/-- `duplicate_group_katcp` -/
def duplicateGroup (s : Groups) (go : GroupId) (name : Option Text) (fresh : GroupId) : Option Groups :=
  (s.groups go).bind fun gt => (s.createGroup name fresh).map fun s =>
    s.setGroup fresh (some ⟨name, .empty, gt.gScope, 0, false⟩)

/-- `deallocate_group_katcp`, where no result is an abort. -/
def deallocateGroup (s : Groups) (g : GroupId) : Option (Int × Groups) :=
  (s.groups g).bind fun gx =>
    if gx.gUse > 0 then some (1, s.setGroup g (some { gx with gUse := gx.gUse - 1 }))
    else if gx.gFlats.count > 0 then none
    else some (0, s.setGroup g none)

/-- `destroy_group_katcp`, which may only give up a hold. -/
def destroyGroup (s : Groups) (g : GroupId) : Option Groups :=
  (s.deallocateGroup g).bind fun (r, s) =>
    if r ≠ 0 then some s
    else
      let i := s.sGroups.indexOf g
      if i < s.sGroups.count then some { s with sGroups := s.sGroups.takeOut true i } else none

/-- `hold_group_katcp` -/
def holdGroup (s : Groups) (g : GroupId) : Option Groups :=
  (s.groups g).map fun gx => s.setGroup g (some { gx with gUse := gx.gUse + 1 })

/-- `setup_default_group`, as the first group is made at startup. -/
def setupDefaultGroup (s : Groups) (name : Text) (fresh : GroupId) : Option Groups :=
  (s.createGroup (some name) fresh).bind fun s =>
    if s.sFallback = none then (s.holdGroup fresh).map fun s => { s with sFallback := some fresh } else some s

/-- What a listener does to the groups as it is made and when it is stopped. -/
def createListener (s : Groups) (g : Option GroupId) : Option Groups :=
  match g.or s.sFallback with
  | none => some s
  | some gx => (s.holdGroup gx).map fun s => { s with listeners := s.listeners ++ [gx] }

def releaseListener (s : Groups) (i : Nat) : Option Groups :=
  s.listeners[i]?.bind fun gx => (s.destroyGroup gx).map fun s => { s with listeners := s.listeners.eraseIdx i }

/-- `create_flat_katcp` -/
def createFlat (s : Groups) (connecting : Bool) (name : Option Text) (g : Option GroupId) (fresh : FlatId) :
    Option Groups :=
  if s.sGroups.count = 0 then some s
  else if (s.flats fresh).isSome then none
  else
    (g.or s.sFallback).bind fun g => (s.groups g).map fun gx =>
      (s.setFlat fresh (some ⟨name, some g, gx.gScope, if connecting then .connecting else .up, false⟩)).setGroup g
        (some { gx with gFlats := gx.gFlats.add fresh })

/-- `switch_group_katcp` -/
def switchGroup (s : Groups) (fx : FlatId) (g : GroupId) : Option (Int × Groups) :=
  (s.flats fx).bind fun f =>
    if f.fGroup = some g then some (-1, s)
    else
      f.fGroup.bind fun old => (s.groups old).bind fun gt => (s.groups g).bind fun gx =>
        let i := gt.gFlats.indexOf fx
        if i ≥ gt.gFlats.count then none
        else some (0, ((s.setGroup g (some { gx with gFlats := gx.gFlats.add fx })).setGroup old
          (some { gt with gFlats := gt.gFlats.takeOut false i })).setFlat fx (some { f with fGroup := some g }))

/-- `terminate_flat_katcp` -/
def terminateFlat (s : Groups) (fx : FlatId) : Option (Int × Groups) :=
  (s.flats fx).map fun f =>
    match f.fState with
    | .connecting => (0, s.setFlat fx (some { f with fState := .crashing }))
    | .up => (0, s.setFlat fx (some { f with fState := .finishing }))
    | _ => (1, s)

/-- The loop of `terminate_group_katcp` over the clients from `i` on, `n` of them. -/
def terminateFlats (g : GroupId) : Nat → Nat → Groups → Option Groups
  | 0, _, s => some s
  | n + 1, i, s =>
    (s.groups g).bind fun gx => (gx.gFlats.block[i]?.join).bind fun fx =>
      (s.terminateFlat fx).bind fun (_, s) => terminateFlats g n (i + 1) s

/-- `terminate_group_katcp`; the listeners of the group stop later, each by itself. -/
def terminateGroup (s : Groups) (g : GroupId) (hard : Bool) : Option Groups :=
  (s.groups g).bind fun gx => (terminateFlats g gx.gFlats.count 0 s).bind fun s =>
    if hard then (s.groups g).map fun gx => s.setGroup g (some { gx with gAutoremove := true }) else some s

/-- `destroy_flat_katcp` -/
def destroyFlat (s : Groups) (fx : FlatId) : Option Groups :=
  (s.flats fx).bind fun f => f.fGroup.bind fun g => (s.groups g).bind fun gx =>
    if gx.gFlats.count = 0 then none
    else
      let i := gx.gFlats.indexOf fx
      if i < gx.gFlats.count then
        some ((s.setGroup g (some { gx with gFlats := gx.gFlats.takeOut true i })).setFlat fx none)
      else none

/-- The switch of `load_flat_katcp`: the state in which a client goes on, or that it is taken down.
A client is settled when all of its output is written and both endpoints are without messages. -/
def loadState (settled : Bool) : FlatState → Option (Option FlatState)
  | .connecting => some (some .connecting)
  | .up => some (some .up)
  | .finishing => some (if settled then none else some .ending)
  | .ending => some (if settled then none else some .ending)
  | .crashing => some none
  | .dead => some none
  | .gone => none

/-- The inner loop of `load_flat_katcp`, from the client at `i` on, with `n` still to look at. -/
def loadFlats (settled : FlatId → Bool) (g : GroupId) : Nat → Nat → Groups → Option Groups
  | 0, _, s => some s
  | n + 1, i, s =>
    (s.groups g).bind fun gx => (gx.gFlats.block[i]?.join).bind fun fx => (s.flats fx).bind fun f =>
      match loadState (settled fx) f.fState with
      | none => none
      | some (some st) => loadFlats settled g n (i + 1) (s.setFlat fx (some { f with fState := st }))
      | some none => loadFlats settled g n i
          ((s.setGroup g (some { gx with gFlats := gx.gFlats.takeOut true i })).setFlat fx none)

/-- The outer loop, from the group at `j` on. -/
def loadGroups (settled : FlatId → Bool) : Nat → Nat → Groups → Option Groups
  | 0, _, s => some s
  | n + 1, j, s =>
    (s.sGroups.block[j]?.join).bind fun g => (s.groups g).bind fun gx =>
      (loadFlats settled g gx.gFlats.count 0 s).bind fun s => (s.groups g).bind fun gx =>
        if gx.gAutoremove = true ∧ gx.gFlats.count = 0 ∧ gx.gUse = 0 then
          (s.deallocateGroup g).bind fun (_, s) =>
            loadGroups settled n j { s with sGroups := s.sGroups.takeOut true j }
        else loadGroups settled n (j + 1) s

/-- `load_flat_katcp` -/
def loadFlat (s : Groups) (settled : FlatId → Bool) : Option Groups := loadGroups settled s.sGroups.count 0 s

/-- The groups and the clients of a group, in the order of their vectors. -/
def allGroups (s : Groups) : List GroupId := s.sGroups.entries.reduceOption

def members (s : Groups) (g : GroupId) : List FlatId :=
  ((s.groups g).map fun gx => gx.gFlats.entries.reduceOption).getD []

def groupName (s : Groups) (g : GroupId) : Option Text := (s.groups g).bind KatcpGroup.gName

def flatName (s : Groups) (fx : FlatId) : Option Text := (s.flats fx).bind GroupFlat.fName

/-- `find_group_katcp` -/
def findGroup (s : Groups) : Option Text → Option GroupId
  | none => s.sFallback
  | some name => s.allGroups.find? fun g => s.groupName g = some name

/-- `this_group_katcp` -/
def thisGroup (s : Groups) : Option FlatId → Option GroupId
  | none => s.sFallback
  | some fx => (s.flats fx).bind GroupFlat.fGroup

/-- `search_name_flat_katcp`, called for the current client `this`. -/
def searchName (s : Groups) (this : Option FlatId) (name : Option Text) (gx : Option GroupId) (limit : Bool) :
    Option FlatId :=
  name.bind fun name =>
    let gr := gx.or (s.thisGroup this)
    match ((gr.map s.members).getD []).find? fun fx => s.flatName fx = some name with
    | some fx => some fx
    | none =>
      if limit = true ∧ gr.isSome then none
      else ((s.allGroups.filter fun gt => some gt ≠ gr).flatMap s.members).find? fun fx => s.flatName fx = some name

/-- `find_name_flat_katcp` -/
def findName (s : Groups) (this : Option FlatId) (group name : Option Text) (limit : Bool) : Option FlatId :=
  match group with
  | none => s.searchName this name none limit
  | some group =>
    match s.findGroup (some group) with
    | none => if limit then none else s.searchName this name none limit
    | some gx => s.searchName this name (some gx) limit

/-- `rename_flat_katcp` with unique client names. -/
def renameFlat (s : Groups) (this : Option FlatId) (group : Option Text) (was should : Text) : Int × Groups :=
  if (s.findName this group (some should) true).isSome then (-1, s)
  else
    match s.findName this group (some was) false with
    | none => (-1, s)
    | some fx =>
      match s.flats fx with
      | none => (-1, s)
      | some f =>
        if f.fRenameLock then (-1, s) else (0, s.setFlat fx (some { f with fName := some should }))

end Groups

end

section

open Function

variable {s s' : Groups} {gs : List GroupId} {fs : GroupId → List FlatId} {g : GroupId} {gx gx' : KatcpGroup}
  {fx : FlatId} {f f' : GroupFlat}

/-- The groups are these and their clients those, every one of them at one place. -/
structure Housed (s : Groups) (gs : List GroupId) (fs : GroupId → List FlatId) : Prop where
  listed : s.sGroups.Lists gs
  nodup : gs.Nodup
  live : ∀ g, g ∈ gs ↔ (s.groups g).isSome
  holds : ∀ g gx, s.groups g = some gx → gx.gFlats.Lists (fs g)
  once : ∀ g ∈ gs, (fs g).Nodup
  member : ∀ g ∈ gs, ∀ fx, fx ∈ fs g ↔ ∃ f, s.flats fx = some f ∧ f.fGroup = some g
  placed : ∀ fx f, s.flats fx = some f → ∃ g ∈ gs, f.fGroup = some g
  alive : ∀ fx f, s.flats fx = some f → f.fState ≠ .gone

/-- The default group and those of the listeners are held. -/
structure Used (s : Groups) (gs : List GroupId) : Prop where
  uses : ∀ g gx, s.groups g = some gx → gx.gUse = (if s.sFallback = some g then 1 else 0) + s.listeners.count g
  fallback : ∃ g ∈ gs, s.sFallback = some g
  listeners : ∀ g ∈ s.listeners, g ∈ gs

namespace Housed

theorem mem (h : Housed s gs fs) (hg : s.groups g = some gx) : g ∈ gs :=
  (h.live g).mpr (Option.isSome_iff_exists.mpr ⟨gx, hg⟩)

theorem group (h : Housed s gs fs) (hg : g ∈ gs) : ∃ gx, s.groups g = some gx :=
  Option.isSome_iff_exists.mp ((h.live g).mp hg)

/-- A group changes, but not its clients. -/
theorem setGroup (h : Housed s gs fs) (hg : s.groups g = some gx) (hsame : gx'.gFlats = gx.gFlats) :
    Housed (s.setGroup g (some gx')) gs fs := by
  refine ⟨h.listed, h.nodup, fun g' => ?_, fun g' gt ht => ?_, h.once, h.member, h.placed, h.alive⟩
  · rw [h.live g']
    by_cases he : g' = g
    · subst he
      simp [hg]
    · simp [he]
  · rw [Groups.setGroup_groups] at ht
    by_cases he : g' = g
    · subst he
      rw [update_self] at ht
      cases ht
      rw [hsame]
      exact h.holds g' gx hg
    · rw [update_of_ne he] at ht
      exact h.holds g' gt ht

/-- A client changes, but not its group. -/
theorem setFlat (h : Housed s gs fs) (hf : s.flats fx = some f) (hsame : f'.fGroup = f.fGroup)
    (halive : f'.fState ≠ .gone) : Housed (s.setFlat fx (some f')) gs fs := by
  have hread : ∀ fy fz, (s.setFlat fx (some f')).flats fy = some fz →
      ∃ fo, s.flats fy = some fo ∧ fz.fGroup = fo.fGroup ∧ fz.fState ≠ .gone := by
    intro fy fz hz
    rw [Groups.setFlat_flats] at hz
    by_cases he : fy = fx
    · subst he
      rw [update_self] at hz
      cases hz
      exact ⟨f, hf, hsame, halive⟩
    · rw [update_of_ne he] at hz
      exact ⟨fz, hz, rfl, h.alive fy fz hz⟩
  refine ⟨h.listed, h.nodup, h.live, h.holds, h.once, fun g hg fy => ?_, fun fy fz hz => ?_, fun fy fz hz => ?_⟩
  · rw [h.member g hg]
    constructor
    · rintro ⟨fo, ho, hgo⟩
      rw [Groups.setFlat_flats]
      by_cases he : fy = fx
      · subst he
        rw [hf] at ho
        cases ho
        exact ⟨f', update_self .., hsame.trans hgo⟩
      · exact ⟨fo, (update_of_ne he ..).trans ho, hgo⟩
    · rintro ⟨fz, hz, hgz⟩
      obtain ⟨fo, ho, hgo, -⟩ := hread fy fz hz
      exact ⟨fo, ho, hgo.symm.trans hgz⟩
  · obtain ⟨fo, ho, hgo, -⟩ := hread fy fz hz
    rw [hgo]
    exact h.placed fy fo ho
  · obtain ⟨fo, -, -, ha⟩ := hread fy fz hz
    exact ha

/-- The clients of one group change, and no other client than the one that comes or goes. -/
theorem relist (h : Housed s gs fs) (hg : s.groups g = some gx) {fo : Option GroupFlat} {xs : List FlatId}
    (hlists : gx'.gFlats.Lists xs) (honce : xs.Nodup) (hself : fx ∈ xs ↔ fo.isSome)
    (hrest : ∀ fy, fy ≠ fx → (fy ∈ xs ↔ fy ∈ fs g)) (hout : ∀ g' ∈ gs, g' ≠ g → fx ∉ fs g')
    (hnew : ∀ f, fo = some f → f.fGroup = some g ∧ f.fState ≠ .gone) :
    Housed ((s.setFlat fx fo).setGroup g (some gx')) gs (update fs g xs) := by
  have hmem := h.mem hg
  have hread : ∀ fy fz, ((s.setFlat fx fo).setGroup g (some gx')).flats fy = some fz →
      (fy = fx ∧ fo = some fz) ∨ s.flats fy = some fz := by
    intro fy fz hz
    rw [Groups.setGroup_flats, Groups.setFlat_flats] at hz
    by_cases hfy : fy = fx
    · subst hfy
      rw [update_self] at hz
      exact .inl ⟨rfl, hz⟩
    · rw [update_of_ne hfy] at hz
      exact .inr hz
  refine ⟨h.listed, h.nodup, fun g' => ?_, fun g' gt ht => ?_, fun g' hg' => ?_, fun g' hg' fy => ?_,
    fun fy fz hz => ?_, fun fy fz hz => ?_⟩
  · rw [h.live g']
    by_cases he : g' = g
    · subst he
      simp [hg]
    · simp [he]
  · by_cases he : g' = g
    · subst he
      simp only [Groups.setGroup_groups, update_self, Option.some.injEq] at ht
      rw [← ht, update_self]
      exact hlists
    · simp only [Groups.setFlat_groups, Groups.setGroup_groups, update_of_ne he] at ht ⊢
      exact h.holds g' gt ht
  · by_cases he : g' = g
    · subst he
      rw [update_self]
      exact honce
    · rw [update_of_ne he]
      exact h.once g' hg'
  · rw [Groups.setGroup_flats, Groups.setFlat_flats]
    by_cases hfy : fy = fx
    · subst hfy
      rw [update_self]
      by_cases he : g' = g
      · subst he
        rw [update_self, hself, Option.isSome_iff_exists]
        exact ⟨fun ⟨f, hf⟩ => ⟨f, hf, (hnew f hf).1⟩, fun ⟨f, hf, _⟩ => ⟨f, hf⟩⟩
      · rw [update_of_ne he]
        refine ⟨fun hin => absurd hin (hout g' hg' he), fun ⟨f, hf, hgf⟩ => absurd ?_ he⟩
        exact Option.some.inj (hgf.symm.trans (hnew f hf).1)
    · rw [update_of_ne hfy, ← h.member g' hg' fy]
      by_cases he : g' = g
      · subst he
        rw [update_self, hrest fy hfy]
      · rw [update_of_ne he]
  · obtain ⟨rfl, hf⟩ | hz := hread fy fz hz
    · exact ⟨g, hmem, (hnew fz hf).1⟩
    · exact h.placed fy fz hz
  · obtain ⟨rfl, hf⟩ | hz := hread fy fz hz
    · exact (hnew fz hf).2
    · exact h.alive fy fz hz

/-- A new client comes in at the end of the vector of its group. -/
theorem enter (h : Housed s gs fs) (hg : s.groups g = some gx) (hfree : s.flats fx = none) (hf : f.fGroup = some g)
    (halive : f.fState ≠ .gone) :
    Housed ((s.setFlat fx (some f)).setGroup g (some { gx with gFlats := gx.gFlats.add fx })) gs
      (update fs g (fs g ++ [fx])) := by
  have hmem := h.mem hg
  have hout : ∀ g' ∈ gs, fx ∉ fs g' := by
    intro g' hg' hin
    obtain ⟨fo, ho, -⟩ := (h.member g' hg' fx).mp hin
    rw [hfree] at ho
    cases ho
  refine h.relist hg ((h.holds g gx hg).add fx) ?_ (by simp) (fun fy hfy => by simp [hfy]) (fun g' hg' _ => hout g' hg') ?_
  · exact List.nodup_append.mpr ⟨h.once g hmem, List.nodup_singleton fx, fun a ha b hb hab =>
      hout g hmem (List.mem_singleton.mp hb ▸ hab ▸ ha)⟩
  · rintro fz hz
    cases hz
    exact ⟨hf, halive⟩

/-- A client is taken out of the vector of its group and is no more. -/
theorem leave (h : Housed s gs fs) (clear : Bool) (hg : s.groups g = some gx) {i : Nat} (hi : (fs g)[i]? = some fx) :
    Housed ((s.setGroup g (some { gx with gFlats := gx.gFlats.takeOut clear i })).setFlat fx none) gs
      (update fs g (SwapVector.removeAt (fs g) i)) := by
  have hmem := h.mem hg
  have hlt : i < (fs g).length := (List.getElem?_eq_some_iff.mp hi).1
  have hin := SwapVector.mem_removeAt_iff (h.once g hmem) hi
  refine h.relist hg ((h.holds g gx hg).takeOut clear hlt) (SwapVector.removeAt_nodup (h.once g hmem) hi)
    (by simp [hin]) (fun fy hfy => by simp [hin, hfy]) (fun g' hg' he hother => ?_) (fun f hf => nomatch hf)
  obtain ⟨fo, ho, hgo⟩ := (h.member g hmem fx).mp (List.mem_of_getElem? hi)
  obtain ⟨fz, hz, hgz⟩ := (h.member g' hg' fx).mp hother
  obtain rfl := Option.some.inj (ho.symm.trans hz)
  exact he (Option.some.inj (hgz.symm.trans hgo))

/-- A new group comes in without clients. -/
theorem found (h : Housed s gs fs) (hfree : s.groups g = none) (hnone : gx.gFlats = .empty) :
    Housed { s.setGroup g (some gx) with sGroups := s.sGroups.add g } (gs ++ [g]) (update fs g []) := by
  have hout : g ∉ gs := by
    rw [h.live g, hfree]
    exact Bool.false_ne_true
  have hother : ∀ g' ∈ gs, g' ≠ g := fun g' hg' he => hout (he ▸ hg')
  refine ⟨h.listed.add g, ?_, fun g' => ?_, fun g' gt ht => ?_, fun g' hg' => ?_, fun g' hg' fy => ?_,
    fun fy fz hz => ?_, h.alive⟩
  · exact List.nodup_append.mpr ⟨h.nodup, List.nodup_singleton g, fun a ha b hb hab =>
      hother a ha (hab.trans (List.mem_singleton.mp hb))⟩
  · rw [List.mem_append, h.live g', List.mem_singleton]
    by_cases he : g' = g
    · subst he
      simp
    · simp [he]
  · by_cases he : g' = g
    · subst he
      simp only [Groups.setGroup_groups, update_self, Option.some.injEq] at ht
      rw [← ht, update_self, hnone]
      exact CountedVector.empty_lists
    · simp only [Groups.setGroup_groups, update_of_ne he] at ht ⊢
      exact h.holds g' gt ht
  · by_cases he : g' = g
    · subst he
      rw [update_self]
      exact List.nodup_nil
    · rw [update_of_ne he]
      exact h.once g' ((List.mem_append.mp hg').resolve_right fun hin => he (List.mem_singleton.mp hin))
  · by_cases he : g' = g
    · subst he
      rw [update_self]
      refine ⟨(nomatch ·), fun ⟨fz, hz, hgz⟩ => ?_⟩
      obtain ⟨go, hgo, hfo⟩ := h.placed fy fz hz
      rw [hgz] at hfo
      cases hfo
      exact absurd hgo hout
    · rw [update_of_ne he]
      exact h.member g' ((List.mem_append.mp hg').resolve_right fun hin => he (List.mem_singleton.mp hin)) fy
  · obtain ⟨go, hgo, hfo⟩ := h.placed fy fz hz
    exact ⟨go, List.mem_append_left _ hgo, hfo⟩

/-- A group without clients is taken out of the vector of the groups and is no more. -/
theorem close (h : Housed s gs fs) (hg : s.groups g = some gx) (hnone : gx.gFlats.count = 0) {j : Nat}
    (hj : gs[j]? = some g) :
    Housed { s.setGroup g none with sGroups := s.sGroups.takeOut true j } (SwapVector.removeAt gs j) fs := by
  have hlt : j < gs.length := (List.getElem?_eq_some_iff.mp hj).1
  have hempty : fs g = [] := List.length_eq_zero_iff.mp ((h.holds g gx hg).count.symm.trans hnone)
  have hin := SwapVector.mem_removeAt_iff h.nodup hj
  refine ⟨h.listed.takeOut true hlt, SwapVector.removeAt_nodup h.nodup hj, fun g' => ?_, fun g' gt ht => ?_,
    fun g' hg' => h.once g' ((hin g').mp hg').1, fun g' hg' => h.member g' ((hin g').mp hg').1,
    fun fy fz hz => ?_, h.alive⟩
  · rw [hin, h.live g']
    by_cases he : g' = g
    · subst he
      simp
    · simp [he]
  · by_cases he : g' = g
    · subst he
      simp at ht
    · simp only [Groups.setGroup_groups, update_of_ne he] at ht
      exact h.holds g' gt ht
  · obtain ⟨go, hgo, hfo⟩ := h.placed fy fz hz
    refine ⟨go, (hin go).mpr ⟨hgo, ?_⟩, hfo⟩
    rintro rfl
    have hmem := (h.member go hgo fy).mpr ⟨fz, hz, hfo⟩
    rw [hempty] at hmem
    cases hmem

end Housed

end

end Katcp
