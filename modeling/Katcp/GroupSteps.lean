import Katcp.GroupData
import Mathlib.Data.List.Perm.Basic

namespace Katcp

open Function

variable {s s' : Groups} {gs : List GroupId} {fs : GroupId → List FlatId} {g : GroupId} {gx gx' : KatcpGroup}
  {fx : FlatId} {f f' : GroupFlat} {settled : FlatId → Bool}

namespace Used

theorem setFlat (h : Used s gs) (fx : FlatId) (f : Option GroupFlat) : Used (s.setFlat fx f) gs :=
  ⟨h.uses, h.fallback, h.listeners⟩

theorem setGroup (h : Used s gs) (hg : s.groups g = some gx) (hsame : gx'.gUse = gx.gUse) :
    Used (s.setGroup g (some gx')) gs := by
  refine ⟨fun g' gt ht => ?_, h.fallback, h.listeners⟩
  rw [Groups.setGroup_groups] at ht
  by_cases he : g' = g
  · subst he
    rw [update_self] at ht
    cases ht
    rw [hsame]
    exact h.uses g' gx hg
  · rw [update_of_ne he] at ht
    exact h.uses g' gt ht

theorem leave (h : Used s gs) (clear : Bool) (hg : s.groups g = some gx) (i : Nat) (fx : FlatId) :
    Used ((s.setGroup g (some { gx with gFlats := gx.gFlats.takeOut clear i })).setFlat fx none) gs :=
  (@setGroup _ _ _ _ { gx with gFlats := gx.gFlats.takeOut clear i } h hg rfl).setFlat fx none

/-- Nobody holds a group that is not used. -/
theorem unused (h : Used s gs) (hg : s.groups g = some gx) (hz : gx.gUse = 0) :
    s.sFallback ≠ some g ∧ g ∉ s.listeners := by
  have huse := h.uses g gx hg
  rw [hz] at huse
  constructor
  · intro hf
    rw [if_pos hf] at huse
    omega
  · intro hin
    have := List.count_pos_iff.mpr hin
    omega

theorem found (h : Used s gs) (hout : g ∉ gs) (hz : gx.gUse = 0) (v : CountedVector GroupId) :
    Used { s.setGroup g (some gx) with sGroups := v } (gs ++ [g]) := by
  obtain ⟨go, hgo, hf⟩ := h.fallback
  refine ⟨fun g' gt ht => ?_, ⟨go, List.mem_append_left _ hgo, hf⟩, fun g' hg' =>
    List.mem_append_left _ (h.listeners g' hg')⟩
  rw [Groups.setGroup_groups] at ht
  by_cases he : g' = g
  · subst he
    rw [update_self] at ht
    cases ht
    have hne : s.sFallback ≠ some g' := by
      rw [hf]
      rintro he
      exact hout (Option.some.inj he ▸ hgo)
    have hcount : s.listeners.count g' = 0 := List.count_eq_zero.mpr fun hin => hout (h.listeners g' hin)
    show _ = (if s.sFallback = some g' then 1 else 0) + s.listeners.count g'
    rw [hz, if_neg hne, hcount]
  · rw [update_of_ne he] at ht
    exact h.uses g' gt ht

theorem close (h : Used s gs) (hg : s.groups g = some gx) (hz : gx.gUse = 0) (hn : gs.Nodup) {j : Nat}
    (hj : gs[j]? = some g) (v : CountedVector GroupId) :
    Used { s.setGroup g none with sGroups := v } (SwapVector.removeAt gs j) := by
  obtain ⟨hfall, hlist⟩ := h.unused hg hz
  have hin := SwapVector.mem_removeAt_iff hn hj
  obtain ⟨go, hgo, hf⟩ := h.fallback
  refine ⟨fun g' gt ht => ?_, ⟨go, (hin go).mpr ⟨hgo, ?_⟩, hf⟩, fun g' hg' => (hin g').mpr ⟨h.listeners g' hg', ?_⟩⟩
  · rw [Groups.setGroup_groups] at ht
    by_cases he : g' = g
    · subst he
      rw [update_self] at ht
      cases ht
    · rw [update_of_ne he] at ht
      exact h.uses g' gt ht
  · rintro rfl
    exact hfall hf
  · rintro rfl
    exact hlist hg'

end Used

/-- Every client is in the vector of its group, and what is still to be used is there. -/
def GroupInv (s : Groups) : Prop := ∃ gs fs, Housed s gs fs ∧ Used s gs

theorem GroupInv.setFlat (h : GroupInv s) (hf : s.flats fx = some f) (hsame : f'.fGroup = f.fGroup)
    (halive : f'.fState ≠ .gone) : GroupInv (s.setFlat fx (some f')) := by
  obtain ⟨gs, fs, hh, hu⟩ := h
  exact ⟨gs, fs, hh.setFlat hf hsame halive, hu.setFlat fx _⟩

theorem GroupInv.setGroup (h : GroupInv s) (hg : s.groups g = some gx) (hflats : gx'.gFlats = gx.gFlats)
    (huse : gx'.gUse = gx.gUse) : GroupInv (s.setGroup g (some gx')) := by
  obtain ⟨gs, fs, hh, hu⟩ := h
  exact ⟨gs, fs, hh.setGroup hg hflats, hu.setGroup hg huse⟩

theorem createGroup_inv {name : Option Text} {fresh : GroupId} (h : GroupInv s)
    (hs : s.createGroup name fresh = some s') :
    GroupInv s' ∧ s'.groups fresh = some ⟨name, .empty, .group, 0, false⟩ := by
  obtain ⟨gs, fs, hh, hu⟩ := h
  unfold Groups.createGroup at hs
  split at hs
  next => cases hs
  next hfree =>
    have hfree := Option.not_isSome_iff_eq_none.mp hfree
    cases Option.some.inj hs
    have hout : fresh ∉ gs := by
      rw [hh.live, hfree]
      exact Bool.false_ne_true
    exact ⟨⟨gs ++ [fresh], _, hh.found hfree rfl, hu.found hout rfl _⟩, update_self ..⟩

theorem duplicateGroup_inv {name : Option Text} {go fresh : GroupId} (h : GroupInv s)
    (hs : s.duplicateGroup go name fresh = some s') : GroupInv s' := by
  obtain ⟨gt, _, hs⟩ := Option.bind_eq_some_iff.mp hs
  obtain ⟨s1, hc, he⟩ := Option.map_eq_some_iff.mp hs
  obtain ⟨h1, hg⟩ := createGroup_inv h hc
  rw [← he]
  exact h1.setGroup hg rfl rfl

/-- A group that nobody holds is destroyed where it has no clients. -/
theorem destroyGroup_inv (h : GroupInv s) (hg : s.groups g = some gx) (hz : gx.gUse = 0)
    (hs : s.destroyGroup g = some s') : GroupInv s' := by
  obtain ⟨gs, fs, hh, hu⟩ := h
  unfold Groups.destroyGroup Groups.deallocateGroup at hs
  rw [hg, Option.bind_some, if_neg (by omega)] at hs
  split at hs
  next => cases hs
  next hnone =>
    rw [Option.bind_some] at hs
    dsimp only at hs
    rw [if_neg (by simp)] at hs
    have hj := hh.listed.getElem?_indexOf (hh.mem hg)
    split at hs
    next =>
      cases Option.some.inj hs
      exact ⟨_, fs, hh.close hg (by omega) hj, hu.close hg hz hh.nodup hj _⟩
    next => cases hs

theorem createListener_inv {og : Option GroupId} (h : GroupInv s) (hs : s.createListener og = some s') :
    GroupInv s' := by
  obtain ⟨gs, fs, hh, hu⟩ := h
  unfold Groups.createListener at hs
  split at hs
  next => exact Option.some.inj hs ▸ ⟨gs, fs, hh, hu⟩
  next g _ =>
    obtain ⟨s1, hhold, he⟩ := Option.map_eq_some_iff.mp hs
    obtain ⟨gx, hg, hs1⟩ := Option.map_eq_some_iff.mp hhold
    subst hs1
    have h1 := @Housed.setGroup _ _ _ _ _ { gx with gUse := gx.gUse + 1 } hh hg rfl
    rw [← he]
    refine ⟨gs, fs, ⟨h1.listed, h1.nodup, h1.live, h1.holds, h1.once, h1.member, h1.placed, h1.alive⟩,
      fun g' gt ht => ?_, hu.fallback, fun g' hg' => ?_⟩
    · show gt.gUse = (if s.sFallback = some g' then 1 else 0) + (s.listeners ++ [g]).count g'
      rw [List.count_append, List.count_singleton]
      by_cases hgg : g' = g
      · subst hgg
        simp only [Groups.setGroup_groups, update_self, Option.some.injEq] at ht
        subst ht
        rw [beq_self_eq_true, if_pos rfl, ← Nat.add_assoc, ← hu.uses g' gx hg]
      · simp only [Groups.setGroup_groups, update_of_ne hgg] at ht
        rw [hu.uses g' gt ht, show (g == g') = false from beq_false_of_ne (Ne.symm hgg), if_neg Bool.false_ne_true,
          Nat.add_zero]
    · rcases List.mem_append.mp hg' with hin | hin
      · exact hu.listeners g' hin
      · rw [List.mem_singleton.mp hin]
        exact hh.mem hg

theorem releaseListener_inv {i : Nat} (h : GroupInv s) (hs : s.releaseListener i = some s') : GroupInv s' := by
  obtain ⟨gs, fs, hh, hu⟩ := h
  obtain ⟨g, hi, hs⟩ := Option.bind_eq_some_iff.mp hs
  obtain ⟨s1, hd, he⟩ := Option.map_eq_some_iff.mp hs
  have hin := List.mem_of_getElem? hi
  have hpos := List.count_pos_iff.mpr hin
  obtain ⟨gx, hg⟩ := hh.group (hu.listeners g hin)
  have huse := hu.uses g gx hg
  unfold Groups.destroyGroup Groups.deallocateGroup at hd
  rw [hg, Option.bind_some, if_pos (by omega), Option.bind_some] at hd
  cases Option.some.inj hd
  have h1 := @Housed.setGroup _ _ _ _ _ { gx with gUse := gx.gUse - 1 } hh hg rfl
  rw [← he]
  refine ⟨gs, fs, ⟨h1.listed, h1.nodup, h1.live, h1.holds, h1.once, h1.member, h1.placed, h1.alive⟩,
    fun g' gt ht => ?_, hu.fallback, fun g' hg' => hu.listeners g' (List.mem_of_mem_eraseIdx hg')⟩
  have hperm := (List.getElem_cons_eraseIdx_perm (List.getElem?_eq_some_iff.mp hi).1).count_eq g'
  rw [(List.getElem?_eq_some_iff.mp hi).2, List.count_cons] at hperm
  by_cases hgg : g' = g
  · subst hgg
    simp only [Groups.setGroup_groups, update_self, Option.some.injEq] at ht
    subst ht
    rw [beq_self_eq_true, if_pos rfl] at hperm
    show gx.gUse - 1 = (if s.sFallback = some g' then 1 else 0) + (s.listeners.eraseIdx i).count g'
    omega
  · simp only [Groups.setGroup_groups, update_of_ne hgg] at ht
    rw [show (g == g') = false from beq_false_of_ne (Ne.symm hgg), if_neg Bool.false_ne_true, Nat.add_zero] at hperm
    rw [hu.uses g' gt ht, ← hperm]
    rfl

theorem createFlat_inv {connecting : Bool} {name : Option Text} {og : Option GroupId} {fresh : FlatId}
    (h : GroupInv s) (hs : s.createFlat connecting name og fresh = some s') : GroupInv s' := by
  obtain ⟨gs, fs, hh, hu⟩ := h
  unfold Groups.createFlat at hs
  split at hs
  next => exact Option.some.inj hs ▸ ⟨gs, fs, hh, hu⟩
  next =>
    split at hs
    next => cases hs
    next hfree =>
      obtain ⟨g, _, hs⟩ := Option.bind_eq_some_iff.mp hs
      obtain ⟨gx, hg, he⟩ := Option.map_eq_some_iff.mp hs
      rw [← he]
      refine ⟨gs, _, hh.enter hg (Option.not_isSome_iff_eq_none.mp hfree) rfl ?_, (hu.setFlat fresh _).setGroup hg rfl⟩
      dsimp only
      split <;> nofun

theorem switchGroup_inv {r : Int} (h : GroupInv s) (hs : s.switchGroup fx g = some (r, s')) : GroupInv s' := by
  obtain ⟨gs, fs, hh, hu⟩ := h
  obtain ⟨f, hf, hs⟩ := Option.bind_eq_some_iff.mp hs
  split at hs
  next =>
    cases hs
    exact ⟨gs, fs, hh, hu⟩
  next hne =>
    obtain ⟨old, hold, hs⟩ := Option.bind_eq_some_iff.mp hs
    obtain ⟨gt, ht, hs⟩ := Option.bind_eq_some_iff.mp hs
    obtain ⟨gx, hg, hs⟩ := Option.bind_eq_some_iff.mp hs
    have hog : old ≠ g := by
      rintro rfl
      exact hne hold
    dsimp only at hs
    split at hs
    next => cases hs
    next hi =>
      cases hs
      have hin := (hh.member old (hh.mem ht) fx).mpr ⟨f, hf, hold⟩
      have hleft := hh.leave false ht ((hh.holds old gt ht).getElem?_indexOf hin)
      have hused := hu.leave false ht (gt.gFlats.indexOf fx) fx
      have hg1 := update_of_ne (Ne.symm hog) (some { gt with gFlats := gt.gFlats.takeOut false (gt.gFlats.indexOf fx) })
        s.groups
      have hentered := hleft.enter (f := { f with fGroup := some g }) (hg1.trans hg) (update_self ..) rfl
        (hh.alive fx f hf)
      have hsame : (((s.setGroup g (some { gx with gFlats := gx.gFlats.add fx })).setGroup old
          (some { gt with gFlats := gt.gFlats.takeOut false (gt.gFlats.indexOf fx) })).setFlat fx
          (some { f with fGroup := some g })) =
          (((s.setGroup old (some { gt with gFlats := gt.gFlats.takeOut false (gt.gFlats.indexOf fx) })).setFlat
            fx none).setFlat fx (some { f with fGroup := some g })).setGroup g
            (some { gx with gFlats := gx.gFlats.add fx }) := by
        simp only [Groups.setGroup, Groups.setFlat, update_idem, update_comm hog]
      rw [hsame]
      exact ⟨gs, _, hentered, (hused.setFlat fx _).setGroup (hg1.trans hg) rfl⟩

theorem terminateFlat_inv {r : Int} (h : GroupInv s) (hs : s.terminateFlat fx = some (r, s')) :
    GroupInv s' ∧ ∀ g, s'.groups g = s.groups g := by
  obtain ⟨f, hf, he⟩ := Option.map_eq_some_iff.mp hs
  split at he
  next =>
    cases he
    exact ⟨h.setFlat hf rfl nofun, fun _ => rfl⟩
  next =>
    cases he
    exact ⟨h.setFlat hf rfl nofun, fun _ => rfl⟩
  next =>
    cases he
    exact ⟨h, fun _ => rfl⟩

theorem terminateFlats_inv {n i : Nat} (h : GroupInv s) (hs : Groups.terminateFlats g n i s = some s') :
    GroupInv s' := by
  induction n generalizing s i with
  | zero => exact Option.some.inj hs ▸ h
  | succ n ih =>
    obtain ⟨gx, _, hs⟩ := Option.bind_eq_some_iff.mp hs
    obtain ⟨fx, _, hs⟩ := Option.bind_eq_some_iff.mp hs
    obtain ⟨⟨r, s1⟩, ht, hs⟩ := Option.bind_eq_some_iff.mp hs
    exact ih (terminateFlat_inv h ht).1 hs

theorem terminateGroup_inv {hard : Bool} (h : GroupInv s) (hs : s.terminateGroup g hard = some s') : GroupInv s' := by
  obtain ⟨gx, _, hs⟩ := Option.bind_eq_some_iff.mp hs
  obtain ⟨s1, ht, hs⟩ := Option.bind_eq_some_iff.mp hs
  have h1 := terminateFlats_inv h ht
  split at hs
  next =>
    obtain ⟨gy, hy, he⟩ := Option.map_eq_some_iff.mp hs
    rw [← he]
    exact h1.setGroup hy rfl rfl
  next => exact Option.some.inj hs ▸ h1

theorem destroyFlat_inv (h : GroupInv s) (hs : s.destroyFlat fx = some s') : GroupInv s' := by
  obtain ⟨gs, fs, hh, hu⟩ := h
  obtain ⟨f, hf, hs⟩ := Option.bind_eq_some_iff.mp hs
  obtain ⟨g, hfg, hs⟩ := Option.bind_eq_some_iff.mp hs
  obtain ⟨gx, hg, hs⟩ := Option.bind_eq_some_iff.mp hs
  split at hs
  next => cases hs
  next =>
    dsimp only at hs
    split at hs
    next =>
      have hin := (hh.member g (hh.mem hg) fx).mpr ⟨f, hf, hfg⟩
      rw [← Option.some.inj hs]
      exact ⟨gs, _, hh.leave true hg ((hh.holds g gx hg).getElem?_indexOf hin), hu.leave true hg _ fx⟩
    next => cases hs

theorem loadState_cases {st : FlatState} (h : st ≠ .gone) (b : Bool) :
    Groups.loadState b st = some none ∨ ∃ st', Groups.loadState b st = some (some st') ∧ st' ≠ .gone := by
  cases st with
  | gone => exact absurd rfl h
  | connecting => exact Or.inr ⟨_, rfl, nofun⟩
  | up => exact Or.inr ⟨_, rfl, nofun⟩
  | crashing => exact Or.inl rfl
  | dead => exact Or.inl rfl
  | finishing =>
    cases b with
    | true => exact Or.inl rfl
    | false => exact Or.inr ⟨_, rfl, nofun⟩
  | ending =>
    cases b with
    | true => exact Or.inl rfl
    | false => exact Or.inr ⟨_, rfl, nofun⟩

/-- A pass over the clients of a group finds every one of them and keeps them in their places. -/
theorem loadFlats_spec (settled : FlatId → Bool) {n i : Nat} (hh : Housed s gs fs) (hu : Used s gs)
    (hg : s.groups g = some gx) (hn : n + i = (fs g).length) :
    ∃ s' fs', Groups.loadFlats settled g n i s = some s' ∧ Housed s' gs fs' ∧ Used s' gs := by
  induction n generalizing s fs gx i with
  | zero => exact ⟨s, fs, rfl, hh, hu⟩
  | succ n ih =>
    have hlt : i < (fs g).length := by omega
    have hentry := (hh.holds g gx hg).get (show i < gx.gFlats.count by rw [(hh.holds g gx hg).count]; exact hlt)
    rw [List.getElem?_eq_getElem hlt] at hentry
    obtain ⟨f, hf, hfg⟩ := (hh.member g (hh.mem hg) (fs g)[i]).mp (List.getElem_mem hlt)
    rw [Groups.loadFlats, hg, Option.bind_some, hentry]
    dsimp only [Option.join_some, Option.bind_some]
    rw [hf, Option.bind_some]
    rcases loadState_cases (hh.alive _ f hf) (settled (fs g)[i]) with hst | ⟨st, hst, hgone⟩
    · rw [hst]
      have hleft := hh.leave true hg (List.getElem?_eq_getElem hlt)
      refine ih hleft (hu.leave true hg i _) (update_self ..) ?_
      rw [update_self, SwapVector.removeAt_length]
      omega
    · rw [hst]
      exact ih (hh.setFlat hf rfl hgone) (hu.setFlat _ _) hg (by omega)

theorem loadGroups_spec (settled : FlatId → Bool) {n j : Nat} (hh : Housed s gs fs) (hu : Used s gs)
    (hn : n + j = gs.length) : ∃ s', Groups.loadGroups settled n j s = some s' ∧ GroupInv s' := by
  induction n generalizing s gs fs j with
  | zero => exact ⟨s, rfl, gs, fs, hh, hu⟩
  | succ n ih =>
    have hlt : j < gs.length := by omega
    have hentry := hh.listed.get (show j < s.sGroups.count by rw [hh.listed.count]; exact hlt)
    rw [List.getElem?_eq_getElem hlt] at hentry
    obtain ⟨gx, hg⟩ := hh.group (List.getElem_mem hlt)
    obtain ⟨s1, fs1, hload, hh1, hu1⟩ := loadFlats_spec settled (n := gx.gFlats.count) (i := 0) hh hu hg
      (by rw [Nat.add_zero, (hh.holds _ gx hg).count])
    obtain ⟨gy, hy⟩ := hh1.group (List.getElem_mem hlt)
    rw [Groups.loadGroups, hentry, Option.join_some, Option.bind_some, hg, Option.bind_some, hload, Option.bind_some,
      hy, Option.bind_some]
    by_cases hremove : gy.gAutoremove = true ∧ gy.gFlats.count = 0 ∧ gy.gUse = 0
    · have hnone := hremove.2.1
      have hz := hremove.2.2
      have hj : gs[j]? = some gs[j] := List.getElem?_eq_getElem hlt
      rw [if_pos hremove, Groups.deallocateGroup, hy, Option.bind_some, if_neg (by omega), if_neg (by omega),
        Option.bind_some]
      refine ih (hh1.close hy hnone hj) (hu1.close hy hz hh1.nodup hj _) ?_
      rw [SwapVector.removeAt_length]
      omega
    · rw [if_neg hremove]
      exact ih hh1 hu1 (by omega)

theorem loadFlat_spec (h : GroupInv s) (settled : FlatId → Bool) :
    ∃ s', s.loadFlat settled = some s' ∧ GroupInv s' := by
  obtain ⟨gs, fs, hh, hu⟩ := h
  exact loadGroups_spec settled hh hu (by rw [Nat.add_zero, hh.listed.count])

/-- A rename is refused, or one client gets the new name. -/
theorem renameFlat_cases (s : Groups) (this : Option FlatId) (group : Option Text) (was should : Text) :
    (s.renameFlat this group was should).2 = s ∨ ∃ fx f, s.findName this group (some should) true = none ∧
      s.findName this group (some was) false = some fx ∧ s.flats fx = some f ∧ f.fRenameLock = false ∧
      (s.renameFlat this group was should).2 = s.setFlat fx (some { f with fName := some should }) := by
  unfold Groups.renameFlat
  split
  next => exact Or.inl rfl
  next hnew =>
    split
    next => exact Or.inl rfl
    next fx hfx =>
      split
      next => exact Or.inl rfl
      next f hf =>
        split
        next => exact Or.inl rfl
        next hlock =>
          exact Or.inr ⟨fx, f, Option.not_isSome_iff_eq_none.mp hnew, hfx, hf, Bool.not_eq_true _ ▸ hlock, rfl⟩

theorem renameFlat_inv {this : Option FlatId} {group : Option Text} {was should : Text} (h : GroupInv s) :
    GroupInv (s.renameFlat this group was should).2 := by
  rcases renameFlat_cases s this group was should with he | ⟨fx, f, -, -, hf, -, he⟩
  · exact he.symm ▸ h
  · have halive : f.fState ≠ .gone := by
      obtain ⟨gs, fs, hh, -⟩ := h
      exact hh.alive fx f hf
    exact he.symm ▸ h.setFlat hf rfl halive

end Katcp
