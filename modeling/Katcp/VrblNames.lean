import Katcp.VrblCommand

namespace Katcp

section

/-- The forms of a name, in the order of the letters that the program gives them. -/
inductive NameForm where
  | search (name : Text)
  | searchGroup (name : Text)
  | root (name : Text)
  | currentGroup (name : Text)
  | ofGroup (gx name : Text)
  | currentFlat (name : Text)
  | ofFlat (gx fx name : Text)

/-- A part of a name: no separator in it. -/
def PlainName (t : Text) : Prop := t ≠ [] ∧ ∀ c ∈ t, c ≠ 0 ∧ c ≠ delimGroup ∧ isDelim c = false

instance (t : Text) : Decidable (PlainName t) :=
  @instDecidableAnd _ _ inferInstance (List.decidableBAll _ t)

/-- What may stand behind a name: nothing or a path. -/
def PathBehind (path : Text) : Prop := path = [] ∨ path.head?.any isDelim

namespace NameForm

def text : NameForm → Text
  | search name => name
  | searchGroup name => delimGroup :: name
  | root name => name ++ [delimGroup]
  | currentGroup name => delimGroup :: (name ++ [delimGroup])
  | ofGroup gx name => gx ++ delimGroup :: (name ++ [delimGroup])
  | currentFlat name => delimGroup :: delimGroup :: (name ++ [delimGroup])
  | ofFlat gx fx name => gx ++ delimGroup :: (fx ++ delimGroup :: (name ++ [delimGroup]))

def var : NameForm → Text
  | search name | searchGroup name | root name | currentGroup name | ofGroup _ name | currentFlat name
  | ofFlat _ _ name => name

def Valid : NameForm → Prop
  | search name | searchGroup name | root name | currentGroup name | currentFlat name => PlainName name
  | ofGroup gx name => PlainName gx ∧ PlainName name
  | ofFlat gx fx name => PlainName gx ∧ PlainName fx ∧ PlainName name

def NamesFlat : NameForm → Prop
  | ofFlat _ _ _ => True
  | _ => False

/-- The regions that the form of a name stands for, the first of which takes a new variable. -/
def regions (s : VrblShared) (fx : FlatAt) : NameForm → Option (List RegionId)
  | search _ => some [.flat fx, .group fx.fGroup, .root]
  | searchGroup _ => some [.flat fx, .group fx.fGroup]
  | root _ => some [.root]
  | currentGroup _ => some [.group fx.fGroup]
  | ofGroup gx _ => (s.findGroup gx).map fun gx => [.group gx]
  | currentFlat _ => some [.flat fx]
  | ofFlat gx fx _ => (s.findNameFlat gx fx).map fun fy => [.flat fy]

end NameForm

section

variable {s : VrblShared} {fx : FlatAt} {count i : Nat} {t rest path pre : Text} {form : NameForm}

/-- The path with its first delimiter cut out. -/
def cutPath (path : Text) : Text :=
  match path with
  | [] => []
  | _ :: rest => 0 :: rest

theorem tokeniseFrom_plain (h : ∀ c ∈ t, c ≠ 0 ∧ c ≠ delimGroup ∧ isDelim c = false) :
    tokeniseFrom count i (t ++ rest) =
      (tokeniseFrom count (i + t.length) rest).map fun (copy, v) => (t ++ copy, v) := by
  induction t generalizing i with
  | nil => simp
  | cons c t ih =>
    obtain ⟨-, hstar, hdelim⟩ := h c (List.mem_cons_self ..)
    rw [List.cons_append, tokeniseFrom, if_neg hstar, hdelim, if_neg Bool.false_ne_true,
      ih fun c hc => h c (List.mem_cons_of_mem _ hc), List.length_cons, Nat.add_right_comm, Option.map_map]
    rfl

theorem tokeniseFrom_star (h : count < maxCountStar) :
    tokeniseFrom count i (delimGroup :: rest) =
      (tokeniseFrom (count + 1) (i + 1) rest).map fun (copy, v) => (0 :: copy, i :: v) := by
  rw [tokeniseFrom, if_pos rfl, if_neg (Nat.not_le.mpr h)]

theorem tokeniseFrom_path (h : PathBehind path) (hi : 0 < i) :
    tokeniseFrom count i path = some (cutPath path, [i]) := by
  cases path with
  | nil => rw [tokeniseFrom, if_neg (Nat.ne_of_gt hi)]; rfl
  | cons c path =>
    have hc : isDelim c = true := h.resolve_left (List.cons_ne_nil _ _)
    have hne : c ≠ delimGroup := by
      rintro rfl
      cases hc
    rw [tokeniseFrom, if_neg hne, if_pos hc]
    rfl

theorem stringAt_behind : stringAt (pre ++ 0 :: rest) (pre.length + 1) = cString rest := by
  rw [stringAt, ← List.drop_drop, List.drop_left, List.drop_one, List.tail_cons]

theorem cString_plain (h : PlainName t) (hrest : rest = [] ∨ rest.head? = some 0) :
    cString (t ++ rest) = t := by
  have ht : ∀ c ∈ t, decide (c ≠ 0) = true := fun c hc => decide_eq_true (h.2 c hc).1
  rw [cString, List.takeWhile_append_of_pos ht]
  cases rest with
  | nil => simp
  | cons c rest =>
    have hc : c = 0 := by simpa using hrest
    rw [hc]
    simp

theorem cutPath_stops : cutPath path = [] ∨ (cutPath path).head? = some 0 := by
  cases path
  · exact .inl rfl
  · exact .inr rfl

theorem tokeniseFrom_part (ht : PlainName t) (hcount : count < maxCountStar) :
    tokeniseFrom count i (t ++ delimGroup :: rest) =
      (tokeniseFrom (count + 1) (i + t.length + 1) rest).map fun (copy, v) =>
        (t ++ 0 :: copy, (i + t.length) :: v) := by
  rw [tokeniseFrom_plain ht.2, tokeniseFrom_star hcount, Option.map_map]
  rfl

theorem tokeniseFrom_last (ht : PlainName t) (h : PathBehind path) :
    tokeniseFrom count i (t ++ path) = some (t ++ cutPath path, [i + t.length]) := by
  have hlen := List.length_pos_iff.mpr ht.1
  rw [tokeniseFrom_plain ht.2, tokeniseFrom_path h (by omega)]
  rfl

theorem tokeniseVrbl_search (h : PlainName t) (hpath : PathBehind path) :
    tokeniseVrbl ((NameForm.search t).text ++ path) = some (t ++ cutPath path, [t.length]) := by
  have hlen := List.length_pos_iff.mpr h.1
  rw [tokeniseVrbl, NameForm.text, tokeniseFrom_last h hpath]
  simp [Nat.ne_of_gt hlen]

theorem tokeniseVrbl_searchGroup (h : PlainName t) (hpath : PathBehind path) :
    tokeniseVrbl ((NameForm.searchGroup t).text ++ path) =
      some (0 :: (t ++ cutPath path), [0, t.length + 1]) := by
  rw [tokeniseVrbl, NameForm.text, List.cons_append, tokeniseFrom_star (by decide),
    tokeniseFrom_last h hpath]
  simp [Nat.add_comm]

theorem tokeniseVrbl_root (h : PlainName t) (hpath : PathBehind path) :
    tokeniseVrbl ((NameForm.root t).text ++ path) =
      some (t ++ 0 :: cutPath path, [t.length, t.length + 1]) := by
  rw [tokeniseVrbl, NameForm.text, List.append_assoc, List.singleton_append,
    tokeniseFrom_part h (by decide), tokeniseFrom_path hpath (by omega)]
  simp

theorem tokeniseVrbl_currentGroup (h : PlainName t) (hpath : PathBehind path) :
    tokeniseVrbl ((NameForm.currentGroup t).text ++ path) =
      some (0 :: (t ++ 0 :: cutPath path), [0, t.length + 1, t.length + 2]) := by
  rw [tokeniseVrbl, NameForm.text, List.cons_append, List.append_assoc, List.singleton_append,
    tokeniseFrom_star (by decide), tokeniseFrom_part h (by decide), tokeniseFrom_path hpath (by omega)]
  simp [Nat.add_comm, Nat.add_left_comm]

theorem tokeniseVrbl_ofGroup (hg : PlainName pre) (h : PlainName t) (hpath : PathBehind path) :
    tokeniseVrbl ((NameForm.ofGroup pre t).text ++ path) =
      some (pre ++ 0 :: (t ++ 0 :: cutPath path),
        [pre.length, pre.length + 1 + t.length, pre.length + 1 + t.length + 1]) := by
  rw [tokeniseVrbl, NameForm.text, List.append_assoc, List.cons_append, List.append_assoc,
    List.singleton_append, tokeniseFrom_part hg (by decide), tokeniseFrom_part h (by decide),
    tokeniseFrom_path hpath (by omega)]
  simp

theorem tokeniseVrbl_currentFlat (h : PlainName t) (hpath : PathBehind path) :
    tokeniseVrbl ((NameForm.currentFlat t).text ++ path) =
      some (0 :: 0 :: (t ++ 0 :: cutPath path), [0, 1, 2 + t.length, 2 + t.length + 1]) := by
  rw [tokeniseVrbl, NameForm.text, List.cons_append, List.cons_append, List.append_assoc,
    List.singleton_append, tokeniseFrom_star (by decide), tokeniseFrom_star (by decide),
    tokeniseFrom_part h (by decide), tokeniseFrom_path hpath (by omega)]
  simp

theorem tokeniseVrbl_ofFlat {f : Text} (hg : PlainName pre) (hf : PlainName f) (h : PlainName t)
    (hpath : PathBehind path) : tokeniseVrbl ((NameForm.ofFlat pre f t).text ++ path) =
      some (pre ++ 0 :: (f ++ 0 :: (t ++ 0 :: cutPath path)),
        [pre.length, pre.length + 1 + f.length, pre.length + 1 + f.length + 1 + t.length,
          pre.length + 1 + f.length + 1 + t.length + 1]) := by
  rw [tokeniseVrbl, NameForm.text, List.append_assoc, List.cons_append, List.append_assoc,
    List.cons_append, List.append_assoc, List.singleton_append, tokeniseFrom_part hg (by decide),
    tokeniseFrom_part hf (by decide), tokeniseFrom_part h (by decide), tokeniseFrom_path hpath (by omega)]
  simp

theorem decodeName_of {copy : Text} {v : List Nat} (hname : PlainName t)
    (htokens : tokeniseVrbl rest = some (copy, v)) {vra : List RegionId}
    (hsearch : searchPath s fx copy v = some (vra, i)) (hvar : stringAt copy i = t) :
    decodeName s fx rest = some (vra, t) := by
  rw [decodeName, htokens, Option.bind_some]
  dsimp only
  rw [hsearch, Option.bind_some]
  dsimp only
  rw [hvar, if_neg hname.1]

/-- A name in one of the forms but the last means the regions of the form. -/
theorem decodeName_text (h : form.Valid) (hflat : ¬ form.NamesFlat) (hpath : PathBehind path) :
    decodeName s fx (form.text ++ path) = (form.regions s fx).map fun vra => (vra, form.var) := by
  cases form with
  | search t => exact decodeName_of h (tokeniseVrbl_search h hpath) rfl (cString_plain h cutPath_stops)
  | searchGroup t =>
    exact decodeName_of h (tokeniseVrbl_searchGroup h hpath) rfl (cString_plain h cutPath_stops)
  | root t =>
    have hlen := List.length_pos_iff.mpr h.1
    refine decodeName_of (i := 0) h (tokeniseVrbl_root h hpath) ?_ (cString_plain h (.inr rfl))
    simp [searchPath, Nat.ne_of_gt hlen]
  | currentGroup t =>
    refine decodeName_of (i := 1) h (tokeniseVrbl_currentGroup h hpath) ?_ (cString_plain h (.inr rfl))
    simp [searchPath]
  | ofGroup g t =>
    obtain ⟨hg, ht⟩ := h
    have hlen := List.length_pos_iff.mpr hg.1
    have hgroup : stringAt (g ++ 0 :: (t ++ 0 :: cutPath path)) 0 = g := cString_plain hg (.inr rfl)
    cases hfind : s.findGroup g with
    | none =>
      rw [decodeName, tokeniseVrbl_ofGroup hg ht hpath]
      simp [searchPath, Nat.ne_of_gt hlen, hgroup, NameForm.regions, hfind]
    | some gx =>
      simp only [NameForm.regions, hfind, Option.map_some]
      refine decodeName_of ht (tokeniseVrbl_ofGroup hg ht hpath) ?_
        (stringAt_behind.trans (cString_plain ht (.inr rfl)))
      simp [searchPath, Nat.ne_of_gt hlen, hgroup, hfind]
  | currentFlat t => exact decodeName_of h (tokeniseVrbl_currentFlat h hpath) rfl (cString_plain h (.inr rfl))
  | ofFlat g f t => exact absurd trivial hflat

/-- The last form looks its group up without the first character of the name. -/
theorem decodeName_ofFlat {g f : Text} (hg : PlainName g) (hf : PlainName f) (ht : PlainName t)
    (hpath : PathBehind path) : decodeName s fx ((NameForm.ofFlat g f t).text ++ path) =
      (s.findNameFlat g.tail f).map fun fy => ([.flat fy], t) := by
  have hlen := List.length_pos_iff.mpr hg.1
  have hflat : stringAt (g ++ 0 :: (f ++ 0 :: (t ++ 0 :: cutPath path))) (g.length + 1) = f :=
    stringAt_behind.trans (cString_plain hf (.inr rfl))
  have hgroup : stringAt (g ++ 0 :: (f ++ 0 :: (t ++ 0 :: cutPath path))) 1 = g.tail := by
    cases g with
    | nil => exact absurd rfl hg.1
    | cons c g =>
      have hzero : ∀ c ∈ g, decide (c ≠ 0) = true :=
        fun c hc => decide_eq_true (hg.2 c (List.mem_cons_of_mem _ hc)).1
      rw [List.cons_append, stringAt, List.drop_one, List.tail_cons, cString,
        List.takeWhile_append_of_pos hzero]
      simp
  have hvar : stringAt (g ++ 0 :: (f ++ 0 :: (t ++ 0 :: cutPath path))) (g.length + 1 + f.length + 1) = t := by
    have hpre : g ++ 0 :: (f ++ 0 :: (t ++ 0 :: cutPath path)) =
        (g ++ 0 :: f) ++ 0 :: (t ++ 0 :: cutPath path) := by simp
    have hat : g.length + 1 + f.length + 1 = (g ++ 0 :: f).length + 1 := by
      simp only [List.length_append, List.length_cons]
      omega
    rw [hpre, hat]
    exact stringAt_behind.trans (cString_plain ht (.inr rfl))
  cases hfind : s.findNameFlat g.tail f with
  | none =>
    rw [decodeName, tokeniseVrbl_ofFlat hg hf ht hpath]
    simp [searchPath, Nat.ne_of_gt hlen, hgroup, hflat, hfind]
  | some fy =>
    refine decodeName_of ht (tokeniseVrbl_ofFlat hg hf ht hpath) ?_ hvar
    simp [searchPath, Nat.ne_of_gt hlen, hgroup, hflat, hfind]

end

end

section

variable {s s' : VrblShared} {fx fy : FlatAt} {name : Text} {vo : Vrbl} {clobber : Bool}
  {rx rx' : RegionId} {vra : List RegionId} {key key' : Text} {ref : VrblRef} {form : NameForm}
  {path : Text}

namespace VrblShared

def Has (s : VrblShared) (fx : FlatAt) : Prop :=
  ∃ gx, s.sGroups[fx.fGroup]? = some gx ∧ fx.place < gx.gFlats.length

theorem mem_groupFlats {gx : Nat} : fy ∈ s.groupFlats gx ↔ s.Has fy ∧ fy.fGroup = gx := by
  obtain ⟨g, i⟩ := fy
  simp only [groupFlats, List.mem_map, List.mem_range, FlatAt.mk.injEq]
  constructor
  · rintro ⟨j, hj, rfl, rfl⟩
    cases hg : s.sGroups[gx]? with
    | none => simp [hg] at hj
    | some group => exact ⟨⟨group, hg, by simpa [hg] using hj⟩, rfl⟩
  · rintro ⟨⟨group, hg, hi⟩, rfl⟩
    exact ⟨i, by simpa [hg] using hi, rfl, rfl⟩

theorem mem_allFlats : fy ∈ s.allFlats ↔ s.Has fy := by
  simp only [allFlats, List.mem_flatMap, List.mem_range, mem_groupFlats]
  constructor
  · rintro ⟨_, _, h, _⟩
    exact h
  · intro h
    have hg := h
    obtain ⟨gx, hgx, _⟩ := hg
    exact ⟨fy.fGroup, (List.getElem?_eq_some_iff.mp hgx).1, h, rfl⟩

theorem findRegion_insert_self : (s.insertRegion rx vo key).findRegion rx key = some vo := by
  simp only [findRegion, insertRegion, Function.update_self]
  exact KeyedList.find_put_self

theorem findRegion_insert_of_ne (hne : (rx', key') ≠ (rx, key)) :
    (s.insertRegion rx vo key).findRegion rx' key' = s.findRegion rx' key' := by
  simp only [findRegion, insertRegion]
  by_cases hrx : rx' = rx
  · subst hrx
    rw [Function.update_self]
    exact KeyedList.find_put_of_ne fun hk => hne (by rw [hk])
  · rw [Function.update_of_ne hrx]

theorem insertRegion_sGroups : (s.insertRegion rx vo key).sGroups = s.sGroups := rfl

end VrblShared

/-- The regions that a client sees as its own. -/
def FlatAt.regions (fx : FlatAt) : List RegionId := [.flat fx, .group fx.fGroup, .root]

/-- Whom a name in one of the forms but the last concerns: those who have the widest region
that it searches. -/
theorem mem_forAllFlats (h : form.Valid) (hflat : ¬ form.NamesFlat) (hpath : PathBehind path)
    (hfx : s.Has fx) : (∃ visited, forAllFlats s fx (form.text ++ path) = some visited ∧ fy ∈ visited) ↔
      s.Has fy ∧ ∃ rx ∈ (form.regions s fx).bind List.getLast?, rx ∈ fy.regions := by
  cases form with
  | search t =>
    simp [forAllFlats, tokeniseVrbl_search h hpath, VrblShared.mem_allFlats, NameForm.regions,
      FlatAt.regions]
  | searchGroup t =>
    simp [forAllFlats, tokeniseVrbl_searchGroup h hpath, VrblShared.mem_groupFlats, NameForm.regions,
      FlatAt.regions, eq_comm]
  | root t =>
    have hlen := List.length_pos_iff.mpr h.1
    simp [forAllFlats, tokeniseVrbl_root h hpath, VrblShared.mem_allFlats, NameForm.regions,
      FlatAt.regions, Nat.ne_of_gt hlen]
  | currentGroup t =>
    simp [forAllFlats, tokeniseVrbl_currentGroup h hpath, VrblShared.mem_groupFlats,
      NameForm.regions, FlatAt.regions, eq_comm]
  | ofGroup g t =>
    obtain ⟨hg, ht⟩ := h
    have hlen := List.length_pos_iff.mpr hg.1
    have hgroup : stringAt (g ++ 0 :: (t ++ 0 :: cutPath path)) 0 = g := cString_plain hg (.inr rfl)
    simp only [forAllFlats, tokeniseVrbl_ofGroup hg ht hpath, Option.bind_some, Nat.add_sub_cancel,
      ne_eq, not_true, if_false, Nat.ne_of_gt hlen, hgroup, NameForm.regions]
    cases s.findGroup g with
    | none => simp
    | some gx => simp [VrblShared.mem_groupFlats, FlatAt.regions, eq_comm]
  | currentFlat t =>
    simp only [forAllFlats, tokeniseVrbl_currentFlat h hpath, Option.bind_some, NameForm.regions,
      FlatAt.regions]
    constructor
    · rintro ⟨visited, hvisited, hfy⟩
      cases hvisited
      obtain rfl := List.mem_singleton.mp hfy
      exact ⟨hfx, _, rfl, List.mem_cons_self⟩
    · rintro ⟨_, rx, hrx, hmem⟩
      cases hrx
      have hfy : fy = fx := by simpa [eq_comm] using hmem
      exact ⟨[fx], rfl, hfy ▸ List.mem_singleton_self _⟩
  | ofFlat g f t => exact absurd trivial hflat

/-- When a name takes a new variable, and where. -/
theorem updateVrbl_stores (hname : decodeName s fx name = some (rx :: vra, key))
    (hnew : ∀ r ∈ rx :: vra, s.findRegion r key = none) :
    updateVrbl s fx name (some vo) clobber = some (s.insertRegion rx vo key, some ⟨rx, key⟩) := by
  have hnone : (rx :: vra).find? (fun r => (s.findRegion r key).isSome) = none :=
    List.find?_eq_none.mpr fun r hr => by simp [hnew r hr]
  rw [updateVrbl, hname]
  simp only [hnone, List.head?_cons]

theorem updateVrbl_some (h : updateVrbl s fx name (some vo) clobber = some (s', some ref)) :
    ∃ rx vra key, decodeName s fx name = some (rx :: vra, key) ∧
      (∀ r ∈ rx :: vra, s.findRegion r key = none) ∧ s' = s.insertRegion rx vo key ∧ ref = ⟨rx, key⟩ := by
  unfold updateVrbl at h
  split at h
  next => cases h
  next vra key hname =>
    split at h
    next hnone =>
      cases vra with
      | nil => cases h
      | cons rx vra =>
        cases h
        refine ⟨rx, vra, key, hname, fun r hr => ?_, rfl, rfl⟩
        simpa using List.find?_eq_none.mp hnone r hr
    next => cases h

theorem findVrbl_stored (hname : decodeName s fx name = some (rx :: vra, key)) :
    updateVrbl (s.insertRegion rx vo key) fx name none false =
      some (s.insertRegion rx vo key, some ⟨rx, key⟩) := by
  have hdecode : decodeName (s.insertRegion rx vo key) fx name = some (rx :: vra, key) := hname
  rw [updateVrbl, hdecode]
  simp [VrblShared.findRegion_insert_self]

theorem names_are_addressed (s : VrblShared) (fx : FlatAt) (hfx : s.Has fx) (form : NameForm)
    (hform : form.Valid) (hflat : ¬ form.NamesFlat) (path : Text) (hpath : PathBehind path) (vo : Vrbl)
    (clobber : Bool) :
    ((∃ s' ref, updateVrbl s fx (form.text ++ path) (some vo) clobber = some (s', some ref)) ↔
      ∃ rx vra, form.regions s fx = some (rx :: vra) ∧
        ∀ r ∈ rx :: vra, s.findRegion r form.var = none) ∧
    (∀ s' ref, updateVrbl s fx (form.text ++ path) (some vo) clobber = some (s', some ref) →
      ∃ rx vra, form.regions s fx = some (rx :: vra) ∧ ref = ⟨rx, form.var⟩ ∧
        s'.sGroups = s.sGroups ∧ s'.findRegion rx form.var = some vo ∧
        (∀ r key, (r, key) ≠ (rx, form.var) → s'.findRegion r key = s.findRegion r key) ∧
        updateVrbl s' fx (form.text ++ path) none false = some (s', some ref)) ∧
    ∀ fy, (∃ visited, forAllFlats s fx (form.text ++ path) = some visited ∧ fy ∈ visited) ↔
      s.Has fy ∧ ∃ rx ∈ (form.regions s fx).bind List.getLast?, rx ∈ fy.regions := by
  have hdecode : decodeName s fx (form.text ++ path) =
      (form.regions s fx).map fun vra => (vra, form.var) := decodeName_text hform hflat hpath
  refine ⟨⟨?_, ?_⟩, ?_, fun fy => mem_forAllFlats hform hflat hpath hfx⟩
  · rintro ⟨s', ref, h⟩
    obtain ⟨rx, vra, key, hname, hnew, -, -⟩ := updateVrbl_some h
    obtain ⟨vra', hregions, heq⟩ := Option.map_eq_some_iff.mp (hdecode.symm.trans hname)
    cases heq
    exact ⟨rx, vra, hregions, hnew⟩
  · rintro ⟨rx, vra, hregions, hnew⟩
    rw [hregions] at hdecode
    exact ⟨_, _, updateVrbl_stores hdecode hnew⟩
  · intro s' ref h
    obtain ⟨rx, vra, key, hname, hnew, rfl, rfl⟩ := updateVrbl_some h
    obtain ⟨vra', hregions, heq⟩ := Option.map_eq_some_iff.mp (hdecode.symm.trans hname)
    cases heq
    exact ⟨rx, vra, hregions, rfl, rfl, VrblShared.findRegion_insert_self,
      fun r key hne => VrblShared.findRegion_insert_of_ne hne, findVrbl_stored hname⟩

def twoFlats : VrblShared where
  sGroups := [⟨some (textOf "lab"), [some (textOf "a"), some (textOf "b")]⟩]
  regions := fun _ => []

theorem names_are_addressed_group : ∃ s' ref, updateVrbl twoFlats ⟨0, 1⟩ (textOf "lab*gain*:x")
    (some { vPayload := .tree [] }) false = some (s', some ref) := by
  have hlab : PlainName (textOf "lab") := by decide
  have hgain : PlainName (textOf "gain") := by decide
  refine (names_are_addressed twoFlats ⟨0, 1⟩ ⟨_, rfl, by decide⟩
    (.ofGroup (textOf "lab") (textOf "gain")) ⟨hlab, hgain⟩ id (textOf ":x") (.inr (by decide))
    { vPayload := .tree [] } false).1.mpr ⟨.group 0, [], rfl, fun r _ => rfl⟩

/-- All clients are visited for a plain name, which only the one that declared it can find. -/
theorem visited_without_the_variable : ¬ ∀ (s : VrblShared) (fx fy : FlatAt) (form : NameForm)
    (vo : Vrbl) (s' : VrblShared) (ref : VrblRef) (visited : List FlatAt),
    s.Has fx → s.Has fy → form.Valid → updateVrbl s fx form.text (some vo) false = some (s', some ref) →
      forAllFlats s fx form.text = some visited →
        (fy ∈ visited ↔ updateVrbl s' fy form.text none false = some (s', some ref)) := by
  intro h
  have hvalid : PlainName (textOf "gain") := by decide
  have hvisited := (h twoFlats ⟨0, 0⟩ ⟨0, 1⟩ (.search (textOf "gain")) { vPayload := .tree [] } _ _ _
    ⟨_, rfl, by decide⟩ ⟨_, rfl, by decide⟩ hvalid rfl rfl).mp (by decide)
  have hother : (updateVrbl (twoFlats.insertRegion (.flat ⟨0, 0⟩) { vPayload := .tree [] } (textOf "gain"))
      ⟨0, 1⟩ (textOf "gain") none false).bind Prod.snd = none := rfl
  cases hother.symm.trans (congrArg (Option.bind · Prod.snd) hvisited)

end

end Katcp
