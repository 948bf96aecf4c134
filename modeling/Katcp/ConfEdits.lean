import Katcp.ConfExact
import Katcp.FirstMatch

namespace Katcp

open FirstMatch

/-- What `get_label_setting_value` gives: nothing, what lies behind the values, or a value. -/
inductive ConfGot
  | missing
  | wild
  | value (str : Text)
deriving DecidableEq, Repr

def PLabel.named (srcl : Text) (cl : PLabel) : Bool := cl.str = srcl

def PSetting.named (srcs : Text) (cs : PSetting) : Bool := cs.str = srcs

namespace PTree

/-- The setting that the loops of `get_label_setting_value` come to first. -/
def findSetting (t : PTree) (srcl srcs : Text) : Option PSetting :=
  t.labels.findSome? fun cl => if cl.named srcl then cl.settings.find? (PSetting.named srcs) else none

def getLabelSettingValue (t : PTree) (srcl srcs : Text) (vidx : Nat) : ConfGot :=
  match t.findSetting srcl srcs with
  | none => .missing
  | some cs => (cs.values[vidx]?).elim .wild .value

end PTree

/-- The value is put in the place of another, or behind them. -/
def setValue (values : List Text) (vidx : Nat) (newval : Text) : List Text :=
  if vidx < values.length then values.set vidx newval else values ++ [newval]

/-- `malloc` gives memory that nobody has written. -/
def newSetting (srcs newval : Text) : PSetting := ⟨srcs, [newval], none⟩

def newLabel (srcl srcs newval : Text) : PLabel := ⟨srcl, [newSetting srcs newval], none⟩

def PSetting.set (vidx : Nat) (newval : Text) (cs : PSetting) : PSetting :=
  { cs with values := setValue cs.values vidx newval }

def PLabel.set (srcs : Text) (vidx : Nat) (newval : Text) (cl : PLabel) : PLabel :=
  { cl with settings := onFirst (PSetting.named srcs) (PSetting.set vidx newval) (newSetting srcs newval) cl.settings }

def PTree.setLabelSettingValue (t : PTree) (srcl srcs : Text) (vidx : Nat) (newval : Text) : PTree :=
  { t with
    labels := onFirst (PLabel.named srcl) (PLabel.set srcs vidx newval) (newLabel srcl srcs newval) t.labels }

structure ConfEdit where
  srcl : Text
  srcs : Text
  vidx : Nat
  newval : Text
deriving DecidableEq, Repr

def PTree.edit (t : PTree) (e : ConfEdit) : PTree := t.setLabelSettingValue e.srcl e.srcs e.vidx e.newval

/-- A configuration: the values of each setting of each label. -/
abbrev ConfView := Text × Text → Option (List Text)

namespace ConfView

def edit (view : ConfView) (e : ConfEdit) : ConfView :=
  Function.update view (e.srcl, e.srcs) (some (((view (e.srcl, e.srcs)).map fun values =>
    setValue values e.vidx e.newval).getD [e.newval]))

def get (view : ConfView) (srcl srcs : Text) (vidx : Nat) : ConfGot :=
  match view (srcl, srcs) with
  | none => .missing
  | some values => (values[vidx]?).elim .wild .value

end ConfView

def PTree.view (t : PTree) : ConfView := fun k => (t.findSetting k.1 k.2).map (·.values)

/-- No two labels have the same name. -/
def PTree.Distinct (t : PTree) : Prop := (t.labels.map (·.str)).Nodup

section

variable {t t' : PTree} {cl : PLabel} {cs : PSetting} {srcl srcs : Text} {vidx : Nat} {newval : Text} {e : ConfEdit}

theorem get_view (t : PTree) (srcl srcs : Text) (vidx : Nat) :
    t.getLabelSettingValue srcl srcs vidx = t.view.get srcl srcs vidx := by
  rw [PTree.getLabelSettingValue, ConfView.get, PTree.view]
  dsimp only
  cases t.findSetting srcl srcs <;> rfl

/-- Where no two labels have the same name only one of them is searched. -/
theorem findSetting_eq (hd : t.Distinct) (srcl srcs : Text) : t.findSetting srcl srcs =
    (t.labels.find? (PLabel.named srcl)).bind fun cl => cl.settings.find? (PSetting.named srcs) := by
  obtain ⟨labels, comments⟩ := t
  unfold PTree.findSetting
  unfold PTree.Distinct at hd
  dsimp only at hd ⊢
  induction labels with
  | nil => rfl
  | cons cl labels ih =>
    rw [List.map_cons, List.nodup_cons] at hd
    rw [List.findSome?_cons]
    by_cases hcl : cl.named srcl = true
    · have hrest : (labels.findSome? fun cl => if cl.named srcl then cl.settings.find? (PSetting.named srcs) else none) =
          none := by
        refine List.findSome?_eq_none_iff.mpr fun x hx => if_neg fun he => hd.1 ?_
        rw [of_decide_eq_true hcl, ← of_decide_eq_true he]
        exact List.mem_map_of_mem hx
      rw [hcl, if_pos rfl, List.find?_cons_of_pos hcl, Option.bind_some, hrest]
      cases cl.settings.find? (PSetting.named srcs) <;> rfl
    · rw [if_neg hcl, List.find?_cons_of_neg hcl]
      exact ih hd.2

theorem Distinct.edit (hd : t.Distinct) (e : ConfEdit) : (t.edit e).Distinct := by
  have hmap := @map_onFirst _ _ (PLabel.named e.srcl) (PLabel.set e.srcs e.vidx e.newval)
    (newLabel e.srcl e.srcs e.newval) t.labels PLabel.str fun _ => rfl
  show List.Nodup (List.map PLabel.str (onFirst _ _ _ _))
  rw [hmap]
  split
  next => exact hd
  next hany =>
    refine List.nodup_append.mpr ⟨hd, List.nodup_singleton _, ?_⟩
    intro a ha b hb he
    obtain ⟨x, hx, rfl⟩ := List.mem_map.mp ha
    rw [List.mem_singleton.mp hb] at he
    exact hany (List.any_eq_true.mpr ⟨x, hx, decide_eq_true he⟩)

/-- The values of a setting of this name. -/
def valuesNamed (settings : List PSetting) (srcs : Text) : Option (List Text) :=
  (settings.find? (PSetting.named srcs)).map (·.values)

theorem view_eq (hd : t.Distinct) (srcl srcs : Text) : t.view (srcl, srcs) =
    (t.labels.find? (PLabel.named srcl)).bind fun cl => valuesNamed cl.settings srcs := by
  rw [PTree.view]
  dsimp only
  rw [findSetting_eq hd]
  cases t.labels.find? (PLabel.named srcl) <;> rfl

theorem valuesNamed_set (cl : PLabel) (srcs name : Text) (vidx : Nat) (newval : Text) :
    valuesNamed (cl.set srcs vidx newval).settings name = if name = srcs then
      some (((valuesNamed cl.settings srcs).map fun values => setValue values vidx newval).getD [newval])
    else valuesNamed cl.settings name := by
  have hset : ∀ x, PSetting.named srcs x = true → PSetting.named srcs (x.set vidx newval) = true := fun _ hx => hx
  have hnew : PSetting.named srcs (newSetting srcs newval) = true := decide_eq_true rfl
  unfold valuesNamed PLabel.set
  dsimp only
  split
  next hname =>
    subst hname
    rw [find_onFirst hset hnew]
    cases cl.settings.find? (PSetting.named name) <;> rfl
  next hname =>
    rw [find_onFirst_other (fun x hx => ?_) hset hnew]
    exact decide_eq_false fun he => hname (he.symm.trans (of_decide_eq_true hx))

/-- A setting of the tree is set as one of a configuration is. -/
theorem view_edit (hd : t.Distinct) (e : ConfEdit) : (t.edit e).view = t.view.edit e := by
  have hset : ∀ x, PLabel.named e.srcl x = true → PLabel.named e.srcl (x.set e.srcs e.vidx e.newval) = true :=
    fun _ hx => hx
  have hnew : PLabel.named e.srcl (newLabel e.srcl e.srcs e.newval) = true := decide_eq_true rfl
  funext k
  obtain ⟨srcl, srcs⟩ := k
  rw [view_eq (Distinct.edit hd e), ConfView.edit, Function.update_apply, view_eq hd, view_eq hd]
  show ((onFirst (PLabel.named e.srcl) (PLabel.set e.srcs e.vidx e.newval) (newLabel e.srcl e.srcs e.newval)
    t.labels).find? (PLabel.named srcl)).bind _ = _
  by_cases hl : srcl = e.srcl
  · subst hl
    rw [find_onFirst hset hnew, Option.bind_some]
    cases hfind : t.labels.find? (PLabel.named e.srcl) with
    | none =>
      by_cases hs : srcs = e.srcs
      · rw [hs, if_pos rfl]
        show valuesNamed [newSetting e.srcs e.newval] e.srcs = _
        have hself : PSetting.named e.srcs (newSetting e.srcs e.newval) = true := decide_eq_true rfl
        rw [valuesNamed, List.find?_cons_of_pos hself]
        rfl
      · rw [if_neg fun he => hs (Prod.mk.inj he).2]
        show valuesNamed [newSetting e.srcs e.newval] srcs = _
        rw [valuesNamed, List.find?_cons_of_neg]
        · rfl
        · exact fun he => hs (of_decide_eq_true he).symm
    | some cl =>
      rw [Option.elim_some, valuesNamed_set, Option.bind_some]
      by_cases hs : srcs = e.srcs
      · rw [if_pos hs, if_pos (by rw [hs])]
      · rw [if_neg hs, if_neg fun he => hs (Prod.mk.inj he).2, Option.bind_some]
  · rw [find_onFirst_other (fun x hx => ?_) hset hnew, if_neg fun he => hl (Prod.mk.inj he).1]
    exact decide_eq_false fun he => hl (he.symm.trans (of_decide_eq_true hx))

theorem written_set_iff (cl : PLabel) (srcs : Text) (vidx : Nat) (newval : Text) :
    (∀ cs ∈ (cl.set srcs vidx newval).settings, cs.comments.isSome) ↔
      ∃ cs, cl.settings.find? (PSetting.named srcs) = some cs ∧ cs.comments.isSome ∧
        ∀ x ∈ cl.settings.eraseP (PSetting.named srcs), x.comments.isSome :=
  @forall_onFirst_iff _ _ _ _ (fun cs : PSetting => cs.comments.isSome = true) _ Bool.noConfusion

theorem written_edit_iff (hd : t.Distinct) (e : ConfEdit) :
    (t.edit e).Written ↔ t.Written ∧ (t.view (e.srcl, e.srcs)).isSome := by
  have hlabel : ¬ (newLabel e.srcl e.srcs e.newval).Written := fun h => Bool.noConfusion h.1
  show (∀ cl ∈ onFirst (PLabel.named e.srcl) (PLabel.set e.srcs e.vidx e.newval) (newLabel e.srcl e.srcs e.newval)
    t.labels, cl.Written) ↔ _
  rw [forall_onFirst_iff hlabel, view_eq hd]
  constructor
  · rintro ⟨cl, hfind, ⟨hcomments, hsettings⟩, hrest⟩
    obtain ⟨cs, hcs, hwritten, hothers⟩ := (written_set_iff cl e.srcs e.vidx e.newval).mp hsettings
    refine ⟨fun x hx => ?_, ?_⟩
    · rcases List.mem_cons.mp ((perm_first hfind).mem_iff.mp hx) with rfl | hx
      · refine ⟨hcomments, fun y hy => ?_⟩
        rcases List.mem_cons.mp ((perm_first hcs).mem_iff.mp hy) with rfl | hy
        · exact hwritten
        · exact hothers y hy
      · exact hrest x hx
    · rw [hfind, Option.bind_some, valuesNamed, hcs]
      rfl
  · rintro ⟨hwritten, hsome⟩
    cases hfind : t.labels.find? (PLabel.named e.srcl) with
    | none =>
      rw [hfind] at hsome
      cases hsome
    | some cl =>
      rw [hfind, Option.bind_some, valuesNamed, Option.isSome_map] at hsome
      obtain ⟨cs, hcs⟩ := Option.isSome_iff_exists.mp hsome
      have hperm := perm_first hfind
      have hsub := perm_first hcs
      obtain ⟨hcomments, hsettings⟩ := hwritten cl (hperm.mem_iff.mpr List.mem_cons_self)
      refine ⟨cl, rfl, ⟨hcomments, ?_⟩, fun x hx => hwritten x (hperm.mem_iff.mpr (List.mem_cons_of_mem _ hx))⟩
      refine (written_set_iff ..).mpr ⟨cs, hcs, hsettings cs (hsub.mem_iff.mpr List.mem_cons_self), fun x hx => ?_⟩
      exact hsettings x (hsub.mem_iff.mpr (List.mem_cons_of_mem _ hx))

theorem mapM_isSome_iff {α β : Type} {f : α → Option β} {l : List α} : (l.mapM f).isSome ↔ ∀ x ∈ l, (f x).isSome := by
  induction l with
  | nil => simp
  | cons x l ih =>
    rw [List.mapM_cons, List.forall_mem_cons, ← ih]
    cases f x <;> cases l.mapM f <;> simp

theorem saveTree_isSome : (saveTree t).isSome ↔ t.Written := by
  rw [saveTree, Option.isSome_map, mapM_isSome_iff]
  refine forall₂_congr fun cl _ => ?_
  rw [PLabel.save, PLabel.Written]
  cases hcomments : cl.comments with
  | none => simp
  | some cs =>
    rw [Option.bind_some, Option.isSome_map, mapM_isSome_iff]
    simp [PSetting.save]

theorem view_edit_isSome (e : ConfEdit) (view : ConfView) (h : (view (e.srcl, e.srcs)).isSome) (k : Text × Text) :
    (view.edit e k).isSome ↔ (view k).isSome := by
  rw [ConfView.edit, Function.update_apply]
  split
  next hk => simp [hk, h]
  next => exact Iff.rfl

theorem written_edits_iff (hd : t.Distinct) (edits : List ConfEdit) : (edits.foldl PTree.edit t).Written ↔
    t.Written ∧ ∀ e ∈ edits, (t.view (e.srcl, e.srcs)).isSome := by
  induction edits generalizing t with
  | nil => simp
  | cons e edits ih =>
    rw [List.foldl_cons, ih (Distinct.edit hd e), written_edit_iff hd, List.forall_mem_cons, and_assoc, view_edit hd]
    refine and_congr_right fun _ => and_congr_right fun hsome => forall₂_congr fun x _ => ?_
    exact view_edit_isSome e t.view hsome _

theorem view_edits (hd : t.Distinct) (edits : List ConfEdit) :
    (edits.foldl PTree.edit t).view = edits.foldl ConfView.edit t.view := by
  induction edits generalizing t with
  | nil => rfl
  | cons e edits ih => rw [List.foldl_cons, List.foldl_cons, ih (Distinct.edit hd e), view_edit hd]

/-- A file whose labels have different names, and any number of settings that are made in it: what can be
got is what was set last, or was in the file; and the file can be saved as long as only settings were made
that it has. -/
theorem conf_edits {file : Text} (hload : startParser file = .ok t) (hd : t.Distinct) (edits : List ConfEdit) :
    (∀ srcl srcs vidx, (edits.foldl PTree.edit t).getLabelSettingValue srcl srcs vidx =
      (edits.foldl ConfView.edit t.view).get srcl srcs vidx) ∧
    ((saveTree (edits.foldl PTree.edit t)).isSome ↔ ∀ e ∈ edits, (t.view (e.srcl, e.srcs)).isSome) := by
  refine ⟨fun srcl srcs vidx => ?_, ?_⟩
  · rw [get_view, view_edits hd]
  · have hfile : file ≠ [] := by
      rintro rfl
      cases hload
    rw [saveTree_isSome, written_edits_iff hd, and_iff_right ((startParser_iff hfile).mp hload).1]

def roachFile : Text := textOf "# pool\n[roach]\n name = r1, r2\n# port\n port = 7147\n[k]\n"

def roachTree : PTree :=
  ⟨[⟨textOf "roach", [⟨textOf "name", [textOf "r1", textOf "r2"], some [textOf "# port"]⟩,
      ⟨textOf "port", [textOf "7147"], some []⟩], some []⟩, ⟨textOf "k", [], some []⟩], [textOf "# pool"]⟩

/-- A value is put behind two others, and a setting is made that the file does not have. -/
theorem conf_edits_roach : startParser roachFile = .ok roachTree ∧
    (([⟨textOf "roach", textOf "name", 7, textOf "r3"⟩, ⟨textOf "k", textOf "a", 0, textOf "1"⟩].foldl PTree.edit
      roachTree).getLabelSettingValue (textOf "roach") (textOf "name") 2 = .value (textOf "r3")) ∧
    (saveTree ([⟨textOf "roach", textOf "name", 7, textOf "r3"⟩].foldl PTree.edit roachTree)).isSome ∧
    ¬ (saveTree ([⟨textOf "k", textOf "a", 0, textOf "1"⟩].foldl PTree.edit roachTree)).isSome := by
  have hload : startParser roachFile = .ok roachTree := by decide +kernel
  have hd : roachTree.Distinct := by
    unfold PTree.Distinct
    decide +kernel
  refine ⟨hload, ?_, (conf_edits hload hd _).2.mpr ?_, fun hsaved => ?_⟩
  · rw [(conf_edits hload hd _).1]
    decide +kernel
  · decide +kernel
  · have hknown := (conf_edits hload hd _).2.mp hsaved
    revert hknown
    decide +kernel

end

end Katcp
