import Katcp.VrblNames
import Katcp.VrblTexts

namespace Katcp

variable {s t : VrblShared} {fx : FlatAt} {ref ref' : VrblRef} {vx vx' vy : Vrbl} {answer : VrblAnswer}
  {text path : Option Text} {how : HowCreate} {type : Option VrblType} {qs : List PathStep}
  {name value : Text} {args : List (Option Text)} {c : VrblCommand}

section

variable (ref : VrblRef) (qs : List PathStep) (s : VrblShared)

/-- The variable that the first argument of a command finds. -/
def Finds (fx : FlatAt) (args : List (Option Text)) : Prop :=
  ∃ name more, args = some name :: more ∧ findVrbl s fx name = some ref

/-- What a deletion is asked to delete. -/
def deletedPath (args : List (Option Text)) : Option Text :=
  deletePath (args.head?.join.getD []) args.tail.head?.join

def Hides : FlatAt × VrblCommand → Prop
  | (fx, .hide name) | (fx, .reveal name) => findVrbl s fx name = some ref
  | _ => False

def DeletesWhole : FlatAt × VrblCommand → Prop
  | (fx, .delete args) => Finds ref s fx args ∧ deletedPath args = none
  | _ => False

/-- The command deletes an element of the variable at the position or above it. -/
def DeletesAt : FlatAt × VrblCommand → Prop
  | (fx, .delete args) => Finds ref s fx args ∧
      ∃ ps, readSteps (pathFuel (deletedPath args)) (deletedPath args) = some ps ∧ ps <+: qs
  | _ => False

/-- The command declares the element of the variable at the position once more. -/
def Redeclares : FlatAt × VrblCommand → Prop
  | (fx, .declare args) => ∃ name more options type path vx, args = some name :: more ∧
      findVrbl s fx name = some ref ∧ declareAttributes more = some (options, type) ∧
      commandPath name more.tail = some path ∧ s.vrbl ref = some vx ∧
      target (pathFuel path) vx.vPayload path .mayCreate (some type) = some qs
  | _ => False

end

def Vrbl.ReadOnly (vx : Vrbl) : Prop := vx.vFlags &&& vrfRom ≠ 0

instance (vx : Vrbl) : Decidable vx.ReadOnly := inferInstanceAs (Decidable (_ ≠ _))

/-- The mask of all flags lacks the read only flag, so hiding and showing drop it. -/
theorem hideVrbl_drops : ¬ (hideVrbl vx).ReadOnly := by
  simp [Vrbl.ReadOnly, hideVrbl, flagsVrbl, vrfHid, vrfRom, maskVrf, Nat.and_or_distrib_right, Nat.and_assoc]

theorem showVrbl_drops : ¬ (showVrbl vx).ReadOnly := by
  simp [Vrbl.ReadOnly, showVrbl, flagsVrbl, vrfHid, vrfRom, maskVrf, Nat.and_assoc]

theorem vrbl_setVrbl_self : (s.setVrbl ref vx).vrbl ref = some vx := VrblShared.findRegion_insert_self

theorem vrbl_insert_of_ne {rx : RegionId} {key : Text} (hne : ref ≠ ⟨rx, key⟩) :
    (s.insertRegion rx vx key).vrbl ref = s.vrbl ref := by
  refine VrblShared.findRegion_insert_of_ne fun h => hne ?_
  obtain ⟨hr, hk⟩ := Prod.mk.inj h
  rw [← hr, ← hk]

theorem vrbl_setVrbl_of_ne (hne : ref ≠ ref') : (s.setVrbl ref' vx).vrbl ref = s.vrbl ref :=
  vrbl_insert_of_ne hne

theorem vrbl_remove_of_ne {rx : RegionId} {key : Text} (hne : ref ≠ ⟨rx, key⟩) :
    (s.removeRegion rx key).vrbl ref = s.vrbl ref := by
  simp only [VrblShared.vrbl, VrblShared.findRegion, VrblShared.removeRegion]
  by_cases hr : ref.region = rx
  · rw [hr, Function.update_self]
    exact KeyedList.find_erase_of_ne fun hk => hne (by rw [← hr, ← hk])
  · rw [Function.update_of_ne hr]

/-- What a command keeps of a variable: its flags, and the text at a position unless the
command is one of those that may change it. -/
def KeepsVrbl (ref : VrblRef) (s : VrblShared) (a : FlatAt × VrblCommand) (vx vx' : Vrbl) : Prop :=
  vx'.vFlags = vx.vFlags ∧ ∀ qs value, vx.vPayload.reach qs = some (.string (some value)) →
    vx.ReadOnly → ¬ DeletesAt ref qs s a → ¬ Redeclares ref qs s a →
      vx'.vPayload.reach qs = some (.string (some value))

theorem KeepsVrbl.rfl {a : FlatAt × VrblCommand} : KeepsVrbl ref s a vx vx :=
  ⟨Eq.refl _, fun _ _ h _ _ _ => h⟩

theorem scanVrbl_leaves (h : Leaves (scanVrbl (some vx) text path how type) (some vx')) :
    vx'.vFlags = vx.vFlags ∧ (vx'.vPayload = vx.vPayload ∨
      Leaves (scanPayload (pathFuel path) vx.vPayload text path how type) vx'.vPayload) := by
  unfold scanVrbl at h
  split at h
  next =>
    rcases h with h | h <;> cases h
    exact ⟨rfl, .inl rfl⟩
  next =>
    obtain ⟨py, hpy, heq⟩ := h.of_map
    cases heq
    exact ⟨rfl, .inr hpy⟩

theorem keepScan_some {r : Scanned (Option Vrbl)} (h : keepScan s ref r = some (t, answer)) :
    ∃ vx', Leaves r (some vx') ∧ t = s.setVrbl ref vx' := by
  unfold keepScan at h
  split at h
  next vx' => cases h; exact ⟨vx', .inl rfl, rfl⟩
  next vx' => cases h; exact ⟨vx', .inr rfl, rfl⟩
  next => cases h

theorem findVrbl_some (h : findVrbl s fx name = some ref) : ∃ vra var rx,
    decodeName s fx name = some (vra, var) ∧ ref = ⟨rx, var⟩ ∧
      (vra.find? fun rx => (s.findRegion rx var).isSome) = some rx := by
  unfold findVrbl updateVrbl at h
  split at h
  next => cases h
  next vra var hname =>
    split at h
    next => cases h
    next rx hfind => cases h; exact ⟨vra, var, rx, hname, rfl, hfind⟩

/-- A command that changes one variable keeps what it keeps of that one. -/
theorem keeps_setVrbl {a : FlatAt × VrblCommand} (hvx : s.vrbl ref = some vx)
    (h : ref = ref' → KeepsVrbl ref s a vx vy) :
    ∃ vx', (s.setVrbl ref' vy).vrbl ref = some vx' ∧ KeepsVrbl ref s a vx vx' := by
  by_cases href : ref = ref'
  · subst href
    exact ⟨vy, vrbl_setVrbl_self, h rfl⟩
  · exact ⟨vx, (vrbl_setVrbl_of_ne href).trans hvx, .rfl⟩

/-- A scan keeps the texts of a variable, but for the one it may overwrite. -/
theorem keepScan_keeps {a : FlatAt × VrblCommand} (hvx : s.vrbl ref = some vx) (hvy : s.vrbl ref' = some vy)
    (h : keepScan s ref' (scanVrbl (some vy) text path how type) = some (t, answer))
    (htarget : ref = ref' → ∀ qs, vx.ReadOnly → how ≠ .mustCreate →
      target (pathFuel path) vx.vPayload path how type = some qs → DeletesAt ref qs s a ∨ Redeclares ref qs s a) :
    ∃ vx', t.vrbl ref = some vx' ∧ KeepsVrbl ref s a vx vx' := by
  obtain ⟨vz, hleaves, rfl⟩ := keepScan_some h
  refine keeps_setVrbl hvx fun heq => ?_
  have hexcept := htarget heq
  subst heq
  obtain rfl := Option.some.inj (hvx.symm.trans hvy)
  obtain ⟨hflags, hsame | hscan⟩ := scanVrbl_leaves hleaves
  · exact ⟨hflags, fun qs value hreach _ _ _ => hsame ▸ hreach⟩
  · refine ⟨hflags, fun qs value hreach hrom hdelete hdeclare => ?_⟩
    refine (scan_keeps_text hscan hreach).resolve_right fun ⟨hhow, hat⟩ => ?_
    exact (hexcept qs hrom hhow hat).elim hdelete hdeclare

theorem updateVrbl_none {clobber : Bool} (h : updateVrbl s fx name (some vy) clobber = some (t, none)) :
    t = s := by
  unfold updateVrbl at h
  split at h
  next => cases h; rfl
  next =>
    split at h
    next =>
      split at h
      next => cases h; rfl
      next => cases h
      next => cases h
    next => cases h

theorem updateVrbl_clobber {left : Option VrblRef} (href : findVrbl s fx name = some ref)
    (h : updateVrbl s fx name none true = some (t, left)) : t = s.removeRegion ref.region ref.key := by
  obtain ⟨vra, var, rx, hname, rfl, hfind⟩ := findVrbl_some href
  rw [updateVrbl, hname] at h
  simp only [hfind, if_true] at h
  cases h
  rfl

theorem varDeclare_keeps (hvx : s.vrbl ref = some vx) (h : varDeclare s fx args = some (t, answer)) :
    ∃ vx', t.vrbl ref = some vx' ∧ KeepsVrbl ref s (fx, .declare args) vx vx' := by
  unfold varDeclare at h
  split at h
  next => cases h; exact ⟨vx, hvx, .rfl⟩
  next => cases h; exact ⟨vx, hvx, .rfl⟩
  next name more =>
    split at h
    next options type path hattributes hpath =>
      split at h
      next ref' href =>
        obtain ⟨vy, hvy, h⟩ := Option.bind_eq_some_iff.mp h
        split at h
        next => cases h; exact ⟨vx, hvx, .rfl⟩
        split at h
        next => cases h; exact ⟨vx, hvx, .rfl⟩
        refine keepScan_keeps hvx hvy h ?_
        rintro rfl qs - - htarget
        exact .inr ⟨name, more, options, type, path, vx, rfl, href, hattributes, hpath, hvx, htarget⟩
      next hnone =>
        split at h
        next vy hscan =>
          obtain ⟨⟨t, found⟩, hupdate, h⟩ := Option.map_eq_some_iff.mp h
          cases h
          cases found with
          | none =>
            obtain rfl := updateVrbl_none hupdate
            exact ⟨vx, hvx, .rfl⟩
          | some found =>
            obtain ⟨rx, vra, key, hname, hnew, rfl, rfl⟩ := updateVrbl_some hupdate
            have hne : ref ≠ ⟨rx, key⟩ := by
              rintro rfl
              exact Option.some_ne_none _ (hvx.symm.trans (hnew rx (List.mem_cons_self ..)))
            exact ⟨vx, (vrbl_insert_of_ne hne).trans hvx, .rfl⟩
        next => cases h; exact ⟨vx, hvx, .rfl⟩
        next => cases h
    next => cases h; exact ⟨vx, hvx, .rfl⟩

theorem varSet_keeps (hvx : s.vrbl ref = some vx) (h : varSet s fx args = some (t, answer)) :
    ∃ vx', t.vrbl ref = some vx' ∧ KeepsVrbl ref s (fx, .set args) vx vx' := by
  unfold varSet at h
  split at h
  next key value more =>
    split at h
    next => cases h; exact ⟨vx, hvx, .rfl⟩
    next ref' href =>
      obtain ⟨vy, hvy, h⟩ := Option.bind_eq_some_iff.mp h
      split at h
      next value type path =>
        refine keepScan_keeps hvx hvy h ?_
        rintro rfl qs hrom hhow -
        obtain rfl := Option.some.inj (hvx.symm.trans hvy)
        have hflag : vx.vFlags &&& vrfRom ≠ 0 := hrom
        exact absurd (if_pos hflag) hhow
      next => cases h; exact ⟨vx, hvx, .rfl⟩
  next => cases h; exact ⟨vx, hvx, .rfl⟩

theorem varDelete_keeps (hvx : s.vrbl ref = some vx) (h : varDelete s fx args = some (t, answer))
    (hwhole : ¬ DeletesWhole ref s (fx, .delete args)) :
    ∃ vx', t.vrbl ref = some vx' ∧ KeepsVrbl ref s (fx, .delete args) vx vx' := by
  unfold varDelete at h
  split at h
  next => cases h; exact ⟨vx, hvx, .rfl⟩
  next => cases h; exact ⟨vx, hvx, .rfl⟩
  next => cases h; exact ⟨vx, hvx, .rfl⟩
  next key more _ =>
    dsimp only at h
    split at h
    next => cases h; exact ⟨vx, hvx, .rfl⟩
    next ref' href =>
      split at h
      next => cases h; exact ⟨vx, hvx, .rfl⟩
      split at h
      next hpath =>
        obtain ⟨⟨t, left⟩, hupdate, h⟩ := Option.map_eq_some_iff.mp h
        cases h
        obtain rfl := updateVrbl_clobber href hupdate
        have hne : ref ≠ ref' := by
          rintro rfl
          exact hwhole ⟨⟨key, more, rfl, href⟩, hpath⟩
        exact ⟨vx, (vrbl_remove_of_ne hne).trans hvx, .rfl⟩
      next path hpath =>
        obtain ⟨vy, hvy, h⟩ := Option.bind_eq_some_iff.mp h
        split at h
        next => cases h; exact ⟨vx, hvx, .rfl⟩
        next vz hexcise =>
          cases h
          refine keeps_setVrbl hvx fun heq => ?_
          subst heq
          obtain rfl := Option.some.inj (hvx.symm.trans hvy)
          obtain ⟨py, hpy, rfl⟩ := Option.map_eq_some_iff.mp hexcise
          refine ⟨rfl, fun qs value hreach _ hnot _ => ?_⟩
          refine (excise_keeps_text hpy (Nat.lt_succ_self _) hreach).resolve_right fun hat => hnot ?_
          have hdeleted : deletedPath (some key :: more) = some path := hpath
          exact ⟨⟨key, more, rfl, href⟩, by rw [hdeleted]; exact hat⟩

theorem changeFlags_keeps {f : Vrbl → Vrbl} (hvx : s.vrbl ref = some vx)
    (h : changeFlags s fx f name = some (t, answer)) (hne : findVrbl s fx name ≠ some ref) :
    t.vrbl ref = some vx := by
  unfold changeFlags at h
  split at h
  next => cases h; exact hvx
  next ref' href =>
    obtain ⟨vy, _, h⟩ := Option.map_eq_some_iff.mp h
    cases h
    exact (vrbl_setVrbl_of_ne fun heq => hne (by rw [heq]; exact href)).trans hvx

/-- What a command keeps of a variable that it neither hides nor deletes. -/
theorem runCommand_keeps (hvx : s.vrbl ref = some vx) (h : runCommand s fx c = some (t, answer))
    (hhide : ¬ Hides ref s (fx, c)) (hwhole : ¬ DeletesWhole ref s (fx, c)) :
    ∃ vx', t.vrbl ref = some vx' ∧ KeepsVrbl ref s (fx, c) vx vx' := by
  cases c with
  | declare args => exact varDeclare_keeps hvx h
  | set args => exact varSet_keeps hvx h
  | display args => cases h; exact ⟨vx, hvx, .rfl⟩
  | delete args => exact varDelete_keeps hvx h hwhole
  | hide name => exact ⟨vx, changeFlags_keeps hvx h hhide, .rfl⟩
  | reveal name => exact ⟨vx, changeFlags_keeps hvx h hhide, .rfl⟩

/-- The commands that take neither the flags of a variable away nor the variable. -/
def LeavesFlags (ref : VrblRef) (s : VrblShared) (a : FlatAt × VrblCommand) : Prop :=
  ¬ Hides ref s a ∧ ¬ DeletesWhole ref s a

/-- Of these, the commands that neither delete the position nor declare it again. -/
def LeavesText (ref : VrblRef) (qs : List PathStep) (s : VrblShared) (a : FlatAt × VrblCommand) : Prop :=
  LeavesFlags ref s a ∧ ¬ DeletesAt ref qs s a ∧ ¬ Redeclares ref qs s a

theorem read_only_keeps (s : VrblShared) (ref : VrblRef) (vx : Vrbl) (hvx : s.vrbl ref = some vx)
    (hrom : vx.ReadOnly) :
    (∀ t log, (vrblMachine s).Runs (LeavesFlags ref) t log →
      ∃ vx', t.vrbl ref = some vx' ∧ vx'.vFlags = vx.vFlags) ∧
    ∀ qs value, vx.vPayload.reach qs = some (.string (some value)) → ∀ t log,
      (vrblMachine s).Runs (LeavesText ref qs) t log → ∃ vx', t.vrbl ref = some vx' ∧
        vx'.vFlags = vx.vFlags ∧ vx'.vPayload.reach qs = some (.string (some value)) := by
  constructor
  · intro t log hruns
    refine hruns.invariant (fun t _ => ∃ vx', t.vrbl ref = some vx' ∧ vx'.vFlags = vx.vFlags)
      ⟨vx, hvx, rfl⟩ ?_
    rintro t log ⟨fx, c⟩ u ⟨vy, hvy, hflags⟩ ⟨hhide, hwhole⟩ hstep
    obtain ⟨⟨u, answer⟩, hrun, rfl⟩ := Option.map_eq_some_iff.mp hstep
    obtain ⟨vz, hvz, hkeeps⟩ := runCommand_keeps hvy hrun hhide hwhole
    exact ⟨vz, hvz, hkeeps.1.trans hflags⟩
  · intro qs value hreach t log hruns
    refine hruns.invariant (fun t _ => ∃ vx', t.vrbl ref = some vx' ∧ vx'.vFlags = vx.vFlags ∧
      vx'.vPayload.reach qs = some (.string (some value))) ⟨vx, hvx, rfl, hreach⟩ ?_
    rintro t log ⟨fx, c⟩ u ⟨vy, hvy, hflags, htext⟩ ⟨⟨hhide, hwhole⟩, hat, hagain⟩ hstep
    obtain ⟨⟨u, answer⟩, hrun, rfl⟩ := Option.map_eq_some_iff.mp hstep
    obtain ⟨vz, hvz, hkeeps⟩ := runCommand_keeps hvy hrun hhide hwhole
    have hromy : vy.ReadOnly := by
      rw [Vrbl.ReadOnly, hflags]
      exact hrom
    exact ⟨vz, hvz, hkeeps.1.trans hflags, hkeeps.2 qs value htext hromy hat hagain⟩

def readOnlyMap : VrblShared :=
  twoFlats.insertRegion .root
    { vFlags := vrfRom, vPayload := .tree [(textOf "x", .string (some (textOf "1")))] } (textOf "gain")

def setGain (path value : String) : FlatAt × VrblCommand :=
  (⟨0, 0⟩, .set [some (textOf path), some (textOf value)])

theorem read_only_keeps_member : ∃ t log vx, (vrblMachine readOnlyMap).Runs
    (LeavesText ⟨.root, textOf "gain"⟩ [.member (textOf "x")]) t log ∧
      log = [answerFail] ∧ t.vrbl ⟨.root, textOf "gain"⟩ = some vx ∧
        vx.vPayload.reach [.member (textOf "x")] = some (.string (some (textOf "1"))) := by
  have hstep : ∃ t, (vrblMachine readOnlyMap).step readOnlyMap (setGain "gain:x" "2") = some t :=
    ⟨_, rfl⟩
  obtain ⟨t, hstep⟩ := hstep
  have hruns : (vrblMachine readOnlyMap).Runs
      (LeavesText ⟨.root, textOf "gain"⟩ [.member (textOf "x")]) t [answerFail] :=
    .step .start ⟨⟨id, id⟩, id, id⟩ hstep
  obtain ⟨vx, hvx, -, htext⟩ := (read_only_keeps readOnlyMap ⟨.root, textOf "gain"⟩ _ rfl (by decide)).2
    [.member (textOf "x")] (textOf "1") rfl t [answerFail] hruns
  exact ⟨t, [answerFail], vx, hruns, rfl, hvx, htext⟩

/-- A read only map takes new members. -/
theorem read_only_map_grows : ¬ ∀ (s : VrblShared) (ref : VrblRef) (vx : Vrbl) (t : VrblShared)
    (log : List VrblAnswer), s.vrbl ref = some vx → vx.ReadOnly →
      (vrblMachine s).Runs (fun _ _ => True) t log → t.vrbl ref = some vx := by
  intro h
  have hsame := h readOnlyMap ⟨.root, textOf "gain"⟩ _ _ _ rfl (by decide)
    (.step (a := setGain "gain:y" "2") .start trivial rfl)
  cases hsame

end Katcp
