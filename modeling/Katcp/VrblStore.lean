import Katcp.VrblPath
import Mathlib.Data.List.Infix

namespace Katcp

section

variable {n : Nat} {py py' ty : Payload} {text path rest : Option Text} {how : HowCreate}
  {type : Option VrblType} {p : Text} {s : PathStep} {ps qs : List PathStep}

/-- The first element of a path as it is written, which depends on the size of an array. -/
def writeStep (py : Payload) (path : Text) : Option (PathStep × Option Text) :=
  (nextElementPath path).bind fun next =>
    if next = 1 then none
    else match py with
    | .string _ => none
    | .tree _ =>
      if path.head? = some delimTree then some (.member (memberName path next), restPath path next)
      else none
    | .array es =>
      if path.head? = some delimArray then
        (writeIndex es.length path).map fun index => (.element index, restPath path next)
      else none

/-- The position that a scan of the path writes to. -/
def target : Nat → Payload → Option Text → HowCreate → Option VrblType → Option (List PathStep)
  | 0, _, _, _, _ => none
  | _ + 1, _, none, _, _ => some []
  | _ + 1, _, some [], _, _ => some []
  | n + 1, py, some (c :: path), how, type =>
    (writeStep py (c :: path)).bind fun (s, rest) =>
      ((py.child s).or (createChild how type rest)).bind fun ty =>
        (target n ty rest how type).map (s :: ·)

/-- What one level of a scan can do. -/
inductive ScanStep (n : Nat) (py : Payload) (text path : Option Text) (how : HowCreate)
    (type : Option VrblType) : Scanned Payload → Prop
  | refused : ScanStep n py text path how type (.refused py)
  | wild : ScanStep n py text path how type .wild
  | leaf {u : Option Text} : py = .string u → path.getD [] = [] →
      ¬ (how = .mustCreate ∧ u.isSome) → ScanStep n py text path how type (.done (.string text))
  | empty : path = none → text = none → ScanStep n py text path how type (.done py)
  | deeper {p : Text} {s : PathStep} {rest : Option Text} {ty : Payload} : path = some p →
      writeStep py p = some (s, rest) → (py.child s).or (createChild how type rest) = some ty →
      ScanStep n py text path how type ((scanPayload n ty text rest how type).map (py.place s))

theorem scanTree_step (m : List (Text × Payload)) : ScanStep n (.tree m) text path how type
    (scanTree (fun ty rest => scanPayload n ty text rest how type) m text path how type) := by
  unfold scanTree
  split
  next =>
    split
    next h => exact .empty rfl h
    next => exact .refused
  next p =>
    split
    next => exact .refused
    next hhead =>
      split
      next => exact .refused
      next next hnext =>
        split
        next => exact .refused
        next hone =>
          dsimp only
          split
          next => exact .refused
          next ty hty =>
            refine @ScanStep.deeper _ _ _ _ _ _ _ (.member (memberName p next)) (restPath p next) _ rfl ?_ hty
            have hp : p.head? = some delimTree := Decidable.not_not.mp hhead
            simp [writeStep, hnext, hone, hp]

theorem scanArray_step (es : List (Option Payload)) : ScanStep n (.array es) text path how type
    (scanArray (fun ty rest => scanPayload n ty text rest how type) es text path how type) := by
  unfold scanArray
  split
  next =>
    split
    next h => exact .empty rfl h
    next => exact .refused
  next p =>
    split
    next => exact .refused
    next hhead =>
      split
      next => exact .refused
      next next hnext =>
        split
        next => exact .refused
        next hone =>
          split
          next => exact .refused
          next index hindex =>
            dsimp only
            split
            next => exact .refused
            next ty hty =>
              split
              next => exact .wild
              next =>
                refine @ScanStep.deeper _ _ _ _ _ _ _ (.element index) (restPath p next) _ rfl ?_ hty
                have hp : p.head? = some delimArray := Decidable.not_not.mp hhead
                simp [writeStep, hnext, hone, hp, hindex]

theorem scanPayload_step :
    ScanStep n py text path how type (scanPayload (n + 1) py text path how type) := by
  cases py with
  | string u =>
    rw [scanPayload, scanString]
    split
    next => exact .refused
    next hpath =>
      split
      next => exact .refused
      next hmust => exact .leaf rfl (Decidable.not_not.mp hpath) hmust
  | tree m => exact scanTree_step m
  | array es => exact scanArray_step es

theorem suits_of_writeStep (h : writeStep py p = some (s, rest)) : py.Suits s := by
  obtain ⟨next, _, h⟩ := Option.bind_eq_some_iff.mp h
  split at h
  next => cases h
  split at h
  next => cases h
  next =>
    split at h
    next => cases h; trivial
    next => cases h
  next =>
    split at h
    next =>
      obtain ⟨i, _, h⟩ := Option.map_eq_some_iff.mp h
      cases h
      trivial
    next => cases h

theorem target_deeper (hstep : writeStep py p = some (s, rest))
    (hty : (py.child s).or (createChild how type rest) = some ty) :
    target (n + 1) py (some p) how type = (target n ty rest how type).map (s :: ·) := by
  cases p with
  | nil => cases hstep
  | cons c p =>
    rw [target, hstep, Option.bind_some]
    dsimp only
    rw [hty, Option.bind_some]

theorem target_of_leaf (h : path.getD [] = []) : target (n + 1) py path how type = some [] := by
  rcases path with _ | _ | ⟨c, p⟩
  · rfl
  · rfl
  · cases h

/-- What a child that was there or was made for a scan holds is what the payload held there. -/
theorem reach_child (hty : (py.child s).or (createChild how type rest) = some ty) (hqs : qs ≠ []) :
    ty.reach qs = py.reach (s :: qs) := by
  rw [Payload.reach]
  cases hc : py.child s with
  | some c =>
    rw [hc] at hty
    cases hty
    rfl
  | none =>
    rw [hc, Option.none_or, createChild] at hty
    split at hty
    next => cases hty
    next =>
      obtain ⟨type, _, hty⟩ := Option.map_eq_some_iff.mp hty
      cases hty
      cases qs with
      | nil => exact absurd rfl hqs
      | cons s' qs => rw [Payload.reach_setup, Option.bind_none]

theorem map_eq_done {f : Payload → Payload} {r : Scanned Payload} (h : r.map f = .done py') :
    ∃ c, r = .done c ∧ py' = f c := by
  cases r <;> cases h
  exact ⟨_, rfl, rfl⟩

/-- A scan that succeeds with a text puts it at its target, and changes no position that is
neither above it nor below. -/
theorem scan_done (h : scanPayload n py (some p) path how type = .done py') :
    ∃ ps, target n py path how type = some ps ∧ py'.reach ps = some (.string (some p)) ∧
      ∀ qs, ¬ qs <+: ps → ¬ ps <+: qs → py'.reach qs = py.reach qs := by
  induction n generalizing py path py' with
  | zero => cases h
  | succ n ih =>
    generalize hr : scanPayload (n + 1) py (some p) path how type = r at h
    have hstep : ScanStep n py (some p) path how type (scanPayload (n + 1) py (some p) path how type) :=
      scanPayload_step
    rw [hr] at hstep
    cases hstep with
    | refused => cases h
    | wild => cases h
    | leaf _ hpath =>
      cases h
      exact ⟨[], target_of_leaf hpath, rfl, fun qs _ hne => absurd (List.nil_prefix) hne⟩
    | empty _ htext => cases htext
    | @deeper q s rest ty hpath hw hty =>
      subst hpath
      obtain ⟨c, hc, rfl⟩ := map_eq_done h
      obtain ⟨ps, htarget, hreach, hframe⟩ := ih hc
      have hsuits := suits_of_writeStep hw
      refine ⟨s :: ps, by rw [target_deeper hw hty, htarget]; rfl, ?_, ?_⟩
      · rw [Payload.reach_place_cons hsuits, hreach]
      · intro qs hle hge
        cases qs with
        | nil => exact absurd List.nil_prefix hle
        | cons s' qs =>
          by_cases hs : s' = s
          · subst hs
            have hle : ¬ qs <+: ps := fun h => hle (List.cons_prefix_cons.mpr ⟨rfl, h⟩)
            have hge : ¬ ps <+: qs := fun h => hge (List.cons_prefix_cons.mpr ⟨rfl, h⟩)
            have hqs : qs ≠ [] := by
              rintro rfl
              exact hle List.nil_prefix
            rw [Payload.reach_place_cons hsuits, hframe qs hle hge, reach_child hty hqs]
          · exact Payload.reach_place_of_ne hs

section

variable {m : Nat}

theorem restPath_length {next : Nat} (h : nextElementPath p = some next) :
    ((restPath p next).getD []).length < p.length := by
  cases p with
  | nil => cases h
  | cons c p =>
    rw [restPath]
    split
    next => exact Nat.zero_lt_succ _
    next hnext =>
      rw [Option.getD_some, List.length_drop]
      exact Nat.sub_lt (Nat.zero_lt_succ _) (Nat.pos_of_ne_zero hnext)

theorem scanTree_congr {deeper deeper' : Payload → Option Text → Scanned Payload}
    {es : List (Text × Payload)} (h : ∀ ty rest, (rest.getD []).length < (path.getD []).length →
      deeper ty rest = deeper' ty rest) :
    scanTree deeper es text path how type = scanTree deeper' es text path how type := by
  unfold scanTree
  cases path with
  | none => rfl
  | some p =>
    dsimp only
    split
    next => rfl
    split
    next => rfl
    next next hnext =>
      split
      next => rfl
      split
      next => rfl
      next ty _ => rw [h ty (restPath p next) (restPath_length hnext)]

theorem scanArray_congr {deeper deeper' : Payload → Option Text → Scanned Payload}
    {es : List (Option Payload)} (h : ∀ ty rest, (rest.getD []).length < (path.getD []).length →
      deeper ty rest = deeper' ty rest) :
    scanArray deeper es text path how type = scanArray deeper' es text path how type := by
  unfold scanArray
  cases path with
  | none => rfl
  | some p =>
    dsimp only
    split
    next => rfl
    split
    next => rfl
    next next hnext =>
      split
      next => rfl
      split
      next => rfl
      next index _ =>
        split
        next => rfl
        next ty _ => rw [h ty (restPath p next) (restPath_length hnext)]

/-- The recursion of a scan never ends early. -/
theorem scanPayload_fuel (hn : (path.getD []).length < n) (hm : (path.getD []).length < m) :
    scanPayload n py text path how type = scanPayload m py text path how type := by
  induction n generalizing m py path with
  | zero => exact absurd hn (Nat.not_lt_zero _)
  | succ n ih =>
    obtain ⟨m, rfl⟩ := Nat.exists_eq_succ_of_ne_zero (Nat.ne_zero_of_lt hm)
    have hdeeper : ∀ ty rest, (rest.getD []).length < (path.getD []).length →
        scanPayload n ty text rest how type = scanPayload m ty text rest how type :=
      fun ty rest hlt => ih (by omega) (by omega)
    cases py with
    | string u => rfl
    | tree es => exact scanTree_congr hdeeper
    | array es => exact scanArray_congr hdeeper

theorem readStep_rest {step : PathStep × Option Text} (h : readStep p = some step) :
    ∃ next, nextElementPath p = some next ∧ step.2 = restPath p next := by
  obtain ⟨next, hnext, h⟩ := Option.bind_eq_some_iff.mp h
  refine ⟨next, hnext, ?_⟩
  split at h
  next => cases h
  split at h
  next => cases h; rfl
  split at h
  next =>
    obtain ⟨index, _, h⟩ := Option.map_eq_some_iff.mp h
    cases h
    rfl
  next => cases h

theorem readSteps_fuel (hn : (path.getD []).length < n) (hm : (path.getD []).length < m) :
    readSteps n path = readSteps m path := by
  induction n generalizing m path with
  | zero => exact absurd hn (Nat.not_lt_zero _)
  | succ n ih =>
    obtain ⟨m, rfl⟩ := Nat.exists_eq_succ_of_ne_zero (Nat.ne_zero_of_lt hm)
    rcases path with _ | _ | ⟨c, p⟩
    · rfl
    · rfl
    · rw [readSteps, readSteps]
      cases hstep : readStep (c :: p) with
      | none => rfl
      | some step =>
        obtain ⟨next, hnext, hrest⟩ := readStep_rest hstep
        have hlt := restPath_length hnext
        rw [← hrest] at hlt
        simp only [Option.getD_some] at hn hm
        simp only [Option.bind_some]
        rw [ih (m := m) (by omega) (by omega)]

/-- Reading a path never ends early. -/
theorem elementPayload_fuel (hn : (path.getD []).length < n) (hm : (path.getD []).length < m) :
    elementPayload n py path = elementPayload m py path := by
  rw [elementPayload_eq, elementPayload_eq, readSteps_fuel hn hm]

end

end

section

variable {n : Nat} {py py' ty : Payload} {vx : Option Vrbl} {vt : Vrbl} {path rest : Option Text}
  {how : HowCreate} {type : Option VrblType} {p text : Text} {s : PathStep} {ps : List PathStep}

/-- Behind no array delimiter stands the spacer, or a number with a letter right behind it. -/
def WellIndexed (path : Text) : Prop :=
  ∀ rest ∈ path.tails, rest.head? = some delimArray →
    rest.tail.head? ≠ some delimSpacer ∧ ¬ (strtoul rest.tail).2.head?.any isAlpha

instance (path : Text) : Decidable (WellIndexed path) :=
  inferInstanceAs (Decidable (∀ rest ∈ path.tails, _))

theorem WellIndexed.suffix (h : WellIndexed p) (hs : text <:+ p) : WellIndexed text :=
  fun rest hrest => h rest ((List.mem_tails _ _).mpr (((List.mem_tails _ _).mp hrest).trans hs))

theorem writeStep_rest (h : writeStep py p = some (s, rest)) :
    ∃ next, nextElementPath p = some next ∧ rest = restPath p next := by
  obtain ⟨next, hnext, h⟩ := Option.bind_eq_some_iff.mp h
  refine ⟨next, hnext, ?_⟩
  split at h
  next => cases h
  split at h
  next => cases h
  next =>
    split at h
    next => cases h; rfl
    next => cases h
  next =>
    split at h
    next =>
      obtain ⟨index, _, h⟩ := Option.map_eq_some_iff.mp h
      cases h
      rfl
    next => cases h

theorem readIndex_of_writeIndex {size index : Nat} (hp : p.head? = some delimArray)
    (hwell : WellIndexed p) (h : writeIndex size p = some index) : readIndex p = some index := by
  obtain ⟨hspacer, halpha⟩ := hwell p ((List.mem_tails _ _).mpr List.suffix_rfl) hp
  rw [writeIndex, if_neg hspacer] at h
  obtain ⟨⟨i, behind⟩, hindex, rfl⟩ := Option.map_eq_some_iff.mp h
  have hbehind : behind = (strtoul p.tail).2 := by
    unfold pathIndex at hindex
    dsimp only at hindex
    split at hindex
    next => cases hindex
    next => cases hindex; rfl
  rw [readIndex, hindex, Option.bind_some]
  dsimp only
  rw [if_neg (hbehind ▸ halpha)]

theorem readStep_of_writeStep (hwell : WellIndexed p) (h : writeStep py p = some (s, rest)) :
    readStep p = some (s, rest) := by
  obtain ⟨next, hnext, h⟩ := Option.bind_eq_some_iff.mp h
  rw [readStep, hnext, Option.bind_some]
  split at h
  next => cases h
  next hone =>
    rw [if_neg hone]
    cases py with
    | string u => cases h
    | tree m =>
      dsimp only at h
      split at h
      next hp => rwa [if_pos hp]
      next => cases h
    | array es =>
      dsimp only at h
      split at h
      next hp =>
        obtain ⟨index, hindex, h⟩ := Option.map_eq_some_iff.mp h
        have hne : p.head? ≠ some delimTree := by
          rw [hp]
          decide
        rw [if_neg hne, if_pos hp, readIndex_of_writeIndex hp hwell hindex, ← h]
        rfl
      next => cases h

theorem readSteps_of_target (hwell : WellIndexed (path.getD []))
    (h : target n py path how type = some ps) : readSteps n path = some ps := by
  induction n generalizing py path ps with
  | zero => cases h
  | succ n ih =>
    rcases path with _ | _ | ⟨c, p⟩
    · exact h
    · exact h
    · obtain ⟨⟨s, rest⟩, hw, h⟩ := Option.bind_eq_some_iff.mp h
      obtain ⟨ty, _, h⟩ := Option.bind_eq_some_iff.mp h
      obtain ⟨qs, hqs, h⟩ := Option.map_eq_some_iff.mp h
      have hrest : WellIndexed (rest.getD []) := by
        obtain ⟨next, _, rfl⟩ := writeStep_rest hw
        rw [restPath]
        split
        next => exact hwell.suffix List.nil_suffix
        next => exact hwell.suffix (List.drop_suffix _ _)
      have hread : readStep (c :: p) = some (s, rest) := readStep_of_writeStep hwell hw
      rw [readSteps, hread, Option.bind_some]
      dsimp only
      rw [ih hrest hqs]
      exact congrArg some h

/-- The position that `scan_vrbl_katcp` writes to. -/
def scanTarget (vx : Option Vrbl) (path : Option Text) (how : HowCreate) (type : Option VrblType) :
    Option (List PathStep) :=
  ((vx.map Vrbl.vPayload).or
    ((if path.isSome then inferTypePath path else type).map Payload.setup)).bind fun py =>
      target (pathFuel path) py path how type

theorem pathSuffix_of_infer (h : ¬ (path.isSome ∧ (inferTypePath path).isNone)) :
    pathSuffix path = path := by
  cases path with
  | none => rfl
  | some p =>
    have hp : (inferTypePath (some p)).isSome := by
      cases hi : inferTypePath (some p) with
      | none => exact absurd ⟨rfl, by rw [hi]; rfl⟩ h
      | some type => rfl
    rw [pathSuffix, if_pos hp]

/-- A scan that succeeds is one of the payload, the variable's own or a new one. -/
theorem scanVrbl_done (h : scanVrbl vx (some text) path how type = .done (some vt)) :
    pathSuffix path = path ∧ ∃ py, (∀ v, vx = some v → v.vPayload = py) ∧
      scanTarget vx path how type = target (pathFuel path) py path how type ∧
      scanPayload (pathFuel path) py (some text) path how type = .done vt.vPayload := by
  unfold scanVrbl at h
  split at h
  next => cases h
  next hinfer =>
    refine ⟨pathSuffix_of_infer hinfer, ?_⟩
    split at h
    next v =>
      refine ⟨v.vPayload, fun _ hv => by cases hv; rfl, rfl, ?_⟩
      generalize scanPayload (pathFuel path) v.vPayload (some text) path how type = r at h ⊢
      cases r <;> cases h
      rfl
    next =>
      split at h
      next => cases h
      split at h
      next => cases h
      next infer htype =>
        refine ⟨.setup infer, (nomatch ·, ·), by rw [scanTarget, htype]; rfl, ?_⟩
        split at h
        next hpy =>
          cases h
          exact hpy
        next => cases h
        next => cases h

theorem scan_vrbl_stores (vx : Option Vrbl) (text : Text) (path : Option Text) (how : HowCreate)
    (type : Option VrblType) (vt : Vrbl)
    (h : scanVrbl vx (some text) path how type = .done (some vt)) :
    (WellIndexed (path.getD []) → findPayload vt path = some (.string (some text))) ∧
    ∃ ps, scanTarget vx path how type = some ps ∧
      (WellIndexed (path.getD []) → pathSteps path = some ps) ∧
      vt.vPayload.reach ps = some (.string (some text)) ∧
      ∀ v, vx = some v → ∀ q, (∀ qs, pathSteps q = some qs → ¬ qs <+: ps ∧ ¬ ps <+: qs) →
        findPayload vt q = findPayload v q := by
  obtain ⟨hsuffix, py, hpy, htarget, hscan⟩ := scanVrbl_done h
  obtain ⟨ps, hps, hreach, hframe⟩ := scan_done hscan
  have hsteps : WellIndexed (path.getD []) → pathSteps path = some ps := by
    intro hwell
    rw [pathSteps, hsuffix]
    exact readSteps_of_target hwell hps
  refine ⟨fun hwell => ?_, ps, htarget.trans hps, hsteps, hreach, ?_⟩
  · rw [findPayload_eq, hsteps hwell]
    exact hreach
  · intro v hv q hq
    rw [findPayload_eq, findPayload_eq, hpy v hv]
    cases hqs : pathSteps q with
    | none => rfl
    | some qs => exact hframe qs (hq qs hqs).1 (hq qs hqs).2

theorem scan_vrbl_stores_element :
    findPayload { vPayload := .tree [(textOf "gain", .array [some (.string (some (textOf "2")))])] }
      (some (textOf ":gain#0")) = some (.string (some (textOf "2"))) :=
  (scan_vrbl_stores (some { vPayload := .tree [] }) (textOf "2") (some (textOf ":gain#0")) .mayCreate
    (some .string) _ rfl).1 (by decide)

/-- What the spacer appends is not found at the spacer. -/
theorem appended_is_not_found : ¬ ∀ (vx : Vrbl) (text path : Text) (how : HowCreate)
    (type : Option VrblType) (vt : Vrbl),
    scanVrbl (some vx) (some text) (some path) how type = .done (some vt) →
      findPayload vt (some path) = some (.string (some text)) := by
  intro h
  have hscan : scanVrbl (some { vPayload := .array [] }) (some (textOf "2")) (some (textOf "#-"))
      .mayCreate (some .string) =
        .done (some { vPayload := .array [some (.string (some (textOf "2")))] }) := rfl
  have hfind : findPayload { vPayload := .array [some (.string (some (textOf "2")))] }
      (some (textOf "#-")) = none := rfl
  cases hfind.symm.trans (h _ _ _ _ _ _ hscan)

end

end Katcp
