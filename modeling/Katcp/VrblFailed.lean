import Katcp.VrblBuilt

namespace Katcp

/-- The step is to an index whose array would need a size that does not fit. -/
def wildStep : Payload → PathStep → Bool
  | .array es, .element i => es.length ≤ i && i + 1 = uintMod
  | _, _ => false

/-- The first element of a path can be made: it is the key of a map or a place in an array. -/
def headFits (path : Text) : Bool :=
  path.head? = some delimTree ||
    (path.head? = some delimArray && (writeIndex 0 path).any fun index => index + 1 ≠ uintMod)

/-- What is left of a path can be made where nothing was, with a leaf that can hold the text. -/
def pathFits : Nat → Option Text → Option Text → VrblType → Bool
  | 0, _, _, _ => false
  | _ + 1, text, none, type => type = .string || text.isNone
  | n + 1, text, some path, type =>
    match nextElementPath path with
    | none => false
    | some next => next ≠ 1 && headFits path && pathFits n text (restPath path next) type

/-- The first element of the path that is not there need not or may not be made; or the path can
be made from there on. -/
def scanKept : Nat → Payload → Option Text → Option Text → HowCreate → Option VrblType → Bool
  | 0, _, _, _, _, _ => true
  | _ + 1, _, _, none, _, _ => true
  | n + 1, py, text, some path, how, type =>
    match writeStep py path with
    | none => true
    | some (s, rest) =>
      match py.child s with
      | some ty => scanKept n ty text rest how type
      | none => how = .noCreate || type.all fun type => !wildStep py s && pathFits n text rest type

variable {n next : Nat} {py left ty : Payload} {text path rest : Option Text} {how : HowCreate} {type : Option VrblType}
  {p : Text} {s : PathStep} {t : VrblType}

namespace Payload

/-- A child that is there can be put in its place again. -/
theorem Built.place_child (h : py.Built) (hc : py.child s = some ty) : py.place s ty = py := by
  have hord := h.ordered
  cases py with
  | string u => cases s <;> rfl
  | tree m =>
    cases s with
    | element i => rfl
    | member k =>
      rw [children, List.pairwise_map] at hord
      rw [Payload.place, KeyedList.put_of_find hord hc]
  | array es =>
    cases s with
    | member k => rfl
    | element i =>
      have hget : es[i]? = some (some ty) := Option.join_eq_some_iff.mp hc
      obtain ⟨hlt, hget⟩ := List.getElem?_eq_some_iff.mp hget
      have hgrow : grow es i = es := by
        unfold grow
        rw [Nat.sub_eq_zero_of_le hlt, List.replicate_zero, List.append_nil]
      rw [Payload.place, hgrow, ← hget, List.set_getElem_self]

end Payload

/-- What a scan does with the first element of its path. -/
theorem scanPayload_deeper (hw : writeStep py p = some (s, rest)) : scanPayload (n + 1) py text (some p) how type =
    match (py.child s).or (createChild how type rest) with
    | none => .refused py
    | some ty => if wildStep py s then .wild else (scanPayload n ty text rest how type).map (py.place s) := by
  obtain ⟨next, hnext, hw⟩ := Option.bind_eq_some_iff.mp hw
  split at hw
  next => cases hw
  next hone =>
    split at hw
    next => cases hw
    next m _ =>
      obtain ⟨hhead, hw⟩ := Option.ite_none_right_eq_some.mp hw
      cases hw
      rw [scanPayload, scanTree]
      dsimp only
      rw [if_neg (not_not_intro hhead), hnext]
      dsimp only
      rw [if_neg hone]
      rfl
    next es _ =>
      obtain ⟨hhead, hw⟩ := Option.ite_none_right_eq_some.mp hw
      obtain ⟨index, hindex, hw⟩ := Option.map_eq_some_iff.mp hw
      cases hw
      rw [scanPayload, scanArray]
      dsimp only
      rw [if_neg (not_not_intro hhead), hnext]
      dsimp only
      rw [if_neg hone, hindex]
      have hwild : (es.length ≤ index ∧ index + 1 = uintMod) ↔ wildStep (.array es) (.element index) = true := by
        simp [wildStep]
      dsimp only [Payload.child]
      cases (es[index]?).join.or (createChild how type (restPath p next)) with
      | none => rfl
      | some ty => exact if_congr hwild rfl rfl

/-- A scan that finds no way into the payload leaves it alone, or has arrived. -/
theorem scanPayload_stop (hw : writeStep py p = none) : scanPayload (n + 1) py text (some p) how type = .refused py ∨
    p = [] ∧ scanPayload (n + 1) py text (some p) how type = .done (.string text) := by
  cases py with
  | string u =>
    rw [scanPayload, scanString]
    split
    next => exact .inl rfl
    next hpath =>
      split
      next => exact .inl rfl
      next => exact .inr ⟨Decidable.not_not.mp hpath, rfl⟩
  | tree m =>
    left
    rw [scanPayload, scanTree]
    dsimp only
    split
    next => rfl
    next hhead =>
      split
      next => rfl
      next next hnext =>
        split
        next => rfl
        next hone => simp [writeStep, hnext, hone, Decidable.not_not.mp hhead] at hw
  | array es =>
    left
    rw [scanPayload, scanArray]
    dsimp only
    split
    next => rfl
    next hhead =>
      split
      next => rfl
      next next hnext =>
        split
        next => rfl
        next hone =>
          split
          next => rfl
          next index hindex => simp [writeStep, hnext, hone, Decidable.not_not.mp hhead, hindex] at hw

theorem nextElementFrom_delim {i : Nat} (h : nextElementFrom p i = some next) : next = 0 ∨ i ≤ next ∧
    ∃ c q, p.drop (next - i) = c :: q ∧ isDelim c = true := by
  induction p generalizing i with
  | nil =>
    rw [nextElementFrom] at h
    split at h
    next => cases h
    next =>
      cases h
      exact .inl rfl
  | cons c p ih =>
    rw [nextElementFrom] at h
    split at h
    next hc =>
      cases h
      exact .inr ⟨Nat.le_refl _, c, p, by simp, hc.1⟩
    split at h
    next => cases h
    split at h
    next => cases h
    next =>
      rcases ih h with hz | ⟨hle, d, q, hq, hd⟩
      · exact .inl hz
      · obtain ⟨k, hk⟩ : ∃ k, next - i = k + 1 := ⟨next - i - 1, by omega⟩
        have hk' : next - (i + 1) = k := by omega
        rw [hk'] at hq
        exact .inr ⟨by omega, d, q, by rw [hk, List.drop_succ_cons]; exact hq, hd⟩

/-- What follows an element of a path begins with a delimiter. -/
theorem restPath_infer (hnext : nextElementPath p = some next) {q : Text} (hq : restPath p next = some q) :
    (inferTypePath (some q)).isSome := by
  obtain ⟨hne, hq⟩ := Option.ite_none_left_eq_some.mp hq
  cases hq
  obtain ⟨_, c, q, hq, hd⟩ := (nextElementFrom_delim hnext).resolve_left hne
  rw [Nat.sub_zero] at hq
  rw [hq]
  unfold isDelim at hd
  rw [Bool.or_eq_true, decide_eq_true_eq, decide_eq_true_eq] at hd
  unfold inferTypePath
  rcases hd with rfl | rfl <;> rfl

theorem createChild_some (hhow : how ≠ .noCreate) (rest : Option Text) :
    createChild how (some t) rest = some (.setup ((inferTypePath rest).getD t)) := by
  rw [createChild, if_neg hhow]
  rfl

theorem scanned_map_done {r : Scanned Payload} {f : Payload → Payload} :
    (∃ py, r.map f = .done py) ↔ ∃ py, r = .done py := by
  cases r with
  | done a => exact iff_of_true ⟨_, rfl⟩ ⟨_, rfl⟩
  | refused a => exact iff_of_false (fun ⟨_, h⟩ => by cases h) (fun ⟨_, h⟩ => by cases h)
  | wild => exact iff_of_false (fun ⟨_, h⟩ => by cases h) (fun ⟨_, h⟩ => by cases h)

theorem inferTypePath_head {k : VrblType} (hk : inferTypePath (some p) = some k) :
    (k = .tree ∧ p.head? = some delimTree) ∨ (k = .array ∧ p.head? = some delimArray) := by
  cases p with
  | nil => cases hk
  | cons c p =>
    change (if c = delimTree then some .tree else if c = delimArray then some .array else none) = some k at hk
    split at hk
    next hc =>
      cases hk
      exact .inl ⟨rfl, congrArg some hc⟩
    next =>
      obtain ⟨hc, hk⟩ := Option.ite_none_right_eq_some.mp hk
      cases hk
      exact .inr ⟨rfl, congrArg some hc⟩

/-- The first element of a path in a payload of its type that holds nothing yet. -/
theorem writeStep_setup {k : VrblType} (hk : inferTypePath (some p) = some k) (hnext : nextElementPath p = some next)
    (hone : next ≠ 1) : (writeStep (.setup k) p = none ∧ headFits p = false) ∨
      ∃ s, writeStep (.setup k) p = some (s, restPath p next) ∧ headFits p = !wildStep (.setup k) s := by
  have hdelim : delimTree ≠ delimArray := by decide
  unfold writeStep headFits
  rw [hnext, Option.bind_some, if_neg hone]
  rcases inferTypePath_head hk with ⟨rfl, hhead⟩ | ⟨rfl, hhead⟩
  · right
    simp [Payload.setup, hhead, wildStep]
  · cases hindex : writeIndex 0 p with
    | none =>
      left
      simp [Payload.setup, hhead, hindex, hdelim.symm]
    | some index =>
      right
      simp [Payload.setup, hhead, hindex, hdelim.symm, wildStep]

/-- Where nothing was, a scan succeeds just if the rest of the path can be made. -/
theorem pathFits_iff (hhow : how ≠ .noCreate) (hrest : ∀ q, rest = some q → (inferTypePath (some q)).isSome) :
    pathFits n text rest t = true ↔
      ∃ py, scanPayload n (.setup ((inferTypePath rest).getD t)) text rest how (some t) = .done py := by
  induction n generalizing rest with
  | zero =>
    refine iff_of_false Bool.false_ne_true ?_
    rintro ⟨_, h⟩
    cases h
  | succ n ih =>
    cases rest with
    | none =>
      change (t = .string || text.isNone) = true ↔ ∃ py, scanPayload (n + 1) (.setup t) text none how (some t) = .done py
      cases t <;> cases text <;> simp [Payload.setup, scanPayload, scanString, scanTree, scanArray]
    | some p =>
      obtain ⟨k, hk⟩ := Option.isSome_iff_exists.mp (hrest p rfl)
      have hne : p ≠ [] := by
        rintro rfl
        cases hk
      have hstop (hw : writeStep (.setup k) p = none) :
          ¬ ∃ py, scanPayload (n + 1) (.setup k) text (some p) how (some t) = .done py := by
        rcases scanPayload_stop hw with h | ⟨hnil, _⟩
        · rw [h]
          rintro ⟨_, h⟩
          cases h
        · exact absurd hnil hne
      rw [hk, Option.getD_some, pathFits]
      cases hnext : nextElementPath p with
      | none =>
        refine iff_of_false Bool.false_ne_true (hstop ?_)
        rw [writeStep, hnext, Option.bind_none]
      | some next =>
        by_cases hone : next = 1
        · refine iff_of_false (by simp [hone]) (hstop ?_)
          rw [writeStep, hnext, Option.bind_some, if_pos hone]
        · rcases writeStep_setup hk hnext hone with ⟨hw, hhead⟩ | ⟨s, hw, hhead⟩
          · exact iff_of_false (by simp [hhead]) (hstop hw)
          · rw [scanPayload_deeper hw, Payload.child_setup, Option.none_or, createChild_some hhow]
            dsimp only
            rw [hhead]
            cases wildStep (.setup k) s with
            | true =>
              refine iff_of_false (by simp) ?_
              rintro ⟨_, h⟩
              cases h
            | false =>
              rw [if_neg (by simp), scanned_map_done, ← ih fun q hq => restPath_infer hnext hq]
              simp [hone]

/-- A scan that fails leaves the payload as it was, and it does not write behind an array. -/
def Unharmed (py : Payload) (r : Scanned Payload) : Prop := (∀ left, r = .refused left → left = py) ∧ r ≠ .wild

theorem Unharmed.done (py a : Payload) : Unharmed py (.done a) :=
  ⟨fun _ h => (by cases h), fun h => (by cases h)⟩

theorem Unharmed.map_place {r : Scanned Payload} (hb : py.Built) (hc : py.child s = some ty) :
    Unharmed py (r.map (py.place s)) ↔ Unharmed ty r := by
  have hsame := hb.place_child hc
  cases r with
  | done a => exact iff_of_true (.done _ _) (.done _ _)
  | wild => exact iff_of_false (fun h => h.2 rfl) fun h => h.2 rfl
  | refused left =>
    constructor
    · intro h
      refine ⟨fun left' hleft => ?_, fun h => (by cases h)⟩
      cases hleft
      have hplace := h.1 _ rfl
      have hchild := Payload.child_place_self (c := left) (Payload.suits_of_child hc)
      rw [hplace, hc] at hchild
      exact (Option.some.inj hchild).symm
    · intro h
      refine ⟨fun left' hleft => ?_, fun h => (by cases h)⟩
      cases hleft
      rw [h.1 left rfl, hsame]

/-- An element that was made for a scan that fails stays. -/
theorem unharmed_place_iff {r : Scanned Payload} (hc : py.child s = none) (hsuits : py.Suits s) :
    Unharmed py (r.map (py.place s)) ↔ ∃ ty, r = .done ty := by
  cases r with
  | done a => exact iff_of_true (.done _ _) ⟨a, rfl⟩
  | wild => exact iff_of_false (fun h => h.2 rfl) fun ⟨_, h⟩ => by cases h
  | refused left =>
    refine iff_of_false (fun h => ?_) fun ⟨_, h⟩ => by cases h
    have hchild := Payload.child_place_self (c := left) hsuits
    rw [h.1 _ rfl, hc] at hchild
    cases hchild

theorem wildStep_child (hc : py.child s = some ty) : wildStep py s = false := by
  cases py with
  | string u => rfl
  | tree m => rfl
  | array es =>
    cases s with
    | member k => rfl
    | element i =>
      obtain ⟨hlt, _⟩ := List.getElem?_eq_some_iff.mp (Option.join_eq_some_iff.mp hc)
      simp [wildStep, hlt]

theorem writeStep_infer (h : (inferTypePath (some p)).isNone) : writeStep py p = none := by
  have hhead (c : Byte) (hp : p.head? = some c) : c ≠ delimTree ∧ c ≠ delimArray := by
    rw [inferTypePath, Option.bind_some, hp] at h
    dsimp only at h
    split at h
    next => cases h
    next hne =>
      split at h
      next => cases h
      next hne' => exact ⟨hne, hne'⟩
  cases hw : writeStep py p with
  | none => rfl
  | some step =>
    exfalso
    obtain ⟨next, _, hw⟩ := Option.bind_eq_some_iff.mp hw
    split at hw
    next => cases hw
    split at hw
    next => cases hw
    next => exact (hhead _ (Option.ite_none_right_eq_some.mp hw).1).1 rfl
    next => exact (hhead _ (Option.ite_none_right_eq_some.mp hw).1).2 rfl

theorem unharmed_refused (py : Payload) : Unharmed py (.refused py) := by
  refine ⟨fun left h => ?_, fun h => (by cases h)⟩
  cases h
  rfl

theorem unharmed_nopath (n : Nat) (py : Payload) (text : Option Text) (how : HowCreate) (type : Option VrblType) :
    Unharmed py (scanPayload (n + 1) py text none how type) := by
  cases py with
  | string u =>
    rw [scanPayload, scanString, if_neg (by simp)]
    split
    next => exact unharmed_refused _
    next => exact .done _ _
  | tree m =>
    rw [scanPayload, scanTree]
    split
    next => exact .done _ _
    next => exact unharmed_refused _
  | array es =>
    rw [scanPayload, scanArray]
    split
    next => exact .done _ _
    next => exact unharmed_refused _

/-- A scan of a payload does no harm if it fails, just where it is sure to make nothing in vain. -/
theorem scanPayload_unharmed_iff (hb : py.Built) :
    Unharmed py (scanPayload n py text path how type) ↔ scanKept n py text path how type = true := by
  induction n generalizing py path with
  | zero => exact iff_of_true (unharmed_refused py) rfl
  | succ n ih =>
    cases path with
    | none => exact iff_of_true (unharmed_nopath n py text how type) rfl
    | some p =>
      rw [scanKept]
      cases hw : writeStep py p with
      | none =>
        refine iff_of_true ?_ rfl
        rcases scanPayload_stop hw with h | ⟨_, h⟩
        · rw [h]
          exact unharmed_refused py
        · rw [h]
          exact .done _ _
      | some step =>
        obtain ⟨s, rest⟩ := step
        obtain ⟨next, hnext, rfl⟩ := writeStep_rest hw
        rw [scanPayload_deeper hw]
        dsimp only
        cases hc : py.child s with
        | some ty =>
          rw [Option.some_or]
          dsimp only
          rw [if_neg (by simp [wildStep_child hc]), Unharmed.map_place hb hc, ih (hb.child hc).2]
        | none =>
          rw [Option.none_or]
          dsimp only
          by_cases hhow : how = .noCreate
          · rw [createChild, if_pos hhow]
            exact iff_of_true (unharmed_refused py) (by simp [hhow])
          · cases type with
            | none =>
              rw [createChild, if_neg hhow]
              exact iff_of_true (unharmed_refused py) (by simp)
            | some t =>
              rw [createChild_some hhow]
              dsimp only
              cases hwild : wildStep py s with
              | true => exact iff_of_false (fun h => h.2 rfl) (by simp [hhow])
              | false =>
                rw [if_neg (by simp), unharmed_place_iff hc (suits_of_writeStep hw),
                  ← pathFits_iff hhow fun q hq => restPath_infer hnext hq]
                simp [hhow]

/-- A failed update of a variable changes nothing just where it is sure to make nothing in vain:
as far as the path leads to what is there, or to nothing that may be made, or on from there by
elements that can all be made. -/
theorem failed_scan_unchanged (vt : Vrbl) (text path : Option Text) (how : HowCreate) (type : Option VrblType)
    (hb : vt.vPayload.Built) :
    ((∀ left, scanVrbl (some vt) text path how type = .refused left → left = some vt) ∧
      scanVrbl (some vt) text path how type ≠ .wild) ↔
      scanKept (pathFuel path) vt.vPayload text path how type = true := by
  rw [← scanPayload_unharmed_iff hb]
  by_cases hpath : path.isSome ∧ (inferTypePath path).isNone
  · have hrefused : scanVrbl (some vt) text path how type = .refused (some vt) := if_pos hpath
    rw [hrefused]
    refine iff_of_true ⟨fun left h => by cases h; rfl, fun h => (by cases h)⟩ ?_
    obtain ⟨p, rfl⟩ := Option.isSome_iff_exists.mp hpath.1
    rw [scanPayload_unharmed_iff hb, pathFuel, scanKept, writeStep_infer hpath.2]
  · have hscan : scanVrbl (some vt) text path how type =
        (scanPayload (pathFuel path) vt.vPayload text path how type).map fun py => some { vt with vPayload := py } :=
      if_neg hpath
    rw [hscan]
    cases scanPayload (pathFuel path) vt.vPayload text path how type with
    | done a => refine iff_of_true ⟨fun _ h => (by cases h), fun h => (by cases h)⟩ (.done _ _)
    | wild => exact iff_of_false (fun h => h.2 rfl) fun h => h.2 rfl
    | refused left =>
      constructor
      · intro h
        refine ⟨fun left' hleft => ?_, fun h => (by cases h)⟩
        cases hleft
        exact congrArg Vrbl.vPayload (Option.some.inj (h.1 _ rfl))
      · intro h
        refine ⟨fun left' hleft => ?_, fun h => (by cases h)⟩
        cases hleft
        rw [h.1 left rfl]

/-- A text where the path wants a map. -/
theorem failed_scan_unchanged_text :
    scanVrbl (some { vPayload := .string (some (textOf "old")) }) (some (textOf "new")) (some (textOf ":a:b")) .mayCreate
        (some .string) = .refused (some { vPayload := .string (some (textOf "old")) }) ∧
      ∀ left, scanVrbl (some { vPayload := .string (some (textOf "old")) }) (some (textOf "new")) (some (textOf ":a:b"))
        .mayCreate (some .string) = .refused left → left = some { vPayload := .string (some (textOf "old")) } :=
  ⟨rfl, ((failed_scan_unchanged { vPayload := .string (some (textOf "old")) } (some (textOf "new"))
    (some (textOf ":a:b")) .mayCreate (some .string) (Payload.built_string _)).mpr rfl).1⟩

/-- A path that ends in a delimiter, and one that goes on behind a place of an array. -/
theorem failed_scan_creates :
    (∃ left, scanVrbl (some { vPayload := .tree [] }) (some (textOf "v")) (some (textOf ":a:")) .mayCreate (some .string) =
      .refused (some left) ∧ (left.vPayload.child (.member (textOf "a"))).isSome) ∧
    ∃ es, scanVrbl (some { vPayload := .array [] }) (some (textOf "v")) (some (textOf "#2:")) .mayCreate (some .string) =
      .refused (some { vPayload := .array es }) ∧ es.length = 3 :=
  ⟨⟨_, rfl, rfl⟩, _, rfl, rfl⟩

end Katcp
