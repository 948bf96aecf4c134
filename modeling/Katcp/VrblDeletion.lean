import Katcp.VrblDisplay
import Katcp.VrblReadOnly

namespace Katcp

section

variable {n : Nat} {py py' c ty : Payload} {p name path : Text} {s : PathStep} {ps qs : List PathStep}

namespace Payload

/-- What a payload is apart from what it holds: its type and its own text. -/
def shape : Payload → VrblType × Option Text
  | .string u => (.string, u)
  | .tree _ => (.tree, none)
  | .array _ => (.array, none)

theorem shape_place (py : Payload) (s : PathStep) (c : Payload) : (py.place s c).shape = py.shape := by
  cases py <;> cases s <;> rfl

theorem shape_cut (py : Payload) (s : PathStep) : (py.cut s).shape = py.shape := by
  cases py <;> cases s <;> rfl

theorem child_unsuited (h : ¬ py.Suits s) : py.child s = none := by
  cases hc : py.child s with
  | none => rfl
  | some c => exact absurd (suits_of_child hc) h

end Payload

/-- Every payload that is neither at the path's position nor below it is there as before. -/
def KeepsRest (path : Text) (py py' : Payload) : Prop :=
  ∀ qs, (∀ ps, pathSteps (some path) = some ps → ¬ ps <+: qs) →
    (py'.reach qs).map Payload.shape = (py.reach qs).map Payload.shape

theorem excise_keeps_rest (h : excisePayload n py p true = some py') (hn : p.length < n)
    (hqs : ∀ ps, readSteps n (some p) = some ps → ¬ ps <+: qs) :
    (py'.reach qs).map Payload.shape = (py.reach qs).map Payload.shape := by
  induction n generalizing py p py' qs with
  | zero => cases h
  | succ n ih =>
    cases excisePayload_step h with
    | same => rfl
    | @cut s hstep =>
      cases qs with
      | nil => exact congrArg some (Payload.shape_cut py s)
      | cons s' qs =>
        by_cases hs : s' = s
        · subst hs
          obtain ⟨n, rfl⟩ : ∃ m, n = m + 1 := by
            cases p with
            | nil => cases hstep
            | cons c p => exact ⟨n - 1, by simp at hn; omega⟩
          refine absurd ?_ (hqs [s'] (by rw [readSteps_step hstep]; rfl))
          exact List.cons_prefix_cons.mpr ⟨rfl, List.nil_prefix⟩
        · rw [Payload.reach, Payload.child_cut_of_ne hs, Payload.reach]
    | @deeper s path ty c hstep hty hc =>
      cases qs with
      | nil => exact congrArg some (Payload.shape_place py s c)
      | cons s' qs =>
        by_cases hs : s' = s
        · subst hs
          have hreach : py.reach (s' :: qs) = ty.reach qs := by
            rw [Payload.reach, hty, Option.bind_some]
          rw [Payload.reach_place_cons (Payload.suits_of_child hty), hreach]
          obtain ⟨next, hnext, hrest⟩ := readStep_rest hstep
          have hlt := restPath_length hnext
          rw [← hrest] at hlt
          refine ih hc (by simp at hlt; omega) fun ps hps hle => ?_
          refine hqs (s' :: ps) ?_ (List.cons_prefix_cons.mpr ⟨rfl, hle⟩)
          rw [readSteps_step hstep, hps]
          rfl
        · rw [Payload.reach_place_of_ne hs]

/-- One level of a deletion that takes what is not there for deleted. -/
def exciseAt (deeper : Payload → Text → Option Payload) (py : Payload) (s : PathStep) (rest : Option Text) :
    Option Payload :=
  match py.child s, rest with
  | none, _ => some py
  | some ty, some rest => (deeper ty rest).map (py.place s)
  | some _, none => some (py.cut s)

theorem exciseAt_missing {deeper : Payload → Text → Option Payload} {rest : Option Text} (h : py.child s = none) :
    exciseAt deeper py s rest = some py := by
  simp only [exciseAt, h]

theorem exciseAt_last {deeper : Payload → Text → Option Payload} (h : py.child s = some ty) :
    exciseAt deeper py s none = some (py.cut s) := by
  simp only [exciseAt, h]

theorem exciseAt_deeper {deeper : Payload → Text → Option Payload} {rest : Text} (h : py.child s = some ty) :
    exciseAt deeper py s (some rest) = (deeper ty rest).map (py.place s) := by
  simp only [exciseAt, h]

theorem exciseTree_at {m : List (Text × Payload)} {rest : Option Text} (h : readStep p = some (s, rest)) :
    exciseTree (excisePayload n) m p true = if p.head? = some delimTree then
      exciseAt (fun ty rest => excisePayload n ty rest true) (.tree m) s rest else none := by
  obtain ⟨next, hnext, h⟩ := Option.bind_eq_some_iff.mp h
  have hone : next ≠ 1 := nextElementFrom_ne_one hnext
  rw [if_neg hone] at h
  unfold exciseTree
  by_cases htree : p.head? = some delimTree
  · rw [if_pos htree] at h
    cases h
    rw [if_neg (not_not_intro htree), if_pos htree, hnext, Option.bind_some, if_neg hone]
    dsimp only
    have hchild : (Payload.tree m).child (.member (memberName p next)) = KeyedList.find strcmp (memberName p next) m := rfl
    cases hfind : KeyedList.find strcmp (memberName p next) m with
    | none => rw [exciseAt_missing (hchild.trans hfind)]; rfl
    | some ty =>
      cases restPath p next with
      | none => rw [exciseAt_last (hchild.trans hfind)]; rfl
      | some rest => rw [exciseAt_deeper (hchild.trans hfind)]; rfl
  · rw [if_pos htree, if_neg htree]

theorem exciseArray_at {es : List (Option Payload)} {rest : Option Text} (h : readStep p = some (s, rest)) :
    exciseArray (excisePayload n) es p true = if p.head? = some delimArray then
      exciseAt (fun ty rest => excisePayload n ty rest true) (.array es) s rest else none := by
  obtain ⟨next, hnext, h⟩ := Option.bind_eq_some_iff.mp h
  rw [if_neg (nextElementFrom_ne_one hnext)] at h
  unfold exciseArray
  by_cases harray : p.head? = some delimArray
  · have htree : p.head? ≠ some delimTree := by
      rw [harray]
      decide
    rw [if_neg htree, if_pos harray] at h
    obtain ⟨index, hindex, h⟩ := Option.map_eq_some_iff.mp h
    cases h
    rw [if_neg (not_not_intro harray), if_pos harray, hnext, Option.bind_some, hindex, Option.bind_some]
    have hchild : (Payload.array es).child (.element index) = (es[index]?).join := rfl
    cases hty : (es[index]?).join with
    | none => rw [exciseAt_missing (hchild.trans hty)]; rfl
    | some ty =>
      have hlt : index < es.length := by
        by_contra hge
        rw [List.getElem?_eq_none (Nat.not_lt.mp hge)] at hty
        cases hty
      cases restPath p next with
      | none => rw [exciseAt_last (hchild.trans hty)]; rfl
      | some rest =>
        have hplace : (Payload.array es).place (.element index) = fun c => .array (es.set index (some c)) := by
          funext c
          rw [Payload.place, grow_of_lt hlt]
        rw [exciseAt_deeper (hchild.trans hty), hplace]
  · rw [if_pos harray, if_neg harray]

theorem readStep_head {rest : Option Text} (h : readStep p = some (s, rest)) :
    (p.head? = some delimTree ∧ ∃ k, s = .member k) ∨ (p.head? = some delimArray ∧ ∃ i, s = .element i) := by
  obtain ⟨next, _, h⟩ := Option.bind_eq_some_iff.mp h
  split at h
  next => cases h
  split at h
  next htree =>
    cases h
    exact Or.inl ⟨htree, _, rfl⟩
  split at h
  next harray =>
    obtain ⟨i, _, h⟩ := Option.map_eq_some_iff.mp h
    cases h
    exact Or.inr ⟨harray, i, rfl⟩
  next => cases h

/-- A deletion goes wherever a look-up goes. -/
theorem excisePayload_at {rest : Option Text} (h : readStep p = some (s, rest)) (hs : py.Suits s) :
    excisePayload (n + 1) py p true = exciseAt (fun ty rest => excisePayload n ty rest true) py s rest := by
  cases py with
  | string u => exact absurd hs id
  | tree m =>
    rw [excisePayload, exciseTree_at h]
    rcases readStep_head h with ⟨htree, _⟩ | ⟨_, i, rfl⟩
    · rw [if_pos htree]
    · exact absurd hs id
  | array es =>
    rw [excisePayload, exciseArray_at h]
    rcases readStep_head h with ⟨_, k, rfl⟩ | ⟨harray, _⟩
    · exact absurd hs id
    · rw [if_pos harray]

theorem restPath_ne_nil {rest : Text} (h : readStep p = some (s, some rest)) : rest ≠ [] := by
  obtain ⟨next, hnext, hr⟩ := readStep_rest h
  rintro rfl
  unfold restPath at hr
  split at hr
  next => cases hr
  next hne =>
    obtain ⟨k, rfl⟩ := Nat.exists_eq_succ_of_ne_zero hne
    have hlt := (nextElementFrom_succ hnext []).2
    rw [Option.some.injEq, eq_comm, List.drop_eq_nil_iff] at hr
    omega

/-- After a deletion, done or refused, the path leads to nothing. -/
theorem excise_gone (hp : p ≠ []) : (readSteps n (some p)).bind ((excisePayload n py p true).getD py).reach = none := by
  induction n generalizing py p with
  | zero => rfl
  | succ n ih =>
    obtain ⟨d, q, rfl⟩ := List.exists_cons_of_ne_nil hp
    cases hstep : readStep (d :: q) with
    | none =>
      rw [readSteps, hstep]
      rfl
    | some step =>
      obtain ⟨s, rest⟩ := step
      rw [readSteps_step hstep]
      by_cases hs : py.Suits s
      · rw [excisePayload_at hstep hs]
        cases hc : py.child s with
        | none =>
          rw [exciseAt_missing hc]
          cases readSteps n rest with
          | none => rfl
          | some ps => simp [Payload.reach, hc]
        | some ty =>
          cases rest with
          | none =>
            rw [exciseAt_last hc]
            cases readSteps n none with
            | none => rfl
            | some ps => simp only [Option.map_some, Option.bind_some, Option.getD_some, Payload.reach,
                Payload.child_cut_self, Option.bind_none]
          | some rest =>
            have hdeep : (readSteps n (some rest)).bind ((excisePayload n ty rest true).getD ty).reach = none :=
              ih (restPath_ne_nil hstep)
            rw [exciseAt_deeper hc]
            cases hps : readSteps n (some rest) with
            | none => rfl
            | some ps =>
              rw [hps, Option.bind_some] at hdeep
              cases he : excisePayload n ty rest true with
              | none =>
                rw [he] at hdeep
                simpa [Payload.reach, hc] using hdeep
              | some c =>
                rw [he] at hdeep
                simpa [Payload.reach_place_cons hs] using hdeep
      · have hnone : ∀ ps, py.reach (s :: ps) = none := fun ps => by
          rw [Payload.reach, Payload.child_unsuited hs, Option.bind_none]
        have hsame : (excisePayload (n + 1) py (d :: q) true).getD py = py := by
          cases py with
          | string u => rfl
          | tree m =>
            rw [excisePayload, exciseTree_at hstep]
            rcases readStep_head hstep with ⟨_, k, rfl⟩ | ⟨harray, _⟩
            · exact absurd trivial hs
            · rw [if_neg (by rw [harray]; decide)]
              rfl
          | array es =>
            rw [excisePayload, exciseArray_at hstep]
            rcases readStep_head hstep with ⟨htree, _⟩ | ⟨_, i, rfl⟩
            · rw [if_neg (by rw [htree]; decide)]
              rfl
            · exact absurd trivial hs
        rw [hsame]
        cases readSteps n rest with
        | none => rfl
        | some ps => exact hnone ps

end

section

variable {s t : VrblShared} {fx : FlatAt} {count i j : Nat} {name path copy : Text} {v : List Nat}
  {ref : VrblRef} {vx : Vrbl} {answer : VrblAnswer} {args : List (Option Text)}

/-- A name without a path. -/
def Pathless (name : Text) : Prop := ∀ c ∈ name, isDelim c = false

instance (name : Text) : Decidable (Pathless name) := List.decidableBAll _ name

theorem tokeniseFrom_behind (hname : Pathless name) (hpath : PathBehind path) (hi : 0 < i + name.length) :
    tokeniseFrom count i (name ++ path) =
      (tokeniseFrom count i name).map fun (copy, v) => (copy ++ cutPath path, v) := by
  induction name generalizing count i with
  | nil =>
    have hi : 0 < i := hi
    rw [List.nil_append, tokeniseFrom_path hpath hi, tokeniseFrom, if_neg (Nat.ne_of_gt hi)]
    rfl
  | cons c name ih =>
    have hdelim := hname c List.mem_cons_self
    have hrest : Pathless name := fun c hc => hname c (List.mem_cons_of_mem _ hc)
    rw [List.cons_append, tokeniseFrom, tokeniseFrom, hdelim]
    by_cases hstar : c = delimGroup
    · rw [if_pos hstar, if_pos hstar]
      split
      next => rfl
      next =>
        rw [ih hrest (by omega), Option.map_map, Option.map_map]
        rfl
    · rw [if_neg hstar, if_neg hstar, if_neg Bool.false_ne_true, if_neg Bool.false_ne_true, ih hrest (by omega),
        Option.map_map, Option.map_map]
      rfl

/-- Where the separators of a name are: before its end, which is where the last of them is
put. -/
theorem tokeniseFrom_stars (hname : Pathless name) (h : tokeniseFrom count i name = some (copy, v)) :
    copy.length = name.length ∧ ∃ stars, v = stars ++ [i + name.length] ∧ ∀ x ∈ stars, x < i + name.length := by
  induction name generalizing count i copy v with
  | nil =>
    rw [tokeniseFrom] at h
    split at h
    next => cases h
    next =>
      cases h
      exact ⟨rfl, [], rfl, fun _ hx => absurd hx List.not_mem_nil⟩
  | cons c name ih =>
    have hdelim := hname c List.mem_cons_self
    have hrest : Pathless name := fun c hc => hname c (List.mem_cons_of_mem _ hc)
    rw [tokeniseFrom, hdelim] at h
    split at h
    next =>
      split at h
      next => cases h
      next =>
        obtain ⟨⟨copy, v⟩, hmore, heq⟩ := Option.map_eq_some_iff.mp h
        cases heq
        obtain ⟨hlen, stars, rfl, hstars⟩ := ih hrest hmore
        refine ⟨congrArg (· + 1) hlen, i :: stars, ?_, fun x hx => ?_⟩
        · rw [List.length_cons, List.cons_append, Nat.add_assoc, Nat.add_comm 1]
        · rw [List.length_cons]
          rcases List.mem_cons.mp hx with rfl | hx
          · omega
          · have hlt := hstars x hx
            omega
    next =>
      rw [if_neg Bool.false_ne_true] at h
      obtain ⟨⟨copy, v⟩, hmore, heq⟩ := Option.map_eq_some_iff.mp h
      cases heq
      obtain ⟨hlen, stars, rfl, hstars⟩ := ih hrest hmore
      refine ⟨congrArg (· + 1) hlen, stars, ?_, fun x hx => ?_⟩
      · rw [List.length_cons, Nat.add_assoc, Nat.add_comm 1]
      · have hlt := hstars x hx
        rw [List.length_cons]
        omega

theorem stringAt_cut (hj : j ≤ copy.length) : stringAt (copy ++ cutPath path) j = stringAt copy j := by
  rw [stringAt, stringAt, List.drop_append_of_le_length hj]
  cases path with
  | nil => rw [cutPath, List.append_nil]
  | cons c path =>
    have hstop : ¬ (0 :: path).head?.any (fun c : Byte => decide (c ≠ 0)) := by simp
    exact (takeWhile_stops hstop (copy.drop j)).1.trans (by simp [cString])

/-- A search goes the same way, whatever path is behind the name. -/
theorem searchPath_cut {stars : List Nat} (hstars : ∀ x ∈ stars, x < copy.length) :
    searchPath s fx (copy ++ cutPath path) (stars ++ [copy.length]) = searchPath s fx copy (stars ++ [copy.length]) ∧
      ∀ vra k, searchPath s fx copy (stars ++ [copy.length]) = some (vra, k) → k ≤ copy.length := by
  rcases stars with _ | ⟨v0, _ | ⟨v1, _ | ⟨v2, _ | ⟨v3, stars⟩⟩⟩⟩
  · refine ⟨rfl, fun vra k h => ?_⟩
    cases h
    exact Nat.zero_le _
  · have h0 := hstars v0 (by simp)
    refine ⟨rfl, fun vra k h => ?_⟩
    simp only [List.cons_append, List.nil_append, searchPath] at h
    split at h
    next => cases h; omega
    split at h
    next => cases h; omega
    next => cases h
  · have h0 := hstars v0 (by simp)
    simp only [List.cons_append, List.nil_append, searchPath, stringAt_cut (Nat.zero_le _)]
    refine ⟨trivial, fun vra k h => ?_⟩
    split at h
    next => cases h
    split at h
    next => cases h; omega
    next =>
      obtain ⟨gx, _, h⟩ := Option.map_eq_some_iff.mp h
      cases h
      exact h0
  · have h0 := hstars v0 (by simp)
    have h1 := hstars v1 (by simp)
    simp only [List.cons_append, List.nil_append, searchPath, stringAt_cut (show v0 + 1 ≤ copy.length from h0),
      stringAt_cut (show 1 ≤ copy.length by omega)]
    refine ⟨trivial, fun vra k h => ?_⟩
    split at h
    next =>
      split at h
      next => cases h
      next hone => cases h; omega
    next =>
      obtain ⟨gx, _, h⟩ := Option.map_eq_some_iff.mp h
      cases h
      exact h1
  · cases stars <;> exact ⟨rfl, fun vra k h => by cases h⟩

/-- A name with a path behind it means the same variable. -/
theorem decodeName_behind (hname : Pathless name) (hne : name ≠ []) (hpath : PathBehind path) :
    decodeName s fx (name ++ path) = decodeName s fx name := by
  have hlen : 0 < 0 + name.length := by
    have hpos := List.length_pos_iff.mpr hne
    omega
  rw [decodeName, decodeName, tokeniseVrbl, tokeniseVrbl, tokeniseFrom_behind hname hpath hlen]
  cases htok : tokeniseFrom 0 0 name with
  | none => rfl
  | some r =>
    obtain ⟨copy, v⟩ := r
    obtain ⟨hcopy, stars, rfl, hstars⟩ := tokeniseFrom_stars hname htok
    rw [Nat.zero_add, ← hcopy] at hstars ⊢
    obtain ⟨hsearch, hbound⟩ : searchPath s fx (copy ++ cutPath path) (stars ++ [copy.length]) =
        searchPath s fx copy (stars ++ [copy.length]) ∧ _ := searchPath_cut hstars
    simp only [Option.map_some, Option.bind_some]
    split
    next => rfl
    next =>
      simp only [Option.bind_some, hsearch]
      cases hfound : searchPath s fx copy (stars ++ [copy.length]) with
      | none => rfl
      | some r =>
        obtain ⟨vra, k⟩ := r
        simp only [Option.bind_some, stringAt_cut (hbound vra k hfound)]

theorem findVrbl_behind (hname : Pathless name) (hne : name ≠ []) (hpath : PathBehind path) :
    findVrbl s fx (name ++ path) = findVrbl s fx name := by
  rw [findVrbl, findVrbl, updateVrbl, updateVrbl, decodeName_behind hname hne hpath]

theorem findVrbl_named (h : findVrbl s fx name = some ref) : name ≠ [] := by
  rintro rfl
  obtain ⟨vra, var, rx, hname, _⟩ := findVrbl_some h
  cases hname

/-- The two ways to ask for a path of a variable to be deleted. -/
def AsksPath (name path : Text) (args : List (Option Text)) : Prop :=
  args = [some (name ++ path)] ∨ ∃ more, args = some name :: some path :: more

/-- What a deletion at a path has to do: nothing is found at the path any more, the rest of
the variable is there as before, and so is every other variable. -/
def DeletesOnly (s : VrblShared) (fx : FlatAt) (args : List (Option Text)) (ref : VrblRef) (vx : Vrbl)
    (path : Text) : Prop :=
  ∃ t answer, varDelete s fx args = some (t, answer) ∧
    (∃ vx', t.vrbl ref = some vx' ∧ vx'.vFlags = vx.vFlags ∧ findPayload vx' (some path) = none ∧
      KeepsRest path vx.vPayload vx'.vPayload) ∧
    ∀ ref', ref' ≠ ref → t.vrbl ref' = s.vrbl ref'

theorem pathSuffix_path (hpath : path.head?.any isDelim) : pathSuffix (some path) = some path := by
  rw [pathSuffix, if_pos (by rwa [inferTypePath_isSome])]

theorem exciseVrbl_gone (py : Payload) (hpath : path.head?.any isDelim) :
    (pathSteps (some path)).bind ((excisePayload (pathFuel (some path)) py path true).getD py).reach = none := by
  rw [pathSteps, pathSuffix_path hpath]
  refine excise_gone ?_
  rintro rfl
  cases hpath

theorem exciseVrbl_done {vy : Vrbl} (hpath : path.head?.any isDelim) (h : exciseVrbl vx (some path) true = some vy) :
    vy.vFlags = vx.vFlags ∧ findPayload vy (some path) = none ∧ KeepsRest path vx.vPayload vy.vPayload := by
  obtain ⟨py, hpy, rfl⟩ := Option.map_eq_some_iff.mp h
  refine ⟨rfl, ?_, fun qs hqs => ?_⟩
  · have hgone := exciseVrbl_gone vx.vPayload hpath
    rw [hpy] at hgone
    rwa [findPayload_eq]
  · refine excise_keeps_rest hpy (Nat.lt_succ_self _) fun ps hps => hqs ps ?_
    rw [pathSteps, pathSuffix_path hpath]
    exact hps

theorem exciseVrbl_refused (hpath : path.head?.any isDelim) (h : exciseVrbl vx (some path) true = none) :
    findPayload vx (some path) = none := by
  have hgone := exciseVrbl_gone vx.vPayload hpath
  rw [Option.map_eq_none_iff.mp h] at hgone
  rwa [findPayload_eq]

theorem nextElementFrom_pathless (hname : Pathless name) {i : Nat} :
    nextElementFrom name i = none ∨ nextElementFrom name i = some 0 := by
  induction name generalizing i with
  | nil =>
    rw [nextElementFrom]
    split
    · exact Or.inl rfl
    · exact Or.inr rfl
  | cons c name ih =>
    rw [nextElementFrom, hname c List.mem_cons_self]
    simp only [Bool.false_eq_true, false_and, ↓reduceIte]
    split
    · exact Or.inl rfl
    · exact ih fun c hc => hname c (List.mem_cons_of_mem _ hc)

/-- Where a path to delete is told from the name, only that is deleted. -/
theorem varDelete_at (hpath : path.head?.any isDelim) (hvx : s.vrbl ref = some vx)
    (h : varDelete s fx args = (s.vrbl ref).bind fun vx =>
      match exciseVrbl vx (some path) true with
      | none => some (s, answerFail)
      | some vx => some (s.setVrbl ref vx, answerOk)) : DeletesOnly s fx args ref vx path := by
  rw [hvx, Option.bind_some] at h
  cases hexcise : exciseVrbl vx (some path) true with
  | none =>
    rw [hexcise] at h
    exact ⟨s, answerFail, h, ⟨vx, hvx, rfl, exciseVrbl_refused hpath hexcise, fun _ _ => rfl⟩, fun _ _ => rfl⟩
  | some vy =>
    rw [hexcise] at h
    exact ⟨s.setVrbl ref vy, answerOk, h, ⟨vy, vrbl_setVrbl_self, exciseVrbl_done hpath hexcise⟩,
      fun ref' hne => vrbl_setVrbl_of_ne hne⟩

/-- A deletion at a path deletes what is there, and that only, if and only if the path is an
argument of its own or the name in front of it is one that a path is found behind. -/
theorem deletes_only_iff (hname : Pathless name) (hpath : path.head?.any isDelim) (hargs : AsksPath name path args)
    (hfind : findVrbl s fx name = some ref) (hvx : s.vrbl ref = some vx) :
    DeletesOnly s fx args ref vx path ↔ args.length = 1 → nextElementPath name ≠ none := by
  have hne := findVrbl_named hfind
  have hpne : path ≠ [] := by
    rintro rfl
    cases hpath
  have hfollows : Follows path := by
    intro c hc
    rw [hc] at hpath
    exact hpath
  have hlen := List.length_pos_iff.mpr hne
  have hbehind : findVrbl s fx (name ++ path) = some ref := by
    rw [findVrbl_behind hname hne (Or.inr hpath), hfind]
  rcases hargs with rfl | ⟨more, rfl⟩
  · rcases nextElementFrom_pathless (i := 0) hname with hnone | hzero
    · have hall := nextElementFrom_none hpne hfollows hnone (by omega)
      have hdelete : deletePath (name ++ path) none = none := by
        rw [deletePath, nextElementPath, hall]
        rfl
      refine iff_of_false ?_ fun h => h rfl hnone
      rintro ⟨t, answer, ht, ⟨vx', hvx', _⟩, _⟩
      simp only [varDelete, List.head?_nil, Option.join_none, hbehind, Option.isSome_none, Bool.false_eq_true,
        false_and, ↓reduceIte, hdelete] at ht
      obtain ⟨⟨u, left⟩, hupdate, heq⟩ := Option.map_eq_some_iff.mp ht
      cases heq
      have hgone := updateVrbl_clobber hbehind hupdate
      subst hgone
      have hremoved : (s.removeRegion ref.region ref.key).vrbl ref = none := by
        simp only [VrblShared.vrbl, VrblShared.findRegion, VrblShared.removeRegion, Function.update_self]
        exact KeyedList.find_erase_self
      rw [hremoved] at hvx'
      cases hvx'
    · have hall := nextElementFrom_last hpne hfollows hzero
      rw [Nat.zero_add] at hall
      have hdelete : deletePath (name ++ path) none = some path := by
        rw [deletePath, nextElementPath, hall]
        simp [hlen]
      refine iff_of_true (varDelete_at hpath hvx ?_) fun _ h => ?_
      · dsimp only [varDelete, List.head?_nil, Option.join_none]
        rw [hbehind, hdelete]
        rfl
      · rw [nextElementPath, hzero] at h
        cases h
  · refine iff_of_true (varDelete_at hpath hvx ?_) fun h => by simp at h
    have hsplit : (nextElementPath name).any (0 < ·) = false := by
      rcases nextElementFrom_pathless (i := 0) hname with hnone | hzero
      · rw [nextElementPath, hnone]
        rfl
      · rw [nextElementPath, hzero]
        rfl
    dsimp only [varDelete, List.head?_cons, Option.join_some]
    rw [hfind, hsplit]
    rfl

/-- Without a path the variable goes, and no other. -/
theorem deletes_whole (hname : Pathless name) (hfind : findVrbl s fx name = some ref)
    (h : varDelete s fx [some name] = some (t, answer)) :
    t.vrbl ref = none ∧ ∀ ref', ref' ≠ ref → t.vrbl ref' = s.vrbl ref' := by
  have hdelete : deletePath name none = none := by
    rw [deletePath]
    rcases nextElementFrom_pathless (i := 0) hname with hnone | hzero
    · rw [nextElementPath, hnone]
      rfl
    · rw [nextElementPath, hzero]
      rfl
  simp only [varDelete, List.head?_nil, Option.join_none, hfind, Option.isSome_none, Bool.false_eq_true,
    false_and, ↓reduceIte, hdelete] at h
  obtain ⟨⟨u, left⟩, hupdate, heq⟩ := Option.map_eq_some_iff.mp h
  cases heq
  have hgone := updateVrbl_clobber hfind hupdate
  subst hgone
  refine ⟨?_, fun ref' hne => vrbl_remove_of_ne hne⟩
  simp only [VrblShared.vrbl, VrblShared.findRegion, VrblShared.removeRegion, Function.update_self]
  exact KeyedList.find_erase_self

/-- A variable with two members. -/
def withMap (name : Text) : VrblShared :=
  twoFlats.insertRegion .root { vPayload := .tree [(textOf "a", .string (some (textOf "1"))),
    (textOf "b", .string (some (textOf "2")))] } name

theorem deletes_only_member : ∃ vx, DeletesOnly (withMap (textOf "gain")) ⟨0, 0⟩ [some (textOf "gain:a")]
    ⟨.root, textOf "gain"⟩ vx (textOf ":a") :=
  ⟨_, (deletes_only_iff (by decide : Pathless (textOf "gain")) rfl (Or.inl rfl) rfl rfl).mpr fun _ h => by cases h⟩

/-- The name `x` is too short for the path behind it to be told apart: all of it goes. -/
theorem short_name_deleted : ¬ ∀ (s : VrblShared) (fx : FlatAt) (name path : Text) (args : List (Option Text))
    (ref : VrblRef) (vx : Vrbl), Pathless name → path.head?.any isDelim → AsksPath name path args →
      findVrbl s fx name = some ref → s.vrbl ref = some vx → DeletesOnly s fx args ref vx path := by
  intro hall
  obtain ⟨t, answer, ht, ⟨vx', hvx', _⟩, _⟩ := hall (withMap (textOf "x")) ⟨0, 0⟩ (textOf "x") (textOf ":a")
    [some (textOf "x:a")] ⟨.root, textOf "x"⟩ _ (by decide) rfl (Or.inl rfl) rfl rfl
  cases ht
  cases hvx'

end

end Katcp
