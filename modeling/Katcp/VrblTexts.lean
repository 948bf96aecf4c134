import Katcp.VrblStore

namespace Katcp

variable {n : Nat} {py py' : Payload} {text path : Option Text} {how : HowCreate}
  {type : Option VrblType} {p t : Text} {qs : List PathStep} {vx vx' : Vrbl} {relax : Bool}

/-- The scan ends with this payload. -/
def Leaves {α : Type} (r : Scanned α) (a : α) : Prop := r = .done a ∨ r = .refused a

theorem Leaves.of_map {α β : Type} {f : α → β} {r : Scanned α} {b : β} (h : Leaves (r.map f) b) :
    ∃ a, Leaves r a ∧ b = f a := by
  rcases h with h | h
  · cases r <;> cases h
    exact ⟨_, .inl rfl, rfl⟩
  · cases r <;> cases h
    exact ⟨_, .inr rfl, rfl⟩

theorem nextElementFrom_ne_one {i next : Nat} (h : nextElementFrom p i = some next) : next ≠ 1 := by
  induction p generalizing i with
  | nil =>
    rw [nextElementFrom] at h
    split at h
    next => cases h
    next => cases h; decide
  | cons c p ih =>
    rw [nextElementFrom] at h
    split at h
    next hi => cases h; omega
    split at h
    next => cases h
    split at h
    next => cases h
    next => exact ih h

theorem reach_string {u : Option Text} (h : (Payload.string u).reach qs = some (.string (some t))) :
    qs = [] ∧ u = some t := by
  cases qs with
  | nil => cases h; exact ⟨rfl, rfl⟩
  | cons s qs => cases h

/-- A text that is set changes only where a scan that may overwrite has its target. -/
theorem scan_keeps_text (h : Leaves (scanPayload n py text path how type) py')
    (hreach : py.reach qs = some (.string (some t))) :
    py'.reach qs = some (.string (some t)) ∨
      how ≠ .mustCreate ∧ target n py path how type = some qs := by
  induction n generalizing py path py' qs with
  | zero =>
    rcases h with h | h <;> cases h
    exact .inl hreach
  | succ n ih =>
    generalize hr : scanPayload (n + 1) py text path how type = r at h
    have hstep : ScanStep n py text path how type (scanPayload (n + 1) py text path how type) :=
      scanPayload_step
    rw [hr] at hstep
    cases hstep with
    | refused =>
      rcases h with h | h <;> cases h
      exact .inl hreach
    | wild => rcases h with h | h <;> cases h
    | leaf hu hpath hmust =>
      subst hu
      obtain ⟨rfl, rfl⟩ := reach_string hreach
      exact .inr ⟨fun hhow => hmust ⟨hhow, rfl⟩, target_of_leaf hpath⟩
    | empty =>
      rcases h with h | h <;> cases h
      exact .inl hreach
    | @deeper q s rest ty hpath hw hty =>
      subst hpath
      obtain ⟨c, hc, rfl⟩ := h.of_map
      cases qs with
      | nil =>
        cases hreach
        exact absurd (suits_of_writeStep hw) id
      | cons s' qs =>
        by_cases hs : s' = s
        · subst hs
          obtain ⟨child, hchild, hdeep⟩ := Option.bind_eq_some_iff.mp hreach
          rw [hchild] at hty
          cases hty
          rw [Payload.reach_place_cons (suits_of_writeStep hw)]
          refine (ih hc hdeep).imp id fun ⟨hhow, htarget⟩ => ⟨hhow, ?_⟩
          rw [target_deeper hw (by rw [hchild]; rfl), htarget]
          rfl
        · exact .inl ((Payload.reach_place_of_ne hs).trans hreach)

theorem grow_of_lt {es : List (Option Payload)} {i : Nat} (h : i < es.length) : grow es i = es := by
  rw [grow, Nat.sub_eq_zero_of_le h, List.replicate_zero, List.append_nil]

/-- What one level of an excision can do. -/
inductive ExciseStep (n : Nat) (py : Payload) (p : Text) (relax : Bool) : Payload → Prop
  | same : ExciseStep n py p relax py
  | cut {s : PathStep} : readStep p = some (s, none) → ExciseStep n py p relax (py.cut s)
  | deeper {s : PathStep} {path : Text} {ty c : Payload} : readStep p = some (s, some path) →
      py.child s = some ty → excisePayload n ty path relax = some c →
      ExciseStep n py p relax (py.place s c)

theorem exciseTree_step {m : List (Text × Payload)}
    (h : exciseTree (excisePayload n) m p relax = some py') : ExciseStep n (.tree m) p relax py' := by
  unfold exciseTree at h
  split at h
  next => cases h
  next hhead =>
    obtain ⟨next, hnext, h⟩ := Option.bind_eq_some_iff.mp h
    split at h
    next => cases h
    next hone =>
      have hread : readStep p = some (.member (memberName p next), restPath p next) := by
        rw [readStep, hnext, Option.bind_some, if_neg hone, if_pos (Decidable.not_not.mp hhead)]
      dsimp only at h
      split at h
      next =>
        split at h
        next => cases h; exact .same
        next => cases h
      next ty rest hty hrest =>
        obtain ⟨c, hc, rfl⟩ := Option.map_eq_some_iff.mp h
        exact .deeper (s := .member (memberName p next)) (hread.trans (by rw [hrest])) hty hc
      next ty hty hrest =>
        cases h
        exact .cut (s := .member (memberName p next)) (hread.trans (by rw [hrest]))

theorem exciseArray_step {es : List (Option Payload)}
    (h : exciseArray (excisePayload n) es p relax = some py') : ExciseStep n (.array es) p relax py' := by
  unfold exciseArray at h
  split at h
  next => cases h
  next hhead =>
    obtain ⟨next, hnext, h⟩ := Option.bind_eq_some_iff.mp h
    obtain ⟨index, hindex, h⟩ := Option.bind_eq_some_iff.mp h
    have hread : readStep p = some (.element index, restPath p next) := by
      have harray : p.head? = some delimArray := Decidable.not_not.mp hhead
      have htree : p.head? ≠ some delimTree := by
        rw [harray]
        decide
      rw [readStep, hnext, Option.bind_some, if_neg (nextElementFrom_ne_one hnext), if_neg htree,
        if_pos harray, hindex]
      rfl
    split at h
    next =>
      split at h
      next => cases h; exact .same
      next => cases h
    next ty rest hty hrest =>
      obtain ⟨c, hc, rfl⟩ := Option.map_eq_some_iff.mp h
      have hlt : index < es.length := by
        by_contra hge
        rw [List.getElem?_eq_none (Nat.not_lt.mp hge)] at hty
        cases hty
      have hplace : Payload.array (es.set index (some c)) =
          (Payload.array es).place (.element index) c := by
        rw [Payload.place, grow_of_lt hlt]
      rw [hplace]
      exact .deeper (hread.trans (by rw [hrest])) hty hc
    next ty hty hrest =>
      cases h
      exact .cut (hread.trans (by rw [hrest]))

theorem excisePayload_step (h : excisePayload (n + 1) py p relax = some py') :
    ExciseStep n py p relax py' := by
  cases py with
  | string u =>
    rw [excisePayload] at h
    split at h
    next => cases h; exact .same
    next => cases h
  | tree m => exact exciseTree_step h
  | array es => exact exciseArray_step h

theorem readSteps_step {s : PathStep} {rest : Option Text} (h : readStep p = some (s, rest)) :
    readSteps (n + 1) (some p) = (readSteps n rest).map (s :: ·) := by
  cases p with
  | nil => cases h
  | cons c p => rw [readSteps, h, Option.bind_some]

/-- A text that is set stays where nothing at or above it is cut. -/
theorem excise_keeps_text (h : excisePayload n py p relax = some py') (hn : p.length < n)
    (hreach : py.reach qs = some (.string (some t))) :
    py'.reach qs = some (.string (some t)) ∨ ∃ ps, readSteps n (some p) = some ps ∧ ps <+: qs := by
  induction n generalizing py p py' qs with
  | zero => cases h
  | succ n ih =>
    cases excisePayload_step h with
    | same => exact .inl hreach
    | @cut s hstep =>
      cases qs with
      | nil =>
        cases hreach
        exact .inl rfl
      | cons s' qs =>
        by_cases hs : s' = s
        · subst hs
          right
          obtain ⟨n, rfl⟩ : ∃ m, n = m + 1 := by
            cases p with
            | nil => cases hstep
            | cons c p => exact ⟨n - 1, by simp at hn; omega⟩
          exact ⟨[s'], by rw [readSteps_step hstep]; rfl, List.cons_prefix_cons.mpr ⟨rfl, List.nil_prefix⟩⟩
        · left
          rw [Payload.reach, Payload.child_cut_of_ne hs]
          exact hreach
    | @deeper s path ty c hstep hty hc =>
      cases qs with
      | nil =>
        cases hreach
        cases hty
      | cons s' qs =>
        by_cases hs : s' = s
        · subst hs
          have hdeep : ty.reach qs = some (.string (some t)) := by
            rw [Payload.reach, hty] at hreach
            exact hreach
          rw [Payload.reach_place_cons (Payload.suits_of_child hty), readSteps_step hstep]
          obtain ⟨next, hnext, hrest⟩ := readStep_rest hstep
          have hlt := restPath_length hnext
          rw [← hrest] at hlt
          refine (ih hc (by simp at hlt; omega) hdeep).imp id ?_
          rintro ⟨ps, hps, hle⟩
          refine ⟨s' :: ps, ?_, List.cons_prefix_cons.mpr ⟨rfl, hle⟩⟩
          rw [hps]
          rfl
        · exact .inl ((Payload.reach_place_of_ne hs).trans hreach)

end Katcp
