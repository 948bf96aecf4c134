import Katcp.VrblDisplay
import Katcp.VrblReadOnly

namespace Katcp

variable {n i next : Nat} {py py' c : Payload} {p name : Text} {s : PathStep} {text path rest : Option Text}
  {how : HowCreate} {type : Option VrblType} {relax : Bool} {vx vx' : Vrbl} {u t : VrblShared} {fx : FlatAt}
  {ref : VrblRef} {answer : VrblAnswer}

/-- The characters that an element is taken from, up to the next one. -/
theorem nextElementFrom_name (h : nextElementFrom p i = some next) (hi : 1 ≤ i) :
    1 < i + (if next = 0 then p else p.take (next - i)).length ∧ (next = 0 ∨ i ≤ next) ∧
      ∀ c ∈ if next = 0 then p else p.take (next - i), isDelim c = false ∧ isNewline c = false := by
  induction p generalizing i with
  | nil =>
    rw [nextElementFrom] at h
    split at h
    next => cases h
    next hle =>
      cases h
      exact ⟨by simpa using hle, Or.inl rfl, by simp⟩
  | cons c p ih =>
    rw [nextElementFrom] at h
    split at h
    next h1 =>
      cases h
      have hne : next ≠ 0 := by omega
      refine ⟨?_, Or.inr (Nat.le_refl next), ?_⟩
      · simpa [hne] using h1.2
      · simp [hne]
    next h1 =>
      split at h
      next => cases h
      next h2 =>
        split at h
        next => cases h
        next h3 =>
          obtain ⟨hlen, hle, hall⟩ := ih h (by omega)
          have hc : isDelim c = false := by
            cases hd : isDelim c with
            | false => rfl
            | true =>
              rcases Nat.lt_or_ge 1 i with hlt | hge
              · exact absurd ⟨hd, hlt⟩ h1
              · exact absurd ⟨hd, by omega⟩ h2
          have hn : isNewline c = false := by simpa using h3
          by_cases hz : next = 0
          · simp only [hz, if_true, List.length_cons] at hlen hall ⊢
            refine ⟨by omega, Or.inl trivial, ?_⟩
            intro x hx
            rcases List.mem_cons.mp hx with rfl | hx
            · exact ⟨hc, hn⟩
            · exact hall x hx
          · have hle := hle.resolve_left hz
            obtain ⟨k, hk⟩ : ∃ k, next - i = k + 1 := ⟨next - i - 1, by omega⟩
            have hk' : next - (i + 1) = k := by omega
            simp only [hz, if_false, hk, hk', List.take_succ_cons, List.length_cons] at hlen hall ⊢
            refine ⟨by omega, Or.inr (by omega), ?_⟩
            intro x hx
            rcases List.mem_cons.mp hx with rfl | hx
            · exact ⟨hc, hn⟩
            · exact hall x hx

theorem memberName_plain (hp : p.head? = some delimTree) (h : nextElementPath p = some next) :
    (PathStep.member (memberName p next)).Plain := by
  obtain ⟨p, rfl⟩ : ∃ q, p = delimTree :: q := by
    cases p with
    | nil => cases hp
    | cons c p =>
      cases hp
      exact ⟨p, rfl⟩
  rw [nextElementPath, nextElementFrom, if_neg (by simp), if_neg (by simp), if_neg (by decide)] at h
  obtain ⟨hlen, _, hall⟩ := nextElementFrom_name h (Nat.le_refl 1)
  have hname : memberName (delimTree :: p) next = if next = 0 then p else p.take (next - 1) := rfl
  rw [PathStep.Plain, hname]
  refine ⟨fun hnil => ?_, hall⟩
  rw [hnil] at hlen
  exact absurd hlen (by decide)

theorem writeStep_plain (h : writeStep py p = some (s, rest)) : s.Plain := by
  obtain ⟨next, hnext, h⟩ := Option.bind_eq_some_iff.mp h
  split at h
  next => cases h
  split at h
  next => cases h
  next =>
    split at h
    next hp =>
      cases h
      exact memberName_plain hp hnext
    next => cases h
  next =>
    split at h
    next =>
      obtain ⟨i, _, h⟩ := Option.map_eq_some_iff.mp h
      cases h
      trivial
    next => cases h

theorem readStep_plain (h : readStep p = some (s, rest)) : s.Plain := by
  obtain ⟨next, hnext, h⟩ := Option.bind_eq_some_iff.mp h
  split at h
  next => cases h
  split at h
  next hp =>
    cases h
    exact memberName_plain hp hnext
  next =>
    split at h
    next =>
      obtain ⟨i, _, h⟩ := Option.map_eq_some_iff.mp h
      cases h
      trivial
    next => cases h

namespace Payload

theorem place_ordered (h : py.children.Pairwise fun a b => a.1.Before b.1) (s : PathStep) (c : Payload) :
    (py.place s c).children.Pairwise fun a b => a.1.Before b.1 := by
  cases py with
  | string u => cases s <;> exact h
  | tree m =>
    cases s with
    | element i => exact h
    | member k =>
      rw [children, List.pairwise_map] at h
      rw [place, children, List.pairwise_map]
      exact KeyedList.put_ascending h
  | array es =>
    cases s with
    | member k => exact h
    | element i => exact elementsFrom_ordered _ 0

theorem cut_ordered (h : py.children.Pairwise fun a b => a.1.Before b.1) (s : PathStep) :
    (py.cut s).children.Pairwise fun a b => a.1.Before b.1 := by
  cases py with
  | string u => cases s <;> exact h
  | tree m =>
    cases s with
    | element i => exact h
    | member k => exact h.sublist (List.filter_sublist.map _)
  | array es =>
    cases s with
    | member k => exact h
    | element i => exact elementsFrom_ordered _ 0

theorem Built.ordered (h : py.Built) : py.children.Pairwise fun a b => a.1.Before b.1 := by
  cases h with
  | intro hord _ _ => exact hord

theorem Built.child (h : py.Built) (hc : py.child s = some c) : s.Plain ∧ c.Built := by
  have hmem := (mem_children h.ordered).mpr hc
  cases h with
  | intro _ hplain hb => exact ⟨hplain _ hmem, hb _ hmem⟩

theorem Built.of_child (hord : py.children.Pairwise fun a b => a.1.Before b.1)
    (h : ∀ s c, py.child s = some c → s.Plain ∧ c.Built) : py.Built :=
  .intro hord (fun _ he => (h _ _ ((mem_children hord).mp he)).1) fun _ he => (h _ _ ((mem_children hord).mp he)).2

theorem Built.place (h : py.Built) (hs : s.Plain) (hsuits : py.Suits s) (hc : c.Built) : (py.place s c).Built := by
  refine .of_child (place_ordered h.ordered s c) fun s' c' hc' => ?_
  by_cases hne : s' = s
  · subst hne
    rw [child_place_self hsuits] at hc'
    cases hc'
    exact ⟨hs, hc⟩
  · rw [child_place_of_ne hne] at hc'
    exact h.child hc'

theorem Built.cut (h : py.Built) (s : PathStep) : (py.cut s).Built := by
  refine .of_child (cut_ordered h.ordered s) fun s' c' hc' => ?_
  by_cases hne : s' = s
  · subst hne
    rw [child_cut_self] at hc'
    cases hc'
  · rw [child_cut_of_ne hne] at hc'
    exact h.child hc'

theorem built_setup (type : VrblType) : (setup type).Built := by
  refine .of_child ?_ fun s c hc => ?_
  · cases type <;> exact .nil
  · rw [child_setup] at hc
    cases hc

theorem built_string (u : Option Text) : (Payload.string u).Built :=
  .of_child .nil fun s c hc => by cases s <;> cases hc

end Payload

/-- A scan leaves a payload as the program builds it, and so does a deletion. -/
theorem scan_built (h : Leaves (scanPayload n py text path how type) py') (hb : py.Built) : py'.Built := by
  induction n generalizing py path py' with
  | zero =>
    rcases h with h | h <;> cases h
    exact hb
  | succ n ih =>
    generalize hr : scanPayload (n + 1) py text path how type = r at h
    have hstep : ScanStep n py text path how type (scanPayload (n + 1) py text path how type) :=
      scanPayload_step
    rw [hr] at hstep
    cases hstep with
    | refused =>
      rcases h with h | h <;> cases h
      exact hb
    | wild => rcases h with h | h <;> cases h
    | leaf =>
      rcases h with h | h <;> cases h
      exact Payload.built_string _
    | empty =>
      rcases h with h | h <;> cases h
      exact hb
    | @deeper p s rest ty _ hw hty =>
      obtain ⟨c, hc, rfl⟩ := h.of_map
      refine hb.place (writeStep_plain hw) (suits_of_writeStep hw) (ih hc ?_)
      rcases Option.or_eq_some_iff.mp hty with hchild | ⟨_, hmade⟩
      · exact (hb.child hchild).2
      · unfold createChild at hmade
        split at hmade
        next => cases hmade
        next =>
          obtain ⟨type, _, rfl⟩ := Option.map_eq_some_iff.mp hmade
          exact Payload.built_setup _

theorem excise_built (h : excisePayload n py p relax = some py') (hb : py.Built) : py'.Built := by
  induction n generalizing py p py' with
  | zero => cases h
  | succ n ih =>
    cases excisePayload_step h with
    | same => exact hb
    | cut _ => exact hb.cut _
    | deeper hstep hty hc =>
      exact hb.place (readStep_plain hstep) (Payload.suits_of_child hty) (ih hc (hb.child hty).2)

theorem scanVrbl_built (h : Leaves (scanVrbl (some vx) text path how type) (some vx')) (hb : vx.vPayload.Built) :
    vx'.vPayload.Built := by
  obtain ⟨_, hsame | hscan⟩ := scanVrbl_leaves h
  · rw [hsame]
    exact hb
  · exact scan_built hscan hb

theorem scanVrbl_new_built (h : scanVrbl none text path how type = .done (some vx)) : vx.vPayload.Built := by
  unfold scanVrbl at h
  split at h
  next => cases h
  next =>
    dsimp only at h
    split at h
    next => cases h
    split at h
    next => cases h
    next =>
      split at h
      next hpy =>
        cases h
        exact scan_built (.inl hpy) (Payload.built_setup _)
      next => cases h
      next => cases h

def AllBuilt (s : VrblShared) : Prop := ∀ ref vx, s.vrbl ref = some vx → vx.vPayload.Built

theorem AllBuilt.insert (h : AllBuilt u) {rx : RegionId} {key : Text} (hb : vx.vPayload.Built) :
    AllBuilt (u.insertRegion rx vx key) := by
  intro ref vy hvy
  by_cases href : ref = ⟨rx, key⟩
  · subst href
    obtain rfl := Option.some.inj (hvy.symm.trans VrblShared.findRegion_insert_self)
    exact hb
  · exact h ref vy ((vrbl_insert_of_ne href).symm.trans hvy)

theorem AllBuilt.keepScan (h : AllBuilt u) (hvx : u.vrbl ref = some vx)
    (hk : keepScan u ref (scanVrbl (some vx) text path how type) = some (t, answer)) : AllBuilt t := by
  obtain ⟨vy, hleaves, rfl⟩ := keepScan_some hk
  exact h.insert (scanVrbl_built hleaves (h ref vx hvx))

theorem AllBuilt.changeFlags (h : AllBuilt u) {f : Vrbl → Vrbl} (hf : ∀ vx, (f vx).vPayload = vx.vPayload)
    (hc : changeFlags u fx f name = some (t, answer)) : AllBuilt t := by
  unfold Katcp.changeFlags at hc
  split at hc
  next => cases hc; exact h
  next =>
    obtain ⟨vy, hvy, hc⟩ := Option.map_eq_some_iff.mp hc
    cases hc
    refine h.insert ?_
    rw [hf]
    exact h _ vy hvy

theorem AllBuilt.declare (h : AllBuilt u) {args : List (Option Text)}
    (hc : varDeclare u fx args = some (t, answer)) : AllBuilt t := by
  unfold varDeclare at hc
  split at hc
  next => cases hc; exact h
  next => cases hc; exact h
  next =>
    split at hc
    next =>
      split at hc
      next =>
        obtain ⟨vy, hvy, hc⟩ := Option.bind_eq_some_iff.mp hc
        split at hc
        next => cases hc; exact h
        split at hc
        next => cases hc; exact h
        exact h.keepScan hvy hc
      next =>
        split at hc
        next vy hscan =>
          obtain ⟨⟨t, found⟩, hupdate, hc⟩ := Option.map_eq_some_iff.mp hc
          cases hc
          cases found with
          | none =>
            rw [updateVrbl_none hupdate]
            exact h
          | some found =>
            obtain ⟨rx, vra, key, _, _, rfl, _⟩ := updateVrbl_some hupdate
            have hb : vy.vPayload.Built := scanVrbl_new_built hscan
            exact h.insert hb
        next => cases hc; exact h
        next => cases hc
    next => cases hc; exact h

theorem AllBuilt.set (h : AllBuilt u) {args : List (Option Text)}
    (hc : varSet u fx args = some (t, answer)) : AllBuilt t := by
  unfold varSet at hc
  split at hc
  next =>
    split at hc
    next => cases hc; exact h
    next =>
      obtain ⟨vy, hvy, hc⟩ := Option.bind_eq_some_iff.mp hc
      split at hc
      next => exact h.keepScan hvy hc
      next => cases hc; exact h
  next => cases hc; exact h

theorem AllBuilt.remove (h : AllBuilt u) (rx : RegionId) (key : Text) : AllBuilt (u.removeRegion rx key) := by
  intro ref vy hvy
  by_cases href : ref = ⟨rx, key⟩
  · subst href
    have hnone : (u.removeRegion rx key).vrbl ⟨rx, key⟩ = none := by
      simp only [VrblShared.vrbl, VrblShared.findRegion, VrblShared.removeRegion, Function.update_self]
      exact KeyedList.find_erase_self
    rw [hnone] at hvy
    cases hvy
  · exact h ref vy ((vrbl_remove_of_ne href).symm.trans hvy)

theorem AllBuilt.delete (h : AllBuilt u) {args : List (Option Text)}
    (hc : varDelete u fx args = some (t, answer)) : AllBuilt t := by
  unfold varDelete at hc
  split at hc
  next => cases hc; exact h
  next => cases hc; exact h
  next => cases hc; exact h
  next =>
    dsimp only at hc
    split at hc
    next => cases hc; exact h
    next ref' href =>
      split at hc
      next => cases hc; exact h
      split at hc
      next =>
        obtain ⟨⟨t, left⟩, hupdate, hc⟩ := Option.map_eq_some_iff.mp hc
        cases hc
        rw [updateVrbl_clobber href hupdate]
        exact h.remove _ _
      next path _ =>
        obtain ⟨vy, hvy, hc⟩ := Option.bind_eq_some_iff.mp hc
        split at hc
        next => cases hc; exact h
        next vz hexcise =>
          cases hc
          obtain ⟨py, hpy, rfl⟩ := Option.map_eq_some_iff.mp hexcise
          have hbuilt : ({ vy with vPayload := py } : Vrbl).vPayload.Built := excise_built hpy (h _ vy hvy)
          exact h.insert hbuilt

/-- However the clients' commands run, every variable stays as the program builds it. -/
theorem vrbls_stay_built {s : VrblShared} (h : AllBuilt s) {log : List VrblAnswer}
    (hruns : (vrblMachine s).Runs (fun _ _ => True) t log) : AllBuilt t := by
  refine hruns.invariant (fun t _ => AllBuilt t) h ?_
  rintro t log ⟨fx, c⟩ u h _ hstep
  obtain ⟨⟨u, answer⟩, hrun, rfl⟩ := Option.map_eq_some_iff.mp hstep
  cases c with
  | declare args => exact h.declare hrun
  | set args => exact h.set hrun
  | display args => cases hrun; exact h
  | delete args => exact h.delete hrun
  | hide name => exact h.changeFlags (f := hideVrbl) (fun _ => rfl) hrun
  | reveal name => exact h.changeFlags (f := showVrbl) (fun _ => rfl) hrun

end Katcp
