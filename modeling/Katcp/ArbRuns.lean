import Katcp.ArbSteps

namespace Katcp

open SwapVector

/-- An arb is looked up, called and destroyed in that order. -/
def ArbFits (before : List ArbEvent) : ArbEvent → Prop
  | .found _ _ (some a) => (told before a).down = none
  | .called a _ => (told before a).frees = 0
  | .freed a => (told before a).frees = 0
  | _ => True

theorem told_down {a : Nat} {rec : ArbRecord} (h : rec.down ≠ none) (out : List ArbEvent) :
    (out.foldl (tell a) rec).down ≠ none := by
  induction out generalizing rec with
  | nil => exact h
  | cons e out ih =>
    apply ih
    cases e with
    | found => exact h
    | down | due | called | freed =>
      simp only [tell]
      split
      all_goals simp_all

theorem ArbTold.not_live {r : ArbReap} {rec : ArbRecord} (h : ArbTold r .out rec) (hd : rec.down ≠ none) :
    r ≠ .live := by
  cases h with
  | live => exact absurd rfl hd
  | fade | quiet | settled | freed => nofun

theorem ArbTold.turn_free {t : ArbTurn} {rec : ArbRecord} (h : ArbTold .free t rec) : t = .out := by
  cases h with
  | stopping hr => exact absurd rfl hr
  | freed => rfl

theorem ArbTold.turn_stop {r : ArbReap} {rec : ArbRecord} (h : ArbTold r .stop rec) :
    r ≠ .free ∧ rec.down = some true := by
  cases h with
  | stopping hr => exact ⟨hr, rfl⟩
  | live ht | fade ht | quiet ht => exact absurd rfl ht

theorem ArbTold.down_live {t : ArbTurn} {rec : ArbRecord} (h : ArbTold .live t rec) (ht : t ≠ .stop) :
    rec.down = none := by
  cases h with
  | live => rfl
  | stopping => exact absurd rfl ht

theorem ArbTold.down_of_ne {r : ArbReap} {t : ArbTurn} {rec : ArbRecord} (h : ArbTold r t rec) (hr : r ≠ .live) :
    rec.down ≠ none := by
  cases h with
  | live => exact absurd rfl hr
  | freed h => cases h <;> nofun
  | fade | quiet | stopping | settled => nofun

theorem ArbTold.frees {r : ArbReap} {t : ArbTurn} {rec : ArbRecord} (h : ArbTold r t rec) :
    rec.frees = if r = .free then 1 else 0 := by
  cases h with
  | stopping hr => simp [hr]
  | live | fade | quiet | settled | freed => rfl

namespace Arbs

variable {s s' : Arbs} {a b i j : Nat} {x y : Arb} {log out : List ArbEvent} {name : Text} {type : Nat}

/-- A registered arb that has not been taken down. -/
def Up (s : Arbs) (a : Nat) : Prop := s.reapAt a = .live ∧ s.turn a ≠ .stop

def Bears (s : Arbs) (a : Nat) (name : Text) (type : Nat) : Prop :=
  ∃ x, s.arbs[a]? = some x ∧ x.bears name type = true

/-- A name is looked up only while every arb taken down that bears it is behind one that is not,
and no teardown has cleared places of the vector. -/
def FindsUp (s : Arbs) : ArbAction → Prop
  | .find name type => (∀ j : Nat, s.sExtras[j]? ≠ some none) ∧
    ∀ (j a : Nat), s.sExtras[j]? = some (some a) → s.Bears a name type → ¬ s.Up a →
      ∃ k b : Nat, k < j ∧ s.sExtras[k]? = some (some b) ∧ s.Bears b name type ∧ s.Up b
  | _ => True

theorem findEntries_some {arbs : List Arb} {entries : List (Option Nat)}
    (h : findEntries arbs name type entries = some (some a)) :
    (∃ x, arbs[a]? = some x ∧ x.bears name type = true) ∧
    ∃ j : Nat, entries[j]? = some (some a) ∧ ∀ k b : Nat, k < j → entries[k]? = some (some b) →
      ∀ x, arbs[b]? = some x → x.bears name type = false := by
  induction entries with
  | nil => cases h
  | cons entry rest ih =>
    cases entry with
    | none => cases h
    | some b =>
      rw [findEntries] at h
      cases hx : arbs[b]? with
      | none => simp [hx] at h
      | some x =>
        simp only [hx] at h
        split at h
        next hbears =>
          cases h
          exact ⟨⟨x, hx, hbears⟩, 0, rfl, fun k b hk => absurd hk (by omega)⟩
        next hbears =>
          obtain ⟨hfound, j, hj, hbefore⟩ := ih h
          refine ⟨hfound, j + 1, hj, fun k c hk hc y hy => ?_⟩
          cases k with
          | zero =>
            cases hc
            cases hx.symm.trans hy
            exact Bool.eq_false_iff.mpr hbears
          | succ k => exact hbefore k c (by omega) hc y hy

theorem findEntries_none {arbs : List Arb} {entries : List (Option Nat)}
    (h : findEntries arbs name type entries = none) :
    none ∈ entries ∨ ∃ a, some a ∈ entries ∧ arbs[a]? = none := by
  induction entries with
  | nil => cases h
  | cons entry rest ih =>
    cases entry with
    | none => exact .inl (List.mem_cons_self ..)
    | some b =>
      rw [findEntries] at h
      cases hx : arbs[b]? with
      | none => exact .inr ⟨b, List.mem_cons_self .., hx⟩
      | some x =>
        simp only [hx] at h
        split at h
        · cases h
        · rcases ih h with hnull | ⟨a, ha, hnone⟩
          · exact .inl (List.mem_cons_of_mem _ hnull)
          · exact .inr ⟨a, List.mem_cons_of_mem _ ha, hnone⟩

/-- A look up under the condition returns an arb that has not been taken down. -/
theorem FindsUp.up (h : s.FindsUp (.find name type)) (hfind : s.findTypeArb name type = some (some a)) :
    s.Up a := by
  obtain ⟨hfound, j, hj, hbefore⟩ := findEntries_some hfind
  by_contra hup
  obtain ⟨k, b, hk, hb, ⟨x, hx, hbears⟩, _⟩ := h.2 j a hj hfound hup
  rw [hbefore k b hk hb x hx] at hbears
  cases hbears

theorem FindsUp.reads (h : s.FindsUp (.find name type)) (hp : s.Placed) : s.findTypeArb name type ≠ none := by
  intro hnone
  rcases findEntries_none hnone with hnull | ⟨a, ha, hx⟩
  · obtain ⟨j, hj⟩ := List.mem_iff_getElem?.mp hnull
    exact h.1 j hj
  · obtain ⟨x, hx', _⟩ := (hp.alive a).mp (List.mem_iff_getElem?.mp ha)
    cases hx.symm.trans hx'

structure Sound (s : Arbs) (log : List ArbEvent) : Prop where
  placed : s.Placed
  records : ∀ a, ArbTold (s.reapAt a) (s.turn a) (told log a)

theorem noArbs_sound : noArbs.Sound [] := 
  ⟨noArbs_placed, fun _ => .live (show ArbTurn.out ≠ .stop by decide)⟩

theorem Sound.moved (h : s.Sound log) (hm : Moved s s' a out) : s'.Sound (log ++ out) := by
  refine ⟨hm.placed, fun b => ?_⟩
  rw [told_append]
  by_cases hb : b = a
  · subst hb
    exact (h.records b).shift hm.shift
  · rw [hm.shift.tell_other hb, (hm.others b hb).1, (hm.others b hb).2]
    exact h.records b

theorem Sound.act (h : s.Sound log) {c : ArbAction} (hact : s.act c = some (s', out))
    (hc : s'.phase ≠ .crashed) : s'.Sound (log ++ out) := by
  rcases act_cases h.placed hact hc with ⟨a, hm⟩ | ⟨name, type, result, _, _, rfl, rfl⟩
  · exact h.moved hm
  · refine ⟨h.placed, fun b => ?_⟩
    rw [told_append]
    exact h.records b

theorem actOf {c : ArbAction} (h : arbMachine.step s c = some s') : s.act c = some (s', arbMachine.emits s c) :=
  Machine.act_of_step (f := Arbs.act) (fun _ _ => rfl) (fun _ _ => rfl) h

/-- A crashed server does nothing more. -/
theorem act_crashed (hc : s.phase = .crashed) (c : ArbAction) : s.act c = none := by
  cases c <;> simp [Arbs.act, calm, hc, Arbs.next, ret]

/-- What every step from a sound registry keeps, as long as the server does not crash. -/
theorem Sound.exec (h : s.Sound log) (inv : Arbs → Prop) {acts : List ArbAction}
    (he : arbMachine.exec s acts = some (s', out)) (hc : s'.phase ≠ .crashed) (hinv : inv s)
    (hkeeps : ∀ t t' told c said, t.Sound told → inv t → t.act c = some (t', said) → t'.phase ≠ .crashed → inv t') :
    s'.Sound (log ++ out) ∧ inv s' := by
  have hrun : s'.phase = .crashed ∨ s'.Sound (log ++ out) ∧ inv s' := by
    refine arbMachine.exec_keeps (fun t told => t.phase = .crashed ∨ t.Sound told ∧ inv t) acts he
      (.inr ⟨h, hinv⟩) ?_
    intro t told c t' _ ht hstep
    have hact := actOf hstep
    rcases ht with hcrash | ⟨ht, hi⟩
    · rw [act_crashed hcrash] at hact
      cases hact
    · by_cases hc' : t'.phase = .crashed
      · exact .inl hc'
      · exact .inr ⟨ht.act hact hc', hkeeps t t' told c _ ht hi hact hc'⟩
  exact hrun.resolve_left hc

section Passes

/-- An arb that waits for the stop callback of a run pass or for the next load pass. -/
theorem shift_leaving {r r' : ArbReap} {t t' : ArbTurn} (h : ArbShift a r t r' t' out) (hr : r ≠ .live)
    (ht : t ≠ .call) : r' ≠ .live ∧ t' ≠ .call ∧ (r ≠ .fade → r' ≠ .fade) := by
  cases h
  all_goals simp_all

/-- The place that a run pass has reached. -/
def sweepAt : ArbPhase → Option Nat
  | .running i | .inStop i _ => some i
  | .inCall i _ => some (i + 1)
  | _ => none

/-- The run pass has yet to come to the arb. -/
def ToSweep (s : Arbs) (a : Nat) : Prop :=
  ∃ i j : Nat, sweepAt s.phase = some i ∧ i ≤ j ∧ s.sExtras[j]? = some (some a)

theorem ToSweep.same (h : s.ToSweep a) (hphase : s'.phase = s.phase) (he : s'.sExtras = s.sExtras) :
    s'.ToSweep a := by
  obtain ⟨i, j, hi, hle, hj⟩ := h
  exact ⟨i, j, by rw [hphase, hi], hle, by rw [he, hj]⟩

/-- The pass goes on behind the arb at `i`, which is another one. -/
theorem ToSweep.past (h : s.ToSweep a) (hi : sweepAt s.phase = some i) (hb : s.sExtras[i]? = some (some b))
    (hab : b ≠ a) (hi' : sweepAt s'.phase = some (i + 1)) (he : s'.sExtras = s.sExtras) : s'.ToSweep a := by
  obtain ⟨k, j, hk, hle, hj⟩ := h
  cases hi.symm.trans hk
  refine ⟨i + 1, j, hi', ?_, by rw [he, hj]⟩
  rcases Nat.lt_or_eq_of_le hle with hlt | rfl
  · exact hlt
  · cases hb.symm.trans hj
    exact absurd rfl hab

theorem ToSweep.runNext (h : s.ToSweep a) (hp : s.Placed) (hphase : s.phase = .running i)
    (hr : s.reapAt a = .fade) (hr' : (s.runNext i).1.reapAt a = .fade) : (s.runNext i).1.ToSweep a := by
  have hc : s.cleared = 0 := by simp [cleared, hphase]
  have hat : sweepAt s.phase = some i := by rw [hphase, sweepAt]
  rcases hp.slot (i := i) (by omega) with ⟨_, hlen⟩ | ⟨b, x, hs, hb, hx, _⟩
  · obtain ⟨k, j, hk, hle, hj⟩ := h
    cases hat.symm.trans hk
    obtain ⟨hlt, _⟩ := List.getElem?_eq_some_iff.mp hj
    omega
  · have hreap : b = a → x.aReap = .fade := by
      rintro rfl
      rw [← reapAt_of hx, hr]
    unfold Arbs.runNext at hr' ⊢
    rw [hs] at hr' ⊢
    dsimp only at hr' ⊢
    cases hxr : x.aReap with
    | live =>
      have hab : b ≠ a := fun he => by cases hxr.symm.trans (hreap he)
      dsimp only
      split
      · exact h.past hat hb hab rfl rfl
      · exact h.past hat hb hab rfl rfl
    | fade =>
      simp only [hxr] at hr' ⊢
      split
      · obtain ⟨k, j, hk, hle, hj⟩ := h
        cases hat.symm.trans hk
        exact ⟨i, j, rfl, hle, hj⟩
      next hstop =>
        refine h.past hat hb ?_ rfl rfl
        rintro rfl
        rw [if_neg hstop] at hr'
        have hset := @reapAt_set s { s.setArb b { x with aReap := .gone } with phase := .running (i + 1) } b x
          { x with aReap := .gone } hx rfl
        cases hset.1.symm.trans hr'
    | gone =>
      have hab : b ≠ a := fun he => by cases hxr.symm.trans (hreap he)
      exact h.past hat hb hab rfl rfl
    | free =>
      obtain ⟨y, hy, hn⟩ := (hp.alive b).mp ⟨i, hb⟩
      cases hx.symm.trans hy
      exact absurd hxr hn

theorem ToSweep.ret (h : s.ToSweep a) (hp : s.Placed) {result : Int} (hact : s.ret result = some (s', out))
    (hr : s.reapAt a = .fade) (hr' : s'.reapAt a = .fade) : s'.ToSweep a := by
  have hcur := hp.current
  unfold Arbs.ret at hact
  split at hact
  next i b hphase =>
    obtain ⟨x, _, hact⟩ := Option.map_eq_some_iff.mp hact
    obtain ⟨k, j, hk, hle, hj⟩ := h
    rw [hphase] at hk
    split at hact <;> cases hact <;> exact ⟨k, j, hk, hle, hj⟩
  next i b hphase =>
    obtain ⟨x, hx, hact⟩ := Option.map_eq_some_iff.mp hact
    cases hact
    simp only [Current, hphase] at hcur
    refine h.past (by rw [hphase, sweepAt]) hcur ?_ rfl rfl
    rintro rfl
    have hset := @reapAt_set s { s.setArb b { x with aReap := .gone } with phase := .running (i + 1) } b x
          { x with aReap := .gone } hx rfl
    cases hset.1.symm.trans hr'
  next i b hphase =>
    obtain ⟨k, j, hk, _⟩ := h
    rw [hphase] at hk
    cases hk
  next => cases hact

theorem ToSweep.act (h : s.ToSweep a) (hp : s.Placed) {c : ArbAction} (hact : s.act c = some (s', out))
    (hc : s'.phase ≠ .crashed) (hr : s.reapAt a = .fade) (hr' : s'.reapAt a = .fade) : s'.ToSweep a := by
  have hidle : s.phase ≠ .idle := by
    intro hphase
    obtain ⟨i, j, hi, _⟩ := h
    rw [hphase] at hi
    cases hi
  cases c with
  | create name type fd mode =>
    simp only [Arbs.act, Option.ite_none_right_eq_some, Option.some.injEq] at hact
    cases hact.2
    obtain ⟨i, j, hi, hle, hj⟩ := h
    obtain ⟨hlt, _⟩ := List.getElem?_eq_some_iff.mp hj
    exact ⟨i, j, hi, hle, by rw [createTypeArb, List.getElem?_append_left hlt, hj]⟩
  | unlink b =>
    simp only [Arbs.act, Option.ite_none_right_eq_some] at hact
    obtain ⟨x, _, hact⟩ := Option.bind_eq_some_iff.mp hact.2
    unfold unlinkArb at hact
    split at hact <;> cases hact <;> exact h.same rfl rfl
  | mode b mode =>
    simp only [Arbs.act, Option.ite_none_right_eq_some] at hact
    obtain ⟨x, _, hact⟩ := Option.bind_eq_some_iff.mp hact.2
    obtain ⟨t, ht, hact⟩ := Option.map_eq_some_iff.mp hact
    cases hact
    unfold modeArb at ht
    split at ht <;> cases ht
    exact h.same rfl rfl
  | find name type =>
    simp only [Arbs.act, Option.ite_none_right_eq_some] at hact
    replace hact := hact.2
    split at hact <;> cases hact
    · exact absurd rfl hc
    · exact h
  | load | run | close =>
    simp only [Arbs.act, Option.ite_none_right_eq_some] at hact
    exact absurd hact.1 hidle
  | next =>
    simp only [Arbs.act, Arbs.next] at hact
    obtain ⟨k, j, hk, _⟩ := id h
    split at hact
    next i hphase =>
      rw [hphase] at hk
      cases hk
    next i hphase =>
      have he := Option.some.inj hact
      have hs := h.runNext hp hphase hr
      rw [he] at hs
      exact hs hr'
    next i hphase =>
      rw [hphase] at hk
      cases hk
    next => cases hact
  | ret result => exact h.ret hp hact hr hr'

/-- An arb that was taken down before a run pass began. -/
def Swept (s : Arbs) (a : Nat) : Prop :=
  s.reapAt a ≠ .live ∧ s.turn a ≠ .call ∧ (s.reapAt a = .fade → s.ToSweep a)

theorem Swept.act (h : s.Swept a) (hp : s.Placed) {c : ArbAction} (hact : s.act c = some (s', out))
    (hc : s'.phase ≠ .crashed) : s'.Swept a := by
  rcases act_cases hp hact hc with ⟨b, hm⟩ | ⟨_, _, _, _, _, rfl, _⟩
  · have hnext : s'.reapAt a ≠ .live ∧ s'.turn a ≠ .call ∧ (s.reapAt a ≠ .fade → s'.reapAt a ≠ .fade) := by
      by_cases hb : a = b
      · subst hb
        exact shift_leaving hm.shift h.1 h.2.1
      · rw [(hm.others a hb).1, (hm.others a hb).2]
        exact ⟨h.1, h.2.1, id⟩
    refine ⟨hnext.1, hnext.2.1, fun hr' => ?_⟩
    by_cases hr : s.reapAt a = .fade
    · exact (h.2.2 hr).act hp hact hc hr hr'
    · exact absurd hr' (hnext.2.2 hr)
  · exact h

/-- An arb that has gone before a load pass began. -/
def Loaded (s : Arbs) (a : Nat) : Prop :=
  s.reapAt a = .free ∨ s.reapAt a = .gone ∧ ∃ i j : Nat, s.phase = .loading i ∧ i ≤ j ∧ s.sExtras[j]? = some (some a)

theorem Loaded.loadNext (hp : s.Placed) (hphase : s.phase = .loading i) (hr : s.reapAt a = .gone)
    (hle : i ≤ j) (hj : s.sExtras[j]? = some (some a)) : (s.loadNext i).1.Loaded a := by
  have hc : s.cleared = 0 := by simp [cleared, hphase]
  obtain ⟨hlt, _⟩ := List.getElem?_eq_some_iff.mp hj
  rcases hp.slot (i := i) (by omega) with ⟨_, hlen⟩ | ⟨b, x, hs, hb, hx, _⟩
  · omega
  · have hreap : b = a → x.aReap = .gone := by
      rintro rfl
      rw [← reapAt_of hx, hr]
    have hpast : b ≠ a → i + 1 ≤ j := by
      intro hab
      rcases Nat.lt_or_eq_of_le hle with hij | rfl
      · exact hij
      · cases hb.symm.trans hj
        exact absurd rfl hab
    unfold Arbs.loadNext
    rw [hs]
    dsimp only
    cases hxr : x.aReap with
    | live =>
      have hab : b ≠ a := fun he => by cases hxr.symm.trans (hreap he)
      have hw : (s.watch x).arbs = s.arbs ∧ (s.watch x).sExtras = s.sExtras := by
        unfold watch
        split <;> exact ⟨rfl, rfl⟩
      refine .inr ⟨?_, i + 1, j, rfl, hpast hab, hw.2 ▸ hj⟩
      rw [← hr, reapAt, reapAt, ← hw.1]
    | fade =>
      have hab : b ≠ a := fun he => by cases hxr.symm.trans (hreap he)
      exact .inr ⟨hr, i + 1, j, rfl, hpast hab, hj⟩
    | gone =>
      simp only [destroyArb, if_pos hxr]
      have hset := @reapAt_set s { s with
        sExtras := removeAt s.sExtras i, arbs := s.arbs.set b ⟨none, -1, 0, 0, .free⟩ } b x _ hx rfl
      by_cases hab : a = b
      · subst hab
        exact .inl hset.1
      · have hij := hpast (Ne.symm hab)
        refine .inr ⟨(hset.2 a hab).trans hr, ?_⟩
        by_cases hlast : j + 1 < s.sExtras.length
        · refine ⟨i, j, hphase, hle, ?_⟩
          change (removeAt s.sExtras i)[j]? = _
          rw [getElem?_removeAt (by omega), if_pos hlast, if_neg (by omega), hj]
        · -- the last entry moves into the place of the one destroyed
          refine ⟨i, i, hphase, Nat.le_refl i, ?_⟩
          change (removeAt s.sExtras i)[i]? = _
          rw [getElem?_removeAt (by omega), if_pos (by omega), if_pos rfl, List.getLast?_eq_getElem?,
            show s.sExtras.length - 1 = j by omega, hj]
    | free =>
      obtain ⟨y, hy, hn⟩ := (hp.alive b).mp ⟨i, hb⟩
      cases hx.symm.trans hy
      exact absurd hxr hn

theorem Loaded.act (h : s.Loaded a) (hs : s.Sound log) {c : ArbAction} (hact : s.act c = some (s', out))
    (hc : s'.phase ≠ .crashed) : s'.Loaded a := by
  rcases h with hfree | ⟨hr, i, j, hphase, hle, hj⟩
  · have hturn : s.turn a = .out := by
      have hrec := hs.records a
      rw [hfree] at hrec
      exact hrec.turn_free
    rcases act_cases hs.placed hact hc with ⟨b, hm⟩ | ⟨_, _, _, _, _, rfl, _⟩
    · by_cases hb : a = b
      · subst hb
        have hs := hm.shift
        rw [hfree, hturn] at hs
        left
        generalize s'.reapAt a = r', s'.turn a = t' at hs
        cases hs
        rfl
      · exact .inl ((hm.others a hb).1.trans hfree)
    · exact .inl hfree
  · have hcalm : s.calm = false := by simp [calm, hphase]
    cases c with
    | next =>
      simp only [Arbs.act, Arbs.next, hphase, Option.some.injEq] at hact
      have hnext := Loaded.loadNext hs.placed hphase hr hle hj
      rw [hact] at hnext
      exact hnext
    | create | unlink | mode | find => simp [Arbs.act, hcalm] at hact
    | load | run | close => simp [Arbs.act, hphase] at hact
    | ret => simp [Arbs.act, Arbs.ret, hphase] at hact

theorem exec_up {acts : List ArbAction} (he : arbMachine.exec s acts = some (s', out)) (hc : s'.phase ≠ .crashed) :
    s.phase ≠ .crashed := by
  cases acts with
  | nil =>
    cases he
    exact hc
  | cons c rest =>
    intro hcrash
    obtain ⟨t, ht, _⟩ := Option.bind_eq_some_iff.mp he
    simp [arbMachine, act_crashed hcrash] at ht

/-- The run pass begins. -/
theorem Sound.begins (h : s.Sound log) (hdown : (told log a).down ≠ none) {read write : List Int}
    (hact : s.act (.run read write) = some (s', out)) : s'.Swept a := by
  simp only [Arbs.act, Option.ite_none_right_eq_some, Option.some.injEq] at hact
  obtain ⟨hphase, hact⟩ := hact
  cases hact
  have hrec := h.records a
  have hout : s.turn a = .out := by simp [turn, hphase]
  rw [hout] at hrec
  refine ⟨hrec.not_live hdown, (show ArbTurn.out ≠ .call by decide), fun hr => ?_⟩
  have hfade : s.reapAt a = .fade := hr
  have halive : s.Alive a := alive_of_reapAt (by simp [hfade]) (by simp [hfade])
  obtain ⟨j, hj⟩ := (h.placed.alive a).mpr halive
  exact ⟨0, j, rfl, Nat.zero_le j, hj⟩

/-- The load pass begins. -/
theorem Swept.loads (hs : s.Swept a) (h : s.Sound log) (hact : s.act .load = some (s', out)) : s'.Loaded a := by
  simp only [Arbs.act, Option.ite_none_right_eq_some, Option.some.injEq] at hact
  obtain ⟨hphase, hact⟩ := hact
  cases hact
  cases hr : s.reapAt a with
  | live => exact absurd hr hs.1
  | fade =>
    obtain ⟨i, j, hi, _⟩ := hs.2.2 hr
    rw [hphase] at hi
    cases hi
  | gone =>
    obtain ⟨j, hj⟩ := (h.placed.alive a).mpr (alive_of_reapAt (by simp [hr]) (by simp [hr]))
    exact .inr ⟨hr, 0, j, rfl, Nat.zero_le j, hj⟩
  | free => exact .inl hr

/-- The arbs that are taken down are destroyed by a run pass and a load pass after it. -/
theorem Sound.destroys (h : s.Sound log) (hdown : (told log a).down ≠ none) {first more last : List ArbAction}
    {read write : List Int}
    (he : arbMachine.exec s (first ++ .run read write :: (more ++ .load :: last)) = some (s', out))
    (hidle : s'.phase = .idle) : (told (log ++ out) a).frees = 1 := by
  have hc : s'.phase ≠ .crashed := by rw [hidle]; nofun
  obtain ⟨s1, _, _, hfirst, he0, rfl⟩ := Machine.exec_append_some he
  obtain ⟨s2, _, hrun, he1, rfl⟩ := Machine.exec_cons_some he0
  obtain ⟨s3, _, _, hmore, he2, rfl⟩ := Machine.exec_append_some he1
  obtain ⟨s4, _, hload, hlast, rfl⟩ := Machine.exec_cons_some he2
  replace hrun := actOf hrun
  replace hload := actOf hload
  have hs1 := (h.exec (fun _ => True) hfirst (exec_up he0 hc) trivial (by simp)).1
  have hs2 := hs1.act hrun (exec_up he1 hc)
  obtain ⟨hs3, hswept⟩ := hs2.exec (Swept · a) hmore (exec_up he2 hc)
    (hs1.begins (by rw [told_append]; exact told_down hdown _) hrun)
    fun _ _ _ _ _ ht hi hact hc => hi.act ht.placed hact hc
  obtain ⟨hs5, hloaded⟩ := (hs3.act hload (exec_up hlast hc)).exec (Loaded · a) hlast hc (hswept.loads hs3 hload)
    fun _ _ _ _ _ ht hi hact hc => hi.act ht hact hc
  have hfree : s'.reapAt a = .free := by
    rcases hloaded with hfree | ⟨_, i, _, hphase, _⟩
    · exact hfree
    · cases hidle.symm.trans hphase
  have htold := (hs5.records a).frees
  rw [hfree, if_pos rfl] at htold
  simpa only [List.append_assoc] using htold

end Passes

/-- Each event of a step fits what was told of its arb. -/
theorem shift_fits {r r' : ArbReap} {t t' : ArbTurn} (hs : ArbShift a r t r' t' out)
    (hrec : ArbTold r t (told log a)) : Fitting ArbFits log out := by
  have hfrees := hrec.frees
  cases hs with
  | still | unlink | unlinkLate | back | fail | skip | stopped => simp [Fitting, ArbFits]
  | call | stop | free | close | drop | dropFade => simpa [Fitting, ArbFits, told_append, tell] using hfrees
  | closed =>
    simpa [Fitting, ArbFits, hrec.turn_stop.1] using hfrees

theorem Placed.up (hp : s.Placed) : s.phase ≠ .crashed := by
  intro hc
  have hcur := hp.current
  simp [Current, hc] at hcur

theorem Sound.step (h : s.Sound log) {c : ArbAction} (hok : s.FindsUp c) (hact : s.act c = some (s', out)) :
    s'.Sound (log ++ out) ∧ Fitting ArbFits log out := by
  by_cases hfind : ∃ name type, c = .find name type
  · obtain ⟨name, type, rfl⟩ := hfind
    rcases find_spec hact with ⟨hnone, _⟩ | ⟨result, hsome, rfl, rfl⟩
    · exact absurd hnone (hok.reads h.placed)
    · refine ⟨h.act hact h.placed.up, ?_, trivial⟩
      cases result with
      | none => exact trivial
      | some b =>
        obtain ⟨hlive, hturn⟩ := hok.up hsome
        have hrec := h.records b
        rw [hlive] at hrec
        exact hrec.down_live hturn
  · obtain ⟨a, hm⟩ := act_moved h.placed hact fun name type he => hfind ⟨name, type, he⟩
    exact ⟨h.moved hm, shift_fits hm.shift (h.records a)⟩

theorem runs_sound (h : arbMachine.Runs FindsUp s log) : s.Sound log ∧ Fitting ArbFits [] log := by
  refine h.invariant (fun s log => s.Sound log ∧ Fitting ArbFits [] log) ⟨noArbs_sound, trivial⟩ ?_
  intro s log c s' ⟨hs, hfits⟩ hok hstep
  obtain ⟨hs', hout⟩ := hs.step hok (actOf hstep)
  exact ⟨hs', (fitting_append [] log _).mpr ⟨hfits, hout⟩⟩

end Arbs

/-- The arb was unlinked, its callback failed, or the final teardown came to it. -/
def TakenDown (log : List ArbEvent) (a : Nat) : Prop := (told log a).down ≠ none

/-- What a run of the registry keeps. -/
structure ArbsKept (s : Arbs) (log : List ArbEvent) : Prop where
  unlinked : ∀ a s' out, s.act (.unlink a) = some (s', out) → TakenDown (log ++ out) a
  failed : ∀ i a result s' out, s.phase = .inCall i a → result ≠ 0 → s.act (.ret result) = some (s', out) →
    TakenDown (log ++ out) a
  found : ∀ before rest name type a, log = before ++ .found name type (some a) :: rest → ¬ TakenDown before a
  stopped : ∀ a, (told log a).stops ≤ 1
  asked : ∀ a, (told log a).frees = 1 → TakenDown log a ∧
    ((told log a).stops = 1 ↔ (told log a).down = some true ∧ (told log a).dues = [true])
  turn : ∀ a, (told log a).frees = 1 → (told log a).down = some true → ∃ asks, (told log a).dues = [asks]
  silent : ∀ before rest a mode, log = before ++ .called a mode :: rest → (told before a).frees = 0
  freed : ∀ a, (told log a).frees ≤ 1
  destroyed : ∀ a, TakenDown log a → ∀ first more last read write t out,
    arbMachine.exec s (first ++ .run read write :: (more ++ .load :: last)) = some (t, out) → t.phase = .idle →
      (told (log ++ out) a).frees = 1
  gone : ∀ a, (told log a).frees = 1 → ∀ j : Nat, s.sExtras[j]? ≠ some (some a)
  registered : ∀ a, a < s.arbs.length → (told log a).frees = 0 → ∃! j : Nat, s.sExtras[j]? = some (some a)
  standing : ∀ a, a < s.arbs.length → ¬ TakenDown log a → s.reapAt a = .live ∧
    ∃! j : Nat, s.sExtras[j]? = some (some a)

theorem Arbs.ret_takesDown {s s' : Arbs} {log out : List ArbEvent} {a i : Nat} {result : Int}
    (hphase : s.phase = .inCall i a) (hresult : result ≠ 0) (hact : s.act (.ret result) = some (s', out)) :
    TakenDown (log ++ out) a := by
  simp only [Arbs.act, ret, hphase] at hact
  obtain ⟨x, _, hact⟩ := Option.map_eq_some_iff.mp hact
  rw [if_pos hresult] at hact
  cases hact
  rw [TakenDown, told_append]
  simp [tell]

namespace Arbs.Sound

variable {s s' : Arbs} {log out : List ArbEvent} {a : Nat}

theorem takenDown (h : s.Sound log) (hr : s.reapAt a ≠ .live) : TakenDown log a := (h.records a).down_of_ne hr

theorem unlinks (h : s.Sound log) (hact : s.act (.unlink a) = some (s', out)) : TakenDown (log ++ out) a := by
  have hphase : s'.phase = s.phase := by
    simp only [Arbs.act, Option.ite_none_right_eq_some] at hact
    obtain ⟨x, _, hact⟩ := Option.bind_eq_some_iff.mp hact.2
    unfold unlinkArb at hact
    split at hact <;> cases hact <;> rfl
  have hs := h.act hact (hphase ▸ h.placed.up)
  apply hs.takenDown
  simp only [Arbs.act, Option.ite_none_right_eq_some] at hact
  obtain ⟨x, hx, hact⟩ := Option.bind_eq_some_iff.mp hact.2
  unfold unlinkArb at hact
  split at hact
  · cases hact
    rw [(reapAt_set hx rfl).1]
    exact leaving_ne_live x
  next hr =>
    cases hact
    simp [reapAt_of hx, hr]
  next hr =>
    cases hact
    simp [reapAt_of hx, hr]
  · cases hact

theorem unique (h : s.Sound log) (halive : s.Alive a) : ∃! j : Nat, s.sExtras[j]? = some (some a) := by
  obtain ⟨j, hj⟩ := (h.placed.alive a).mpr halive
  exact ⟨j, hj, fun k hk => h.placed.once k j a hk hj⟩

theorem alive (h : s.Sound log) (ha : a < s.arbs.length) (hfrees : (told log a).frees = 0) : s.Alive a := by
  have hx := List.getElem?_eq_getElem ha
  refine (alive_of hx).mpr fun hr => ?_
  have hrec := (h.records a).frees
  rw [reapAt_of hx, hr, hfrees] at hrec
  cases hrec

theorem free (h : s.Sound log) (hfrees : (told log a).frees = 1) : s.reapAt a = .free := by
  have hrec := (h.records a).frees
  rw [hfrees] at hrec
  by_contra hr
  rw [if_neg hr] at hrec
  cases hrec

theorem live (h : s.Sound log) (hup : ¬ TakenDown log a) : s.reapAt a = .live := by
  by_contra hr
  exact hup (h.takenDown hr)

end Arbs.Sound

theorem ArbTold.asked {rec : ArbRecord} {t : ArbTurn} (h : ArbTold .free t rec) :
    (rec.stops = 1 ↔ rec.down = some true ∧ rec.dues = [true]) ∧
      (rec.down = some true → ∃ asks, rec.dues = [asks]) := by
  cases h with
  | stopping hr => exact absurd rfl hr
  | freed h =>
    cases h with
    | quiet => simp
    | settled asked asks hb => cases asked <;> cases asks <;> simp_all

theorem ArbTold.stops_le {r : ArbReap} {rec : ArbRecord} {t : ArbTurn} (h : ArbTold r t rec) : rec.stops ≤ 1 := by
  cases h with
  | freed h =>
    cases h with
    | quiet => simp
    | settled asked asks => exact Bool.toNat_le asks
  | settled asked asks => exact Bool.toNat_le asks
  | live | fade | quiet | stopping => simp

/-- In a run that looks up a name only while no arb that was taken down stands in front of the
others that bear it, every arb is found, stopped and destroyed as often as it should be. -/
theorem arbs_kept {s : Arbs} {log : List ArbEvent} (h : arbMachine.Runs Arbs.FindsUp s log) : ArbsKept s log := by
  obtain ⟨hs, hfits⟩ := Arbs.runs_sound h
  have hrec : ∀ a, (told log a).frees = 1 → ArbTold .free (s.turn a) (told log a) := by
    intro a hfrees
    rw [← hs.free hfrees]
    exact hs.records a
  refine ⟨fun a s' out => hs.unlinks, fun i a result s' out => Arbs.ret_takesDown, ?_,
    fun a => (hs.records a).stops_le, ?_, fun a hfrees => (hrec a hfrees).asked.2, fun before rest a mode hlog => hfits.entry hlog, ?_, ?_, ?_, ?_, ?_⟩
  · intro before rest name type a hlog hdown
    exact hdown (hfits.entry hlog)
  · intro a hfrees
    exact ⟨(hrec a hfrees).down_of_ne (by nofun), (hrec a hfrees).asked.1⟩
  · intro a
    rw [(hs.records a).frees]
    split <;> decide
  · intro a hdown first more last read write t out he hidle
    exact hs.destroys hdown he hidle
  · intro a hfrees j hj
    obtain ⟨x, hx, hn⟩ := (hs.placed.alive a).mp ⟨j, hj⟩
    exact hn ((Arbs.reapAt_of hx).symm.trans (hs.free hfrees))
  · intro a ha hfrees
    exact hs.unique (hs.alive ha hfrees)
  · intro a ha hup
    have hlive := hs.live hup
    have hx := List.getElem?_eq_getElem ha
    refine ⟨hlive, hs.unique ((Arbs.alive_of hx).mpr fun hr => ?_)⟩
    cases hlive.symm.trans ((Arbs.reapAt_of hx).trans hr)

/-- An arb that handles stop is unlinked, told so and destroyed; the other takes its place. -/
def stoppedArb : List ArbAction :=
  [.create (some [byte 'a']) 0 3 5, .create none 0 4 1, .unlink 0, .run [4] [], .next, .ret 0, .next, .ret 0, .next,
    .load, .next, .next, .next]

theorem arbs_kept_stopped : ∃ s log, (told log 0).stops = 1 ∧ (told log 0).frees = 1 ∧ s.sExtras = [some 1] ∧
    ArbsKept s log := by
  have he : (arbMachine.exec noArbs stoppedArb).isSome = true := by decide
  obtain ⟨⟨s, log⟩, he⟩ := Option.isSome_iff_exists.mp he
  have hval : (arbMachine.exec noArbs stoppedArb).map (fun r =>
      ((told r.2 0).stops, (told r.2 0).frees, r.1.sExtras)) = some (1, 1, [some 1]) := by decide
  rw [he] at hval
  simp only [Option.map_some, Option.some.injEq, Prod.mk.injEq] at hval
  have hmeets : arbMachine.Meets Arbs.FindsUp noArbs stoppedArb := by
    simp [Machine.Meets, stoppedArb, Arbs.FindsUp]
  exact ⟨s, log, hval.1, hval.2.1, hval.2.2, arbs_kept (Machine.Runs.start.exec stoppedArb he hmeets)⟩

/-- The arb is unlinked, and looked up before a load pass has destroyed it. -/
theorem unlinked_arb_found : ∃ s log, arbMachine.Runs (fun _ _ => True) s log ∧ ¬ ∀ before rest name type a,
    log = before ++ .found name type (some a) :: rest → ¬ TakenDown before a := by
  have he : (arbMachine.exec noArbs
      [.create (some [byte 'a']) 0 3 1, .unlink 0, .find [byte 'a'] 0]).map Prod.snd =
      some [.down 0 false, .found [byte 'a'] 0 (some 0)] := by decide
  obtain ⟨⟨s, log⟩, he, hlog⟩ := Option.map_eq_some_iff.mp he
  dsimp only at hlog
  refine ⟨s, log, Machine.Runs.start.exec _ he (arbMachine.meets_true _ _), fun h => ?_⟩
  exact h [.down 0 false] [] [byte 'a'] 0 0 hlog (show some false ≠ none by decide)

end Katcp
