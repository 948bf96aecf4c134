import Katcp.ArbReaping

namespace Katcp

open SwapVector

namespace Arbs

/-- One step is about one arb, and keeps the vector in order. -/
structure Moved (s s' : Arbs) (a : Nat) (out : List ArbEvent) : Prop where
  shift : ArbShift a (s.reapAt a) (s.turn a) (s'.reapAt a) (s'.turn a) out
  others : ∀ b, b ≠ a → s'.reapAt b = s.reapAt b ∧ s'.turn b = s.turn b
  placed : s'.Placed

variable {s s' : Arbs} {a b i j : Nat} {x y : Arb} {out : List ArbEvent}

theorem Moved.phase (hp : s.Placed) (ha : s'.arbs = s.arbs) (he : s'.sExtras = s.sExtras)
    (hc : s'.cleared = s.cleared) (hcur : s'.Current) (hturn : ∀ b, b ≠ a → s'.turn b = s.turn b)
    (hs : ArbShift a (s.reapAt a) (s.turn a) (s.reapAt a) (s'.turn a) out) : Moved s s' a out := by
  have hreap : ∀ b, s'.reapAt b = s.reapAt b := fun b => by rw [reapAt, reapAt, ha]
  refine ⟨?_, fun b hb => ⟨hreap b, hturn b hb⟩, hp.same he (fun b => by rw [Alive, Alive, ha]) hc hcur⟩
  rw [hreap]
  exact hs

theorem Moved.change (hx : s.arbs[a]? = some x) (ha : s'.arbs = s.arbs.set a y)
    (hturn : ∀ b, b ≠ a → s'.turn b = s.turn b) (hplaced : s'.Placed)
    (hs : ArbShift a x.aReap (s.turn a) y.aReap (s'.turn a) out) : Moved s s' a out := by
  obtain ⟨hself, hother⟩ := reapAt_set hx ha
  refine ⟨?_, fun b hb => ⟨hother b hb, hturn b hb⟩, hplaced⟩
  rw [reapAt_of hx, hself]
  exact hs

theorem Moved.set (hp : s.Placed) (hx : s.arbs[a]? = some x) (hn : x.aReap ≠ .free)
    (ha : s'.arbs = s.arbs.set a y) (hy : y.aReap ≠ .free) (he : s'.sExtras = s.sExtras)
    (hc : s'.cleared = s.cleared) (hcur : s'.Current) (hturn : ∀ b, b ≠ a → s'.turn b = s.turn b)
    (hs : ArbShift a x.aReap (s.turn a) y.aReap (s'.turn a) out) : Moved s s' a out := by
  obtain ⟨halive, hother⟩ := alive_set hx ha
  refine .change hx ha hturn (hp.same he (fun b => ?_) hc hcur) hs
  by_cases hb : b = a
  · subst hb
    exact iff_of_true (halive.mpr hy) ((alive_of hx).mpr hn)
  · exact hother b hb

theorem leaving_eq (x : Arb) : x.leaving = if x.wants arbStop then .fade else .gone := rfl

theorem leaving_ne_free (x : Arb) : x.leaving ≠ .free := by
  rw [leaving_eq]
  split <;> nofun

theorem leaving_ne_live (x : Arb) : x.leaving ≠ .live := by
  rw [leaving_eq]
  split <;> nofun

theorem readyMode_ne_stop (s : Arbs) (fd : Int) : s.readyMode fd ≠ arbStop := by
  unfold readyMode
  split <;> split <;> decide

theorem loadNext_moved (hp : s.Placed) (hphase : s.phase = .loading i) :
    ∃ a, Moved s (s.loadNext i).1 a (s.loadNext i).2 := by
  have hturn : ∀ b, s.turn b = .out := fun b => by simp [turn, hphase]
  have hc : s.cleared = 0 := by simp [cleared, hphase]
  unfold loadNext
  rcases hp.slot (i := i) (by omega) with ⟨hs, _⟩ | ⟨a, x, hs, hi, hx, hn⟩
  · rw [hs]
    exact ⟨0, .phase hp rfl rfl hc.symm trivial (fun b _ => (hturn b).symm) (by rw [hturn]; exact .still)⟩
  · refine ⟨a, ?_⟩
    rw [hs]
    dsimp only
    cases hr : x.aReap with
    | live =>
      have hw : (s.watch x).arbs = s.arbs ∧ (s.watch x).sExtras = s.sExtras := by
        unfold watch
        split <;> exact ⟨rfl, rfl⟩
      exact .phase hp hw.1 hw.2 hc.symm trivial (fun b _ => (hturn b).symm) (by rw [hturn]; exact .still)
    | fade =>
      exact .phase hp rfl rfl hc.symm trivial (fun b _ => (hturn b).symm) (by rw [hturn]; exact .still)
    | gone =>
      dsimp only
      rw [destroyArb, if_pos hr]
      have hcur : (setArb { s with sExtras := removeAt s.sExtras i } a ⟨none, -1, 0, 0, .free⟩).Current := by
        simp only [Current, setArb, hphase]
      refine .change hx rfl (fun b _ => rfl) (hp.remove hi hx hc rfl rfl rfl hc hcur) ?_
      have hshift : ArbShift a .gone (s.turn a) .free (s.turn a) [.freed a] := by
        rw [hturn]
        exact .free
      rw [hr]
      exact hshift
    | free => exact absurd hr hn

theorem closeOut_moved (pre : List ArbEvent) (hp : s.Placed) (hi : s.sExtras[i]? = some (some a))
    (hx : s.arbs[a]? = some x) (hc : s.cleared = i) (hturn : ∀ b, b ≠ a → s.turn b = .out)
    (hs : ArbShift a x.aReap (s.turn a) .free .out (pre ++ [.freed a])) :
    Moved s (s.closeOut i a x).1 a (pre ++ (s.closeOut i a x).2) := by
  rw [closeOut, destroyArb, if_pos rfl]
  exact .change hx rfl (fun b hb => (hturn b hb).symm) (hp.clear hi hx hc rfl rfl rfl rfl trivial) hs

theorem closeNext_moved (hp : s.Placed) (hphase : s.phase = .closing i) :
    ∃ a, Moved s (s.closeNext i).1 a (s.closeNext i).2 := by
  have hturn : ∀ b, s.turn b = .out := fun b => by simp [turn, hphase]
  have hc : s.cleared = i := by simp [cleared, hphase]
  unfold closeNext
  rcases hp.slot (i := i) (by omega) with ⟨hs, hlen⟩ | ⟨a, x, hs, hi, hx, hn⟩
  · rw [hs]
    refine ⟨0, ?_, fun b _ => ⟨rfl, (hturn b).symm⟩, hp.ended hlen hc rfl rfl trivial⟩
    rw [hturn]
    exact .still
  · refine ⟨a, ?_⟩
    have hopen : ({ s with phase := .inClose i a } : Arbs).Current := hi
    have hother : ∀ b, b ≠ a → ({ s with phase := .inClose i a } : Arbs).turn b = s.turn b := by
      intro b hb
      simp [turn, hphase, Ne.symm hb]
    have hself : ({ s with phase := .inClose i a } : Arbs).turn a = .stop := by simp [turn]
    rw [hs]
    dsimp only
    cases hr : x.aReap with
    | live =>
      dsimp only
      split
      · refine .phase hp rfl rfl hc.symm hopen hother ?_
        rw [hturn, reapAt_of hx, hr, hself]
        exact .close
      · refine closeOut_moved [.down a false, .due a false] hp hi hx hc (fun b _ => hturn b) ?_
        rw [hturn, hr]
        exact .drop
    | fade =>
      dsimp only
      split
      · refine .phase hp rfl rfl hc.symm hopen hother ?_
        rw [hturn, reapAt_of hx, hr, hself]
        exact .stop
      · refine closeOut_moved [.due a false] hp hi hx hc (fun b _ => hturn b) ?_
        rw [hturn, hr]
        exact .dropFade
    | gone =>
      refine closeOut_moved [] hp hi hx hc (fun b _ => hturn b) ?_
      rw [hturn, hr]
      exact .free
    | free => exact absurd hr hn

theorem runNext_moved (hp : s.Placed) (hphase : s.phase = .running i) :
    ∃ a, Moved s (s.runNext i).1 a (s.runNext i).2 := by
  have hturn : ∀ b, s.turn b = .out := fun b => by simp [turn, hphase]
  have hc : s.cleared = 0 := by simp [cleared, hphase]
  unfold runNext
  rcases hp.slot (i := i) (by omega) with ⟨hs, _⟩ | ⟨a, x, hs, hi, hx, hn⟩
  · rw [hs]
    exact ⟨0, .phase hp rfl rfl hc.symm trivial (fun b _ => (hturn b).symm) (by rw [hturn]; exact .still)⟩
  · refine ⟨a, ?_⟩
    rw [hs]
    dsimp only
    cases hr : x.aReap with
    | live =>
      dsimp only
      split
      · have hcall : ({ s with ran := s.ran + 1, phase := .inCall i a } : Arbs).turn a = .call := by simp [turn]
        refine .phase hp rfl rfl hc.symm hi (fun b hb => by simp [turn, hphase, Ne.symm hb]) ?_
        rw [hturn, reapAt_of hx, hr, hcall]
        exact .call (readyMode_ne_stop s x.aFd)
      · exact .phase hp rfl rfl hc.symm trivial (fun b _ => (hturn b).symm) (by rw [hturn]; exact .still)
    | fade =>
      dsimp only
      split
      · have hstop : ({ s with phase := .inStop i a } : Arbs).turn a = .stop := by simp [turn]
        refine .phase hp rfl rfl hc.symm hi (fun b hb => by simp [turn, hphase, Ne.symm hb]) ?_
        rw [hturn, reapAt_of hx, hr, hstop]
        exact .stop
      · refine .set hp hx hn rfl (by simp) rfl hc.symm trivial (fun b _ => (hturn b).symm) ?_
        rw [hturn, hr]
        exact .skip
    | gone =>
      exact .phase hp rfl rfl hc.symm trivial (fun b _ => (hturn b).symm) (by rw [hturn]; exact .still)
    | free => exact absurd hr hn

theorem ret_moved (hp : s.Placed) {result : Int} (h : s.ret result = some (s', out)) : ∃ a, Moved s s' a out := by
  have hcur := hp.current
  unfold ret at h
  split at h
  next i a hphase =>
    obtain ⟨x, hx, h⟩ := Option.map_eq_some_iff.mp h
    simp only [Current, hphase] at hcur
    have hn : x.aReap ≠ .free := (alive_of hx).mp ((hp.alive a).mp ⟨i, hcur⟩)
    have hc : s.cleared = 0 := by simp [cleared, hphase]
    have hself : s.turn a = .call := by simp [turn, hphase]
    have hother : ∀ b, b ≠ a → .out = s.turn b := fun b hb => by simp [turn, hphase, Ne.symm hb]
    refine ⟨a, ?_⟩
    split at h
    · cases h
      refine .set hp hx hn rfl (leaving_ne_free x) rfl hc.symm trivial hother ?_
      rw [hself, leaving_eq]
      exact .fail (x.wants arbStop)
    · cases h
      refine .phase hp rfl rfl hc.symm trivial hother ?_
      rw [hself]
      exact .back
  next i a hphase =>
    obtain ⟨x, hx, h⟩ := Option.map_eq_some_iff.mp h
    cases h
    simp only [Current, hphase] at hcur
    have hn : x.aReap ≠ .free := (alive_of hx).mp ((hp.alive a).mp ⟨i, hcur⟩)
    have hc : s.cleared = 0 := by simp [cleared, hphase]
    have hself : s.turn a = .stop := by simp [turn, hphase]
    refine ⟨a, .set hp hx hn rfl (by simp) rfl hc.symm trivial
      (fun b hb => by simp [turn, hphase, Ne.symm hb]) ?_⟩
    rw [hself]
    exact .stopped hn
  next i a hphase =>
    obtain ⟨x, hx, h⟩ := Option.map_eq_some_iff.mp h
    simp only [Current, hphase] at hcur
    have hc : s.cleared = i := by simp [cleared, hphase]
    have hself : s.turn a = .stop := by simp [turn, hphase]
    have hmoved := closeOut_moved [] hp hcur hx hc
      (fun b hb => by simp [turn, hphase, Ne.symm hb]) (by rw [hself]; exact .closed)
    rw [h] at hmoved
    exact ⟨a, hmoved⟩
  next => cases h

theorem unlinkArb_moved (hp : s.Placed) (hx : s.arbs[a]? = some x) (h : s.unlinkArb a x = some (s', out)) :
    Moved s s' a out := by
  unfold unlinkArb at h
  split at h
  next hr =>
    cases h
    have hcur : Current (s.setArb a { x with aFd := if 0 ≤ x.aFd then -1 else x.aFd, aReap := x.leaving }) :=
      hp.current
    refine .set hp hx (by rw [hr]; nofun) rfl (leaving_ne_free x) rfl rfl hcur (fun b _ => rfl) ?_
    rw [hr]
    change ArbShift a .live (s.turn a) x.leaving (s.turn a) _
    split
    next ht =>
      rw [ht]
      exact .unlinkLate (leaving_ne_free x)
    next ht =>
      rw [leaving_eq]
      exact .unlink (x.wants arbStop) ht
  · cases h
    exact .phase hp rfl rfl rfl hp.current (fun b _ => rfl) .still
  · cases h
    exact .phase hp rfl rfl rfl hp.current (fun b _ => rfl) .still
  · cases h

theorem modeArb_moved (hp : s.Placed) (hx : s.arbs[a]? = some x) {mode : Nat}
    (h : s.modeArb a x mode = some s') : Moved s s' a [] := by
  unfold modeArb at h
  split at h
  · cases h
  next hn =>
    cases h
    exact .set hp hx hn rfl hn rfl rfl hp.current (fun b _ => rfl) .still

theorem createTypeArb_moved (hp : s.Placed) (hcalm : s.calm = true) (name : Option Text) (type : Nat) (fd : Int)
    (mode : Nat) : Moved s (s.createTypeArb name type fd mode) 0 [] := by
  have hreap : ∀ b, (s.createTypeArb name type fd mode).reapAt b = s.reapAt b := by
    intro b
    rw [reapAt, reapAt, createTypeArb, List.getElem?_append]
    split
    · rfl
    next hlt =>
      rw [List.getElem?_eq_none (l := s.arbs) (by omega)]
      cases hb : b - s.arbs.length <;> rfl
  refine ⟨?_, fun b _ => ⟨hreap b, rfl⟩, hp.create hcalm name type fd mode⟩
  rw [hreap]
  exact .still

/-- A pass begins. -/
theorem begin_moved (hp : s.Placed) (hphase : s.phase = .idle) (ha : s'.arbs = s.arbs) (he : s'.sExtras = s.sExtras)
    (hc : s'.cleared = 0) (hcur : s'.Current) (hturn : ∀ b, s'.turn b = .out) : Moved s s' 0 [] := by
  have hout : ∀ b, s.turn b = .out := fun b => by simp [turn, hphase]
  have hclear : s.cleared = 0 := by simp [cleared, hphase]
  refine .phase hp ha he (hc.trans hclear.symm) hcur (fun b _ => (hturn b).trans (hout b).symm) ?_
  rw [hturn, hout]
  exact .still

/-- What a step does that is no look up. -/
theorem act_moved (hp : s.Placed) {c : ArbAction} (h : s.act c = some (s', out))
    (hc : ∀ name type, c ≠ .find name type) : ∃ a, Moved s s' a out := by
  cases c with
  | create name type fd mode =>
    simp only [act, Option.ite_none_right_eq_some, Option.some.injEq] at h
    obtain ⟨hcalm, h⟩ := h
    cases h
    exact ⟨0, createTypeArb_moved hp hcalm name type fd mode⟩
  | unlink a =>
    simp only [act, Option.ite_none_right_eq_some] at h
    obtain ⟨x, hx, h⟩ := Option.bind_eq_some_iff.mp h.2
    exact ⟨a, unlinkArb_moved hp hx h⟩
  | mode a mode =>
    simp only [act, Option.ite_none_right_eq_some] at h
    obtain ⟨x, hx, h⟩ := Option.bind_eq_some_iff.mp h.2
    obtain ⟨t, ht, h⟩ := Option.map_eq_some_iff.mp h
    cases h
    exact ⟨a, modeArb_moved hp hx ht⟩
  | find name type => exact absurd rfl (hc name type)
  | load | run | close =>
    simp only [act, Option.ite_none_right_eq_some, Option.some.injEq] at h
    obtain ⟨hphase, h⟩ := h
    cases h
    exact ⟨0, begin_moved hp hphase rfl rfl rfl trivial fun b => rfl⟩
  | next =>
    simp only [act, Arbs.next] at h
    split at h
    next i hphase =>
      obtain ⟨a, hm⟩ := loadNext_moved hp hphase
      rw [Option.some.inj h] at hm
      exact ⟨a, hm⟩
    next i hphase =>
      obtain ⟨a, hm⟩ := runNext_moved hp hphase
      rw [Option.some.inj h] at hm
      exact ⟨a, hm⟩
    next i hphase =>
      obtain ⟨a, hm⟩ := closeNext_moved hp hphase
      rw [Option.some.inj h] at hm
      exact ⟨a, hm⟩
    next => cases h
  | ret result => exact ret_moved hp h

/-- A look up changes nothing, unless it reads through a null pointer. -/
theorem find_spec {name : Text} {type : Nat} (h : s.act (.find name type) = some (s', out)) :
    (s.findTypeArb name type = none ∧ s' = s.crash) ∨
    ∃ result, s.findTypeArb name type = some result ∧ s' = s ∧ out = [.found name type result] := by
  simp only [act, Option.ite_none_right_eq_some] at h
  replace h := h.2
  split at h
  next hnone =>
    cases h
    exact .inl ⟨hnone, rfl⟩
  next result hsome =>
    cases h
    exact .inr ⟨result, hsome, rfl, rfl⟩

/-- A step that does not crash the server moves one arb, or is a look up. -/
theorem act_cases (hp : s.Placed) {c : ArbAction} (h : s.act c = some (s', out)) (hc : s'.phase ≠ .crashed) :
    (∃ a, Moved s s' a out) ∨ ∃ name type result, c = .find name type ∧ s.findTypeArb name type = some result ∧
      s' = s ∧ out = [.found name type result] := by
  by_cases hfind : ∃ name type, c = .find name type
  · obtain ⟨name, type, rfl⟩ := hfind
    rcases find_spec h with ⟨_, rfl⟩ | ⟨result, hsome, hs, hout⟩
    · exact absurd rfl hc
    · exact .inr ⟨name, type, result, rfl, hsome, hs, hout⟩
  · exact .inl (act_moved hp h fun name type he => hfind ⟨name, type, he⟩)

end Arbs

end Katcp
