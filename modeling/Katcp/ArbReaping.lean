import Katcp.ArbRegistry

namespace Katcp

open SwapVector

/-- What a log tells of one arb: whether it asked for the stop callback when it was taken down,
what it asked when its turn came, how often the stop callback ran and how often it was destroyed. -/
structure ArbRecord where
  down : Option Bool
  dues : List Bool
  stops : Nat
  frees : Nat
deriving DecidableEq, Repr

def tell (a : Nat) (r : ArbRecord) : ArbEvent → ArbRecord
  | .down b asks => if b = a then { r with down := some asks } else r
  | .due b asks => if b = a then { r with dues := r.dues ++ [asks] } else r
  | .called b mode => if b = a ∧ mode = arbStop then { r with stops := r.stops + 1 } else r
  | .freed b => if b = a then { r with frees := r.frees + 1 } else r
  | .found .. => r

def told (log : List ArbEvent) (a : Nat) : ArbRecord := log.foldl (tell a) ⟨none, [], 0, 0⟩

theorem told_append (log out : List ArbEvent) (a : Nat) : told (log ++ out) a = out.foldl (tell a) (told log a) :=
  List.foldl_append ..

/-- What the log tells of an arb in each state of its life. -/
inductive ArbTold : ArbReap → ArbTurn → ArbRecord → Prop
  | live {t : ArbTurn} : t ≠ .stop → ArbTold .live t ⟨none, [], 0, 0⟩
  | fade {t : ArbTurn} : t ≠ .stop → ArbTold .fade t ⟨some true, [], 0, 0⟩
  | quiet {t : ArbTurn} : t ≠ .stop → ArbTold .gone t ⟨some false, [], 0, 0⟩
  | stopping {r : ArbReap} : r ≠ .free → ArbTold r .stop ⟨some true, [true], 1, 0⟩
  | settled (asked asks : Bool) : (asks = true → asked = true) →
      ArbTold .gone .out ⟨some asked, [asks], asks.toNat, 0⟩
  | freed {r : ArbRecord} : ArbTold .gone .out r → ArbTold .free .out { r with frees := 1 }

/-- What a step can do to an arb, and what is told of it. -/
inductive ArbShift (a : Nat) : ArbReap → ArbTurn → ArbReap → ArbTurn → List ArbEvent → Prop
  | still {r : ArbReap} {t : ArbTurn} : ArbShift a r t r t []
  | unlink {t : ArbTurn} (asks : Bool) : t ≠ .stop →
      ArbShift a .live t (if asks then .fade else .gone) t [.down a asks]
  | unlinkLate {r : ArbReap} : r ≠ .free → ArbShift a .live .stop r .stop []
  | call {mode : Nat} : mode ≠ arbStop → ArbShift a .live .out .live .call [.called a mode]
  | back {r : ArbReap} : ArbShift a r .call r .out []
  | fail {r : ArbReap} (asks : Bool) :
      ArbShift a r .call (if asks then .fade else .gone) .out [.down a asks]
  | stop : ArbShift a .fade .out .fade .stop [.due a true, .called a arbStop]
  | skip : ArbShift a .fade .out .gone .out [.due a false]
  | stopped {r : ArbReap} : r ≠ .free → ArbShift a r .stop .gone .out []
  | free : ArbShift a .gone .out .free .out [.freed a]
  | close : ArbShift a .live .out .live .stop [.down a true, .due a true, .called a arbStop]
  | drop : ArbShift a .live .out .free .out [.down a false, .due a false, .freed a]
  | dropFade : ArbShift a .fade .out .free .out [.due a false, .freed a]
  | closed {r : ArbReap} : ArbShift a r .stop .free .out [.freed a]

theorem ArbTold.shift {a : Nat} {r r' : ArbReap} {t t' : ArbTurn} {out : List ArbEvent} {rec : ArbRecord}
    (h : ArbTold r t rec) (hs : ArbShift a r t r' t' out) : ArbTold r' t' (out.foldl (tell a) rec) := by
  cases hs with
  | still => exact h
  | unlink asks ht =>
    cases h with
    | live => cases asks <;> simp [tell] <;> constructor <;> exact ht
    | stopping => exact absurd rfl ht
  | unlinkLate hr =>
    cases h with
    | live ht => exact absurd rfl ht
    | stopping => exact .stopping hr
  | call hm =>
    cases h
    simpa [tell, hm] using ArbTold.live (by decide)
  | back => cases h <;> constructor <;> decide
  | fail asks => cases h <;> cases asks <;> simp [tell] <;> constructor <;> decide
  | stop =>
    cases h
    simpa [tell] using ArbTold.stopping (by decide)
  | skip =>
    cases h
    simpa [tell] using ArbTold.settled true false (by decide)
  | stopped =>
    cases h with
    | stopping => exact .settled true true fun _ => rfl
    | live ht | fade ht | quiet ht => exact absurd rfl ht
  | free =>
    cases h with
    | quiet => simpa [tell] using ArbTold.freed (.quiet (by decide))
    | settled asked asks hb => simpa [tell] using ArbTold.freed (.settled asked asks hb)
  | close =>
    cases h
    simpa [tell] using ArbTold.stopping (by decide)
  | drop =>
    cases h
    simpa [tell] using ArbTold.freed (.settled false false (by decide))
  | dropFade =>
    cases h
    simpa [tell] using ArbTold.freed (.settled true false (by decide))
  | closed =>
    cases h with
    | stopping => simpa [tell] using ArbTold.freed (.settled true true fun _ => rfl)
    | live ht | fade ht | quiet ht => exact absurd rfl ht

theorem ArbShift.tell_other {a b : Nat} {r r' : ArbReap} {t t' : ArbTurn} {out : List ArbEvent}
    (hs : ArbShift a r t r' t' out) (hb : b ≠ a) (rec : ArbRecord) : out.foldl (tell b) rec = rec := by
  cases hs <;> simp [tell, Ne.symm hb]

namespace Arbs

variable {s s' : Arbs} {a b i j : Nat} {x y : Arb} {out : List ArbEvent}

/-- The reaping state of an arb; one that is not made yet counts as live. -/
def reapAt (s : Arbs) (a : Nat) : ArbReap := (s.arbs[a]?.map Arb.aReap).getD .live

/-- The arb was made and its memory not released. -/
def Alive (s : Arbs) (a : Nat) : Prop := ∃ x, s.arbs[a]? = some x ∧ x.aReap ≠ .free

/-- The final teardown has cleared this many places of the vector. -/
def cleared (s : Arbs) : Nat :=
  match s.phase with
  | .closing i | .inClose i _ => i
  | _ => 0

def Current (s : Arbs) : Prop :=
  match s.phase with
  | .inCall i a | .inStop i a | .inClose i a => s.sExtras[i]? = some (some a)
  | .crashed => False
  | _ => True

theorem reapAt_of (h : s.arbs[a]? = some x) : s.reapAt a = x.aReap := by rw [reapAt, h]; rfl

theorem alive_of (h : s.arbs[a]? = some x) : s.Alive a ↔ x.aReap ≠ .free := by
  constructor
  · rintro ⟨y, hy, hne⟩
    cases h.symm.trans hy
    exact hne
  · exact fun hne => ⟨x, h, hne⟩

theorem alive_of_reapAt (hlive : s.reapAt a ≠ .live) (hfree : s.reapAt a ≠ .free) : s.Alive a := by
  cases hx : s.arbs[a]? with
  | none => exact absurd (by rw [reapAt, hx]; rfl) hlive
  | some x => exact ⟨x, hx, fun hr => hfree ((reapAt_of hx).trans hr)⟩

theorem reapAt_set (hx : s.arbs[a]? = some x) (he : s'.arbs = s.arbs.set a y) :
    s'.reapAt a = y.aReap ∧ ∀ b, b ≠ a → s'.reapAt b = s.reapAt b := by
  obtain ⟨hlt, _⟩ := List.getElem?_eq_some_iff.mp hx
  constructor
  · exact reapAt_of (by rw [he, List.getElem?_set_self hlt])
  · intro b hb
    rw [reapAt, reapAt, he, List.getElem?_set_ne (Ne.symm hb)]

theorem alive_set (hx : s.arbs[a]? = some x) (he : s'.arbs = s.arbs.set a y) :
    (s'.Alive a ↔ y.aReap ≠ .free) ∧ ∀ b, b ≠ a → (s'.Alive b ↔ s.Alive b) := by
  obtain ⟨hlt, _⟩ := List.getElem?_eq_some_iff.mp hx
  constructor
  · exact alive_of (by rw [he, List.getElem?_set_self hlt])
  · intro b hb
    rw [Alive, Alive, he, List.getElem?_set_ne (Ne.symm hb)]

/-- Every arb that has not been destroyed has one place in the vector, and no other arb has one. -/
structure Placed (s : Arbs) : Prop where
  alive : ∀ a, (∃ j : Nat, s.sExtras[j]? = some (some a)) ↔ s.Alive a
  once : ∀ (j k : Nat) a, s.sExtras[j]? = some (some a) → s.sExtras[k]? = some (some a) → j = k
  null : ∀ j : Nat, s.sExtras[j]? = some none ↔ j < s.cleared ∧ j < s.sExtras.length
  current : s.Current

theorem noArbs_placed : noArbs.Placed where
  alive a := by simp [noArbs, Alive]
  once j k a h := by simp [noArbs] at h
  null j := by simp [noArbs, cleared]
  current := trivial

/-- A step that leaves the vector as it is. -/
theorem Placed.same (hp : s.Placed) (hx : s'.sExtras = s.sExtras) (ha : ∀ a, s'.Alive a ↔ s.Alive a)
    (hc : s'.cleared = s.cleared) (hcur : s'.Current) : s'.Placed where
  alive a := by rw [hx, hp.alive, ha]
  once := by rw [hx]; exact hp.once
  null j := by rw [hx, hc]; exact hp.null j
  current := hcur

theorem Placed.slot (hp : s.Placed) (hi : s.cleared ≤ i) :
    (s.slot i = none ∧ s.sExtras.length ≤ i) ∨ ∃ a x, s.slot i = some (some (a, x)) ∧
      s.sExtras[i]? = some (some a) ∧ s.arbs[a]? = some x ∧ x.aReap ≠ .free := by
  cases he : s.sExtras[i]? with
  | none => exact .inl ⟨by simp [Arbs.slot, he], List.getElem?_eq_none_iff.mp he⟩
  | some entry =>
    cases entry with
    | none =>
      have := (hp.null i).mp he
      omega
    | some a =>
      obtain ⟨x, hx, hne⟩ := (hp.alive a).mp ⟨i, he⟩
      exact .inr ⟨a, x, by simp [Arbs.slot, he, hx], rfl, hx, hne⟩

theorem Placed.nodup (hp : s.Placed) (hc : s.cleared = 0) : s.sExtras.Nodup := by
  apply List.nodup_iff_getElem?_ne_getElem?.mpr
  intro j k hjk hk he
  cases hj : s.sExtras[j]? with
  | none =>
    have := List.getElem?_eq_none_iff.mp hj
    omega
  | some entry =>
    cases entry with
    | none =>
      have := (hp.null j).mp hj
      omega
    | some a =>
      have := hp.once j k a hj (he.symm.trans hj)
      omega

theorem Placed.cleared_le (hp : s.Placed) (hcalm : s.calm = true) : s.cleared ≤ s.sExtras.length := by
  have hcur := hp.current
  unfold calm at hcalm
  unfold Current at hcur
  unfold cleared
  split
  · simp_all
  next i a hphase =>
    rw [hphase] at hcur
    obtain ⟨hi, _⟩ := List.getElem?_eq_some_iff.mp hcur
    omega
  · omega

theorem Current.append (h : s.Current) (hx : ∃ more, s'.sExtras = s.sExtras ++ more) (hphase : s'.phase = s.phase) :
    s'.Current := by
  obtain ⟨more, hx⟩ := hx
  have hkeep : ∀ (i a : Nat), s.sExtras[i]? = some (some a) → s'.sExtras[i]? = some (some a) := by
    intro i a hi
    obtain ⟨hlt, _⟩ := List.getElem?_eq_some_iff.mp hi
    rw [hx, List.getElem?_append_left hlt, hi]
  cases hs : s.phase with
  | inCall i a | inStop i a | inClose i a =>
    simp only [Current, hphase, hs] at h ⊢
    exact hkeep i a h
  | crashed => simp [Current, hs] at h
  | idle | loading | running | closing => simp [Current, hphase, hs]

/-- A new arb. -/
theorem Placed.create (hp : s.Placed) (hcalm : s.calm = true) (name : Option Text) (type : Nat) (fd : Int)
    (mode : Nat) : (s.createTypeArb name type fd mode).Placed := by
  have hle := hp.cleared_le hcalm
  have hold : ∀ (j a : Nat), s.sExtras[j]? = some (some a) → a < s.arbs.length := by
    intro j a hj
    obtain ⟨x, hx, _⟩ := (hp.alive a).mp ⟨j, hj⟩
    exact (List.getElem?_eq_some_iff.mp hx).1
  have hentry : ∀ j : Nat, (s.createTypeArb name type fd mode).sExtras[j]? =
      if j = s.sExtras.length then some (some s.arbs.length) else s.sExtras[j]? := by
    intro j
    rw [createTypeArb, List.getElem?_append]
    split
    next hlt => rw [if_neg (by omega)]
    next hge =>
      split
      next he => simp [he]
      next hne => rw [List.getElem?_eq_none (by simp; omega), List.getElem?_eq_none (by omega)]
  refine ⟨fun a => ?_, fun j k a hj hk => ?_, fun j => ?_, ?_⟩
  · by_cases ha : a = s.arbs.length
    · subst ha
      refine iff_of_true ⟨s.sExtras.length, by rw [hentry, if_pos rfl]⟩ ⟨_, List.getElem?_concat_length, ?_⟩
      nofun
    · have halive : (s.createTypeArb name type fd mode).Alive a ↔ s.Alive a := by
        rw [Alive, Alive, createTypeArb, List.getElem?_append]
        split
        · exact Iff.rfl
        · rw [List.getElem?_eq_none (by simp; omega), List.getElem?_eq_none (by omega)]
      rw [halive, ← hp.alive]
      constructor
      · rintro ⟨j, hj⟩
        rw [hentry] at hj
        split at hj
        · simp only [Option.some.injEq] at hj
          exact absurd hj.symm ha
        · exact ⟨j, hj⟩
      · rintro ⟨j, hj⟩
        obtain ⟨hlt, _⟩ := List.getElem?_eq_some_iff.mp hj
        exact ⟨j, by rw [hentry, if_neg (by omega), hj]⟩
  · rw [hentry] at hj hk
    split at hj <;> split at hk
    · omega
    · cases hj
      have := hold k _ hk
      omega
    · cases hk
      have := hold j _ hj
      omega
    · exact hp.once j k a hj hk
  · rw [hentry]
    have hlen : (s.createTypeArb name type fd mode).sExtras.length = s.sExtras.length + 1 := by
      simp [createTypeArb]
    have hc : (s.createTypeArb name type fd mode).cleared = s.cleared := rfl
    rw [hlen, hc]
    split
    · simp only [Option.some.injEq, reduceCtorEq, false_iff]
      omega
    · rw [hp.null]
      omega
  · exact hp.current.append ⟨_, rfl⟩ rfl

/-- An arb is destroyed, and its place in the vector is closed by the last entry. -/
theorem Placed.remove (hp : s.Placed) (hi : s.sExtras[i]? = some (some a)) (hx : s.arbs[a]? = some x)
    (hc : s.cleared = 0) (he : s'.sExtras = removeAt s.sExtras i) (ha : s'.arbs = s.arbs.set a y)
    (hy : y.aReap = .free) (hc' : s'.cleared = 0) (hcur : s'.Current) : s'.Placed := by
  have hnodup := hp.nodup hc
  obtain ⟨hself, hother⟩ := alive_set hx ha
  have hmem := mem_removeAt_iff hnodup hi
  refine ⟨fun b => ?_, fun j k b hj hk => ?_, fun j => ?_, hcur⟩
  · rw [← List.mem_iff_getElem?, he, hmem]
    by_cases hb : b = a
    · subst hb
      simp [hself, hy]
    · rw [hother b hb, ← hp.alive, ← List.mem_iff_getElem?]
      simp [hb]
  · rw [he] at hj hk
    obtain ⟨hlt, _⟩ := List.getElem?_eq_some_iff.mp hj
    exact (List.getElem?_inj hlt (removeAt_nodup hnodup hi)).mp (hj.trans hk.symm)
  · rw [hc']
    refine iff_of_false (fun hj => ?_) (by omega)
    have hin := (hmem none).mp (List.mem_iff_getElem?.mpr ⟨j, he ▸ hj⟩)
    obtain ⟨k, hk⟩ := List.mem_iff_getElem?.mp hin.1
    have := (hp.null k).mp hk
    omega

/-- An arb is destroyed by the teardown, which clears its place. -/
theorem Placed.clear (hp : s.Placed) (hi : s.sExtras[i]? = some (some a)) (hx : s.arbs[a]? = some x)
    (hc : s.cleared = i) (he : s'.sExtras = s.sExtras.set i none) (ha : s'.arbs = s.arbs.set a y)
    (hy : y.aReap = .free) (hc' : s'.cleared = i + 1) (hcur : s'.Current) : s'.Placed := by
  obtain ⟨hlt, _⟩ := List.getElem?_eq_some_iff.mp hi
  obtain ⟨hself, hother⟩ := alive_set hx ha
  have hentry : ∀ (j b : Nat), s'.sExtras[j]? = some (some b) ↔ j ≠ i ∧ s.sExtras[j]? = some (some b) := by
    intro j b
    rw [he, List.getElem?_set]
    split
    next hij => simp [hij]
    next hij => simp [Ne.symm hij]
  refine ⟨fun b => ?_, fun j k b hj hk => ?_, fun j => ?_, hcur⟩
  · by_cases hb : b = a
    · subst hb
      refine iff_of_false ?_ (by simp [hself, hy])
      rintro ⟨j, hj⟩
      obtain ⟨hne, hj⟩ := (hentry j b).mp hj
      exact hne (hp.once j i b hj hi)
    · rw [hother b hb, ← hp.alive]
      constructor
      · rintro ⟨j, hj⟩
        exact ⟨j, ((hentry j b).mp hj).2⟩
      · rintro ⟨j, hj⟩
        refine ⟨j, (hentry j b).mpr ⟨?_, hj⟩⟩
        rintro rfl
        cases hi.symm.trans hj
        exact hb rfl
  · exact hp.once j k b ((hentry j b).mp hj).2 ((hentry k b).mp hk).2
  · rw [hc', he, List.getElem?_set, List.length_set]
    split
    next hij =>
      simp only [true_iff]
      omega
    next hij =>
      rw [hp.null, hc]
      omega

/-- The teardown ends with no arb left. -/
theorem Placed.ended (hp : s.Placed) (hlen : s.sExtras.length ≤ i) (hc : s.cleared = i) (he : s'.sExtras = [])
    (ha : s'.arbs = s.arbs) (hcur : s'.Current) : s'.Placed := by
  refine ⟨fun b => ?_, by simp [he], by simp [he], hcur⟩
  refine iff_of_false (by simp [he]) fun hb => ?_
  rw [Alive, ha] at hb
  obtain ⟨j, hj⟩ := (hp.alive b).mpr hb
  obtain ⟨hlt, _⟩ := List.getElem?_eq_some_iff.mp hj
  cases hj.symm.trans ((hp.null j).mpr ⟨by omega, hlt⟩)

end Arbs

end Katcp
