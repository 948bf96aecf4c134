import Katcp.SharedViews

namespace Katcp

section

/-- What a turn of the loop does to the queue of the line. -/
inductive QueueTurn (w v : Writer) : Prop
  | empty : w.line.lQueue.contents = [] → v.line.lQueue.contents = [] → QueueTurn w v
  | head {p : Parse} {ps : List Parse} : w.line.lQueue.contents = p :: ps →
      (∀ made, HintsFor made p.args → BareSoFar made p.args w.line.lArg w.line.lOffset →
        ∃ p', v.line.lQueue.contents = p' :: ps ∧ HintsKept made p p' v.line.lArg v.line.lOffset) →
      QueueTurn w v
  | gone {p : Parse} {ps : List Parse} : w.line.lQueue.contents = p :: ps → v.line.lQueue.contents = ps →
      v.line.lOffset = 0 → QueueTurn w v

variable {w v : Writer}

theorem QueueTurn.same (hq : v.line.lQueue = w.line.lQueue) (ha : v.line.lArg = w.line.lArg)
    (ho : v.line.lOffset = w.line.lOffset) : QueueTurn w v := by
  cases hc : w.line.lQueue.contents with
  | nil => exact .empty hc (by rw [hq, hc])
  | cons p ps =>
    refine .head hc fun made h hbare => ⟨p, by rw [hq, hc], ?_⟩
    rw [ha, ho]
    exact .same h hbare

theorem fillTurn_queue {state : WriteState} {l' : Line} (h : Writing w) (hfill : FillDoes w.line state l') :
    QueueTurn w { w with line := l', state := state } := by
  cases hq : w.line.lQueue.contents with
  | nil =>
    have hnone : w.line.lQueue.getHead = none := by rw [w.line.lQueue.getHead_eq, hq]; rfl
    cases hfill with
    | idle => exact .empty hq hq
    | flush => exact .empty hq hq
    | full hp => exact .empty hq hq
    | ended hp => cases hnone.symm.trans hp
    | escaped hp => cases hnone.symm.trans hp
    | raw hp => cases hnone.symm.trans hp
  | cons p ps =>
    have hs := h.sound p (by rw [hq]; exact List.mem_cons_self ..)
    exact .head hq fun made hm hb => fill_hints hfill hq hs hm hb

theorem nextTurn_queue (h : Writing w) (hw : w.state = .next) :
    QueueTurn w { w with line := (nextTurn w.line).2, state := (nextTurn w.line).1 } := by
  have hplaced := h.placed
  cases hq : w.line.lQueue.contents with
  | nil => simp [Placed, hq, hw] at hplaced
  | cons p ps =>
    simp only [Placed, hq, hw, ↓reduceIte] at hplaced
    rw [nextTurn, head_of_contents hq]
    dsimp only
    split
    next => exact .same rfl rfl rfl
    next =>
      refine .gone hq ?_ hplaced.2.2
      rw [RingQueue.contents_removeHead, hq]
      rfl

theorem sendTurn_queue {result : WriteResult} (h : sendTurn w = .go v ∨ sendTurn w = .stop result v) :
    QueueTurn w v := by
  unfold sendTurn at h
  split at h
  next =>
    rcases h with h | h
    · cases h
      exact .same rfl rfl rfl
    · cases h
  next =>
    split at h
    next =>
      rcases h with h | h
      · cases h
      · cases h
        exact .same rfl rfl rfl
    next =>
      rcases h with h | h
      · cases h
        exact .same rfl rfl rfl
      · cases h
    next =>
      split at h
      next =>
        rcases h with h | h
        · cases h
        · cases h
          exact .same rfl rfl rfl
      next =>
        split at h
        next =>
          rcases h with h | h
          · cases h
            exact .same rfl rfl rfl
          · cases h
        next =>
          rcases h with h | h
          · cases h
          · cases h
            exact .same rfl rfl rfl

theorem writeTurn_queue {result : WriteResult} (h : Writing w)
    (ht : writeTurn w = .go v ∨ writeTurn w = .stop result v) : QueueTurn w v := by
  unfold writeTurn at ht
  cases hw : w.state with
  | done =>
    simp only [hw, reduceCtorEq, false_or] at ht
    cases ht
    exact .same rfl rfl rfl
  | fill =>
    simp only [hw] at ht
    split at ht
    next =>
      rcases ht with ht | ht
      · cases ht
      · cases ht
        exact .same rfl rfl rfl
    next state l hfill =>
      rcases ht with ht | ht
      · cases ht
        exact fillTurn_queue h (fillTurn_does hfill)
      · cases ht
  | next =>
    simp only [hw, reduceCtorEq, or_false] at ht
    cases ht
    exact nextTurn_queue h hw
  | send =>
    simp only [hw] at ht
    exact sendTurn_queue ht

end

section

/-- A message after lines have written it: only its hints can have changed, and they are true. -/
structure Carried (sp sp' : SharedParse) : Prop where
  made : sp'.made = sp.made
  extent : SameExtent sp.parse sp'.parse
  hints : HintsFor sp.made sp.parse.args → HintsFor sp.made sp'.parse.args
  bare : HintsFor sp.made sp.parse.args → ∀ i n, BareSoFar sp.made sp.parse.args i n →
    BareSoFar sp.made sp'.parse.args i n

theorem Carried.refl (sp : SharedParse) : Carried sp sp := ⟨rfl, .refl _, id, fun _ _ _ hb => hb⟩

theorem Carried.of_refs (sp : SharedParse) (refs : Nat) : Carried sp { sp with refs := refs } :=
  ⟨rfl, .refl _, id, fun _ _ _ hb => hb⟩

theorem Carried.trans {sp sp' sq : SharedParse} (h : Carried sp sp') (h' : Carried sp' sq) : Carried sp sq := by
  obtain ⟨hmade, hextent, hhints, hbare⟩ := h
  obtain ⟨hmade', hextent', hhints', hbare'⟩ := h'
  rw [hmade] at hmade' hhints' hbare'
  exact ⟨hmade', hextent.trans hextent', fun hh => hhints' (hhints hh),
    fun hh i n hb => hbare' (hhints hh) i n (hbare hh i n hb)⟩

/-- A message that can stand in the queue of a line. -/
structure Ready (sp : SharedParse) : Prop where
  done : sp.parse.pState = .done
  sound : Sound sp.parse
  hints : HintsFor sp.made sp.parse.args

theorem Ready.carried {sp sp' : SharedParse} (h : Ready sp) (hc : Carried sp sp') : Ready sp' := by
  refine ⟨hc.extent.state.trans h.done, hc.extent.sound h.sound, ?_⟩
  rw [hc.made]
  exact hc.hints h.hints

/-- The messages that somebody refers to are still there, with true hints. -/
def CarriesOver (live : Nat → Prop) (st st' : ParseStore) : Prop :=
  ∀ id sp, live id → st id = some sp → ∃ sp', st' id = some sp' ∧ Carried sp sp'

theorem CarriesOver.refl (live : Nat → Prop) (st : ParseStore) : CarriesOver live st st :=
  fun _ sp _ h => ⟨sp, h, .refl sp⟩

theorem CarriesOver.trans {live : Nat → Prop} {st st' st2 : ParseStore} (h : CarriesOver live st st')
    (h' : CarriesOver live st' st2) : CarriesOver live st st2 := by
  intro id sp hlive hsp
  obtain ⟨sp1, hsp1, hc1⟩ := h id sp hlive hsp
  obtain ⟨sp2, hsp2, hc2⟩ := h' id sp1 hlive hsp1
  exact ⟨sp2, hsp2, hc1.trans hc2⟩

/-- The hints of every message there is are true. -/
def Honest (st : ParseStore) : Prop := ∀ id sp, st id = some sp → HintsFor sp.made sp.parse.args

theorem Honest.update {st : ParseStore} (h : Honest st) (id : Nat) {o : Option SharedParse}
    (ho : ∀ sp, o = some sp → HintsFor sp.made sp.parse.args) : Honest (Function.update st id o) := by
  intro x sx hsx
  by_cases hx : x = id
  · subst hx
    rw [Function.update_self] at hsx
    exact ho sx hsx
  · rw [Function.update_of_ne hx] at hsx
    exact h x sx hsx

/-- Every message of a queue is there. -/
def AllReady (st : ParseStore) (ids : List Nat) : Prop := ∀ id ∈ ids, ∃ sp, st id = some sp ∧ Ready sp

variable {st st' : ParseStore} {ids : List Nat} {h : HeldLine} {live : Nat → Prop}

theorem AllReady.carried (hr : AllReady st ids) (hc : CarriesOver live st st') (hlive : ∀ id ∈ ids, live id) :
    AllReady st' ids := by
  intro id hid
  obtain ⟨sp, hsp, hready⟩ := hr id hid
  obtain ⟨sp', hsp', hcarried⟩ := hc id sp (hlive id hid) hsp
  exact ⟨sp', hsp', hready.carried hcarried⟩

theorem parse_of_some {id : Nat} {sp : SharedParse} (hsp : st id = some sp) : st.parse id = sp.parse := by
  rw [ParseStore.parse, hsp]
  rfl

theorem made_of_some {id : Nat} {sp : SharedParse} (hsp : st id = some sp) : st.made id = sp.made := by
  rw [ParseStore.made, hsp]
  rfl

theorem made_carried (hr : AllReady st ids) (hc : CarriesOver live st st') (hlive : ∀ id ∈ ids, live id) :
    ids.map st'.made = ids.map st.made := by
  refine List.map_congr_left fun id hid => ?_
  obtain ⟨sp, hsp, _⟩ := hr id hid
  obtain ⟨sp', hsp', hcarried⟩ := hc id sp (hlive id hid) hsp
  rw [made_of_some hsp, made_of_some hsp', hcarried.made]

theorem extents_carried (hr : AllReady st ids) (hc : CarriesOver live st st') (hlive : ∀ id ∈ ids, live id) :
    List.Forall₂ SameExtent (ids.map st.parse) (ids.map st'.parse) := by
  rw [List.forall₂_map_left_iff, List.forall₂_map_right_iff, List.forall₂_same]
  intro id hid
  obtain ⟨sp, hsp, _⟩ := hr id hid
  obtain ⟨sp', hsp', hcarried⟩ := hc id sp (hlive id hid) hsp
  rw [parse_of_some hsp, parse_of_some hsp']
  exact hcarried.extent

theorem contents_queueOf (ps : List Parse) : (queueOf ps).contents = ps := by
  have hall : ∀ (ps : List Parse) (q : RingQueue Parse), (ps.foldl RingQueue.addTail q).contents = q.contents ++ ps := by
    intro ps
    induction ps with
    | nil => intro q; simp
    | cons p ps ih => intro q; rw [List.foldl_cons, ih, RingQueue.contents_addTail, List.append_assoc]; rfl
  rw [queueOf, hall]
  rfl

theorem hints_of_ready (hr : AllReady st ids) :
    List.Forall₂ HintsFor (ids.map st.made) ((ids.map st.parse).map Parse.args) := by
  rw [List.map_map, List.forall₂_map_left_iff, List.forall₂_map_right_iff, List.forall₂_same]
  intro id hid
  obtain ⟨sp, hsp, hready⟩ := hr id hid
  rw [made_of_some hsp, Function.comp_apply, parse_of_some hsp]
  exact hready.hints

/-- The writer at the first message of the queue knows what its hint says. -/
def HeadBare (st : ParseStore) (h : HeldLine) : Prop :=
  ∀ id rest, h.ids = id :: rest → BareSoFar (st.made id) (st.parse id).args h.line.lArg h.line.lOffset

theorem HeadBare.carried (hb : HeadBare st h) (hr : AllReady st h.ids) (hc : CarriesOver live st st')
    (hlive : ∀ id ∈ h.ids, live id) : HeadBare st' h := by
  intro id rest hids
  have hid : id ∈ h.ids := by rw [hids]; exact List.mem_cons_self ..
  obtain ⟨sp, hsp, hready⟩ := hr id hid
  obtain ⟨sp', hsp', hcarried⟩ := hc id sp (hlive id hid) hsp
  have hold := hb id rest hids
  rw [made_of_some hsp, parse_of_some hsp] at hold
  rw [made_of_some hsp', parse_of_some hsp', hcarried.made]
  exact hcarried.bare hready.hints _ _ hold

/-- What a line will have sent in the end, from what it was given. -/
def madeStream (st : ParseStore) (h : HeldLine) (state : WriteState) : List Byte :=
  h.line.lBuffer ++ aheadArgs (h.ids.map st.made) h.line.lArg h.line.lOffset state

theorem ahead_view (hr : AllReady st h.ids) (state : WriteState) :
    ahead (viewLine st h) state = aheadArgs (h.ids.map st.made) h.line.lArg h.line.lOffset state := by
  rw [ahead_eq]
  simp only [viewLine, contents_queueOf]
  exact aheadArgs_hints (hints_of_ready hr) _ _ _

theorem viewLine_carried (hr : AllReady st h.ids) (hc : CarriesOver live st st') (hlive : ∀ id ∈ h.ids, live id) :
    SameLine (viewLine st h) (viewLine st' h) := by
  refine ⟨rfl, rfl, rfl, ?_⟩
  simp only [viewLine, contents_queueOf]
  exact extents_carried hr hc hlive

end

end Katcp
