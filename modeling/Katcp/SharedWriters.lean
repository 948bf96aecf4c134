import Katcp.SharedTurns

namespace Katcp

section

/-- A line in the middle of a call of `write_katcl`, with `others` counting the references to a
message that are not in its queue. -/
structure WritesShared (w : SharedWriter) (others : Nat → Nat) : Prop where
  ready : AllReady w.store w.held.ids
  refs : ∀ id sp, w.store id = some sp → sp.refs = others id + w.held.ids.count id
  writing : Writing w.view
  bare : HeadBare w.store w.held
  honest : Honest w.store

/-- A turn of the loop on the messages themselves, next to the turn on what they were. -/
structure TurnShared (w : SharedWriter) (v : Writer) (others : Nat → Nat) (w' : SharedWriter) : Prop where
  line : w'.held.line = v.line
  state : w'.state = v.state
  wire : w'.wire = v.wire
  answers : w'.answers = v.answers
  left : w'.held.ids ⊆ w.held.ids
  carries : CarriesOver (fun id => 0 < others id ∨ id ∈ w'.held.ids) w.store w'.store
  refs : ∀ id sp, w'.store id = some sp → sp.refs = others id + w'.held.ids.count id
  hints : List.Forall₂ HintsFor (w'.held.ids.map w'.store.made) (v.line.lQueue.contents.map Parse.args)
  extents : List.Forall₂ SameExtent v.line.lQueue.contents (w'.held.ids.map w'.store.parse)
  bare : HeadBare w'.store w'.held
  honest : Honest w'.store

variable {w w' : SharedWriter} {v : Writer} {others : Nat → Nat} {id : Nat} {rest : List Nat}

theorem view_contents (w : SharedWriter) : w.view.line.lQueue.contents = w.held.ids.map w.store.parse :=
  contents_queueOf _

theorem after_empty (hids : w.held.ids = []) (h : WritesShared w others) (hv : v.line.lQueue.contents = []) :
    TurnShared w v others (w.after v) := by
  have hafter : w.after v = ⟨w.store, ⟨v.line, []⟩, v.state, v.wire, v.answers⟩ := by
    unfold SharedWriter.after
    rw [hids]
  rw [hafter]
  refine ⟨rfl, rfl, rfl, rfl, List.nil_subset _, .refl _ _, ?_, ?_, ?_, ?_, h.honest⟩
  · intro id sp hsp
    have hrefs := h.refs id sp hsp
    rwa [hids] at hrefs
  · rw [hv]
    exact .nil
  · rw [hv]
    exact .nil
  · intro id rest hnil
    cases hnil

theorem set_parse_some {st : ParseStore} {sp : SharedParse} {p : Parse} (hsp : st id = some sp) :
    st.setParse id p = Function.update st id (some { sp with parse := p }) := by
  rw [ParseStore.setParse, hsp]
  rfl

theorem after_head (hids : w.held.ids = id :: rest) (h : WritesShared w others) {p' : Parse}
    (hv : v.line.lQueue.contents = p' :: rest.map w.store.parse)
    (hkept : HintsKept (w.store.made id) (w.store.parse id) p' v.line.lArg v.line.lOffset) :
    TurnShared w v others (w.after v) := by
  obtain ⟨sp, hsp, hready⟩ := h.ready id (by rw [hids]; exact List.mem_cons_self ..)
  have hcount : rest.length < v.line.lQueue.count := by
    rw [← RingQueue.contents_length, hv]
    simp
  have hafter : w.after v = ⟨Function.update w.store id (some { sp with parse := p' }), ⟨v.line, id :: rest⟩,
      v.state, v.wire, v.answers⟩ := by
    unfold SharedWriter.after
    rw [hids]
    dsimp only
    rw [head_of_contents hv]
    dsimp only
    rw [if_pos hcount, set_parse_some hsp]
  have hcarried : Carried sp { sp with parse := p' } := by
    rw [made_of_some hsp, parse_of_some hsp] at hkept
    exact ⟨rfl, .of_rehinted hkept.rehinted, fun _ => hkept.hints, fun _ => hkept.others⟩
  have hover : ∀ live, CarriesOver live w.store (Function.update w.store id (some { sp with parse := p' })) := by
    intro live x sx _ hsx
    by_cases hx : x = id
    · subst hx
      cases Option.some.inj (hsp.symm.trans hsx)
      exact ⟨_, Function.update_self .., hcarried⟩
    · exact ⟨sx, (Function.update_of_ne hx ..).trans hsx, .refl sx⟩
  rw [hafter]
  have hrestReady : AllReady w.store rest := fun x hx => h.ready x (by rw [hids]; exact List.mem_cons_of_mem _ hx)
  have hnew : (Function.update w.store id (some { sp with parse := p' }) : ParseStore) id =
      some { sp with parse := p' } := Function.update_self ..
  refine ⟨rfl, rfl, rfl, rfl, by rw [hids]; exact List.Subset.refl _, hover _, ?_, ?_, ?_, ?_, ?_⟩
  · intro x sx hsx
    dsimp only at hsx ⊢
    rw [← hids]
    by_cases hx : x = id
    · subst hx
      cases Option.some.inj (hnew.symm.trans hsx)
      exact h.refs x sp hsp
    · rw [Function.update_of_ne hx] at hsx
      exact h.refs x sx hsx
  · dsimp only
    rw [hv, List.map_cons, List.map_cons, made_of_some hnew, made_carried hrestReady (hover fun _ => True) (by simp)]
    refine .cons ?_ (hints_of_ready hrestReady)
    rw [made_of_some hsp] at hkept
    exact hkept.hints
  · dsimp only
    rw [hv, List.map_cons, parse_of_some hnew]
    exact .cons (.refl p') (extents_carried hrestReady (hover fun _ => True) (by simp))
  · intro x xs hx
    cases hx
    rw [made_of_some hnew, parse_of_some hnew]
    rw [made_of_some hsp] at hkept
    exact hkept.here
  · refine h.honest.update id fun sx hsx => ?_
    cases Option.some.inj hsx
    rw [made_of_some hsp] at hkept
    exact hkept.hints

theorem after_gone (hids : w.held.ids = id :: rest) (h : WritesShared w others)
    (hv : v.line.lQueue.contents = rest.map w.store.parse) (hoff : v.line.lOffset = 0) :
    TurnShared w v others (w.after v) := by
  obtain ⟨sp, hsp, hready⟩ := h.ready id (by rw [hids]; exact List.mem_cons_self ..)
  have hcount : ¬ rest.length < v.line.lQueue.count := by
    rw [← RingQueue.contents_length, hv]
    simp
  generalize hst : w.store.destroyParse id = st
  have hafter : w.after v = ⟨st, ⟨v.line, rest⟩, v.state, v.wire, v.answers⟩ := by
    unfold SharedWriter.after
    rw [hids]
    dsimp only
    split
    next => rw [if_neg hcount, hst]
    next => rw [hst]
  have hrefs := h.refs id sp hsp
  rw [hids, List.count_cons_self] at hrefs
  have hdestroy : st = Function.update w.store id
      (if sp.refs ≤ 1 then none else some { sp with refs := sp.refs - 1 }) := by
    rw [← hst, ParseStore.destroyParse, hsp]
  have hover : CarriesOver (fun x => 0 < others x ∨ x ∈ rest) w.store st := by
    intro x sx hlive hsx
    rw [hdestroy]
    by_cases hx : x = id
    · subst hx
      cases Option.some.inj (hsp.symm.trans hsx)
      have hmore : ¬ sp.refs ≤ 1 := by
        rcases hlive with hlive | hlive
        · omega
        · have := List.count_pos_iff.mpr hlive
          omega
      refine ⟨{ sp with refs := sp.refs - 1 }, ?_, .of_refs sp _⟩
      rw [Function.update_self, if_neg hmore]
    · exact ⟨sx, (Function.update_of_ne hx ..).trans hsx, .refl sx⟩
  have hrestReady : AllReady w.store rest := fun x hx => h.ready x (by rw [hids]; exact List.mem_cons_of_mem _ hx)
  have hlive : ∀ x ∈ rest, 0 < others x ∨ x ∈ rest := fun x hx => .inr hx
  rw [hafter]
  refine ⟨rfl, rfl, rfl, rfl, by rw [hids]; exact List.subset_cons_self _ _, hover, ?_, ?_, ?_, ?_, ?_⟩
  · intro x sx hsx
    dsimp only at hsx ⊢
    rw [hdestroy] at hsx
    by_cases hx : x = id
    · subst hx
      rw [Function.update_self] at hsx
      obtain ⟨_, hsx⟩ := Option.ite_none_left_eq_some.mp hsx
      cases Option.some.inj hsx
      dsimp only
      omega
    · rw [Function.update_of_ne hx] at hsx
      have hold := h.refs x sx hsx
      rwa [hids, List.count_cons_of_ne (Ne.symm hx)] at hold
  · dsimp only
    rw [hv, made_carried hrestReady hover hlive]
    exact hints_of_ready hrestReady
  · dsimp only
    rw [hv]
    exact extents_carried hrestReady hover hlive
  · intro x xs _
    dsimp only
    rw [hoff]
    exact .zero _ _ _
  · rw [hdestroy]
    refine h.honest.update id fun sx hsx => ?_
    obtain ⟨_, hsx⟩ := Option.ite_none_left_eq_some.mp hsx
    cases Option.some.inj hsx
    exact h.honest id sp hsp

theorem after_shared (h : WritesShared w others) (hturn : QueueTurn w.view v) : TurnShared w v others (w.after v) := by
  cases hids : w.held.ids with
  | nil =>
    have hnil : w.view.line.lQueue.contents = [] := by rw [view_contents, hids]; rfl
    cases hturn with
    | empty _ hv => exact after_empty hids h hv
    | head hw => cases hnil.symm.trans hw
    | gone hw => cases hnil.symm.trans hw
  | cons id rest =>
    have hcons : w.view.line.lQueue.contents = w.store.parse id :: rest.map w.store.parse := by
      rw [view_contents, hids]
      rfl
    cases hturn with
    | empty hw => cases hcons.symm.trans hw
    | @head p ps hw hkept =>
      obtain ⟨rfl, rfl⟩ := List.cons.inj (hcons.symm.trans hw)
      obtain ⟨sp, hsp, hready⟩ := h.ready id (by rw [hids]; exact List.mem_cons_self ..)
      have hhints : HintsFor (w.store.made id) (w.store.parse id).args := by
        rw [made_of_some hsp, parse_of_some hsp]
        exact hready.hints
      obtain ⟨p', hv, hk⟩ := hkept _ hhints (h.bare id rest hids)
      exact after_head hids h hv hk
    | @gone p ps hw hv hoff =>
      obtain ⟨rfl, rfl⟩ := List.cons.inj (hcons.symm.trans hw)
      exact after_gone hids h hv hoff

/-- What a call will have sent in the end. -/
def SharedWriter.stream (w : SharedWriter) : List Byte := w.wire ++ madeStream w.store w.held w.state

theorem stream_view (h : AllReady w.store w.held.ids) : w.stream = w.view.stream := by
  rw [SharedWriter.stream, Writer.stream, madeStream]
  exact congrArg (fun bs => w.wire ++ (w.held.line.lBuffer ++ bs)) (ahead_view h w.state).symm

theorem TurnShared.sameLine (ht : TurnShared w v others w') : SameLine v.line w'.view.line := by
  have hline := ht.line
  refine ⟨by rw [← hline]; rfl, by rw [← hline]; rfl, by rw [← hline]; rfl, ?_⟩
  rw [view_contents]
  exact ht.extents

theorem TurnShared.writes (ht : TurnShared w v others w') (h : WritesShared w others) (hv : Writing v) :
    WritesShared w' others := by
  refine ⟨?_, ht.refs, ?_, ht.bare, ht.honest⟩
  · have hold : AllReady w.store w'.held.ids := fun id hid => h.ready id (ht.left hid)
    exact hold.carried ht.carries fun id hid => .inr hid
  · have hwriting : Writing ⟨w'.view.line, v.state, v.wire, v.answers⟩ := ht.sameLine.writing hv
    rw [← ht.state, ← ht.wire, ← ht.answers] at hwriting
    exact hwriting

theorem TurnShared.stream (ht : TurnShared w v others w') : w'.stream = v.stream := by
  rw [SharedWriter.stream, madeStream, ht.wire, ht.line, ht.state, Writer.stream, ahead_eq,
    aheadArgs_hints ht.hints]

theorem TurnShared.measure (ht : TurnShared w v others w') : w'.view.measure = v.measure := by
  have hmeasure : (⟨w'.view.line, v.state, v.wire, v.answers⟩ : Writer).measure = v.measure :=
    ht.sameLine.measure v.wire v.answers
  rw [← hmeasure, ← ht.state, ← ht.wire, ← ht.answers]
  rfl

/-- A call that came back: what the line holds, what it said, and what it left of the messages. -/
structure ReturnsShared (w : SharedWriter) (others : Nat → Nat) (result : WriteResult) (w' : SharedWriter) :
    Prop where
  writes : WritesShared w' others
  stream : w'.stream = w.stream
  carries : CarriesOver (fun id => 0 < others id) w.store w'.store
  result : result = .done ∧ w'.state = .done ∨ w'.state = .send ∧ (result = .more ∨ result = .failed)

theorem CarriesOver.weaken {live live' : Nat → Prop} {st st' : ParseStore} (h : CarriesOver live st st')
    (hle : ∀ id, live' id → live id) : CarriesOver live' st st' :=
  fun id sp hid hsp => h id sp (hle id hid) hsp

theorem sharedLoop_returns {n : Nat} (h : WritesShared w others) (hn : w.view.measure < n) :
    ∃ result w', sharedLoop n w = (result, w') ∧ ReturnsShared w others result w' := by
  induction n generalizing w with
  | zero => omega
  | succ n ih =>
    rw [sharedLoop]
    rcases turn_advances h.writing with ⟨v, hgo, hadv⟩ | ⟨result, v, hstop, hret⟩
    · have hturn : writeTurn w.view = .go v ∨ writeTurn w.view = .stop .done v := .inl hgo
      have ht := after_shared h (writeTurn_queue h.writing hturn)
      have hless := hadv.less
      obtain ⟨result, w', hloop, hret⟩ := ih (ht.writes h hadv.writing) (by rw [ht.measure]; omega)
      simp only [hgo]
      refine ⟨result, w', hloop, hret.writes, ?_, ?_, hret.result⟩
      · rw [hret.stream, ht.stream, hadv.stream, ← stream_view h.ready]
      · exact (ht.carries.weaken fun id hid => .inl hid).trans hret.carries
    · have ht := after_shared h (writeTurn_queue h.writing (.inr hstop))
      simp only [hstop]
      refine ⟨result, _, rfl, ht.writes h hret.writing, ?_, ht.carries.weaken fun id hid => .inl hid, ?_⟩
      · rw [ht.stream, hret.stream, ← stream_view h.ready]
      · rw [ht.state]
        exact hret.result

end

end Katcp
