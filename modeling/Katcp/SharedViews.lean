import Katcp.SharedLines

namespace Katcp

section

open Memory

/-- The same message up to the hints of its arguments. -/
structure SameExtent (p p' : Parse) : Prop where
  state : p'.pState = p.pState
  buffer : p'.pBuffer = p.pBuffer
  got : p'.pGot = p.pGot
  largs : p'.pArgs.map (fun la => (la.aBegin, la.aEnd)) = p.pArgs.map fun la => (la.aBegin, la.aEnd)

namespace SameExtent

variable {p p' q : Parse}

theorem refl (p : Parse) : SameExtent p p := ⟨rfl, rfl, rfl, rfl⟩

theorem trans (h : SameExtent p p') (h' : SameExtent p' q) : SameExtent p q :=
  ⟨h'.state.trans h.state, h'.buffer.trans h.buffer, h'.got.trans h.got, h'.largs.trans h.largs⟩

theorem symm (h : SameExtent p p') : SameExtent p' p :=
  ⟨h.state.symm, h.buffer.symm, h.got.symm, h.largs.symm⟩

theorem setEscape (p : Parse) (i v : Nat) : SameExtent p (p.setEscape i v) := by
  refine ⟨rfl, rfl, rfl, ?_⟩
  apply List.ext_getElem?
  intro j
  simp only [Parse.setEscape, List.getElem?_map, List.getElem?_modify]
  cases p.pArgs[j]? with
  | none => rfl
  | some la =>
    by_cases hij : i = j
    · simp [hij]
    · simp [hij]

theorem of_rehinted (h : Rehinted p p') : SameExtent p p' := by
  rcases h with rfl | ⟨i, v, rfl⟩
  · exact .refl p'
  · exact .setEscape p i v

theorem larg (h : SameExtent p p') {i : Nat} {la : Larg} (hla : (p.pArgs.take p.pGot)[i]? = some la) :
    ∃ la', (p'.pArgs.take p'.pGot)[i]? = some la' ∧ la'.aBegin = la.aBegin ∧ la'.aEnd = la.aEnd := by
  have hmap := congrArg (fun xs => (xs.take p.pGot)[i]?) h.largs
  simp only [← List.map_take, List.getElem?_map, hla, Option.map_some] at hmap
  obtain ⟨la', hla', he⟩ := Option.map_eq_some_iff.mp hmap
  rw [h.got]
  exact ⟨la', hla', congrArg Prod.fst he, congrArg Prod.snd he⟩

theorem sound (h : SameExtent p p') (hs : Sound p) : Sound p' := by
  refine ⟨?_, ?_, ?_⟩
  · have hlen := congrArg List.length h.largs
    simp only [List.length_map] at hlen
    rw [h.got, Parse.pCount, hlen]
    exact hs.got_le
  · intro la hla
    obtain ⟨i, hi⟩ := List.mem_iff_getElem?.mp hla
    obtain ⟨la0, hla0, hb, he⟩ := h.symm.larg hi
    have hin := hs.inside la0 (List.mem_of_getElem? hla0)
    rw [← hb, ← he, Parse.pSize, h.buffer]
    exact hin
  · obtain ⟨la, hla, hlt⟩ := hs.first
    obtain ⟨la', hla', hb, he⟩ := h.larg hla
    exact ⟨la', hla', by rw [hb, he]; exact hlt⟩

theorem texts (h : SameExtent p p') : p'.args.map Arg.text = p.args.map Arg.text := by
  have hmap := congrArg (fun xs => (xs.take p.pGot).map fun e => slice p.pBuffer e.1 e.2) h.largs
  simp only [← List.map_take, List.map_map, Function.comp_def] at hmap
  simp only [Parse.args, Parse.message, List.map_map, Function.comp_def, Parse.argOf, Parse.argText, h.got, h.buffer]
  exact hmap

end SameExtent

theorem argsWork_texts {as bs : List Arg} (h : as.map Arg.text = bs.map Arg.text) : argsWork as = argsWork bs := by
  have hlen := congrArg (List.map fun t => List.length t + 1) h
  simp only [List.map_map, Function.comp_def] at hlen
  rw [argsWork, argsWork, hlen]

/-- The same line up to the hints of the messages in its queue. -/
structure SameLine (l l' : Line) : Prop where
  buffer : l'.lBuffer = l.lBuffer
  arg : l'.lArg = l.lArg
  offset : l'.lOffset = l.lOffset
  queue : List.Forall₂ SameExtent l.lQueue.contents l'.lQueue.contents

namespace SameLine

variable {l l' : Line} {state : WriteState}

theorem placed (h : SameLine l l') (hp : Placed l state) : Placed l' state := by
  unfold Placed at hp ⊢
  rw [h.arg, h.offset]
  cases hq : l.lQueue.contents with
  | nil =>
    have hqueue := h.queue
    rw [hq] at hqueue hp
    rw [List.forall₂_nil_left_iff.mp hqueue]
    exact hp
  | cons p ps =>
    have hqueue := h.queue
    rw [hq] at hqueue hp
    obtain ⟨p', ps', hsame, _, he⟩ := List.forall₂_cons_left_iff.mp hqueue
    rw [he]
    dsimp only at hp ⊢
    split
    next hn =>
      rw [if_pos hn] at hp
      rw [hsame.got]
      exact hp
    next hn =>
      rw [if_neg hn] at hp
      obtain ⟨la, hla, hle⟩ := hp
      obtain ⟨la', hla', hb, hend⟩ := hsame.larg hla
      exact ⟨la', hla', by rw [hb, hend]; exact hle⟩

theorem sounds (h : SameLine l l') (hs : ∀ p ∈ l.lQueue.contents, Sound p) :
    ∀ p ∈ l'.lQueue.contents, Sound p := by
  intro p' hp'
  obtain ⟨i, hi⟩ := List.mem_iff_getElem?.mp hp'
  obtain ⟨hlt, _⟩ := List.getElem?_eq_some_iff.mp hi
  have hlen := h.queue.length_eq
  have hget : l.lQueue.contents[i]? = some (l.lQueue.contents[i]) := List.getElem?_eq_getElem (by omega)
  have hsame := List.Forall₂.get h.queue (show i < l.lQueue.contents.length by omega) hlt
  have he := (List.getElem?_eq_some_iff.mp hi).2
  simp only [List.get_eq_getElem] at hsame
  rw [he] at hsame
  exact hsame.sound (hs _ (List.mem_of_getElem? hget))

theorem work_eq (h : SameLine l l') : work l' = work l := by
  have hsum : ∀ {ps ps' : List Parse}, List.Forall₂ SameExtent ps ps' →
      (ps'.map fun q => argsWork q.args) = ps.map fun q => argsWork q.args := by
    intro ps ps' hps
    induction hps with
    | nil => rfl
    | cons hp _ ih => rw [List.map_cons, List.map_cons, ih, argsWork_texts hp.texts]
  unfold work
  rw [h.arg, h.offset]
  cases hq : l.lQueue.contents with
  | nil =>
    have hqueue := h.queue
    rw [hq] at hqueue
    rw [List.forall₂_nil_left_iff.mp hqueue]
  | cons p ps =>
    have hqueue := h.queue
    rw [hq] at hqueue
    obtain ⟨p', ps', hsame, hrest, he⟩ := List.forall₂_cons_left_iff.mp hqueue
    have htexts : (p'.args.drop l.lArg).map Arg.text = (p.args.drop l.lArg).map Arg.text := by
      rw [List.map_drop, List.map_drop, hsame.texts]
    rw [he]
    dsimp only
    rw [argsWork_texts htexts, hsum hrest]

theorem writing (h : SameLine l l') {wire : List Byte} {answers : List SendAnswer}
    (hw : Writing ⟨l, state, wire, answers⟩) : Writing ⟨l', state, wire, answers⟩ := by
  refine ⟨h.sounds hw.sound, ?_, h.placed hw.placed, fun hd => ?_⟩
  · have hroom := hw.room
    simp only [Line.lPending, h.buffer] at hroom ⊢
    exact hroom
  · obtain ⟨hb, hq⟩ := hw.finished hd
    have hqueue := h.queue
    dsimp only at hq hb ⊢
    rw [hq] at hqueue
    exact ⟨h.buffer.trans hb, List.forall₂_nil_left_iff.mp hqueue⟩

theorem measure (h : SameLine l l') (wire : List Byte) (answers : List SendAnswer) :
    (⟨l', state, wire, answers⟩ : Writer).measure = (⟨l, state, wire, answers⟩ : Writer).measure := by
  simp only [Writer.measure, Writer.rank, Line.lPending, h.work_eq, h.buffer]
  rfl

end SameLine

end

end Katcp
