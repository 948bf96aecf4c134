import Katcp.LineBounds

namespace Katcp

section

open Memory

/-- A text of which no byte needs to be escaped. -/
def Bare (text : List Byte) : Prop := ∀ c ∈ text, escapeByte c = [c]

theorem Bare.drop {text : List Byte} (h : Bare text) (n : Nat) : Bare (text.drop n) :=
  fun c hc => h c (List.mem_of_mem_drop hc)

theorem Bare.take {text : List Byte} (h : Bare text) (n : Nat) : Bare (text.take n) :=
  fun c hc => h c (List.mem_of_mem_take hc)

theorem Bare.append {xs ys : List Byte} (h : Bare xs) (h' : Bare ys) : Bare (xs ++ ys) := by
  intro c hc
  rcases List.mem_append.mp hc with hc | hc
  · exact h c hc
  · exact h' c hc

theorem escapeCopy_bare {text : List Byte} (h : Bare text) : escapeCopy text = text := by
  induction text with
  | nil => rfl
  | cons c text ih =>
    have hrest : escapeCopy text = text := ih fun d hd => h d (List.mem_cons_of_mem c hd)
    rw [escapeCopy, List.flatMap_cons, h c (List.mem_cons_self ..)]
    exact congrArg (c :: ·) hrest

theorem escapeByte_short {c : Byte} (h : (escapeByte c).length ≤ 1) : escapeByte c = [c] := by
  rcases escapeByte_cases c with ⟨hc, _⟩ | ⟨v, hc, _⟩
  · exact hc
  · rw [hc] at h
    simp at h

theorem escapeCopy_ge (text : List Byte) : text.length ≤ (escapeCopy text).length := by
  induction text with
  | nil => exact Nat.le_refl 0
  | cons c text ih =>
    have hc := (escapeByte_length c).1
    simp only [escapeCopy, List.flatMap_cons, List.length_append, List.length_cons] at ih ⊢
    omega

/-- A copy that is no longer than its source escaped nothing. -/
theorem bare_of_length {text : List Byte} (h : (escapeCopy text).length ≤ text.length) : Bare text := by
  induction text with
  | nil => exact fun c hc => nomatch hc
  | cons c text ih =>
    have hc := (escapeByte_length c).1
    have hrest := escapeCopy_ge text
    simp only [escapeCopy, List.flatMap_cons, List.length_append, List.length_cons] at h hrest
    intro d hd
    rcases List.mem_cons.mp hd with rfl | hd
    · exact escapeByte_short (by omega)
    · exact ih (by simp only [escapeCopy]; omega) d hd

namespace Arg

/-- An argument whose hint was rewritten, and still tells how to encode it. -/
structure HintFor (made cur : Arg) : Prop where
  text : cur.text = made.text
  raw : made.escape = 0 → cur.escape = 0
  cleared : made.escape ≠ 0 → cur.escape = 0 → Bare made.text

variable {made cur : Arg}

theorem HintFor.refl (a : Arg) : a.HintFor a := ⟨rfl, id, fun hne h0 => absurd h0 hne⟩

theorem HintFor.encodeDrop (h : made.HintFor cur) (n : Nat) :
    encodeText cur.escape (cur.text.drop n) = encodeText made.escape (made.text.drop n) := by
  rw [h.text]
  by_cases hm : made.escape = 0
  · rw [h.raw hm, hm]
  · by_cases hc : cur.escape = 0
    · rw [encodeText, encodeText, if_pos hm, if_neg (not_not.mpr hc), escapeCopy_bare ((h.cleared hm hc).drop n)]
    · exact encodeText_pos hc hm _

theorem HintFor.encodeArg (h : made.HintFor cur) : encodeArg cur = encodeArg made := by
  have htext := h.encodeDrop 0
  rw [List.drop_zero, List.drop_zero] at htext
  rw [Katcp.encodeArg, Katcp.encodeArg, htext, h.text]

end Arg

abbrev HintsFor (made cur : List Arg) : Prop := List.Forall₂ Arg.HintFor made cur

/-- The lines of a queue that its writer still has to add to the block. -/
def aheadArgs (lines : List (List Arg)) (arg offset : Nat) (state : WriteState) : List Byte :=
  match lines with
  | [] => []
  | as :: rest =>
    (if state = .next then encodeTail (as.drop arg) else encodeFrom offset (as.drop arg)) ++
      rest.flatMap encodeArgs

theorem ahead_eq (l : Line) (state : WriteState) :
    ahead l state = aheadArgs (l.lQueue.contents.map Parse.args) l.lArg l.lOffset state := by
  unfold ahead
  cases hq : l.lQueue.contents with
  | nil => rfl
  | cons p ps => rw [List.map_cons, aheadArgs, List.flatMap_map]

namespace HintsFor

variable {made cur : List Arg}

theorem encodeTail (h : HintsFor made cur) : encodeTail cur = encodeTail made := by
  induction h with
  | nil => rfl
  | cons ha _ ih =>
    simp only [Katcp.encodeTail, List.flatMap_cons, ha.encodeArg, List.append_assoc] at ih ⊢
    rw [ih]

theorem encodeFrom (h : HintsFor made cur) (n : Nat) : encodeFrom n cur = encodeFrom n made := by
  cases h with
  | nil => rfl
  | cons ha hrest =>
    rw [Katcp.encodeFrom, Katcp.encodeFrom, HintsFor.encodeTail hrest, ha.encodeArg, ha.encodeDrop n]

theorem encodeArgs (h : HintsFor made cur) : encodeArgs cur = encodeArgs made := by
  rw [← encodeFrom_zero, ← encodeFrom_zero, h.encodeFrom 0]

end HintsFor

theorem aheadArgs_hints {made cur : List (List Arg)} (h : List.Forall₂ HintsFor made cur) (arg offset : Nat)
    (state : WriteState) : aheadArgs cur arg offset state = aheadArgs made arg offset state := by
  have hflat : ∀ {made cur : List (List Arg)}, List.Forall₂ HintsFor made cur →
      cur.flatMap encodeArgs = made.flatMap encodeArgs := by
    intro made cur h
    induction h with
    | nil => rfl
    | cons ha _ ih => rw [List.flatMap_cons, List.flatMap_cons, ha.encodeArgs, ih]
  cases h with
  | nil => rfl
  | cons ha hrest =>
    have hdrop := List.forall₂_drop arg ha
    rw [aheadArgs, aheadArgs, HintsFor.encodeTail hdrop, HintsFor.encodeFrom hdrop, hflat hrest]

/-- What a writer has copied of an argument needs no escape, unless the hint says that one was needed. -/
def BareSoFar (made cur : List Arg) (i offset : Nat) : Prop :=
  ∀ m c, made[i]? = some m → cur[i]? = some c → m.escape ≠ 0 → c.escape ≤ 1 → Bare (m.text.take offset)

theorem BareSoFar.zero (made cur : List Arg) (i : Nat) : BareSoFar made cur i 0 := by
  intro m c _ _ _ _ d hd
  rw [List.take_zero] at hd
  exact nomatch hd

/-- A hint that was rewritten to say what its writer found out. -/
theorem HintsFor.modify {made cur : List Arg} {i v : Nat} (h : HintsFor made cur)
    (hv : ∀ m c, made[i]? = some m → cur[i]? = some c → m.HintFor { c with escape := v }) :
    HintsFor made (cur.modify i fun a => { a with escape := v }) := by
  induction h generalizing i with
  | nil =>
    rw [List.modify_nil]
    exact .nil
  | cons ha hrest ih =>
    cases i with
    | zero => exact .cons (hv _ _ rfl rfl) hrest
    | succ i => exact .cons ha (ih fun m c hm hc => hv m c hm hc)

theorem HintsFor.get {made cur : List Arg} {i : Nat} {m c : Arg} (h : HintsFor made cur)
    (hm : made[i]? = some m) (hc : cur[i]? = some c) : m.HintFor c := by
  induction h generalizing i with
  | nil => cases hm
  | cons ha _ ih =>
    cases i with
    | zero =>
      cases hm
      cases hc
      exact ha
    | succ i => exact ih hm hc

/-- A rewritten hint tells the truth about what other writers have copied, too. -/
theorem BareSoFar.modify {made cur : List Arg} {i j v offset : Nat} (h : BareSoFar made cur i offset)
    (hv : ∀ m, made[j]? = some m → m.escape ≠ 0 → v ≤ 1 → Bare m.text) :
    BareSoFar made (cur.modify j fun a => { a with escape := v }) i offset := by
  intro m c hm hc hne hle
  rw [List.getElem?_modify] at hc
  by_cases hij : j = i
  · subst hij
    obtain ⟨c0, _, rfl⟩ := Option.map_eq_some_iff.mp hc
    rw [if_pos rfl] at hle
    exact (hv m hm hne hle).take offset
  · obtain ⟨c0, hc0, rfl⟩ := Option.map_eq_some_iff.mp hc
    rw [if_neg hij] at hle
    exact h m c0 hm hc0 hne hle

/-- The message with a hint that was rewritten or not. -/
def Rehinted (p p' : Parse) : Prop := p' = p ∨ ∃ i v, p' = p.setEscape i v

/-- What the `WRITE_STATE_FILL` case does to the hints of the message it writes: they stay true,
for this writer and for any other. -/
structure HintsKept (made : List Arg) (p p' : Parse) (i offset : Nat) : Prop where
  rehinted : Rehinted p p'
  hints : HintsFor made p'.args
  here : BareSoFar made p'.args i offset
  others : ∀ j n, BareSoFar made p.args j n → BareSoFar made p'.args j n

theorem HintsKept.same {made : List Arg} {p : Parse} {i offset : Nat} (h : HintsFor made p.args)
    (hbare : BareSoFar made p.args i offset) : HintsKept made p p i offset :=
  ⟨.inl rfl, h, hbare, fun _ _ hb => hb⟩

theorem args_of_larg {p : Parse} {la : Larg} {i : Nat} (h : (p.pArgs.take p.pGot)[i]? = some la) :
    p.args[i]? = some (p.argOf la) := by
  simp only [Parse.args, Parse.message, List.getElem?_map, h, Option.map_some]

theorem fill_hints {l l' : Line} {state : WriteState} {p : Parse} {ps : List Parse} {made : List Arg}
    (hfill : FillDoes l state l') (hq : l.lQueue.contents = p :: ps) (hs : Sound p)
    (h : HintsFor made p.args) (hbare : BareSoFar made p.args l.lArg l.lOffset) :
    ∃ p', l'.lQueue.contents = p' :: ps ∧ HintsKept made p p' l'.lArg l'.lOffset := by
  have hhead := head_of_contents hq
  cases hfill with
  | idle hnone => cases hhead.symm.trans hnone
  | flush hnone => cases hhead.symm.trans hnone
  | full => exact ⟨p, hq, .same h hbare⟩
  | @ended q la hq' _ hla hend =>
    cases Option.some.inj (hhead.symm.trans hq')
    have hc := args_of_larg hla
    have htext : ∀ m, made[l.lArg]? = some m → m.escape ≠ 0 → la.aEscape ≤ 1 → Bare m.text := by
      intro m hm hne hle
      have hfull := hbare m _ hm hc hne hle
      have hlen := argText_length hs (List.mem_of_getElem? hla)
      have hsame : m.text = p.argText la := (HintsFor.get h hm hc).text.symm
      rwa [List.take_of_length_le (by rw [hsame, hlen]; omega)] at hfull
    by_cases hle : la.aEscape ≤ 1
    · refine ⟨p.setEscape l.lArg 0, ?_, .inr ⟨l.lArg, 0, rfl⟩, ?_, .zero _ _ _, ?_⟩
      · simp only [hle, ↓reduceIte]
        exact RingQueue.contents_setHead hq _
      · rw [setEscape_args]
        refine h.modify fun m c hm hc' => ?_
        cases Option.some.inj (hc'.symm.trans hc)
        exact ⟨(HintsFor.get h hm hc).text, fun _ => rfl, fun hne _ => htext m hm hne hle⟩
      · intro j n hj
        rw [setEscape_args]
        exact hj.modify fun m hm hne _ => htext m hm hne hle
    · refine ⟨p, ?_, .inl rfl, h, .zero _ _ _, fun _ _ hb => hb⟩
      simp only [hle, ↓reduceIte]
      exact hq
  | @escaped q la can hq' hla hesc hpos hwant =>
    cases Option.some.inj (hhead.symm.trans hq')
    have hc := args_of_larg hla
    have hin := (hs.inside la (List.mem_of_getElem? hla)).2
    have hlen : (slice p.pBuffer (la.aBegin + l.lOffset) (la.aBegin + l.lOffset + can)).length = can := by
      rw [slice_length]
      unfold Parse.pSize at hin
      omega
    by_cases hlong : (escapeCopy (slice p.pBuffer (la.aBegin + l.lOffset)
        (la.aBegin + l.lOffset + can))).length > can
    · refine ⟨p.setEscape l.lArg 2, ?_, .inr ⟨l.lArg, 2, rfl⟩, ?_, ?_, ?_⟩
      · simp only [hlong, ↓reduceIte]
        exact RingQueue.contents_setHead hq _
      · rw [setEscape_args]
        refine h.modify fun m c hm hc' => ?_
        cases Option.some.inj (hc'.symm.trans hc)
        have hfor := HintsFor.get h hm hc
        exact ⟨hfor.text, fun h0 => absurd (hfor.raw h0) hesc, fun _ h2 => (by cases h2)⟩
      · intro m c hm hc' _ hle
        rw [setEscape_args, List.getElem?_modify, hc] at hc'
        cases Option.some.inj hc'
        simp at hle
      · intro j n hj
        rw [setEscape_args]
        exact hj.modify fun m _ _ hle => absurd hle (by decide)
    · refine ⟨p, by simp only [hlong, ↓reduceIte]; exact hq, .inl rfl, h, ?_, fun _ _ hb => hb⟩
      intro m c hm hc' hne hle
      cases Option.some.inj (hc'.symm.trans hc)
      have hsame : m.text = p.argText la := (HintsFor.get h hm hc).text.symm
      have hchunk : Bare (slice p.pBuffer (la.aBegin + l.lOffset) (la.aBegin + l.lOffset + can)) :=
        bare_of_length (by rw [hlen]; omega)
      have hold := hbare m _ hm hc hne hle
      rw [hsame] at hold ⊢
      have hsplit : (p.argText la).take (l.lOffset + can) = (p.argText la).take l.lOffset ++
          slice p.pBuffer (la.aBegin + l.lOffset) (la.aBegin + l.lOffset + can) := by
        rw [Parse.argText, slice_take (by omega), slice_take (by omega), ← Nat.add_assoc]
        exact (slice_append (by omega) (by omega)).symm
      rw [hsplit]
      exact hold.append hchunk
  | @raw q la can hq' hla hesc hpos hwant =>
    cases Option.some.inj (hhead.symm.trans hq')
    have hc := args_of_larg hla
    refine ⟨p, hq, .inl rfl, h, ?_, fun _ _ hb => hb⟩
    intro m c hm hc' hne _
    cases Option.some.inj (hc'.symm.trans hc)
    exact ((HintsFor.get h hm hc).cleared hne hesc).take _

end

end Katcp
