import Katcp.ConfTree
import Mathlib.Data.List.TakeWhile

namespace Katcp

/-- A setting's name that is read as it was written. -/
def IsName (str : Text) : Prop :=
  ∀ c ∈ str, (isConfSpace c = false ∧ c ≠ 0) ∧ c ≠ commentMark ∧ c ≠ olabel ∧ c ≠ settingMark

def IsLabelName (str : Text) : Prop := ∀ c ∈ str, (isConfSpace c = false ∧ c ≠ 0) ∧ c ≠ clabel

def IsComment (str : Text) : Prop := ∃ rest, str = commentMark :: rest ∧ ∀ c ∈ rest, endsLine c = false ∧ c ≠ 0

/-- A value that ends with the line, or at a comma. -/
def IsWordValue (str : Text) : Prop := ∀ c ∈ str, (isConfSpace c = false ∧ c ≠ 0) ∧ c ≠ valueMark ∧ c ≠ olabel

/-- A value in brackets, which may go over several lines. -/
def IsBlock (str : Text) : Prop := ∃ b, str = olabel :: b ++ [clabel] ∧ ∀ c ∈ b, c ≠ clabel ∧ c ≠ 0

/-- There is a value, and only the last may be in brackets. -/
def PlainValues : List Text → Prop
  | [] => False
  | [v] => IsWordValue v ∨ IsBlock v
  | v :: vs => IsWordValue v ∧ PlainValues vs

structure PSetting.Plain (s : PSetting) : Prop where
  name : IsName s.str
  values : PlainValues s.values
  comments : ∃ cs, s.comments = some cs ∧ ∀ c ∈ cs, IsComment c

structure PLabel.Plain (l : PLabel) : Prop where
  name : IsLabelName l.str
  comments : ∃ cs, l.comments = some cs ∧ ∀ c ∈ cs, IsComment c
  settings : ∀ s ∈ l.settings, s.Plain

/-- A tree whose texts mean the same in a file. -/
structure PTree.Plain (t : PTree) : Prop where
  comments : ∀ c ∈ t.comments, IsComment c
  labels : ∀ l ∈ t.labels, l.Plain

section

variable {a b u w rest x y z str : Text} {c m : Byte} {s : ConfState} {e : ConfEvent} {es : List ConfEvent}

theorem forall_of_all {p : Byte → Prop} [DecidablePred p] (h : x.all (fun c => decide (p c)) = true) : ∀ c ∈ x, p c :=
  fun c hc => of_decide_eq_true (List.all_eq_true.mp h c hc)

theorem mem_cString (h : c ∈ cString str) : c ∈ str ∧ c ≠ 0 :=
  ⟨(List.takeWhile_prefix _).subset h, of_decide_eq_true (@List.mem_takeWhile_imp _ (fun c => decide (c ≠ 0)) str c h)⟩

theorem cString_eq (h : ∀ c ∈ str, c ≠ 0) : cString str = str :=
  List.takeWhile_eq_self_iff.mpr fun c hc => decide_eq_true (h c hc)

theorem mem_rmWhitespace (h : c ∈ rmWhitespace str) : c ∈ str ∧ isConfSpace c = false ∧ c ≠ 0 := by
  obtain ⟨hc, hspace⟩ := List.mem_filter.mp h
  obtain ⟨hmem, hzero⟩ := mem_cString hc
  exact ⟨hmem, by simpa using hspace, hzero⟩

/-- Blanks in front and behind go. -/
theorem rmWhitespace_between (hu : ∀ c ∈ u, c = 32) (hw : ∀ c ∈ w, c = 32)
    (h : ∀ c ∈ str, isConfSpace c = false ∧ c ≠ 0) : rmWhitespace (u ++ str ++ w) = str := by
  have hblank : ∀ x : Text, (∀ c ∈ x, c = 32) → x.filter (fun c => !isConfSpace c) = [] := by
    intro x hx
    refine List.filter_eq_nil_iff.mpr fun c hc => ?_
    rw [hx c hc]
    decide
  have hzero : ∀ c ∈ u ++ str ++ w, c ≠ 0 := by
    intro c hc
    rcases List.mem_append.mp hc with hc | hc
    · rcases List.mem_append.mp hc with hc | hc
      · rw [hu c hc]
        decide
      · exact (h c hc).2
    · rw [hw c hc]
      decide
  rw [rmWhitespace, cString_eq hzero, List.filter_append, List.filter_append, hblank u hu, hblank w hw,
    List.append_nil, List.nil_append]
  exact List.filter_eq_self.mpr fun c hc => by rw [(h c hc).1]; rfl

/-- A text has none of these bytes, or a first one. -/
theorem first_stop (p : Byte → Bool) (str : Text) :
    (∀ c ∈ str, p c = false) ∨ ∃ a m b, str = a ++ m :: b ∧ (∀ c ∈ a, p c = false) ∧ p m = true := by
  induction str with
  | nil => exact Or.inl fun c hc => absurd hc List.not_mem_nil
  | cons c str ih =>
    cases hc : p c with
    | true => exact Or.inr ⟨[], c, str, rfl, fun x hx => absurd hx List.not_mem_nil, hc⟩
    | false =>
      rcases ih with h | ⟨a, m, b, rfl, ha, hm⟩
      · exact Or.inl (List.forall_mem_cons.mpr ⟨hc, h⟩)
      · exact Or.inr ⟨c :: a, m, b, rfl, List.forall_mem_cons.mpr ⟨hc, ha⟩, hm⟩

theorem run_quiet {state : ParserState} {p : Byte → Bool}
    (hstep : ∀ u c, p c = false → ConfState.turn ⟨state, u⟩ c = (⟨state, u ++ [c]⟩, []))
    (hx : ∀ c ∈ x, p c = false) (u rest : Text) :
    confScan.run ⟨state, u⟩ (x ++ rest) = confScan.run ⟨state, u ++ x⟩ rest := by
  induction x generalizing u with
  | nil => rw [List.append_nil, List.nil_append]
  | cons c x ih =>
    obtain ⟨hc, hx⟩ := List.forall_mem_cons.mp hx
    rw [List.cons_append, Transducer.run_cons]
    have hturn : confScan.step ⟨state, u⟩ c = (⟨state, u ++ [c]⟩, []) := hstep u c hc
    rw [hturn]
    dsimp only
    rw [ih hx, List.append_assoc, List.nil_append]
    rfl

/-- The bytes on which the parser does something, in each state. -/
def startStop (c : Byte) : Bool := c = commentMark || c = olabel || c = settingMark || endsLine c

def valueStop (c : Byte) : Bool := c = olabel || c = valueMark || endsLine c

theorem run_start (hx : ∀ c ∈ x, startStop c = false) (u rest : Text) :
    confScan.run ⟨.start, u⟩ (x ++ rest) = confScan.run ⟨.start, u ++ x⟩ rest := by
  refine run_quiet (fun u c hc => ?_) hx u rest
  simp only [startStop, Bool.or_eq_false_iff, decide_eq_false_iff_not] at hc
  simp only [ConfState.turn, hc, if_false, Bool.false_eq_true]

theorem run_value (hx : ∀ c ∈ x, valueStop c = false) (u rest : Text) :
    confScan.run ⟨.value, u⟩ (x ++ rest) = confScan.run ⟨.value, u ++ x⟩ rest := by
  refine run_quiet (fun u c hc => ?_) hx u rest
  simp only [valueStop, Bool.or_eq_false_iff, decide_eq_false_iff_not] at hc
  simp only [ConfState.turn, hc, if_false, Bool.false_eq_true]

theorem run_comment (hx : ∀ c ∈ x, endsLine c = false) (u rest : Text) :
    confScan.run ⟨.comment, u⟩ (x ++ rest) = confScan.run ⟨.comment, u ++ x⟩ rest := by
  refine run_quiet (fun u c hc => ?_) hx u rest
  simp only [ConfState.turn, hc, if_false, Bool.false_eq_true]

theorem run_label (hx : ∀ c ∈ x, decide (c = clabel) = false) (u rest : Text) :
    confScan.run ⟨.label, u⟩ (x ++ rest) = confScan.run ⟨.label, u ++ x⟩ rest := by
  refine run_quiet (fun u c hc => ?_) hx u rest
  simp only [ConfState.turn, of_decide_eq_false hc, if_false]

theorem run_mlvalue (hx : ∀ c ∈ x, decide (c = clabel) = false) (u rest : Text) :
    confScan.run ⟨.mlvalue, u⟩ (x ++ rest) = confScan.run ⟨.mlvalue, u ++ x⟩ rest := by
  refine run_quiet (fun u c hc => ?_) hx u rest
  simp only [ConfState.turn, of_decide_eq_false hc, if_false]

/-- What can be stored next. -/
def NextEvent : ParserState → ConfEvent → Prop
  | .comment, .comment _ => True
  | .label, .label _ => True
  | .setting, .setting _ => True
  | .value, .value _ => True
  | .mlvalue, .value _ => True
  | .start, .value _ => False
  | .start, _ => True
  | _, _ => False

theorem turn_next (s : ConfState) (c : Byte) : (∀ e, (s.turn c).2.head? = some e → NextEvent s.state e) ∧
    ((s.turn c).2 = [] → ∀ e, NextEvent (s.turn c).1.state e → NextEvent s.state e) := by
  obtain ⟨state, since⟩ := s
  have hstart : ∀ {st : ParserState}, (∀ v, ¬ NextEvent st (.value v)) → ∀ e, NextEvent st e → NextEvent .start e := by
    intro st hst e he
    cases e with
    | value v => exact absurd he (hst v)
    | comment | label | setting => trivial
  unfold ConfState.turn
  cases state with
  | start =>
    dsimp only
    split
    · exact ⟨by simp, fun _ => hstart fun _ => id⟩
    split
    · exact ⟨by simp, fun _ => hstart fun _ => id⟩
    split
    · exact ⟨by simp, fun _ => hstart fun _ => id⟩
    split
    · exact ⟨by simp, fun _ _ => id⟩
    · exact ⟨by simp, fun _ _ => id⟩
  | comment =>
    dsimp only
    split
    · exact ⟨by rintro e ⟨⟩; trivial, by simp⟩
    · exact ⟨by simp, fun _ _ => id⟩
  | label =>
    dsimp only
    split
    · exact ⟨by rintro e ⟨⟩; trivial, by simp⟩
    · exact ⟨by simp, fun _ _ => id⟩
  | setting => exact ⟨by rintro e ⟨⟩; trivial, by simp⟩
  | value =>
    dsimp only
    split
    · refine ⟨by simp, fun _ e he => ?_⟩
      cases e with
      | value => trivial
      | comment | label | setting => exact he.elim
    split
    · exact ⟨by rintro e ⟨⟩; trivial, by simp⟩
    split
    · exact ⟨by rintro e ⟨⟩; trivial, by simp⟩
    · exact ⟨by simp, fun _ _ => id⟩
  | mlvalue =>
    dsimp only
    split
    · exact ⟨by rintro e ⟨⟩; trivial, by simp⟩
    · exact ⟨by simp, fun _ _ => id⟩

theorem run_next (h : (confScan.run s x).2 = e :: es) : NextEvent s.state e := by
  induction x generalizing s with
  | nil => cases h
  | cons c x ih =>
    obtain ⟨hnow, hlater⟩ := turn_next s c
    rw [Transducer.run_cons] at h
    dsimp only at h
    have hturn : confScan.step s c = s.turn c := rfl
    rw [hturn] at h
    cases hsaid : (s.turn c).2 with
    | nil =>
      rw [hsaid, List.nil_append] at h
      exact hlater hsaid e (ih h)
    | cons e' es' =>
      rw [hsaid, List.cons_append] at h
      cases h
      exact hnow e (by rw [hsaid]; rfl)

/-- What is true of everything that is stored. -/
def ConfEvent.Made : ConfEvent → Prop
  | .comment str => IsComment str
  | .label str => IsLabelName str
  | .setting str => ∀ c ∈ str, isConfSpace c = false ∧ c ≠ 0
  | .value str => ∀ c ∈ str, c ≠ 0

/-- The bytes that are kept of a comment, and of a label. -/
def ConfState.Keeps (s : ConfState) : Prop :=
  (s.state = .comment → ∃ rest, s.since = commentMark :: rest ∧ ∀ c ∈ rest, endsLine c = false) ∧
    (s.state = .label → ∀ c ∈ s.since, c ≠ clabel)

theorem turn_made (h : s.Keeps) (c : Byte) : (s.turn c).1.Keeps ∧ ∀ e ∈ (s.turn c).2, e.Made := by
  obtain ⟨state, since⟩ := s
  have hfree : ∀ {st : ParserState} {u : Text}, st ≠ .comment → st ≠ .label → ConfState.Keeps ⟨st, u⟩ :=
    fun hc hl => ⟨fun h => absurd h hc, fun h => absurd h hl⟩
  have hnone : ∀ e ∈ ([] : List ConfEvent), e.Made := fun e he => absurd he List.not_mem_nil
  have hsnoc : ∀ {p : Byte → Prop} {u : Text}, (∀ x ∈ u, p x) → p c → ∀ x ∈ u ++ [c], p x := by
    intro p u hu hc x hx
    rcases List.mem_append.mp hx with hx | hx
    · exact hu x hx
    · exact List.mem_singleton.mp hx ▸ hc
  unfold ConfState.turn
  cases state with
  | start =>
    dsimp only
    split
    next hc => exact ⟨⟨fun _ => ⟨[], by rw [hc], by simp⟩, by simp⟩, hnone⟩
    next =>
      split
      · exact ⟨⟨by simp, by simp⟩, hnone⟩
      split
      · exact ⟨hfree (by simp) (by simp), hnone⟩
      split
      · exact ⟨hfree (by simp) (by simp), hnone⟩
      · exact ⟨hfree (by simp) (by simp), hnone⟩
  | comment =>
    obtain ⟨rest, hrest, hends⟩ := h.1 rfl
    have hrest : since = commentMark :: rest := hrest
    dsimp only
    split
    next =>
      refine ⟨hfree (by simp) (by simp), fun e he => ?_⟩
      rw [List.mem_singleton.mp he, hrest]
      refine ⟨cString rest, List.takeWhile_cons_of_pos (by decide), fun x hx => ?_⟩
      exact ⟨hends x (mem_cString hx).1, (mem_cString hx).2⟩
    next hc =>
      refine ⟨⟨fun _ => ⟨rest ++ [c], by rw [hrest]; rfl, hsnoc hends (by simpa using hc)⟩, by simp⟩, hnone⟩
  | label =>
    have hlabel := h.2 rfl
    dsimp only
    split
    next =>
      refine ⟨hfree (by simp) (by simp), fun e he => ?_⟩
      rw [List.mem_singleton.mp he]
      intro x hx
      obtain ⟨hmem, hx⟩ := mem_rmWhitespace hx
      exact ⟨hx, hlabel x hmem⟩
    next hc => exact ⟨⟨by simp, fun _ => hsnoc hlabel hc⟩, hnone⟩
  | setting =>
    refine ⟨hfree (by simp) (by simp), fun e he => ?_⟩
    rw [List.mem_singleton.mp he]
    exact fun x hx => (mem_rmWhitespace hx).2
  | value =>
    have hvalue : ∀ e ∈ [ConfEvent.value (rmWhitespace since)], e.Made := by
      intro e he
      rw [List.mem_singleton.mp he]
      exact fun x hx => (mem_rmWhitespace hx).2.2
    dsimp only
    split
    · exact ⟨hfree (by simp) (by simp), hnone⟩
    split
    · exact ⟨hfree (by simp) (by simp), hvalue⟩
    split
    · exact ⟨hfree (by simp) (by simp), hvalue⟩
    · exact ⟨hfree (by simp) (by simp), hnone⟩
  | mlvalue =>
    dsimp only
    split
    next =>
      refine ⟨hfree (by simp) (by simp), fun e he => ?_⟩
      rw [List.mem_singleton.mp he]
      exact fun x hx => (mem_cString hx).2
    next => exact ⟨hfree (by simp) (by simp), hnone⟩

theorem run_made (h : s.Keeps) (x : Text) : ∀ e ∈ (confScan.run s x).2, e.Made := by
  induction x generalizing s with
  | nil => exact fun e he => absurd he List.not_mem_nil
  | cons c x ih =>
    obtain ⟨hkeeps, hmade⟩ := turn_made h c
    rw [Transducer.run_cons]
    intro e he
    rcases List.mem_append.mp he with he | he
    · exact hmade e he
    · exact ih hkeeps e he

theorem confEvents_made (x : Text) : ∀ e ∈ confEvents x, e.Made :=
  run_made ⟨by simp [lineStart], by simp [lineStart]⟩ x

theorem confEvents_comment (hc : IsComment str) : confEvents (str ++ newLine :: rest) = .comment str :: confEvents rest := by
  obtain ⟨b, rfl, hb⟩ := hc
  have hread : confEvents (commentMark :: b ++ newLine :: rest) =
      (confScan.run ⟨.comment, [commentMark]⟩ (b ++ newLine :: rest)).2 := rfl
  rw [hread, run_comment fun c hc => (hb c hc).1]
  have hstr : cString (commentMark :: b) = commentMark :: b :=
    cString_eq (List.forall_mem_cons.mpr ⟨by decide, fun c hc => (hb c hc).2⟩)
  show ConfEvent.comment (cString (commentMark :: b)) :: confEvents rest = _
  rw [hstr]

theorem confEvents_comment_iff : confEvents (str ++ newLine :: rest) = .comment str :: es ↔
    IsComment str ∧ confEvents rest = es := by
  constructor
  · intro h
    have hmade : ConfEvent.Made (.comment str) := confEvents_made _ _ (h ▸ List.mem_cons_self)
    have hc : IsComment str := hmade
    rw [confEvents_comment hc] at h
    exact ⟨hc, (List.cons.inj h).2⟩
  · rintro ⟨hc, rfl⟩
    exact confEvents_comment hc

theorem confEvents_comments_iff {cs : List Text} : confEvents (saveComments cs ++ rest) = cs.map .comment ++ es ↔
    (∀ c ∈ cs, IsComment c) ∧ confEvents rest = es := by
  induction cs with
  | nil => simp [saveComments]
  | cons c cs ih =>
    have hsave : saveComments (c :: cs) ++ rest = c ++ newLine :: (saveComments cs ++ rest) := by
      simp [saveComments]
    rw [hsave, List.map_cons, List.cons_append, confEvents_comment_iff, ih, List.forall_mem_cons, and_assoc]

theorem confEvents_label (hl : IsLabelName str) :
    confEvents (olabel :: str ++ [clabel, newLine] ++ rest) = .label str :: confEvents rest := by
  have hread : confEvents (olabel :: str ++ [clabel, newLine] ++ rest) =
      (confScan.run ⟨.label, []⟩ (str ++ clabel :: newLine :: rest)).2 := by
    rw [List.append_assoc]
    rfl
  rw [hread, run_label fun c hc => decide_eq_false (hl c hc).2]
  have hstr : rmWhitespace str = str := by
    have hbetween := @rmWhitespace_between [] [] str (by simp) (by simp) fun c hc => (hl c hc).1
    rwa [List.nil_append, List.append_nil] at hbetween
  show ConfEvent.label (rmWhitespace str) :: confEvents rest = _
  rw [hstr]

theorem confEvents_label_iff : confEvents (olabel :: str ++ [clabel, newLine] ++ rest) = .label str :: es ↔
    IsLabelName str ∧ confEvents rest = es := by
  constructor
  · intro h
    have hmade : ConfEvent.Made (.label str) := confEvents_made _ _ (h ▸ List.mem_cons_self)
    have hl : IsLabelName str := hmade
    rw [confEvents_label hl] at h
    exact ⟨hl, (List.cons.inj h).2⟩
  · rintro ⟨hl, rfl⟩
    exact confEvents_label hl

end

end Katcp
