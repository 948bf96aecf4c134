import Katcp.ConfPlain

namespace Katcp

section

variable {a b u v w rest x y z str : Text} {c m : Byte} {s : ConfState} {e : ConfEvent} {es : List ConfEvent}
  {vs : List Text}

theorem space_mark {c : Byte} (hc : c = 32) : startStop c = false ∧ valueStop c = false := by
  subst hc
  decide

theorem spaces : ∀ c ∈ textOf "  ", c = 32 := forall_of_all (by decide)

theorem endsLine_space (hc : endsLine c = true) : isConfSpace c = true := by
  rcases Bool.or_eq_true _ _ ▸ hc with h | h <;> rw [of_decide_eq_true h] <;> decide

theorem not_endsLine (hc : isConfSpace c = false) : endsLine c = false :=
  Bool.eq_false_iff.mpr fun h => Bool.eq_false_iff.mp hc (endsLine_space h)

theorem IsName.quiet (h : IsName str) : ∀ c ∈ str, startStop c = false := by
  intro c hc
  obtain ⟨⟨hspace, -⟩, hcomment, hlabel, hsetting⟩ := h c hc
  simp [startStop, hcomment, hlabel, hsetting, not_endsLine hspace]

theorem isName_of_quiet (h : ∀ c ∈ str, startStop c = false) (hstr : ∀ c ∈ str, isConfSpace c = false ∧ c ≠ 0) :
    IsName str := by
  intro c hc
  have hquiet := h c hc
  simp only [startStop, Bool.or_eq_false_iff, decide_eq_false_iff_not] at hquiet
  exact ⟨hstr c hc, hquiet.1.1.1, hquiet.1.1.2, hquiet.1.2⟩

theorem confEvents_indent (h : ∀ c ∈ a, startStop c = false) :
    confEvents (textOf "  " ++ a ++ rest) = (confScan.run ⟨.start, textOf "  " ++ a⟩ rest).2 := by
  have hx : ∀ c ∈ textOf "  " ++ a, startStop c = false := by
    intro c hc
    rcases List.mem_append.mp hc with hc | hc
    · exact (space_mark (spaces c hc)).1
    · exact h c hc
  show (confScan.run ⟨.start, []⟩ (textOf "  " ++ a ++ rest)).2 = _
  rw [run_start hx, List.nil_append]

/-- A setting up to the blank behind its mark. -/
theorem confEvents_setting (h : IsName str) : confEvents (textOf "  " ++ str ++ textOf " = " ++ rest) =
    .setting str :: (confScan.run ⟨.value, [32]⟩ rest).2 := by
  have hindent := @confEvents_indent str (textOf " = " ++ rest) h.quiet
  rw [List.append_assoc, hindent]
  have hread : (confScan.run ⟨.start, textOf "  " ++ str⟩ (textOf " = " ++ rest)).2 =
      .setting (rmWhitespace (textOf "  " ++ str ++ [32] ++ [settingMark]).dropLast) ::
        (confScan.run ⟨.value, [32]⟩ rest).2 := rfl
  rw [hread, List.dropLast_concat, rmWhitespace_between spaces (by simp) fun c hc => (h c hc).1]

theorem confEvents_setting_iff : confEvents (textOf "  " ++ str ++ textOf " = " ++ rest) = .setting str :: es ↔
    IsName str ∧ (confScan.run ⟨.value, [32]⟩ rest).2 = es := by
  constructor
  · intro h
    have hmade : ConfEvent.Made (.setting str) := confEvents_made _ _ (h ▸ List.mem_cons_self)
    have hstr : ∀ c ∈ str, isConfSpace c = false ∧ c ≠ 0 := hmade
    rcases first_stop startStop str with hquiet | ⟨a, m, b, rfl, ha, hm⟩
    · have hname := isName_of_quiet hquiet hstr
      rw [confEvents_setting hname] at h
      exact ⟨hname, (List.cons.inj h).2⟩
    · -- what comes first in the name begins something else, or ends it early
      exfalso
      have hsplit : textOf "  " ++ (a ++ m :: b) ++ textOf " = " ++ rest =
          textOf "  " ++ a ++ m :: (b ++ textOf " = " ++ rest) := by simp
      rw [hsplit, confEvents_indent ha] at h
      simp only [startStop, Bool.or_eq_true, decide_eq_true_eq] at hm
      rcases hm with ((rfl | rfl) | rfl) | hm
      · have hread : (confScan.run ⟨.comment, [commentMark]⟩ (b ++ textOf " = " ++ rest)).2 =
            .setting (a ++ commentMark :: b) :: es := h
        exact run_next hread
      · have hread : (confScan.run ⟨.label, []⟩ (b ++ textOf " = " ++ rest)).2 =
            .setting (a ++ olabel :: b) :: es := h
        exact run_next hread
      · obtain ⟨c, more, hmore⟩ := List.exists_cons_of_ne_nil (show b ++ textOf " = " ++ rest ≠ [] by simp [textOf])
        rw [hmore] at h
        have hread : .setting (rmWhitespace (textOf "  " ++ a ++ [settingMark]).dropLast) ::
            (confScan.run ⟨.value, [c]⟩ more).2 = .setting (a ++ settingMark :: b) :: es := h
        have hbetween := @rmWhitespace_between (textOf "  ") [] a spaces (by simp) fun c hc =>
          hstr c (List.mem_append_left _ hc)
        rw [List.append_nil] at hbetween
        rw [List.dropLast_concat, hbetween] at hread
        have he := ConfEvent.setting.inj (List.cons.inj hread).1
        have hlength := congrArg List.length he
        rw [List.length_append, List.length_cons] at hlength
        omega
      · have hspace := (hstr m (by simp)).1
        rw [endsLine_space hm] at hspace
        cases hspace
  · rintro ⟨hname, rfl⟩
    exact confEvents_setting hname

/-- A value in brackets ends at the first bracket that closes. -/
theorem run_block_read (h : ∀ c ∈ x, c ≠ clabel) : (confScan.run ⟨.mlvalue, u⟩ (x ++ clabel :: y)).2 =
    .value (cString (u ++ x ++ [clabel])) :: (confScan.run ⟨.start, u ++ x ++ [clabel]⟩ y).2 := by
  rw [run_mlvalue fun c hc => decide_eq_false (h c hc)]
  rfl

theorem run_block (h : (confScan.run ⟨.mlvalue, u⟩ y).2 = .value v :: es) : ∃ y1 y2, y = y1 ++ clabel :: y2 ∧
    (∀ c ∈ y1, c ≠ clabel) ∧ v = cString (u ++ y1 ++ [clabel]) ∧
      (confScan.run ⟨.start, u ++ y1 ++ [clabel]⟩ y2).2 = es := by
  rcases first_stop (fun c => decide (c = clabel)) y with hquiet | ⟨y1, m, y2, rfl, hy, hm⟩
  · have hend := @run_mlvalue y hquiet u []
    rw [List.append_nil] at hend
    rw [hend] at h
    cases h
  · cases of_decide_eq_true hm
    have hy : ∀ c ∈ y1, c ≠ clabel := fun c hc => of_decide_eq_false (hy c hc)
    rw [run_block_read hy] at h
    obtain ⟨hvalue, hrest⟩ := List.cons.inj h
    exact ⟨y1, y2, rfl, hy, (ConfEvent.value.inj hvalue).symm, hrest⟩

theorem cString_cons (hc : c ≠ 0) (str : Text) : cString (c :: str) = c :: cString str :=
  List.takeWhile_cons_of_pos (decide_eq_true hc)

theorem cString_append (hx : ∀ c ∈ x, c ≠ 0) (y : Text) : cString (x ++ y) = x ++ cString y :=
  List.takeWhile_append_of_pos fun c hc => decide_eq_true (hx c hc)

/-- Something like a value with a bracket in it was read as it was written: it is all in brackets. -/
theorem block_read (ha : ∀ c ∈ a, valueStop c = false) (hc : c ≠ clabel ∧ c ≠ 0)
    (h : (confScan.run ⟨.mlvalue, [olabel]⟩ (b ++ c :: z)).2 = .value (a ++ olabel :: b) :: es) :
    IsBlock (a ++ olabel :: b) ∧ (confScan.run ⟨.start, a ++ olabel :: b⟩ (c :: z)).2 = es := by
  obtain ⟨y1, y2, hy, hfree, hv, hrest⟩ := run_block h
  rw [List.singleton_append, List.cons_append, cString_cons (by decide)] at hv
  have hnil : a = [] := by
    cases a with
    | nil => rfl
    | cons c a =>
      obtain ⟨rfl, -⟩ := List.cons.inj hv
      have hstop := ha olabel List.mem_cons_self
      exact absurd hstop (by decide)
  subst hnil
  obtain ⟨-, hb⟩ := List.cons.inj hv
  rcases List.append_eq_append_iff.mp hy with ⟨a', rfl, hz⟩ | ⟨c', rfl, hz⟩
  · -- the bracket closes behind the value, so that more was read
    exfalso
    cases a' with
    | nil => exact hc.1 (List.cons.inj hz).1
    | cons d a' =>
      obtain ⟨rfl, -⟩ := List.cons.inj hz
      have hzero : ∀ x ∈ b, x ≠ 0 := fun x hx => (mem_cString (hb ▸ hx)).2
      rw [List.append_assoc, cString_append hzero, List.cons_append, cString_cons hc.2] at hb
      have hlength := congrArg List.length hb
      rw [List.length_append, List.length_cons] at hlength
      omega
  · cases c' with
    | nil => exact absurd (List.cons.inj hz).1.symm hc.1
    | cons d b2 =>
      obtain ⟨rfl, rfl⟩ := List.cons.inj hz
      have hle := congrArg List.length hb
      have hprefix : (cString (y1 ++ [clabel])).length ≤ (y1 ++ [clabel]).length :=
        (List.takeWhile_prefix _).length_le
      rw [← hle, List.length_append, List.length_append, List.length_cons, List.length_singleton] at hprefix
      have hb2 : b2 = [] := List.length_eq_zero_iff.mp (by omega)
      subst hb2
      refine ⟨⟨y1, rfl, fun x hx => ⟨hfree x hx, ?_⟩⟩, hrest⟩
      exact (mem_cString (hb ▸ List.mem_append_left [clabel] hx)).2

/-- A word is read up to the byte that ends it. -/
theorem run_word (hw : ∀ c ∈ w, c = 32) (hz : ∀ c ∈ z, c = 32) (hv : IsWordValue v) (rest : Text) :
    confScan.run ⟨.value, w⟩ (v ++ z ++ rest) = confScan.run ⟨.value, w ++ v ++ z⟩ rest ∧
      rmWhitespace (w ++ v ++ z) = v := by
  have hquiet : ∀ c ∈ v ++ z, valueStop c = false := by
    intro c hc
    rcases List.mem_append.mp hc with hc | hc
    · obtain ⟨⟨hspace, -⟩, hvalue, hlabel⟩ := hv c hc
      simp [valueStop, hvalue, hlabel, not_endsLine hspace]
    · exact (space_mark (hz c hc)).2
  refine ⟨?_, rmWhitespace_between hw hz fun c hc => (hv c hc).1⟩
  rw [run_value hquiet, List.append_assoc]

/-- A text without stops was read as it was written: it is a word. -/
theorem isWord_of_quiet (hquiet : ∀ c ∈ v, valueStop c = false) (h : rmWhitespace x = v) : IsWordValue v := by
  intro c hc
  have hstop := hquiet c hc
  simp only [valueStop, Bool.or_eq_false_iff, decide_eq_false_iff_not] at hstop
  exact ⟨(mem_rmWhitespace (h ▸ hc)).2, hstop.1.2, hstop.1.1⟩

/-- A value that was read as it was written is a word, or was in brackets. -/
theorem value_read (hw : ∀ c ∈ w, c = 32) (hc : c ≠ clabel ∧ c ≠ 0)
    (h : (confScan.run ⟨.value, w⟩ (v ++ c :: z)).2 = .value v :: es) :
    (∀ x ∈ v, valueStop x = false) ∨ IsBlock v ∧ (confScan.run ⟨.start, v⟩ (c :: z)).2 = es := by
  rcases first_stop valueStop v with hquiet | ⟨a, m, b, rfl, ha, hm⟩
  · exact Or.inl hquiet
  right
  rw [List.append_assoc, run_value ha, List.cons_append] at h
  have hearly : valueStop m = true → (confScan.run ⟨.value, w ++ a⟩ (m :: (b ++ c :: z))).2 =
      .value (rmWhitespace (w ++ a)) :: (confScan.run ⟨.value, w ++ a⟩ (m :: (b ++ c :: z))).2.tail →
      False := by
    intro hm hearly
    rw [h] at hearly
    have he := ConfEvent.value.inj (List.cons.inj hearly).1
    have hmem : m ∈ rmWhitespace (w ++ a) := he ▸ List.mem_append_right a List.mem_cons_self
    rcases List.mem_append.mp (mem_rmWhitespace hmem).1 with hmw | hma
    · rw [(space_mark (hw m hmw)).2] at hm
      cases hm
    · rw [ha m hma] at hm
      cases hm
  have hstop := hm
  simp only [valueStop, Bool.or_eq_true, decide_eq_true_eq] at hm
  rcases hm with (rfl | rfl) | hend
  · exact block_read ha hc h
  · exact (hearly hstop rfl).elim
  · rcases Bool.or_eq_true _ _ ▸ hend with hline | hline
    · cases of_decide_eq_true hline
      exact (hearly hstop rfl).elim
    · cases of_decide_eq_true hline
      exact (hearly hstop rfl).elim

theorem run_lastValue_iff (hw : ∀ c ∈ w, c = 32) :
    (confScan.run ⟨.value, w⟩ (v ++ 32 :: newLine :: rest)).2 = .value v :: es ↔
      (IsWordValue v ∨ IsBlock v) ∧ confEvents rest = es := by
  have hend : (∀ c ∈ v, valueStop c = false) → (confScan.run ⟨.value, w⟩ (v ++ 32 :: newLine :: rest)).2 =
      .value (rmWhitespace (w ++ v ++ [32])) :: confEvents rest := by
    intro hquiet
    rw [run_value hquiet]
    rfl
  constructor
  · intro h
    rcases value_read hw (show (32 : Byte) ≠ clabel ∧ (32 : Byte) ≠ 0 by decide) h with hquiet | ⟨hblock, hrest⟩
    · rw [hend hquiet] at h
      obtain ⟨hvalue, hes⟩ := List.cons.inj h
      exact ⟨Or.inl (isWord_of_quiet hquiet (ConfEvent.value.inj hvalue)), hes⟩
    · exact ⟨Or.inr hblock, hrest⟩
  · rintro ⟨hword | ⟨b, rfl, hb⟩, rfl⟩
    · obtain ⟨hread, hstr⟩ := @run_word v w [32] hw (by simp) hword (newLine :: rest)
      rw [List.append_assoc, List.singleton_append] at hread
      rw [hread]
      show ConfEvent.value (rmWhitespace (w ++ v ++ [32])) :: confEvents rest = _
      rw [hstr]
    · have hstr : cString (olabel :: b ++ [clabel]) = olabel :: b ++ [clabel] := by
        refine cString_eq fun c hc => ?_
        rcases List.mem_append.mp hc with hc | hc
        · rcases List.mem_cons.mp hc with rfl | hc
          · decide
          · exact (hb c hc).2
        · rw [List.mem_singleton.mp hc]
          decide
      have hopen : (confScan.run ⟨.value, w⟩ (olabel :: b ++ [clabel] ++ 32 :: newLine :: rest)).2 =
          (confScan.run ⟨.mlvalue, [olabel]⟩ (b ++ clabel :: 32 :: newLine :: rest)).2 := by
        rw [List.append_assoc]
        rfl
      rw [hopen, run_block_read fun c hc => (hb c hc).1]
      show ConfEvent.value (cString (olabel :: b ++ [clabel])) :: confEvents rest = _
      rw [hstr]

theorem run_nextValue_iff (hw : ∀ c ∈ w, c = 32) (hes : es.head? = some (.value x)) :
    (confScan.run ⟨.value, w⟩ (v ++ valueMark :: z)).2 = .value v :: es ↔
      IsWordValue v ∧ (confScan.run ⟨.value, []⟩ z).2 = es := by
  have hend : (∀ c ∈ v, valueStop c = false) → (confScan.run ⟨.value, w⟩ (v ++ valueMark :: z)).2 =
      .value (rmWhitespace (w ++ v)) :: (confScan.run ⟨.value, []⟩ z).2 := by
    intro hquiet
    rw [run_value hquiet]
    rfl
  constructor
  · intro h
    rcases value_read hw (show valueMark ≠ clabel ∧ valueMark ≠ 0 by decide) h with hquiet | ⟨-, hrest⟩
    · rw [hend hquiet] at h
      obtain ⟨hvalue, hes⟩ := List.cons.inj h
      exact ⟨isWord_of_quiet hquiet (ConfEvent.value.inj hvalue), hes⟩
    · -- nothing but the end of the line is read behind a bracket
      cases es with
      | nil => cases hes
      | cons e es =>
        cases hes
        exact (run_next hrest).elim
  · rintro ⟨hword, rfl⟩
    obtain ⟨hread, hstr⟩ := @run_word v w [] hw (by simp) hword (valueMark :: z)
    simp only [List.append_nil] at hread hstr
    rw [hread]
    show ConfEvent.value (rmWhitespace (w ++ v)) :: (confScan.run ⟨.value, []⟩ z).2 = _
    rw [hstr]

/-- The values of a setting up to the end of the line. -/
theorem run_values_iff (hw : ∀ c ∈ w, c = 32) (hes : ∀ v, es.head? ≠ some (.value v)) :
    (confScan.run ⟨.value, w⟩ (saveValues vs ++ newLine :: rest)).2 = vs.map .value ++ es ↔
      PlainValues vs ∧ confEvents rest = es := by
  induction vs generalizing w with
  | nil =>
    refine iff_of_false (fun h => hes (rmWhitespace w) ?_) fun h => h.1
    have hread : .value (rmWhitespace w) :: confEvents rest = es := h
    rw [← hread]
    rfl
  | cons v vs ih =>
    cases vs with
    | nil =>
      have hsave : saveValues [v] ++ newLine :: rest = v ++ 32 :: newLine :: rest := List.append_assoc ..
      rw [hsave]
      exact run_lastValue_iff hw
    | cons v' vs =>
      have hsave : saveValues (v :: v' :: vs) ++ newLine :: rest =
          v ++ valueMark :: (saveValues (v' :: vs) ++ newLine :: rest) := List.append_assoc ..
      have hnil : ∀ c ∈ ([] : Text), c = 32 := fun c hc => absurd hc List.not_mem_nil
      rw [hsave, List.map_cons, List.cons_append, @run_nextValue_iff v w v' _ _ hw rfl, ih hnil, ← and_assoc]
      exact Iff.rfl

theorem comments_head {cs : List Text} (hes : ∀ v, es.head? ≠ some (.value v)) (v : Text) :
    (cs.map ConfEvent.comment ++ es).head? ≠ some (.value v) := by
  cases cs with
  | nil => exact hes v
  | cons c cs =>
    intro h
    cases h

theorem save_setting_iff {p : PSetting} (hsave : p.save = some x) (hes : ∀ v, es.head? ≠ some (.value v)) :
    confEvents (x ++ rest) = p.events ++ es ↔ p.Plain ∧ confEvents rest = es := by
  obtain ⟨cs, hcs, rfl⟩ := Option.map_eq_some_iff.mp hsave
  have hsplit : textOf "  " ++ p.str ++ textOf " = " ++ saveValues p.values ++ [newLine] ++ saveComments cs ++ rest =
      textOf "  " ++ p.str ++ textOf " = " ++ (saveValues p.values ++ newLine :: (saveComments cs ++ rest)) := by simp
  have hevents : p.events ++ es =
      .setting p.str :: (p.values.map .value ++ (cs.map .comment ++ es)) := by
    rw [PSetting.events, hcs]
    simp
  have hblank : ∀ c ∈ ([32] : Text), c = 32 := by simp
  rw [hsplit, hevents, confEvents_setting_iff, run_values_iff hblank (comments_head hes), confEvents_comments_iff]
  constructor
  · rintro ⟨hname, hvalues, hcomments, hrest⟩
    exact ⟨⟨hname, hvalues, cs, hcs, hcomments⟩, hrest⟩
  · rintro ⟨⟨hname, hvalues, cs', hcs', hcomments⟩, hrest⟩
    cases hcs.symm.trans hcs'
    exact ⟨hname, hvalues, hcomments, hrest⟩

theorem save_settings_iff {settings : List PSetting} {xs : List Text} (hsave : settings.mapM PSetting.save = some xs)
    (hes : ∀ v, es.head? ≠ some (.value v)) : confEvents (xs.flatten ++ rest) = settings.flatMap PSetting.events ++ es ↔
      (∀ p ∈ settings, p.Plain) ∧ confEvents rest = es := by
  induction settings generalizing xs with
  | nil =>
    cases hsave
    simp
  | cons p settings ih =>
    rw [List.mapM_cons] at hsave
    obtain ⟨x, hx, hsave⟩ := Option.bind_eq_some_iff.mp hsave
    obtain ⟨xs, hxs, hsave⟩ := Option.bind_eq_some_iff.mp hsave
    cases hsave
    have hnext : ∀ v, (settings.flatMap PSetting.events ++ es).head? ≠ some (.value v) := by
      cases settings with
      | nil => exact hes
      | cons q settings =>
        intro v h
        cases h
    rw [List.flatten_cons, List.append_assoc, List.flatMap_cons, List.append_assoc, save_setting_iff hx hnext, ih hxs,
      List.forall_mem_cons, and_assoc]

theorem save_label_iff {l : PLabel} (hsave : l.save = some x) (hes : ∀ v, es.head? ≠ some (.value v)) :
    confEvents (x ++ rest) = l.events ++ es ↔ l.Plain ∧ confEvents rest = es := by
  obtain ⟨cs, hcs, hsave⟩ := Option.bind_eq_some_iff.mp hsave
  obtain ⟨xs, hxs, rfl⟩ := Option.map_eq_some_iff.mp hsave
  have hsplit : olabel :: l.str ++ [clabel, newLine] ++ saveComments cs ++ xs.flatten ++ [newLine] ++ rest =
      olabel :: l.str ++ [clabel, newLine] ++ (saveComments cs ++ (xs.flatten ++ newLine :: rest)) := by simp
  have hevents : l.events ++ es = .label l.str :: (cs.map .comment ++ (l.settings.flatMap PSetting.events ++ es)) := by
    rw [PLabel.events, hcs]
    simp
  have hblank : confEvents (newLine :: rest) = confEvents rest := rfl
  rw [hsplit, hevents, confEvents_label_iff, confEvents_comments_iff, save_settings_iff hxs hes, hblank]
  constructor
  · rintro ⟨hname, hcomments, hsettings, hrest⟩
    exact ⟨⟨hname, ⟨cs, hcs, hcomments⟩, hsettings⟩, hrest⟩
  · rintro ⟨⟨hname, ⟨cs', hcs', hcomments⟩, hsettings⟩, hrest⟩
    cases hcs.symm.trans hcs'
    exact ⟨hname, hcomments, hsettings, hrest⟩

theorem save_labels_iff {labels : List PLabel} {xs : List Text} (hsave : labels.mapM PLabel.save = some xs) :
    confEvents xs.flatten = labels.flatMap PLabel.events ↔ ∀ l ∈ labels, l.Plain := by
  induction labels generalizing xs with
  | nil =>
    cases hsave
    simp [confEvents]
  | cons l labels ih =>
    rw [List.mapM_cons] at hsave
    obtain ⟨x, hx, hsave⟩ := Option.bind_eq_some_iff.mp hsave
    obtain ⟨xs, hxs, hsave⟩ := Option.bind_eq_some_iff.mp hsave
    cases hsave
    have hnext : ∀ v, (labels.flatMap PLabel.events).head? ≠ some (.value v) := by
      cases labels with
      | nil => simp
      | cons q labels =>
        intro v h
        cases h
    rw [List.flatten_cons, List.flatMap_cons, save_label_iff hx hnext, ih hxs, List.forall_mem_cons]

end

section

variable {t : PTree} {buf : Text}

theorem saved_empty (hsave : saveTree t = some buf) : buf = [] ↔ t = noTree := by
  obtain ⟨labels, comments⟩ := t
  obtain ⟨xs, hxs, rfl⟩ := Option.map_eq_some_iff.mp hsave
  constructor
  · intro h
    obtain ⟨hcomments, hlabels⟩ := List.append_eq_nil_iff.mp h
    have hnone : comments = [] := by
      cases comments with
      | nil => rfl
      | cons c cs => simp [saveComments] at hcomments
    cases labels with
    | nil => rw [hnone, noTree]
    | cons l labels =>
      have hxs : (l :: labels).mapM PLabel.save = some xs := hxs
      rw [List.mapM_cons] at hxs
      obtain ⟨x, hx, hxs⟩ := Option.bind_eq_some_iff.mp hxs
      obtain ⟨xs, -, hxs⟩ := Option.bind_eq_some_iff.mp hxs
      cases hxs
      obtain ⟨cs, -, hx⟩ := Option.bind_eq_some_iff.mp hx
      obtain ⟨ys, -, rfl⟩ := Option.map_eq_some_iff.mp hx
      simp at hlabels
  · intro h
    cases h
    cases hxs
    rfl

theorem Plain.written (h : t.Plain) : t.Written := by
  intro l hl
  obtain ⟨-, ⟨cs, hcs, -⟩, hsettings⟩ := h.labels l hl
  refine ⟨by rw [hcs]; rfl, fun s hs => ?_⟩
  obtain ⟨-, -, cs, hcs, -⟩ := hsettings s hs
  rw [hcs]
  rfl

/-- What `save_tree` wrote is loaded again as the same tree exactly when each text of the tree means the
same in a file, and there is something in it. -/
theorem load_saved_iff (hsave : saveTree t = some buf) : startParser buf = .ok t ↔ t ≠ noTree ∧ t.Plain := by
  have hempty := saved_empty hsave
  by_cases hbuf : buf = []
  · refine iff_of_false (fun h => ?_) fun h => h.1 (hempty.mp hbuf)
    rw [hbuf] at h
    cases h
  · rw [startParser_iff hbuf]
    obtain ⟨xs, hxs, hbuf'⟩ := Option.map_eq_some_iff.mp hsave
    rw [← hbuf', PTree.events, confEvents_comments_iff, save_labels_iff hxs]
    constructor
    · rintro ⟨-, hcomments, hlabels⟩
      exact ⟨mt hempty.mpr hbuf, hcomments, hlabels⟩
    · rintro ⟨-, hplain⟩
      exact ⟨Plain.written hplain, hplain.comments, hplain.labels⟩

def plainTree : PTree :=
  ⟨[⟨textOf "roach", [⟨textOf "name", [textOf "r1", textOf "[a\n b]"], some [textOf "# port"]⟩], some []⟩],
    [textOf "# pool"]⟩

def commaFile : Text := textOf "[l]\n a=,b\n"

def commaTree : PTree := ⟨[⟨textOf "l", [⟨textOf "a", [textOf ",b"], some []⟩], some []⟩], []⟩

/-- A tree with a value over two lines comes back, and one with a comma at the start of a value, which can
be loaded, does not. -/
theorem load_saved_iff_values : (∃ buf, saveTree plainTree = some buf ∧ startParser buf = .ok plainTree) ∧
    startParser commaFile = .ok commaTree ∧
      ∃ buf, saveTree commaTree = some buf ∧ startParser buf ≠ .ok commaTree := by
  refine ⟨⟨_, rfl, (load_saved_iff rfl).mpr ⟨by decide, ?_⟩⟩, by decide +kernel, _, rfl, fun hload => ?_⟩
  · have hpool : IsComment (textOf "# pool") := ⟨textOf " pool", rfl, forall_of_all (by decide)⟩
    have hport : IsComment (textOf "# port") := ⟨textOf " port", rfl, forall_of_all (by decide)⟩
    have hblock : IsBlock (textOf "[a\n b]") := ⟨textOf "a\n b", rfl, forall_of_all (by decide)⟩
    have hword : IsWordValue (textOf "r1") := forall_of_all (by decide)
    have hname : IsName (textOf "name") := forall_of_all (by decide)
    have hlabel : IsLabelName (textOf "roach") := forall_of_all (by decide)
    refine ⟨List.forall_mem_singleton.mpr hpool, List.forall_mem_singleton.mpr ⟨hlabel, ⟨[], rfl, by simp⟩, ?_⟩⟩
    exact List.forall_mem_singleton.mpr
      ⟨hname, ⟨hword, Or.inr hblock⟩, [textOf "# port"], rfl, List.forall_mem_singleton.mpr hport⟩
  · have hplain := ((load_saved_iff rfl).mp hload).2
    have hvalues := ((hplain.labels _ List.mem_cons_self).settings _ List.mem_cons_self).values
    rcases hvalues with hword | ⟨b, hb, -⟩
    · exact (hword valueMark (by decide)).2.1 rfl
    · have hhead : (textOf ",b").head? = some olabel := congrArg List.head? hb
      exact absurd hhead (by decide)

end

/-- The first bracket or sign of a file, and what comes behind it; what is in a comment does not count. -/
def markAhead (inComment : Bool) : Text → Option (Byte × Text)
  | [] => none
  | c :: rest =>
    if inComment then markAhead (!endsLine c) rest
    else if c = commentMark then markAhead true rest
    else if c = olabel || c = settingMark then some (c, rest)
    else markAhead false rest

section

variable {t t' : PTree} {x : Text} {u buf rest str : Text} {s : ConfState} {c : Byte}

theorem Open.labels (h : t.Open) : t.labels ≠ [] := by
  obtain ⟨labels, l, settings, s, comments, rfl, -⟩ := h
  simp

theorem storeSetting_open (hl : t.labels ≠ []) (str : Text) : ∃ t', t.storeSetting str = some t' ∧ t'.Open := by
  obtain ⟨labels, comments⟩ := t
  rcases List.eq_nil_or_concat labels with rfl | ⟨labels, l, rfl⟩
  · exact absurd rfl hl
  · rw [List.concat_eq_append, storeSetting_concat]
    exact ⟨_, rfl, labels, _, l.settings, _, comments, rfl, rfl, rfl⟩

theorem storeValue_open (h : t.Open) (str : Text) : ∃ t', t.storeValue str = some t' ∧ t'.Open := by
  obtain ⟨labels, l, settings, s, comments, rfl, hl, hcs⟩ := h
  rw [storeValue_concat comments labels l settings s str hl]
  exact ⟨_, rfl, labels, _, settings, _, comments, rfl, rfl, hcs⟩

theorem storeComment_labels (str : Text) : (t.storeComment str).labels = [] ↔ t.labels = [] := by
  obtain ⟨labels, comments⟩ := t
  rcases List.eq_nil_or_concat labels with rfl | ⟨labels, l, rfl⟩
  · exact Iff.rfl
  · rw [List.concat_eq_append, PTree.storeComment]
    dsimp only
    rw [if_neg (by simp), onLast_concat]
    simp

/-- Where there is a label everything finds its place. -/
theorem turn_labelled (hl : t.labels ≠ []) (hopen : s.Valued → t.Open) (c : Byte) :
    ∃ t', (s.turn c).2.foldlM PTree.store t = some t' ∧ t'.labels ≠ [] ∧ ((s.turn c).1.Valued → t'.Open) := by
  rcases turn_shape s c with ⟨hsaid, hvalued⟩ | ⟨e, hsaid, hvalue, hopens⟩
  · rw [hsaid]
    exact ⟨t, rfl, hl, fun hv => hopen (hvalued hv)⟩
  · rw [hsaid, store_one]
    cases e with
    | comment str => exact ⟨_, rfl, mt (storeComment_labels str).mp hl, fun hv => (hopens hv).elim⟩
    | label str =>
      refine ⟨_, rfl, ?_, fun hv => (hopens hv).elim⟩
      simp [PTree.storeLabel]
    | setting str =>
      obtain ⟨t', ht, ho⟩ := storeSetting_open hl str
      exact ⟨t', ht, Open.labels ho, fun _ => ho⟩
    | value str =>
      obtain ⟨t', ht, ho⟩ := storeValue_open (hopen (hvalue trivial)) str
      exact ⟨t', ht, Open.labels ho, fun _ => ho⟩

theorem run_labelled (hl : t.labels ≠ []) (hopen : s.Valued → t.Open) (x : Text) :
    ∃ t', (confScan.run s x).2.foldlM PTree.store t = some t' := by
  induction x generalizing s t with
  | nil => exact ⟨t, rfl⟩
  | cons c x ih =>
    obtain ⟨t1, h1, hl1, ho1⟩ := turn_labelled hl hopen c
    obtain ⟨t2, h2⟩ := ih hl1 ho1
    refine ⟨t2, ?_⟩
    rw [Transducer.run_cons, List.foldlM_append]
    show ((s.turn c).2.foldlM PTree.store t).bind _ = _
    rw [h1]
    exact h2

theorem run_in_label (t : PTree) (u x : Text) :
    ∃ t', (confScan.run ⟨.label, u⟩ x).2.foldlM PTree.store t = some t' := by
  rcases first_stop (fun c => decide (c = clabel)) x with hquiet | ⟨a, m, b, rfl, ha, hm⟩
  · have hend := run_label hquiet u []
    rw [List.append_nil] at hend
    rw [hend]
    exact ⟨t, rfl⟩
  · cases of_decide_eq_true hm
    rw [run_label ha]
    have hlabels : (t.storeLabel (rmWhitespace (u ++ a))).labels ≠ [] := by simp [PTree.storeLabel]
    exact @run_labelled _ ⟨.start, [clabel]⟩ hlabels (by simp [ConfState.Valued]) b

/-- The state of the parser outside of labels and settings. -/
def outside (inComment : Bool) (u : Text) : ConfState := ⟨if inComment then .comment else .start, u⟩

theorem run_unlabelled (hl : t.labels = []) (inComment : Bool) (u x : Text) :
    (confScan.run (outside inComment u) x).2.foldlM PTree.store t = none ↔
      ∃ rest, rest ≠ [] ∧ markAhead inComment x = some (settingMark, rest) := by
  induction x generalizing t inComment u with
  | nil => simp [markAhead]
  | cons c x ih =>
    cases inComment with
    | true =>
      by_cases hc : endsLine c = true
      · have hread : (confScan.run (outside true u) (c :: x)).2.foldlM PTree.store t =
            (confScan.run (outside false []) x).2.foldlM PTree.store (t.storeComment (cString u)) := by
          rw [Transducer.run_cons]
          have hturn : confScan.step (outside true u) c = (outside false [], [.comment (cString u)]) := if_pos hc
          rw [hturn]
          rfl
        rw [hread, ih ((storeComment_labels _).mpr hl), markAhead, if_pos rfl, hc]
        rfl
      · have hread : confScan.run (outside true u) (c :: x) = confScan.run (outside true (u ++ [c])) x := by
          rw [Transducer.run_cons]
          have hturn : confScan.step (outside true u) c = (outside true (u ++ [c]), []) := if_neg hc
          rw [hturn]
          rfl
        rw [hread, ih hl, markAhead, if_pos rfl, Bool.eq_false_iff.mpr hc]
        rfl
    | false =>
      rw [markAhead, if_neg Bool.noConfusion]
      by_cases hcomment : c = commentMark
      · subst hcomment
        rw [if_pos rfl]
        exact ih hl true [commentMark]
      rw [if_neg hcomment]
      by_cases hlabel : c = olabel
      · subst hlabel
        obtain ⟨t', ht⟩ := run_in_label t [] x
        have hread : (confScan.run (outside false u) (olabel :: x)).2.foldlM PTree.store t = some t' := ht
        rw [hread]
        simp [show olabel ≠ settingMark by decide]
      by_cases hsetting : c = settingMark
      · subst hsetting
        cases x with
        | nil => simp [confScan, Transducer.run, ConfState.turn, outside, show settingMark ≠ commentMark by decide,
            show settingMark ≠ olabel by decide]
        | cons d x =>
          have hread : (confScan.run (outside false u) (settingMark :: d :: x)).2.foldlM PTree.store t =
              (t.storeSetting (rmWhitespace (u ++ [settingMark]).dropLast)).bind fun t =>
                (confScan.run ⟨.value, [d]⟩ x).2.foldlM PTree.store t := rfl
          have hnone : ∀ str, t.storeSetting str = none := by
            intro str
            rw [PTree.storeSetting, hl]
            rfl
          rw [hread, hnone]
          simp
      · have hother : (c = olabel || c = settingMark) = false := by simp [hlabel, hsetting]
        rw [hother, if_neg Bool.noConfusion]
        by_cases hc : endsLine c = true
        · have hread : confScan.run (outside false u) (c :: x) = confScan.run (outside false []) x := by
            rw [Transducer.run_cons]
            have hturn : ConfState.turn (outside false u) c = (outside false [], []) := by
              simp [ConfState.turn, outside, hcomment, hlabel, hsetting, hc]
            have hstep : confScan.step (outside false u) c = ConfState.turn (outside false u) c := rfl
            rw [hstep, hturn]
            rfl
          rw [hread, ih hl]
        · have hread : confScan.run (outside false u) (c :: x) = confScan.run (outside false (u ++ [c])) x := by
            rw [Transducer.run_cons]
            have hturn : ConfState.turn (outside false u) c = (outside false (u ++ [c]), []) := by
              simp [ConfState.turn, outside, hcomment, hlabel, hsetting, hc]
            have hstep : confScan.step (outside false u) c = ConfState.turn (outside false u) c := rfl
            rw [hstep, hturn]
            rfl
          rw [hread, ih hl]

/-- The parser goes through a label that does not exist exactly when a setting comes before any label, and
the file does not end with its sign. -/
theorem startParser_wild_iff (buf : Text) : startParser buf = .error .wild ↔
    ∃ rest, rest ≠ [] ∧ markAhead false buf = some (settingMark, rest) := by
  by_cases hbuf : buf = []
  · subst hbuf
    simp [startParser, markAhead]
  · rw [startParser_scan hbuf, ← @run_unlabelled noTree rfl false [] buf]
    show Option.elim (List.foldlM PTree.store noTree (confScan.run (outside false []) buf).2) _ _ = _ ↔ _
    cases (confScan.run (outside false []) buf).2.foldlM PTree.store noTree <;> simp

end

end Katcp
