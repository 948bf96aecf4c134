import Katcp.ConfScan

namespace Katcp

section

variable {α : Type} {f g : α → α} {l : List α} {x : α}

theorem onLast_concat (f : α → α) (l : List α) (x : α) : onLast f (l ++ [x]) = l ++ [f x] := by
  rw [onLast, List.getLast?_concat]
  dsimp only
  rw [List.dropLast_concat]

end

def PSetting.events (s : PSetting) : List ConfEvent :=
  .setting s.str :: s.values.map .value ++ (s.comments.getD []).map .comment

def PLabel.events (l : PLabel) : List ConfEvent :=
  .label l.str :: (l.comments.getD []).map .comment ++ l.settings.flatMap PSetting.events

/-- What a file holds, in the order in which `save_tree` writes it. -/
def PTree.events (t : PTree) : List ConfEvent := t.comments.map .comment ++ t.labels.flatMap PLabel.events

/-- All memory of the tree was written. -/
def PLabel.Written (l : PLabel) : Prop := l.comments.isSome ∧ ∀ s ∈ l.settings, s.comments.isSome

def PTree.Written (t : PTree) : Prop := ∀ l ∈ t.labels, l.Written

section

variable {t t' : PTree} {es : List ConfEvent} {labels : List PLabel} {settings : List PSetting} {l : PLabel} {s : PSetting}
  {str : Text}

/-- A tree with at least one label. -/
theorem storeSetting_concat (comments : List Text) (labels : List PLabel) (l : PLabel) (str : Text) :
    PTree.storeSetting ⟨labels ++ [l], comments⟩ str =
      some ⟨labels ++ [{ l with settings := l.settings ++ [⟨str, [], some []⟩] }], comments⟩ := by
  rw [PTree.storeSetting]
  dsimp only
  rw [if_neg (by simp), onLast_concat]

theorem storeValue_concat (comments : List Text) (labels : List PLabel) (l : PLabel) (settings : List PSetting)
    (s : PSetting) (str : Text) (hl : l.settings = settings ++ [s]) :
    PTree.storeValue ⟨labels ++ [l], comments⟩ str =
      some ⟨labels ++ [{ l with settings := settings ++ [{ s with values := s.values ++ [str] }] }], comments⟩ := by
  rw [PTree.storeValue]
  dsimp only
  rw [List.getLast?_concat, Option.bind_some, hl, if_neg (by simp), onLast_concat, hl, onLast_concat]

theorem storeComment_label (comments : List Text) (labels : List PLabel) (l : PLabel) (str : Text)
    (hl : l.settings = []) : PTree.storeComment ⟨labels ++ [l], comments⟩ str =
      ⟨labels ++ [{ l with comments := l.comments.map (· ++ [str]) }], comments⟩ := by
  rw [PTree.storeComment]
  dsimp only
  rw [if_neg (by simp), onLast_concat, hl]
  rfl

theorem storeComment_setting (comments : List Text) (labels : List PLabel) (l : PLabel) (settings : List PSetting)
    (s : PSetting) (str : Text) (hl : l.settings = settings ++ [s]) :
    PTree.storeComment ⟨labels ++ [l], comments⟩ str = ⟨labels ++ [{ l with
      settings := settings ++ [{ s with comments := s.comments.map (· ++ [str]) }] }], comments⟩ := by
  rw [PTree.storeComment]
  dsimp only
  rw [if_neg (by simp), onLast_concat, hl, if_neg (by simp), onLast_concat]

/-- A value may follow: the setting that came last has no comments yet. -/
def PTree.Open (t : PTree) : Prop :=
  ∃ labels l settings s comments, t = ⟨labels ++ [l], comments⟩ ∧ l.settings = settings ++ [s] ∧ s.comments = some []

theorem events_concat (comments : List Text) (labels : List PLabel) (l : PLabel) :
    PTree.events ⟨labels ++ [l], comments⟩ = PTree.events ⟨labels, comments⟩ ++ l.events := by
  rw [PTree.events, PTree.events]
  dsimp only
  rw [List.flatMap_append, List.flatMap_singleton, List.append_assoc]

theorem label_events_concat (l : PLabel) (settings : List PSetting) (s : PSetting) :
    PLabel.events { l with settings := settings ++ [s] } = PLabel.events { l with settings := settings } ++ s.events := by
  rw [PLabel.events, PLabel.events]
  dsimp only
  rw [List.flatMap_append, List.flatMap_singleton]
  simp only [List.cons_append, List.append_assoc]

theorem written_concat (comments : List Text) (labels : List PLabel) (l : PLabel) :
    PTree.Written ⟨labels ++ [l], comments⟩ ↔ PTree.Written ⟨labels, comments⟩ ∧ l.Written := by
  simp only [PTree.Written, List.mem_append, List.mem_singleton]
  constructor
  · intro h
    exact ⟨fun x hx => h x (Or.inl hx), h l (Or.inr rfl)⟩
  · rintro ⟨hlabels, hl⟩ x (hx | rfl)
    · exact hlabels x hx
    · exact hl

theorem storeComment_events (h : t.Written) (str : Text) :
    (t.storeComment str).events = t.events ++ [.comment str] ∧ (t.storeComment str).Written := by
  obtain ⟨labels, comments⟩ := t
  rcases List.eq_nil_or_concat labels with rfl | ⟨labels, l, rfl⟩
  · refine ⟨?_, h⟩
    simp [PTree.storeComment, PTree.events]
  rw [List.concat_eq_append] at h ⊢
  obtain ⟨hlabels, hcomments, hsettings⟩ := (written_concat comments labels l).mp h
  rcases List.eq_nil_or_concat l.settings with hl | ⟨settings, s, hl⟩
  · obtain ⟨cs, hcs⟩ := Option.isSome_iff_exists.mp hcomments
    rw [storeComment_label comments labels l str hl]
    refine ⟨?_, (written_concat ..).mpr ⟨hlabels, by simp [hcs], by simp [hl]⟩⟩
    rw [events_concat, events_concat, List.append_assoc]
    simp [PLabel.events, hl, hcs]
  · rw [List.concat_eq_append] at hl
    obtain ⟨cs, hcs⟩ := Option.isSome_iff_exists.mp (hsettings s (by simp [hl]))
    rw [storeComment_setting comments labels l settings s str hl]
    refine ⟨?_, (written_concat ..).mpr ⟨hlabels, hcomments, ?_⟩⟩
    · have hsame : l = { l with settings := settings ++ [s] } := by rw [← hl]
      rw [events_concat, events_concat, label_events_concat, List.append_assoc]
      conv_rhs => rw [hsame, label_events_concat]
      simp [PSetting.events, hcs]
    · intro x hx
      rcases List.mem_append.mp hx with hx | hx
      · exact hsettings x (by simp [hl, hx])
      · rw [List.mem_singleton.mp hx, hcs]
        rfl

theorem storeLabel_events (h : t.Written) (str : Text) :
    (t.storeLabel str).events = t.events ++ [.label str] ∧ (t.storeLabel str).Written := by
  obtain ⟨labels, comments⟩ := t
  refine ⟨events_concat comments labels _, (written_concat ..).mpr ⟨h, rfl, ?_⟩⟩
  intro s hs
  cases hs

theorem storeSetting_events (h : t.Written) (hs : t.storeSetting str = some t') :
    t'.events = t.events ++ [.setting str] ∧ t'.Written ∧ t'.Open := by
  obtain ⟨labels, comments⟩ := t
  rcases List.eq_nil_or_concat labels with rfl | ⟨labels, l, rfl⟩
  · cases hs
  rw [List.concat_eq_append] at h hs ⊢
  rw [storeSetting_concat] at hs
  cases hs
  obtain ⟨hlabels, hcomments, hsettings⟩ := (written_concat comments labels l).mp h
  refine ⟨?_, (written_concat ..).mpr ⟨hlabels, hcomments, ?_⟩, labels, _, l.settings, _, comments, rfl, rfl, rfl⟩
  · rw [events_concat, events_concat, label_events_concat, List.append_assoc]
    rfl
  · intro x hx
    rcases List.mem_append.mp hx with hx | hx
    · exact hsettings x hx
    · rw [List.mem_singleton.mp hx]
      rfl

theorem storeValue_events (h : t.Written) (hopen : t.Open) (hs : t.storeValue str = some t') :
    t'.events = t.events ++ [.value str] ∧ t'.Written ∧ t'.Open := by
  obtain ⟨labels, l, settings, s, comments, rfl, hl, hcs⟩ := hopen
  rw [storeValue_concat comments labels l settings s str hl] at hs
  cases hs
  obtain ⟨hlabels, hcomments, hsettings⟩ := (written_concat comments labels l).mp h
  refine ⟨?_, (written_concat ..).mpr ⟨hlabels, hcomments, ?_⟩, labels, _, settings, _, comments, rfl, rfl, hcs⟩
  · have hsame : l = { l with settings := settings ++ [s] } := by rw [← hl]
    rw [events_concat, events_concat, label_events_concat, List.append_assoc]
    conv_rhs => rw [hsame, label_events_concat]
    simp [PSetting.events, hcs]
  · intro x hx
    rcases List.mem_append.mp hx with hx | hx
    · exact hsettings x (by simp [hl, hx])
    · rw [List.mem_singleton.mp hx, hcs]
      rfl

/-- The parser is in a value. -/
def ConfState.Valued (x : ConfState) : Prop := x.state = .value ∨ x.state = .mlvalue

def ConfEvent.IsValue : ConfEvent → Prop
  | .value _ => True
  | _ => False

/-- What a value may follow. -/
def ConfEvent.Opens : ConfEvent → Prop
  | .setting _ => True
  | .value _ => True
  | _ => False

/-- At most one thing is stored at a byte, and a value only if the parser was in one. -/
theorem turn_shape (x : ConfState) (c : Byte) : ((x.turn c).2 = [] ∧ ((x.turn c).1.Valued → x.Valued)) ∨
    ∃ e, (x.turn c).2 = [e] ∧ (e.IsValue → x.Valued) ∧ ((x.turn c).1.Valued → e.Opens) := by
  obtain ⟨state, since⟩ := x
  have hnot : ∀ {st : ParserState} {u : Text} {P : Prop}, st ≠ .value → st ≠ .mlvalue → ConfState.Valued ⟨st, u⟩ → P := by
    rintro st u P hv hm (h | h)
    · exact absurd h hv
    · exact absurd h hm
  unfold ConfState.turn
  cases state with
  | start =>
    dsimp only
    split
    · exact Or.inl ⟨rfl, hnot (by simp) (by simp)⟩
    split
    · exact Or.inl ⟨rfl, hnot (by simp) (by simp)⟩
    split
    · exact Or.inl ⟨rfl, hnot (by simp) (by simp)⟩
    split
    · exact Or.inl ⟨rfl, hnot (by simp) (by simp)⟩
    · exact Or.inl ⟨rfl, hnot (by simp) (by simp)⟩
  | comment =>
    dsimp only
    split
    · exact Or.inr ⟨_, rfl, False.elim, hnot (by simp) (by simp)⟩
    · exact Or.inl ⟨rfl, hnot (by simp) (by simp)⟩
  | label =>
    dsimp only
    split
    · exact Or.inr ⟨_, rfl, False.elim, hnot (by simp) (by simp)⟩
    · exact Or.inl ⟨rfl, hnot (by simp) (by simp)⟩
  | setting => exact Or.inr ⟨_, rfl, False.elim, fun _ => trivial⟩
  | value =>
    have hvalued : ConfState.Valued ⟨.value, since⟩ := Or.inl rfl
    dsimp only
    split
    · exact Or.inl ⟨rfl, fun _ => hvalued⟩
    split
    · exact Or.inr ⟨_, rfl, fun _ => hvalued, fun _ => trivial⟩
    split
    · exact Or.inr ⟨_, rfl, fun _ => hvalued, fun _ => trivial⟩
    · exact Or.inl ⟨rfl, fun _ => hvalued⟩
  | mlvalue =>
    have hvalued : ConfState.Valued ⟨.mlvalue, since⟩ := Or.inr rfl
    dsimp only
    split
    · exact Or.inr ⟨_, rfl, fun _ => hvalued, fun _ => trivial⟩
    · exact Or.inl ⟨rfl, fun _ => hvalued⟩

theorem store_one (t : PTree) (e : ConfEvent) : [e].foldlM PTree.store t = t.store e := by
  rw [List.foldlM_cons]
  cases t.store e <;> rfl

/-- What a turn of the scan stores is added to what the tree holds. -/
theorem turn_events {x : ConfState} {c : Byte} (h : t.Written) (hopen : x.Valued → t.Open)
    (hs : (x.turn c).2.foldlM PTree.store t = some t') : t'.events = t.events ++ (x.turn c).2 ∧ t'.Written ∧
      ((x.turn c).1.Valued → t'.Open) := by
  rcases turn_shape x c with ⟨hsaid, hvalued⟩ | ⟨e, hsaid, hvalue, hopens⟩
  · rw [hsaid] at hs ⊢
    cases hs
    exact ⟨(List.append_nil _).symm, h, fun hv => hopen (hvalued hv)⟩
  · rw [hsaid, store_one] at hs
    rw [hsaid]
    cases e with
    | comment str =>
      cases hs
      obtain ⟨he, hw⟩ := storeComment_events h str
      exact ⟨he, hw, fun hv => (hopens hv).elim⟩
    | label str =>
      cases hs
      obtain ⟨he, hw⟩ := storeLabel_events h str
      exact ⟨he, hw, fun hv => (hopens hv).elim⟩
    | setting str =>
      obtain ⟨he, hw, ho⟩ := storeSetting_events h hs
      exact ⟨he, hw, fun _ => ho⟩
    | value str =>
      obtain ⟨he, hw, ho⟩ := storeValue_events h (hopen (hvalue trivial)) hs
      exact ⟨he, hw, fun _ => ho⟩

theorem run_events {x : ConfState} {rest : Text} (h : t.Written) (hopen : x.Valued → t.Open)
    (hs : (confScan.run x rest).2.foldlM PTree.store t = some t') :
    t'.events = t.events ++ (confScan.run x rest).2 ∧ t'.Written := by
  induction rest generalizing x t with
  | nil =>
    cases hs
    exact ⟨(List.append_nil _).symm, h⟩
  | cons c rest ih =>
    rw [Transducer.run_cons] at hs ⊢
    dsimp only at hs ⊢
    rw [List.foldlM_append] at hs
    obtain ⟨t1, h1, hs⟩ := Option.bind_eq_some_iff.mp hs
    obtain ⟨he, hw, ho⟩ := turn_events h hopen h1
    obtain ⟨he', hw'⟩ := ih hw ho hs
    refine ⟨?_, hw'⟩
    rw [he', he, List.append_assoc]
    rfl

theorem store_comments_label (comments : List Text) (labels : List PLabel) (l : PLabel) (cs more : List Text)
    (hl : l.settings = []) (hcs : l.comments = some cs) :
    (more.map ConfEvent.comment).foldlM PTree.store ⟨labels ++ [l], comments⟩ =
      some ⟨labels ++ [{ l with comments := some (cs ++ more) }], comments⟩ := by
  induction more generalizing l cs with
  | nil => 
    rw [List.append_nil, ← hcs]
    rfl
  | cons c more ih =>
    rw [List.map_cons, List.foldlM_cons]
    show (some (PTree.storeComment ⟨labels ++ [l], comments⟩ c)).bind _ = _
    rw [Option.bind_some, storeComment_label comments labels l c hl, hcs, Option.map_some]
    have hnext := ih { l with comments := some (cs ++ [c]) } (cs ++ [c]) hl rfl
    dsimp only at hnext ⊢
    rw [hnext]
    simp

theorem store_comments_setting (comments : List Text) (labels : List PLabel) (l : PLabel) (settings : List PSetting)
    (s : PSetting) (cs more : List Text) (hcs : s.comments = some cs) :
    (more.map ConfEvent.comment).foldlM PTree.store ⟨labels ++ [{ l with settings := settings ++ [s] }], comments⟩ =
      some ⟨labels ++ [{ l with settings := settings ++ [{ s with comments := some (cs ++ more) }] }], comments⟩ := by
  induction more generalizing s cs with
  | nil =>
    rw [List.append_nil, ← hcs]
    rfl
  | cons c more ih =>
    rw [List.map_cons, List.foldlM_cons]
    show (some (PTree.storeComment ⟨labels ++ [{ l with settings := settings ++ [s] }], comments⟩ c)).bind _ = _
    rw [Option.bind_some, storeComment_setting comments labels _ settings s c rfl, hcs, Option.map_some]
    have hnext := ih { s with comments := some (cs ++ [c]) } (cs ++ [c]) rfl
    dsimp only at hnext ⊢
    rw [hnext]
    simp

theorem store_values (comments : List Text) (labels : List PLabel) (l : PLabel) (settings : List PSetting)
    (s : PSetting) (more : List Text) :
    (more.map ConfEvent.value).foldlM PTree.store ⟨labels ++ [{ l with settings := settings ++ [s] }], comments⟩ =
      some ⟨labels ++ [{ l with settings := settings ++ [{ s with values := s.values ++ more }] }], comments⟩ := by
  induction more generalizing s with
  | nil => 
    rw [List.append_nil]
    rfl
  | cons v more ih =>
    rw [List.map_cons, List.foldlM_cons]
    show (PTree.storeValue ⟨labels ++ [{ l with settings := settings ++ [s] }], comments⟩ v).bind _ = _
    rw [storeValue_concat comments labels _ settings s v rfl, Option.bind_some]
    have hnext := ih { s with values := s.values ++ [v] }
    dsimp only at hnext ⊢
    rw [hnext, List.append_assoc]
    rfl

theorem store_settings (comments : List Text) (labels : List PLabel) (l : PLabel) (more : List PSetting)
    (hmore : ∀ s ∈ more, s.comments.isSome) :
    (more.flatMap PSetting.events).foldlM PTree.store ⟨labels ++ [l], comments⟩ =
      some ⟨labels ++ [{ l with settings := l.settings ++ more }], comments⟩ := by
  induction more generalizing l with
  | nil =>
    rw [List.append_nil]
    rfl
  | cons s more ih =>
    obtain ⟨cs, hcs⟩ := Option.isSome_iff_exists.mp (hmore s List.mem_cons_self)
    have hnext := ih { l with settings := l.settings ++ [s] } fun x hx => hmore x (List.mem_cons_of_mem _ hx)
    rw [List.flatMap_cons, PSetting.events, List.cons_append, List.cons_append, List.foldlM_cons]
    show (PTree.storeSetting ⟨labels ++ [l], comments⟩ s.str).bind _ = _
    rw [storeSetting_concat, Option.bind_some, List.append_assoc, List.foldlM_append, store_values, hcs]
    show (List.foldlM _ _ _) = _
    rw [List.foldlM_append, store_comments_setting comments labels l l.settings _ [] _ rfl]
    have hs : s = ⟨s.str, s.values, some cs⟩ := by rw [← hcs]
    show List.foldlM PTree.store (⟨labels ++ [{ l with settings := l.settings ++ [⟨s.str, s.values, some cs⟩] }], comments⟩ : PTree) _ = _
    rw [← hs, hnext, List.append_assoc]
    rfl

theorem store_labels (comments : List Text) (labels more : List PLabel) (hmore : ∀ l ∈ more, l.Written) :
    (more.flatMap PLabel.events).foldlM PTree.store ⟨labels, comments⟩ = some ⟨labels ++ more, comments⟩ := by
  induction more generalizing labels with
  | nil =>
    rw [List.append_nil]
    rfl
  | cons l more ih =>
    obtain ⟨hcomments, hsettings⟩ := hmore l List.mem_cons_self
    obtain ⟨cs, hcs⟩ := Option.isSome_iff_exists.mp hcomments
    rw [List.flatMap_cons, PLabel.events, List.cons_append, List.cons_append, List.foldlM_cons, hcs]
    show List.foldlM PTree.store (⟨labels ++ [⟨l.str, [], some []⟩], comments⟩ : PTree) _ = _
    rw [List.append_assoc, List.foldlM_append, Option.getD_some, store_comments_label comments labels _ [] cs rfl rfl]
    show List.foldlM _ _ _ = _
    rw [List.foldlM_append, store_settings comments labels _ l.settings hsettings]
    show List.foldlM PTree.store (⟨labels ++ [⟨l.str, l.settings, some cs⟩], comments⟩ : PTree) _ = _
    have hl : l = ⟨l.str, l.settings, some cs⟩ := by rw [← hcs]
    rw [← hl, ih _ fun x hx => hmore x (List.mem_cons_of_mem _ hx), List.append_assoc]
    rfl

theorem store_global (cs more : List Text) :
    (more.map ConfEvent.comment).foldlM PTree.store ⟨[], cs⟩ = some ⟨[], cs ++ more⟩ := by
  induction more generalizing cs with
  | nil =>
    rw [List.append_nil]
    rfl
  | cons c more ih =>
    rw [List.map_cons, List.foldlM_cons]
    show List.foldlM PTree.store (⟨[], cs ++ [c]⟩ : PTree) _ = _
    rw [ih, List.append_assoc]
    rfl

/-- A tree is what is stored in the order of its events. -/
theorem store_events (h : t.Written) : t.events.foldlM PTree.store noTree = some t := by
  rw [PTree.events, List.foldlM_append, noTree, store_global]
  show List.foldlM PTree.store (⟨[], t.comments⟩ : PTree) _ = _
  rw [store_labels _ _ _ h]
  rfl

/-- A file is loaded as a tree when what is stored of it is what the tree holds. -/
theorem startParser_iff {buf : Text} (hbuf : buf ≠ []) :
    startParser buf = .ok t ↔ t.Written ∧ confEvents buf = t.events := by
  rw [startParser_scan hbuf]
  constructor
  · intro ht
    cases hs : (confEvents buf).foldlM PTree.store noTree with
    | none =>
      rw [hs] at ht
      cases ht
    | some t' =>
      rw [hs] at ht
      cases ht
      have hnone : noTree.Written := fun _ hl => absurd hl List.not_mem_nil
      obtain ⟨he, hw⟩ := @run_events _ _ lineStart buf hnone (by simp [lineStart, ConfState.Valued]) hs
      exact ⟨hw, he.symm⟩
  · rintro ⟨hw, he⟩
    rw [he, store_events hw]
    rfl

end

end Katcp
