import Katcp.TagSearch

namespace Katcp

namespace TagSearch

variable {count : Nat} {s s' : TagSearch} {c : TagArray} {after : List TagArray} {known : List ObjectTag}

def total (cs : List TagArray) : Nat := (cs.map fun c => c.rest.length).sum

theorem Visit.total_le (h : Visit count s c after s') :
    total s'.columns ≤ total (s.before ++ c :: after) := by
  cases h with
  | exhausted | set | counted | waits =>
    have hsame : (s.past c after).columns = s.before ++ c :: after := columns_past
    exact Nat.le_of_eq (congrArg total hsame)
  | @passed _ _ more hrest =>
    show total (s.past { c with rest := more } after).columns ≤ _
    rw [columns_gone]
    simp [total, hrest]
  | @reported _ more hrest =>
    show total (s.past { c with rest := more } after).columns ≤ _
    rw [columns_gone]
    simp [total, hrest]

theorem reach_total (h : Reach count s s') : total s'.columns ≤ total s.columns := by
  induction h with
  | refl => exact Nat.le_refl _
  | tail _ hs ih =>
    refine Nat.le_trans ?_ ih
    rcases step_cases hs with ⟨hafter, _, rfl⟩ | ⟨c, after, hafter, hv⟩
    · simp [columns, hafter]
    · rw [columns_of_after hafter]
      exact hv.total_le

theorem reach_length (h : Reach count s s') : s'.columns.length = s.columns.length := by
  induction h with
  | refl => rfl
  | tail _ hs ih => exact (step_goes hs).length.trans ih

theorem reach_stopped (h : Reach count s s') (hr : s.run = false) : s'.run = false := by
  induction h with
  | refl => exact hr
  | tail _ hs ih =>
    rcases step_cases hs with ⟨_, hrun, _⟩ | ⟨c, after, _, hv⟩
    · rw [ih] at hrun
      cases hrun
    · cases hv with
      | exhausted => rfl
      | set | counted | passed | reported | waits => exact ih

/-- The arrays `cs` have been visited, and none of them has gone on. -/
structure Quiet (count : Nat) (s s' : TagSearch) (cs : List TagArray) : Prop where
  heads : ∀ c ∈ cs, ∃ x more m, c.rest = x :: more ∧ s'.min = some m ∧ x ≤ m
  grows : ∀ m, s.min = some m → ∃ m', s'.min = some m' ∧
    ((m < m' ∧ ∃ c ∈ cs, ∃ more, c.rest = m' :: more) ∨
      (m' = m ∧ (∀ c ∈ cs, s.t = some c.tag → s.seen < count) ∧
        s'.seen = s.seen + cs.countP fun c => decide (s.t ≠ some c.tag)))

theorem Quiet.nil (h : s'.min = s.min) (hseen : s'.seen = s.seen) : Quiet count s s' [] := by
  refine ⟨fun _ hc => absurd hc List.not_mem_nil, fun m hm => ⟨m, h.trans hm, .inr ⟨rfl, ?_, hseen⟩⟩⟩
  exact fun _ hc => absurd hc List.not_mem_nil

variable {s1 : TagSearch} {cs : List TagArray} {x : Nat} {more : List Nat}

theorem Quiet.least (h : Quiet count s1 s' cs) (hmin : s1.min = some x) : ∃ m, s'.min = some m ∧ x ≤ m := by
  obtain ⟨m, hm, hcase⟩ := h.grows x hmin
  rcases hcase with ⟨hlt, _⟩ | ⟨rfl, _⟩
  · exact ⟨m, hm, Nat.le_of_lt hlt⟩
  · exact ⟨m, hm, Nat.le_refl m⟩

theorem Quiet.cons_heads (h : Quiet count s1 s' cs) (hrest : c.rest = x :: more) (hmin : s1.min = some x) :
    ∀ d ∈ c :: cs, ∃ x more m, d.rest = x :: more ∧ s'.min = some m ∧ x ≤ m := by
  intro d hd
  rcases List.mem_cons.mp hd with rfl | hd
  · obtain ⟨m, hm, hle⟩ := h.least hmin
    exact ⟨x, more, m, hrest, hm, hle⟩
  · exact h.heads d hd

theorem Quiet.set (h : Quiet count s1 s' cs) (hrest : c.rest = x :: more) (hlt : ∀ m, s.min = some m → m < x)
    (hmin : s1.min = some x) : Quiet count s s' (c :: cs) := by
  refine ⟨h.cons_heads hrest hmin, fun m hm => ?_⟩
  have hmx := hlt m hm
  obtain ⟨m', hm', hcase⟩ := h.grows x hmin
  rcases hcase with ⟨hx, d, hd, hhead⟩ | ⟨rfl, _⟩
  · exact ⟨m', hm', .inl ⟨Nat.lt_trans hmx hx, d, List.mem_cons_of_mem _ hd, hhead⟩⟩
  · exact ⟨m', hm', .inl ⟨hmx, c, List.mem_cons_self, more, hrest⟩⟩

theorem Quiet.counted (h : Quiet count s1 s' cs) (hrest : c.rest = x :: more) (hmin : s.min = some x)
    (ht : s.t ≠ some c.tag) (hmin1 : s1.min = some x) (ht1 : s1.t = s.t) (hseen : s1.seen = s.seen + 1) :
    Quiet count s s' (c :: cs) := by
  refine ⟨h.cons_heads hrest hmin1, fun m hm => ?_⟩
  obtain rfl : x = m := Option.some.inj (hmin.symm.trans hm)
  obtain ⟨m', hm', hcase⟩ := h.grows x hmin1
  rcases hcase with ⟨hx, d, hd, hhead⟩ | ⟨rfl, hwait, hcount⟩
  · exact ⟨m', hm', .inl ⟨hx, d, List.mem_cons_of_mem _ hd, hhead⟩⟩
  · refine ⟨m', hm', .inr ⟨rfl, fun d hd htd => ?_, ?_⟩⟩
    · rcases List.mem_cons.mp hd with rfl | hd
      · exact absurd htd ht
      · have hlt := hwait d hd (ht1.trans htd)
        omega
    · rw [hcount, ht1, hseen, List.countP_cons_of_pos (by simpa using ht)]
      omega

theorem Quiet.waits (h : Quiet count s1 s' cs) (hrest : c.rest = x :: more) (hmin : s.min = some x)
    (ht : s.t = some c.tag) (hfew : s.seen < count) (hmin1 : s1.min = some x) (ht1 : s1.t = s.t)
    (hseen : s1.seen = s.seen) : Quiet count s s' (c :: cs) := by
  refine ⟨h.cons_heads hrest hmin1, fun m hm => ?_⟩
  obtain rfl : x = m := Option.some.inj (hmin.symm.trans hm)
  obtain ⟨m', hm', hcase⟩ := h.grows x hmin1
  rcases hcase with ⟨hx, d, hd, hhead⟩ | ⟨rfl, hwait, hcount⟩
  · exact ⟨m', hm', .inl ⟨hx, d, List.mem_cons_of_mem _ hd, hhead⟩⟩
  · refine ⟨m', hm', .inr ⟨rfl, fun d hd htd => ?_, ?_⟩⟩
    · rcases List.mem_cons.mp hd with rfl | hd
      · exact hfew
      · exact hseen ▸ hwait d hd (ht1.trans htd)
    · rw [hcount, ht1, hseen, List.countP_cons_of_neg (by simpa using ht)]

theorem Visit.behind (h : Visit count s c cs s') : s'.after = cs := by cases h <;> rfl

/-- A pass of the inner loop finds the end of an array, or a cursor goes on, or only the candidate gets on. -/
theorem pass (count : Nat) (s : TagSearch) : ∃ s', Reach count s s' ∧ s'.after = [] ∧
    (s'.run = false ∨ total s'.columns < total s.columns ∨ s'.columns = s.columns ∧ Quiet count s s' s.after) := by
  generalize hcs : s.after = cs
  induction cs generalizing s with
  | nil => exact ⟨s, .refl, hcs, .inr (.inr ⟨rfl, .nil rfl rfl⟩)⟩
  | cons c cs ih =>
    obtain ⟨s1, hs1⟩ : ∃ s1, s.visit count c cs = s1 := ⟨_, rfl⟩
    have hv : Visit count s c cs s1 := hs1 ▸ visit_spec
    have hstep : s.step count = some s1 := by rw [TagSearch.step, hcs, ← hs1]
    have hcolumns := columns_of_after hcs
    have hle := hv.total_le
    rw [← hcolumns] at hle
    obtain ⟨s2, hr, hend, hcase⟩ := ih s1 hv.behind
    have hreach : Reach count s s2 := Relation.ReflTransGen.head hstep hr
    have htotal := reach_total hr
    refine ⟨s2, hreach, hend, ?_⟩
    rcases hcase with hrun | hfall | ⟨hsame, hq⟩
    · exact .inl hrun
    · exact .inr (.inl (Nat.lt_of_lt_of_le hfall hle))
    · have hstay : (s.past c cs).columns = s.columns := columns_past.trans hcolumns.symm
      cases hv with
      | exhausted => exact .inl (reach_stopped hr rfl)
      | set hrest hlt => exact .inr (.inr ⟨hsame.trans hstay, hq.set hrest hlt rfl⟩)
      | counted hrest hmin ht => exact .inr (.inr ⟨hsame.trans hstay, hq.counted hrest hmin ht hmin rfl rfl⟩)
      | waits hrest hmin ht hfew => exact .inr (.inr ⟨hsame.trans hstay, hq.waits hrest hmin ht hfew hmin rfl rfl⟩)
      | @passed _ _ more hrest =>
        refine .inr (.inl (Nat.lt_of_le_of_lt htotal ?_))
        show total (s.past { c with rest := more } cs).columns < _
        rw [columns_gone, hcolumns]
        simp [total, hrest]
      | @reported _ more hrest =>
        refine .inr (.inl (Nat.lt_of_le_of_lt htotal ?_))
        show total (s.past { c with rest := more } cs).columns < _
        rw [columns_gone, hcolumns]
        simp [total, hrest]

/-- How many arrays are ahead of the candidate. -/
def ahead (s : TagSearch) : Nat :=
  match s.min with
  | none => s.columns.length + 1
  | some m => s.columns.countP fun c => c.rest.head?.any (m < ·)

theorem ahead_none (h : s.min = none) : s.ahead = s.columns.length + 1 := by rw [ahead, h]

theorem ahead_some (h : s.min = some x) : s.ahead = s.columns.countP fun c => c.rest.head?.any (x < ·) := by
  rw [ahead, h]

theorem ahead_le (s : TagSearch) : s.ahead ≤ s.columns.length + 1 := by
  cases h : s.min with
  | none => exact Nat.le_of_eq (ahead_none h)
  | some m =>
    rw [ahead_some h]
    exact Nat.le_succ_of_le List.countP_le_length

/-- What of a search falls with every pass. -/
def measure (count : Nat) (s : TagSearch) : Nat :=
  (total s.columns * (s.columns.length + 2) + s.ahead) * (count + 1) + (count - s.seen)

/-- Not all the arrays are those of one tag, unless there is but one, or one of them is at its end. -/
def Lively (count : Nat) (s : TagSearch) : Prop :=
  (∃ c ∈ s.columns, ∃ d ∈ s.columns, c.tag ≠ d.tag) ∨ (count = 1 ∧ s.columns ≠ []) ∨ ∃ c ∈ s.columns, c.rest = []

theorem Lively.goes (h : Lively count s) (hgo : Goes s.columns s'.columns) : Lively count s' := by
  rcases h with ⟨c, hc, d, hd, hne⟩ | ⟨hcount, hsome⟩ | ⟨c, hc, hnil⟩
  · obtain ⟨c', hc', htag, _⟩ := hgo.forth c hc
    obtain ⟨d', hd', htag', _⟩ := hgo.forth d hd
    exact .inl ⟨c', hc', d', hd', by rwa [htag, htag']⟩
  · obtain ⟨c, hc⟩ := List.exists_mem_of_ne_nil _ hsome
    obtain ⟨c', hc', _⟩ := hgo.forth c hc
    exact .inr (.inl ⟨hcount, List.ne_nil_of_mem hc'⟩)
  · obtain ⟨c', hc', _, hsuffix⟩ := hgo.forth c hc
    exact .inr (.inr ⟨c', hc', List.suffix_nil.mp (hnil ▸ hsuffix)⟩)

theorem Lively.reach (h : Lively count s) (hr : Reach count s s') : Lively count s' := by
  induction hr with
  | refl => exact h
  | tail _ hs ih => exact ih.goes (step_goes hs)

theorem Kept.reach (h : Kept known s) (hr : Reach count s s') : Kept known s' := by
  induction hr with
  | refl => exact h
  | tail _ hs ih => exact ih.step hs

theorem countP_lt_of_mem {p q : TagArray → Bool} (h : ∀ c ∈ cs, q c = true → p c = true) (hc : c ∈ cs)
    (hp : p c = true) (hq : q c = false) : cs.countP q < cs.countP p := by
  obtain ⟨pre, post, rfl⟩ := List.append_of_mem hc
  have hpre := List.countP_mono_left fun d hd => h d (List.mem_append_left _ hd)
  have hpost := List.countP_mono_left fun d hd => h d (List.mem_append_right pre (List.mem_cons_of_mem _ hd))
  rw [List.countP_append, List.countP_append, List.countP_cons_of_pos hp, List.countP_cons_of_neg (by simp [hq])]
  omega

/-- A pass in which no cursor goes on leaves fewer arrays ahead, or sees one more. -/
theorem Quiet.falls (hq : Quiet count s s' s.columns) (hk : Kept known s) (hl : Lively count s)
    (hsame : s'.columns = s.columns) :
    s'.ahead < s.ahead ∨ s'.ahead = s.ahead ∧ count - s'.seen < count - s.seen := by
  have hfull : ∀ c ∈ s.columns, c.rest ≠ [] := by
    intro c hc hnil
    obtain ⟨_, _, _, hrest, _⟩ := hq.heads c hc
    rw [hnil] at hrest
    cases hrest
  have hl : (∃ c ∈ s.columns, ∃ d ∈ s.columns, c.tag ≠ d.tag) ∨ count = 1 ∧ s.columns ≠ [] := by
    rcases hl with htwo | hone | ⟨c, hc, hnil⟩
    · exact .inl htwo
    · exact .inr hone
    · exact absurd hnil (hfull c hc)
  cases hmin : s.min with
  | none =>
    have hsome : ∃ c, c ∈ s.columns := by
      rcases hl with ⟨c, hc, _⟩ | ⟨_, hne⟩
      · exact ⟨c, hc⟩
      · exact List.exists_mem_of_ne_nil _ hne
    obtain ⟨c, hc⟩ := hsome
    obtain ⟨_, _, m, _, hm, _⟩ := hq.heads c hc
    refine .inl ?_
    rw [ahead_none hmin, ahead_some hm, hsame]
    exact Nat.lt_succ_of_le List.countP_le_length
  | some m =>
    obtain ⟨m', hm', hcase⟩ := hq.grows m hmin
    rcases hcase with ⟨hlt, c, hc, rest, hhead⟩ | ⟨rfl, hwait, hseen⟩
    · refine .inl ?_
      rw [ahead_some hmin, ahead_some hm', hsame]
      refine countP_lt_of_mem (fun d _ hd => ?_) hc ?_ ?_
      · cases hy : d.rest.head? with
        | none =>
          rw [hy] at hd
          cases hd
        | some y =>
          simp only [hy, Option.any_some, decide_eq_true_eq] at hd ⊢
          exact Nat.lt_trans hlt hd
      · simp [hhead, hlt]
      · simp [hhead]
    · refine .inr ⟨?_, ?_⟩
      · rw [ahead_some hmin, ahead_some hm', hsame]
      · obtain ⟨hone, c, hc, ht, _⟩ := hk.setter m' hmin
        have hfew := hwait c hc ht
        rcases hl with ⟨d, hd, e, he, hne⟩ | ⟨hcount, _⟩
        · have hother : 0 < s.columns.countP fun c => decide (s.t ≠ some c.tag) := by
            rw [List.countP_pos_iff]
            by_cases hd' : s.t = some d.tag
            · refine ⟨e, he, ?_⟩
              simp only [hd', ne_eq, Option.some.injEq, decide_not, Bool.not_eq_true', decide_eq_false_iff_not]
              exact hne
            · exact ⟨d, hd, by simpa using hd'⟩
          omega
        · omega

theorem measure_lt_of_total (h : total s'.columns < total s.columns)
    (hlength : s'.columns.length = s.columns.length) : measure count s' < measure count s := by
  have hahead := s'.ahead_le
  unfold measure
  rw [hlength] at hahead ⊢
  generalize s.columns.length = k at *
  generalize total s'.columns = a at *
  generalize total s.columns = b at *
  have hrow : a * (k + 2) + s'.ahead + 1 ≤ b * (k + 2) := by
    calc a * (k + 2) + s'.ahead + 1 ≤ a * (k + 2) + (k + 2) := by omega
      _ = (a + 1) * (k + 2) := (Nat.succ_mul a (k + 2)).symm
      _ ≤ b * (k + 2) := Nat.mul_le_mul_right _ h
  calc (a * (k + 2) + s'.ahead) * (count + 1) + (count - s'.seen)
      < (a * (k + 2) + s'.ahead) * (count + 1) + (count + 1) := by omega
    _ = (a * (k + 2) + s'.ahead + 1) * (count + 1) := (Nat.succ_mul _ _).symm
    _ ≤ (b * (k + 2) + s.ahead) * (count + 1) := Nat.mul_le_mul_right _ (by omega)
    _ ≤ _ := Nat.le_add_right _ _

theorem measure_lt_of_falls (hsame : s'.columns = s.columns)
    (h : s'.ahead < s.ahead ∨ s'.ahead = s.ahead ∧ count - s'.seen < count - s.seen) :
    measure count s' < measure count s := by
  unfold measure
  rw [hsame]
  rcases h with hlt | ⟨heq, hlt⟩
  · calc (total s.columns * (s.columns.length + 2) + s'.ahead) * (count + 1) + (count - s'.seen)
        < (total s.columns * (s.columns.length + 2) + s'.ahead) * (count + 1) + (count + 1) := by omega
      _ = (total s.columns * (s.columns.length + 2) + s'.ahead + 1) * (count + 1) := (Nat.succ_mul _ _).symm
      _ ≤ (total s.columns * (s.columns.length + 2) + s.ahead) * (count + 1) := Nat.mul_le_mul_right _ (by omega)
      _ ≤ _ := Nat.le_add_right _ _
  · rw [heq]
    omega

theorem ends_of_lively (n : Nat) (hn : measure count s = n) (hbefore : s.before = []) (hk : Kept known s)
    (hl : Lively count s) : ∃ e, Reach count s e ∧ e.step count = none := by
  induction n using Nat.strong_induction_on generalizing s with
  | _ n ih =>
    obtain ⟨s1, hr, hend, hcase⟩ := pass count s
    cases hrun : s1.run with
    | false => exact ⟨s1, hr, by rw [TagSearch.step, hend, hrun]; rfl⟩
    | true =>
      obtain ⟨s2, hs2⟩ : ∃ s2 : TagSearch, s2 = { s1 with before := [], after := s1.before } := ⟨_, rfl⟩
      have hstep : s1.step count = some s2 := by
        rw [TagSearch.step, hend, hs2]
        exact if_pos hrun
      have hsame : s2.columns = s1.columns := by
        rw [hs2, columns, columns, hend, List.append_nil]
        rfl
      have hwhole : measure count s2 = measure count s1 := by
        unfold measure ahead
        rw [hsame, hs2]
      have hcolumns : s.columns = s.after := by rw [columns, hbefore, List.nil_append]
      have hlength := reach_length hr
      have hlt : measure count s2 < n := by
        rw [hwhole, ← hn]
        rcases hcase with hstop | hfall | ⟨hkept, hq⟩
        · rw [hrun] at hstop
          cases hstop
        · exact measure_lt_of_total hfall hlength
        · exact measure_lt_of_falls hkept ((hcolumns ▸ hq).falls hk hl hkept)
      have hto : Reach count s s2 := hr.tail hstep
      obtain ⟨e, he, hdone⟩ := ih _ hlt rfl (by rw [hs2]) (hk.reach hto) (hl.reach hto)
      exact ⟨e, hto.trans he, hdone⟩

/-- One tag with objects that is named more than once is visited for ever. -/
theorem idle_of_reach {t : ObjectTag} (hcount : 2 ≤ count) (hroot : t.tRoot = x :: more)
    (hall : ∀ t' ∈ known, t' = t) (h : Reach count (.start known) s) :
    s.run = true ∧ s.seen ≤ 1 ∧ (∀ c ∈ s.columns, c = ⟨t.tName, t.tRoot⟩) ∧
      (s.min = none ∨ s.min = some x ∧ s.t = some t.tName) := by
  induction h with
  | refl =>
    refine ⟨rfl, Nat.zero_le 1, fun c hc => ?_, .inl rfl⟩
    obtain ⟨t', ht', rfl⟩ := List.mem_map.mp (show c ∈ known.map fun t => ⟨t.tName, t.tRoot⟩ from hc)
    rw [hall t' ht']
  | @tail s s' _ hs ih =>
    obtain ⟨hrun, hseen, hcs, hmin⟩ := ih
    rcases step_cases hs with ⟨hafter, _, rfl⟩ | ⟨c, after, hafter, hv⟩
    · have hsame : s.columns = s.before := by rw [columns, hafter, List.append_nil]
      exact ⟨hrun, hseen, hsame ▸ hcs, hmin⟩
    · have hcolumns := columns_of_after hafter
      have hstay : (s.past c after).columns = s.columns := columns_past.trans hcolumns.symm
      have hc : c = ⟨t.tName, t.tRoot⟩ := hcs c (hcolumns ▸ List.mem_append_right _ List.mem_cons_self)
      have hhead : c.rest = x :: more := by rw [hc, hroot]
      have htag : c.tag = t.tName := by rw [hc]
      cases hv with
      | exhausted hrest =>
        rw [hhead] at hrest
        cases hrest
      | set hrest =>
        cases hhead.symm.trans hrest
        exact ⟨hrun, Nat.le_refl 1, hstay ▸ hcs, .inr ⟨rfl, congrArg some htag⟩⟩
      | counted hrest hm ht =>
        rcases hmin with hnone | ⟨_, ht'⟩
        · rw [hnone] at hm
          cases hm
        · exact absurd (ht'.trans (congrArg some htag.symm)) ht
      | passed hrest hm hlt =>
        cases hhead.symm.trans hrest
        rcases hmin with hnone | ⟨hsome, _⟩
        · rw [hnone] at hm
          cases hm
        · cases hsome.symm.trans hm
          exact absurd hlt (Nat.lt_irrefl _)
      | reported _ _ _ hfew => omega
      | waits => exact ⟨hrun, hseen, hstay ▸ hcs, hmin⟩

theorem not_repeated_of_exact (h : Exact known) : ¬ Repeated known := by
  rintro ⟨hcount, t, hroot, hall⟩
  obtain ⟨x, more, hroot⟩ := List.exists_cons_of_ne_nil hroot
  obtain ⟨e, hr, hend, _⟩ := h
  obtain ⟨hrun, _⟩ := idle_of_reach hcount hroot hall hr
  unfold TagSearch.step at hend
  split at hend
  next => cases hend
  next =>
    rw [if_pos hrun] at hend
    cases hend

theorem lively_start (hne : known ≠ []) (hnamed : ∀ t ∈ known, ∀ t' ∈ known, t.tName = t'.tName → t = t')
    (h : ¬ Repeated known) : Lively known.length (start known) := by
  have hcolumns : (start known).columns = known.map fun t => ⟨t.tName, t.tRoot⟩ := rfl
  obtain ⟨t, ht⟩ := List.exists_mem_of_ne_nil _ hne
  by_cases hall : ∀ t' ∈ known, t' = t
  · by_cases hroot : t.tRoot = []
    · exact .inr (.inr ⟨_, hcolumns ▸ List.mem_map_of_mem ht, hroot⟩)
    · have hone : ¬ 2 ≤ known.length := fun htwo => h ⟨htwo, t, hroot, hall⟩
      have hpos := List.length_pos_of_mem ht
      refine .inr (.inl ⟨by omega, ?_⟩)
      rw [hcolumns]
      simpa using hne
  · simp only [not_forall] at hall
    obtain ⟨t', ht', hdiff⟩ := hall
    refine .inl ⟨_, hcolumns ▸ List.mem_map_of_mem ht', _, hcolumns ▸ List.mem_map_of_mem ht, fun he => ?_⟩
    exact hdiff (hnamed t' ht' t ht he)

theorem exact_of_neverEarly (hne : known ≠ []) (hnamed : ∀ t ∈ known, ∀ t' ∈ known, t.tName = t'.tName → t = t')
    (h : ¬ Repeated known) (hnever : NeverEarly known) : Exact known := by
  obtain ⟨e, hr, hend⟩ := ends_of_lively _ rfl rfl (Kept.start known) (lively_start hne hnamed h)
  obtain ⟨hnodup, honly⟩ := reported_of_neverEarly hnever hr
  have hk : Kept known e := kept_of_reach hr
  refine ⟨e, hr, hend, hnodup, fun x => ⟨honly x, fun hx => ?_⟩⟩
  refine (hk.complete x hx).resolve_right fun hall => ?_
  have hstop : e.run = false := by
    unfold TagSearch.step at hend
    split at hend
    next => cases hend
    next =>
      cases hrun : e.run with
      | false => rfl
      | true =>
        rw [if_pos hrun] at hend
        cases hend
  obtain ⟨c, hc, hnil⟩ := hk.ends hstop
  have hmem := hall c hc
  rw [hnil] at hmem
  cases hmem

end TagSearch

open TagSearch

variable {store : TagStore} {args : List (Option Text)} {s : TagSearch}

theorem TagStore.known_named {t t' : ObjectTag} (ht : t ∈ store.known args) (ht' : t' ∈ store.known args)
    (h : t.tName = t'.tName) : t = t' := by
  have hstored : ∀ u ∈ store.known args, u ∈ store.tags := by
    intro u hu
    obtain ⟨arg, _, hu⟩ := List.mem_filterMap.mp hu
    obtain ⟨key, _, hu⟩ := Option.bind_eq_some_iff.mp hu
    exact List.mem_of_find?_eq_some hu
  exact List.inj_on_of_nodup_map store.named (hstored t ht) (hstored t' ht') h

namespace TagSearch

variable {count : Nat} {s s' : TagSearch} {known : List ObjectTag}

theorem eq_of_single {cs : List TagArray} {c d : TagArray} (h : cs.length ≤ 1) (hc : c ∈ cs) (hd : d ∈ cs) :
    c = d := by
  rcases cs with _ | ⟨a, _ | ⟨b, cs⟩⟩
  · cases hc
  · rw [List.mem_singleton.mp hc, List.mem_singleton.mp hd]
  · simp at h

theorem eq_or_eq_of_short {cs : List TagArray} {c d e : TagArray} (h : cs.length ≤ 2) (hc : c ∈ cs) (he : e ∈ cs)
    (hne : c ≠ e) (hd : d ∈ cs) : d = c ∨ d = e := by
  rcases cs with _ | ⟨a, _ | ⟨b, _ | ⟨b', cs⟩⟩⟩
  · cases hc
  · exact absurd ((List.mem_singleton.mp hc).trans (List.mem_singleton.mp he).symm) hne
  · simp only [List.mem_cons, List.not_mem_nil, or_false] at hc he hd
    grind
  · simp at h

/-- Of two arrays both are at the candidate when two have been seen. -/
theorem heads_of_seen (hk : Kept known s) (hs : s.step count = some s') (hfew : s.columns.length ≤ 2)
    (h : ∀ x, s.min = some x → 2 ≤ s.seen → ∀ c ∈ s.columns, ∃ more, c.rest = x :: more) :
    ∀ x, s'.min = some x → 2 ≤ s'.seen → ∀ c ∈ s'.columns, ∃ more, c.rest = x :: more := by
  rcases step_cases hs with ⟨hafter, _, rfl⟩ | ⟨c, after, hafter, hv⟩
  · have hsame : s.columns = s.before := by rw [columns, hafter, List.append_nil]
    exact hsame ▸ h
  · have hcolumns := columns_of_after hafter
    have hstay : (s.past c after).columns = s.columns := columns_past.trans hcolumns.symm
    have hc : c ∈ s.columns := hcolumns ▸ List.mem_append_right _ List.mem_cons_self
    cases hv with
    | exhausted | waits => exact hstay ▸ h
    | set => exact fun x _ htwo => absurd htwo (Nat.not_succ_le_self 1)
    | @counted y more hrest hmin ht =>
      intro x hx _ d hd
      obtain rfl : y = x := Option.some.inj (hmin.symm.trans hx)
      obtain ⟨_, e, he, hte, hhead⟩ := hk.setter y hmin
      have hne : c ≠ e := by
        rintro rfl
        exact ht hte
      have hd : d ∈ s.columns := hstay ▸ hd
      have hwhich := eq_or_eq_of_short hfew hc he hne hd
      rcases hwhich with rfl | rfl
      · exact ⟨more, hrest⟩
      · exact hhead
    | @passed y m more hrest hmin hlt =>
      intro x hx htwo
      obtain ⟨rest, hhead⟩ := h m hmin htwo c hc
      rw [hrest] at hhead
      exact absurd (List.cons.inj hhead).1 (Nat.ne_of_lt hlt)
    | reported => exact fun x hx => by cases hx

/-- A search of one tag or of two reports nothing early. -/
theorem neverEarly_few (hfew : known.length ≤ 2) : NeverEarly known := by
  have hlength : (start known).columns.length = known.length := by simp [columns, start]
  have hheads : ∀ s, Reach known.length (start known) s →
      ∀ x, s.min = some x → 2 ≤ s.seen → ∀ c ∈ s.columns, ∃ more, c.rest = x :: more := by
    intro s hs
    induction hs with
    | refl => exact fun x hx => by cases hx
    | tail hr hstep ih =>
      have hshort := (reach_length hr).trans hlength
      exact heads_of_seen (kept_of_reach hr) hstep (hshort ▸ hfew) ih
  intro s x hs hdue c hc
  obtain ⟨hmin, hseen, _⟩ := hdue
  by_cases htwo : 2 ≤ known.length
  · obtain ⟨more, hrest⟩ := hheads s hs x hmin (Nat.le_trans htwo hseen) c hc
    exact hrest ▸ List.mem_cons_self
  · obtain ⟨_, d, hd, _, more, hrest⟩ := (kept_of_reach hs).setter x hmin
    have hone : s.columns.length ≤ 1 := by
      rw [reach_length hs, hlength]
      omega
    obtain rfl : c = d := eq_of_single hone hc hd
    exact hrest ▸ List.mem_cons_self

/-- The search after so many steps, or where it has ended. -/
def go (count : Nat) : Nat → TagSearch → TagSearch
  | 0, s => s
  | n + 1, s =>
    match s.step count with
    | some s' => go count n s'
    | none => s

theorem reach_go (n : Nat) (s : TagSearch) : Reach count s (go count n s) := by
  induction n generalizing s with
  | zero => exact .refl
  | succ n ih =>
    rw [go]
    split
    next s' hs => exact Relation.ReflTransGen.head hs (ih s')
    next => exact .refl

end TagSearch

/-- Three tags: two have the one object, the third has another. -/
def threeTags : TagStore where
  tags := [⟨textOf "a", [1], List.pairwise_singleton _ _⟩, ⟨textOf "b", [2], List.pairwise_singleton _ _⟩,
    ⟨textOf "c", [2], List.pairwise_singleton _ _⟩]
  named := by decide

end Katcp
