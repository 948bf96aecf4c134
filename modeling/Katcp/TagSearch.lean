import Katcp.DuplexData
import Mathlib.Logic.Relation
import Mathlib.Data.List.Nodup

namespace Katcp

/-- `tsearch` by the addresses: the tree with one more, unless it is there already. -/
def insertTobject (data : Nat) : List Nat → Option (List Nat)
  | [] => some [data]
  | x :: root =>
    if data < x then some (data :: x :: root)
    else if x < data then (insertTobject data root).map (x :: ·)
    else none

theorem insertTobject_spec {data : Nat} {root root' : List Nat} (h : insertTobject data root = some root') :
    (∀ x, x ∈ root' ↔ x = data ∨ x ∈ root) ∧ (root.Pairwise (· < ·) → root'.Pairwise (· < ·)) := by
  induction root generalizing root' with
  | nil =>
    cases h
    exact ⟨fun x => by simp, fun _ => List.pairwise_singleton _ _⟩
  | cons y root ih =>
    rw [insertTobject] at h
    split at h
    next hlt =>
      cases h
      refine ⟨fun x => List.mem_cons, fun hs => List.pairwise_cons.mpr ⟨fun x hx => ?_, hs⟩⟩
      rcases List.mem_cons.mp hx with rfl | hx
      · exact hlt
      · exact Nat.lt_trans hlt ((List.pairwise_cons.mp hs).1 x hx)
    next =>
      split at h
      next hlt =>
        obtain ⟨more, hmore, h⟩ := Option.map_eq_some_iff.mp h
        cases h
        obtain ⟨hmem, hsorted⟩ := ih hmore
        refine ⟨fun x => ?_, fun hs => ?_⟩
        · rw [List.mem_cons, List.mem_cons, hmem]
          exact or_left_comm
        · obtain ⟨hy, hs⟩ := List.pairwise_cons.mp hs
          refine List.pairwise_cons.mpr ⟨fun x hx => ?_, hsorted hs⟩
          rcases (hmem x).mp hx with rfl | hx
          · exact hlt
          · exact hy x hx
      next => cases h

/-- A tag: its name, and its tree of objects in the order of their addresses. -/
structure ObjectTag where
  tName : Text
  tRoot : List Nat
  ascending : tRoot.Pairwise (· < ·)

/-- `tag_tobject_katcp` -/
def ObjectTag.tagTobject (t : ObjectTag) (data : Nat) : Option ObjectTag :=
  match h : insertTobject data t.tRoot with
  | none => none
  | some root => some ⟨t.tName, root, (insertTobject_spec h).2 t.ascending⟩

theorem ObjectTag.mem_tagTobject {t t' : ObjectTag} {data x : Nat} (h : t.tagTobject data = some t') :
    x ∈ t'.tRoot ↔ x = data ∨ x ∈ t.tRoot := by
  unfold tagTobject at h
  split at h
  next => cases h
  next root hroot =>
    cases h
    exact (insertTobject_spec hroot).1 x

/-- The tags that are registered, by their names. -/
structure TagStore where
  tags : List ObjectTag
  named : (tags.map (·.tName)).Nodup

def TagStore.searchType (s : TagStore) (key : Text) : Option ObjectTag := s.tags.find? fun t => t.tName = key

/-- The tags of a request that are known. An empty argument is no name. -/
def TagStore.known (s : TagStore) (args : List (Option Text)) : List ObjectTag :=
  args.filterMap fun tag => tag.bind s.searchType

/-- An array of a search, from its cursor on, and the tag that it was collected from. -/
structure TagArray where
  tag : Text
  rest : List Nat
deriving DecidableEq, Repr

/-- A search: its variables, and its arrays in the order of their tags, those that the inner loop has been at and
those that it has not. -/
structure TagSearch where
  min : Option Nat
  t : Option Text
  seen : Nat
  run : Bool
  ans : List Nat
  before : List TagArray
  after : List TagArray
deriving DecidableEq, Repr

namespace TagSearch

/-- The inner loop goes on behind the array `c`. -/
def past (s : TagSearch) (c : TagArray) (after : List TagArray) : TagSearch :=
  { s with before := s.before ++ [c], after := after }

/-- What the inner loop does at the array `c`. -/
def visit (count : Nat) (s : TagSearch) (c : TagArray) (after : List TagArray) : TagSearch :=
  match c.rest with
  | [] => { s.past c after with run := false }
  | x :: more =>
    match s.min with
    | none => { s.past c after with t := some c.tag, min := some x, seen := 1 }
    | some m =>
      if m = x ∧ s.t ≠ some c.tag then { s.past c after with seen := s.seen + 1 }
      else if m < x then { s.past c after with t := some c.tag, min := some x, seen := 1 }
      else if x < m then s.past { c with rest := more } after
      else if s.t = some c.tag ∧ count ≤ s.seen then
        { s.past { c with rest := more } after with ans := s.ans ++ [m], min := none, seen := 0 }
      else s.past c after

/-- The inner loop goes on, or the outer one does. -/
def step (count : Nat) (s : TagSearch) : Option TagSearch :=
  match s.after with
  | c :: after => some (s.visit count c after)
  | [] => if s.run then some { s with before := [], after := s.before } else none

def start (known : List ObjectTag) : TagSearch where
  min := none
  t := none
  seen := 0
  run := true
  ans := []
  before := []
  after := known.map fun t => ⟨t.tName, t.tRoot⟩

def columns (s : TagSearch) : List TagArray := s.before ++ s.after

/-- The search leads from one state to another. -/
def Reach (count : Nat) : TagSearch → TagSearch → Prop :=
  Relation.ReflTransGen fun s s' => s.step count = some s'

/-- A search of these tags ends, and has reported the objects that carry all of them, each once. -/
def Exact (known : List ObjectTag) : Prop :=
  ∃ s, Reach known.length (start known) s ∧ s.step known.length = none ∧ s.ans.Nodup ∧
    ∀ x, x ∈ s.ans ↔ ∀ t ∈ known, x ∈ t.tRoot

/-- The array that the inner loop is at is that of the setter, and enough have been seen to report the candidate. -/
def Due (count : Nat) (s : TagSearch) (x : Nat) : Prop :=
  s.min = some x ∧ count ≤ s.seen ∧ ∃ c after more, s.after = c :: after ∧ c.rest = x :: more ∧ s.t = some c.tag

/-- Whenever a search reports an object, every array still has it at its cursor or behind. -/
def NeverEarly (known : List ObjectTag) : Prop :=
  ∀ s x, Reach known.length (start known) s → s.Due known.length x → ∀ c ∈ s.columns, x ∈ c.rest

/-- All the tags are one that has objects, named more than once. -/
def Repeated (known : List ObjectTag) : Prop :=
  2 ≤ known.length ∧ ∃ t, t.tRoot ≠ [] ∧ ∀ t' ∈ known, t' = t

end TagSearch

/-- `search_katcp`, until its arrays have been filled; it fails where no tag is known. -/
def TagStore.searchKatcp (s : TagStore) (args : List (Option Text)) : Option TagSearch :=
  if s.known args = [] then none else some (.start (s.known args))

namespace TagSearch

/-- What becomes of a search at an array, case by case. -/
inductive Visit (count : Nat) (s : TagSearch) (c : TagArray) (after : List TagArray) : TagSearch → Prop
  | exhausted : c.rest = [] → Visit count s c after { s.past c after with run := false }
  | set {x : Nat} {more : List Nat} : c.rest = x :: more → (∀ m, s.min = some m → m < x) →
      Visit count s c after { s.past c after with t := some c.tag, min := some x, seen := 1 }
  | counted {x : Nat} {more : List Nat} : c.rest = x :: more → s.min = some x → s.t ≠ some c.tag →
      Visit count s c after { s.past c after with seen := s.seen + 1 }
  | passed {x m : Nat} {more : List Nat} : c.rest = x :: more → s.min = some m → x < m →
      Visit count s c after (s.past { c with rest := more } after)
  | reported {x : Nat} {more : List Nat} : c.rest = x :: more → s.min = some x → s.t = some c.tag → count ≤ s.seen →
      Visit count s c after
        { s.past { c with rest := more } after with ans := s.ans ++ [x], min := none, seen := 0 }
  | waits {x : Nat} {more : List Nat} : c.rest = x :: more → s.min = some x → s.t = some c.tag → s.seen < count →
      Visit count s c after (s.past c after)

variable {count : Nat} {s s' : TagSearch} {c : TagArray} {after : List TagArray} {known : List ObjectTag}

theorem visit_spec : Visit count s c after (s.visit count c after) := by
  unfold visit
  split
  next hrest => exact .exhausted hrest
  next x more hrest =>
    split
    next hmin => exact .set hrest fun m hm => by rw [hmin] at hm; cases hm
    next m hmin =>
      split
      next h =>
        obtain ⟨rfl, ht⟩ := h
        exact .counted hrest hmin ht
      next hcounted =>
        split
        next hlt => exact .set hrest fun m' hm' => by rw [hmin] at hm'; cases hm'; exact hlt
        next hle =>
          split
          next hlt => exact .passed hrest hmin hlt
          next hge =>
            obtain rfl : m = x := by omega
            have ht : s.t = some c.tag := by simpa using hcounted
            split
            next h => exact .reported hrest hmin ht h.2
            next h => exact .waits hrest hmin ht (Nat.not_le.mp fun hle => h ⟨ht, hle⟩)

theorem step_cases (h : s.step count = some s') :
    (s.after = [] ∧ s.run = true ∧ s' = { s with before := [], after := s.before }) ∨
      ∃ c after, s.after = c :: after ∧ Visit count s c after s' := by
  unfold step at h
  split at h
  next c after hafter =>
    cases h
    exact .inr ⟨c, after, hafter, visit_spec⟩
  next hafter =>
    obtain ⟨hrun, h⟩ := Option.ite_none_right_eq_some.mp h
    cases h
    exact .inl ⟨hafter, hrun, rfl⟩

theorem columns_of_after (h : s.after = c :: after) : s.columns = s.before ++ c :: after := by rw [columns, h]

theorem columns_past : (s.past c after).columns = s.before ++ c :: after := by simp [columns, past]

theorem columns_gone (more : List Nat) :
    (s.past { c with rest := more } after).columns = s.before ++ { c with rest := more } :: after := columns_past

/-- The arrays of a search are the same ones, and go on with their cursors. -/
structure Goes (cs cs' : List TagArray) : Prop where
  forth : ∀ c ∈ cs, ∃ c' ∈ cs', c'.tag = c.tag ∧ c'.rest <:+ c.rest
  back : ∀ c' ∈ cs', ∃ c ∈ cs, c'.tag = c.tag ∧ c'.rest <:+ c.rest
  length : cs'.length = cs.length

theorem Goes.refl (cs : List TagArray) : Goes cs cs :=
  ⟨fun c hc => ⟨c, hc, rfl, List.suffix_rfl⟩, fun c hc => ⟨c, hc, rfl, List.suffix_rfl⟩, rfl⟩

theorem Goes.replace {cs post : List TagArray} {c' : TagArray} (htag : c'.tag = c.tag) (hrest : c'.rest <:+ c.rest) :
    Goes (cs ++ c :: post) (cs ++ c' :: post) := by
  refine ⟨fun d hd => ?_, fun d hd => ?_, by simp⟩
  · rcases List.mem_append.mp hd with hd | hd
    · exact ⟨d, List.mem_append_left _ hd, rfl, List.suffix_rfl⟩
    · rcases List.mem_cons.mp hd with rfl | hd
      · exact ⟨c', List.mem_append_right _ List.mem_cons_self, htag, hrest⟩
      · exact ⟨d, List.mem_append_right _ (List.mem_cons_of_mem _ hd), rfl, List.suffix_rfl⟩
  · rcases List.mem_append.mp hd with hd | hd
    · exact ⟨d, List.mem_append_left _ hd, rfl, List.suffix_rfl⟩
    · rcases List.mem_cons.mp hd with rfl | hd
      · exact ⟨c, List.mem_append_right _ List.mem_cons_self, htag, hrest⟩
      · exact ⟨d, List.mem_append_right _ (List.mem_cons_of_mem _ hd), rfl, List.suffix_rfl⟩

theorem Visit.goes (h : Visit count s c after s') : Goes (s.before ++ c :: after) s'.columns := by
  cases h with
  | exhausted | set | counted | waits =>
    have hsame : (s.past c after).columns = s.before ++ c :: after := columns_past
    exact hsame ▸ .refl _
  | @passed _ _ more hrest => exact columns_gone more ▸ .replace rfl (hrest ▸ List.suffix_cons ..)
  | @reported _ more hrest => exact columns_gone more ▸ .replace rfl (hrest ▸ List.suffix_cons ..)

theorem step_goes (h : s.step count = some s') : Goes s.columns s'.columns := by
  rcases step_cases h with ⟨hafter, _, rfl⟩ | ⟨c, after, hafter, hvisit⟩
  · have hsame : s.columns = s.before := by rw [columns, hafter, List.append_nil]
    rw [hsame]
    exact .refl _
  · rw [columns_of_after hafter]
    exact hvisit.goes

/-- What a search of these tags keeps. -/
structure Kept (known : List ObjectTag) (s : TagSearch) : Prop where
  ascending : ∀ c ∈ s.columns, c.rest.Pairwise (· < ·)
  within : ∀ x, (∀ c ∈ s.columns, x ∈ c.rest) → ∀ t ∈ known, x ∈ t.tRoot
  complete : ∀ x, (∀ t ∈ known, x ∈ t.tRoot) → x ∈ s.ans ∨ ∀ c ∈ s.columns, x ∈ c.rest
  lost : ∀ x ∈ s.ans, ∃ c ∈ s.columns, x ∉ c.rest
  setter : ∀ x, s.min = some x → 1 ≤ s.seen ∧ ∃ c ∈ s.columns, s.t = some c.tag ∧ ∃ more, c.rest = x :: more
  ends : s.run = false → ∃ c ∈ s.columns, c.rest = []

theorem Kept.start (known : List ObjectTag) : Kept known (TagSearch.start known) := by
  have hcolumns : (TagSearch.start known).columns = known.map fun t => ⟨t.tName, t.tRoot⟩ := rfl
  refine ⟨fun c hc => ?_, fun x hx t ht => ?_, fun x hx => .inr fun c hc => ?_,
    fun _ hx => absurd hx List.not_mem_nil, fun x hx => (by cases hx), fun hr => (by cases hr)⟩
  · rw [hcolumns] at hc
    obtain ⟨t, _, rfl⟩ := List.mem_map.mp hc
    exact t.ascending
  · exact hx ⟨t.tName, t.tRoot⟩ (hcolumns ▸ List.mem_map_of_mem ht)
  · rw [hcolumns] at hc
    obtain ⟨t, ht, rfl⟩ := List.mem_map.mp hc
    exact hx t ht

theorem Kept.goes (h : Kept known s) (hgo : Goes s.columns s'.columns)
    (hcomplete : ∀ x, (∀ t ∈ known, x ∈ t.tRoot) → x ∈ s'.ans ∨ ∀ c ∈ s'.columns, x ∈ c.rest)
    (hlost : ∀ x ∈ s'.ans, x ∈ s.ans ∨ ∃ c ∈ s'.columns, x ∉ c.rest)
    (hsetter : ∀ x, s'.min = some x → 1 ≤ s'.seen ∧ ∃ c ∈ s'.columns, s'.t = some c.tag ∧ ∃ more, c.rest = x :: more)
    (hends : s'.run = false → s.run = false ∨ ∃ c ∈ s'.columns, c.rest = []) : Kept known s' := by
  refine ⟨fun c hc => ?_, fun x hx => h.within x fun c hc => ?_, hcomplete, fun x hx => ?_, hsetter, fun hr => ?_⟩
  · obtain ⟨d, hd, _, hsuffix⟩ := hgo.back c hc
    exact (h.ascending d hd).sublist hsuffix.sublist
  · obtain ⟨d, hd, _, hsuffix⟩ := hgo.forth c hc
    exact hsuffix.mem (hx d hd)
  · rcases hlost x hx with hx | hx
    · obtain ⟨c, hc, hno⟩ := h.lost x hx
      obtain ⟨d, hd, _, hsuffix⟩ := hgo.forth c hc
      exact ⟨d, hd, fun hmem => hno (hsuffix.mem hmem)⟩
    · exact hx
  · rcases hends hr with hr | hempty
    · obtain ⟨c, hc, hnil⟩ := h.ends hr
      obtain ⟨d, hd, _, hsuffix⟩ := hgo.forth c hc
      exact ⟨d, hd, List.suffix_nil.mp (hnil ▸ hsuffix)⟩
    · exact hempty

/-- Where no cursor goes on and nothing is reported, only the candidate is new. -/
theorem Kept.stays (h : Kept known s) (hcolumns : s'.columns = s.columns) (hans : s'.ans = s.ans)
    (hsetter : ∀ x, s'.min = some x → 1 ≤ s'.seen ∧ ∃ c ∈ s.columns, s'.t = some c.tag ∧ ∃ more, c.rest = x :: more)
    (hends : s'.run = false → s.run = false ∨ ∃ c ∈ s.columns, c.rest = []) : Kept known s' := by
  refine h.goes (hcolumns ▸ .refl _) ?_ ?_ ?_ ?_
  · rw [hcolumns, hans]
    exact h.complete
  · rw [hans]
    exact fun x hx => .inl hx
  · rwa [hcolumns]
  · rwa [hcolumns]

theorem mem_of_ne {pre post : List TagArray} {c' d : TagArray} (hd : d ∈ pre ++ c :: post) (hne : d ≠ c) :
    d ∈ pre ++ c' :: post := by
  rcases List.mem_append.mp hd with hd | hd
  · exact List.mem_append_left _ hd
  · exact List.mem_append_right _ (List.mem_cons_of_mem _ ((List.mem_cons.mp hd).resolve_left hne))

/-- Without its first object an array has all that the others have, but for this object. -/
theorem all_of_rest {pre post : List TagArray} {x z : Nat} {more : List Nat} (hrest : c.rest = x :: more)
    (hall : ∀ d ∈ pre ++ c :: post, z ∈ d.rest) (hne : z ≠ x) :
    ∀ d ∈ pre ++ { c with rest := more } :: post, z ∈ d.rest := by
  intro d hd
  rcases List.mem_append.mp hd with hd | hd
  · exact hall d (List.mem_append_left _ hd)
  · rcases List.mem_cons.mp hd with rfl | hd
    · have hz := hall c (List.mem_append_right _ List.mem_cons_self)
      rw [hrest] at hz
      exact (List.mem_cons.mp hz).resolve_left hne
    · exact hall d (List.mem_append_right _ (List.mem_cons_of_mem _ hd))

theorem head_le {x z : Nat} {more : List Nat} (hs : (x :: more).Pairwise (· < ·)) (hz : z ∈ x :: more) : x ≤ z := by
  rcases List.mem_cons.mp hz with rfl | hz
  · exact Nat.le_refl z
  · exact Nat.le_of_lt ((List.pairwise_cons.mp hs).1 z hz)

theorem Kept.visit (h : Kept known s) (hafter : s.after = c :: after) (hv : Visit count s c after s') :
    Kept known s' := by
  have hcolumns := columns_of_after hafter
  have hc : c ∈ s.columns := hcolumns ▸ List.mem_append_right _ List.mem_cons_self
  have hstay : (s.past c after).columns = s.columns := columns_past.trans hcolumns.symm
  cases hv with
  | exhausted hrest => exact h.stays hstay rfl h.setter fun _ => .inr ⟨c, hc, hrest⟩
  | set hrest =>
    refine h.stays hstay rfl (fun z hz => ?_) .inl
    cases hz
    exact ⟨Nat.le_refl 1, c, hc, rfl, _, hrest⟩
  | counted =>
    refine h.stays hstay rfl (fun z hz => ?_) .inl
    obtain ⟨_, hsetter⟩ := h.setter z hz
    exact ⟨Nat.le_add_left 1 s.seen, hsetter⟩
  | @passed x m more hrest hmin hlt =>
    have hgo : (s.past { c with rest := more } after).columns = _ := columns_gone more
    obtain ⟨hseen, d, hd, ht, rest, hhead⟩ := h.setter m hmin
    refine h.goes (hgo ▸ hcolumns ▸ .replace rfl (hrest ▸ List.suffix_cons ..)) (fun z hz => ?_) (fun z hz => .inl hz)
      (fun z hz => ?_) .inl
    · refine (h.complete z hz).imp_right fun hall => ?_
      have hle : m ≤ z := head_le (hhead ▸ h.ascending d hd) (hhead ▸ hall d hd)
      rw [hgo]
      exact all_of_rest hrest (hcolumns ▸ hall) (by omega)
    · obtain rfl : m = z := Option.some.inj (hmin.symm.trans hz)
      refine ⟨hseen, d, ?_, ht, rest, hhead⟩
      rw [hgo]
      refine mem_of_ne (hcolumns ▸ hd) ?_
      rintro rfl
      rw [hrest] at hhead
      exact absurd (List.cons.inj hhead).1 (Nat.ne_of_lt hlt)
  | @reported x more hrest hmin =>
    have hgo : (s.past { c with rest := more } after).columns = _ := columns_gone more
    have hnew : { c with rest := more } ∈ (s.past { c with rest := more } after).columns :=
      hgo ▸ List.mem_append_right _ List.mem_cons_self
    have hsorted := h.ascending c hc
    rw [hrest] at hsorted
    refine h.goes (hgo ▸ hcolumns ▸ .replace rfl (hrest ▸ List.suffix_cons ..)) (fun z hz => ?_) (fun z hz => ?_)
      (fun z hz => by cases hz) .inl
    · rcases h.complete z hz with hans | hall
      · exact .inl (List.mem_append_left _ hans)
      · by_cases hne : z = x
        · exact .inl (List.mem_append_right _ (List.mem_singleton.mpr hne))
        · refine .inr ?_
          show ∀ d ∈ (s.past { c with rest := more } after).columns, z ∈ d.rest
          rw [hgo]
          exact all_of_rest hrest (hcolumns ▸ hall) hne
    · refine (List.mem_append.mp hz).imp_right fun hz => ⟨_, hnew, fun hmem => ?_⟩
      obtain rfl := List.mem_singleton.mp hz
      exact Nat.lt_irrefl z ((List.pairwise_cons.mp hsorted).1 z hmem)
  | waits => exact h.stays hstay rfl h.setter .inl

theorem Kept.step (h : Kept known s) (hs : s.step count = some s') : Kept known s' := by
  rcases step_cases hs with ⟨hafter, hrun, rfl⟩ | ⟨c, after, hafter, hv⟩
  · have hsame : s.columns = s.before := by rw [columns, hafter, List.append_nil]
    exact h.stays hsame.symm rfl h.setter .inl
  · exact h.visit hafter hv

theorem kept_of_reach (h : Reach count (.start known) s) : Kept known s := by
  induction h with
  | refl => exact .start known
  | tail _ hs ih => exact ih.step hs

theorem step_due {x : Nat} (h : s.Due count x) : ∃ s', s.step count = some s' ∧ s'.ans = s.ans ++ [x] := by
  obtain ⟨hmin, hseen, c, after, more, hafter, hrest, ht⟩ := h
  refine ⟨s.visit count c after, by rw [TagSearch.step, hafter], ?_⟩
  simp [TagSearch.visit, hrest, hmin, ht, hseen]

theorem step_ans (h : s.step count = some s') : s'.ans = s.ans ∨ ∃ x, s.Due count x ∧ s'.ans = s.ans ++ [x] := by
  rcases step_cases h with ⟨_, _, rfl⟩ | ⟨c, after, hafter, hv⟩
  · exact .inl rfl
  · cases hv with
    | exhausted | set | counted | passed | waits => exact .inl rfl
    | @reported x more hrest hmin ht hseen => exact .inr ⟨x, ⟨hmin, hseen, c, after, more, hafter, hrest, ht⟩, rfl⟩

theorem reach_ans (h : Reach count s s') : s.ans <+: s'.ans := by
  induction h with
  | refl => exact List.prefix_rfl
  | tail _ hs ih =>
    rcases step_ans hs with hans | ⟨x, _, hans⟩
    · rwa [hans]
    · exact ih.trans (hans ▸ List.prefix_append ..)

/-- Where nothing is reported early, only objects with all the tags are reported, and none twice. -/
theorem reported_of_neverEarly (hnever : NeverEarly known) (h : Reach known.length (.start known) s) :
    s.ans.Nodup ∧ ∀ x ∈ s.ans, ∀ t ∈ known, x ∈ t.tRoot := by
  induction h with
  | refl => exact ⟨List.nodup_nil, fun x hx => absurd hx List.not_mem_nil⟩
  | @tail s s' hr hs ih =>
    have hkept := kept_of_reach hr
    rcases step_ans hs with hans | ⟨x, hdue, hans⟩
    · rwa [hans]
    · have hall := hnever s x hr hdue
      have hnew : x ∉ s.ans := by
        intro hx
        obtain ⟨c, hc, hno⟩ := hkept.lost x hx
        exact hno (hall c hc)
      rw [hans]
      refine ⟨List.nodup_append.mpr ⟨ih.1, List.nodup_singleton x, fun a ha b hb => ?_⟩, fun z hz => ?_⟩
      · obtain rfl := List.mem_singleton.mp hb
        exact fun he => hnew (he ▸ ha)
      · rcases List.mem_append.mp hz with hz | hz
        · exact ih.2 z hz
        · obtain rfl := List.mem_singleton.mp hz
          exact hkept.within z hall

theorem reach_end {e : TagSearch} (h : Reach count s e) (hs : Reach count s s') (hend : e.step count = none) :
    Reach count s' e := by
  rcases Relation.ReflTransGen.total_of_right_unique (fun _ _ _ h h' => Option.some.inj (h.symm.trans h')) h hs with
    hback | hforth
  · rcases Relation.ReflTransGen.cases_head hback with rfl | ⟨u, hu, _⟩
    · exact .refl
    · rw [hend] at hu
      cases hu
  · exact hforth

theorem neverEarly_of_exact (h : Exact known) : NeverEarly known := by
  obtain ⟨e, hr, hend, hnodup, hmem⟩ := h
  intro s x hs hdue
  obtain ⟨s1, hstep, hans⟩ := step_due hdue
  have hprefix := reach_ans (reach_end hr (hs.tail hstep) hend)
  rw [hans] at hprefix
  have hx : x ∈ e.ans := hprefix.mem (List.mem_append_right _ (List.mem_singleton_self x))
  refine ((kept_of_reach hs).complete x ((hmem x).mp hx)).resolve_left fun hold => ?_
  have hsub := hnodup.sublist hprefix.sublist
  exact (List.nodup_append.mp hsub).2.2 x hold x (List.mem_singleton_self x) rfl

end TagSearch

end Katcp
