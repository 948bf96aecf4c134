import Katcp.DbaseData
import Mathlib.Data.List.TakeWhile

namespace Katcp

def DataStack.push (s : DataStack) (more : List Text) : DataStack := ⟨s.id, s.objs ++ more⟩

theorem DataStack.push_nil (s : DataStack) : s.push [] = s := by
  rw [push, List.append_nil]

theorem DataStack.push_push (s : DataStack) (first more : List Text) :
    (s.push first).push more = s.push (first ++ more) := by
  rw [push, push, push, List.append_assoc]

theorem map_push_nil (stack : Option DataStack) : stack.map (·.push []) = stack := by
  cases stack with
  | none => rfl
  | some s => exact congrArg some s.push_nil

theorem map_push_push (stack : Option DataStack) (first more : List Text) :
    (stack.map (·.push first)).map (·.push more) = stack.map (·.push (first ++ more)) := by
  cases stack with
  | none => rfl
  | some s => exact congrArg some (s.push_push first more)

/-- The strings are kept under themselves. -/
def DbaseStore.Own (s : DbaseStore) : Prop := ∀ k v, KeyedList.find strcmp k s.strings = some v → v = k

/-- Only the strings and the tags may differ. -/
structure DbaseStore.Beside (s s' : DbaseStore) : Prop where
  types : s'.types = s.types
  entries : s'.entries = s.entries
  dicts : s'.dicts = s.dicts
  made : s'.made = s.made
  freed : s'.freed = s.freed
  own : s.Own → s'.Own
  known : ∀ t, s.Known t → s'.Known t

theorem DbaseStore.Beside.refl (s : DbaseStore) : s.Beside s := ⟨rfl, rfl, rfl, rfl, rfl, id, fun _ => id⟩

theorem DbaseStore.Beside.trans {s s1 s' : DbaseStore} (h : s.Beside s1) (h' : s1.Beside s') : s.Beside s' :=
  ⟨h'.types.trans h.types, h'.entries.trans h.entries, h'.dicts.trans h.dicts, h'.made.trans h.made,
    h'.freed.trans h.freed, fun ho => h'.own (h.own ho), fun t ht => h'.known t (h.known t ht)⟩

theorem searchType_own {key : Text} {copy stores : Bool} {tree : KeyedList Text Text}
    (h : ∀ k v, KeyedList.find strcmp k tree = some v → v = k) :
    ∃ data tree', searchType key (if copy then some key else none) stores tree = (data, tree') ∧
      (∀ k v, KeyedList.find strcmp k tree' = some v → v = k) ∧
      (∀ t, (KeyedList.find strcmp t tree).isSome → (KeyedList.find strcmp t tree').isSome) ∧
      ((KeyedList.find strcmp key tree).isSome ∨ copy = true ∧ stores = true →
        data = some key ∧ (KeyedList.find strcmp key tree').isSome) := by
  cases hfind : KeyedList.find strcmp key tree with
  | some o =>
    obtain rfl := h key o hfind
    refine ⟨some o, tree, by simp only [searchType, hfind], h, fun _ => id, fun _ => ⟨rfl, by rw [hfind]; rfl⟩⟩
  | none =>
    by_cases hboth : copy = true ∧ stores = true
    · obtain ⟨rfl, rfl⟩ := hboth
      refine ⟨some key, KeyedList.put strcmp key key tree, by simp [searchType, hfind], ?_, ?_,
        fun _ => ⟨rfl, by rw [KeyedList.find_put_self]; rfl⟩⟩
      · intro k v hv
        by_cases hk : k = key
        · subst hk
          rw [KeyedList.find_put_self] at hv
          exact (Option.some.inj hv).symm
        · rw [KeyedList.find_put_of_ne hk] at hv
          exact h k v hv
      · intro t ht
        by_cases hk : t = key
        · rw [hk, KeyedList.find_put_self]
          rfl
        · rwa [KeyedList.find_put_of_ne hk]
    · refine ⟨none, tree, ?_, h, fun _ => id, fun hk => ?_⟩
      · cases copy <;> cases stores <;> simp_all [searchType]
      · rcases hk with hk | hk
        · cases hk
        · exact absurd hk hboth

namespace SetRun

variable {f : SetSteps} {i : Nat} {r r' : SetRun} {t arg : Text} {args : List Text} {p : SetPlan}

theorem readValue_spec (hown : r.store.Own) (hkept : r.store.Known t ∨ f.copy i = true ∧ f.store i = true) :
    (∃ s, r.readValue f i t = .refused s ∧ r.store.Beside s) ∨
    ∃ s, r.readValue f i t = .read { r with store := s, stack := r.stack.map (·.push [t]) } ∧ r.store.Beside s ∧
      s.Known t ∧ r.stack.isSome ∧ f.object i = true ∧ f.grow i = true := by
  obtain ⟨data, tree, hsearch, hown', hknown, hdata⟩ := @searchType_own t (f.copy i) (f.store i) _ hown
  obtain ⟨rfl, ht⟩ := hdata hkept
  have hbeside : r.store.Beside { r.store with strings := tree } :=
    ⟨rfl, rfl, rfl, rfl, rfl, fun _ => hown', hknown⟩
  unfold readValue
  rw [hsearch]
  dsimp only
  cases hstack : r.stack with
  | none => exact .inl ⟨_, rfl, hbeside⟩
  | some st =>
    by_cases hpush : f.object i = true ∧ f.grow i = true
    · refine .inr ⟨_, ?_, hbeside, ht, rfl, hpush⟩
      rw [pushStack]
      dsimp only
      rw [if_pos hpush]
      rfl
    · refine .inl ⟨_, ?_, hbeside⟩
      rw [pushStack]
      dsimp only
      rw [if_neg hpush]
      rfl

theorem readTag_spec : (∃ s, r.readTag f i t = .refused s ∧ r.store.Beside s) ∨
    ∃ s more, r.readTag f i t = .read { r with store := s, tags := r.tags.map (·.push more) } ∧ r.store.Beside s ∧
      more.length ≤ 1 := by
  unfold readTag
  generalize searchType t (if f.copy i then some [] else none) (f.store i) r.store.tags = found
  obtain ⟨data, tree⟩ := found
  have hbeside : r.store.Beside { r.store with tags := tree } := ⟨rfl, rfl, rfl, rfl, rfl, id, fun _ => id⟩
  dsimp only
  cases data with
  | none =>
    refine .inr ⟨_, [], ?_, hbeside, Nat.zero_le 1⟩
    rw [map_push_nil]
  | some keys =>
    cases htags : r.tags with
    | none => exact .inl ⟨_, rfl, hbeside⟩
    | some st =>
      by_cases hpush : f.object i = true ∧ f.grow i = true
      · refine .inr ⟨_, [t], ?_, hbeside, Nat.le_refl 1⟩
        rw [pushStack]
        dsimp only
        rw [if_pos hpush]
        rfl
      · refine .inl ⟨_, ?_, hbeside⟩
        rw [pushStack]
        dsimp only
        rw [if_neg hpush]
        rfl

/-- What a plan has come to. -/
structure Filled (r r' : SetRun) (p : SetPlan) : Prop where
  beside : r.store.Beside r'.store
  stack : r'.stack = r.stack.map (·.push (p.values.map Prod.fst))
  schema : r'.schema = p.schema.or r.schema
  tags : ∃ more, r'.tags = r.tags.map (·.push more) ∧ more.length ≤ p.tags.length

theorem Filled.nothing (r : SetRun) : r.Filled r ⟨[], none, []⟩ :=
  ⟨.refl _, (map_push_nil _).symm, rfl, [], (map_push_nil _).symm, Nat.zero_le 0⟩

theorem Filled.value {s : DbaseStore} (hb : r.store.Beside s)
    (h : Filled { r with store := s, stack := r.stack.map (·.push [t]) } r' p) :
    r.Filled r' { p with values := (t, i) :: p.values } :=
  ⟨hb.trans h.beside, h.stack.trans (map_push_push ..), h.schema, h.tags⟩

theorem Filled.tag {s : DbaseStore} {more : List Text} (a : Text × Nat) (hb : r.store.Beside s)
    (hmore : more.length ≤ 1) (h : Filled { r with store := s, tags := r.tags.map (·.push more) } r' p) :
    r.Filled r' { p with tags := a :: p.tags } := by
  obtain ⟨rest, hrest, hlen⟩ := h.tags
  refine ⟨hb.trans h.beside, h.stack, h.schema, more ++ rest, hrest.trans (map_push_push ..), ?_⟩
  rw [List.length_append, List.length_cons]
  omega

/-- The arguments have been read to what is planned, or a stack could not be pushed to. -/
def Reads (r : SetRun) (p : SetPlan) (result : ArgResult) : Prop :=
  (∃ s, result = .refused s ∧ r.store.Beside s) ∨ ∃ r', result = .read r' ∧ r.Filled r' p

theorem Reads.refused {s : DbaseStore} (h : r.readArg f i arg = .refused s) (hb : r.store.Beside s) :
    r.Reads p (readArgs f i r (arg :: args)) :=
  .inl ⟨s, by rw [readArgs, h], hb⟩

theorem Reads.next {r1 : SetRun} {q : SetPlan} (h : r.readArg f i arg = .read r1)
    (hr : r1.Reads q (readArgs f (i + 1) r1 args)) (hb : r.store.Beside r1.store)
    (hf : ∀ r', r1.Filled r' q → r.Filled r' p) : r.Reads p (readArgs f i r (arg :: args)) := by
  rw [readArgs, h]
  rcases hr with ⟨s, hs, hbs⟩ | ⟨r', hr', hfilled⟩
  · exact .inl ⟨s, hs, hb.trans hbs⟩
  · exact .inr ⟨r', hr', hf r' hfilled⟩

theorem stringOf_of_ne (h : arg ≠ []) : stringOf arg = some (cString arg) := if_neg h

theorem ne_nil_of_cString {word : Text} (h : cString arg = word) (hw : word ≠ []) : arg ≠ [] := by
  rintro rfl
  exact hw h.symm

theorem cString_of_notMem (h : 0 ∉ t) : cString t = t := by
  rw [cString, List.takeWhile_eq_self_iff]
  intro x hx
  exact decide_eq_true (fun h0 => h (h0 ▸ hx))

theorem readArgs_tags (hstate : r.state = .tags) (hfull : ∀ a ∈ args.zipIdx i, a.1 ≠ []) :
    r.Reads ⟨[], none, args.zipIdx i⟩ (readArgs f i r args) := by
  induction args generalizing i r with
  | nil => exact .inr ⟨r, rfl, .nothing r⟩
  | cons arg args ih =>
    rw [List.zipIdx_cons] at hfull ⊢
    have hread : r.readArg f i arg = r.readTag f i (cString arg) := by
      rw [readArg, hstate, stringOf_of_ne (hfull _ List.mem_cons_self)]
    have hrest : ∀ a ∈ args.zipIdx (i + 1), a.1 ≠ [] := fun a ha => hfull a (List.mem_cons_of_mem _ ha)
    rcases readTag_spec (r := r) (f := f) (i := i) (t := cString arg) with ⟨s, hs, hb⟩ | ⟨s, more, hs, hb, hmore⟩
    · exact .refused (hread.trans hs) hb
    · exact .next (hread.trans hs) (ih hstate hrest) hb fun r' h => h.tag _ hb hmore

end SetRun

theorem ValuesKept.mono {f : SetSteps} {known known' : Text → Prop} {values : List (Text × Nat)}
    (h : ValuesKept f known values) (hk : ∀ t, known t → known' t) : ValuesKept f known' values := by
  induction values generalizing known known' with
  | nil => trivial
  | cons a rest ih =>
    obtain ⟨hne, hzero, hkept, hrest⟩ := h
    exact ⟨hne, hzero, hkept.imp_left (hk _), fun hp => ih (hrest hp) fun t => Or.imp_left (hk t)⟩

namespace SetPlan

variable {a name : Text × Nat} {args : List (Text × Nat)}

theorem rest_tags (h : cString a.1 = tagIdent) : rest (a :: args) = ⟨[], none, args⟩ := by
  have hstop : decide (cString a.1 ≠ tagIdent) = false := by simp [h]
  simp only [rest, List.takeWhile_cons, List.dropWhile_cons, hstop, Bool.false_eq_true, if_false, List.tail_cons]

theorem rest_value (h : cString a.1 ≠ tagIdent) :
    rest (a :: args) = { rest args with values := a :: (rest args).values } := by
  simp [rest, h]

theorem ahead_stop (h : cString a.1 = schemaIdent ∨ cString a.1 = tagIdent) : ahead (a :: args) = [] := by
  rw [ahead, List.takeWhile_cons, if_neg]
  simp only [decide_eq_true_eq, not_and, not_not]
  intro hne
  exact h.resolve_left hne

theorem ofArgs_schema (h : cString a.1 = schemaIdent) :
    ofArgs (a :: name :: args) = { rest args with schema := stringOf name.1 } := by
  rw [ofArgs, ahead_stop (.inl h)]
  exact if_pos h

theorem ofArgs_schema_nil (h : cString a.1 = schemaIdent) : ofArgs [a] = ⟨[], none, []⟩ := by
  rw [ofArgs, ahead_stop (.inl h)]
  rfl

theorem ofArgs_tags (h : cString a.1 = tagIdent) : ofArgs (a :: args) = ⟨[], none, args⟩ := by
  have hne : cString a.1 ≠ schemaIdent := by
    rw [h]
    decide
  rw [ofArgs, ahead_stop (.inr h)]
  cases args with
  | nil => rfl
  | cons name args => exact if_neg hne

theorem ofArgs_value (h : cString a.1 ≠ schemaIdent) (h' : cString a.1 ≠ tagIdent) :
    ofArgs (a :: args) = { ofArgs args with values := a :: (ofArgs args).values } := by
  have hahead : ahead (a :: args) = a :: ahead args := by
    rw [ahead, List.takeWhile_cons, if_pos (decide_eq_true ⟨h, h'⟩)]
    rfl
  rw [ofArgs, ofArgs, hahead, List.length_cons, List.drop_succ_cons]
  rcases args.drop (ahead args).length with _ | ⟨word, _ | ⟨name, more⟩⟩
  · rfl
  · rfl
  · dsimp only
    by_cases hword : cString word.1 = schemaIdent
    · simp only [if_pos hword]
      rfl
    · simp only [if_neg hword]

end SetPlan

namespace SetRun

variable {f : SetSteps} {i : Nat} {r r' : SetRun} {arg : Text} {args : List Text} {p : SetPlan}

/-- A value is pushed, and what follows is read as it is planned, or it is not. -/
theorem readArgs_value (hread : r.readArg f i arg = r.readValue f i (cString arg)) (hown : r.store.Own)
    (hstack : r.stack.isSome = f.stack) (hkept : ValuesKept f r.store.Known ((arg, i) :: p.values))
    (hnext : ∀ r1 : SetRun, r1.state = r.state → r1.schema = r.schema → r1.store.Own → r1.stack.isSome = f.stack →
      ValuesKept f r1.store.Known p.values → r1.Reads p (readArgs f (i + 1) r1 args)) :
    r.Reads { p with values := (arg, i) :: p.values } (readArgs f i r (arg :: args)) := by
  obtain ⟨hne, hzero, hknown, hrest⟩ := hkept
  rw [cString_of_notMem hzero] at hread
  rcases readValue_spec hown hknown with ⟨s, hs, hb⟩ | ⟨s, hs, hb, ht, hsome, hpush⟩
  · exact .refused (hread.trans hs) hb
  · refine .next (hread.trans hs) (hnext _ rfl rfl (hb.own hown) ?_ ?_) hb fun r' h => h.value hb
    · rw [Option.isSome_map, hstack]
    · refine (hrest ⟨hstack ▸ hsome, hpush⟩).mono fun u hu => ?_
      rcases hu with hu | rfl
      · exact hb.known u hu
      · exact ht

theorem readArgs_rest (hstate : r.state = .post) (hown : r.store.Own) (hstack : r.stack.isSome = f.stack)
    (hkept : ValuesKept f r.store.Known (SetPlan.rest (args.zipIdx i)).values)
    (hfull : ∀ a ∈ (SetPlan.rest (args.zipIdx i)).tags, a.1 ≠ []) :
    r.Reads (.rest (args.zipIdx i)) (readArgs f i r args) := by
  induction args generalizing i r with
  | nil => exact .inr ⟨r, rfl, .nothing r⟩
  | cons arg args ih =>
    rw [List.zipIdx_cons] at hkept hfull ⊢
    by_cases htag : cString arg = tagIdent
    · have hread : r.readArg f i arg = .read { r with state := .tags } := by
        rw [readArg, hstate, stringOf_of_ne (ne_nil_of_cString htag (by decide)), htag]
        rfl
      rw [SetPlan.rest_tags htag] at hfull ⊢
      exact .next hread (readArgs_tags rfl hfull) (.refl _) fun r' h => ⟨h.beside, h.stack, h.schema, h.tags⟩
    · rw [SetPlan.rest_value htag] at hkept hfull ⊢
      have hread : r.readArg f i arg = r.readValue f i (cString arg) := by
        rw [readArg, hstate, stringOf_of_ne hkept.1]
        exact if_neg htag
      exact readArgs_value hread hown hstack hkept fun r1 hs1 _ ho1 hst1 hk1 =>
        ih (hs1.trans hstate) ho1 hst1 hk1 hfull

theorem Reads.schema {name : Option Text} (hschema : r.schema = none) (hp : p.schema = none) {result : ArgResult}
    (h : Reads { r with schema := name, state := .post } p result) : r.Reads { p with schema := name } result := by
  rcases h with ⟨s, hs, hb⟩ | ⟨r', hr', hf⟩
  · exact .inl ⟨s, hs, hb⟩
  · refine .inr ⟨r', hr', hf.beside, hf.stack, ?_, hf.tags⟩
    rw [hf.schema, hp, hschema]
    cases name <;> rfl

theorem readArgs_spec (hstate : r.state = .pre) (hschema : r.schema = none) (hown : r.store.Own)
    (hstack : r.stack.isSome = f.stack) (hkept : ValuesKept f r.store.Known (SetPlan.ofArgs (args.zipIdx i)).values)
    (hfull : ∀ a ∈ (SetPlan.ofArgs (args.zipIdx i)).tags, a.1 ≠ []) :
    r.Reads (.ofArgs (args.zipIdx i)) (readArgs f i r args) := by
  induction args generalizing i r with
  | nil => exact .inr ⟨r, rfl, .nothing r⟩
  | cons arg args ih =>
    rw [List.zipIdx_cons] at hkept hfull ⊢
    by_cases hword : cString arg = schemaIdent
    · have hread : r.readArg f i arg = .read { r with state := .schema } := by
        rw [readArg, hstate, stringOf_of_ne (ne_nil_of_cString hword (by decide)), hword]
        rfl
      cases args with
      | nil =>
        rw [List.zipIdx_nil, SetPlan.ofArgs_schema_nil hword]
        have hend : readArgs f i r [arg] = .read { r with state := .schema } := by
          rw [readArgs, hread]
          rfl
        exact .inr ⟨_, hend, .refl _, (map_push_nil _).symm, rfl, [], (map_push_nil _).symm, Nat.zero_le 0⟩
      | cons name args =>
        rw [List.zipIdx_cons, SetPlan.ofArgs_schema hword] at hkept hfull ⊢
        have hname : (⟨.schema, r.schema, r.stack, r.tags, r.store⟩ : SetRun).readArg f (i + 1) name =
            .read { r with schema := stringOf name, state := .post } := rfl
        have hrest : Reads { r with schema := stringOf name, state := .post } (.rest (args.zipIdx (i + 1 + 1)))
            (readArgs f (i + 1 + 1) { r with schema := stringOf name, state := .post } args) :=
          readArgs_rest rfl hown hstack hkept hfull
        have htwo : readArgs f i r (arg :: name :: args) =
            readArgs f (i + 1 + 1) { r with schema := stringOf name, state := .post } args := by
          rw [readArgs, hread]
          dsimp only
          rw [readArgs, hname]
        rw [htwo]
        exact hrest.schema hschema rfl
    · by_cases htag : cString arg = tagIdent
      · have hread : r.readArg f i arg = .read { r with state := .tags } := by
          rw [readArg, hstate, stringOf_of_ne (ne_nil_of_cString htag (by decide)), htag]
          rfl
        rw [SetPlan.ofArgs_tags htag] at hfull ⊢
        exact .next hread (readArgs_tags rfl hfull) (.refl _) fun r' h => ⟨h.beside, h.stack, h.schema, h.tags⟩
      · rw [SetPlan.ofArgs_value hword htag] at hkept hfull ⊢
        have hread : r.readArg f i arg = r.readValue f i (cString arg) := by
          rw [readArg, hstate, stringOf_of_ne hkept.1]
          dsimp only
          rw [if_neg hword, if_neg htag]
        exact readArgs_value hread hown hstack hkept fun r1 hs1 hsc1 ho1 hst1 hk1 =>
          ih (hs1.trans hstate) (hsc1.trans hschema) ho1 hst1 hk1 hfull

end SetRun

end Katcp
