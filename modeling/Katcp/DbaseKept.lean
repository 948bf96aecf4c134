import Katcp.DbaseRuns

namespace Katcp

def Dbase.value (db : Dbase) : DbaseValue := ⟨db.dValues.objs, db.dSchema⟩

def stackIds (stack : Option DataStack) : List Nat := (stack.map DataStack.id).toList

namespace DbaseStore

variable {s s' : DbaseStore} {f : SetSteps} {key k : Text} {db : Dbase} {pending : List Nat}
  {stack tags : Option DataStack} {args : Words}

/-- Every stack has been destroyed, or is pending, or is that of an entry, and one of these only. -/
structure Accounted (s : DbaseStore) (pending : List Nat) : Prop where
  all : ∀ id, id < s.made → id ∈ s.freed ++ pending ∨ ∃ key db, s.find key = some db ∧ db.dValues.id = id
  made : ∀ id ∈ s.freed ++ pending, id < s.made
  once : (s.freed ++ pending).Nodup
  held : ∀ key db, s.find key = some db → db.dValues.id < s.made ∧ db.dValues.id ∉ s.freed ++ pending
  apart : ∀ key key' db db', s.find key = some db → s.find key' = some db' → db.dValues.id = db'.dValues.id →
    key = key'

theorem Accounted.congr (h : s.Accounted pending) (hfind : s'.find = s.find) (hmade : s'.made = s.made)
    (hfreed : s'.freed = s.freed) : s'.Accounted pending := by
  obtain ⟨hall, hbound, honce, hheld, hapart⟩ := h
  rw [← hfind] at hall hheld hapart
  rw [← hmade] at hall hbound hheld
  rw [← hfreed] at hall hbound honce hheld
  exact ⟨hall, hbound, honce, hheld, hapart⟩

theorem Beside.find (h : s.Beside s') : s'.find = s.find := by
  funext key
  rw [DbaseStore.find, DbaseStore.find, h.entries]

theorem Accounted.beside (h : s.Accounted pending) (hb : s.Beside s') : s'.Accounted pending :=
  h.congr hb.find hb.made hb.freed

theorem createStack_accounted (h : s.Accounted pending) (succeeds : Bool) :
    (s.createStack succeeds).2.Accounted (pending ++ stackIds (s.createStack succeeds).1) := by
  cases succeeds with
  | false =>
    have hnone : pending ++ stackIds none = pending := List.append_nil _
    exact hnone.symm ▸ h
  | true =>
    obtain ⟨hall, hbound, honce, hheld, hapart⟩ := h
    have hids : s.freed ++ (pending ++ stackIds (some ⟨s.made, []⟩)) = (s.freed ++ pending) ++ [s.made] :=
      (List.append_assoc ..).symm
    have hnew : s.made ∉ s.freed ++ pending := fun hin => Nat.lt_irrefl _ (hbound _ hin)
    refine ⟨fun id hid => ?_, fun id hid => ?_, ?_, fun key db hdb => ?_, hapart⟩
    · change id ∈ s.freed ++ (pending ++ stackIds (some ⟨s.made, []⟩)) ∨ _
      rw [hids, List.mem_append, List.mem_singleton]
      rcases Nat.lt_succ_iff_lt_or_eq.mp hid with hlt | rfl
      · exact (hall id hlt).imp_left Or.inl
      · exact .inl (.inr rfl)
    · change id ∈ s.freed ++ (pending ++ stackIds (some ⟨s.made, []⟩)) at hid
      rw [hids, List.mem_append, List.mem_singleton] at hid
      rcases hid with hid | rfl
      · exact Nat.lt_succ_of_lt (hbound id hid)
      · exact Nat.lt_succ_self _
    · change (s.freed ++ (pending ++ stackIds (some ⟨s.made, []⟩))).Nodup
      rw [hids, List.nodup_append]
      refine ⟨honce, List.nodup_singleton _, fun a ha b hb => ?_⟩
      rw [List.mem_singleton.mp hb]
      rintro rfl
      exact hnew ha
    · obtain ⟨hlt, hnot⟩ := hheld key db hdb
      refine ⟨Nat.lt_succ_of_lt hlt, fun hin => ?_⟩
      change db.dValues.id ∈ s.freed ++ (pending ++ stackIds (some ⟨s.made, []⟩)) at hin
      rw [hids, List.mem_append, List.mem_singleton] at hin
      rcases hin with hin | heq
      · exact hnot hin
      · exact Nat.ne_of_lt hlt heq

theorem destroyStack_accounted (h : s.Accounted (stackIds stack ++ pending)) :
    (s.destroyStack stack).Accounted pending := by
  have hids : (s.destroyStack stack).freed ++ pending = s.freed ++ (stackIds stack ++ pending) :=
    List.append_assoc ..
  refine ⟨fun id hid => ?_, fun id hid => ?_, ?_, fun key db hdb => ?_, h.apart⟩
  · rw [hids]
    exact h.all id hid
  · rw [hids] at hid
    exact h.made id hid
  · rw [hids]
    exact h.once
  · rw [hids]
    exact h.held key db hdb

theorem find_putDbase : (s.putDbase key db).find k = if k = key then some db else s.find k := by
  rw [find, putDbase]
  by_cases hk : k = key
  · rw [if_pos hk, hk]
    exact KeyedList.find_put_self
  · rw [if_neg hk]
    exact KeyedList.find_put_of_ne hk

/-- An entry takes a stack over, and what it had is pending instead. -/
theorem putDbase_accounted (h : s.Accounted (db.dValues.id :: pending)) :
    (s.putDbase key db).Accounted (stackIds ((s.find key).map Dbase.dValues) ++ pending) := by
  have hnew : db.dValues.id < s.made := h.made _ (List.mem_append_right _ List.mem_cons_self)
  have hapart : db.dValues.id ∉ s.freed ++ pending := (List.nodup_cons.mp (List.perm_middle.nodup_iff.mp h.once)).1
  have honce : (s.freed ++ pending).Nodup := (List.nodup_cons.mp (List.perm_middle.nodup_iff.mp h.once)).2
  have hother : ∀ k o, s.find k = some o → o.dValues.id ≠ db.dValues.id ∧ o.dValues.id ∉ s.freed ++ pending := by
    intro k o ho
    have hnot := (h.held k o ho).2
    rw [List.perm_middle.mem_iff, List.mem_cons, not_or] at hnot
    exact hnot
  have hmem : ∀ id, id ∈ s.freed ++ (stackIds ((s.find key).map Dbase.dValues) ++ pending) ↔
      (∃ o, s.find key = some o ∧ o.dValues.id = id) ∨ id ∈ s.freed ++ pending := by
    intro id
    cases s.find key with
    | none => simp [stackIds]
    | some o =>
      simp only [stackIds, Option.map_some, Option.toList_some, List.mem_append, List.mem_singleton,
        Option.some.injEq, exists_eq_left']
      constructor
      · rintro (hin | rfl | hin)
        · exact .inr (.inl hin)
        · exact .inl rfl
        · exact .inr (.inr hin)
      · rintro (rfl | hin | hin)
        · exact .inr (.inl rfl)
        · exact .inl hin
        · exact .inr (.inr hin)
  refine ⟨fun id hid => ?_, fun id hid => ?_, ?_, fun k o ho => ?_, fun k k' o o' ho ho' heq => ?_⟩
  · change id ∈ s.freed ++ _ ∨ _
    rw [hmem]
    rcases h.all id hid with hin | ⟨k, o, ho, rfl⟩
    · rw [List.perm_middle.mem_iff, List.mem_cons] at hin
      rcases hin with rfl | hin
      · exact .inr ⟨key, db, by rw [find_putDbase, if_pos rfl], rfl⟩
      · exact .inl (.inr hin)
    · by_cases hk : k = key
      · subst hk
        exact .inl (.inl ⟨o, ho, rfl⟩)
      · exact .inr ⟨k, o, by rwa [find_putDbase, if_neg hk], rfl⟩
  · rcases (hmem id).mp hid with ⟨o, ho, rfl⟩ | hin
    · exact (h.held key o ho).1
    · exact h.made id (List.perm_middle.mem_iff.mpr (List.mem_cons_of_mem _ hin))
  · change (s.freed ++ _).Nodup
    cases hold : s.find key with
    | none => exact honce
    | some o => exact List.perm_middle.nodup_iff.mpr (List.nodup_cons.mpr ⟨(hother key o hold).2, honce⟩)
  · rw [find_putDbase] at ho
    split at ho
    next hk =>
      cases ho
      refine ⟨hnew, fun hin => ?_⟩
      rcases (hmem _).mp hin with ⟨old, hold, heq⟩ | hin
      · exact (hother key old hold).1 heq
      · exact hapart hin
    next hk =>
      refine ⟨(h.held k o ho).1, fun hin => ?_⟩
      rcases (hmem _).mp hin with ⟨old, hold, heq⟩ | hin
      · exact hk (h.apart k key o old ho hold heq.symm)
      · exact (hother k o ho).2 hin
  · rw [find_putDbase] at ho ho'
    split at ho
    next hk =>
      cases ho
      split at ho'
      next hk' => rw [hk, hk']
      next => exact absurd heq.symm (hother k' o' ho').1
    next hk =>
      split at ho'
      next hk' =>
        cases ho'
        exact absurd heq (hother k o ho).1
      next => exact h.apart k k' o o' ho ho' heq

theorem Accounted.destroyedOnce (h : s.Accounted []) : s.DestroyedOnce := by
  obtain ⟨hall, _, honce, hheld, hapart⟩ := h
  rw [List.append_nil] at hall honce hheld
  intro id hid
  by_cases hin : id ∈ s.freed
  · refine .inl ⟨List.count_eq_one_of_mem honce hin, fun key db hdb heq => ?_⟩
    exact (hheld key db hdb).2 (heq ▸ hin)
  · obtain ⟨key, db, hdb, heq⟩ := (hall id hid).resolve_left hin
    refine .inr ⟨List.count_eq_zero.mpr hin, key, ⟨db, hdb, heq⟩, ?_⟩
    rintro key' ⟨db', hdb', heq'⟩
    exact hapart key' key db' db hdb' hdb (heq'.trans heq.symm)

/-- What every request keeps. -/
structure Sound (s : DbaseStore) : Prop where
  own : s.Own
  typed : ∀ key db, s.find key = some db → typeDbase ∈ s.types
  accounted : s.Accounted []

theorem searchDbase_eq (htyped : ∀ key db, s.find key = some db → typeDbase ∈ s.types) : s.searchDbase = s.find := by
  funext key
  rw [searchDbase]
  by_cases htype : typeDbase ∈ s.types
  · exact if_pos htype
  · rw [if_neg htype]
    cases hfind : s.find key with
    | none => rfl
    | some db => exact absurd (htyped key db hfind) htype

theorem tagData_beside (n : Nat) (tag : Text) : s.Beside (s.tagData f n tag key) := by
  unfold tagData
  split
  · split
    · exact .refl s
    · exact ⟨rfl, rfl, rfl, rfl, rfl, id, fun _ => id⟩
  · exact .refl s

theorem tagLoop_spec (names : List Text) (n : Nat)
    (h : ∀ m, n ≤ m → m + 1 < n + names.length → f.shrink m = true) :
    ∃ s', tagLoop f key n names s = some s' ∧ s.Beside s' := by
  induction names generalizing n s with
  | nil => exact ⟨s, rfl, .refl s⟩
  | cons tag rest ih =>
    have hshrinks : ¬ (rest ≠ [] ∧ f.shrink n = false) := by
      rintro ⟨hne, hshrink⟩
      have hlen : 0 < rest.length := List.length_pos_of_ne_nil hne
      rw [h n (Nat.le_refl n) (by rw [List.length_cons]; omega)] at hshrink
      cases hshrink
    obtain ⟨s', hs', hb⟩ := @ih (s.tagData f n tag key) (n + 1)
      fun m hm hlt => h m (by omega) (by rw [List.length_cons]; omega)
    exact ⟨s', by rw [tagLoop, if_neg hshrinks, hs'], (tagData_beside n tag).trans hb⟩

theorem tagDbase_spec (htag : typeTag ∈ s.types) (hdb : typeDbase ∈ s.types)
    (hshrink : ∀ stack, tags = some stack → ∀ n, n + 1 < stack.objs.length → f.shrink n = true) :
    ∃ s', s.tagDbase f key tags = some (true, s') ∧ s.Beside s' := by
  cases tags with
  | none => exact ⟨s, rfl, .refl s⟩
  | some st =>
    obtain ⟨s', hs', hb⟩ := @tagLoop_spec s f key st.objs.reverse 0 fun m _ hlt =>
      hshrink st rfl m (by rwa [Nat.zero_add, List.length_reverse] at hlt)
    refine ⟨s', ?_, hb⟩
    rw [tagDbase, if_neg (by rw [not_or, not_not, not_not]; exact ⟨htag, hdb⟩), hs']
    rfl

/-- A request that fails leaves every entry as it was; one that succeeds has stored the values under the key. -/
def Written (s : DbaseStore) (key : Text) (values : Option DataStack) (schema : Option Text) (ok : Bool)
    (s' : DbaseStore) : Prop :=
  if ok then ∃ stack, values = some stack ∧ ∀ k, s'.find k = if k = key then some ⟨stack, schema⟩ else s.find k
  else s'.find = s.find

/-- The entry has been put, its tags have been taken from their stack, and that is destroyed. -/
theorem entered {s1 : DbaseStore} {values : DataStack} {schema : Option Text} (hown : s.Own)
    (hfind : ∀ k, s1.find k = if k = key then some ⟨values, schema⟩ else s.find k) (hs1 : s1.strings = s.strings)
    (hacc : s1.Accounted (stackIds tags)) (htypes : typeDbase ∈ s1.types) (hb : s1.Beside s') :
    (s'.destroyStack tags).Sound ∧ Written s key (some values) schema true (s'.destroyStack tags) := by
  have hown1 : s1.Own := by
    intro k v
    rw [hs1]
    exact hown k v
  have hacc' : s'.Accounted (stackIds tags ++ []) := by
    rw [List.append_nil]
    exact hacc.beside hb
  have hfind' : (s'.destroyStack tags).find = s1.find := hb.find
  refine ⟨⟨hb.own hown1, fun _ _ _ => ?_, destroyStack_accounted hacc'⟩, ?_⟩
  · change typeDbase ∈ s'.types
    rw [hb.types]
    exact htypes
  · exact ⟨values, rfl, fun k => by rw [hfind', hfind k]⟩

/-- Neither of the stacks has been handed over, and both are destroyed. -/
theorem refused (hown : s.Own) (htyped : ∀ key db, s.find key = some db → typeDbase ∈ s.types)
    (hacc : s.Accounted (stackIds stack ++ stackIds tags)) (values : Option DataStack) (schema : Option Text) :
    ((s.destroyStack stack).destroyStack tags).Sound ∧
      Written s key values schema false ((s.destroyStack stack).destroyStack tags) := by
  have hacc' : (s.destroyStack stack).Accounted (stackIds tags ++ []) := by
    rw [List.append_nil]
    exact destroyStack_accounted hacc
  exact ⟨⟨hown, htyped, destroyStack_accounted hacc'⟩, rfl⟩

/-- What is known of the store where the arguments have been read. -/
structure Ready (r : SetRun) : Prop where
  own : r.store.Own
  typed : ∀ key db, r.store.find key = some db → typeDbase ∈ r.store.types
  tag : typeTag ∈ r.store.types
  accounted : r.store.Accounted (stackIds r.stack ++ stackIds r.tags)

theorem replaceDbaseValues_spec {r : SetRun} {values : DataStack} (h : Ready r) (hdb : r.store.find key = some db)
    (hstack : r.stack = some values) (hschema : (if f.schema then r.schema else none) = r.schema)
    (hshrink : ∀ st, r.tags = some st → ∀ n, n + 1 < st.objs.length → f.shrink n = true) :
    ∃ s', r.store.replaceDbaseValues f key db r.schema r.stack r.tags = some (true, s') ∧
      (s'.destroyStack r.tags).Sound ∧ Written r.store key r.stack r.schema true (s'.destroyStack r.tags) := by
  have hacc := h.accounted
  rw [hstack] at hacc ⊢
  have hput : (r.store.putDbase key ⟨values, r.schema⟩).Accounted
      (stackIds (some db.dValues) ++ stackIds r.tags) := by
    have hput := @putDbase_accounted r.store key ⟨values, r.schema⟩ _ hacc
    rwa [hdb] at hput
  have htype : typeDbase ∈ r.store.types := h.typed key db hdb
  let s1 := (r.store.destroyStack (some db.dValues)).putDbase key ⟨values, r.schema⟩
  obtain ⟨s', hs', hb⟩ := @tagDbase_spec s1 f key r.tags h.tag htype hshrink
  refine ⟨s', ?_, @entered r.store s' key r.tags s1 values r.schema h.own (fun _ => find_putDbase) rfl
    (destroyStack_accounted hput) htype hb⟩
  rw [replaceDbaseValues, hschema]
  exact hs'

theorem storeKv_spec {r : SetRun} {values : DataStack} (h : Ready r) (hnone : r.store.find key = none)
    (hstack : r.stack = some values) (hschema : (if f.schema then r.schema else none) = r.schema)
    (hfresh : f.record = true ∧ f.key = true)
    (hshrink : ∀ st, r.tags = some st → ∀ n, n + 1 < st.objs.length → f.shrink n = true) :
    ∃ ok s', r.store.storeKv f key r.schema r.stack r.tags = some (ok, s') ∧
      let s1 := if ok then s'.destroyStack r.tags else (s'.destroyStack r.stack).destroyStack r.tags
      s1.Sound ∧ Written r.store key r.stack r.schema ok s1 := by
  have hacc := h.accounted
  rw [hstack] at hacc ⊢
  have hrecord : ¬ (¬ f.record = true ∨ ¬ f.key = true) := by
    rw [not_or, not_not, not_not]
    exact hfresh
  rw [storeKv]
  dsimp only
  rw [if_neg hrecord]
  split
  · exact ⟨false, r.store, rfl, refused h.own h.typed hacc _ _⟩
  · have htypes : typeDbase ∈ (if typeDbase ∈ r.store.types then r.store.types else typeDbase :: r.store.types) := by
      split
      · assumption
      · exact List.mem_cons_self
    have htag : typeTag ∈ (if typeDbase ∈ r.store.types then r.store.types else typeDbase :: r.store.types) := by
      split
      · exact h.tag
      · exact List.mem_cons_of_mem _ h.tag
    generalize (if typeDbase ∈ r.store.types then r.store.types else typeDbase :: r.store.types) = types
      at htypes htag
    split
    · refine ⟨false, _, rfl, ?_⟩
      exact @refused { r.store with types := types } key (some values) r.tags h.own (fun _ _ _ => htypes)
        (hacc.congr rfl rfl rfl) _ _
    · rw [hschema]
      have hput := @putDbase_accounted r.store key ⟨values, r.schema⟩ _ hacc
      rw [hnone] at hput
      let s1 := ({ r.store with types := types } : DbaseStore).putDbase key ⟨values, r.schema⟩
      obtain ⟨s', hs', hb⟩ := @tagDbase_spec s1 f key r.tags htag htypes hshrink
      refine ⟨true, s', hs', ?_⟩
      exact @entered r.store s' key r.tags s1 values r.schema h.own (fun _ => find_putDbase) rfl
        (hput.congr rfl rfl rfl) htypes hb

end DbaseStore

end Katcp
