import Katcp.DbaseKept

namespace Katcp

namespace DbaseStore

variable {s s' : DbaseStore} {f : SetSteps} {key : Text} {db : Dbase} {args : Words} {r : SetRun}

theorem writeDbase_spec (h : Ready r) (hschema : (if f.schema then r.schema else none) = r.schema)
    (hfresh : r.store.find key = none → f.record = true ∧ f.key = true)
    (hshrink : ∀ st, r.tags = some st → ∀ n, n + 1 < st.objs.length → f.shrink n = true) :
    ∃ ok s', writeDbase f key r = some (ok, s') ∧ s'.Sound ∧ Written r.store key r.stack r.schema ok s' := by
  rw [writeDbase, searchDbase_eq h.typed]
  cases hstack : r.stack with
  | none =>
    refine ⟨false, (r.store.destroyStack none).destroyStack r.tags, ?_, ?_⟩
    · cases r.store.find key <;> rfl
    · have hacc := h.accounted
      rw [hstack] at hacc
      exact refused h.own h.typed hacc _ _
  | some values =>
    rw [← hstack]
    cases hfind : r.store.find key with
    | some db =>
      obtain ⟨s', hs', hsound, hwritten⟩ := replaceDbaseValues_spec h hfind hstack hschema hshrink
      refine ⟨true, s'.destroyStack r.tags, ?_, hsound, hwritten⟩
      dsimp only
      rw [hs']
      rfl
    | none =>
      obtain ⟨ok, s', hs', hkept⟩ := storeKv_spec h hfind hstack hschema (hfresh hfind) hshrink
      dsimp only
      rw [hs']
      cases ok with
      | false => exact ⟨false, _, rfl, hkept⟩
      | true => exact ⟨true, _, rfl, hkept⟩

/-- What `set_dbase_katcp` comes to. -/
def Set (s : DbaseStore) (args : Words) (ok : Bool) (s' : DbaseStore) : Prop :=
  if ok then ∃ key id, argString args 1 = some key ∧
    ∀ k, s'.find k =
      if k = key then some ⟨⟨id, (setPlan args).values.map Prod.fst⟩, (setPlan args).schema⟩ else s.find k
  else s'.find = s.find

theorem createStack_fst (succeeds : Bool) :
    (s.createStack succeeds).1 = if succeeds then some ⟨s.made, []⟩ else none := by
  cases succeeds <;> rfl

theorem createStack_find (succeeds : Bool) : (s.createStack succeeds).2.find = s.find := by
  cases succeeds <;> rfl

theorem createStack_strings (succeeds : Bool) : (s.createStack succeeds).2.strings = s.strings := by
  cases succeeds <;> rfl

theorem createStack_types (succeeds : Bool) : (s.createStack succeeds).2.types = s.types := by
  cases succeeds <;> rfl

/-- The two stacks of a request have been created, as far as they could be. -/
structure Opened (s : DbaseStore) (f : SetSteps) (stack tags : Option DataStack) (s' : DbaseStore) : Prop where
  created : stack = if f.stack then some ⟨s.made, []⟩ else none
  untagged : ∀ st, tags = some st → st.objs = []
  find : s'.find = s.find
  strings : s'.strings = s.strings
  types : s'.types = s.types
  accounted : s'.Accounted (stackIds stack ++ stackIds tags)

theorem createStack_opened (h : s.Accounted []) (f : SetSteps) :
    Opened s f (s.createStack f.stack).1 ((s.createStack f.stack).2.createStack f.tags).1
      ((s.createStack f.stack).2.createStack f.tags).2 := by
  have hfirst : (s.createStack f.stack).2.Accounted (stackIds (s.createStack f.stack).1) :=
    createStack_accounted h f.stack
  refine ⟨createStack_fst f.stack, ?_, (createStack_find f.tags).trans (createStack_find f.stack),
    (createStack_strings f.tags).trans (createStack_strings f.stack),
    (createStack_types f.tags).trans (createStack_types f.stack), createStack_accounted hfirst f.tags⟩
  intro st hst
  rw [createStack_fst] at hst
  cases htags : f.tags with
  | false =>
    rw [htags] at hst
    cases hst
  | true =>
    rw [htags] at hst
    cases hst
    rfl

section

variable {stack tags : Option DataStack} {s2 : DbaseStore} {p : SetPlan}

theorem Opened.own (h : Opened s f stack tags s2) (hs : s.Sound) : s2.Own := by
  intro k v
  rw [h.strings]
  exact hs.own k v

theorem Opened.typed (h : Opened s f stack tags s2) (hs : s.Sound) :
    ∀ key db, s2.find key = some db → typeDbase ∈ s2.types := by
  rw [h.find, h.types]
  exact hs.typed

theorem Opened.isSome (h : Opened s f stack tags s2) : stack.isSome = f.stack := by
  rw [h.created]
  cases f.stack <;> rfl

theorem stackIds_push (st : Option DataStack) (more : List Text) : stackIds (st.map (·.push more)) = stackIds st := by
  cases st <;> rfl

theorem Opened.ready (h : Opened s f stack tags s2) (hs : s.Sound) (htag : typeTag ∈ s.types)
    (hf : SetRun.Filled ⟨.pre, none, stack, tags, s2⟩ r p) : Ready r := by
  obtain ⟨more, hmore, -⟩ := hf.tags
  refine ⟨hf.beside.own (h.own hs), ?_, ?_, ?_⟩
  · rw [hf.beside.find, hf.beside.types]
    exact h.typed hs
  · rw [hf.beside.types, h.types]
    exact htag
  · rw [hf.stack, hmore, stackIds_push, stackIds_push]
    exact h.accounted.beside hf.beside

theorem Opened.shrinks (h : Opened s f stack tags s2) (hf : SetRun.Filled ⟨.pre, none, stack, tags, s2⟩ r p)
    (hshrink : ∀ n, n + 1 < p.tags.length → f.shrink n = true) :
    ∀ st, r.tags = some st → ∀ n, n + 1 < st.objs.length → f.shrink n = true := by
  obtain ⟨more, hmore, hlen⟩ := hf.tags
  intro st hst n hn
  refine hshrink n (Nat.lt_of_lt_of_le hn ?_)
  rw [hmore] at hst
  obtain ⟨first, hfirst, rfl⟩ := Option.map_eq_some_iff.mp hst
  rw [DataStack.push, h.untagged first hfirst, List.nil_append]
  exact hlen

/-- The request has read all its arguments and goes on to write. -/
theorem Opened.write (h : Opened s f stack tags s2) (hs : s.Sound) (htag : typeTag ∈ s.types)
    (hf : SetRun.Filled ⟨.pre, none, stack, tags, s2⟩ r (setPlan args)) (hkept : SetKept s f args)
    (hkey : argString args 1 = some key) :
    ∃ ok s', writeDbase f key r = some (ok, s') ∧ s'.Sound ∧ Set s args ok s' := by
  have hplan : r.schema = (setPlan args).schema := hf.schema.trans Option.or_none
  have hsame : (if f.schema then r.schema else none) = r.schema := by
    rw [hplan]
    cases hname : (setPlan args).schema with
    | none => exact ite_self _
    | some name => rw [hkept.schema (by rw [hname]; rfl), if_pos rfl]
  have hfind : r.store.find = s.find := hf.beside.find.trans h.find
  have hfresh : r.store.find key = none → f.record = true ∧ f.key = true := by
    intro hnone
    refine hkept.fresh ?_
    rw [hkey, Option.bind_some, searchDbase_eq hs.typed, ← hfind]
    exact hnone
  obtain ⟨ok, s', hs', hsound, hwritten⟩ :=
    writeDbase_spec (h.ready hs htag hf) hsame hfresh (h.shrinks hf hkept.shrink)
  refine ⟨ok, s', hs', hsound, ?_⟩
  cases ok with
  | false => exact hwritten.trans hfind
  | true =>
    obtain ⟨st, hst, hput⟩ := hwritten
    rw [hf.stack, h.created] at hst
    cases hstack : f.stack with
    | false =>
      rw [hstack] at hst
      cases hst
    | true =>
      rw [hstack] at hst
      cases hst
      refine ⟨key, s.made, hkey, fun k => ?_⟩
      rw [hput k, hplan, hfind]
      rfl

end

theorem setDbase_spec (hs : s.Sound) (h : SetKept s f args) :
    ∃ ok s', s.setDbase f args = some (ok, s') ∧ s'.Sound ∧ Set s args ok s' := by
  rw [setDbase]
  cases hkey : argString args 1 with
  | none => exact ⟨false, s, rfl, hs, rfl⟩
  | some key =>
    dsimp only
    split
    · exact ⟨false, s, rfl, hs, rfl⟩
    next htypes =>
      rw [not_or, not_not, not_not] at htypes
      have hopened := createStack_opened hs.accounted f
      generalize s.createStack f.stack = first at hopened
      obtain ⟨stack, s1⟩ := first
      dsimp only at hopened ⊢
      generalize s1.createStack f.tags = second at hopened
      obtain ⟨tags, s2⟩ := second
      dsimp only at hopened ⊢
      have hvalues : ValuesKept f s2.Known (setPlan args).values :=
        h.values.mono fun t ht => by rwa [Known, hopened.strings]
      rcases SetRun.readArgs_spec (r := ⟨.pre, none, stack, tags, s2⟩) rfl rfl (hopened.own hs) hopened.isSome hvalues
        h.tags with ⟨s3, hread, hb⟩ | ⟨r, hread, hfilled⟩
      · have htyped : ∀ k o, s3.find k = some o → typeDbase ∈ s3.types := by
          rw [hb.find, hb.types]
          exact hopened.typed hs
        have hrefused := @refused s3 key stack tags (hb.own (hopened.own hs)) htyped
          (hopened.accounted.beside hb) none none
        exact ⟨false, _, by rw [hread], hrefused.1, hrefused.2.trans (hb.find.trans hopened.find)⟩
      · obtain ⟨ok, s', hs', hset⟩ := hopened.write hs htypes.2 hfilled h hkey
        exact ⟨ok, s', by rw [hread]; exact hs', hset⟩

theorem getAnswer_done {prx : Parse} {words : List Text} (hb : Building prx words) (hdone : prx.pState = .done) :
    getAnswer (some prx) = some (.own words) := by
  have htexts : prx.args.map Arg.text = words := by
    rw [hb.texts, List.map_map]
    exact List.map_id _
  rw [getAnswer, if_pos hdone, htexts]

theorem addBuffer_next {p : Parse} {words : List Text} (hb : Building p words) (hne : words ≠ [])
    (hstate : p.pState = .fake) (last : Bool) (text : Text) :
    ∃ q, addBuffer p false last text = some q ∧ Building q (words ++ [text]) ∧
      q.pState = if last then .done else .fake :=
  addBuffer_building hb (fun h => by cases h) (fun _ => ⟨hne, hstate⟩) last text

def headWords : List Text := [textOf "!get", textOf "ok"]

theorem getHead_spec : ∃ p1 prx, addBuffer createParse true false (textOf "!get") = some p1 ∧
    addBuffer p1 false false (textOf "ok") = some prx ∧ Building prx headWords ∧ prx.pState = .fake := by
  have hfirst : (true : Bool) = true → ([] : List Text) = [] ∧ createParse.pState = .fresh := fun _ => ⟨rfl, rfl⟩
  obtain ⟨p1, h1, hb1, hs1⟩ := addBuffer_building createParse_building hfirst (fun h => by cases h) false
    (textOf "!get")
  obtain ⟨prx, h2, hb2, hs2⟩ := addBuffer_next hb1 (List.cons_ne_nil _ _) hs1 false (textOf "ok")
  exact ⟨p1, prx, h1, h2, hb2, hs2⟩

theorem addIndexed_spec {prx : Parse} {n : Nat} (hb : Building prx headWords) (hstate : prx.pState = .fake)
    (hheld : db.dValues.id ∉ s.freed) (hn : n ≠ 0) :
    (s.addIndexed prx db n).bind getAnswer = some (db.value.answer n) := by
  have hanswer : db.value.answer n =
      db.value.values[n - 1]?.elim .fail fun t => .own [textOf "!get", textOf "ok", t] := if_neg hn
  rw [addIndexed, if_neg hheld, hanswer]
  by_cases hlen : db.dValues.objs.length < n
  · have hnone : db.value.values[n - 1]? = none :=
      List.getElem?_eq_none (show db.dValues.objs.length ≤ n - 1 by omega)
    rw [if_pos hlen, hnone]
    rfl
  · have hlt : n - 1 < db.dValues.objs.length := by omega
    have hsome : db.dValues.objs[n - 1]? = some db.dValues.objs[n - 1] := List.getElem?_eq_getElem hlt
    have hvalue : db.value.values[n - 1]? = some db.dValues.objs[n - 1] := hsome
    obtain ⟨q, hq, hbq, hsq⟩ := addBuffer_next hb (List.cons_ne_nil _ _) hstate true db.dValues.objs[n - 1]
    rw [if_neg hlen, if_neg hn, hvalue, hsome, Option.getD_some, hq]
    exact getAnswer_done hbq hsq

theorem addValues_spec {prx : Parse} {words : List Text} (values : List Text) (hb : Building prx words)
    (hstate : prx.pState = .fake) (hwords : words ≠ []) (hne : values ≠ []) :
    ∃ q, addValues prx values = some q ∧ Building q (words ++ values) ∧ q.pState = .done := by
  induction values generalizing prx words with
  | nil => exact absurd rfl hne
  | cons rtn rest ih =>
    obtain ⟨q, hq, hbq, hsq⟩ := addBuffer_next hb hwords hstate (decide (rest = [])) rtn
    rw [addValues, hq, Option.bind_some]
    by_cases hlast : rest = []
    · subst hlast
      exact ⟨q, rfl, hbq, hsq⟩
    · rw [decide_eq_false hlast] at hsq
      obtain ⟨q', hq', hb', hs'⟩ := ih hbq hsq (by simp) hlast
      rw [List.append_assoc] at hb'
      exact ⟨q', hq', hb', hs'⟩

/-- A get is answered of what is stored. -/
theorem getCmd_spec {stored : Text → Option DbaseValue} (hs : s.Sound) (hkept : GetKept s args)
    (hstored : ∀ key, (s.find key).map Dbase.value = stored key) :
    s.getCmd args = some (answerOf stored s.dicts args) := by
  have hbind : (argString args 1).bind stored = ((argString args 1).bind s.find).map Dbase.value := by
    cases argString args 1 with
    | none => rfl
    | some key => exact (hstored key).symm
  rw [getCmd, answerOf, hbind]
  split
  next hfew =>
    have hnone : argString args 1 = none := by
      rw [argString, List.getElem?_eq_none (by omega)]
      rfl
    rw [hnone]
    rfl
  next =>
    rw [getDbase, searchDbase_eq hs.typed]
    cases hdb : (argString args 1).bind s.find with
    | none => rfl
    | some db =>
      have hheld : db.dValues.id ∉ s.freed := by
        obtain ⟨key, -, hfind⟩ := Option.bind_eq_some_iff.mp hdb
        have hnot := (hs.accounted.held key db hfind).2
        rwa [List.append_nil] at hnot
      obtain ⟨p1, prx, h1, h2, hb, hstate⟩ := getHead_spec
      simp only [h1, h2, Option.bind_eq_bind, Option.bind_some, Option.map_some]
      cases hitem : getItem args with
      | index n =>
        have hn : n ≠ 0 := by
          rw [getItem] at hitem
          split at hitem
          next hpos =>
            cases hitem
            omega
          next =>
            split at hitem
            · cases hitem
            · split at hitem <;> cases hitem
        exact addIndexed_spec hb hstate hheld hn
      | all =>
        obtain ⟨q, hq, hbq, hsq⟩ := addValues_spec db.dValues.objs hb hstate (List.cons_ne_nil _ _)
          (hkept.all db hdb hitem)
        dsimp only
        rw [if_neg hheld, hq]
        exact getAnswer_done hbq hsq
      | schema skey =>
        have htext : s.schemaText db skey = (db.value.schema.bind fun name => KeyedList.find strcmp name s.dicts).bind
          fun dt => KeyedList.find strcmp skey dt := rfl
        dsimp only
        rw [← htext]
        cases hrtn : s.schemaText db skey with
        | none => rfl
        | some rtn => exact addIndexed_spec hb hstate hheld (hkept.schema db skey rtn hdb hitem hrtn)

end DbaseStore

theorem lastSet_append (log more : List (DbaseRequest × DbaseAnswer)) (key : Text) :
    lastSet (log ++ more) key = (lastSet more key).or (lastSet log key) := by
  induction log with
  | nil => exact (Option.or_none).symm
  | cons e log ih =>
    obtain ⟨r, answer⟩ := e
    cases r <;> cases answer <;> simp only [List.cons_append, lastSet, ih, Option.or_assoc]

namespace DbaseStore

variable {s s' : DbaseStore} {f : SetSteps} {args : Words} {answer : DbaseAnswer}

theorem keepStrings_own (h : s.Own) (texts : List Text) : (s.keepStrings texts).Own := by
  obtain ⟨types, strings, tags, entries, dicts, made, freed⟩ := s
  induction texts generalizing strings with
  | nil => exact h
  | cons t texts ih =>
    obtain ⟨data, tree, hsearch, hown, -⟩ := @searchType_own t true true _ h
    have hsearch : searchType t (some t) true strings = (data, tree) := hsearch
    have hnext := ih tree hown
    rw [keepStrings] at hnext ⊢
    rw [List.foldl_cons, hsearch]
    exact hnext

/-- What a set comes to, whether it succeeds or not. -/
structure SetServed (s : DbaseStore) (args : Words) (answer : DbaseAnswer) (s' : DbaseStore) : Prop where
  failed : answer ≠ .ok → s'.find = s.find
  stored : answer = .ok → ∃ key, argString args 1 = some key ∧
    (s'.find key).map Dbase.value = some (setPlan args).value ∧ ∀ k, k ≠ key → s'.find k = s.find k

theorem setCmd_spec (hs : s.Sound) (h : (DbaseRequest.set f args).Kept s) :
    ∃ answer s', s.setCmd f args = some (answer, s') ∧ s'.Sound ∧ SetServed s args answer s' := by
  rw [setCmd]
  split
  next => exact ⟨.fail, s, rfl, hs, fun _ => rfl, fun h => by cases h⟩
  next hmany =>
    obtain ⟨ok, s', hs', hsound, hset⟩ := setDbase_spec hs (h (Nat.le_of_not_lt hmany))
    rw [hs']
    cases ok with
    | false => exact ⟨.fail, s', rfl, hsound, fun _ => hset, fun h => by cases h⟩
    | true =>
      obtain ⟨key, id, hkey, hput⟩ := hset
      refine ⟨.ok, s', rfl, hsound, fun h => absurd rfl h, fun _ => ⟨key, hkey, ?_, fun k hk => ?_⟩⟩
      · rw [hput key, if_pos rfl]
        rfl
      · rw [hput k, if_neg hk]

/-- What holds after every run: what is stored is what was set last. -/
structure Served (s : DbaseStore) (log : List (DbaseRequest × DbaseAnswer)) : Prop where
  sound : s.Sound
  stored : ∀ key, (s.find key).map Dbase.value = lastSet log key

theorem start_served (types : List Text) : Served (.start types) [] := by
  have hnone : ∀ key db, (start types).find key ≠ some db := fun _ _ h => by cases h
  have hown : (start types).Own := by
    intro k v h
    cases h
  refine ⟨⟨hown, fun key db h => absurd h (hnone key db), ?_⟩, fun _ => rfl⟩
  exact ⟨fun _ h => absurd h (Nat.not_lt_zero _), fun _ h => absurd h List.not_mem_nil, List.nodup_nil,
    fun key db h => absurd h (hnone key db), fun key _ db _ h => absurd h (hnone key db)⟩

variable {log : List (DbaseRequest × DbaseAnswer)} {r : DbaseRequest}

theorem SetServed.served (h : SetServed s args answer s') (hs : s'.Sound) (hserved : Served s log) :
    Served s' (log ++ [(.set f args, answer)]) := by
  refine ⟨hs, fun k => ?_⟩
  rw [lastSet_append, ← hserved.stored]
  by_cases hok : answer = .ok
  · obtain ⟨key, hkey, hvalue, hother⟩ := h.stored hok
    subst hok
    rw [lastSet, lastSet, Option.none_or, hkey]
    by_cases hk : k = key
    · subst hk
      rw [if_pos rfl, hvalue]
      rfl
    · rw [if_neg (fun he => hk (Option.some.inj he).symm), hother k hk]
      rfl
  · rw [h.failed hok]
    cases answer with
    | ok => exact absurd rfl hok
    | fail => rfl
    | own => rfl

theorem serve_served (hserved : Served s log) (hkept : r.Kept s) (h : s.serve r = some (answer, s')) :
    Served s' (log ++ [(r, answer)]) := by
  cases r with
  | set f args =>
    obtain ⟨answer1, s1, hs1, hsound, hset⟩ := setCmd_spec hserved.sound hkept
    cases hs1.symm.trans h
    exact hset.served hsound hserved
  | get args =>
    obtain ⟨answer1, -, heq⟩ := Option.map_eq_some_iff.mp h
    cases heq
    refine ⟨hserved.sound, fun k => ?_⟩
    rw [lastSet_append, ← hserved.stored]
    rfl
  | dicts dicts texts =>
    cases h
    obtain ⟨hown, htyped, haccounted⟩ := hserved.sound
    refine ⟨⟨keepStrings_own hown texts, htyped, haccounted.congr rfl rfl rfl⟩, fun k => ?_⟩
    rw [lastSet_append]
    exact hserved.stored k

end DbaseStore

/-- Of runs in which the steps that are not checked succeed, and no entry without values or item without a number is
asked for. -/
theorem dbase_requests_kept (types : List Text) (s : DbaseStore) (log : List (DbaseRequest × DbaseAnswer))
    (h : (dbaseMachine types).Runs (fun s r => r.Kept s) s log) :
    (∀ args, GetKept s args → s.getCmd args = some (answerOf (lastSet log) s.dicts args)) ∧
    (∀ f args, (DbaseRequest.set f args).Kept s →
      ∃ answer s', s.setCmd f args = some (answer, s') ∧ s.SetServed args answer s') ∧
    s.DestroyedOnce := by
  have hserved : s.Served log := by
    refine h.invariant DbaseStore.Served (DbaseStore.start_served types) (Machine.keeps_of_act
      (fun _ _ => rfl) (fun _ _ => rfl) fun s log r s' out hs hkept hact => ?_)
    obtain ⟨⟨answer, s1⟩, hserve, heq⟩ := Option.map_eq_some_iff.mp hact
    cases heq
    exact DbaseStore.serve_served hs hkept hserve
  refine ⟨fun args hkept => DbaseStore.getCmd_spec hserved.sound hkept hserved.stored, fun f args hkept => ?_,
    hserved.sound.accounted.destroyedOnce⟩
  obtain ⟨answer, s', hs', -, hset⟩ := DbaseStore.setCmd_spec hserved.sound hkept
  exact ⟨answer, s', hs', hset⟩

/-- All the steps succeed. -/
def SetSteps.sound : SetSteps :=
  ⟨true, true, fun _ => true, fun _ => true, fun _ => true, fun _ => true, true, true, true, true, true,
    fun _ => true, fun _ => true⟩

def wordsOf (words : List String) : Words := words.map textOf

def baseTypes : List Text := [typeDbase, textOf "dict", typeString, typeTag]

theorem dbase_requests_kept_pair : ∃ s, (dbaseMachine baseTypes).step (dbaseMachine baseTypes).start
      (.set .sound (wordsOf ["?set", "a", "1", "2"])) = some s ∧
    s.getCmd (wordsOf ["?get", "a"]) = some (.own (wordsOf ["!get", "ok", "1", "2"])) ∧
    s.getCmd (wordsOf ["?get", "a", "2"]) = some (.own (wordsOf ["!get", "ok", "2"])) ∧ s.DestroyedOnce := by
  have hkept : SetKept (.start baseTypes) .sound (wordsOf ["?set", "a", "1", "2"]) :=
    ⟨⟨by decide, by decide, .inr ⟨rfl, rfl⟩, fun _ => ⟨by decide, by decide, .inr ⟨rfl, rfl⟩, fun _ => trivial⟩⟩,
      by decide, fun _ => rfl, fun _ => ⟨rfl, rfl⟩, fun _ _ => rfl⟩
  have hstep : ((dbaseMachine baseTypes).step (dbaseMachine baseTypes).start
      (.set .sound (wordsOf ["?set", "a", "1", "2"]))).isSome := by decide
  obtain ⟨s, hs⟩ := Option.isSome_iff_exists.mp hstep
  have hset : DbaseRequest.Kept (.start baseTypes) (.set .sound (wordsOf ["?set", "a", "1", "2"])) := fun _ => hkept
  obtain ⟨hget, -, honce⟩ := dbase_requests_kept baseTypes s _ (.step .start hset hs)
  have hfind : s.find (textOf "a") = some ⟨⟨0, wordsOf ["1", "2"]⟩, none⟩ := by
    cases hs
    decide
  have hall : GetKept s (wordsOf ["?get", "a"]) := by
    refine ⟨fun db hdb _ => ?_, fun db skey rtn _ hitem => ?_⟩
    · cases hfind.symm.trans hdb
      decide
    · cases hitem
  have htwo : GetKept s (wordsOf ["?get", "a", "2"]) := by
    refine ⟨fun db _ hitem => ?_, fun db skey rtn _ hitem => ?_⟩
    · cases hitem
    · cases hitem
  exact ⟨s, hs, hget _ hall, hget _ htwo, honce⟩

/-- The tags alone are set, and the server aborts when the values are asked for. -/
theorem get_of_tagged_aborts : ∃ s log, (dbaseMachine baseTypes).Runs (fun _ _ => True) s log ∧
    lastSet log (textOf "a") = some ⟨[], none⟩ ∧ s.getCmd (wordsOf ["?get", "a"]) = none := by
  have hstep : ((dbaseMachine baseTypes).step (dbaseMachine baseTypes).start
      (.set .sound (wordsOf ["?set", "a", "tags", "t"]))).map (·.getCmd (wordsOf ["?get", "a"])) = some none := by
    decide
  obtain ⟨s, hs, hget⟩ := Option.map_eq_some_iff.mp hstep
  exact ⟨s, _, .step .start trivial hs, by decide, hget⟩

end Katcp
