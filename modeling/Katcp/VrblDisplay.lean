import Katcp.VrblKeys
import Katcp.VrblTexts
import Mathlib.Data.List.Nodup

namespace Katcp

section

variable {n m k : Nat} {p key x t : Text} {s : PathStep} {ps qs : List PathStep} {rest : Option Text}

theorem takeWhile_stops {q : Byte → Bool} (h : ¬ x.head?.any q) (l : Text) :
    (l ++ x).takeWhile q = l.takeWhile q ∧ (l ++ x).dropWhile q = l.dropWhile q ++ x := by
  induction l with
  | nil =>
    cases x with
    | nil => exact ⟨rfl, rfl⟩
    | cons c x =>
      have hc : q c = false := by simpa using h
      simp [hc]
  | cons c l ih =>
    cases hc : q c with
    | false => simp [hc]
    | true => simp [hc, ih.1, ih.2]

/-- A number is read as it was with something else behind it. -/
theorem strtoul_append (ht : (strtoul t).2.length ≠ t.length) (hx : ¬ x.head?.any isDigit) :
    strtoul (t ++ x) = ((strtoul t).1, (strtoul t).2 ++ x) := by
  rw [strtoul_eq t] at ht
  split at ht
  next => exact absurd rfl ht
  next hdigits =>
    have hbody : t.dropWhile isSpace ≠ [] := by
      intro h
      rw [h] at hdigits
      exact hdigits rfl
    have happ : (t ++ x).dropWhile isSpace = t.dropWhile isSpace ++ x := by
      rw [List.dropWhile_append, if_neg (by simpa using hbody)]
    obtain ⟨c, body, hb⟩ := List.exists_cons_of_ne_nil hbody
    rw [hb] at hdigits happ
    have hsign : afterSign (c :: body ++ x) = afterSign (c :: body) ++ x := by
      simp only [afterSign, List.cons_append]
      split <;> rfl
    obtain ⟨htake, hdrop⟩ := takeWhile_stops hx (afterSign (c :: body))
    rw [strtoul_eq, strtoul_eq t, happ, hb, hsign, htake, hdrop, if_neg hdigits, if_neg hdigits]
    rfl

theorem readIndex_append {i : Nat} (h : readIndex p = some i) (hx : Follows x) : readIndex (p ++ x) = some i := by
  obtain ⟨⟨j, behind⟩, hindex, h⟩ := Option.bind_eq_some_iff.mp h
  unfold pathIndex at hindex
  dsimp only at hindex
  split at hindex
  next => cases hindex
  next hne =>
    cases hindex
    have hp : p ≠ [] := by
      rintro rfl
      exact hne rfl
    have htail : (p ++ x).tail = p.tail ++ x := List.tail_append_of_ne_nil hp
    dsimp only at h
    split at h
    next => cases h
    next halpha =>
      rw [readIndex, pathIndex, htail, strtoul_append hne hx.not_digit]
      dsimp only
      rw [if_neg (by rw [List.length_append, List.length_append]; omega), Option.bind_some]
      dsimp only
      rw [if_neg]
      · exact h
      · rw [List.head?_append]
        cases hb : (strtoul p.tail).2.head? with
        | none => exact hx.not_alpha
        | some c => rwa [hb] at halpha

section

variable (hne : x ≠ []) (hx : Follows x)

include hne hx

theorem nextElementFrom_last {i : Nat} (h : nextElementFrom p i = some 0) :
    nextElementFrom (p ++ x) i = some (i + p.length) := by
  induction p generalizing i with
  | nil =>
    rw [nextElementFrom] at h
    split at h
    next => cases h
    next hi => simp [nextElementFrom_follows hx (Nat.lt_of_not_le hi), hne]
  | cons c p ih =>
    rw [nextElementFrom] at h
    rw [List.cons_append, nextElementFrom]
    split at h
    next hd =>
      cases h
      omega
    next h1 =>
      rw [if_neg h1]
      split at h
      next => cases h
      next h2 =>
        rw [if_neg h2]
        split at h
        next => cases h
        next h3 =>
          rw [if_neg h3, ih h, List.length_cons]
          congr 1
          omega

theorem nextElementFrom_none {i : Nat} (h : nextElementFrom p i = none) (hi : 1 ≤ i + p.length) :
    nextElementFrom (p ++ x) i = none := by
  induction p generalizing i with
  | nil =>
    rw [nextElementFrom] at h
    split at h
    next hle =>
      obtain ⟨c, x, rfl⟩ := List.exists_cons_of_ne_nil hne
      have hone : i = 1 := by
        simp only [List.length_nil] at hi
        omega
      simp [nextElementFrom, hx c rfl, hone]
    next => cases h
  | cons c p ih =>
    rw [nextElementFrom] at h
    rw [List.cons_append, nextElementFrom]
    split at h
    next => cases h
    next h1 =>
      rw [if_neg h1]
      split at h
      next h2 => rw [if_pos h2]
      next h2 =>
        rw [if_neg h2]
        split at h
        next h3 => rw [if_pos h3]
        next h3 =>
          rw [if_neg h3]
          exact ih h (by omega)

end

theorem nextElementFrom_succ {i : Nat} (h : nextElementFrom p i = some (n + 1)) (x : Text) :
    nextElementFrom (p ++ x) i = some (n + 1) ∧ n + 1 < i + p.length := by
  induction p generalizing i with
  | nil =>
    rw [nextElementFrom] at h
    split at h <;> cases h
  | cons c p ih =>
    rw [nextElementFrom] at h
    rw [List.cons_append, nextElementFrom, List.length_cons]
    split at h
    next h1 =>
      cases h
      exact ⟨by rw [if_pos h1], by omega⟩
    next h1 =>
      rw [if_neg h1]
      split at h
      next => cases h
      next h2 =>
        rw [if_neg h2]
        split at h
        next => cases h
        next h3 =>
          rw [if_neg h3]
          obtain ⟨hnext, hlt⟩ := ih h
          exact ⟨hnext, by omega⟩

theorem readStep_append (hne : x ≠ []) (hx : Follows x) (h : readStep p = some (s, rest)) :
    readStep (p ++ x) = some (s, some (rest.getD [] ++ x)) := by
  obtain ⟨next, hnext, h⟩ := Option.bind_eq_some_iff.mp h
  have hp : p ≠ [] := by
    rintro rfl
    cases hnext
  have hhead : (p ++ x).head? = p.head? := by
    rw [List.head?_append]
    obtain ⟨c, p', rfl⟩ := List.exists_cons_of_ne_nil hp
    rfl
  obtain ⟨next', hnext', hone, hname, hrest⟩ : ∃ next', nextElementPath (p ++ x) = some next' ∧ next' ≠ 1 ∧
      memberName (p ++ x) next' = memberName p next ∧
      restPath (p ++ x) next' = some ((restPath p next).getD [] ++ x) := by
    cases next with
    | zero =>
      have hlast := nextElementFrom_last hne hx hnext
      rw [Nat.zero_add] at hlast
      have hlen : p.length ≠ 0 := fun h => hp (List.length_eq_zero_iff.mp h)
      refine ⟨p.length, hlast, nextElementFrom_ne_one hlast, ?_, ?_⟩
      · rw [memberName, if_neg hlen, memberName, if_pos rfl, List.tail_append_of_ne_nil hp]
        exact List.take_left' (by simp)
      · simp [restPath, hlen]
    | succ next =>
      obtain ⟨hsucc, hlt⟩ := nextElementFrom_succ hnext x
      have hn1 := nextElementFrom_ne_one hsucc
      refine ⟨next + 1, hsucc, hn1, ?_, ?_⟩
      · rw [memberName, if_neg (Nat.succ_ne_zero _), memberName, if_neg (Nat.succ_ne_zero _),
          List.tail_append_of_ne_nil hp]
        exact List.take_append_of_le_length (by rw [List.length_tail]; omega)
      · rw [restPath, if_neg (Nat.succ_ne_zero _), restPath, if_neg (Nat.succ_ne_zero _),
          List.drop_append_of_le_length (by omega)]
        rfl
  have hone' : next ≠ 1 := nextElementFrom_ne_one hnext
  rw [if_neg hone'] at h
  rw [readStep, hnext', Option.bind_some, if_neg hone, hhead]
  split at h
  next htree =>
    cases h
    rw [if_pos htree, hname, hrest]
  next htree =>
    rw [if_neg htree]
    split at h
    next harray =>
      obtain ⟨i, hi, h⟩ := Option.map_eq_some_iff.mp h
      cases h
      rw [if_pos harray, readIndex_append hi hx, hrest]
      rfl
    next => cases h

theorem readSteps_none (n : Nat) : readSteps n (some []) = readSteps n none := by
  cases n <;> rfl

/-- A path with another one behind it leads on from where it led. -/
theorem readSteps_append (hne : x ≠ []) (hx : Follows x) (h : readSteps n (some p) = some ps)
    (hq : readSteps m (some x) = some qs) (hm : x.length < m) (hk : p.length + x.length < k) :
    readSteps k (some (p ++ x)) = some (ps ++ qs) := by
  induction n generalizing p ps k with
  | zero => cases h
  | succ n ih =>
    cases p with
    | nil =>
      cases h
      rw [List.nil_append, List.nil_append, ← hq]
      exact readSteps_fuel (by simpa using hk) hm
    | cons c p =>
      obtain ⟨⟨s, rest⟩, hstep, h⟩ := Option.bind_eq_some_iff.mp h
      obtain ⟨ps, hps, h⟩ := Option.map_eq_some_iff.mp h
      cases h
      have hstep' := readStep_append hne hx hstep
      obtain ⟨k, rfl⟩ := Nat.exists_eq_succ_of_ne_zero (Nat.ne_zero_of_lt hk)
      rw [readSteps_step hstep']
      have hrest : readSteps n (some (rest.getD [])) = some ps := by
        cases rest with
        | none => rw [← hps]; exact readSteps_none n
        | some rest => exact hps
      obtain ⟨next, hnext, hr⟩ := readStep_rest hstep
      have hlt := restPath_length hnext
      rw [← hr] at hlt
      rw [ih hrest (by simp only [List.length_cons] at hk hlt; omega)]
      rfl

/-- A variable's name, or a name with a path, behind which a path is found again. -/
def KeyLeads (key : Text) : Prop :=
  key = [] ∨ key.head?.any isDelim ∨ (nextElementPath key).isSome

theorem inferTypePath_isSome (key : Text) : (inferTypePath (some key)).isSome = key.head?.any isDelim := by
  cases key with
  | nil => rfl
  | cons c key =>
    have hne : delimArray ≠ delimTree := by decide
    simp only [inferTypePath, Option.bind_some, List.head?_cons, Option.any_some, isDelim]
    by_cases htree : c = delimTree
    · simp [htree]
    · by_cases harray : c = delimArray
      · simp [harray, hne]
      · simp [htree, harray]

theorem head?_append_of_ne_nil (hne : key ≠ []) (x : Text) : (key ++ x).head? = key.head? := by
  obtain ⟨c, key, rfl⟩ := List.exists_cons_of_ne_nil hne
  rfl

/-- The path behind a key that leads on is the key's own path with it. -/
theorem pathSuffix_append (hne : x ≠ []) (hx : Follows x) (h : KeyLeads key) :
    pathSuffix (some (key ++ x)) = some ((pathSuffix (some key)).getD [] ++ x) := by
  by_cases hkey : key = []
  · subst hkey
    have hdelim : (inferTypePath (some x)).isSome := by
      rw [inferTypePath_isSome]
      obtain ⟨c, x, rfl⟩ := List.exists_cons_of_ne_nil hne
      exact hx c rfl
    rw [List.nil_append, pathSuffix, if_pos hdelim]
    rfl
  · have hinfer : (inferTypePath (some (key ++ x))).isSome = (inferTypePath (some key)).isSome := by
      rw [inferTypePath_isSome, inferTypePath_isSome, head?_append_of_ne_nil hkey]
    by_cases hdelim : (inferTypePath (some key)).isSome = true
    · rw [pathSuffix, if_pos (hinfer.trans hdelim), pathSuffix, if_pos hdelim]
      rfl
    · rw [inferTypePath_isSome] at hdelim
      obtain ⟨next, hnext⟩ := Option.isSome_iff_exists.mp ((h.resolve_left hkey).resolve_left hdelim)
      rw [← inferTypePath_isSome] at hdelim
      rw [pathSuffix, if_neg (by rw [hinfer]; exact hdelim), pathSuffix, if_neg hdelim, hnext]
      have hlen : 0 < key.length := List.length_pos_iff.mpr hkey
      cases next with
      | zero =>
        have hlast := nextElementFrom_last hne hx hnext
        rw [Nat.zero_add] at hlast
        rw [nextElementPath, hlast]
        simp [hlen]
      | succ next =>
        obtain ⟨hsucc, hlt⟩ := nextElementFrom_succ hnext x
        rw [nextElementPath, hsucc]
        dsimp only
        rw [if_pos (Nat.succ_pos _), if_pos (Nat.succ_pos _), List.drop_append_of_le_length (by omega)]
        rfl

/-- A key that does not lead on stands for the whole variable, whatever is behind it. -/
theorem pathSuffix_lost (hne : x ≠ []) (hx : Follows x) (h : ¬ KeyLeads key) :
    pathSuffix (some key) = none ∧ pathSuffix (some (key ++ x)) = none := by
  rw [KeyLeads, not_or, not_or, Option.not_isSome_iff_eq_none] at h
  obtain ⟨hkey, hdelim, hnext⟩ := h
  have hnone : ¬ (inferTypePath (some key)).isSome := by rwa [inferTypePath_isSome]
  have hnone' : ¬ (inferTypePath (some (key ++ x))).isSome := by
    rwa [inferTypePath_isSome, head?_append_of_ne_nil hkey]
  have hlen : 0 < key.length := List.length_pos_iff.mpr hkey
  have hnext' := nextElementFrom_none hne hx hnext (by omega)
  refine ⟨?_, ?_⟩
  · rw [pathSuffix, if_neg hnone, hnext]
  · rw [pathSuffix, if_neg hnone', nextElementPath, hnext']

end

section

variable {vx : Vrbl} {py : Payload} {key t : Text} {s s' : PathStep} {ps qs ps0 : List PathStep}

/-- The leaves of a payload that hold a text, each once, in the order of keys and indices. -/
structure ListsLeaves (py : Payload) (ls : List (List PathStep × Text)) : Prop where
  each : ∀ ps t, (ps, t) ∈ ls ↔ py.reach ps = some (.string (some t))
  ordered : ls.Pairwise fun a b => Precedes a.1 b.1

/-- What a listing under a key has to be: read back, the keys that it gives are the positions
of the leaves, each of which is found there again, and it fails only for a leaf without a text. -/
structure ListingAgrees (vx : Vrbl) (py : Payload) (key : Text) (ps0 : List PathStep) : Prop where
  listed : ∃ ls, ListsLeaves py ls ∧ (foreachPayload py key).1.map (fun e => (pathSteps (some e.1), e.2)) =
    ls.map fun l => (some (ps0 ++ l.1), l.2)
  found : ∀ e ∈ (foreachPayload py key).1, findPayload vx (some e.1) = some (.string (some e.2))
  whole : (foreachPayload py key).2 = true ↔ ∀ ps, py.reach ps ≠ some (.string none)

theorem PathStep.Before.asymm (h : s.Before s') : ¬ s'.Before s := by
  cases s <;> cases s' <;> simp only [PathStep.Before] at h ⊢
  · exact fun h' => (h.trans h').ne rfl
  · exact Nat.lt_asymm h

theorem Precedes.asymm (h : Precedes ps qs) : ¬ Precedes qs ps := by
  induction h with
  | here h =>
    intro h'
    cases h' with
    | here h' => exact h.asymm h'
    | there _ => exact h.asymm h
  | there h ih =>
    intro h'
    cases h' with
    | here h' => exact h'.asymm h'
    | there h' => exact ih h'

theorem ListsLeaves.nodup {ls : List (List PathStep × Text)} (h : ListsLeaves py ls) : ls.Nodup :=
  h.ordered.imp fun hp he => (he ▸ hp).asymm (he ▸ hp)

theorem ListsLeaves.unique {ls ls' : List (List PathStep × Text)} (h : ListsLeaves py ls)
    (h' : ListsLeaves py ls') : ls = ls' := by
  have hperm : ls.Perm ls' := (List.perm_ext_iff_of_nodup h.nodup h'.nodup).mpr fun ⟨ps, t⟩ =>
    (h.each ps t).trans (h'.each ps t).symm
  refine hperm.eq_of_pairwise (fun a b _ _ hab hba => absurd hba hab.asymm) h.ordered h'.ordered

theorem lists_leaves (h : py.Built) : ListsLeaves py py.leaves :=
  ⟨fun _ _ => Payload.mem_leaves h, Payload.leaves_ordered h⟩

theorem reach_append (h : py.reach ps0 = some c) (qs : List PathStep) : py.reach (ps0 ++ qs) = c.reach qs := by
  induction ps0 generalizing py with
  | nil =>
    cases h
    rfl
  | cons s ps0 ih =>
    obtain ⟨d, hd, h⟩ := Option.bind_eq_some_iff.mp h
    rw [List.cons_append, Payload.reach, hd, Option.bind_some]
    exact ih h

theorem plain_of_reach (h : py.Built) {d : Payload} (hr : py.reach ps = some d) : ∀ s ∈ ps, s.Plain := by
  induction h generalizing ps with
  | @intro py hord hplain _ ih =>
    cases ps with
    | nil => intro s hs; cases hs
    | cons s ps =>
      obtain ⟨c, hc, hr⟩ := Option.bind_eq_some_iff.mp hr
      have hmem := (Payload.mem_children hord).mpr hc
      intro s' hs
      rcases List.mem_cons.mp hs with rfl | hs
      · exact hplain _ hmem
      · exact ih _ hmem hr s' hs

theorem text_ne_nil (hne : ps ≠ []) : ps.flatMap PathStep.text ≠ [] := by
  obtain ⟨s, ps, rfl⟩ := List.exists_cons_of_ne_nil hne
  obtain ⟨d, text, hs, _⟩ := text_head s
  rw [List.flatMap_cons, hs]
  exact List.cons_ne_nil _ _

theorem pathSteps_written (hkey : pathSteps (some key) = some ps0) (hplain : ∀ s ∈ ps, s.Plain)
    (hne : ps ≠ []) (hlead : KeyLeads key) :
    pathSteps (some (key ++ ps.flatMap PathStep.text)) = some (ps0 ++ ps.map PathStep.reread) := by
  have hx := follows_text ps
  have hw := text_ne_nil hne
  have hread : readSteps (pathFuel (pathSuffix (some key))) (some ((pathSuffix (some key)).getD [])) = some ps0 := by
    rw [← hkey, pathSteps]
    cases pathSuffix (some key) with
    | none => exact readSteps_none _
    | some p => rfl
  rw [pathSteps, pathSuffix_append hw hx hlead]
  refine readSteps_append hw hx hread (readSteps_written hplain (Nat.lt_succ_self _)) (Nat.lt_succ_self _) ?_
  rw [pathFuel, Option.getD_some, List.length_append]
  exact Nat.lt_succ_self _

theorem pathSteps_lost (hne : ps ≠ []) (hlead : ¬ KeyLeads key) : pathSteps (some key) = some [] ∧
    pathSteps (some (key ++ ps.flatMap PathStep.text)) = some [] := by
  obtain ⟨hkey, hall⟩ := pathSuffix_lost (text_ne_nil hne) (follows_text ps) hlead
  rw [pathSteps, hkey, pathSteps, hall]
  exact ⟨rfl, rfl⟩

theorem foreachMembers_whole (m : List (Text × Payload)) (key : Text) :
    (foreachMembers m (key ++ [delimTree])).2 =
      (m.map fun e => (PathStep.member e.1, e.2)).all fun e => (foreachPayload e.2 (key ++ e.1.text)).2 := by
  induction m with
  | nil => rfl
  | cons e m ih =>
    rw [foreachMembers, List.map_cons, List.all_cons, ← ih]
    simp [PathStep.text]

theorem foreachElements_whole (es : List (Option Payload)) (key : Text) (i : Nat) :
    (foreachElements es (key ++ [delimArray]) i).2 =
      (elementsFrom es i).all fun e => (foreachPayload e.2 (key ++ e.1.text)).2 := by
  induction es generalizing i with
  | nil => rfl
  | cons e es ih =>
    cases e with
    | none => rw [foreachElements, ih, elementsFrom]
    | some py =>
      rw [foreachElements, elementsFrom, List.all_cons, ← ih]
      simp [PathStep.text]

/-- A listing fails for a leaf without a text, and only then. -/
theorem foreachPayload_whole (h : py.Built) (key : Text) :
    (foreachPayload py key).2 = true ↔ ∀ ps, py.reach ps ≠ some (.string none) := by
  induction h generalizing key with
  | @intro py hord _ _ ih =>
    have hbelow : (py.children.all fun e => (foreachPayload e.2 (key ++ e.1.text)).2) = true ↔
        ∀ s ps, py.reach (s :: ps) ≠ some (.string none) := by
      rw [List.all_eq_true]
      constructor
      · intro hall s ps hr
        obtain ⟨c, hc, hr⟩ := Option.bind_eq_some_iff.mp hr
        have hmem := (Payload.mem_children hord).mpr hc
        exact (ih _ hmem _).mp (hall _ hmem) ps hr
      · rintro hall ⟨s, c⟩ hmem
        refine (ih _ hmem _).mpr fun ps hr => hall s ps ?_
        rw [Payload.reach, (Payload.mem_children hord).mp hmem]
        exact hr
    have hsplit : (∀ ps, py.reach ps ≠ some (.string none)) ↔
        py.reach [] ≠ some (.string none) ∧ ∀ s ps, py.reach (s :: ps) ≠ some (.string none) :=
      ⟨fun h => ⟨h [], fun s ps => h (s :: ps)⟩, fun h ps => by cases ps with
        | nil => exact h.1
        | cons s ps => exact h.2 s ps⟩
    rw [hsplit, ← hbelow]
    cases py with
    | string u => cases u <;> simp [foreachPayload, Payload.reach, Payload.children]
    | tree m =>
      rw [foreachPayload, foreachMembers_whole]
      simp [Payload.reach, Payload.children]
    | array es =>
      rw [foreachPayload, foreachElements_whole]
      simp [Payload.reach, Payload.children]

/-- What is listed under a key is found again, as the same leaf, if and only if the key leads
on to a path where there is one, and no index on the way to a leaf has more than nine digits. -/
theorem listing_agrees_iff (hbuilt : py.Built) (hkey : pathSteps (some key) = some ps0)
    (hpy : vx.vPayload.reach ps0 = some py) : ListingAgrees vx py key ps0 ↔
      ∀ ps t, py.reach ps = some (.string (some t)) →
        (ps ≠ [] → KeyLeads key) ∧ ∀ i, .element i ∈ ps → i < 10 ^ 9 := by
  have heq := Payload.foreachPayload_eq hbuilt key
  constructor
  · intro h ps t hleaf
    obtain ⟨ls, hls, hmap⟩ := h.listed
    rw [hls.unique (lists_leaves hbuilt), heq, List.map_map] at hmap
    have hpos := List.map_inj_left.mp hmap (ps, t) ((Payload.mem_leaves hbuilt).mpr hleaf)
    simp only [Function.comp_apply, Prod.mk.injEq, and_true] at hpos
    by_cases hne : ps = []
    · subst hne
      exact ⟨fun h => absurd rfl h, fun i hi => by cases hi⟩
    · have hlead : KeyLeads key := by
        by_contra hlost
        obtain ⟨h0, h1⟩ : _ ∧ pathSteps (some (key ++ ps.flatMap PathStep.text)) = some [] := pathSteps_lost hne hlost
        rw [h1, Option.some.injEq] at hpos
        rw [h0, Option.some.injEq] at hkey
        rw [← hkey, List.nil_append] at hpos
        exact hne hpos.symm
      refine ⟨fun _ => hlead, ?_⟩
      rw [pathSteps_written hkey (plain_of_reach hbuilt hleaf) hne hlead, Option.some.injEq] at hpos
      exact (reread_eq_iff ps).mp (List.append_cancel_left hpos)
  · intro hall
    have hlookup : ∀ ps t, py.reach ps = some (.string (some t)) →
        pathSteps (some (key ++ ps.flatMap PathStep.text)) = some (ps0 ++ ps) := by
      intro ps t hleaf
      obtain ⟨hlead, hindex⟩ := hall ps t hleaf
      by_cases hne : ps = []
      · subst hne
        simpa using hkey
      · rw [pathSteps_written hkey (plain_of_reach hbuilt hleaf) hne (hlead hne), (reread_eq_iff ps).mpr hindex]
    refine ⟨⟨py.leaves, lists_leaves hbuilt, ?_⟩, fun e he => ?_, foreachPayload_whole hbuilt key⟩
    · rw [heq, List.map_map]
      refine List.map_congr_left fun ⟨ps, t⟩ hl => ?_
      rw [Function.comp_apply, hlookup ps t ((Payload.mem_leaves hbuilt).mp hl)]
    · rw [heq] at he
      obtain ⟨⟨ps, t⟩, hl, rfl⟩ := List.mem_map.mp he
      have hleaf := (Payload.mem_leaves hbuilt).mp hl
      rw [findPayload_eq, hlookup ps t hleaf, Option.bind_some, reach_append hpy]
      exact hleaf

/-- A tree that holds an array with a gap. -/
def nestedPayload : Payload :=
  .tree [(textOf "a", .string (some (textOf "1"))),
    (textOf "b", .array [none, some (.string (some (textOf "2")))])]

theorem nestedPayload_built : nestedPayload.Built := by
  have hstring : ∀ t, (Payload.string (some t)).Built := fun t => .intro .nil nofun nofun
  have harray : (Payload.array [none, some (.string (some (textOf "2")))]).Built :=
    .intro (List.pairwise_singleton ..) (fun e he => by cases List.mem_singleton.mp he; trivial)
      fun e he => by cases List.mem_singleton.mp he; exact hstring _
  have hchildren : ∀ e ∈ nestedPayload.children, e = (.member (textOf "a"), .string (some (textOf "1"))) ∨
      e = (.member (textOf "b"), .array [none, some (.string (some (textOf "2")))]) := by
    intro e he
    simpa [nestedPayload, Payload.children] using he
  refine .intro ?_ (fun e he => ?_) fun e he => ?_
  · exact List.pairwise_cons.mpr ⟨fun e he => by cases List.mem_singleton.mp he; rfl, List.pairwise_singleton ..⟩
  · rcases hchildren e he with rfl | rfl
    · exact ⟨List.cons_ne_nil _ _, fun c hc => by cases List.mem_singleton.mp hc; decide⟩
    · exact ⟨List.cons_ne_nil _ _, fun c hc => by cases List.mem_singleton.mp hc; decide⟩
  · rcases hchildren e he with rfl | rfl
    · exact hstring _
    · exact harray

theorem listing_agrees_nested : ListingAgrees { vPayload := nestedPayload } nestedPayload (textOf "gain") [] := by
  refine (listing_agrees_iff nestedPayload_built rfl rfl).mpr fun ps t hleaf => ?_
  refine ⟨fun _ => Or.inr (Or.inr rfl), fun i hi => ?_⟩
  have hmem : (ps, t) ∈ [([.member (textOf "a")], textOf "1"), ([.member (textOf "b"), .element 1], textOf "2")] :=
    (Payload.mem_leaves nestedPayload_built).mpr hleaf
  rcases List.mem_cons.mp hmem with h | h
  · cases h
    simp at hi
  · cases List.mem_singleton.mp h
    have hone : i = 1 := by simpa using hi
    omega

/-- The name `x` is too short for a path to be found behind it: the key `x:a` stands for the
whole variable. -/
theorem short_name_is_lost : ¬ ∀ (vx : Vrbl) (py : Payload) (key : Text) (ps0 : List PathStep), py.Built →
    pathSteps (some key) = some ps0 → vx.vPayload.reach ps0 = some py → ListingAgrees vx py key ps0 := by
  intro hall
  have hfound := (hall { vPayload := nestedPayload } nestedPayload (textOf "x") [] nestedPayload_built rfl rfl).found
  have hlost := hfound (textOf "x:a", textOf "1") (by decide)
  cases Option.some.inj hlost

end

end Katcp
