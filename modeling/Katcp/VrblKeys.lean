import Katcp.VrblCommand
import Katcp.VrblStore

namespace Katcp

section

namespace PathStep

/-- The order of a listing: the keys of a tree, the places of an array. -/
def Before : PathStep → PathStep → Prop
  | .member k, .member k' => KeyLt k k'
  | .element i, .element j => i < j
  | _, _ => False

/-- A key that a path can name. -/
def Plain : PathStep → Prop
  | .member k => k ≠ [] ∧ ∀ c ∈ k, isDelim c = false ∧ isNewline c = false
  | .element _ => True

/-- How a step is written in a key. -/
def text : PathStep → Text
  | .member k => delimTree :: k
  | .element i => delimArray :: indexText i

end PathStep

/-- The first position comes before the second, where the two part. -/
inductive Precedes : List PathStep → List PathStep → Prop
  | here {s s' : PathStep} {ps qs : List PathStep} : s.Before s' → Precedes (s :: ps) (s' :: qs)
  | there {s : PathStep} {ps qs : List PathStep} : Precedes ps qs → Precedes (s :: ps) (s :: qs)

def elementsFrom : List (Option Payload) → Nat → List (PathStep × Payload)
  | [], _ => []
  | none :: es, i => elementsFrom es (i + 1)
  | some py :: es, i => (.element i, py) :: elementsFrom es (i + 1)

namespace Payload

def children : Payload → List (PathStep × Payload)
  | .string _ => []
  | .tree m => m.map fun e => (.member e.1, e.2)
  | .array es => elementsFrom es 0

/-- A payload as the program builds it: keys that a path can name, in their order. -/
inductive Built : Payload → Prop
  | intro {py : Payload} : (py.children.Pairwise fun a b => a.1.Before b.1) →
      (∀ e ∈ py.children, e.1.Plain) → (∀ e ∈ py.children, Built e.2) → Built py

mutual

/-- The texts that are set, each with its position. -/
def leaves : Payload → List (List PathStep × Text)
  | .string none => []
  | .string (some t) => [([], t)]
  | .tree m => leavesOfMembers m
  | .array es => leavesOfElements es 0

def leavesOfMembers : List (Text × Payload) → List (List PathStep × Text)
  | [] => []
  | (k, py) :: m => (leaves py).map (fun l => (.member k :: l.1, l.2)) ++ leavesOfMembers m

def leavesOfElements : List (Option Payload) → Nat → List (List PathStep × Text)
  | [], _ => []
  | none :: es, i => leavesOfElements es (i + 1)
  | some py :: es, i => (leaves py).map (fun l => (.element i :: l.1, l.2)) ++ leavesOfElements es (i + 1)

end

/-- The text of the payload itself. -/
def own : Payload → Option Text
  | .string u => u
  | _ => none

variable {py c : Payload} {s : PathStep} {ps : List PathStep} {t : Text}

theorem leavesOfMembers_eq (m : List (Text × Payload)) : leavesOfMembers m =
    (m.map fun e => (PathStep.member e.1, e.2)).flatMap fun e => (leaves e.2).map fun l => (e.1 :: l.1, l.2) := by
  induction m with
  | nil => rfl
  | cons e m ih => rw [leavesOfMembers, ih, List.map_cons, List.flatMap_cons]

theorem leavesOfElements_eq (es : List (Option Payload)) (i : Nat) : leavesOfElements es i =
    (elementsFrom es i).flatMap fun e => (leaves e.2).map fun l => (e.1 :: l.1, l.2) := by
  induction es generalizing i with
  | nil => rfl
  | cons e es ih =>
    cases e with
    | none => rw [leavesOfElements, ih, elementsFrom]
    | some py => rw [leavesOfElements, ih, elementsFrom, List.flatMap_cons]

theorem leaves_eq (py : Payload) : py.leaves = (py.own.toList.map fun t => ([], t)) ++
    py.children.flatMap fun e => (leaves e.2).map fun l => (e.1 :: l.1, l.2) := by
  cases py with
  | string u => cases u <;> simp [leaves, own, children]
  | tree m => simpa [leaves, own, children] using leavesOfMembers_eq m
  | array es => simpa [leaves, own, children] using leavesOfElements_eq es 0

theorem foreachMembers_eq (m : List (Text × Payload)) (key : Text) : (foreachMembers m (key ++ [delimTree])).1 =
    (m.map fun e => (PathStep.member e.1, e.2)).flatMap fun e => (foreachPayload e.2 (key ++ e.1.text)).1 := by
  induction m with
  | nil => rfl
  | cons e m ih =>
    rw [foreachMembers, List.map_cons, List.flatMap_cons, ← ih]
    simp [PathStep.text]

theorem foreachElements_eq (es : List (Option Payload)) (key : Text) (i : Nat) :
    (foreachElements es (key ++ [delimArray]) i).1 =
      (elementsFrom es i).flatMap fun e => (foreachPayload e.2 (key ++ e.1.text)).1 := by
  induction es generalizing i with
  | nil => rfl
  | cons e es ih =>
    cases e with
    | none => rw [foreachElements, ih, elementsFrom]
    | some py =>
      rw [foreachElements, elementsFrom, List.flatMap_cons, ← ih]
      simp [PathStep.text]

theorem foreachPayload_children (py : Payload) (key : Text) : (foreachPayload py key).1 =
    (py.own.toList.map fun t => (key, t)) ++
      py.children.flatMap fun e => (foreachPayload e.2 (key ++ e.1.text)).1 := by
  cases py with
  | string u => cases u <;> simp [foreachPayload, own, children]
  | tree m => simpa [foreachPayload, own, children] using foreachMembers_eq m key
  | array es => simpa [foreachPayload, own, children] using foreachElements_eq es key 0

/-- A listing gives every leaf under the key that its position is written as. -/
theorem foreachPayload_eq (h : py.Built) (key : Text) :
    (foreachPayload py key).1 = py.leaves.map fun l => (key ++ l.1.flatMap PathStep.text, l.2) := by
  induction h generalizing key with
  | @intro py _ _ _ ih =>
    rw [foreachPayload_children, leaves_eq, List.map_append, List.map_flatMap, List.map_map]
    congr 1
    · simp
    · refine List.flatMap_congr fun e he => ?_
      rw [ih e he, List.map_map]
      simp

theorem mem_elementsFrom {es : List (Option Payload)} {i : Nat} : (s, c) ∈ elementsFrom es i ↔
    ∃ j, s = .element (i + j) ∧ (es[j]?).join = some c := by
  induction es generalizing i with
  | nil => simp [elementsFrom]
  | cons e es ih =>
    have hshift : (∃ j, s = .element (i + 1 + j) ∧ (es[j]?).join = some c) ↔
        ∃ j, s = .element (i + (j + 1)) ∧ ((e :: es)[j + 1]?).join = some c := by
      simp only [List.getElem?_cons_succ, Nat.add_assoc, Nat.add_comm 1]
    have hsplit : (∃ j, s = .element (i + j) ∧ ((e :: es)[j]?).join = some c) ↔
        (s = .element i ∧ e = some c) ∨ ∃ j, s = .element (i + 1 + j) ∧ (es[j]?).join = some c := by
      rw [hshift]
      constructor
      · rintro ⟨_ | j, hs, hc⟩
        · exact Or.inl ⟨hs, by simpa using hc⟩
        · exact Or.inr ⟨j, hs, hc⟩
      · rintro (⟨hs, hc⟩ | ⟨j, hs, hc⟩)
        · exact ⟨0, hs, by simpa using hc⟩
        · exact ⟨j + 1, hs, hc⟩
    rw [hsplit]
    cases e with
    | none => simp [elementsFrom, ih]
    | some py => simp [elementsFrom, ih, eq_comm]

theorem elementsFrom_ordered (es : List (Option Payload)) (i : Nat) :
    (elementsFrom es i).Pairwise fun a b => a.1.Before b.1 := by
  induction es generalizing i with
  | nil => exact .nil
  | cons e es ih =>
    cases e with
    | none => exact ih (i + 1)
    | some py =>
      refine List.pairwise_cons.mpr ⟨fun e he => ?_, ih (i + 1)⟩
      obtain ⟨j, hs, _⟩ := mem_elementsFrom.mp he
      rw [hs]
      exact Nat.lt_add_right j (Nat.lt_succ_self i)

theorem mem_children (h : py.children.Pairwise fun a b => a.1.Before b.1) :
    (s, c) ∈ py.children ↔ py.child s = some c := by
  cases py with
  | string u => simp [children, child]
  | array es =>
    rw [children, mem_elementsFrom]
    cases s with
    | member k => simp [child]
    | element i =>
      simp only [child, Nat.zero_add, PathStep.element.injEq]
      constructor
      · rintro ⟨j, rfl, hc⟩
        exact hc
      · exact fun hc => ⟨i, rfl, hc⟩
  | tree m =>
    cases s with
    | element i => simp [children, child]
    | member k =>
      simp only [children, List.pairwise_map] at h
      simp only [children, child, List.mem_map, Prod.mk.injEq, PathStep.member.injEq]
      induction m with
      | nil => simp [KeyedList.find]
      | cons e m ih =>
        obtain ⟨hhead, htail⟩ := List.pairwise_cons.mp h
        rw [KeyedList.find, ← Option.mem_def]
        split
        next he =>
          obtain rfl := eq_of_strcmp he
          constructor
          · rintro ⟨e', he', hk, rfl⟩
            rcases List.mem_cons.mp he' with rfl | he'
            · rfl
            · have hlt := hhead e' he'
              rw [PathStep.Before, hk] at hlt
              exact absurd rfl hlt.ne
          · intro hc
            exact ⟨e, List.mem_cons_self, rfl, Option.some.inj hc⟩
        next hne =>
          rw [Option.mem_def, ← ih htail]
          constructor
          · rintro ⟨e', he', hk, hc⟩
            rcases List.mem_cons.mp he' with rfl | he'
            · rw [hk, strcmp_self] at hne
              exact absurd rfl hne
            · exact ⟨e', he', hk, hc⟩
          · rintro ⟨e', he', hk, hc⟩
            exact ⟨e', List.mem_cons_of_mem _ he', hk, hc⟩

theorem mem_leaves (h : py.Built) : (ps, t) ∈ py.leaves ↔ py.reach ps = some (.string (some t)) := by
  induction h generalizing ps with
  | @intro py hord _ _ ih =>
    rw [leaves_eq, List.mem_append]
    cases ps with
    | nil =>
      have hnone : ([], t) ∉ py.children.flatMap fun e => (leaves e.2).map fun l => (e.1 :: l.1, l.2) := by
        simp
      rw [or_iff_left hnone, reach]
      cases py <;> simp [own, eq_comm]
    | cons s ps =>
      have hnone : (s :: ps, t) ∉ py.own.toList.map fun t => (([] : List PathStep), t) := by simp
      rw [or_iff_right hnone, reach, List.mem_flatMap, Option.bind_eq_some_iff]
      constructor
      · rintro ⟨⟨s', c⟩, hc, hl⟩
        obtain ⟨⟨qs, u⟩, hleaf, heq⟩ := List.mem_map.mp hl
        cases heq
        exact ⟨c, (mem_children hord).mp hc, (ih _ hc).mp hleaf⟩
      · rintro ⟨c, hc, hreach⟩
        have hmem := (mem_children hord).mpr hc
        exact ⟨(s, c), hmem, List.mem_map.mpr ⟨(ps, t), (ih _ hmem).mpr hreach, rfl⟩⟩

theorem leaves_ordered (h : py.Built) : py.leaves.Pairwise fun a b => Precedes a.1 b.1 := by
  induction h with
  | @intro py hord _ _ ih =>
    have hbelow : (py.children.flatMap fun e => (leaves e.2).map fun l => (e.1 :: l.1, l.2)).Pairwise
        fun a b => Precedes a.1 b.1 := by
      rw [List.pairwise_flatMap]
      refine ⟨fun e he => ?_, hord.imp fun hlt a ha b hb => ?_⟩
      · rw [List.pairwise_map]
        exact (ih e he).imp fun hp => .there hp
      · obtain ⟨_, _, rfl⟩ := List.mem_map.mp ha
        obtain ⟨_, _, rfl⟩ := List.mem_map.mp hb
        exact .here hlt
    rw [leaves_eq]
    cases py with
    | string u => cases u <;> simp [own, children]
    | tree m => exact hbelow
    | array es => exact hbelow

end Payload

end

section

variable {n m : Nat} {p key name x : Text} {s : PathStep} {ps : List PathStep} {rest : Option Text}

/-- What stands behind a written element: nothing, or the next one. -/
def Follows (x : Text) : Prop := ∀ c, x.head? = some c → isDelim c = true

theorem nextElementFrom_plain (h : ∀ c ∈ name, isDelim c = false ∧ isNewline c = false) (i : Nat) :
    nextElementFrom (name ++ x) i = nextElementFrom x (i + name.length) := by
  induction name generalizing i with
  | nil => rfl
  | cons c name ih =>
    obtain ⟨hd, hn⟩ := h c List.mem_cons_self
    rw [List.cons_append, nextElementFrom]
    simp only [hd, hn, Bool.false_eq_true, false_and, ↓reduceIte]
    rw [ih fun c hc => h c (List.mem_cons_of_mem _ hc), List.length_cons]
    congr 1
    omega

theorem nextElementFrom_follows (h : Follows x) {i : Nat} (hi : 1 < i) :
    nextElementFrom x i = some (if x = [] then 0 else i) := by
  cases x with
  | nil => simp [nextElementFrom, Nat.not_le.mpr hi]
  | cons c x => simp [nextElementFrom, h c rfl, hi]

theorem delim_plain {c : Byte} (h : isDelim c = true) : isNewline c = false := by
  rw [isDelim, Bool.or_eq_true, decide_eq_true_eq, decide_eq_true_eq] at h
  rcases h with rfl | rfl <;> decide

/-- An element and what follows it, as the path is read. -/
theorem nextElementPath_written {d : Byte} (hd : isDelim d = true) (hne : name ≠ [])
    (hplain : ∀ c ∈ name, isDelim c = false ∧ isNewline c = false) (hx : Follows x) :
    nextElementPath (d :: name ++ x) = some (if x = [] then 0 else name.length + 1) := by
  have hlen := List.length_pos_iff.mpr hne
  rw [nextElementPath, List.cons_append, nextElementFrom]
  simp only [hd, true_and, delim_plain hd, Nat.not_lt_zero, gt_iff_lt, Nat.zero_ne_one, Bool.false_eq_true, ↓reduceIte]
  rw [nextElementFrom_plain hplain, nextElementFrom_follows hx (by omega)]
  congr 2
  omega

theorem restPath_written {d : Byte} (x : Text) :
    restPath (d :: name ++ x) (if x = [] then 0 else name.length + 1) = if x = [] then none else some x := by
  by_cases hx : x = []
  · simp [restPath, hx]
  · simp [restPath, hx]

theorem memberName_written {d : Byte} (x : Text) :
    memberName (d :: name ++ x) (if x = [] then 0 else name.length + 1) = name := by
  by_cases hx : x = []
  · simp [memberName, hx]
  · simp [memberName, hx]

theorem indexText_digits {i : Nat} {c : Byte} (h : c ∈ indexText i) : isDigit c = true :=
  decimal_digits (List.mem_of_mem_take h)

theorem indexText_ne_nil (i : Nat) : indexText i ≠ [] := by
  intro h
  rcases List.take_eq_nil_iff.mp h with h | h
  · cases h
  · exact decimal_ne_nil h

theorem digit_plain {c : Byte} (h : isDigit c = true) : isDelim c = false ∧ isNewline c = false := by
  simp only [isDigit, Bool.and_eq_true, decide_eq_true_eq, UInt8.le_iff_toNat_le] at h
  have h0 : 48 ≤ c.toNat := h.1
  have hsmall : ∀ b : Byte, b.toNat < 48 → c ≠ b := by
    rintro b hb rfl
    omega
  have hlarge : ∀ b : Byte, 57 < b.toNat → c ≠ b := by
    rintro b hb rfl
    have h9 : c.toNat ≤ 57 := h.2
    omega
  constructor
  · simp [isDelim, hlarge delimTree (by decide), hsmall delimArray (by decide)]
  · simp [isNewline, hsmall (byte '\n') (by decide), hsmall (byte '\r') (by decide)]

theorem Follows.not_digit (h : Follows x) : ¬ x.head?.any isDigit := by
  cases x with
  | nil => simp
  | cons c x =>
    have hc := h c rfl
    intro hd
    rw [(digit_plain (by simpa using hd)).1] at hc
    cases hc

theorem Follows.not_alpha (h : Follows x) : ¬ x.head?.any isAlpha := by
  cases x with
  | nil => simp
  | cons c x =>
    have hc := h c rfl
    rw [isDelim, Bool.or_eq_true, decide_eq_true_eq, decide_eq_true_eq] at hc
    rw [List.head?_cons, Option.any_some]
    rcases hc with rfl | rfl <;> decide

/-- The index that is read where this one was written. -/
def rereadIndex (i : Nat) : Nat := digitsValue (indexText i)

theorem rereadIndex_lt (i : Nat) : rereadIndex i < 10 ^ 9 := by
  refine Nat.lt_of_lt_of_le (digitsValue_lt fun c => indexText_digits) ?_
  refine Nat.pow_le_pow_right (by decide) ?_
  rw [indexText, List.length_take]
  exact Nat.min_le_left _ _

theorem rereadIndex_eq_iff (i : Nat) : rereadIndex i = i ↔ i < 10 ^ 9 := by
  refine ⟨fun h => h ▸ rereadIndex_lt i, fun h => ?_⟩
  rw [rereadIndex, indexText, List.take_of_length_le ((decimal_length_le (by decide)).mpr h), decimal_value]

theorem readIndex_written (hx : Follows x) (d : Byte) (i : Nat) :
    readIndex (d :: indexText i ++ x) = some (rereadIndex i) := by
  have hlt := rereadIndex_lt i
  have hread := strtoul_digits (fun c => indexText_digits) (indexText_ne_nil i) hx.not_digit
  have hvalue : unsignedLong false (indexText i) = rereadIndex i :=
    unsignedLong_digits (Nat.lt_trans hlt (by decide))
  have hlen := List.length_pos_iff.mpr (indexText_ne_nil i)
  have hmod : rereadIndex i % uintMod = rereadIndex i := Nat.mod_eq_of_lt (Nat.lt_trans hlt (by decide))
  rw [readIndex, pathIndex, List.cons_append, List.tail_cons, hread]
  dsimp only
  rw [if_neg (by rw [List.length_append]; omega), hvalue, hmod, Option.bind_some]
  dsimp only
  rw [if_neg hx.not_alpha]

/-- The step that is read where this one was written. -/
def PathStep.reread : PathStep → PathStep
  | .member k => .member k
  | .element i => .element (rereadIndex i)

theorem reread_eq_iff (ps : List PathStep) :
    ps.map PathStep.reread = ps ↔ ∀ i, .element i ∈ ps → i < 10 ^ 9 := by
  induction ps with
  | nil => simp
  | cons s ps ih =>
    rw [List.map_cons, List.cons.injEq, ih]
    cases s with
    | member k => simp [PathStep.reread]
    | element i => simp [PathStep.reread, rereadIndex_eq_iff]

theorem readStep_written (hs : s.Plain) (hx : Follows x) :
    readStep (s.text ++ x) = some (s.reread, if x = [] then none else some x) := by
  cases s with
  | member k =>
    obtain ⟨hne, hplain⟩ := hs
    have hnext := nextElementPath_written (d := delimTree) (by decide) hne hplain hx
    have hlen := List.length_pos_iff.mpr hne
    rw [readStep, PathStep.text, hnext, Option.bind_some, if_neg (by split <;> omega)]
    rw [if_pos (by rfl), memberName_written, restPath_written]
    rfl
  | element i =>
    have hnext := nextElementPath_written (d := delimArray) (by decide) (indexText_ne_nil i)
      (fun c hc => digit_plain (indexText_digits hc)) hx
    have hlen := List.length_pos_iff.mpr (indexText_ne_nil i)
    have htree : (delimArray :: indexText i ++ x).head? ≠ some delimTree := by
      rw [List.cons_append, List.head?_cons]
      decide
    rw [readStep, PathStep.text, hnext, Option.bind_some, if_neg (by split <;> omega), if_neg htree,
      if_pos (by rfl), readIndex_written hx, restPath_written]
    rfl

theorem text_head (s : PathStep) : ∃ d text, s.text = d :: text ∧ isDelim d = true := by
  cases s with
  | member k => exact ⟨delimTree, k, rfl, by decide⟩
  | element i => exact ⟨delimArray, indexText i, rfl, by decide⟩

theorem follows_text (ps : List PathStep) : Follows (ps.flatMap PathStep.text) := by
  cases ps with
  | nil => intro c h; cases h
  | cons s ps =>
    obtain ⟨d, text, hs, hd⟩ := text_head s
    intro c h
    rw [List.flatMap_cons, hs] at h
    cases h
    exact hd

/-- A position that was written is read back, as far as its indices are. -/
theorem readSteps_written (h : ∀ s ∈ ps, s.Plain) (hn : (ps.flatMap PathStep.text).length < n) :
    readSteps n (some (ps.flatMap PathStep.text)) = some (ps.map PathStep.reread) := by
  induction ps generalizing n with
  | nil =>
    obtain ⟨n, rfl⟩ := Nat.exists_eq_succ_of_ne_zero (Nat.ne_zero_of_lt hn)
    rfl
  | cons s ps ih =>
    obtain ⟨n, rfl⟩ := Nat.exists_eq_succ_of_ne_zero (Nat.ne_zero_of_lt hn)
    have hread := readStep_written (h s List.mem_cons_self) (follows_text ps)
    have hrest : ∀ s ∈ ps, s.Plain := fun s hs => h s (List.mem_cons_of_mem _ hs)
    obtain ⟨d, text, hs, _⟩ := text_head s
    have hlt : (ps.flatMap PathStep.text).length < n := by
      rw [List.flatMap_cons, hs] at hn
      simp only [List.cons_append, List.length_cons, List.length_append] at hn
      omega
    have hstep : readSteps (n + 1) (some (s.text ++ ps.flatMap PathStep.text)) =
        (readStep (s.text ++ ps.flatMap PathStep.text)).bind fun r => (readSteps n r.2).map (r.1 :: ·) := by
      rw [hs]
      rfl
    rw [List.flatMap_cons, hstep, hread, Option.bind_some]
    dsimp only
    by_cases hnil : ps.flatMap PathStep.text = []
    · have hps : ps = [] := by
        cases ps with
        | nil => rfl
        | cons s' ps =>
          obtain ⟨d, text, hs', _⟩ := text_head s'
          rw [List.flatMap_cons, hs'] at hnil
          cases hnil
      subst hps
      obtain ⟨n, rfl⟩ := Nat.exists_eq_succ_of_ne_zero (Nat.ne_zero_of_lt hlt)
      rfl
    · rw [if_neg hnil, ih hrest hlt]
      rfl

end

end Katcp
