import Katcp.AvlInsert
import Katcp.CutText
import Katcp.DuplexData
import Katcp.KeyedList

namespace Katcp

def tokenStartDict : Byte := byte '{'
def tokenEndDict : Byte := byte '}'
def tokenStartValue : Byte := byte ':'
def tokenEndValue : Byte := byte ','

def stateStart : Nat := 0
def stateKey : Nat := 1
def stateValue : Nat := 2
def stateEnd : Nat := 3

/-- The tree of the type `KATCP_TYPE_STRING`: under each name the string that is kept there. -/
abbrev StringType := KeyedList Text Text

/-- The variables of `parse_dict_type_katcp`, where a key of `NULL` is empty: the type of
strings, the tree of the dictionary with the strings of its values, and what has been added. -/
structure DictRun where
  state : Nat
  ipos : Nat
  spos : Nat
  key : Text
  strings : Option StringType
  entries : KeyedList Text Text
  added : List (Text × Text)

/-- `search_type_katcp` for the type of strings, with the string itself to be kept. -/
def searchString (strings : Option StringType) (value : Text) : Option (Text × StringType) :=
  strings.map fun t => match KeyedList.find strcmp value t with
    | some o => (o, t)
    | none => (value, KeyedList.put strcmp value value t)

/-- `strndup`, for which a negative length is a very large one. -/
def strndup (t : Text) (len : Int) : Text := if len < 0 then t else t.take len.toNat

/-- What the code takes for the text between the last token and character `j` of argument `i`. -/
def dictToken (str : List Text) (i j ipos spos : Nat) : Text :=
  if i - ipos > 0 ∧ j > 0 then (str[ipos + 1]?.getD []).take j
  else if i - ipos = 2 then str[i - 1]?.getD []
  else strndup ((str[ipos]?.getD []).drop spos) (j - spos)

namespace DictRun

variable (s : DictRun)

/-- `add_type_dict_katcp`, which replaces what a key had. -/
def addPair (value : Text) : DictRun :=
  match searchString s.strings value with
  | none => { s with key := [] }
  | some (data, strings) =>
    { s with
      key := []
      strings := some strings
      entries := KeyedList.put strcmp s.key data s.entries
      added := s.added ++ [(s.key, data)] }

/-- One character. The state is compared with the closing token and not with `STATE_END`. -/
def step (str : List Text) (i j : Nat) (c : Byte) : DictRun :=
  if s.state = stateStart then
    if c = tokenStartDict then { s with state := stateKey, spos := j + 1, ipos := i } else s
  else if s.state = stateKey then
    if c = tokenStartValue then
      { s with key := dictToken str i j s.ipos s.spos, state := stateValue, spos := j + 1, ipos := i }
    else s
  else if s.state = stateValue then
    if c = tokenEndDict ∨ c = tokenEndValue then
      let state := if c = tokenEndDict then stateEnd else s.state
      { s.addPair (dictToken str i j s.ipos s.spos) with
        state := if state ≠ tokenEndDict.toNat then stateKey else state
        spos := j + 1
        ipos := i }
    else s
  else s

end DictRun

def parseArg (str : List Text) (i : Nat) : Nat → Text → DictRun → DictRun
  | _, [], s => s
  | j, c :: rest, s => parseArg str i (j + 1) rest (s.step str i j c)

def parseArgs (str : List Text) : Nat → List Text → DictRun → DictRun
  | _, [], s => s
  | i, a :: rest, s => parseArgs str (i + 1) rest (parseArg str i 0 a s)

/-- `parse_dict_type_katcp`, with what a dictionary of that name already holds. -/
def parseDictType (strings : Option StringType) (entries : KeyedList Text Text) (str : List Text) :
    Option DictRun :=
  match str with
  | [] => none
  | _ :: args => some (parseArgs str 1 args ⟨stateStart, 0, 0, [], strings, entries, []⟩)

/-- Whether a text is cut before and after a token of it. -/
structure TokenCut where
  before : Bool
  after : Bool

structure DictPair where
  key : Text
  colon : TokenCut
  value : Text
  stop : TokenCut

namespace DictPair

/-- The tokens that end a key and a value do not stand in them. -/
def Plain (p : DictPair) : Prop :=
  tokenStartValue ∉ p.key ∧ tokenEndDict ∉ p.value ∧ tokenEndValue ∉ p.value

instance (p : DictPair) : Decidable p.Plain := inferInstanceAs (Decidable (_ ∧ _ ∧ _))

def pair (p : DictPair) : Text × Text := (p.key, p.value)

end DictPair

def cutMark (cut : Bool) : CutText Byte := if cut then [none] else []

/-- A text with the cuts at its ends, and what follows. -/
def between (a : Bool) (t : Text) (b : Bool) (marks : CutText Byte) : CutText Byte :=
  cutMark a ++ (t.map some ++ (cutMark b ++ marks))

/-- What follows an opening token or a separator, of which `a` is the cut behind it. -/
def pairMarks (a : Bool) : List DictPair → TokenCut → CutText Byte → CutText Byte
  | [], closing, after => between a [] closing.before (some tokenEndDict :: (cutMark closing.after ++ after))
  | [p], closing, after =>
    between a p.key p.colon.before (some tokenStartValue ::
      between p.colon.after p.value closing.before (some tokenEndDict ::
        (cutMark closing.after ++ after)))
  | p :: q :: ps, closing, after =>
    between a p.key p.colon.before (some tokenStartValue ::
      between p.colon.after p.value p.stop.before (some tokenEndValue ::
        pairMarks p.stop.after (q :: ps) closing after))

/-- The text of a dictionary with what follows it, and its cuts. -/
def dictMarks (opening : TokenCut) (pairs : List DictPair) (closing : TokenCut)
    (after : CutText Byte) : CutText Byte :=
  cutMark opening.before ++ some tokenStartDict :: pairMarks opening.after pairs closing after

/-- The loops over the arguments as one over the text and its cuts. -/
def runMarks (str : List Text) : Nat → Nat → CutText Byte → DictRun → DictRun
  | _, _, [], s => s
  | i, _, none :: marks, s => runMarks str (i + 1) 0 marks s
  | i, j, some c :: marks, s => runMarks str i (j + 1) marks (s.step str i j c)

section

variable {str : List Text} {i j : Nat} {s : DictRun} {marks : CutText Byte}

theorem parseArgs_pieces {a : Text} {as : List Text} (h : marks.pieces = a :: as) :
    parseArgs str (i + 1) as (parseArg str i j a s) = runMarks str i j marks s := by
  induction marks generalizing i j s a as with
  | nil =>
    cases h
    rfl
  | cons mark marks ih =>
    obtain ⟨b, bs, hb⟩ := CutText.pieces_cons marks
    cases mark with
    | none =>
      rw [CutText.pieces, hb] at h
      cases h
      rw [parseArg, parseArgs, runMarks]
      exact ih hb
    | some c =>
      rw [CutText.pieces_some hb] at h
      cases h
      rw [parseArg, runMarks]
      exact ih hb

/-- The place behind a text that begins at `i` and `j`. -/
def endOf (i j : Nat) (a b : Bool) (n : Nat) : Nat × Nat :=
  match a, b with
  | false, false => (i, j + n)
  | true, false => (i + 1, n)
  | false, true => (i + 1, 0)
  | true, true => (i + 2, 0)

/-- A text that leaves the state alone. -/
def DictRun.Quiet (s : DictRun) (t : Text) : Prop :=
  ∀ str i j c, c ∈ t → s.step str i j c = s

theorem runMarks_quiet {t : Text} (h : s.Quiet t) :
    runMarks str i j (t.map some ++ marks) s = runMarks str i (j + t.length) marks s := by
  induction t generalizing j with
  | nil => rfl
  | cons c t ih =>
    rw [List.map_cons, List.cons_append, runMarks, h str i j c List.mem_cons_self,
      ih fun str i j c hc => h str i j c (List.mem_cons_of_mem _ hc), List.length_cons]
    congr 1
    omega

theorem runMarks_between {a b : Bool} {t : Text} (h : s.Quiet t) :
    runMarks str i j (between a t b marks) s =
      runMarks str (endOf i j a b t.length).1 (endOf i j a b t.length).2 marks s := by
  cases a with
  | false =>
    cases b with
    | false => exact runMarks_quiet h
    | true => exact runMarks_quiet h
  | true =>
    cases b with
    | false =>
      refine (runMarks_quiet h).trans ?_
      rw [Nat.zero_add]
      rfl
    | true => exact runMarks_quiet h

theorem at_between {a b : Bool} {t : Text} (h : CutText.At str i j (between a t b marks)) :
    CutText.At str (endOf i j a b t.length).1 (endOf i j a b t.length).2 marks := by
  cases a with
  | false =>
    cases b with
    | false => exact h.text
    | true => exact h.text.next
  | true =>
    cases b with
    | false =>
      have htext := h.next.text
      rwa [Nat.zero_add] at htext
    | true => exact h.next.text.next

/-- Between two tokens the code finds the text, however it is cut at its ends. -/
theorem dictToken_between {a b : Bool} {t : Text} {c : Byte} (hj : 0 < j)
    (h : CutText.At str i j (between a t b (some c :: marks))) :
    dictToken str (endOf i j a b t.length).1 (endOf i j a b t.length).2 i j = t := by
  obtain ⟨d, ds, hd⟩ := CutText.pieces_cons marks
  have hc := CutText.pieces_some (c := c) hd
  have hnone : CutText.pieces (none :: some c :: marks) = [] :: (c :: d) :: ds := by
    rw [CutText.pieces, hc]
  cases a with
  | false =>
    cases b with
    | false =>
      have hrest := h.rest (CutText.pieces_text t hc)
      have hlen : ((j + t.length : Nat) - j : Int).toNat = t.length := by omega
      dsimp only [endOf]
      rw [dictToken, if_neg (by omega), if_neg (by omega), hrest, strndup, if_neg (by omega),
        hlen, List.take_left]
    | true =>
      have hrest := h.rest (CutText.pieces_text t hnone)
      rw [List.append_nil] at hrest
      dsimp only [endOf]
      rw [dictToken, if_neg (by omega), if_neg (by omega), hrest, strndup, if_pos (by omega)]
  | true =>
    cases b with
    | false =>
      have hrest : (str[i]?.getD []).drop j = [] := h.rest rfl
      have hwhole := h.next.whole (CutText.pieces_text t hc)
      dsimp only [endOf]
      by_cases ht : 0 < t.length
      · rw [dictToken, if_pos ⟨by omega, ht⟩, hwhole, List.take_left]
      · have hnil : t = [] := List.eq_nil_of_length_eq_zero (by omega)
        rw [dictToken, if_neg (by omega), if_neg (by omega), hrest, strndup, if_pos (by omega), hnil]
    | true =>
      have hwhole := h.next.whole (CutText.pieces_text t hnone)
      rw [List.append_nil] at hwhole
      dsimp only [endOf]
      rw [dictToken, if_neg (by omega), if_pos (by omega)]
      exact hwhole

end

/-- The state behind a token that ends at character `j` of argument `i`. -/
def DictRun.behind (s : DictRun) (state i j : Nat) : DictRun :=
  { s with state := state, ipos := i, spos := j }

section

variable {str : List Text} {i j : Nat} {s : DictRun} {marks : CutText Byte} {t : Text} {a b : Bool}

theorem step_other {c : Byte} (h : s.state = stateKey) (hc : c ≠ tokenStartValue) :
    s.step str i j c = s := by
  rw [DictRun.step, h, if_neg (by decide), if_pos rfl, if_neg hc]

theorem quiet_key (h : s.state = stateKey) (ht : tokenStartValue ∉ t) : s.Quiet t := by
  intro str i j c hc
  exact step_other h fun he => ht (he ▸ hc)

theorem quiet_value (h : s.state = stateValue) (ht : tokenEndDict ∉ t) (ht' : tokenEndValue ∉ t) :
    s.Quiet t := by
  intro str i j c hc
  have hne : ¬ (c = tokenEndDict ∨ c = tokenEndValue) := by
    rintro (he | he)
    · exact ht (he ▸ hc)
    · exact ht' (he ▸ hc)
  rw [DictRun.step, h, if_neg (by decide), if_neg (by decide), if_pos rfl, if_neg hne]

theorem step_key (h : s.state = stateKey) : s.step str i j tokenStartValue =
    { s with key := dictToken str i j s.ipos s.spos }.behind stateValue i (j + 1) := by
  rw [DictRun.step, h, if_neg (by decide), if_pos rfl, if_pos rfl]
  rfl

/-- Behind a value the parser is at a key again, also where the dictionary has ended. -/
theorem step_value {c : Byte} (h : s.state = stateValue) (hc : c = tokenEndDict ∨ c = tokenEndValue) :
    s.step str i j c = (s.addPair (dictToken str i j s.ipos s.spos)).behind stateKey i (j + 1) := by
  rw [DictRun.step, h, if_neg (by decide), if_neg (by decide), if_pos rfl, if_pos hc]
  dsimp only
  rw [if_pos (by split <;> decide)]
  rfl

theorem addPair_behind (s : DictRun) (state i j : Nat) (value : Text) :
    (s.behind state i j).addPair value = (s.addPair value).behind state i j := by
  unfold DictRun.addPair DictRun.behind
  dsimp only
  split
  · rfl
  · rfl

/-- One key and its token. -/
theorem runMarks_key (hj : 0 < j) (ht : tokenStartValue ∉ t)
    (h : CutText.At str i j (between a t b (some tokenStartValue :: marks))) :
    ∃ i' j', 0 < j' ∧ CutText.At str i' j' marks ∧
      runMarks str i j (between a t b (some tokenStartValue :: marks)) (s.behind stateKey i j) =
        runMarks str i' j' marks ({ s with key := t }.behind stateValue i' j') := by
  refine ⟨_, _, Nat.succ_pos _, (at_between h).past, ?_⟩
  rw [runMarks_between (quiet_key rfl ht), runMarks, step_key rfl]
  dsimp only [DictRun.behind]
  rw [dictToken_between hj h]

/-- One value and its token. -/
theorem runMarks_value {c : Byte} (hj : 0 < j) (ht : tokenEndDict ∉ t) (ht' : tokenEndValue ∉ t)
    (hc : c = tokenEndDict ∨ c = tokenEndValue)
    (h : CutText.At str i j (between a t b (some c :: marks))) :
    ∃ i' j', 0 < j' ∧ CutText.At str i' j' marks ∧
      runMarks str i j (between a t b (some c :: marks)) (s.behind stateValue i j) =
        runMarks str i' j' marks ((s.addPair t).behind stateKey i' j') := by
  refine ⟨_, _, Nat.succ_pos _, (at_between h).past, ?_⟩
  rw [runMarks_between (quiet_value rfl ht ht'), runMarks, step_value rfl hc, addPair_behind]
  dsimp only [DictRun.behind]
  rw [dictToken_between hj h]

/-- The pairs one after the other. -/
def DictRun.addPairs (s : DictRun) (pairs : List (Text × Text)) : DictRun :=
  pairs.foldl (fun s p => { s with key := p.1 }.addPair p.2) s

theorem runMarks_cut (str : List Text) (i j : Nat) (cut : Bool) (marks : CutText Byte) (s : DictRun) :
    ∃ i' j', runMarks str i j (cutMark cut ++ marks) s = runMarks str i' j' marks s := by
  cases cut with
  | false => exact ⟨i, j, rfl⟩
  | true => exact ⟨i + 1, 0, rfl⟩

/-- The parser adds the pairs, and goes on behind the closing token as at a key. -/
theorem runMarks_pairs {pairs : List DictPair} {closing : TokenCut} {after : CutText Byte}
    (hj : 0 < j) (hp : ∀ p ∈ pairs, p.Plain)
    (h : CutText.At str i j (pairMarks a pairs closing after)) :
    ∃ i' j' ipos spos, runMarks str i j (pairMarks a pairs closing after) (s.behind stateKey i j) =
      runMarks str i' j' after ((s.addPairs (pairs.map DictPair.pair)).behind stateKey ipos spos) := by
  induction pairs generalizing i j s a with
  | nil =>
    have hquiet : (s.behind stateKey i j).Quiet [tokenEndDict] :=
      quiet_key rfl (by decide)
    obtain ⟨i', j', hcut⟩ := runMarks_cut str (endOf i j a closing.before 0).1
      ((endOf i j a closing.before 0).2 + 1) closing.after after (s.behind stateKey i j)
    refine ⟨i', j', i, j, ?_⟩
    rw [pairMarks, runMarks_between (fun _ _ _ _ hc => absurd hc List.not_mem_nil), runMarks,
      hquiet _ _ _ _ List.mem_cons_self]
    exact hcut
  | cons p ps ih =>
    obtain ⟨hkey, hend, hsep⟩ := hp p List.mem_cons_self
    cases ps with
    | nil =>
      obtain ⟨i1, j1, hj1, hat1, hrun1⟩ := runMarks_key (s := s) hj hkey h
      obtain ⟨i2, j2, -, -, hrun2⟩ :=
        runMarks_value (s := { s with key := p.key }) hj1 hend hsep (.inl rfl) hat1
      obtain ⟨i', j', hcut⟩ := runMarks_cut str i2 j2 closing.after after
        (({ s with key := p.key }.addPair p.value).behind stateKey i2 j2)
      exact ⟨i', j', i2, j2, hrun1.trans (hrun2.trans hcut)⟩
    | cons q ps =>
      obtain ⟨i1, j1, hj1, hat1, hrun1⟩ := runMarks_key (s := s) hj hkey h
      obtain ⟨i2, j2, hj2, hat2, hrun2⟩ :=
        runMarks_value (s := { s with key := p.key }) hj1 hend hsep (.inr rfl) hat1
      obtain ⟨i3, j3, ipos, spos, hrun3⟩ := ih (s := ({ s with key := p.key }.addPair p.value)) hj2
        (fun q hq => hp q (List.mem_cons_of_mem _ hq)) hat2
      exact ⟨i3, j3, ipos, spos, hrun1.trans (hrun2.trans hrun3)⟩

end

/-- The string that a value becomes. -/
def kept (t : StringType) (value : Text) : Text := (KeyedList.find strcmp value t).getD value

section

variable {t t' : StringType} {value data : Text} {s : DictRun}

theorem searchString_kept (t : StringType) (value : Text) :
    ∃ t', searchString (some t) value = some (kept t value, t') ∧ ∀ w, kept t' w = kept t w := by
  unfold searchString kept
  rw [Option.map_some]
  cases h : KeyedList.find strcmp value t with
  | some o => exact ⟨t, rfl, fun w => rfl⟩
  | none =>
    refine ⟨_, rfl, fun w => ?_⟩
    by_cases hw : w = value
    · rw [hw, KeyedList.find_put_self, h]
      rfl
    · rw [KeyedList.find_put_of_ne hw]

theorem addPair_none (h : s.strings = none) (value : Text) : s.addPair value = { s with key := [] } := by
  rw [DictRun.addPair, h]
  rfl

theorem addPair_some (h : s.strings = some t) (value : Text) :
    ∃ t', (∀ w, kept t' w = kept t w) ∧ (s.addPair value).strings = some t' ∧
      (s.addPair value).added = s.added ++ [(s.key, kept t value)] := by
  obtain ⟨t', hsearch, hkept⟩ := searchString_kept t value
  refine ⟨t', hkept, ?_, ?_⟩
  · rw [DictRun.addPair, h, hsearch]
  · rw [DictRun.addPair, h, hsearch]

theorem addPairs_none (h : s.strings = none) (pairs : List (Text × Text)) :
    (s.addPairs pairs).strings = none ∧ (s.addPairs pairs).added = s.added := by
  induction pairs generalizing s with
  | nil => exact ⟨h, rfl⟩
  | cons p ps ih =>
    have hpair := addPair_none (s := { s with key := p.1 }) h p.2
    obtain ⟨hstrings, hadded⟩ := @ih ({ s with key := p.1 }.addPair p.2) (by rw [hpair]; exact h)
    exact ⟨hstrings, hadded.trans (by rw [hpair])⟩

theorem addPairs_some (h : s.strings = some t) (pairs : List (Text × Text)) :
    (∃ t', (s.addPairs pairs).strings = some t') ∧
      (s.addPairs pairs).added = s.added ++ pairs.map fun p => (p.1, kept t p.2) := by
  induction pairs generalizing s t with
  | nil => exact ⟨⟨t, h⟩, by rw [List.map_nil, List.append_nil]; rfl⟩
  | cons p ps ih =>
    obtain ⟨t', hkept, hstrings, hadded⟩ := addPair_some (s := { s with key := p.1 }) h p.2
    obtain ⟨hsome, hall⟩ := ih hstrings
    refine ⟨hsome, hall.trans ?_⟩
    rw [hadded, List.append_assoc]
    simp only [hkept]
    rfl

end

/-- A pair can be read out of the text, from a token between key and value on. -/
def HasPair (t : Text) : Prop :=
  ∃ u v, t = u ++ tokenStartValue :: v ∧ (tokenEndDict ∈ v ∨ tokenEndValue ∈ v)

section

variable {str : List Text} {i j : Nat} {s : DictRun} {marks : CutText Byte} {t : Text} {c : Byte}

theorem hasPair_cons (hc : c ≠ tokenStartValue) : HasPair (c :: t) ↔ HasPair t := by
  constructor
  · rintro ⟨u, v, he, hv⟩
    cases u with
    | nil =>
      cases he
      exact absurd rfl hc
    | cons d u =>
      cases he
      exact ⟨u, v, rfl, hv⟩
  · rintro ⟨u, v, rfl, hv⟩
    exact ⟨c :: u, v, rfl, hv⟩

theorem hasPair_value : HasPair (tokenStartValue :: t) ↔ tokenEndDict ∈ t ∨ tokenEndValue ∈ t := by
  constructor
  · rintro ⟨u, v, he, hv⟩
    cases u with
    | nil =>
      cases he
      exact hv
    | cons d u =>
      cases he
      refine hv.imp (fun h => ?_) (fun h => ?_)
      · exact List.mem_append_right _ (List.mem_cons_of_mem _ h)
      · exact List.mem_append_right _ (List.mem_cons_of_mem _ h)
  · exact fun h => ⟨[], t, rfl, h⟩

/-- What one character can do to the pairs that have been added. -/
theorem step_added (str : List Text) (i j : Nat) (c : Byte) (s : DictRun) :
    ∃ x, (s.step str i j c).added = s.added ++ x := by
  unfold DictRun.step
  split
  · refine ⟨[], ?_⟩
    rw [List.append_nil]
    split <;> rfl
  · split
    · refine ⟨[], ?_⟩
      rw [List.append_nil]
      split <;> rfl
    · split
      · split
        · unfold DictRun.addPair
          dsimp only
          split
          · exact ⟨[], (List.append_nil _).symm⟩
          · exact ⟨_, rfl⟩
        · exact ⟨[], (List.append_nil _).symm⟩
      · exact ⟨[], (List.append_nil _).symm⟩

theorem runMarks_added (str : List Text) (i j : Nat) (marks : CutText Byte) (s : DictRun) :
    ∃ x, (runMarks str i j marks s).added = s.added ++ x := by
  induction marks generalizing i j s with
  | nil => exact ⟨[], (List.append_nil _).symm⟩
  | cons mark marks ih =>
    cases mark with
    | none => exact ih (i + 1) 0 s
    | some c =>
      obtain ⟨x, hx⟩ := step_added str i j c s
      obtain ⟨y, hy⟩ := ih i (j + 1) (s.step str i j c)
      exact ⟨x ++ y, by rw [runMarks, hy, hx, List.append_assoc]⟩

/-- At a value a pair is added exactly where a token that ends it follows. -/
theorem runMarks_at_value {strings : StringType} (hstate : s.state = stateValue)
    (hs : s.strings = some strings) :
    (runMarks str i j marks s).added = s.added ↔
      ¬ (tokenEndDict ∈ CutText.content marks ∨ tokenEndValue ∈ CutText.content marks) := by
  induction marks generalizing i j with
  | nil => exact iff_of_true rfl (by rintro (h | h) <;> exact nomatch h)
  | cons mark marks ih =>
    cases mark with
    | none => exact ih
    | some c =>
      have hcontent : CutText.content (some c :: marks) = c :: CutText.content marks := rfl
      rw [hcontent, runMarks]
      by_cases hc : c = tokenEndDict ∨ c = tokenEndValue
      · refine iff_of_false ?_ (not_not_intro ?_)
        · rw [step_value hstate hc]
          obtain ⟨x, hx⟩ := runMarks_added str i (j + 1) marks
            ((s.addPair (dictToken str i j s.ipos s.spos)).behind stateKey i (j + 1))
          obtain ⟨t', -, -, hadded⟩ := addPair_some hs (dictToken str i j s.ipos s.spos)
          rw [hx]
          dsimp only [DictRun.behind]
          rw [hadded]
          simp
        · rcases hc with rfl | rfl
          · exact .inl List.mem_cons_self
          · exact .inr List.mem_cons_self
      · rw [not_or] at hc
        have hquiet := quiet_value (t := [c]) hstate (by simpa using Ne.symm hc.1)
          (by simpa using Ne.symm hc.2)
        rw [hquiet _ _ _ _ List.mem_cons_self, ih]
        simp [Ne.symm hc.1, Ne.symm hc.2]

/-- At a key a pair is added exactly where one can be read out of what follows. -/
theorem runMarks_at_key {strings : StringType} (hstate : s.state = stateKey)
    (hs : s.strings = some strings) :
    (runMarks str i j marks s).added = s.added ↔ ¬ HasPair (CutText.content marks) := by
  induction marks generalizing i j with
  | nil =>
    refine iff_of_true rfl ?_
    rintro ⟨u, v, he, -⟩
    exact List.append_ne_nil_of_right_ne_nil u (List.cons_ne_nil _ _) he.symm
  | cons mark marks ih =>
    cases mark with
    | none => exact ih
    | some c =>
      have hcontent : CutText.content (some c :: marks) = c :: CutText.content marks := rfl
      rw [hcontent, runMarks]
      by_cases hc : c = tokenStartValue
      · rw [hc, step_key hstate, hasPair_value]
        exact runMarks_at_value rfl hs
      · rw [step_other hstate hc, hasPair_cons hc]
        exact ih

theorem runMarks_no_strings (hs : s.strings = none) : (runMarks str i j marks s).added = s.added := by
  induction marks generalizing i j s with
  | nil => rfl
  | cons mark marks ih =>
    cases mark with
    | none => exact ih hs
    | some c =>
      have hpair := addPair_none hs (dictToken str i j s.ipos s.spos)
      have hstep : (s.step str i j c).strings = none ∧ (s.step str i j c).added = s.added := by
        unfold DictRun.step
        rw [hpair]
        dsimp only
        split_ifs <;> exact ⟨hs, rfl⟩
      exact (ih hstep.1).trans hstep.2

end

/-- The tree of the dictionary with the pairs that have been added. -/
def putEach (entries : KeyedList Text Text) (added : List (Text × Text)) : KeyedList Text Text :=
  added.foldl (fun es p => KeyedList.put strcmp p.1 p.2 es) entries

section

variable {str : List Text} {i j : Nat} {s : DictRun} {marks : CutText Byte} {entries : KeyedList Text Text}

theorem step_entries {c : Byte} (h : s.entries = putEach entries s.added) :
    (s.step str i j c).entries = putEach entries (s.step str i j c).added := by
  have hpair : ∀ value, (s.addPair value).entries = putEach entries (s.addPair value).added := by
    intro value
    unfold DictRun.addPair
    split
    · exact h
    · dsimp only
      rw [putEach, List.foldl_append, h]
      rfl
  unfold DictRun.step
  dsimp only
  split_ifs <;> first | exact h | exact hpair _

theorem runMarks_entries (h : s.entries = putEach entries s.added) :
    (runMarks str i j marks s).entries = putEach entries (runMarks str i j marks s).added := by
  induction marks generalizing i j s with
  | nil => exact h
  | cons mark marks ih =>
    cases mark with
    | none => exact ih h
    | some c => exact ih (step_entries h)

end

/-- What `parse_dict_type_katcp` leaves has the pairs and no more: they have been added in their
order, one by one, to what the dictionary held. -/
def AddsExactly (entries : KeyedList Text Text) (pairs : List (Text × Text)) (s : DictRun) : Prop :=
  s.added = pairs ∧ s.entries = putEach entries pairs

/-- The type of strings keeps every value under its own text, and no pair can be read out of what
follows the dictionary. A dictionary without pairs needs no type. -/
def ReadsExactly (strings : Option StringType) (pairs : List (Text × Text)) (after : Text) : Prop :=
  match strings with
  | none => pairs = []
  | some t => (∀ p ∈ pairs, kept t p.2 = p.2) ∧ ¬ HasPair after

theorem map_kept_iff {t : StringType} {pairs : List (Text × Text)} :
    (pairs.map fun p => (p.1, kept t p.2)) = pairs ↔ ∀ p ∈ pairs, kept t p.2 = p.2 := by
  refine ⟨fun h p hp => ?_, fun h => ?_⟩
  · have := List.map_eq_map_iff.mp (h.trans (List.map_id' pairs).symm) p hp
    exact congrArg Prod.snd this
  · exact (List.map_eq_map_iff.mpr fun p hp => by rw [h p hp]).trans (List.map_id' pairs)

theorem parseDictType_runMarks (strings : Option StringType) (entries : KeyedList Text Text)
    (name : Text) (marks : CutText Byte) :
    parseDictType strings entries (name :: marks.pieces) =
      some (runMarks (name :: marks.pieces) 1 0 marks ⟨stateStart, 0, 0, [], strings, entries, []⟩) := by
  obtain ⟨a, as, h⟩ := CutText.pieces_cons marks
  rw [← parseArgs_pieces h, h]
  rfl

theorem parseDictType_entries {strings : Option StringType} {entries : KeyedList Text Text}
    {name : Text} {marks : CutText Byte} {s : DictRun}
    (h : parseDictType strings entries (name :: marks.pieces) = some s) :
    s.entries = putEach entries s.added := by
  rw [parseDictType_runMarks] at h
  cases h
  exact runMarks_entries rfl

/-- The opening token is found, and the parser is behind it. -/
theorem runMarks_opening {str : List Text} {s : DictRun} {opening : Bool} {marks : CutText Byte}
    (hs : s.state = stateStart)
    (h : CutText.At str 1 0 (cutMark opening ++ some tokenStartDict :: marks)) :
    ∃ i j, 0 < j ∧ CutText.At str i j marks ∧
      runMarks str 1 0 (cutMark opening ++ some tokenStartDict :: marks) s =
        runMarks str i j marks (s.behind stateKey i j) := by
  have hstep : ∀ i j, s.step str i j tokenStartDict = s.behind stateKey i (j + 1) := by
    intro i j
    rw [DictRun.step, if_pos hs, if_pos rfl]
    rfl
  cases opening with
  | false =>
    refine ⟨1, 1, Nat.one_pos, h.past, ?_⟩
    rw [cutMark, if_neg (by decide), List.nil_append, runMarks, hstep]
  | true =>
    refine ⟨2, 1, Nat.one_pos, h.next.past, ?_⟩
    rw [cutMark, if_pos rfl, List.singleton_append, runMarks, runMarks, hstep]

theorem parse_pairs (strings : Option StringType) (entries : KeyedList Text Text) (name : Text)
    (opening : TokenCut) (pairs : List DictPair) (closing : TokenCut) (after : CutText Byte)
    (hp : ∀ p ∈ pairs, p.Plain) :
    ∃ s, parseDictType strings entries
        (name :: (dictMarks opening pairs closing after).pieces) = some s ∧
      (s.added = pairs.map DictPair.pair ↔
        ReadsExactly strings (pairs.map DictPair.pair) after.content) := by
  obtain ⟨i, j, hj, hat, hopen⟩ :=
    runMarks_opening (s := ⟨stateStart, 0, 0, [], strings, entries, []⟩) rfl
      (CutText.at_start name (dictMarks opening pairs closing after))
  obtain ⟨i', j', ipos, spos, hpairs⟩ := @runMarks_pairs _ i j
    ⟨stateStart, 0, 0, [], strings, entries, []⟩ opening.after pairs closing after hj hp hat
  refine ⟨_, (parseDictType_runMarks ..).trans (congrArg some (hopen.trans hpairs)), ?_⟩
  cases strings with
  | none =>
    obtain ⟨hnone, hadded⟩ := addPairs_none (s := ⟨stateStart, 0, 0, [], none, entries, []⟩) rfl
      (pairs.map DictPair.pair)
    have hrun := @runMarks_no_strings (name :: (dictMarks opening pairs closing after).pieces) i' j'
      ((DictRun.addPairs ⟨stateStart, 0, 0, [], none, entries, []⟩ (pairs.map DictPair.pair)).behind
        stateKey ipos spos) after hnone
    rw [hrun]
    dsimp only [DictRun.behind, ReadsExactly]
    rw [hadded, eq_comm]
  | some t =>
    obtain ⟨⟨t', hsome⟩, hadded⟩ := addPairs_some
      (s := ⟨stateStart, 0, 0, [], some t, entries, []⟩) rfl (pairs.map DictPair.pair)
    obtain ⟨x, hx⟩ := runMarks_added (name :: (dictMarks opening pairs closing after).pieces) i' j' after
      ((DictRun.addPairs ⟨stateStart, 0, 0, [], some t, entries, []⟩ (pairs.map DictPair.pair)).behind
        stateKey ipos spos)
    have hkey := @runMarks_at_key (name :: (dictMarks opening pairs closing after).pieces) i' j'
      ((DictRun.addPairs ⟨stateStart, 0, 0, [], some t, entries, []⟩ (pairs.map DictPair.pair)).behind
        stateKey ipos spos) after t' rfl hsome
    rw [hx] at hkey ⊢
    dsimp only [DictRun.behind] at hkey ⊢
    rw [hadded] at hkey ⊢
    rw [List.nil_append] at hkey ⊢
    rw [List.append_right_eq_self] at hkey
    rw [ReadsExactly, ← hkey, ← map_kept_iff]
    constructor
    · intro h
      have hlen := congrArg List.length h
      rw [List.length_append, List.length_map] at hlen
      have hnil : x = [] := List.eq_nil_of_length_eq_zero (by omega)
      rw [hnil, List.append_nil] at h
      exact ⟨h, hnil⟩
    · rintro ⟨h, rfl⟩
      rw [List.append_nil]
      exact h

theorem dict_pairs_iff (strings : Option StringType) (entries : KeyedList Text Text) (name : Text)
    (opening : TokenCut) (pairs : List DictPair) (closing : TokenCut) (after : CutText Byte)
    (hp : ∀ p ∈ pairs, p.Plain) :
    (∃ s, parseDictType strings entries
        (name :: (dictMarks opening pairs closing after).pieces) = some s ∧
      AddsExactly entries (pairs.map DictPair.pair) s) ↔
    ReadsExactly strings (pairs.map DictPair.pair) after.content := by
  obtain ⟨s, hs, hrun⟩ := parse_pairs strings entries name opening pairs closing after hp
  rw [hs]
  have hentries := parseDictType_entries hs
  constructor
  · rintro ⟨s', hs', hadded, -⟩
    cases hs'
    exact hrun.mp hadded
  · intro h
    have hadded := hrun.mpr h
    exact ⟨s, rfl, hadded, by rw [hentries, hadded]⟩

/-- The pair of `{a:1}`, with a cut behind its key. -/
def onePair : DictPair := ⟨[byte 'a'], ⟨true, false⟩, [byte '1'], ⟨false, false⟩⟩

theorem dict_pairs_cut :
    (∃ s, parseDictType (some []) [] ([byte 'd'] ::
        (dictMarks ⟨false, true⟩ [onePair] ⟨true, true⟩ [some (byte 'x')]).pieces) = some s ∧
      AddsExactly [] ([onePair].map DictPair.pair) s) ↔
    ReadsExactly (some []) ([onePair].map DictPair.pair) [byte 'x'] :=
  dict_pairs_iff (some []) [] [byte 'd'] ⟨false, true⟩ [onePair] ⟨true, true⟩ [some (byte 'x')] (by decide)

/-- The dictionary `{a:1}` with `x:2,` behind it. -/
theorem pair_after_end :
    onePair.Plain ∧
      (dictMarks ⟨false, false⟩ [onePair] ⟨false, false⟩ ((textOf "x:2,").map some)).pieces =
        [textOf "\x7ba", textOf ":1\x7dx:2,"] ∧
      ∃ s, parseDictType (some []) [] [textOf "d", textOf "\x7ba", textOf ":1\x7dx:2,"] = some s ∧
        s.added = [onePair.pair, (textOf "x", textOf "2")] ∧ ¬ AddsExactly [] [onePair.pair] s := by
  have hadded : ∀ s, parseDictType (some []) [] [textOf "d", textOf "\x7ba", textOf ":1\x7dx:2,"] = some s →
      s.added = [onePair.pair, (textOf "x", textOf "2")] := by
    intro s hs
    cases hs
    decide
  refine ⟨by decide, by decide, _, rfl, hadded _ rfl, fun h => ?_⟩
  have := h.1.symm.trans (hadded _ rfl)
  exact absurd this (by decide)

end Katcp
