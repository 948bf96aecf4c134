import Katcp.ConfData
import Katcp.Transducer

namespace Katcp

/-- What is stored, in the order in which it is read. -/
inductive ConfEvent
  | comment (str : Text)
  | label (str : Text)
  | setting (str : Text)
  | value (str : Text)
deriving DecidableEq, Repr

/-- The state of the parser with the bytes from its position on. -/
structure ConfState where
  state : ParserState
  since : Text
deriving DecidableEq, Repr

def ConfState.turn (s : ConfState) (c : Byte) : ConfState × List ConfEvent :=
  match s.state with
  | .comment =>
    if endsLine c then (⟨.start, []⟩, [.comment (cString s.since)]) else (⟨.comment, s.since ++ [c]⟩, [])
  | .label => if c = clabel then (⟨.start, [c]⟩, [.label (rmWhitespace s.since)]) else (⟨.label, s.since ++ [c]⟩, [])
  | .setting => (⟨.value, [c]⟩, [.setting (rmWhitespace s.since.dropLast)])
  | .value =>
    if c = olabel then (⟨.mlvalue, [c]⟩, [])
    else if c = valueMark then (⟨.value, []⟩, [.value (rmWhitespace s.since)])
    else if endsLine c then (⟨.start, []⟩, [.value (rmWhitespace s.since)])
    else (⟨.value, s.since ++ [c]⟩, [])
  | .mlvalue =>
    if c = clabel then (⟨.start, s.since ++ [c]⟩, [.value (cString (s.since ++ [c]))])
    else (⟨.mlvalue, s.since ++ [c]⟩, [])
  | .start =>
    if c = commentMark then (⟨.comment, [c]⟩, [])
    else if c = olabel then (⟨.label, []⟩, [])
    else if c = settingMark then (⟨.setting, s.since ++ [c]⟩, [])
    else if endsLine c then (⟨.start, []⟩, [])
    else (⟨.start, s.since ++ [c]⟩, [])

def confScan : Transducer ConfState Byte ConfEvent := ⟨ConfState.turn⟩

def lineStart : ConfState := ⟨.start, []⟩

/-- Everything that is stored of a file. -/
def confEvents (buf : Text) : List ConfEvent := (confScan.run lineStart buf).2

def PTree.store (t : PTree) : ConfEvent → Option PTree
  | .comment str => some (t.storeComment str)
  | .label str => some (t.storeLabel str)
  | .setting str => t.storeSetting str
  | .value str => t.storeValue str

section

variable {buf rest : Text} {start stop : Nat} {p : PParser} {t : PTree} {c : Byte} {i : Nat}

theorem partOf_length (h : stop ≤ buf.length) : (partOf buf start stop).length = stop - start := by
  rw [partOf, List.length_take, List.length_drop]
  omega

theorem partOf_snoc (hle : start ≤ stop) (hc : buf[stop]? = some c) :
    partOf buf start (stop + 1) = partOf buf start stop ++ [c] := by
  obtain ⟨hlt, hget⟩ := List.getElem?_eq_some_iff.mp hc
  have hd : (buf.drop start)[stop - start]? = some c := by
    rw [List.getElem?_drop, Nat.add_sub_cancel' hle, hc]
  rw [partOf, partOf, Nat.succ_sub hle, List.take_add_one, hd]
  rfl

theorem partOf_self (buf : Text) (i : Nat) : partOf buf i i = [] := by
  rw [partOf, Nat.sub_self, List.take_zero]

theorem partOf_dropLast (h : stop ≤ buf.length) : (partOf buf start stop).dropLast = partOf buf start (stop - 1) := by
  rw [List.dropLast_eq_take, partOf_length h, partOf, partOf, List.take_take]
  congr 1
  omega

/-- What the scan said is stored, and the parser stands where the bytes that are left begin. -/
def ConfState.stored (i : Nat) (t : PTree) (x : ConfState × List ConfEvent) : Option PParser :=
  (x.2.foldlM PTree.store t).map fun t => ⟨x.1.state, i - x.1.since.length, t⟩

theorem stored_quiet (state : ParserState) (since : Text) :
    ConfState.stored i t (⟨state, since⟩, []) = some ⟨state, i - since.length, t⟩ := rfl

theorem stored_one (state : ParserState) (since : Text) (e : ConfEvent) :
    ConfState.stored i t (⟨state, since⟩, [e]) = (t.store e).map fun t => ⟨state, i - since.length, t⟩ := by
  rw [ConfState.stored, List.foldlM_cons]
  cases t.store e <;> rfl

/-- One turn of the loop stores what the scan says, and goes on as it does. -/
theorem turn_scan (hpos : p.pos ≤ i) (hc : buf[i]? = some c) :
    p.turn buf i c = ConfState.stored (i + 1) p.tree (ConfState.turn ⟨p.state, partOf buf p.pos i⟩ c) := by
  obtain ⟨state, pos, t⟩ := p
  have hpos : pos ≤ i := hpos
  obtain ⟨hlt, -⟩ := List.getElem?_eq_some_iff.mp hc
  have hlen : (partOf buf pos i).length = i - pos := partOf_length (Nat.le_of_lt hlt)
  have hback : i + 1 - (partOf buf pos i ++ [c]).length = pos := by
    rw [List.length_append, hlen, List.length_singleton]
    omega
  cases state with
  | start =>
    simp only [PParser.turn, ConfState.turn]
    split
    · rfl
    split
    · rfl
    split
    · rw [stored_quiet, hback]
    split
    · rfl
    · rw [stored_quiet, hback]
  | comment =>
    simp only [PParser.turn, ConfState.turn]
    split
    · rfl
    · rw [stored_quiet, hback]
  | label =>
    simp only [PParser.turn, ConfState.turn]
    split
    · rfl
    · rw [stored_quiet, hback]
  | setting =>
    simp only [PParser.turn, ConfState.turn]
    rw [stored_one, partOf_dropLast (Nat.le_of_lt hlt)]
    rfl
  | value =>
    simp only [PParser.turn, ConfState.turn]
    split
    · rfl
    split
    · rw [stored_one]
      rfl
    split
    · rw [stored_one]
      rfl
    · rw [stored_quiet, hback]
  | mlvalue =>
    simp only [PParser.turn, ConfState.turn]
    split
    · rw [stored_one, hback, partOf_snoc hpos hc]
      rfl
    · rw [stored_quiet, hback]

theorem turn_since_cases (s : ConfState) (c : Byte) :
    (s.turn c).1.since = [] ∨ (s.turn c).1.since = [c] ∨ (s.turn c).1.since = s.since ++ [c] := by
  unfold ConfState.turn
  split
  · split <;> simp
  · split <;> simp
  · simp
  · split
    · simp
    split
    · simp
    split <;> simp
  · split <;> simp
  · split
    · simp
    split
    · simp
    split
    · simp
    split <;> simp

/-- The bytes that a scan keeps are the last that it has read. -/
theorem turn_since {state : ParserState} {pos : Nat} (hpos : pos ≤ i) (hc : buf[i]? = some c) :
    ∃ j ≤ i + 1, (ConfState.turn ⟨state, partOf buf pos i⟩ c).1.since = partOf buf j (i + 1) := by
  rcases turn_since_cases ⟨state, partOf buf pos i⟩ c with h | h | h
  · exact ⟨i + 1, Nat.le_refl _, h.trans (partOf_self buf _).symm⟩
  · refine ⟨i, Nat.le_succ i, h.trans ?_⟩
    rw [partOf_snoc (Nat.le_refl i) hc, partOf_self]
    rfl
  · exact ⟨pos, Nat.le_succ_of_le hpos, h.trans (partOf_snoc hpos hc).symm⟩

theorem stored_append {s : ConfState} {es es' : List ConfEvent} : ConfState.stored i t (s, es ++ es') =
    (es.foldlM PTree.store t).bind fun t => ConfState.stored i t (s, es') := by
  rw [ConfState.stored, List.foldlM_append]
  cases es.foldlM PTree.store t <;> rfl

theorem turns_scan (hpos : p.pos ≤ i) (hi : i ≤ buf.length) (hrest : buf.drop i = rest) :
    p.turns buf i rest = ConfState.stored buf.length p.tree (confScan.run ⟨p.state, partOf buf p.pos i⟩ rest) := by
  induction rest generalizing p i with
  | nil =>
    have hend : i = buf.length := Nat.le_antisymm hi (List.drop_eq_nil_iff.mp hrest)
    subst hend
    have hback : buf.length - (partOf buf p.pos buf.length).length = p.pos := by
      rw [partOf_length (Nat.le_refl _)]
      omega
    rw [Transducer.run_nil, stored_quiet, hback]
    rfl
  | cons c rest ih =>
    have hc : buf[i]? = some c := by rw [← List.head?_drop, hrest, List.head?_cons]
    have hnext : buf.drop (i + 1) = rest := by rw [← List.tail_drop, hrest, List.tail_cons]
    obtain ⟨hlt, -⟩ := List.getElem?_eq_some_iff.mp hc
    obtain ⟨j, hj, hsince⟩ := @turn_since buf c i p.state p.pos hpos hc
    rw [PParser.turns, turn_scan hpos hc, Transducer.run_cons, stored_append]
    have hstep : confScan.step ⟨p.state, partOf buf p.pos i⟩ c = ConfState.turn ⟨p.state, partOf buf p.pos i⟩ c := rfl
    rw [hstep]
    generalize ConfState.turn ⟨p.state, partOf buf p.pos i⟩ c = x at hsince ⊢
    obtain ⟨⟨state, since⟩, es⟩ := x
    have hsince : since = partOf buf j (i + 1) := hsince
    subst hsince
    have hback : i + 1 - (partOf buf j (i + 1)).length = j := by
      rw [partOf_length hlt]
      omega
    rw [ConfState.stored]
    dsimp only
    rw [hback]
    cases es.foldlM PTree.store p.tree with
    | none => rfl
    | some t => exact @ih ⟨state, j, t⟩ (i + 1) hj hlt hnext

/-- `start_parser` stores what the scan of the whole file says. -/
theorem startParser_scan (hbuf : buf ≠ []) :
    startParser buf = ((confEvents buf).foldlM PTree.store noTree).elim (.error .wild) .ok := by
  have hturns := @turns_scan buf buf ⟨.start, 0, noTree⟩ 0 (Nat.le_refl 0) (Nat.zero_le _) rfl
  dsimp only at hturns
  rw [partOf_self] at hturns
  rw [startParser, if_neg (mt List.isEmpty_iff.mp hbuf), hturns, ConfState.stored]
  show _ = (((confScan.run lineStart buf).2.foldlM PTree.store noTree).elim _ _)
  rw [lineStart]
  cases (confScan.run ⟨.start, []⟩ buf).2.foldlM PTree.store noTree <;> rfl

end

end Katcp
