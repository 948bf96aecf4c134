import Katcp.VrblNames

namespace Katcp

def delimLogic : Byte := byte '.'
def delimForbid : Byte := byte '_'

def isPrint (c : Byte) : Bool := 32 ≤ c && c ≤ 126

/-- `fixup_remap_table` -/
def fixupRemap (c : Byte) : Byte :=
  if c = delimForbid then delimSpacer
  else if c = delimArray ∨ c = delimTree ∨ c = delimGroup then delimLogic
  else if isPrint (toLower c) then toLower c
  else delimSpacer

/-- What `make_child_field_katcp` allocates, and the bytes that it writes there from the start on. -/
structure ChildField where
  size : Nat
  copy : List Byte
  deriving DecidableEq, Repr

def ChildField.text (f : ChildField) : Text := cString f.copy

/-- What is put in front of a name: nothing if the name starts with a separator. -/
def fieldPrefix (name : Text) (prepend : Option Text) : Text :=
  if name.head? = some delimLogic then [] else prepend.getD []

def stripName (name : Text) : Text := if name.head? = some delimLogic then name.tail else name

def fieldFront (name : Text) (prepend : Option Text) : Text :=
  if fieldPrefix name prepend = [] then [] else (fieldPrefix name prepend).map fixupRemap ++ [delimLogic]

/-- `make_child_field_katcp` -/
def makeChildField (name : Text) (prepend : Option Text) (locator : Bool) : Option ChildField :=
  if delimGroup ∈ name then some ⟨name.length + 1, name ++ [0]⟩
  else if stripName name = [] then none
  else
    let mark := if locator then [delimGroup] else []
    let size := 1 + (if locator then 2 else 0) + ((fieldPrefix name prepend).length + 1) + (stripName name).length
    some ⟨size, mark ++ fieldFront name prepend ++ (stripName name).map fixupRemap ++ mark ++ [0]⟩

/-- The name of the variable of a sensor. -/
def fieldName (name : Text) (prepend : Option Text) : Text :=
  fieldFront name prepend ++ (stripName name).map fixupRemap

section

variable {name name' field : Text} {prepend : Option Text} {locator : Bool} {f : ChildField}

theorem fixupRemap_table : ∀ b : BitVec 8, (fixupRemap ⟨b⟩ ≠ 0 ∧ fixupRemap ⟨b⟩ ≠ delimGroup ∧
    isDelim (fixupRemap ⟨b⟩) = false) := by
  decide +kernel

theorem fixupRemap_plain (c : Byte) : fixupRemap c ≠ 0 ∧ fixupRemap c ≠ delimGroup ∧ isDelim (fixupRemap c) = false :=
  fixupRemap_table c.toBitVec

theorem map_fixupRemap_plain (t : Text) : ∀ c ∈ t.map fixupRemap, c ≠ 0 ∧ c ≠ delimGroup ∧ isDelim c = false := by
  intro c hc
  obtain ⟨b, -, rfl⟩ := List.mem_map.mp hc
  exact fixupRemap_plain b

theorem length_fieldFront : (fieldFront name prepend).length ≤ (fieldPrefix name prepend).length + 1 := by
  rw [fieldFront]
  split
  · exact Nat.zero_le _
  · rw [List.length_append, List.length_map, List.length_singleton]

/-- A name that is built fits into what is allocated for it. -/
theorem makeChildField_fits (h : makeChildField name prepend locator = some f) : f.copy.length ≤ f.size := by
  unfold makeChildField at h
  split at h
  next =>
    cases h
    rw [List.length_append]
    rfl
  next =>
    split at h
    next => cases h
    next =>
      cases h
      have hfront := @length_fieldFront name prepend
      cases locator <;> simp [List.length_append] <;> omega

theorem fieldName_plain (hstrip : stripName name ≠ []) : PlainName (fieldName name prepend) := by
  refine ⟨fun hnil => ?_, fun c hc => ?_⟩
  · exact hstrip (List.map_eq_nil_iff.mp (List.append_eq_nil_iff.mp hnil).2)
  · rcases List.mem_append.mp hc with hc | hc
    · rw [fieldFront] at hc
      split at hc
      · cases hc
      · rcases List.mem_append.mp hc with hc | hc
        · exact map_fixupRemap_plain _ c hc
        · rw [List.mem_singleton.mp hc]
          decide
    · exact map_fixupRemap_plain _ c hc

/-- A name without the mark of a group is built from the name of the variable, between marks for a declaration. -/
theorem makeChildField_text (h : delimGroup ∉ name) :
    (makeChildField name prepend locator).map ChildField.text =
      if stripName name = [] then none
      else some (if locator then delimGroup :: (fieldName name prepend ++ [delimGroup])
        else fieldName name prepend) := by
  rw [makeChildField, if_neg h]
  split
  · rfl
  next hstrip =>
    have hplain := (@fieldName_plain name prepend hstrip).2
    rw [Option.map_some, ChildField.text]
    dsimp only
    cases locator with
    | false =>
      simp only [Bool.false_eq_true, if_false, List.nil_append, List.append_nil]
      rw [← fieldName, cString, List.takeWhile_append_of_pos fun c hc => decide_eq_true (hplain c hc).1]
      exact congrArg some (List.append_nil _)
    | true =>
      have hmarked : ∀ c ∈ delimGroup :: (fieldName name prepend ++ [delimGroup]), decide (c ≠ 0) = true := by
        intro c hc
        rw [List.mem_cons, List.mem_append, List.mem_singleton] at hc
        rcases hc with rfl | hc | rfl
        · decide
        · exact decide_eq_true (hplain c hc).1
        · decide
      have hcopy : ∀ front strip : Text, [delimGroup] ++ front ++ strip ++ [delimGroup] ++ [0] =
          (delimGroup :: ((front ++ strip) ++ [delimGroup])) ++ [0] := by
        intro front strip
        simp only [List.append_assoc, List.cons_append, List.nil_append]
      simp only [if_true]
      rw [hcopy, cString, ← fieldName, List.takeWhile_append_of_pos hmarked]
      exact congrArg some (List.append_nil _)

theorem map_stripName (h : name.head? = some delimLogic) :
    name.map fixupRemap = delimLogic :: (stripName name).map fixupRemap := by
  rw [stripName, if_pos h]
  cases name with
  | nil => cases h
  | cons c name =>
    cases h
    rfl

/-- Names of one client that both start with a separator or both do not: what is built of them differs as they do
after the substitution. -/
theorem fieldName_injective (hlead : name.head? = some delimLogic ↔ name'.head? = some delimLogic)
    (h : fieldName name prepend = fieldName name' prepend) : name.map fixupRemap = name'.map fixupRemap := by
  have hprefix : fieldPrefix name prepend = fieldPrefix name' prepend := by
    rw [fieldPrefix, fieldPrefix, if_congr hlead rfl rfl]
  rw [fieldName, fieldName, fieldFront, fieldFront, hprefix] at h
  have hstrip := List.append_cancel_left h
  by_cases hname : name.head? = some delimLogic
  · rw [map_stripName hname, map_stripName (hlead.mp hname), hstrip]
  · rw [stripName, stripName, if_neg hname, if_neg (mt hlead.mpr hname)] at hstrip
    exact hstrip

end

end Katcp
