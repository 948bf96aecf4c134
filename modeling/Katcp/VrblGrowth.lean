import Katcp.VrblPath

namespace Katcp

/-- `katcp_vrbl_array`: the block that `a_elements` points to, and `a_size`. -/
structure PayloadArray where
  aElements : List (Option Payload)
  aSize : Nat

/-- The block has as many places as the array claims. -/
def PayloadArray.Sound (va : PayloadArray) : Prop :=
  va.aElements.length = va.aSize ∧ va.aSize < uintMod

/-- How far a scan of an array comes by itself: to an element that it descends into, or not.
A wild one has left the block, and `freed` is a block that was given up for a size of zero. -/
inductive ArrayScan where
  | refused
  | whole
  | wild
  | freed
  | element (index : Nat) (rest : Option Text) (ty : Payload) (va : PayloadArray)

/-- The block after a `realloc`, with what happens to lie behind the old one. -/
def reallocated (junk : Nat → Option Payload) (es : List (Option Payload)) (size : Nat) :
    List (Option Payload) :=
  es.take size ++ (List.range (size - es.length)).map junk

def storeElement (es : List (Option Payload)) (i : Nat) (ty : Option Payload) :
    Option (List (Option Payload)) :=
  if i < es.length then some (es.set i ty) else none

/-- The loop that clears what `realloc` has added, by its rounds. -/
def clearElements : Nat → List (Option Payload) → Nat → Option (List (Option Payload))
  | 0, es, _ => some es
  | n + 1, es, i => (storeElement es i none).bind fun es => clearElements n es ((i + 1) % uintMod)

section

variable (how : HowCreate) (type : Option VrblType) (rest : Option Text)

/-- The end of `scan_array_vrbl_katcp`, up to the scan of the element. -/
def takeElement (va : PayloadArray) (index : Nat) : ArrayScan :=
  match va.aElements[index]? with
  | none => .wild
  | some (some ty) => .element index rest ty va
  | some none =>
    match createChild how type rest with
    | none => .refused
    | some ty =>
      match storeElement va.aElements index (some ty) with
      | none => .wild
      | some es => .element index rest ty ⟨es, va.aSize⟩

variable (zeroBlock : Bool) (junk : Nat → Option Payload)

/-- `zeroBlock` tells whether a `realloc` to no bytes gives a block. -/
def growElements (va : PayloadArray) (index : Nat) : ArrayScan :=
  if how = .noCreate ∨ type = none then .refused
  else
    let size := (index + 1) % uintMod
    if size = 0 ∧ va.aElements ≠ [] ∧ zeroBlock = false then .freed
    else
      match clearElements (index + 1 - va.aSize) (reallocated junk va.aElements size) va.aSize with
      | none => .wild
      | some es => takeElement how type rest ⟨es, size⟩ index

end

/-- `scan_array_vrbl_katcp` with the sizes and indices that it computes, up to the recursion. -/
def scanArrayBlock (zeroBlock : Bool) (junk : Nat → Option Payload) (va : PayloadArray)
    (text path : Option Text) (how : HowCreate) (type : Option VrblType) : ArrayScan :=
  match path with
  | none => if text = none then .whole else .refused
  | some path =>
    if path.head? ≠ some delimArray then .refused
    else match nextElementPath path with
    | none => .refused
    | some next =>
      if next = 1 then .refused
      else match writeIndex va.aSize path with
      | none => .refused
      | some index =>
        let rest := restPath path next
        if va.aSize ≤ index then growElements how type rest zeroBlock junk va index
        else takeElement how type rest va index

/-- The index of a path before it is kept in an `unsigned int`. -/
def textIndex (aSize : Nat) (path : Text) : Option Nat :=
  if path.tail.head? = some delimSpacer then some aSize
  else
    let (value, rest) := strtoul path.tail
    if rest.length = path.tail.length then none else some value

/-- The element is the one of the text and lies in the array, and the others are as they were. -/
def ArrayScan.Kept (va : PayloadArray) (path : Option Text) : ArrayScan → Prop
  | .refused => True
  | .whole => True
  | .wild => False
  | .freed => False
  | .element index _ ty va' =>
    path.bind (textIndex va.aSize) = some index ∧ va'.Sound ∧ index < va'.aSize ∧
      va.aSize ≤ va'.aSize ∧ va'.aElements[index]? = some (some ty) ∧
      ∀ i, i < va.aSize → i ≠ index → va'.aElements[i]? = va.aElements[i]?

/-- A scan that may make what is missing. -/
def MayMake (how : HowCreate) (type : Option VrblType) : Prop := how ≠ .noCreate ∧ type ≠ none

/-- A path that the scan follows to an element which is there or may be made. -/
def Followed (va : PayloadArray) (path : Text) (how : HowCreate) (type : Option VrblType)
    (value : Nat) : Prop :=
  path.head? = some delimArray ∧ (∃ next, nextElementPath path = some next ∧ next ≠ 1) ∧
    textIndex va.aSize path = some value ∧
    (MayMake how type ∨ ((va.aElements[value % uintMod]?).join).isSome)

theorem writeIndex_text {aSize : Nat} (path : Text) (h : aSize < uintMod) :
    writeIndex aSize path = (textIndex aSize path).map (· % uintMod) := by
  unfold writeIndex textIndex pathIndex
  split
  next => simp [Nat.mod_eq_of_lt h]
  next =>
    dsimp only
    split
    next => rfl
    next => rfl

theorem length_reallocated {junk : Nat → Option Payload} {es : List (Option Payload)} {size : Nat}
    (h : es.length ≤ size) : (reallocated junk es size).length = size := by
  simp [reallocated]
  omega

theorem reallocated_zero (junk : Nat → Option Payload) (es : List (Option Payload)) :
    reallocated junk es 0 = [] := by
  simp [reallocated]

/-- The loop clears `n` places from `i` on where the block has them. -/
theorem clearElements_some {n i : Nat} {es : List (Option Payload)} (h : i + n ≤ es.length)
    (hlt : i + n < uintMod) :
    ∃ es', clearElements n es i = some es' ∧ es'.length = es.length ∧
      (∀ j, j < i → es'[j]? = es[j]?) ∧ ∀ j, i ≤ j → j < i + n → es'[j]? = some none := by
  induction n generalizing es i with
  | zero => exact ⟨es, rfl, rfl, fun _ _ => rfl, fun j hj hj' => absurd hj' (by omega)⟩
  | succ n ih =>
    have hi : i < es.length := by omega
    obtain ⟨es', hes, hlen, hlow, hhigh⟩ :=
      @ih (i + 1) (es.set i none) (by simp; omega) (by omega)
    refine ⟨es', ?_, by simpa using hlen, fun j hj => ?_, fun j hj hj' => ?_⟩
    · rw [clearElements, storeElement, if_pos hi, Option.bind_some,
        Nat.mod_eq_of_lt (by omega)]
      exact hes
    · rw [hlow j (by omega), List.getElem?_set_ne (by omega)]
    · by_cases hji : j = i
      · rw [hji, hlow i (by omega), List.getElem?_set_self hi]
      · exact hhigh j (by omega) (by omega)

theorem clearElements_none {n i : Nat} {es : List (Option Payload)} (h : es.length ≤ i)
    (hn : 0 < n) : clearElements n es i = none := by
  cases n with
  | zero => exact absurd hn (by decide)
  | succ n => rw [clearElements, storeElement, if_neg (by omega), Option.bind_none]

section

variable {how : HowCreate} {type : Option VrblType} {rest : Option Text} {zeroBlock : Bool}
variable {junk : Nat → Option Payload} {va va' : PayloadArray} {index : Nat} {path : Option Text}

theorem createChild_made (h : MayMake how type) : ∃ ty, createChild how type rest = some ty := by
  obtain ⟨hhow, htype⟩ := h
  obtain ⟨t, rfl⟩ := Option.ne_none_iff_exists'.mp htype
  exact ⟨_, by rw [createChild, if_neg hhow, Option.map_some]⟩

theorem createChild_refused (h : ¬ MayMake how type) : createChild how type rest = none := by
  by_cases hhow : how = .noCreate
  · rw [createChild, if_pos hhow]
  · have htype : type = none := by
      by_contra htype
      exact h ⟨hhow, htype⟩
    rw [createChild, if_neg hhow, htype, Option.map_none]

/-- The element that is taken is the one that was asked for. -/
theorem takeElement_index {i : Nat} {r : Option Text} {ty : Payload}
    (h : takeElement how type rest va index = .element i r ty va') : i = index := by
  unfold takeElement at h
  split at h
  · cases h
  · cases h
    rfl
  · split at h
    · cases h
    · split at h
      · cases h
      · cases h
        rfl

theorem growElements_index {i : Nat} {r : Option Text} {ty : Payload}
    (h : growElements how type rest zeroBlock junk va index = .element i r ty va') :
    i = index := by
  unfold growElements at h
  split at h
  · cases h
  · dsimp only at h
    split at h
    · cases h
    · split at h
      · cases h
      · exact takeElement_index h

theorem takeElement_goes
    (h : MayMake how type ∨ ((va.aElements[index]?).join).isSome) :
    takeElement how type rest va index ≠ .refused ∧ takeElement how type rest va index ≠ .whole := by
  unfold takeElement
  split
  · exact ⟨nofun, nofun⟩
  · exact ⟨nofun, nofun⟩
  next hnone =>
    rw [hnone] at h
    obtain ⟨ty, hty⟩ := @createChild_made how type rest (h.resolve_right (by simp))
    rw [hty]
    dsimp only
    split
    · exact ⟨nofun, nofun⟩
    · exact ⟨nofun, nofun⟩

theorem growElements_goes (h : MayMake how type) :
    growElements how type rest zeroBlock junk va index ≠ .refused ∧
      growElements how type rest zeroBlock junk va index ≠ .whole := by
  unfold growElements
  rw [if_neg (by rintro (hhow | htype); exacts [h.1 hhow, h.2 htype])]
  dsimp only
  split
  · exact ⟨nofun, nofun⟩
  · split
    · exact ⟨nofun, nofun⟩
    · exact takeElement_goes (.inl h)

theorem takeElement_kept (hs : va'.Sound) (hi : index < va'.aSize)
    (htext : path.bind (textIndex va.aSize) = some index) (hle : va.aSize ≤ va'.aSize)
    (hold : ∀ i, i < va.aSize → va'.aElements[i]? = va.aElements[i]?) :
    (takeElement how type rest va' index).Kept va path := by
  obtain ⟨hlen, hlt⟩ := hs
  have hin : index < va'.aElements.length := by omega
  unfold takeElement
  split
  next hnone => exact absurd (List.getElem?_eq_none_iff.mp hnone) (by omega)
  next ty hty => exact ⟨htext, ⟨hlen, hlt⟩, hi, hle, hty, fun i hi' _ => hold i hi'⟩
  next =>
    split
    · trivial
    next ty _ =>
      rw [storeElement, if_pos hin]
      refine ⟨htext, ⟨by simpa using hlen, hlt⟩, hi, hle, List.getElem?_set_self hin, ?_⟩
      intro i hi' hne
      exact (List.getElem?_set_ne (Ne.symm hne)).trans (hold i hi')

/-- An array that grows below the last index has room for it, and what it had is in place. -/
theorem growElements_kept (hs : va.Sound) (hi : va.aSize ≤ index) (hlt : index + 1 < uintMod)
    (htext : path.bind (textIndex va.aSize) = some index) :
    (growElements how type rest zeroBlock junk va index).Kept va path := by
  obtain ⟨hlen, -⟩ := hs
  have hsize : (index + 1) % uintMod = index + 1 := Nat.mod_eq_of_lt hlt
  have hblock := @length_reallocated junk va.aElements (index + 1) (by omega)
  obtain ⟨es, hes, hesLen, hlow, -⟩ :=
    @clearElements_some (index + 1 - va.aSize) va.aSize (reallocated junk va.aElements (index + 1))
      (by omega) (by omega)
  unfold growElements
  split
  · trivial
  · dsimp only
    rw [hsize, if_neg (by omega), hes]
    dsimp only
    refine takeElement_kept ⟨by dsimp only; omega, hlt⟩ (Nat.lt_succ_self index) htext
      (by dsimp only; omega) fun i hi' => ?_
    dsimp only
    rw [hlow i hi', reallocated, List.take_of_length_le (by omega),
      List.getElem?_append_left (by omega)]

/-- The size of an array with the last index is zero. -/
theorem growElements_last (hs : va.Sound) (hlast : index + 1 = uintMod) (hmake : MayMake how type) :
    ¬ (growElements how type rest zeroBlock junk va index).Kept va path := by
  obtain ⟨hlen, hlt⟩ := hs
  have hsize : (index + 1) % uintMod = 0 := by rw [hlast, Nat.mod_self]
  unfold growElements
  rw [if_neg (by rintro (hhow | htype); exacts [hmake.1 hhow, hmake.2 htype])]
  dsimp only
  split
  · exact id
  · rw [hsize, reallocated_zero, clearElements_none (Nat.zero_le _) (by omega)]
    exact id

theorem not_mayMake (h : ¬ MayMake how type) : how = .noCreate ∨ type = none := by
  by_contra hne
  rw [not_or] at hne
  exact h hne

theorem takeElement_refused (h : ¬ MayMake how type) (hnone : va.aElements[index]? = some none) :
    takeElement how type rest va index = .refused := by
  rw [takeElement, hnone]
  dsimp only
  rw [createChild_refused h]

/-- With a sound array, by the value of the text before it is cut to an `unsigned int`. -/
theorem element_kept_iff {p : Text} {value : Nat} (hs : va.Sound)
    (hvalue : textIndex va.aSize p = some value) (hmod : value % uintMod = index) :
    (if va.aSize ≤ index then growElements how type rest zeroBlock junk va index
      else takeElement how type rest va index).Kept va (some p) ↔
      (MayMake how type ∨ ((va.aElements[index]?).join).isSome → value + 1 < uintMod) := by
  have hindex : index < uintMod := hmod ▸ Nat.mod_lt _ (by decide)
  constructor
  · intro hkept hgoes
    have heq : value = index := by
      split at hkept
      next hle =>
        have hmake : MayMake how type := hgoes.resolve_right (by
          rw [List.getElem?_eq_none (by have := hs.1; omega)]
          exact nofun)
        have hne := @growElements_goes how type rest zeroBlock junk va index hmake
        cases hr : growElements how type rest zeroBlock junk va index with
        | refused => exact absurd hr hne.1
        | whole => exact absurd hr hne.2
        | wild => exact (hr ▸ hkept : ArrayScan.wild.Kept va (some p)).elim
        | freed => exact (hr ▸ hkept : ArrayScan.freed.Kept va (some p)).elim
        | element i r ty va' =>
          rw [hr] at hkept
          have htext : textIndex va.aSize p = some i := hkept.1
          rw [hvalue, growElements_index hr] at htext
          exact Option.some.inj htext
      next hlt =>
        have hne := @takeElement_goes how type rest va index hgoes
        cases hr : takeElement how type rest va index with
        | refused => exact absurd hr hne.1
        | whole => exact absurd hr hne.2
        | wild => exact (hr ▸ hkept : ArrayScan.wild.Kept va (some p)).elim
        | freed => exact (hr ▸ hkept : ArrayScan.freed.Kept va (some p)).elim
        | element i r ty va' =>
          rw [hr] at hkept
          have htext : textIndex va.aSize p = some i := hkept.1
          rw [hvalue, takeElement_index hr] at htext
          exact Option.some.inj htext
    by_contra hbound
    have hlast : index + 1 = uintMod := by omega
    have hle : va.aSize ≤ index := by
      have := hs.2
      omega
    rw [if_pos hle] at hkept
    have hmake : MayMake how type := hgoes.resolve_right (by
      rw [List.getElem?_eq_none (by have := hs.1; omega)]
      exact nofun)
    exact growElements_last hs hlast hmake hkept
  · intro hbound
    by_cases hgoes : MayMake how type ∨ ((va.aElements[index]?).join).isSome
    · have hlt := hbound hgoes
      have heq : value = index := by
        rw [← hmod, Nat.mod_eq_of_lt (by omega)]
      have htext : (some p).bind (textIndex va.aSize) = some index := by
        rw [Option.bind_some, hvalue, heq]
      split
      next hle => exact growElements_kept hs hle (by omega) htext
      next hin => exact takeElement_kept hs (by omega) htext le_rfl fun _ _ => rfl
    · rw [not_or] at hgoes
      obtain ⟨hmake, habsent⟩ := hgoes
      split
      next =>
        rw [growElements, if_pos (not_mayMake hmake)]
        trivial
      next hin =>
        have hlt : index < va.aElements.length := by
          have := hs.1
          omega
        have hnone : va.aElements[index]? = some none := by
          rw [List.getElem?_eq_getElem hlt] at habsent ⊢
          cases hty : va.aElements[index] with
          | none => rfl
          | some ty =>
            rw [hty] at habsent
            exact absurd rfl habsent
        rw [takeElement_refused hmake hnone]
        trivial

/-- The cleared block is the array with room for the index. -/
theorem cleared_grow (hs : va.Sound) (hi : va.aSize ≤ index) (hlt : index + 1 < uintMod) :
    clearElements (index + 1 - va.aSize) (reallocated junk va.aElements (index + 1)) va.aSize =
      some (grow va.aElements index) := by
  obtain ⟨hlen, -⟩ := hs
  have hblock := @length_reallocated junk va.aElements (index + 1) (by omega)
  obtain ⟨es, hes, hesLen, hlow, hhigh⟩ :=
    @clearElements_some (index + 1 - va.aSize) va.aSize (reallocated junk va.aElements (index + 1))
      (by omega) (by omega)
  rw [hes, Option.some.injEq]
  apply List.ext_getElem?
  intro i
  rw [grow]
  rcases Nat.lt_or_ge i va.aSize with hlo | hhi
  · rw [hlow i hlo, reallocated, List.take_of_length_le (by omega),
      List.getElem?_append_left (by omega), List.getElem?_append_left (by omega)]
  · rw [List.getElem?_append_right (by omega), List.getElem?_replicate]
    split
    next hin => exact hhigh i hhi (by omega)
    next hout => exact List.getElem?_eq_none (by omega)

/-- What is left to do after `ty` has been taken, on the array as a list. -/
def ArrayScan.finish (deeper : Payload → Option Text → Scanned Payload)
    (es : List (Option Payload)) : ArrayScan → Scanned Payload
  | .refused => .refused (.array es)
  | .whole => .done (.array es)
  | .wild => .wild
  | .freed => .wild
  | .element index rest ty va =>
    (deeper ty rest).map fun ty => .array (va.aElements.set index (some ty))

theorem takeElement_finish {deeper : Payload → Option Text → Scanned Payload}
    {es : List (Option Payload)} (hi : index < va.aElements.length) :
    (takeElement how type rest va index).finish deeper es =
      match (va.aElements[index]?).join.or (createChild how type rest) with
      | none => .refused (.array es)
      | some ty => (deeper ty rest).map fun ty => .array (va.aElements.set index (some ty)) := by
  unfold takeElement
  split
  next hnone => exact absurd (List.getElem?_eq_none_iff.mp hnone) (by omega)
  next ty hty => rw [hty]; rfl
  next hnone =>
    rw [hnone]
    cases hchild : createChild how type rest with
    | none => rfl
    | some ty =>
      dsimp only
      rw [storeElement, if_pos hi]
      dsimp only [Option.join_some, Option.none_or, ArrayScan.finish]
      congr 1
      funext t
      rw [List.set_set]

theorem growElements_finish {deeper : Payload → Option Text → Scanned Payload} (hs : va.Sound)
    (hi : va.aSize ≤ index) (hlt : index < uintMod) :
    (growElements how type rest zeroBlock junk va index).finish deeper va.aElements =
      match createChild how type rest with
      | none => .refused (.array va.aElements)
      | some ty =>
        if index + 1 = uintMod then .wild
        else (deeper ty rest).map fun ty => .array ((grow va.aElements index).set index (some ty)) := by
  unfold growElements
  by_cases hmake : MayMake how type
  · obtain ⟨ty, hty⟩ := @createChild_made how type rest hmake
    rw [if_neg (by rintro (hhow | htype); exacts [hmake.1 hhow, hmake.2 htype]), hty]
    dsimp only
    by_cases hlast : index + 1 = uintMod
    · rw [hlast, Nat.mod_self, if_pos rfl]
      split
      · rfl
      · rw [reallocated_zero, clearElements_none (Nat.zero_le _) (by have := hs.2; omega)]
        rfl
    · have hfull : index < (grow va.aElements index).length := by
        simp [grow]
        omega
      have hnone : (grow va.aElements index)[index]? = some none := by
        rw [grow, List.getElem?_append_right (by have := hs.1; omega), List.getElem?_replicate,
          if_pos (by have := hs.1; omega)]
      rw [Nat.mod_eq_of_lt (by omega), if_neg (by omega), cleared_grow hs hi (by omega), if_neg hlast]
      dsimp only
      rw [takeElement, hnone]
      dsimp only
      rw [hty]
      dsimp only
      rw [storeElement, if_pos hfull]
      dsimp only [ArrayScan.finish]
      congr 1
      funext t
      rw [List.set_set]
  · rw [if_pos (not_mayMake hmake), createChild_refused hmake]
    rfl

theorem elementScan_finish {deeper : Payload → Option Text → Scanned Payload} (hs : va.Sound)
    (hlt : index < uintMod) :
    (if va.aSize ≤ index then growElements how type rest zeroBlock junk va index
      else takeElement how type rest va index).finish deeper va.aElements =
      match (va.aElements[index]?).join.or (createChild how type rest) with
      | none => .refused (.array va.aElements)
      | some ty =>
        if va.aSize ≤ index ∧ index + 1 = uintMod then .wild
        else (deeper ty rest).map fun ty => .array ((grow va.aElements index).set index (some ty)) := by
  by_cases hi : va.aSize ≤ index
  · rw [if_pos hi, growElements_finish hs hi hlt, List.getElem?_eq_none (by have := hs.1; omega)]
    simp only [hi, true_and, Option.join_none, Option.none_or]
  · have hgrow : grow va.aElements index = va.aElements := by
      rw [grow, Nat.sub_eq_zero_of_le (by have := hs.1; omega), List.replicate_zero, List.append_nil]
    rw [if_neg hi, takeElement_finish (by have := hs.1; omega), hgrow]
    simp only [hi, false_and, if_false]

end

theorem writeIndex_lt {aSize index : Nat} {p : Text} (h : aSize < uintMod)
    (hindex : writeIndex aSize p = some index) : index < uintMod := by
  rw [writeIndex_text p h] at hindex
  obtain ⟨value, -, rfl⟩ := Option.map_eq_some_iff.mp hindex
  exact Nat.mod_lt _ (by decide)

/-- The scan of the list is the scan of the block. -/
theorem scanArray_block (deeper : Payload → Option Text → Scanned Payload) (zeroBlock : Bool)
    (junk : Nat → Option Payload) (va : PayloadArray) (text path : Option Text) (how : HowCreate)
    (type : Option VrblType) (hs : va.Sound) :
    scanArray deeper va.aElements text path how type =
      (scanArrayBlock zeroBlock junk va text path how type).finish deeper va.aElements := by
  obtain ⟨hlen, hlt⟩ := id hs
  unfold scanArray scanArrayBlock
  cases path with
  | none =>
    dsimp only
    by_cases htext : text = none
    · rw [if_pos htext, if_pos htext]
      rfl
    · rw [if_neg htext, if_neg htext]
      rfl
  | some p =>
    dsimp only
    by_cases hhead : p.head? ≠ some delimArray
    · rw [if_pos hhead, if_pos hhead]
      rfl
    rw [if_neg hhead, if_neg hhead]
    cases nextElementPath p with
    | none => rfl
    | some next =>
      dsimp only
      by_cases hone : next = 1
      · rw [if_pos hone, if_pos hone]
        rfl
      rw [if_neg hone, if_neg hone, hlen]
      cases hindex : writeIndex va.aSize p with
      | none => rfl
      | some index =>
        exact (elementScan_finish hs (writeIndex_lt hlt hindex)).symm

section

variable (zeroBlock : Bool) (junk : Nat → Option Payload) (va : PayloadArray)
variable (text path : Option Text) (how : HowCreate) (type : Option VrblType)

/-- A scan keeps the array in order exactly where the index of every path that it follows is
not the last one of an `unsigned int` or beyond. -/
theorem array_growth_iff (hs : va.Sound) :
    (scanArrayBlock zeroBlock junk va text path how type).Kept va path ↔
      ∀ p value, path = some p → Followed va p how type value → value + 1 < uintMod := by
  obtain ⟨hlen, hlt⟩ := id hs
  unfold scanArrayBlock
  split
  next =>
    refine iff_of_true ?_ nofun
    split
    · trivial
    · trivial
  next p =>
    split
    next hhead =>
      refine iff_of_true trivial fun p' value hp h => ?_
      cases hp
      exact absurd h.1 hhead
    next hhead =>
      split
      next hnone =>
        refine iff_of_true trivial fun p' value hp h => ?_
        cases hp
        obtain ⟨-, ⟨next, hnext, -⟩, -⟩ := h
        exact nomatch hnone.symm.trans hnext
      next next hnext =>
        split
        next hone =>
          refine iff_of_true trivial fun p' value hp h => ?_
          cases hp
          obtain ⟨-, ⟨next', hnext', hne⟩, -⟩ := h
          cases hnext.symm.trans hnext'
          exact absurd hone hne
        next hone =>
          have hwrite := writeIndex_text p hlt
          split
          next hnone =>
            refine iff_of_true trivial fun p' value hp h => ?_
            cases hp
            rw [hnone, h.2.2.1] at hwrite
            exact nomatch hwrite
          next index hindex =>
            rw [hindex] at hwrite
            obtain ⟨value, hvalue, hmod⟩ := Option.map_eq_some_iff.mp hwrite.symm
            refine (element_kept_iff hs hvalue hmod).trans ⟨?_, ?_⟩
            · intro hbound p' value' hp h
              cases hp
              obtain ⟨-, -, htext, hgoes⟩ := h
              cases hvalue.symm.trans htext
              exact hbound (hmod ▸ hgoes)
            · intro hbound hgoes
              exact hbound p value rfl
                ⟨Decidable.not_not.mp hhead, ⟨next, hnext, hone⟩, hvalue, hmod.symm ▸ hgoes⟩

end

/-- An array of two texts, and one of its indices. -/
def twoTexts : PayloadArray := ⟨[some (.string none), none], 2⟩

theorem array_growth_third :
    (scanArrayBlock false (fun _ => none) twoTexts (some [byte 'x']) (some [byte '#', byte '3'])
      .mayCreate (some .string)).Kept twoTexts (some [byte '#', byte '3']) ↔
    ∀ p value, some [byte '#', byte '3'] = some p →
      Followed twoTexts p .mayCreate (some .string) value → value + 1 < uintMod :=
  array_growth_iff _ _ _ _ _ _ _ ⟨rfl, by decide⟩

/-- The path to the last index of an `unsigned int`. -/
def lastIndexPath : Text := Katcp.textOf "#4294967295"

theorem last_index_wraps :
    (⟨[], 0⟩ : PayloadArray).Sound ∧
      scanArrayBlock true (fun _ => none) ⟨[], 0⟩ (some [byte 'x']) (some lastIndexPath)
        .mayCreate (some .string) = .wild := by
  refine ⟨⟨rfl, by decide⟩, ?_⟩
  have hhead : lastIndexPath.head? = some delimArray := by decide
  have hnext : nextElementPath lastIndexPath = some 0 := by decide
  have hindex : writeIndex 0 lastIndexPath = some 4294967295 := by decide
  unfold scanArrayBlock
  dsimp only
  rw [if_neg (not_not_intro hhead), hnext]
  dsimp only
  rw [if_neg (by decide), hindex]
  dsimp only
  rw [if_pos (Nat.zero_le _), growElements, if_neg (by decide)]
  dsimp only
  rw [if_neg (by decide), clearElements_none (Nat.zero_le _) (by decide)]

end Katcp
