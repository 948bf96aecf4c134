import Katcp.AvlInsert
import Katcp.KeyedList
import Katcp.TimeText

namespace Katcp

inductive VrblType where
  | string | tree | array
  deriving DecidableEq, Repr

/-- `katcp_vrbl_payload`: a tree in the order of its keys, an array with the places that
hold nothing. -/
inductive Payload where
  | string (uString : Option Text)
  | tree (uTree : List (Text × Payload))
  | array (aElements : List (Option Payload))

namespace Payload

def pType : Payload → VrblType
  | .string _ => .string
  | .tree _ => .tree
  | .array _ => .array

/-- `setup_vrbl_katcp`, with the `t_init` of each type. -/
def setup : VrblType → Payload
  | .string => .string none
  | .tree => .tree []
  | .array => .array []

end Payload

/-- `KATCP_VRF_HID` and `KATCP_VRF_ROM`, and what the header calls the mask of all flags. -/
def vrfHid : Nat := 0x10
def vrfRom : Nat := 0x20
def maskVrf : Nat := 0x1f

structure Vrbl where
  vFlags : Nat := 0
  vPayload : Payload

inductive HowCreate where
  | noCreate | mayCreate | mustCreate
  deriving DecidableEq, Repr

def delimTree : Byte := byte ':'
def delimArray : Byte := byte '#'
def delimGroup : Byte := byte '*'
def delimSpacer : Byte := byte '-'

def isDelim (c : Byte) : Bool := c = delimTree || c = delimArray

def nextElementFrom : Text → Nat → Option Nat
  | [], i => if i ≤ 1 then none else some 0
  | c :: path, i =>
    if isDelim c ∧ i > 1 then some i
    else if isDelim c ∧ i = 1 then none
    else if isNewline c then none
    else nextElementFrom path (i + 1)

/-- `next_element_path_vrbl`: where the next element of the path starts, or 0 behind the
last one. -/
def nextElementPath (path : Text) : Option Nat := nextElementFrom path 0

/-- `infer_type_path_vrbl`, where no type is the type `KATCP_VRT_GONE`. -/
def inferTypePath (path : Option Text) : Option VrblType :=
  match path.bind List.head? with
  | none => none
  | some c => if c = delimTree then some .tree else if c = delimArray then some .array else none

def isAlpha (c : Byte) : Bool :=
  (byte 'a' ≤ c && c ≤ byte 'z') || (byte 'A' ≤ c && c ≤ byte 'Z')

/-- What the program makes of a number that it keeps in an `unsigned int`. -/
def uintMod : Nat := 2 ^ 32

/-- The index in front of the path's first element, with what follows it there. -/
def pathIndex (path : Text) : Option (Nat × Text) :=
  let (value, rest) := strtoul path.tail
  if rest.length = path.tail.length then none else some (value % uintMod, rest)

/-- `path_suffix_vrbl_katcp` -/
def pathSuffix (path : Option Text) : Option Text :=
  match path with
  | none => none
  | some path =>
    if (inferTypePath (some path)).isSome then some path
    else match nextElementPath path with
      | none => none
      | some next => if 0 < next then some (path.drop next) else none

section

/-- How a scan ends. A refused one keeps what it made on its way, and a wild one writes
behind an array whose size has wrapped. -/
inductive Scanned (α : Type) where
  | done (result : α)
  | refused (left : α)
  | wild

def Scanned.map {α β : Type} (f : α → β) : Scanned α → Scanned β
  | .done a => .done (f a)
  | .refused a => .refused (f a)
  | .wild => .wild

def memberName (path : Text) (next : Nat) : Text :=
  if next = 0 then path.tail else path.tail.take (next - 1)

def restPath (path : Text) (next : Nat) : Option Text :=
  if next = 0 then none else some (path.drop next)

/-- What a scan puts where nothing was. -/
def createChild (how : HowCreate) (type : Option VrblType) (rest : Option Text) : Option Payload :=
  if how = .noCreate then none
  else type.map fun type => .setup ((inferTypePath rest).getD type)

/-- `scan_string_vrbl_katcp` -/
def scanString (u text path : Option Text) (how : HowCreate) : Scanned Payload :=
  if path.getD [] ≠ [] then .refused (.string u)
  else if how = .mustCreate ∧ u.isSome then .refused (.string u)
  else .done (.string text)

section

variable (deeper : Payload → Option Text → Scanned Payload)

/-- `scan_tree_vrbl_katcp` -/
def scanTree (m : List (Text × Payload)) (text path : Option Text) (how : HowCreate)
    (type : Option VrblType) : Scanned Payload :=
  match path with
  | none => if text = none then .done (.tree m) else .refused (.tree m)
  | some path =>
    if path.head? ≠ some delimTree then .refused (.tree m)
    else match nextElementPath path with
    | none => .refused (.tree m)
    | some next =>
      if next = 1 then .refused (.tree m)
      else
        let name := memberName path next
        let rest := restPath path next
        match (KeyedList.find strcmp name m).or (createChild how type rest) with
        | none => .refused (.tree m)
        | some ty => (deeper ty rest).map fun ty => .tree (KeyedList.put strcmp name ty m)

/-- The index that is written to, which is behind the last for the spacer. -/
def writeIndex (aSize : Nat) (path : Text) : Option Nat :=
  if path.tail.head? = some delimSpacer then some aSize else (pathIndex path).map Prod.fst

/-- The array with room for the index. -/
def grow (es : List (Option Payload)) (index : Nat) : List (Option Payload) :=
  es ++ List.replicate (index + 1 - es.length) none

/-- `scan_array_vrbl_katcp` -/
def scanArray (es : List (Option Payload)) (text path : Option Text) (how : HowCreate)
    (type : Option VrblType) : Scanned Payload :=
  match path with
  | none => if text = none then .done (.array es) else .refused (.array es)
  | some path =>
    if path.head? ≠ some delimArray then .refused (.array es)
    else match nextElementPath path with
    | none => .refused (.array es)
    | some next =>
      if next = 1 then .refused (.array es)
      else match writeIndex es.length path with
      | none => .refused (.array es)
      | some index =>
        let rest := restPath path next
        match (es[index]?).join.or (createChild how type rest) with
        | none => .refused (.array es)
        | some ty =>
          if es.length ≤ index ∧ index + 1 = uintMod then .wild
          else (deeper ty rest).map fun ty => .array ((grow es index).set index (some ty))

end

/-- `t_scan`: the recursion of the types through each other, once for each element. -/
def scanPayload : Nat → Payload → Option Text → Option Text → HowCreate → Option VrblType →
    Scanned Payload
  | 0, py, _, _, _, _ => .refused py
  | _ + 1, .string u, text, path, how, _ => scanString u text path how
  | n + 1, .tree m, text, path, how, type =>
    scanTree (fun ty rest => scanPayload n ty text rest how type) m text path how type
  | n + 1, .array es, text, path, how, type =>
    scanArray (fun ty rest => scanPayload n ty text rest how type) es text path how type

/-- More than the elements of the path. -/
def pathFuel (path : Option Text) : Nat := (path.getD []).length + 1

/-- `scan_vrbl_katcp`, which makes the variable where there is none. -/
def scanVrbl (vx : Option Vrbl) (text path : Option Text) (how : HowCreate)
    (type : Option VrblType) : Scanned (Option Vrbl) :=
  if path.isSome ∧ (inferTypePath path).isNone then .refused vx
  else match vx with
  | some vt =>
    (scanPayload (pathFuel path) vt.vPayload text path how type).map fun py =>
      some { vt with vPayload := py }
  | none =>
    if how = .noCreate then .refused none
    else match if path.isSome then inferTypePath path else type with
    | none => .refused none
    | some infer =>
      match scanPayload (pathFuel path) (.setup infer) text path how type with
      | .done py => .done (some { vPayload := py })
      | .refused _ => .refused none
      | .wild => .wild

section

variable (deeper : Payload → Option Text → Option Payload)

/-- `element_string_vrbl_katcp` -/
def elementString (u path : Option Text) : Option Payload :=
  if path.getD [] = [] then some (.string u) else none

/-- `element_tree_vrbl_katcp` -/
def elementTree (m : List (Text × Payload)) (path : Option Text) : Option Payload :=
  match path with
  | none => some (.tree m)
  | some [] => some (.tree m)
  | some path =>
    if path.head? ≠ some delimTree then none
    else (nextElementPath path).bind fun next =>
      if next = 1 then none
      else (KeyedList.find strcmp (memberName path next) m).bind fun ty => deeper ty (restPath path next)

/-- The index that is read, which no letter may follow. -/
def readIndex (path : Text) : Option Nat :=
  (pathIndex path).bind fun (index, rest) => if rest.head?.any isAlpha then none else some index

/-- `element_array_vrbl_katcp` -/
def elementArray (es : List (Option Payload)) (path : Option Text) : Option Payload :=
  match path with
  | none => some (.array es)
  | some [] => some (.array es)
  | some path =>
    if path.head? ≠ some delimArray then none
    else (nextElementPath path).bind fun next =>
      (readIndex path).bind fun index =>
        if next = 1 then none else (es[index]?).join.bind fun ty => deeper ty (restPath path next)

end

/-- `t_element` -/
def elementPayload : Nat → Payload → Option Text → Option Payload
  | 0, _, _ => none
  | _ + 1, .string u, path => elementString u path
  | n + 1, .tree m, path => elementTree (elementPayload n) m path
  | n + 1, .array es, path => elementArray (elementPayload n) es path

/-- `find_payload_katcp` -/
def findPayload (vx : Vrbl) (path : Option Text) : Option Payload :=
  elementPayload (pathFuel (pathSuffix path)) vx.vPayload (pathSuffix path)

section

variable (deeper : Payload → Text → Bool → Option Payload)

/-- `excise_tree_vrbl_katcp`, which fails without a change. -/
def exciseTree (m : List (Text × Payload)) (path : Text) (relax : Bool) : Option Payload :=
  if path.head? ≠ some delimTree then none
  else (nextElementPath path).bind fun next =>
    if next = 1 then none
    else
      let name := memberName path next
      match KeyedList.find strcmp name m, restPath path next with
      | none, _ => if relax then some (.tree m) else none
      | some ty, some rest =>
        (deeper ty rest relax).map fun ty => .tree (KeyedList.put strcmp name ty m)
      | some _, none => some (.tree (KeyedList.erase strcmp name m))

/-- `excise_array_vrbl_katcp` -/
def exciseArray (es : List (Option Payload)) (path : Text) (relax : Bool) : Option Payload :=
  if path.head? ≠ some delimArray then none
  else (nextElementPath path).bind fun next =>
    (readIndex path).bind fun index =>
      match (es[index]?).join, restPath path next with
      | none, _ => if relax then some (.array es) else none
      | some ty, some rest => (deeper ty rest relax).map fun ty => .array (es.set index (some ty))
      | some _, none => some (.array (es.set index none))

end

/-- `t_excise` -/
def excisePayload : Nat → Payload → Text → Bool → Option Payload
  | 0, _, _, _ => none
  | _ + 1, .string u, _, relax => if relax then some (.string u) else none
  | n + 1, .tree m, path, relax => exciseTree (excisePayload n) m path relax
  | n + 1, .array es, path, relax => exciseArray (excisePayload n) es path relax

/-- `excise_vrbl_katcp` -/
def exciseVrbl (vx : Vrbl) (path : Option Text) (relax : Bool) : Option Vrbl :=
  match path with
  | none => if relax then some vx else none
  | some text =>
    (excisePayload (pathFuel path) vx.vPayload text relax).map fun py => { vx with vPayload := py }

/-- `flags_vrbl_katcp` -/
def flagsVrbl (vx : Vrbl) (clear set : Nat) : Vrbl :=
  { vx with vFlags := (vx.vFlags &&& (clear ^^^ maskVrf)) ||| set }

/-- `hide_vrbl_katcp` -/
def hideVrbl (vx : Vrbl) : Vrbl := flagsVrbl vx 0 vrfHid

/-- `show_vrbl_katcp` -/
def showVrbl (vx : Vrbl) : Vrbl := flagsVrbl vx vrfHid 0

end

section

/-- One step into a payload. -/
inductive PathStep where
  | member (key : Text)
  | element (index : Nat)
  deriving DecidableEq, Repr

namespace Payload

variable {py c : Payload} {s s' : PathStep} {ps qs : List PathStep}

def child : Payload → PathStep → Option Payload
  | .tree m, .member k => KeyedList.find strcmp k m
  | .array es, .element i => (es[i]?).join
  | _, _ => none

/-- The payload at a position. -/
def reach : Payload → List PathStep → Option Payload
  | py, [] => some py
  | py, s :: ps => (py.child s).bind fun c => c.reach ps

/-- The step is one that the payload's type can have. -/
def Suits : Payload → PathStep → Prop
  | .tree _, .member _ => True
  | .array _, .element _ => True
  | _, _ => False

/-- The payload with another child. -/
def place : Payload → PathStep → Payload → Payload
  | .tree m, .member k, c => .tree (KeyedList.put strcmp k c m)
  | .array es, .element i, c => .array ((grow es i).set i (some c))
  | py, _, _ => py

/-- The payload without a child. -/
def cut : Payload → PathStep → Payload
  | .tree m, .member k => .tree (KeyedList.erase strcmp k m)
  | .array es, .element i => .array (es.set i none)
  | py, _ => py

theorem getElem?_grow (es : List (Option Payload)) (i j : Nat) :
    ((grow es i)[j]?).join = (es[j]?).join := by
  rw [grow, List.getElem?_append]
  split
  next => rfl
  next h =>
    rw [List.getElem?_eq_none (Nat.not_lt.mp h), List.getElem?_replicate]
    split <;> rfl

theorem lt_length_grow (es : List (Option Payload)) (i : Nat) : i < (grow es i).length := by
  simp only [grow, List.length_append, List.length_replicate]
  omega

theorem child_place_self (h : py.Suits s) : (py.place s c).child s = some c := by
  cases py <;> cases s <;> simp only [Suits] at h
  · exact KeyedList.find_put_self
  next es i =>
    simp only [place, child]
    rw [List.getElem?_set_self (lt_length_grow es i)]
    rfl

theorem child_place_of_ne (hne : s' ≠ s) : (py.place s c).child s' = py.child s' := by
  cases py with
  | string u => rfl
  | tree m =>
    cases s <;> cases s' <;> try rfl
    next k k' => exact KeyedList.find_put_of_ne fun h => hne (congrArg _ h)
  | array es =>
    cases s <;> cases s' <;> try rfl
    next i j =>
      simp only [place, child]
      rw [List.getElem?_set_ne fun h => hne (congrArg _ h.symm)]
      exact getElem?_grow es i j

theorem child_cut_self : (py.cut s).child s = none := by
  cases py with
  | string u => rfl
  | tree m =>
    cases s with
    | member k => exact KeyedList.find_erase_self
    | element i => rfl
  | array es =>
    cases s with
    | member k => rfl
    | element i =>
      simp only [cut, child, List.getElem?_set_self']
      cases es[i]? <;> rfl

theorem child_cut_of_ne (hne : s' ≠ s) : (py.cut s).child s' = py.child s' := by
  cases py with
  | string u => rfl
  | tree m =>
    cases s <;> cases s' <;> try rfl
    next k k' => exact KeyedList.find_erase_of_ne fun h => hne (congrArg _ h)
  | array es =>
    cases s <;> cases s' <;> try rfl
    next i j =>
      simp only [cut, child]
      rw [List.getElem?_set_ne fun h => hne (congrArg _ h.symm)]

theorem reach_place_cons (h : py.Suits s) : (py.place s c).reach (s :: ps) = c.reach ps := by
  rw [reach, child_place_self h, Option.bind_some]

theorem reach_place_of_ne (hne : s' ≠ s) :
    (py.place s c).reach (s' :: ps) = py.reach (s' :: ps) := by
  rw [reach, child_place_of_ne hne, reach]

theorem child_setup (type : VrblType) (s : PathStep) : (setup type).child s = none := by
  cases type <;> cases s <;> rfl

theorem reach_setup (type : VrblType) (s : PathStep) : (setup type).reach (s :: ps) = none := by
  rw [reach, child_setup, Option.bind_none]

theorem suits_of_child (h : py.child s = some c) : py.Suits s := by
  cases py <;> cases s <;> first | exact trivial | cases h

end Payload

section

variable {n : Nat} {py : Payload} {path : Option Text}

/-- The first element of a path as it is read, and the path behind it. -/
def readStep (path : Text) : Option (PathStep × Option Text) :=
  (nextElementPath path).bind fun next =>
    if next = 1 then none
    else if path.head? = some delimTree then some (.member (memberName path next), restPath path next)
    else if path.head? = some delimArray then
      (readIndex path).map fun index => (.element index, restPath path next)
    else none

def readSteps : Nat → Option Text → Option (List PathStep)
  | 0, _ => none
  | _ + 1, none => some []
  | _ + 1, some [] => some []
  | n + 1, some (c :: path) =>
    (readStep (c :: path)).bind fun (s, rest) => (readSteps n rest).map (s :: ·)

/-- The position that a path leads to when it is read. -/
def pathSteps (path : Option Text) : Option (List PathStep) :=
  readSteps (pathFuel (pathSuffix path)) (pathSuffix path)

theorem readSteps_bind (c : Byte) (text : Text) :
    (readSteps (n + 1) (some (c :: text))).bind py.reach = (readStep (c :: text)).bind fun (s, rest) =>
      (py.child s).bind fun ty => (readSteps n rest).bind ty.reach := by
  rw [readSteps, Option.bind_assoc]
  congr 1
  funext ⟨s, rest⟩
  dsimp only
  cases readSteps n rest with
  | none => cases py.child s <;> rfl
  | some ps => rfl

theorem elementString_eq (u : Option Text) (c : Byte) (text : Text)
    (deeper : Payload → Option Text → Option Payload) :
    elementString u (some (c :: text)) = (readStep (c :: text)).bind fun (s, rest) =>
      ((Payload.string u).child s).bind fun ty => deeper ty rest := by
  cases readStep (c :: text) <;> rfl

theorem elementTree_eq (m : List (Text × Payload)) (c : Byte) (text : Text)
    (deeper : Payload → Option Text → Option Payload) :
    elementTree deeper m (some (c :: text)) = (readStep (c :: text)).bind fun (s, rest) =>
      ((Payload.tree m).child s).bind fun ty => deeper ty rest := by
  rw [elementTree, readStep]
  · cases hnext : nextElementPath (c :: text) with
    | none => simp
    | some next =>
      by_cases hc : c = delimTree
      · simp only [List.head?_cons, hc, ne_eq, not_true, if_false, Option.bind_some, if_true]
        split <;> rfl
      · have hc' : (c :: text).head? ≠ some delimTree := by simpa using hc
        simp only [if_pos hc', if_neg hc', Option.bind_some]
        split
        next => rfl
        split
        next => cases readIndex (c :: text) <;> rfl
        next => rfl
  · simp

theorem elementArray_eq (es : List (Option Payload)) (c : Byte) (text : Text)
    (deeper : Payload → Option Text → Option Payload) :
    elementArray deeper es (some (c :: text)) = (readStep (c :: text)).bind fun (s, rest) =>
      ((Payload.array es).child s).bind fun ty => deeper ty rest := by
  rw [elementArray, readStep]
  · cases hnext : nextElementPath (c :: text) with
    | none => simp
    | some next =>
      by_cases hc : c = delimArray
      · have hne : delimArray ≠ delimTree := by decide
        simp only [List.head?_cons, hc, ne_eq, not_true, if_false, Option.bind_some, if_true,
          Option.some.injEq, hne]
        cases readIndex (delimArray :: text) with
        | none => split <;> rfl
        | some index =>
          split <;> rfl
      · have hc' : (c :: text).head? ≠ some delimArray := by simpa using hc
        simp only [if_pos hc', if_neg hc', Option.bind_some]
        split
        next => rfl
        split <;> rfl
  · simp

/-- Reading a path is reaching the position that it leads to. -/
theorem elementPayload_eq : elementPayload n py path = (readSteps n path).bind py.reach := by
  induction n generalizing py path with
  | zero => rfl
  | succ n ih =>
    rcases path with _ | _ | ⟨c, text⟩
    · cases py <;> rfl
    · cases py <;> rfl
    · rw [readSteps_bind]
      simp only [← ih]
      cases py with
      | string u => exact elementString_eq u c text (elementPayload n)
      | tree m => exact elementTree_eq m c text (elementPayload n)
      | array es => exact elementArray_eq es c text (elementPayload n)

theorem findPayload_eq (vx : Vrbl) (path : Option Text) :
    findPayload vx path = (pathSteps path).bind vx.vPayload.reach := elementPayload_eq

end

end

end Katcp
