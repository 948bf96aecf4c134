import Katcp.LineStage
import Katcp.VrblCommand

namespace Katcp

/-- The operations of a forwarded parameter, `FOP_LITTERAL` and so on. -/
inductive ForwardOp where
  | litteral | single | trail | var | specialGroup | specialClient
  deriving DecidableEq, Repr

/-- `forward_symbolic_parm`: `p_num` is an unsigned short. -/
structure ForwardParm where
  pOp : ForwardOp
  pNum : Nat
  pStr : Option Text
  deriving DecidableEq, Repr

def loadParm (op : ForwardOp) (number : Nat) (string : Option Text) : ForwardParm := ⟨op, number % 2 ^ 16, string⟩

/-- What `parse_parm_foward` makes of the text behind a percent sign, where the number is kept in an
unsigned int. -/
def parseNumbered (ptr : Text) : Option ForwardParm :=
  let (num, stop) := strtoul ptr
  let num := num % 2 ^ 32
  match stop with
  | [] => some (loadParm .single num none)
  | c :: _ =>
    if c = byte '+' then some (loadParm .trail num none)
    else if c = byte '\n' ∨ c = byte '\r' ∨ c = 0 then some (loadParm .single num none)
    else if c = byte 'g' ∧ stop.length = ptr.length then some (loadParm .specialGroup num none)
    else if (c = byte 'g' ∨ c = byte 'c') ∧ stop.length = ptr.length then some (loadParm .specialClient num none)
    else none

/-- `parse_parm_foward` -/
def parseParmForward (ptr : Text) : Option ForwardParm :=
  match ptr with
  | [] => some (loadParm .litteral 0 (some ptr))
  | c :: rest =>
    if c = byte '%' then parseNumbered rest
    else if c = byte '$' then some (loadParm .var 0 (some rest))
    else some (loadParm .litteral 0 (some ptr))

/-- The parameters that `forward_symbolic_group_cmd_katcp` is given, where a NULL one is refused. -/
def loadParms : List (Option Text) → Option (List ForwardParm)
  | [] => some []
  | none :: _ => none
  | some str :: rest => do
    let pf ← parseParmForward (cString str)
    let fs ← loadParms rest
    some (pf :: fs)

/-- The vector of the state that the command makes, which forwards everything when it has no
parameters. -/
def symbolicVector (args : List (Option Text)) : Option (List ForwardParm) :=
  if args = [] then some [loadParm .trail 0 none] else loadParms args

mutual

/-- `t_add` without decoration, at a place behind the first argument. -/
def addPayload : Payload → Parse → Bool → AddResult
  | .string u, px, last => .ofOption (addBuffer px false last (u.getD []))
  | .tree m, px, last =>
    match addMembers m px with
    | .added q => if last then .ofOption (addEnd q) else .added q
    | r => r
  | .array es, px, last =>
    match addElements es px with
    | .added q => if last then .ofOption (addEnd q) else .added q
    | r => r

def addMembers : List (Text × Payload) → Parse → AddResult
  | [], px => .added px
  | (_, py) :: m, px =>
    match addPayload py px false with
    | .added q => addMembers m q
    | r => r

def addElements : List (Option Payload) → Parse → AddResult
  | [], px => .added px
  | none :: es, px => addElements es px
  | some py :: es, px =>
    match addPayload py px false with
    | .added q => addElements es q
    | r => r

end

/-- `add_payload_vrbl_katcp`, which does not show a hidden variable. -/
def addPayloadVrbl (vx : Vrbl) (py : Option Payload) (px : Parse) (last : Bool) : AddResult :=
  if vx.vFlags &&& vrfHid ≠ 0 then .aborted else addPayload (py.getD vx.vPayload) px last

/-- A client of a group and the request `po` that it made. -/
structure RelayContext where
  shared : VrblShared
  fx : FlatAt
  po : Parse
  got_le : po.pGot ≤ po.pCount

namespace RelayContext

variable (d : RelayContext)

/-- `get_count_parse_katcl` of the request. -/
def size : Nat := d.po.pGot

def groupName : Option Text := d.shared.sGroups[d.fx.fGroup]?.bind VrblGroup.gName

def clientName : Option Text := d.shared.sGroups[d.fx.fGroup]?.bind fun gx => gx.gFlats[d.fx.place]?.join

def findVariable (str : Text) : Option Vrbl := (findVrbl d.shared d.fx str).bind d.shared.vrbl

/-- Whether the loop that trims the parameters stops at one. -/
def stopsAt (pf : ForwardParm) : Bool :=
  match pf.pOp with
  | .single | .trail => pf.pNum < d.size
  | .var => ((d.findVariable (pf.pStr.getD [])).bind fun vx => findPayload vx pf.pStr).isSome
  | _ => true

/-- The loop that trims the parameters: the last one to go into the relay. -/
def trimmed (fs : List ForwardParm) : Nat → Option Nat
  | 0 => none
  | n + 1 => if fs[n]?.any d.stopsAt then some n else trimmed fs n

/-- One turn of the loop that puts the parameters in. -/
def addParm (pf : ForwardParm) (last : Bool) (px : Parse) : AddResult :=
  match pf.pOp with
  | .litteral => .ofOption (addBuffer px false last (pf.pStr.getD []))
  | .single =>
    if pf.pNum < d.size then addParameter px false last d.po pf.pNum else .ofOption (addBuffer px false last [])
  | .trail => if pf.pNum < d.size then addTrailing px false last d.po pf.pNum else .refused
  | .var =>
    match d.findVariable (pf.pStr.getD []) with
    | none => .refused
    | some vx =>
      let py := findPayload vx pf.pStr
      if py.isNone ∧ (pathSuffix pf.pStr).isSome then .refused else addPayloadVrbl vx py px last
  | .specialGroup =>
    match d.groupName with
    | some name => .ofOption (addBuffer px false last name)
    | none => .refused
  | .specialClient =>
    match d.clientName with
    | some name => .ofOption (addBuffer px false last name)
    | none => .refused

def addParms : List ForwardParm → Parse → AddResult
  | [], px => .added px
  | pf :: rest, px =>
    match d.addParm pf rest.isEmpty px with
    | .added q => addParms rest q
    | r => r

/-- `generate_relay_forward`: it is refused when the source returns NULL. -/
def generateRelayForward (fs : List ForwardParm) (name : Text) : AddResult :=
  match (addBuffer createParse true false (textOf "?relay")).bind fun px => addBuffer px false false name with
  | none => .aborted
  | some px =>
    match d.trimmed fs fs.length with
    | none => .refused
    | some limit => d.addParms (fs.take (limit + 1)) px

mutual

/-- The texts of a payload, where one that is not set is empty. -/
def payloadTexts : Payload → Words
  | .string u => [u.getD []]
  | .tree m => memberTexts m
  | .array es => elementTexts es

def memberTexts : List (Text × Payload) → Words
  | [] => []
  | (_, py) :: m => payloadTexts py ++ memberTexts m

def elementTexts : List (Option Payload) → Words
  | [] => []
  | none :: es => elementTexts es
  | some py :: es => payloadTexts py ++ elementTexts es

end

/-- What a parameter stands for in a request, where a lone argument that the request does not have is
an empty one. -/
def expansion (pf : ForwardParm) : Option Words :=
  match pf.pOp with
  | .litteral => some [pf.pStr.getD []]
  | .single => some [(d.po.args[pf.pNum]?.map Arg.text).getD []]
  | .trail => if pf.pNum < d.size then some ((d.po.args.drop pf.pNum).map Arg.text) else none
  | .var => ((d.findVariable (pf.pStr.getD [])).bind fun vx => findPayload vx pf.pStr).map payloadTexts
  | .specialGroup => d.groupName.map ([·])
  | .specialClient => d.clientName.map ([·])

def expansions : List ForwardParm → Option Words
  | [] => some []
  | pf :: rest => do
    let words ← d.expansion pf
    let more ← expansions rest
    some (words ++ more)

def Available (pf : ForwardParm) : Prop :=
  match pf.pOp with
  | .single => pf.pNum < d.size
  | _ => (d.expansion pf).isSome

/-- Nothing is returned, or a complete message in which just the parameters at the end that are not
available are left out. -/
def Relayed (fs : List ForwardParm) (name : Text) (r : AddResult) : Prop :=
  r = .refused ∨ ∃ px kept dropped words, r = .added px ∧ px.pState = .done ∧ fs = kept ++ dropped ∧
    (∃ pf, kept.getLast? = some pf ∧ d.Available pf) ∧ (∀ pf ∈ dropped, ¬ d.Available pf) ∧
    d.expansions kept = some words ∧ px.args.map Arg.text = textOf "?relay" :: name :: words

def NamesHidden (pf : ForwardParm) : Prop :=
  pf.pOp = .var ∧ ∃ vx, d.findVariable (pf.pStr.getD []) = some vx ∧ vx.vFlags &&& vrfHid ≠ 0

/-- A hidden variable stands nowhere that the request leads to. -/
def HiddenUnshown (fs : List ForwardParm) : Prop :=
  ∀ (i : Nat) (pf : ForwardParm), fs[i]? = some pf → d.NamesHidden pf →
    ∃ j ≤ i, ∃ pg, fs[j]? = some pg ∧ d.expansion pg = none

end RelayContext

/-- What stands behind the percent sign of a parameter that gives the number of an argument. -/
def numberPart (text : Text) : Option Text :=
  match cString text with
  | [] => none
  | c :: number =>
    if c = byte '%' ∧ number.head? ≠ some (byte 'g') ∧ number.head? ≠ some (byte 'c') then some number else none

/-- The number that is written at the start of a text, whatever its size. -/
def writtenNumber (number : Text) : Int :=
  let body := number.dropWhile isSpace
  let digits := (afterSign body).takeWhile isDigit
  if body.head? = some (byte '-') then -(digitsValue digits : Int) else digitsValue digits

/-- What sixteen bits keep of a number, and of the largest one where it is out of range. -/
def narrowed (n : Int) : Nat := if n.natAbs < 2 ^ 64 then (n % 2 ^ 16).toNat else 2 ^ 16 - 1

/-- The parameter means the argument, or all from it on, whose number is written. -/
def Selects (size : Nat) (text : Text) (pf : ForwardParm) : Prop :=
  ∀ number, numberPart text = some number →
    pf.pOp = (if (strtoul number).2.head? = some (byte '+') then .trail else .single) ∧
    ∀ i < size, (i : Int) = writtenNumber number ↔ i = pf.pNum

/-- The number is kept, or none of the arguments has what is left of it. -/
def NumberKept (size : Nat) (number : Text) : Prop :=
  (0 ≤ writtenNumber number ∧ writtenNumber number < 2 ^ 16) ∨ size ≤ narrowed (writtenNumber number)

section

variable {args : List (Option Text)} {fs : List ForwardParm} {pf : ForwardParm} {s text number : Text} {size : Nat}

theorem strtoul_suffix (s : Text) : (strtoul s).2 <:+ s := by
  rw [strtoul_eq]
  split
  next => exact List.suffix_refl s
  next => exact ((List.dropWhile_suffix _).trans (afterSign_suffix _)).trans (List.dropWhile_suffix _)

theorem strtoul_narrowed (s : Text) : (strtoul s).1 % 2 ^ 32 % 2 ^ 16 = narrowed (writtenNumber s) := by
  have hvalue : ∀ negative digits, unsignedLong negative digits = if 2 ^ 64 ≤ digitsValue digits then 2 ^ 64 - 1
      else if negative then (2 ^ 64 - digitsValue digits) % 2 ^ 64 else digitsValue digits := fun _ _ => rfl
  rw [strtoul_eq]
  unfold writtenNumber
  dsimp only
  split
  next hdigits =>
    have hzero : digitsValue [] = 0 := rfl
    rw [hdigits, hzero]
    split <;> rfl
  next =>
    rw [hvalue]
    generalize digitsValue _ = v
    unfold narrowed
    by_cases hminus : (s.dropWhile isSpace).head? = some (byte '-')
    · rw [if_pos hminus, decide_eq_true hminus, if_pos rfl]
      split <;> split <;> omega
    · rw [if_neg hminus, decide_eq_false hminus, if_neg Bool.false_ne_true]
      split <;> split <;> omega

theorem numberPart_eq (h : numberPart text = some number) : cString text = byte '%' :: number ∧
    number.head? ≠ some (byte 'g') ∧ number.head? ≠ some (byte 'c') := by
  unfold numberPart at h
  split at h
  next => cases h
  next c rest hc =>
    split at h
    next hnumber =>
      cases Option.some.inj h
      exact ⟨by rw [hc, hnumber.1], hnumber.2⟩
    next => cases h

/-- A letter behind the percent sign is all that is written there. -/
theorem strtoul_letter {c : Byte} (hs : (strtoul s).2 = c :: text) (hl : (c :: text).length = s.length) :
    s.head? = some c := by
  have hsuffix := strtoul_suffix s
  rw [hs] at hsuffix
  rw [← hsuffix.eq_of_length hl]
  rfl

theorem parseNumbered_number (hg : number.head? ≠ some (byte 'g')) (hc : number.head? ≠ some (byte 'c'))
    (h : parseNumbered number = some pf) :
    pf.pOp = (if (strtoul number).2.head? = some (byte '+') then .trail else .single) ∧
      pf.pNum = narrowed (writtenNumber number) := by
  have hnum : (loadParm pf.pOp ((strtoul number).1 % 2 ^ 32) none).pNum = narrowed (writtenNumber number) :=
    strtoul_narrowed number
  unfold parseNumbered at h
  dsimp only at h
  split at h
  next hstop =>
    cases Option.some.inj h
    exact ⟨by rw [hstop]; rfl, hnum⟩
  next c rest hstop =>
    rw [hstop, List.head?_cons]
    split at h
    next hplus =>
      cases Option.some.inj h
      exact ⟨by rw [hplus, if_pos rfl]; rfl, hnum⟩
    next hplus =>
      rw [if_neg fun he => hplus (Option.some.inj he)]
      split at h
      next =>
        cases Option.some.inj h
        exact ⟨rfl, hnum⟩
      next =>
        split at h
        next hletter =>
          rw [← hletter.1] at hg
          exact absurd (strtoul_letter hstop (hstop ▸ hletter.2)) hg
        next =>
          split at h
          next hletter =>
            have hhead := strtoul_letter hstop (hstop ▸ hletter.2)
            rcases hletter.1 with hx | hx
            · exact absurd (hx ▸ hhead) hg
            · exact absurd (hx ▸ hhead) hc
          next => cases h

theorem parseParmForward_number (hn : numberPart text = some number)
    (h : parseParmForward (cString text) = some pf) :
    pf.pOp = (if (strtoul number).2.head? = some (byte '+') then .trail else .single) ∧
      pf.pNum = narrowed (writtenNumber number) := by
  obtain ⟨htext, hg, hc⟩ := numberPart_eq hn
  rw [htext] at h
  exact parseNumbered_number hg hc h

theorem loadParms_get (h : loadParms args = some fs) {k : Nat} (hk : args[k]? = some (some text)) :
    ∃ pf, fs[k]? = some pf ∧ parseParmForward (cString text) = some pf := by
  induction args generalizing fs k with
  | nil => cases hk
  | cons arg args ih =>
    cases arg with
    | none => cases h
    | some str =>
      obtain ⟨pf, hpf, h⟩ := Option.bind_eq_some_iff.mp h
      obtain ⟨more, hmore, h⟩ := Option.bind_eq_some_iff.mp h
      cases Option.some.inj h
      cases k with
      | zero =>
        cases hk
        exact ⟨pf, rfl, hpf⟩
      | succ k => exact ih hmore hk

theorem symbolicVector_get (h : symbolicVector args = some fs) {k : Nat} (hk : args[k]? = some (some text)) :
    ∃ pf, fs[k]? = some pf ∧ parseParmForward (cString text) = some pf := by
  unfold symbolicVector at h
  split at h
  next hnil =>
    rw [hnil] at hk
    cases hk
  next => exact loadParms_get h hk

/-- Sixteen bits select the argument of a number that they hold, and no argument where what is left of it is
the number of none. -/
theorem selects_iff (hn : numberPart text = some number) (h : parseParmForward (cString text) = some pf) :
    Selects size text pf ↔ NumberKept size number := by
  obtain ⟨hop, hnum⟩ := parseParmForward_number hn h
  have hsame : Selects size text pf ↔ ∀ i < size, (i : Int) = writtenNumber number ↔ i = pf.pNum :=
    ⟨fun hs => (hs number hn).2, fun hs number' hn' => by
      cases Option.some.inj (hn.symm.trans hn')
      exact ⟨hop, hs⟩⟩
  rw [hsame, hnum]
  unfold NumberKept
  generalize writtenNumber number = w
  constructor
  · intro hs
    by_contra hkept
    obtain ⟨hrange, hlt⟩ := not_or.mp hkept
    have hw := (hs (narrowed w) (by omega)).mpr rfl
    unfold narrowed at hw
    split at hw <;> omega
  · intro hkept i hi
    unfold narrowed at hkept ⊢
    split at hkept
    next hsmall =>
      rw [if_pos hsmall]
      omega
    next hlarge =>
      rw [if_neg hlarge]
      omega

end

end Katcp
