import Katcp.DuplexData
import Katcp.TimerTime
import Mathlib.Logic.Function.Iterate

namespace Katcp

def isSpace (c : Byte) : Bool := c = 32 || 9 ≤ c && c ≤ 13

/-- The number that digits denote, cut off at `ULONG_MAX`, and negated for a minus sign. -/
def unsignedLong (negative : Bool) (digits : Text) : Nat :=
  let v := digits.foldl (fun v c => v * 10 + (c.toNat - 48)) 0
  if 2 ^ 64 ≤ v then 2 ^ 64 - 1
  else if negative then (2 ^ 64 - v) % 2 ^ 64
  else v

/-- `strtoul` to the base ten: the value, and what follows it. -/
def strtoul (s : Text) : Nat × Text :=
  let body := s.dropWhile isSpace
  let (negative, body) :=
    match body with
    | c :: rest => if c = byte '-' then (true, rest) else if c = byte '+' then (false, rest) else (false, body)
    | [] => (false, [])
  match body.takeWhile isDigit with
  | [] => (0, s)
  | digits => (unsignedLong negative digits, body.dropWhile isDigit)

/-- An `unsigned long` stored in a `long`. -/
def signedLong (v : Nat) : Int := if v < 2 ^ 63 then v else v - 2 ^ 64

/-- The end of the text, or a character after which the rest is ignored. -/
def endsNumber (s : Text) : Bool :=
  match s with
  | [] => true
  | c :: _ => c = byte ' ' || c = byte '\n' || c = byte '\r' || c = byte '\t'

def toMicro (digits v : Nat) : Nat :=
  let v := (· / 10)^[digits - 6] v
  (fun v => v * 10 % 2 ^ 64)^[6 - digits] v

/-- `string_to_tv_katcp`, given a string. -/
def stringToTv (string : Text) : Option Timeval :=
  let (sec, rest) := strtoul string
  if endsNumber rest then
    if rest.length = string.length then none else some ⟨signedLong sec, 0⟩
  else
    match rest with
    | [] => none
    | c :: ptr =>
      if c ≠ byte '.' then none
      else
        let (v, rest) := strtoul ptr
        let digits := ptr.length - rest.length
        if ¬ endsNumber rest then none
        else if digits = 0 then none
        else if digits > 10 then none
        else some ⟨signedLong sec, signedLong (toMicro digits v)⟩

example : stringToTv (textOf "1.5") = some ⟨1, 500000⟩ := by decide

section

/-- What digits denote. -/
def digitsValue (digits : Text) : Nat := digits.foldl (fun v c => v * 10 + (c.toNat - 48)) 0

variable {n k : Nat} {digits rest : Text}

theorem byte_toNat {c : Char} (h : c.isDigit = true) : (byte c).toNat = c.toNat := by
  have hle : c.val ≤ 57 := by
    simp only [Char.isDigit, Bool.and_eq_true, decide_eq_true_eq] at h
    exact h.2
  have hlt : c.toNat ≤ 57 := hle
  rw [byte, UInt8.toNat_ofNat']
  omega

theorem isDigit_byte {c : Char} (h : c.isDigit = true) : isDigit (byte c) = true := by
  have hn := byte_toNat h
  simp only [Char.isDigit, Bool.and_eq_true, decide_eq_true_eq] at h
  have h0 : 48 ≤ c.toNat := h.1
  have h9 : c.toNat ≤ 57 := h.2
  simp only [isDigit, Bool.and_eq_true, decide_eq_true_eq, UInt8.le_iff_toNat_le, hn]
  exact ⟨h0, h9⟩

theorem decimal_eq : textOf (toString n) = (Nat.toDigits 10 n).map byte := by
  simp [textOf]

theorem decimal_digits {c : Byte} (h : c ∈ textOf (toString n)) : isDigit c = true := by
  rw [decimal_eq] at h
  obtain ⟨x, hx, rfl⟩ := List.mem_map.mp h
  exact isDigit_byte (Nat.isDigit_of_mem_toDigits (by decide) (by decide) hx)

theorem decimal_ne_nil : textOf (toString n) ≠ [] := by
  rw [decimal_eq]
  simp

theorem decimal_length_le (hk : 0 < k) : (textOf (toString n)).length ≤ k ↔ n < 10 ^ k := by
  rw [decimal_eq, List.length_map]
  exact Nat.length_toDigits_le_iff (by decide) hk

theorem digitsValue_map {cs : List Char} (h : ∀ c ∈ cs, c.isDigit = true) :
    digitsValue (cs.map byte) = Nat.ofDigitChars 10 cs 0 := by
  have hfold : ∀ v, (cs.map byte).foldl (fun v c => v * 10 + (c.toNat - 48)) v = Nat.ofDigitChars 10 cs v := by
    induction cs with
    | nil => intro v; rfl
    | cons c cs ih =>
      intro v
      rw [List.map_cons, List.foldl_cons, ih fun x hx => h x (List.mem_cons_of_mem _ hx),
        Nat.ofDigitChars_cons, byte_toNat (h c List.mem_cons_self), Nat.mul_comm]
      rfl
  exact hfold 0

theorem decimal_value : digitsValue (textOf (toString n)) = n := by
  rw [decimal_eq, digitsValue_map fun c hc => Nat.isDigit_of_mem_toDigits (by decide) (by decide) hc,
    Nat.ofDigitChars_toDigits (by decide) (by decide)]

theorem digitsValue_lt (h : ∀ c ∈ digits, isDigit c = true) : digitsValue digits < 10 ^ digits.length := by
  have hfold : ∀ v, digits.foldl (fun v c => v * 10 + (c.toNat - 48)) v < (v + 1) * 10 ^ digits.length := by
    induction digits with
    | nil => intro v; simp
    | cons c digits ih =>
      intro v
      have hc := h c List.mem_cons_self
      simp only [isDigit, Bool.and_eq_true, decide_eq_true_eq, UInt8.le_iff_toNat_le] at hc
      have h9 : c.toNat ≤ 57 := hc.2
      rw [List.foldl_cons, List.length_cons, Nat.pow_succ']
      refine Nat.lt_of_lt_of_le (ih (fun x hx => h x (List.mem_cons_of_mem _ hx)) _) ?_
      rw [← Nat.mul_assoc]
      exact Nat.mul_le_mul_right _ (by omega)
  have hzero := hfold 0
  rw [Nat.zero_add, Nat.one_mul] at hzero
  exact hzero

theorem isSpace_of_digit {c : Byte} (h : isDigit c = true) : isSpace c = false := by
  simp only [isDigit, Bool.and_eq_true, decide_eq_true_eq, UInt8.le_iff_toNat_le] at h
  have h0 : 48 ≤ c.toNat := h.1
  simp only [isSpace, Bool.or_eq_false_iff, Bool.and_eq_false_iff, decide_eq_false_iff_not, UInt8.le_iff_toNat_le]
  refine ⟨fun he => ?_, Or.inr ?_⟩
  · rw [he] at h0
    exact absurd h0 (by decide)
  · show ¬ c.toNat ≤ 13
    omega

theorem span_digits (h : ∀ c ∈ digits, isDigit c = true) (hrest : ¬ rest.head?.any isDigit) :
    (digits ++ rest).takeWhile isDigit = digits ∧ (digits ++ rest).dropWhile isDigit = rest := by
  have hstop : rest.takeWhile isDigit = [] ∧ rest.dropWhile isDigit = rest := by
    cases rest with
    | nil => exact ⟨rfl, rfl⟩
    | cons c rest =>
      have hc : isDigit c = false := by simpa using hrest
      simp [hc]
  constructor
  · rw [List.takeWhile_append_of_pos h, hstop.1, List.append_nil]
  · rw [List.dropWhile_append_of_pos h, hstop.2]

/-- Digits are read to the end, where no digit follows. -/
theorem strtoul_digits (h : ∀ c ∈ digits, isDigit c = true) (hne : digits ≠ [])
    (hrest : ¬ rest.head?.any isDigit) : strtoul (digits ++ rest) = (unsignedLong false digits, rest) := by
  obtain ⟨d, ds, rfl⟩ := List.exists_cons_of_ne_nil hne
  have hd := h d List.mem_cons_self
  have hspace : ((d :: ds) ++ rest).dropWhile isSpace = (d :: ds) ++ rest := by
    rw [List.cons_append, List.dropWhile_cons, isSpace_of_digit hd]
    rfl
  have hminus : d ≠ byte '-' := by
    rintro rfl
    cases hd
  have hplus : d ≠ byte '+' := by
    rintro rfl
    cases hd
  obtain ⟨htake, hdrop⟩ := span_digits h hrest
  unfold strtoul
  rw [hspace, List.cons_append]
  dsimp only
  rw [if_neg hminus, if_neg hplus]
  dsimp only
  rw [List.cons_append] at htake hdrop
  rw [htake, hdrop]

theorem unsignedLong_digits (h : digitsValue digits < 2 ^ 64) : unsignedLong false digits = digitsValue digits := by
  unfold unsignedLong
  rw [← digitsValue]
  simp only [if_neg (Nat.not_le.mpr h), Bool.false_eq_true, ↓reduceIte]

end

def isOctal (c : Byte) : Bool := byte '0' ≤ c && c ≤ byte '7'

def toLower (c : Byte) : Byte := if byte 'A' ≤ c && c ≤ byte 'Z' then c + 32 else c

def isHex (c : Byte) : Bool := isDigit c || byte 'a' ≤ toLower c && toLower c ≤ byte 'f'

def afterSign (s : Text) : Text :=
  match s with
  | c :: rest => if c = byte '-' || c = byte '+' then rest else s
  | [] => []

theorem afterSign_suffix (s : Text) : afterSign s <:+ s := by
  unfold afterSign
  split
  next c rest =>
    split
    next => exact List.suffix_cons c rest
    next => exact List.suffix_refl _
  next => exact List.suffix_refl _

theorem strtoul_eq (s : Text) : strtoul s =
    if (afterSign (s.dropWhile isSpace)).takeWhile isDigit = [] then (0, s)
    else (unsignedLong ((s.dropWhile isSpace).head? = some (byte '-'))
        ((afterSign (s.dropWhile isSpace)).takeWhile isDigit),
      (afterSign (s.dropWhile isSpace)).dropWhile isDigit) := by
  have hread : ∀ (negative : Bool) (body : Text),
      (match body.takeWhile isDigit with
        | [] => (0, s)
        | digits => (unsignedLong negative digits, body.dropWhile isDigit)) =
      if body.takeWhile isDigit = [] then (0, s)
      else (unsignedLong negative (body.takeWhile isDigit), body.dropWhile isDigit) := by
    intro negative body
    split
    next h => rw [if_pos h]
    next h => rw [if_neg h]
  unfold strtoul
  dsimp only
  rw [hread]
  cases s.dropWhile isSpace with
  | nil => rfl
  | cons c rest =>
    by_cases hminus : c = byte '-'
    · subst hminus
      have hsign : afterSign (byte '-' :: rest) = rest := by simp [afterSign]
      rw [hsign]
      simp only [if_true, List.head?_cons, decide_true]
    · by_cases hplus : c = byte '+'
      · subst hplus
        have hne : byte '+' ≠ byte '-' := by decide
        have hsign : afterSign (byte '+' :: rest) = rest := by simp [afterSign]
        rw [hsign]
        simp only [hne, if_true, if_false, List.head?_cons, Option.some.injEq, decide_false]
      · have hsign : afterSign (c :: rest) = c :: rest := by simp [afterSign, hminus, hplus]
        rw [hsign]
        simp only [hminus, hplus, if_false, List.head?_cons, Option.some.injEq, decide_false]

/-- What follows a word, in whatever case it is written. -/
def afterWord (word s : Text) : Option Text :=
  if (s.take word.length).map toLower = word then some (s.drop word.length) else none

/-- Where `strtol` to the base zero and `strtoll` stop. -/
def strtolEnd (s : Text) : Text :=
  let body := afterSign (s.dropWhile isSpace)
  match (afterWord (textOf "0x") body).filter fun rest => rest.head?.any isHex with
  | some rest => rest.dropWhile isHex
  | none =>
    if ¬ body.head?.any isDigit then s
    else if body.head? = some (byte '0') then body.dropWhile isOctal
    else body.dropWhile isDigit

/-- Digits around an optional point, one of them at least. -/
def afterFraction (digit : Byte → Bool) (s : Text) : Option Text :=
  let rest := s.dropWhile digit
  let more := if rest.head? = some (byte '.') then rest.tail else []
  if ¬ s.head?.any digit ∧ ¬ more.head?.any digit then none
  else if rest.head? = some (byte '.') then some (more.dropWhile digit)
  else some rest

def afterExponent (mark : Byte) (s : Text) : Text :=
  match s with
  | c :: rest =>
    if toLower c = mark ∧ (afterSign rest).head?.any isDigit then (afterSign rest).dropWhile isDigit else s
  | [] => []

/-- The characters in brackets that may follow `nan`. -/
def afterPayload (s : Text) : Text :=
  match s with
  | c :: rest =>
    let more := rest.dropWhile fun c => isDigit c || byte 'a' ≤ toLower c && toLower c ≤ byte 'z' || c = byte '_'
    if c = byte '(' ∧ more.head? = some (byte ')') then more.tail else s
  | [] => []

/-- Where `strtod` stops. -/
def strtodEnd (s : Text) : Text :=
  let body := afterSign (s.dropWhile isSpace)
  let number :=
    ((afterWord (textOf "0x") body).bind (afterFraction isHex)).map (afterExponent (byte 'p')) <|>
    (afterFraction isDigit body).map (afterExponent (byte 'e')) <|>
    afterWord (textOf "infinity") body <|> afterWord (textOf "inf") body <|>
    (afterWord (textOf "nan") body).map afterPayload
  number.getD s

/-- The end of the text, or a character after which the `scan_diff` functions ignore the rest. -/
def endsDelta (s : Text) : Bool :=
  match s with
  | [] => true
  | c :: _ => c = byte ' ' || c = byte '\r' || c = byte '\n'

example : strtolEnd (textOf " -0x1f z") = textOf " z" := by decide

example : strtodEnd (textOf "1.5e+3") = [] := by decide

end Katcp
