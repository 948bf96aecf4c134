import Katcp.TimeText
import Mathlib.Data.List.Infix

namespace Katcp

structure KatcpUrl where
  uStr : Text
  uScheme : Text
  uHost : Option Text
  uPort : Int
  uPath : List Text
  uCmd : Option Text
  deriving DecidableEq, Repr

/-- `atoi`, which is `strtol` to the base ten cut off to an `int`. -/
def atoi (s : Text) : Int :=
  let body := s.dropWhile isSpace
  let digits := (afterSign body).takeWhile isDigit
  let v : Int := if body.head? = some (byte '-') then -(digitsValue digits : Int) else digitsValue digits
  (max (-(2 ^ 63)) (min v (2 ^ 63 - 1))).bmod (2 ^ 32)

def isLineEnd (c : Byte) : Bool := c = byte '\r' || c = byte '\n'

/-- The states of `create_kurl_from_string_katcp`, each with the text since `spos`. -/
def scanPath (seg : Text) : Text → Text
  | [] => seg
  | c :: url => if isLineEnd c then seg else scanPath (seg ++ [c]) url

def scanPort (seg : Text) : Text → Int × List Text
  | [] => (atoi seg, [])
  | c :: url =>
    if c = byte ':' then scanPort [] url
    else if c = byte '/' then (atoi seg, [scanPath [] url])
    else if isLineEnd c then (atoi seg, [])
    else scanPort (seg ++ [c]) url

def scanHost (seg : Text) : Text → Option (Text × Int × List Text)
  | [] => none
  | c :: url =>
    if c = byte '/' then scanHost [] url
    else if c = byte ':' then some (seg, scanPort [] url)
    else scanHost (seg ++ [c]) url

/-- `slashes` counts those seen, of which the first two start the command anew. -/
def scanCmd (slashes : Nat) (seg : Text) : Text → Text × List Text
  | [] => (seg, [])
  | c :: url =>
    if c = byte '/' then
      if slashes < 2 then scanCmd (slashes + 1) [] url else scanCmd (slashes + 1) (seg ++ [c]) url
    else if c = byte '#' || isLineEnd c then (seg, if url = [] then [] else [scanPath [] url])
    else scanCmd slashes (seg ++ [c]) url

def scanScheme (seg : Text) : Text → Option (Text × Text)
  | [] => none
  | c :: url => if c = byte ':' then some (seg, url) else scanScheme (seg ++ [c]) url

def createKurlFromString (url : Text) : Option KatcpUrl :=
  (scanScheme [] url).bind fun (scheme, rest) =>
    if scheme.map toLower = textOf "katcp" ∨ scheme.map toLower = textOf "xport" then
      (scanHost [] rest).map fun (host, port, path) => ⟨url, scheme, some host, port, path, none⟩
    else if scheme.map toLower = textOf "exec" then
      let (cmd, path) := scanCmd 0 [] rest
      some ⟨url, scheme, none, 0, path, some cmd⟩
    else none

/-- What `%d` writes. -/
def decimalText (v : Int) : Text := textOf (toString v)

/-- `copy_kurl_string_katcp` without a path. -/
def copyKurlString (scheme : Text) (host : Text) (port : Int) : Text :=
  scheme ++ textOf "://" ++ host ++ textOf ":" ++ decimalText port ++ textOf "/"

def createKurl (scheme host : Text) (port : Int) (path : Option Text) : KatcpUrl :=
  ⟨copyKurlString scheme host port, scheme, some host, port, path.toList, none⟩

def createExecKurl (cmd : Text) : KatcpUrl :=
  ⟨textOf "exec" ++ textOf "://" ++ cmd, textOf "exec", none, 0, [], some cmd⟩

/-- `prefix_match_kurl_katcp`: how long the prefix is, if it is one. -/
def prefixMatchKurl (target start : Text) : Option Nat :=
  if start.isPrefixOf target then some start.length else none

/-- What the buffer of `containing_kurl_katcp` holds of the port. -/
def portBuffer (port : Int) : Text := (decimalText port).take 7

def containingKurl (ku : KatcpUrl) (string : Text) : Nat :=
  match ku.uHost, ku.uCmd with
  | some host, _ =>
    if ¬ (textOf "katcp://").isPrefixOf string then 0
    else match prefixMatchKurl (string.drop 8) host with
    | none => 0
    | some len =>
      let offset := 8 + len
      if string[offset]? ≠ some (byte ':') then 0
      else match prefixMatchKurl (string.drop (offset + 1)) (portBuffer ku.uPort) with
      | none => 0
      | some len => offset + 1 + len
  | none, some cmd =>
    if ¬ (textOf "exec://").isPrefixOf string then 0
    else match prefixMatchKurl (string.drop 7) cmd with
    | none => 0
    | some len => 7 + len
  | none, none => 0

example : (createKurlFromString (textOf "katcp://host.domain:7147/")).map
    (containingKurl · (textOf "katcp://host.domain:7247/")) = some 0 := by decide

/-- `find_containing_job_katcp`: the place in the table of the first job whose URL contains
the name. -/
def findContainingJob (tasks : List KatcpUrl) (name : Text) : Option Nat :=
  tasks.findIdx? fun ku => 0 < containingKurl ku name

/-- The name that `match_notice_job_katcp` gives to a notice. -/
def noticeName (ku : KatcpUrl) (mark : Text) : Text := ku.uStr ++ mark

section

variable {ku kv : KatcpUrl} {tasks : List KatcpUrl} {i : Nat} {a b name mark host host' cmd cmd' : Text} {port port' : Int}

namespace KatcpUrl

/-- What `containing_kurl_katcp` looks for at the start of a name. -/
def front (ku : KatcpUrl) : Option Text :=
  match ku.uHost, ku.uCmd with
  | some host, _ => some (textOf "katcp://" ++ host ++ (byte ':' :: portBuffer ku.uPort))
  | none, some cmd => some (textOf "exec://" ++ cmd)
  | none, none => none

/-- The name starts the way the URL does. -/
def Fronts (ku : KatcpUrl) (name : Text) : Prop := ∃ f, ku.front = some f ∧ f <+: name

end KatcpUrl

theorem append_prefix_iff : a ++ b <+: name ↔ a <+: name ∧ b <+: name.drop a.length := by
  constructor
  · rintro ⟨rest, rfl⟩
    refine ⟨⟨b ++ rest, by rw [List.append_assoc]⟩, ⟨rest, ?_⟩⟩
    rw [List.append_assoc, List.drop_left]
  · rintro ⟨⟨rest, rfl⟩, h⟩
    rw [List.drop_left] at h
    exact (List.prefix_append_right_inj a).mpr h

theorem cons_prefix_iff {c : Byte} : c :: b <+: name ↔ name[0]? = some c ∧ b <+: name.drop 1 := by
  cases name with
  | nil => simp
  | cons d name => simp [List.cons_prefix_cons, eq_comm]

theorem prefixMatchKurl_eq (target start : Text) :
    prefixMatchKurl target start = if start <+: target then some start.length else none := by
  simp [prefixMatchKurl, List.isPrefixOf_iff_prefix]

theorem containing_iff : 0 < containingKurl ku name ↔ ku.Fronts name := by
  obtain ⟨str, scheme, host, port, path, cmd⟩ := ku
  cases host with
  | some host =>
    have hfront : (KatcpUrl.mk str scheme (some host) port path cmd).Fronts name ↔
        textOf "katcp://" <+: name ∧ host <+: name.drop 8 ∧ name[8 + host.length]? = some (byte ':') ∧
          portBuffer port <+: name.drop (8 + host.length + 1) := by
      have hlen : (textOf "katcp://").length = 8 := rfl
      simp only [KatcpUrl.Fronts, KatcpUrl.front, Option.some.injEq, exists_eq_left']
      rw [append_prefix_iff, append_prefix_iff, cons_prefix_iff, List.length_append, hlen, List.drop_drop,
        List.getElem?_drop, Nat.add_zero, and_assoc]
    rw [hfront, containingKurl]
    simp only [List.isPrefixOf_iff_prefix, prefixMatchKurl_eq]
    by_cases hkatcp : textOf "katcp://" <+: name
    · by_cases hhost : host <+: name.drop 8
      · by_cases hcolon : name[8 + host.length]? = some (byte ':')
        · by_cases hport : portBuffer port <+: name.drop (8 + host.length + 1)
          · have hpos : 0 < 8 + host.length + 1 + (portBuffer port).length := by omega
            simp [hkatcp, hhost, hcolon, hport, hpos]
          · simp [hkatcp, hhost, hcolon, hport]
        · simp [hkatcp, hhost, hcolon]
      · simp [hkatcp, hhost]
    · simp [hkatcp]
  | none =>
    cases cmd with
    | none => simp [containingKurl, KatcpUrl.Fronts, KatcpUrl.front]
    | some cmd =>
      have hlen : (textOf "exec://").length = 7 := rfl
      have hfront : (KatcpUrl.mk str scheme none port path (some cmd)).Fronts name ↔
          textOf "exec://" <+: name ∧ cmd <+: name.drop 7 := by
        simp only [KatcpUrl.Fronts, KatcpUrl.front, Option.some.injEq, exists_eq_left']
        rw [append_prefix_iff, hlen]
      rw [hfront, containingKurl]
      simp only [List.isPrefixOf_iff_prefix, prefixMatchKurl_eq]
      by_cases hexec : textOf "exec://" <+: name
      · have hpos : 0 < 7 + cmd.length := by omega
        by_cases hcmd : cmd <+: name.drop 7 <;> simp [hexec, hcmd, hpos]
      · simp [hexec]

theorem parted_prefix_iff {c : Byte} {x y : Text} (ha : c ∉ a) (hb : c ∉ b) :
    a ++ c :: x <+: b ++ c :: y ↔ a = b ∧ x <+: y := by
  induction a generalizing b with
  | nil =>
    cases b with
    | nil => simp [List.cons_prefix_cons]
    | cons d b =>
      have hd : c ≠ d := fun h => hb (by simp [h])
      simp [List.cons_prefix_cons, hd]
  | cons e a ih =>
    have hea : c ≠ e ∧ c ∉ a := by simpa using ha
    cases b with
    | nil => simp [List.cons_prefix_cons, hea.1.symm]
    | cons d b =>
      have hdb : c ≠ d ∧ c ∉ b := by simpa using hb
      rw [List.cons_append, List.cons_append, List.cons_prefix_cons, ih hea.2 hdb.2, List.cons.injEq, and_assoc]

/-- Two jobs of one host part only by the start of their ports. -/
theorem createKurl_fronts {path path' : Option Text} (h : byte ':' ∉ host) (h' : byte ':' ∉ host') :
    (createKurl (textOf "katcp") host port path).Fronts
        (noticeName (createKurl (textOf "katcp") host' port' path') mark) ↔
      host = host' ∧ portBuffer port <+: decimalText port' ++ byte '/' :: mark := by
  have hname : noticeName (createKurl (textOf "katcp") host' port' path') mark =
      textOf "katcp://" ++ (host' ++ byte ':' :: (decimalText port' ++ byte '/' :: mark)) := by
    have hstart : textOf "katcp" ++ textOf "://" = textOf "katcp://" := by decide
    have hcolon : textOf ":" = [byte ':'] := by decide
    have hslash : textOf "/" = [byte '/'] := by decide
    simp [noticeName, createKurl, copyKurlString, hstart, hcolon, hslash]
  simp only [KatcpUrl.Fronts, KatcpUrl.front, createKurl, Option.some.injEq, exists_eq_left']
  rw [← createKurl, hname, List.append_assoc, List.prefix_append_right_inj, parted_prefix_iff h h']

theorem createExecKurl_fronts :
    (createExecKurl cmd).Fronts (noticeName (createExecKurl cmd') mark) ↔ cmd <+: cmd' ++ mark := by
  have hstart : textOf "exec" ++ textOf "://" = textOf "exec://" := by decide
  simp only [KatcpUrl.Fronts, KatcpUrl.front, createExecKurl, noticeName, Option.some.injEq, exists_eq_left']
  rw [hstart, List.append_assoc, List.prefix_append_right_inj]

end

end Katcp
