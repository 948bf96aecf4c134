import Katcp.BoundedCopy
import Katcp.LineRoundTrip
import Katcp.DuplexData

namespace Katcp

open Memory

/-- The loop of `buffer_from_parse_katcl`, where `len` is the size it has been given; there is no
answer where it writes outside the buffer or aborts. -/
def flattenArgs (p : Parse) (len : Nat) : List Larg → List Byte → Int → Int → Option (List Byte × Int)
  | [], buffer, offset, _ => (assign buffer offset 0).map (·, offset)
  | la :: rest, buffer, offset, space =>
    let offset := offset + 1
    let size := asInt (la.aEnd - la.aBegin)
    let src := p.pBuffer.drop la.aBegin
    if size < 0 then none
    else if space ≤ size then
      if len < 4 then (assign buffer 0 0).map (·, -1)
      else do
        let buffer ← memcpy buffer offset src space
        let buffer ← memcpy buffer (len - 4) (textOf "..." ++ [0]) 4
        some (buffer, asInt len)
    else do
      let buffer ← memcpy buffer offset src size
      let buffer ← assign buffer (offset + size) (byte ' ')
      flattenArgs p len rest buffer (offset + size) (space - size - 1)

/-- `buffer_from_parse_katcl` for a buffer of as many bytes as the caller says. -/
def bufferFromParse (p : Parse) (buffer : List Byte) : Option (List Byte × Int) :=
  match p.pState with
  | .fake | .done =>
    if buffer.length = 0 then some (buffer, -1)
    else flattenArgs p buffer.length (p.pArgs.take p.pGot) buffer (if p.pGot = 0 then 0 else -1) (asInt buffer.length)
  | _ => some (buffer, -1)

def argTexts (p : Parse) : Words := p.args.map Arg.text

/-- The arguments with a blank between each two. -/
def joined (texts : Words) : Text := [byte ' '].intercalate texts

/-- The text is in the buffer, or as much of it as there is room for in front of an ellipsis. -/
def Flattened (texts : Words) (len : Nat) (result : Option (List Byte × Int)) : Prop :=
  ∃ buffer n, result = some (buffer, n) ∧ buffer.length = len ∧
    if (joined texts).length < len then joined texts ++ [0] <+: buffer ∧ n = (joined texts).length
    else buffer = (joined texts).take (len - 4) ++ (textOf "..." ++ [0]) ∧ n = len

/-- Every argument followed by a blank, as the loop puts them. -/
def spaced (texts : Words) : Text := texts.flatMap (· ++ [byte ' '])

/-- No length that the loop comes to look at is negative as an `int`. -/
def Flattenable (texts : Words) (len : Nat) : Prop :=
  texts = [] ∨ len < 2 ^ 31 ∧ ∀ i text, texts[i]? = some text → (spaced (texts.take i)).length ≤ len →
    text.length < 2 ^ 31

section

variable {p : Parse} {len : Nat} {las : List Larg} {la : Larg} {texts : Words} {text done buffer : List Byte}

theorem spaced_cons (text : Text) (texts : Words) : spaced (text :: texts) = text ++ byte ' ' :: spaced texts := by
  simp [spaced]

theorem spaced_eq (h : texts ≠ []) : spaced texts = joined texts ++ [byte ' '] := by
  induction texts with
  | nil => exact absurd rfl h
  | cons text rest ih =>
    cases rest with
    | nil => simp [spaced, joined]
    | cons next rest =>
      rw [spaced_cons, ih (List.cons_ne_nil _ _)]
      simp [joined, List.intercalate, List.intersperse]

/-- Where an argument lies. -/
structure Lies (p : Parse) (la : Larg) : Prop where
  order : la.aBegin ≤ la.aEnd
  inside : la.aEnd ≤ p.pSize

theorem Lies.length (h : Lies p la) : (p.argText la).length = la.aEnd - la.aBegin := by
  have := h.inside
  rw [Parse.argText, slice_length, Nat.min_eq_left (by simpa [Parse.pSize] using this)]

theorem Lies.source (h : Lies p la) : la.aEnd - la.aBegin ≤ (p.pBuffer.drop la.aBegin).length := by
  have := h.inside
  rw [List.length_drop]
  simp only [Parse.pSize] at this
  omega

theorem take_argText {n : Nat} (h : n ≤ la.aEnd - la.aBegin) :
    (p.pBuffer.drop la.aBegin).take n = (p.argText la).take n := by
  rw [Parse.argText, slice, List.drop_take, List.take_take, Nat.min_eq_left h]

/-- An argument that leaves room for the blank behind it. -/
theorem flattenArgs_fits (hla : Lies p la) (hbuffer : buffer.length = len) (hdone : done <+: buffer)
    (hsmall : la.aEnd - la.aBegin < 2 ^ 31) (hfits : done.length + (la.aEnd - la.aBegin) < len) :
    ∃ zs, zs.length = len ∧ done ++ (p.argText la ++ [byte ' ']) <+: zs ∧
      flattenArgs p len (la :: las) buffer (done.length - 1) (len - done.length) =
        flattenArgs p len las zs ((done ++ (p.argText la ++ [byte ' '])).length - 1)
          (len - (done ++ (p.argText la ++ [byte ' '])).length) := by
  have htext := hla.length
  obtain ⟨ys, hys, hylen, hyp⟩ := memcpy_behind hdone hla.source (by omega)
  rw [take_argText le_rfl, List.take_of_length_le htext.le] at hyp
  have hmore : (done ++ p.argText la).length = done.length + (la.aEnd - la.aBegin) := by
    rw [List.length_append, htext]
  obtain ⟨zs, hzs, hzlen, hzp⟩ := assign_behind (x := byte ' ') hyp (by omega)
  refine ⟨zs, by omega, by rwa [← List.append_assoc], ?_⟩
  rw [flattenArgs]
  rw [asInt_small hsmall, if_neg (by omega), if_neg (by omega), Int.sub_add_cancel, hys]
  dsimp only [Option.bind_eq_bind, Option.bind_some]
  rw [hmore, Int.natCast_add] at hzs
  rw [hzs]
  dsimp only [Option.bind_some]
  congr 1
  · rw [← List.append_assoc, List.length_append, hmore, List.length_singleton]
    omega
  · rw [← List.append_assoc, List.length_append, hmore, List.length_singleton]
    omega

/-- An argument that does not. -/
theorem flattenArgs_full (hla : Lies p la) (hbuffer : buffer.length = len) (hdone : done <+: buffer)
    (hlen : 4 ≤ len) (hint : len < 2 ^ 31) (hsmall : la.aEnd - la.aBegin < 2 ^ 31) (hle : done.length ≤ len)
    (hfull : len ≤ done.length + (la.aEnd - la.aBegin)) :
    ∃ zs, flattenArgs p len (la :: las) buffer (done.length - 1) (len - done.length) = some (zs, (len : Int)) ∧
      zs.length = len ∧ zs = (done ++ p.argText la).take (len - 4) ++ (textOf "..." ++ [0]) := by
  obtain ⟨ys, hys, hylen, hyp⟩ := @memcpy_behind _ _ _ (len - done.length) _ hdone
    (le_trans (by omega) hla.source) (by omega)
  rw [take_argText (by omega)] at hyp
  have hyeq : ys = (done ++ p.argText la).take len := by
    rw [List.take_append, List.take_of_length_le hle]
    refine (hyp.eq_of_length ?_).symm
    rw [List.length_append, List.length_take, hla.length]
    omega
  have hdots : len - 4 + (textOf "..." ++ [0]).length = ys.length := by
    have : (textOf "..." ++ [0]).length = 4 := by decide
    omega
  refine ⟨_, ?_, ?_, rfl⟩
  · rw [flattenArgs]
    rw [asInt_small hsmall, if_neg (by omega), if_pos (by omega), if_neg (by omega), Int.sub_add_cancel,
      show (len : Int) - done.length = ((len - done.length : Nat) : Int) by omega, hys]
    dsimp only [Option.bind_eq_bind, Option.bind_some]
    rw [show (len : Int) - 4 = ((len - 4 : Nat) : Int) by omega, show (4 : Int) = ((4 : Nat) : Int) from rfl,
      memcpy_of_fits (by decide) (by omega), asInt_small hint, List.take_of_length_le (by decide),
      copyInto_end hdots, hyeq, List.take_take, Nat.min_eq_left (by omega)]
    rfl
  · rw [List.length_append, List.length_take, List.length_append, hla.length]
    have : (textOf "..." ++ [0]).length = 4 := by decide
    omega

/-- The arguments that the loop comes to are of lengths that it can take for what they are. -/
def NoneLong (p : Parse) (len : Nat) (done : List Byte) (las : List Larg) : Prop :=
  ∀ i la, las[i]? = some la → (done ++ spaced ((las.take i).map p.argText)).length ≤ len →
    la.aEnd - la.aBegin < 2 ^ 31

theorem NoneLong.tail (h : NoneLong p len done (la :: las)) :
    NoneLong p len (done ++ (p.argText la ++ [byte ' '])) las := by
  intro i lb hlb hreach
  refine h (i + 1) lb hlb ?_
  rw [List.take_succ_cons, List.map_cons, spaced_cons]
  simpa using hreach

theorem NoneLong.cons (hsmall : la.aEnd - la.aBegin < 2 ^ 31)
    (h : NoneLong p len (done ++ (p.argText la ++ [byte ' '])) las) : NoneLong p len done (la :: las) := by
  intro i lb hlb hreach
  cases i with
  | zero =>
    cases hlb
    exact hsmall
  | succ i =>
    refine h i lb hlb ?_
    rw [List.take_succ_cons, List.map_cons, spaced_cons] at hreach
    simpa using hreach

/-- Behind the end of the buffer the loop comes to nothing. -/
theorem NoneLong.beyond (h : len < done.length) : NoneLong p len done las := by
  intro i la _ hreach
  rw [List.length_append] at hreach
  omega

/-- The loop on a buffer that begins with what it has put there. -/
theorem flattenArgs_spec (hlen : 4 ≤ len) (hint : len < 2 ^ 31) (hlies : ∀ la ∈ las, Lies p la)
    (hbuffer : buffer.length = len) (hdone : done <+: buffer) (hsome : done ≠ [] ∨ las ≠ [])
    (hshort : NoneLong p len done las) :
    ∃ zs n, flattenArgs p len las buffer (done.length - 1) (len - done.length) = some (zs, n) ∧ zs.length = len ∧
      if (done ++ spaced (las.map p.argText)).length ≤ len then
        (done ++ spaced (las.map p.argText)).dropLast ++ [0] <+: zs ∧
          n = (done ++ spaced (las.map p.argText)).length - 1
      else zs = (done ++ spaced (las.map p.argText)).take (len - 4) ++ (textOf "..." ++ [0]) ∧ n = len := by
  have hle : done.length ≤ len := hbuffer ▸ hdone.length_le
  induction las generalizing done buffer with
  | nil =>
    have hne : done ≠ [] := hsome.resolve_right fun h => h rfl
    have hpos := List.length_pos_iff.mpr hne
    have hdrop : (done.dropLast).length = done.length - 1 := List.length_dropLast
    obtain ⟨zs, hzs, hzlen, hzp⟩ :=
      assign_behind (x := 0) ((List.dropLast_prefix done).trans hdone) (by omega)
    rw [hdrop, show ((done.length - 1 : Nat) : Int) = done.length - 1 by omega] at hzs
    refine ⟨zs, (done.length : Int) - 1, ?_, by omega, ?_⟩
    · rw [flattenArgs, hzs]
      rfl
    · rw [List.map_nil, spaced, List.flatMap_nil, List.append_nil, if_pos hle]
      exact ⟨hzp, rfl⟩
  | cons la rest ih =>
    have hla := hlies la List.mem_cons_self
    have hsmall := hshort 0 la rfl (by simpa [spaced] using hle)
    have hall : done ++ spaced ((la :: rest).map p.argText) =
        (done ++ (p.argText la ++ [byte ' '])) ++ spaced (rest.map p.argText) := by
      rw [List.map_cons, spaced_cons]
      simp
    by_cases hfits : done.length + (la.aEnd - la.aBegin) < len
    · obtain ⟨zs, hzlen, hzp, heq⟩ := @flattenArgs_fits p len rest la done buffer hla hbuffer hdone hsmall hfits
      obtain ⟨ws, n, hws, hwlen, hw⟩ := ih (fun lb hlb => hlies lb (List.mem_cons_of_mem _ hlb)) hzlen hzp
        (.inl (by simp)) hshort.tail (hzlen ▸ hzp.length_le)
      rw [hall]
      exact ⟨ws, n, heq.trans hws, hwlen, hw⟩
    · obtain ⟨zs, heq, hzlen, hz⟩ := @flattenArgs_full p len rest la done buffer hla hbuffer hdone hlen hint
        hsmall hle (by omega)
      have htext := hla.length
      refine ⟨zs, _, heq, hzlen, ?_⟩
      have hlong : ¬ (done ++ spaced ((la :: rest).map p.argText)).length ≤ len := by
        rw [hall]
        simp only [List.length_append, List.length_singleton, htext]
        omega
      rw [if_neg hlong]
      refine ⟨?_, rfl⟩
      have hsplit : done ++ spaced ((la :: rest).map p.argText) =
          (done ++ p.argText la) ++ byte ' ' :: spaced (rest.map p.argText) := by
        rw [List.map_cons, spaced_cons, List.append_assoc]
      have hroom : len - 4 ≤ (done ++ p.argText la).length := by
        rw [List.length_append, htext]
        omega
      rw [hz, hsplit, List.take_append_of_le_length hroom]

/-- The loop comes to an argument whose length is negative as an `int`. -/
theorem flattenArgs_long (hlies : ∀ la ∈ las, Lies p la) (hsize : p.pSize < 2 ^ 32)
    (hbuffer : buffer.length = len) (hdone : done <+: buffer) (hlong : ¬ NoneLong p len done las) :
    flattenArgs p len las buffer (done.length - 1) (len - done.length) = none := by
  induction las generalizing done buffer with
  | nil => exact absurd (fun i la hla => by simp at hla) hlong
  | cons la rest ih =>
    have hla := hlies la List.mem_cons_self
    by_cases hsmall : la.aEnd - la.aBegin < 2 ^ 31
    · by_cases hfits : done.length + (la.aEnd - la.aBegin) < len
      · obtain ⟨zs, hzlen, hzp, heq⟩ := @flattenArgs_fits p len rest la done buffer hla hbuffer hdone hsmall hfits
        exact heq.trans (ih (fun lb hlb => hlies lb (List.mem_cons_of_mem _ hlb)) hzlen hzp
          fun hrest => hlong (.cons hsmall hrest))
      · refine absurd (NoneLong.cons hsmall (.beyond ?_)) hlong
        simp only [List.length_append, List.length_singleton, hla.length]
        omega
    · have hend := hla.inside
      rw [flattenArgs]
      rw [if_pos (asInt_negative (by omega) (by omega))]

/-- A count that is negative as an `int` is no size of anything. -/
theorem flattenArgs_negative {offset space : Int} (hlen : 4 ≤ len) (hspace : space < 0) :
    flattenArgs p len (la :: las) buffer offset space = none := by
  rw [flattenArgs]
  split
  next => rfl
  next hsize =>
    rw [if_pos (by omega), if_neg (by omega), memcpy_neg hspace]
    rfl

theorem argTexts_eq (p : Parse) : argTexts p = (p.pArgs.take p.pGot).map p.argText := by
  simp only [argTexts, Parse.args, Parse.message, List.map_map]
  rfl

theorem flattenable_iff (hlies : ∀ la ∈ p.pArgs.take p.pGot, Lies p la) :
    Flattenable (argTexts p) len ↔
      p.pArgs.take p.pGot = [] ∨ len < 2 ^ 31 ∧ NoneLong p len [] (p.pArgs.take p.pGot) := by
  rw [Flattenable, argTexts_eq, List.map_eq_nil_iff]
  refine or_congr_right (and_congr_right fun _ => ⟨fun h i la hla hreach => ?_, fun h i text htext hreach => ?_⟩)
  · have hlen := h i (p.argText la) (by rw [List.getElem?_map, hla]; rfl) (by simpa [List.map_take] using hreach)
    rwa [(hlies la (List.mem_of_getElem? hla)).length] at hlen
  · rw [List.getElem?_map] at htext
    obtain ⟨la, hla, rfl⟩ := Option.map_eq_some_iff.mp htext
    rw [(hlies la (List.mem_of_getElem? hla)).length]
    exact h i la hla (by simpa [List.map_take] using hreach)

/-- A message is flattened when the code can take the lengths it looks at for what they are. -/
theorem message_flattened (p : Parse) (buffer : List Byte) (hstate : p.pState = .fake ∨ p.pState = .done)
    (hgot : p.pGot ≤ p.pCount) (hlies : ∀ la ∈ p.pArgs.take p.pGot, Lies p la) (hsize : p.pSize < 2 ^ 32)
    (hlen : 4 ≤ buffer.length) (huint : buffer.length < 2 ^ 32) :
    Flattened (argTexts p) buffer.length (bufferFromParse p buffer) ↔ Flattenable (argTexts p) buffer.length := by
  have hcode : bufferFromParse p buffer = flattenArgs p buffer.length (p.pArgs.take p.pGot) buffer
      (if p.pGot = 0 then 0 else -1) (asInt buffer.length) := by
    rcases hstate with h | h <;> rw [bufferFromParse, h] <;> dsimp only <;> rw [if_neg (by omega)]
  rw [hcode, flattenable_iff hlies]
  by_cases hnone : p.pArgs.take p.pGot = []
  · have hzero : p.pGot = 0 := by
      rcases List.take_eq_nil_iff.mp hnone with h | h
      · exact h
      · rw [Parse.pCount, h] at hgot
        exact Nat.le_zero.mp hgot
    obtain ⟨zs, hzs, hzlen, hzp⟩ := assign_behind (x := 0) (List.nil_prefix (l := buffer)) (by simp; omega)
    refine iff_of_true ?_ (.inl hnone)
    rw [hnone, if_pos hzero, argTexts_eq, hnone]
    refine ⟨zs, 0, ?_, hzlen, ?_⟩
    · simp only [List.length_nil, Int.natCast_zero] at hzs
      rw [flattenArgs, hzs]
      rfl
    · rw [if_pos (by simp [joined]; omega)]
      exact ⟨hzp, rfl⟩
  have hgone : p.pGot ≠ 0 := fun h => hnone (by rw [h, List.take_zero])
  have hne : argTexts p ≠ [] := by
    rw [argTexts_eq]
    exact fun h => hnone (List.map_eq_nil_iff.mp h)
  rw [if_neg hgone]
  by_cases hint : buffer.length < 2 ^ 31
  · rw [asInt_small hint]
    by_cases hshort : NoneLong p buffer.length [] (p.pArgs.take p.pGot)
    · refine iff_of_true ?_ (.inr ⟨hint, hshort⟩)
      obtain ⟨zs, n, hzs, hzlen, hz⟩ := flattenArgs_spec hlen hint hlies rfl List.nil_prefix (.inr hnone) hshort
      refine ⟨zs, n, by simpa using hzs, hzlen, ?_⟩
      rw [← argTexts_eq, List.nil_append, spaced_eq hne, List.length_append, List.length_singleton] at hz
      split
      next hfits =>
        rw [if_pos (by omega), List.dropLast_concat] at hz
        exact ⟨hz.1, by have := hz.2; omega⟩
      next hfull =>
        rw [if_neg (by omega), List.take_append_of_le_length (by omega)] at hz
        exact hz
    · refine iff_of_false ?_ (by tauto)
      rintro ⟨zs, n, hzs, -⟩
      have hfails := flattenArgs_long hlies hsize rfl List.nil_prefix hshort
      simp only [List.length_nil, Int.natCast_zero, Int.zero_sub, Int.sub_zero] at hfails
      rw [hfails] at hzs
      cases hzs
  · refine iff_of_false ?_ (by tauto)
    rintro ⟨zs, n, hzs, -⟩
    obtain ⟨la, rest, hlas⟩ := List.exists_cons_of_ne_nil hnone
    rw [hlas, flattenArgs_negative hlen (asInt_negative (by omega) huint)] at hzs
    cases hzs

end

/-- A message of two arguments. -/
def logParse : Parse :=
  { createParse with
    pState := .done
    pBuffer := textOf "?log" ++ [0] ++ textOf "warn" ++ [0]
    pHave := 10
    pUsed := 10
    pKept := 10
    pArgs := [⟨0, 4, 1⟩, ⟨5, 9, 1⟩]
    pGot := 2 }

theorem logParse_lies : ∀ la ∈ logParse.pArgs.take logParse.pGot, Lies logParse la := by
  intro la hla
  have hcases : la = ⟨0, 4, 1⟩ ∨ la = ⟨5, 9, 1⟩ := by simpa [logParse] using hla
  rcases hcases with rfl | rfl <;> exact ⟨by decide, by decide⟩

theorem log_flattened : Flattened (argTexts logParse) 8 (bufferFromParse logParse (List.replicate 8 0)) :=
  (message_flattened logParse (List.replicate 8 0) (.inr rfl) (by decide) logParse_lies (by decide) (by decide)
    (by decide)).mpr (.inr ⟨by decide, fun i text htext _ => by
      have hmem : ∀ t ∈ argTexts logParse, t.length < 2 ^ 31 := by decide
      exact hmem text (List.mem_of_getElem? htext)⟩)

/-- The size of a buffer of two gigabytes is negative as an `int`. -/
theorem log_overruns :
    bufferFromParse logParse (List.replicate (2 ^ 31) 0) = none ∧
      ¬ Flattened (argTexts logParse) (2 ^ 31) (bufferFromParse logParse (List.replicate (2 ^ 31) 0)) := by
  have hnone : bufferFromParse logParse (List.replicate (2 ^ 31) 0) = none := by
    have hcode : bufferFromParse logParse (List.replicate (2 ^ 31) 0) =
        if (List.replicate (2 ^ 31) (0 : Byte)).length = 0 then some (List.replicate (2 ^ 31) 0, -1)
        else flattenArgs logParse (List.replicate (2 ^ 31) (0 : Byte)).length [⟨0, 4, 1⟩, ⟨5, 9, 1⟩]
          (List.replicate (2 ^ 31) 0) (-1) (asInt (List.replicate (2 ^ 31) (0 : Byte)).length) := rfl
    rw [hcode, List.length_replicate, if_neg (by decide)]
    exact flattenArgs_negative (by decide) (by decide)
  refine ⟨hnone, ?_⟩
  rintro ⟨buffer, n, hb, -⟩
  rw [hnone] at hb
  cases hb

end Katcp
