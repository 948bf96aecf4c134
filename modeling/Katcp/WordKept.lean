import Katcp.WordWrite

namespace Katcp

section

open BitMemory

variable {wide : BitVec 32 → BitVec 32} {win : FpgaWindow} {m next : Bytes} {te : TbsEntry} {j start : Nat}
  {prev : BitVec 32} {words : List (BitVec 32)} {values : List (Option (BitVec 32))}

/-- A word write that is accepted is read back and leaves the rest, one that is refused leaves
the memory as it was. -/
def WordsKept (wide : BitVec 32 → BitVec 32) (win : FpgaWindow) (m : Bytes) (te : TbsEntry) (start : Nat)
    (values : List (Option (BitVec 32))) : Prop :=
  ∃ accepted next, wordWrite wide win m te start values = some (accepted, next) ∧
    (accepted = false → next = m) ∧
    (accepted = true → ∃ words, values = words.map some ∧
      wordRead wide win next te start words.length = some (some words) ∧
      ∀ p, p < te.pos + 32 * start ∨ te.pos + 32 * (start + words.length) ≤ p → bit next p = bit m p)

/-- Words that are written and read back: none of them is null, they lie in a register that is
readable and end before the mapping does, and they cover what the host leaves of the ones before them. -/
structure Writable (wide : BitVec 32 → BitVec 32) (win : FpgaWindow) (te : TbsEntry) (start : Nat)
    (words : List (BitVec 32)) : Prop where
  register : 4 * (start + words.length) ≤ te.eLenBase
  readable : te.eMode.readable = true
  mapping : te.ePosBase + 4 * (start + words.length) < win.rMapSize
  shifted : 0 < te.ePosOffset → te.ePosBase + 4 * (start + words.length) + 4 ≤ win.rMapSize
  whole : te.ePosOffset = 0 → Covers wide 0 words

/-- When the words of a write are kept: it is refused before the first of them is stored, or all
of them can be written and read. -/
def WordsFit (wide : BitVec 32 → BitVec 32) (win : FpgaWindow) (te : TbsEntry) (start : Nat)
    (values : List (Option (BitVec 32))) : Prop :=
  wordWriteChecks win te start values.length = true →
    values.head? = some none ∧ (0 < te.ePosOffset → wordAddress te start + 4 ≤ win.rMapSize) ∨
    te.ePosOffset = 0 ∧ win.beyond (wordAddress te start) = true ∨
    ∃ words, values = words.map some ∧ Writable wide win te start words

theorem leadingBits_eq (hpos : 0 < te.ePosOffset) (hin : j + 4 ≤ win.rMapSize) :
    ∃ prev, leadingBits win m te.ePosOffset j = some prev ∧
      ∀ k < 32, prev.getMsbD k = (decide (k < te.ePosOffset) && bit m (8 * j + k)) := by
  have hlt := te.posOffset_lt
  refine ⟨word m j &&& BitVec.allOnes 32 <<< (32 - te.ePosOffset), ?_, ?_⟩
  · rw [leadingBits, if_pos hpos, FpgaWindow.load_eq hin]
    rfl
  · intro k hk
    rw [BitVec.getMsbD_and, getMsbD_word hk, BitVec.getMsbD_shiftLeft, BitVec.getMsbD_allOnes, Bool.and_comm]
    congr 1
    exact decide_eq_decide.mpr (by omega)

theorem wordAddress_eq (hin : te.ePosBase + 4 * start < 2 ^ 32) : wordAddress te start = te.ePosBase + 4 * start := by
  unfold wordAddress
  omega

/-- The memory with words at a place of it. -/
def overlaid (m : Bytes) (p : Nat) (words : List (BitVec 32)) (q : Nat) : Bool :=
  if p ≤ q ∧ q < p + 32 * words.length then wordsBit words (q - p) else bit m q

theorem wordWrite_writable (h : Writable wide win te start words) (hchecks : wordWriteChecks win te start words.length = true) :
    ∃ next, wordWrite wide win m te start (words.map some) = some (true, next) ∧
      ∀ q, bit next q = overlaid m (te.pos + 32 * start) words q := by
  have hmap := h.mapping
  have hshifted := h.shifted
  have hlt := win.mapSize_lt
  have hoff := te.posOffset_lt
  have hj : wordAddress te start = te.ePosBase + 4 * start := wordAddress_eq (by omega)
  have hplace : te.pos + 32 * start = 8 * wordAddress te start + te.ePosOffset := by
    rw [hj]
    unfold TbsEntry.pos
    omega
  rw [hplace]
  have htarget : ∀ q < 32 * words.length, overlaid m (8 * wordAddress te start + te.ePosOffset) words
      (8 * wordAddress te start + te.ePosOffset + q) = wordsBit words q := by
    intro q hq
    rw [overlaid, if_pos (by omega), Nat.add_sub_cancel_left]
  have hlow : ∀ q < 8 * wordAddress te start + te.ePosOffset,
      overlaid m (8 * wordAddress te start + te.ePosOffset) words q = bit m q := by
    intro q hq
    rw [overlaid, if_neg (by omega)]
  have hstart : ∃ prev, leadingBits win m te.ePosOffset (wordAddress te start) = some prev ∧
      Joined wide te.ePosOffset (overlaid m (8 * wordAddress te start + te.ePosOffset) words)
        (wordAddress te start) prev words := by
    rcases Nat.eq_zero_or_pos te.ePosOffset with hzero | hpos
    · refine ⟨0, by rw [leadingBits, hzero, if_neg (Nat.lt_irrefl 0)], ?_⟩
      rw [hzero] at htarget ⊢
      exact joined_of_covers (h.whole hzero) htarget
    · obtain ⟨prev, hprev, hbits⟩ := leadingBits_eq (m := m) hpos
        (by omega : wordAddress te start + 4 ≤ win.rMapSize)
      refine ⟨prev, hprev, joined_of_shift hpos hoff ?_ htarget⟩
      intro k hk
      rw [hbits k hk]
      by_cases hk' : k < te.ePosOffset
      · rw [hlow _ (by omega)]
      · rw [decide_eq_false hk', Bool.false_and, Bool.false_and]
  obtain ⟨prev, hprev, hjoined⟩ := hstart
  obtain ⟨stored, last, hrun, hwritten, hend⟩ := writeWords_written hjoined (Written.start fun q hq => hlow q (by omega))
    (by omega : wordAddress te start + 4 * words.length ≤ win.rMapSize)
  have hlast : 0 < te.ePosOffset → wordAddress te start + 4 * words.length + 4 ≤ win.rMapSize := by
    intro hpos
    have hin := hshifted hpos
    omega
  obtain ⟨next, hnext, hbits⟩ := writePartial_written hend hwritten hoff (fun q hq => by
    rw [overlaid, if_neg (by omega)]) hlast
  refine ⟨next, ?_, hbits⟩
  rw [wordWrite, List.length_map, hchecks, if_pos rfl]
  simp only [Option.bind_eq_bind, hprev, Option.bind_some, hrun, if_true, hnext]

theorem wordRead_writable (h : Writable wide win te start words) (hready : win.rFpga = .ready) (hne : words ≠ [])
    (hbits : ∀ q, bit next q = overlaid m (te.pos + 32 * start) words q) :
    wordRead wide win next te start words.length = some (some words) := by
  have hmap := h.mapping
  have hreg := h.register
  have hlen := te.lenBase_lt
  have hshifted := h.shifted
  have hlt := win.mapSize_lt
  have hcount := List.length_pos_iff.mpr hne
  have hwords : ∀ q < 32 * words.length, bit next (8 * (te.ePosBase + start * 4) + te.ePosOffset + q) = wordsBit words q := by
    intro q hq
    unfold TbsEntry.pos at hbits
    rw [hbits, overlaid, if_pos (by omega)]
    congr 1
    omega
  have hchecks : wordReadChecks win te start words.length = true := by
    have hin : (te.ePosBase + (start + words.length) * 4) % 2 ^ 32 < win.rMapSize := by omega
    have hfits : (start + words.length) * 4 % 2 ^ 32 ≤ te.eLenBase := by omega
    simp only [wordReadChecks, hready, h.readable, hin, hfits, decide_true, Bool.and_true, Bool.true_and, beq_self_eq_true]
    simpa using Nat.pos_iff_ne_zero.mp hcount
  unfold wordRead
  dsimp only
  rw [Nat.mod_eq_of_lt (by omega : start < 2 ^ 32), Nat.mod_eq_of_lt (by omega : words.length < 2 ^ 32), hchecks,
    if_pos rfl, Nat.mod_eq_of_lt (by omega : te.ePosBase + start * 4 < 2 ^ 32)]
  rcases Nat.eq_zero_or_pos te.ePosOffset with hzero | hpos
  · rw [hzero, Nat.add_zero] at hwords
    rw [hzero, if_neg (Nat.lt_irrefl 0), readWords_whole (h.whole hzero) hwords (by omega)]
    rfl
  · have hprev : ∀ k < 32, (word next (te.ePosBase + start * 4) <<< te.ePosOffset).getMsbD k =
        (decide (k + te.ePosOffset < 32) && bit next (8 * (te.ePosBase + start * 4) + te.ePosOffset + k)) := by
      intro k hk
      rw [BitVec.getMsbD_shiftLeft]
      by_cases hk' : k + te.ePosOffset < 32
      · rw [getMsbD_word hk', decide_eq_true hk', Bool.true_and]
        congr 1
        omega
      · rw [BitVec.getMsbD_of_ge _ _ (by omega), decide_eq_false hk', Bool.false_and]
    have hread : readWords wide win next te.ePosOffset words.length (te.ePosBase + start * 4 + 4)
        (word next (te.ePosBase + start * 4) <<< te.ePosOffset) = some words :=
      readWords_shift hpos te.posOffset_lt hprev hwords (by omega)
    rw [if_pos hpos, FpgaWindow.load_eq (by omega), Option.bind_eq_bind, Option.bind_some,
      Nat.mod_eq_of_lt (by omega : te.ePosBase + start * 4 + 4 < 2 ^ 32), hread]
    rfl

end

section

open BitMemory

variable {wide : BitVec 32 → BitVec 32} {win : FpgaWindow} {m next : Bytes} {te : TbsEntry} {j shift start n : Nat}
  {prev : BitVec 32} {words : List (BitVec 32)} {values : List (Option (BitVec 32))} {accepted : Bool}

theorem leadingBits_some (h : leadingBits win m te.ePosOffset j = some prev) :
    (0 < te.ePosOffset → j + 4 ≤ win.rMapSize) ∧ (∀ k, te.ePosOffset ≤ k → prev.getMsbD k = false) ∧
      (te.ePosOffset = 0 → prev = 0) := by
  have hlt := te.posOffset_lt
  unfold leadingBits at h
  split at h
  next hpos =>
    obtain ⟨current, hcurrent, hprev⟩ := Option.bind_eq_some_iff.mp h
    cases Option.some.inj hprev
    refine ⟨fun _ => (FpgaWindow.load_some hcurrent).2, fun k hk => ?_, by omega⟩
    rw [BitVec.getMsbD_and, BitVec.getMsbD_shiftLeft, BitVec.getMsbD_allOnes, decide_eq_false (by omega), Bool.and_false]
  next hzero =>
    cases Option.some.inj h
    refine ⟨fun hpos => absurd hpos hzero, fun k _ => ?_, fun _ => rfl⟩
    exact BitVec.getMsbD_zero

theorem writePartial_some (h : writePartial win shift j prev m = some next) :
    (0 < shift → j + 4 ≤ win.rMapSize) ∧ (shift = 0 → next = m) ∧ ∀ p < 8 * j, bit next p = bit m p := by
  unfold writePartial at h
  split at h
  next hpos =>
    obtain ⟨current, _, hstore⟩ := Option.bind_eq_some_iff.mp h
    obtain ⟨rfl, hin⟩ := FpgaWindow.store_some hstore
    refine ⟨fun _ => hin, by omega, fun p hp => ?_⟩
    rw [bit_setWord, if_neg (by omega)]
  next hzero =>
    cases Option.some.inj h
    exact ⟨fun hpos => absurd hpos hzero, fun _ => rfl, fun _ _ => rfl⟩

/-- What a word write that gets past its checks does. -/
theorem wordWrite_some (h : wordWrite wide win m te start values = some (accepted, next))
    (hchecks : wordWriteChecks win te start values.length = true) :
    ∃ prev stored k last, leadingBits win m te.ePosOffset (wordAddress te start) = some prev ∧
      writeWords wide win te.ePosOffset values m (wordAddress te start) prev = some (accepted, stored, k, last) ∧
      (accepted = false → next = stored) ∧ (accepted = true → writePartial win te.ePosOffset k last stored = some next) := by
  rw [wordWrite, hchecks, if_pos rfl] at h
  obtain ⟨prev, hprev, hloop⟩ := Option.bind_eq_some_iff.mp h
  obtain ⟨⟨done, stored, k, last⟩, hrun, hend⟩ := Option.bind_eq_some_iff.mp hloop
  cases done with
  | false =>
    cases Option.some.inj hend
    exact ⟨prev, _, k, last, hprev, hrun, fun _ => rfl, by simp⟩
  | true =>
    dsimp only at hend
    rw [if_pos rfl] at hend
    obtain ⟨final, hfinal, hnext⟩ := Option.bind_eq_some_iff.mp hend
    cases Option.some.inj hnext
    exact ⟨prev, stored, k, last, hprev, hrun, by simp, fun _ => hfinal⟩

theorem wordRead_some (h : wordRead wide win m te start n = some (some words)) :
    wordReadChecks win te (start % 2 ^ 32) (n % 2 ^ 32) = true ∧
      (te.ePosOffset = 0 → readWords wide win m 32 (n % 2 ^ 32) ((te.ePosBase + start % 2 ^ 32 * 4) % 2 ^ 32) 0 = some words) := by
  unfold wordRead at h
  dsimp only at h
  split at h
  next hchecks =>
    refine ⟨hchecks, fun hzero => ?_⟩
    rw [hzero, if_neg (Nat.lt_irrefl 0)] at h
    obtain ⟨read, hread, hwords⟩ := Option.bind_eq_some_iff.mp h
    cases Option.some.inj hwords
    exact hread
  next => simp at h

/-- A write whose first value is null is refused before anything is stored. -/
theorem wordsKept_of_null (hhead : values.head? = some none)
    (hchecks : wordWriteChecks win te start values.length = true)
    (hin : 0 < te.ePosOffset → wordAddress te start + 4 ≤ win.rMapSize) : WordsKept wide win m te start values := by
  obtain ⟨rest, rfl⟩ := List.head?_eq_some_iff.mp hhead
  have hprev : ∃ prev, leadingBits win m te.ePosOffset (wordAddress te start) = some prev := by
    rcases Nat.eq_zero_or_pos te.ePosOffset with hzero | hpos
    · exact ⟨0, by rw [leadingBits, hzero, if_neg (Nat.lt_irrefl 0)]⟩
    · obtain ⟨prev, hprev, _⟩ := leadingBits_eq (m := m) hpos (hin hpos)
      exact ⟨prev, hprev⟩
  obtain ⟨prev, hprev⟩ := hprev
  refine ⟨false, m, ?_, fun _ => rfl, by simp⟩
  rw [wordWrite, hchecks, if_pos rfl, hprev]
  rfl

/-- A write that starts beyond the mapping is refused before anything is stored. -/
theorem wordsKept_of_beyond (hzero : te.ePosOffset = 0) (hbeyond : win.beyond (wordAddress te start) = true)
    (hchecks : wordWriteChecks win te start values.length = true) : WordsKept wide win m te start values := by
  cases values with
  | nil => simp [wordWriteChecks] at hchecks
  | cons first rest =>
    cases first with
    | none => exact wordsKept_of_null rfl hchecks fun hpos => absurd hzero (Nat.pos_iff_ne_zero.mp hpos)
    | some value =>
      refine ⟨false, m, ?_, fun _ => rfl, by simp⟩
      rw [wordWrite, hchecks, if_pos rfl, leadingBits, hzero, if_neg (Nat.lt_irrefl 0), Option.bind_eq_bind,
        Option.bind_some, writeWords, hbeyond]
      rfl

theorem wordsKept_of_writable (h : Writable wide win te start words)
    (hchecks : wordWriteChecks win te start words.length = true) :
    WordsKept wide win m te start (words.map some) := by
  obtain ⟨next, hwrite, hbits⟩ := wordWrite_writable (m := m) h hchecks
  have hready : win.rFpga = .ready := by
    simp only [wordWriteChecks, Bool.and_eq_true, beq_iff_eq] at hchecks
    exact hchecks.1.1.1
  have hne : words ≠ [] := by
    rintro rfl
    simp [wordWriteChecks] at hchecks
  refine ⟨true, next, hwrite, by simp, fun _ => ⟨words, rfl, wordRead_writable h hready hne hbits, ?_⟩⟩
  intro p hp
  rw [hbits, overlaid, if_neg (by omega)]

/-- The word that a write starts with tells its memory from the one before, whatever follows. -/
theorem writable_of_kept {value : BitVec 32} {rest : List (Option (BitVec 32))}
    (hall : ∀ m, WordsKept wide win m te start (some value :: rest))
    (hchecks : wordWriteChecks win te start (some value :: rest).length = true)
    (hbeyond : win.beyond (wordAddress te start) = false) :
    ∃ words, some value :: rest = words.map some ∧ Writable wide win te start words := by
  have hoff := te.posOffset_lt
  have hlt := win.mapSize_lt
  have hbase := te.posBase_lt
  obtain ⟨accepted, next, hrun, hrefused, hkept⟩ :=
    hall (ofBits fun p => p == 8 * wordAddress te start + te.ePosOffset && !value.getMsbD 0)
  obtain ⟨prev, stored, k, last, hprev, hloop, hleft, hcut⟩ := wordWrite_some hrun hchecks
  obtain ⟨_, hclear, hzero⟩ := leadingBits_some hprev
  have hfirst := writeWords_first hloop hbeyond
  have hbit : bit stored (8 * wordAddress te start + te.ePosOffset) = value.getMsbD 0 := by
    rw [← getMsbD_word hoff, hfirst, BitVec.getMsbD_or, hclear _ (Nat.le_refl _), BitVec.getMsbD_ushiftRight]
    simp [hoff]
  have hwas : bit (ofBits fun p => p == 8 * wordAddress te start + te.ePosOffset && !value.getMsbD 0)
      (8 * wordAddress te start + te.ePosOffset) = !value.getMsbD 0 := by
    rw [bit_ofBits]
    simp
  cases accepted with
  | false =>
    rw [← hleft rfl, hrefused rfl, hwas] at hbit
    simp at hbit
  | true =>
    obtain ⟨words, hwords, hread, hframe⟩ := hkept rfl
    obtain ⟨done, hdone, hk, hend⟩ := writeWords_done hloop
    have hsame : done = words := (List.map_inj_right fun _ _ => Option.some.inj).mp (hdone.symm.trans hwords)
    subst hsame
    have hne : done ≠ [] := by
      rintro rfl
      simp at hwords
    have hcount := List.length_pos_iff.mpr hne
    have hfits := hend.resolve_left hne
    obtain ⟨hshifted, hplain, hlow⟩ := writePartial_some (hcut rfl)
    have hinside : ¬(8 * wordAddress te start + te.ePosOffset < te.pos + 32 * start ∨
        te.pos + 32 * (start + done.length) ≤ 8 * wordAddress te start + te.ePosOffset) := by
      intro hout
      have hsame := hframe _ hout
      rw [hlow _ (by omega), hbit, hwas] at hsame
      simp at hsame
    have haddress : wordAddress te start = te.ePosBase + 4 * start := by
      unfold TbsEntry.pos at hinside
      unfold wordAddress at hinside ⊢
      omega
    obtain ⟨hreadable, hloopRead⟩ := wordRead_some hread
    simp only [wordReadChecks, Bool.and_eq_true, decide_eq_true_eq] at hreadable
    have hlength : (some value :: rest).length = done.length := by
      rw [hwords, List.length_map]
    simp only [wordWriteChecks, Bool.and_eq_true, decide_eq_true_eq, hlength] at hchecks
    have hregister : 4 * (start + done.length) ≤ te.eLenBase := by
      have hle := hchecks.2
      omega
    refine ⟨done, hwords, hregister, hreadable.1.1.1.2, ?_, ?_, ?_⟩
    · have hmap := hreadable.1.1.2
      omega
    · intro hpos
      have hin := hshifted hpos
      omega
    · intro hnone
      have hwritten := hzero hnone ▸ hloop
      rw [hnone, hwords] at hwritten
      have hloopRead := hloopRead hnone
      rw [hplain hnone, Nat.mod_eq_of_lt (by omega), show (te.ePosBase + start % 2 ^ 32 * 4) % 2 ^ 32 =
        wordAddress te start by omega] at hloopRead
      exact covers_of_read hwritten hloopRead

/-- Whether the words of a write are kept, whatever is in the fpga, is a matter of the request. -/
theorem word_access_exact :
    (∀ m, WordsKept wide win m te start values) ↔ WordsFit wide win te start values := by
  constructor
  · intro hall hchecks
    obtain ⟨accepted, next, hrun, _, _⟩ := hall (ofBits fun _ => false)
    obtain ⟨prev, _, _, _, hprev, _⟩ := wordWrite_some hrun hchecks
    have hin := (leadingBits_some hprev).1
    cases values with
    | nil => simp [wordWriteChecks] at hchecks
    | cons first rest =>
      cases first with
      | none => exact Or.inl ⟨rfl, hin⟩
      | some value =>
        cases hbeyond : win.beyond (wordAddress te start) with
        | true =>
          refine Or.inr (Or.inl ⟨?_, rfl⟩)
          by_contra hne
          have hle := hin (Nat.pos_of_ne_zero hne)
          rw [FpgaWindow.beyond_of_le (by omega)] at hbeyond
          simp at hbeyond
        | false => exact Or.inr (Or.inr (writable_of_kept hall hchecks hbeyond))
  · intro hfit m
    cases hchecks : wordWriteChecks win te start values.length with
    | false => exact ⟨false, m, by rw [wordWrite, hchecks]; rfl, fun _ => rfl, by simp⟩
    | true =>
      rcases hfit hchecks with ⟨hhead, hin⟩ | ⟨hzero, hbeyond⟩ | ⟨words, rfl, hwritable⟩
      · exact wordsKept_of_null hhead hchecks hin
      · exact wordsKept_of_beyond hzero hbeyond hchecks
      · rw [List.length_map] at hchecks
        exact wordsKept_of_writable hwritable hchecks

/-- Four words from the start of the mapping on. -/
def plainEntry : TbsEntry :=
  ⟨0, 16, 0, 0, ⟨true, true⟩, TbsEntry.zero_base, TbsEntry.sixteen_base, TbsEntry.zero_offset, TbsEntry.zero_offset⟩

/-- A write of a word and a null is refused after the word has been stored. -/
theorem refused_write_stored : ∃ next,
    wordWrite id pageWindow (ofBits fun _ => false) plainEntry 0 [some 1#32, none] = some (false, next) ∧
      bit (ofBits fun _ => false) 31 = false ∧ bit next 31 = true :=
  ⟨_, rfl, by decide, by decide⟩

end

end Katcp
