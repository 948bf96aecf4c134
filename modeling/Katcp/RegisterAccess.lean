import Katcp.WordWrite
import Katcp.WriteKept

namespace Katcp

section

open BitMemory

/-- The bytes of the word at an address are in words that a register overlaps. -/
def TbsEntry.Covers (te : TbsEntry) (a : Nat) : Prop :=
  ∀ b, a ≤ b → b < a + 4 → ∃ p, te.pos ≤ p ∧ p < te.pos + te.len ∧ p / 32 = b / 4

/-- The bytes between two addresses are in words that a register overlaps. -/
def TbsEntry.Spans (te : TbsEntry) (low high : Nat) : Prop :=
  0 < te.len ∧ te.pos / 32 * 4 ≤ low ∧ high ≤ (te.pos + te.len + 31) / 32 * 4

/-- A register lies within the mapping. -/
def TbsEntry.Inside (te : TbsEntry) (win : FpgaWindow) : Prop := te.pos + te.len ≤ 8 * win.rMapSize

/-- So many words from an address on. -/
def wordsFrom : Nat → Nat → List Nat
  | 0, _ => []
  | n + 1, j => j :: wordsFrom n ((j + 4) % 2 ^ 32)

/-- One where there is a bit offset. -/
def extraWord (shift : Nat) : Nat := if 0 < shift then 1 else 0

/-- The words that a word read loads. -/
def wordReadTouches (win : FpgaWindow) (te : TbsEntry) (start length : Nat) : List Nat :=
  let start := start % 2 ^ 32
  let length := length % 2 ^ 32
  if wordReadChecks win te start length then
    let j := (te.ePosBase + start * 4) % 2 ^ 32
    if 0 < te.ePosOffset then j :: wordsFrom length ((j + 4) % 2 ^ 32) else wordsFrom length j
  else []

/-- The words that the loop of a word write stores to, where it ends, and whether it came to the end
of the values. -/
def writeWordsTouches (win : FpgaWindow) : List (Option (BitVec 32)) → Nat → Bool × Nat × List Nat
  | [], j => (true, j, [])
  | none :: _, j => (false, j, [])
  | some _ :: rest, j =>
    if win.beyond j then (false, j, [])
    else
      let (done, k, touched) := writeWordsTouches win rest ((j + 4) % 2 ^ 32)
      (done, k, j :: touched)

/-- The words that a word write loads or stores to. -/
def wordWriteTouches (win : FpgaWindow) (te : TbsEntry) (start : Nat) (values : List (Option (BitVec 32))) : List Nat :=
  if wordWriteChecks win te start values.length then
    let j := wordAddress te start
    let (done, k, touched) := writeWordsTouches win values j
    (if 0 < te.ePosOffset then [j] else []) ++ touched ++ if done ∧ 0 < te.ePosOffset then [k, k] else []
  else []

def writeLastTouches (win : FpgaWindow) (ptrBase remaining : Nat) : List Nat :=
  if remaining = 0 then [] else if win.beyond ptrBase then [] else [ptrBase, ptrBase]

def writeRestTouches (win : FpgaWindow) (plan : WritePlan) (ptrBase : Nat) : List Nat :=
  let remaining := leftOver plan
  if remaining = 0 then []
  else if 32 ≤ (plan.ptrOffset + remaining) % 2 ^ 32 then
    ptrBase :: writeLastTouches win ((ptrBase + 4) % 2 ^ 32) ((plan.ptrOffset + remaining) % 2 ^ 32 - 32)
  else writeLastTouches win ptrBase remaining

/-- The words that a request to write a register loads or stores to. -/
def writeTouches (win : FpgaWindow) (plan : WritePlan) : List Nat :=
  (if 0 < plan.ptrOffset then [plan.ptrBase] else []) ++ wordsFrom plan.copyWordsFloor plan.ptrBase ++
    writeRestTouches win plan ((plan.ptrBase + 4 * plan.copyWordsFloor) % 2 ^ 32)

def writeCmdTouches (long : Nat) (win : FpgaWindow) (te : TbsEntry) (offset : Nat × Nat) (length : Option (Nat × Nat))
    (blen : Nat) (flags : Align) : List Nat :=
  match writePlan long win te offset length blen flags with
  | none => []
  | some plan => writeTouches win plan

end

section

open BitMemory

variable {wide : BitVec 32 → BitVec 32} {win : FpgaWindow} {te : TbsEntry} {m buffer : Bytes} {a i j k n shift start : Nat}
  {prev : BitVec 32} {values : List (Option (BitVec 32))} {plan : WritePlan}

theorem covers_iff : te.Covers a ↔ te.Spans a (a + 4) := by
  constructor
  · intro h
    obtain ⟨p, hp, hlt, hword⟩ := h a (Nat.le_refl a) (by omega)
    obtain ⟨q, hq, hqlt, hqword⟩ := h (a + 3) (by omega) (by omega)
    exact ⟨by omega, by omega, by omega⟩
  · rintro ⟨hlen, hlow, hhigh⟩ b hab hba
    by_cases hfirst : te.pos ≤ 32 * (b / 4)
    · exact ⟨32 * (b / 4), hfirst, by omega, by omega⟩
    · exact ⟨te.pos, Nat.le_refl _, by omega, by omega⟩

/-- A register within the mapping overlaps words within the mapping. -/
theorem TbsEntry.Spans.le_mapSize {low high : Nat} (h : te.Spans low high) (hin : te.Inside win) :
    high ≤ win.rMapSize := by
  have hpages := win.pages
  have hle := h.2.2
  unfold TbsEntry.Inside at hin
  omega

theorem TbsEntry.Covers.le_mapSize (h : te.Covers a) (hin : te.Inside win) : a + 4 ≤ win.rMapSize :=
  (covers_iff.mp h).le_mapSize hin

/-- Words one behind the other are covered where the first and the last of them are: none wraps, as the
mapping ends before that. -/
theorem wordsFrom_covers (hin : te.Inside win) :
    (∀ a ∈ wordsFrom n j, te.Covers a) ↔ n = 0 ∨ te.Spans j (j + 4 * n) := by
  have hmap := win.mapSize_lt
  induction n generalizing j with
  | zero => simp [wordsFrom]
  | succ n ih =>
    rw [wordsFrom]
    simp only [List.mem_cons, forall_eq_or_imp]
    rw [covers_iff]
    constructor
    · rintro ⟨hfirst, hrest⟩
      have hle := hfirst.le_mapSize hin
      refine .inr ?_
      rw [Nat.mod_eq_of_lt (by omega)] at hrest
      rcases ih.mp hrest with hzero | hspans
      · subst hzero
        exact hfirst
      · exact ⟨hfirst.1, hfirst.2.1, by have := hspans.2.2; omega⟩
    · intro h
      obtain ⟨hlen, hlow, hhigh⟩ := h.resolve_left (Nat.succ_ne_zero n)
      have hfirst : te.Spans j (j + 4) := ⟨hlen, hlow, by omega⟩
      have hle := hfirst.le_mapSize hin
      refine ⟨hfirst, ?_⟩
      rw [Nat.mod_eq_of_lt (by omega)]
      exact ih.mpr (.inr ⟨hlen, by omega, by omega⟩)

/-- A loop of loads goes through where all its words are in the mapping. -/
theorem readWords_isSome : (readWords wide win m shift n j prev).isSome ↔ ∀ a ∈ wordsFrom n j, a + 4 ≤ win.rMapSize := by
  induction n generalizing j prev with
  | zero => simp [readWords, wordsFrom]
  | succ n ih =>
    rw [readWords, wordsFrom]
    simp only [List.mem_cons, forall_eq_or_imp]
    by_cases hin : j + 4 ≤ win.rMapSize
    · rw [FpgaWindow.load_eq hin]
      simp only [Option.bind_eq_bind, Option.bind_some]
      rw [← @ih _ (hostShift wide (word m j) shift)]
      cases readWords wide win m shift n ((j + 4) % 2 ^ 32) (hostShift wide (word m j) shift) with
      | none => simp
      | some rest => simp [hin]
    · rw [FpgaWindow.load, if_neg hin]
      exact iff_of_false (by simp) fun h => hin h.1

theorem wordRead_isSome {length : Nat} : (wordRead wide win m te start length).isSome ↔
    ∀ a ∈ wordReadTouches win te start length, a + 4 ≤ win.rMapSize := by
  unfold wordRead wordReadTouches
  dsimp only
  split
  · split
    · simp only [List.mem_cons, forall_eq_or_imp]
      by_cases hin : (te.ePosBase + start % 2 ^ 32 * 4) % 2 ^ 32 + 4 ≤ win.rMapSize
      · rw [FpgaWindow.load_eq hin, ← @readWords_isSome wide _ m _ _ te.ePosOffset
          (word m ((te.ePosBase + start % 2 ^ 32 * 4) % 2 ^ 32) <<< te.ePosOffset)]
        simp only [Option.bind_eq_bind, Option.bind_some]
        cases readWords wide win m te.ePosOffset (length % 2 ^ 32)
            (((te.ePosBase + start % 2 ^ 32 * 4) % 2 ^ 32 + 4) % 2 ^ 32)
            (word m ((te.ePosBase + start % 2 ^ 32 * 4) % 2 ^ 32) <<< te.ePosOffset) with
        | none => simp
        | some words => exact iff_of_true rfl ⟨hin, rfl⟩
      · rw [FpgaWindow.load, if_neg hin]
        exact iff_of_false (by simp) fun h => hin h.1
    · rw [← @readWords_isSome wide _ m _ _ 32 0]
      cases readWords wide win m 32 (length % 2 ^ 32) ((te.ePosBase + start % 2 ^ 32 * 4) % 2 ^ 32) 0 with
      | none => simp
      | some words => simp
  · simp

/-- A loop of stores goes through where all its words are in the mapping, and ends where it should. -/
theorem writeWords_of_touches (h : ∀ a ∈ (writeWordsTouches win values j).2.2, a + 4 ≤ win.rMapSize) :
    ∃ next last, writeWords wide win shift values m j prev =
      some ((writeWordsTouches win values j).1, next, (writeWordsTouches win values j).2.1, last) := by
  induction values generalizing m j prev with
  | nil => exact ⟨m, prev, rfl⟩
  | cons v rest ih =>
    cases v with
    | none => exact ⟨m, prev, rfl⟩
    | some value =>
      rw [writeWordsTouches] at h ⊢
      rw [writeWords]
      by_cases hbeyond : win.beyond j = true
      · rw [if_pos hbeyond] at h ⊢
        rw [if_pos hbeyond]
        exact ⟨m, prev, rfl⟩
      · rw [if_neg hbeyond] at h ⊢
        rw [if_neg hbeyond]
        dsimp only at h ⊢
        simp only [List.mem_cons, forall_eq_or_imp] at h
        rw [FpgaWindow.store_eq h.1]
        exact ih h.2

theorem touches_of_writeWords (h : (writeWords wide win shift values m j prev).isSome) :
    ∀ a ∈ (writeWordsTouches win values j).2.2, a + 4 ≤ win.rMapSize := by
  induction values generalizing m j prev with
  | nil => exact fun a ha => absurd ha (List.not_mem_nil)
  | cons v rest ih =>
    cases v with
    | none => exact fun a ha => absurd ha (List.not_mem_nil)
    | some value =>
      rw [writeWords] at h
      rw [writeWordsTouches]
      by_cases hbeyond : win.beyond j = true
      · rw [if_pos hbeyond]
        exact fun a ha => absurd ha (List.not_mem_nil)
      · rw [if_neg hbeyond] at h ⊢
        by_cases hin : j + 4 ≤ win.rMapSize
        · rw [FpgaWindow.store_eq hin, Option.bind_eq_bind, Option.bind_some] at h
          dsimp only
          simp only [List.mem_cons, forall_eq_or_imp]
          exact ⟨hin, ih h⟩
        · rw [FpgaWindow.store, if_neg hin] at h
          simp at h

theorem leadingBits_isSome : (leadingBits win m shift j).isSome ↔ (0 < shift → j + 4 ≤ win.rMapSize) := by
  unfold leadingBits
  split
  next hpos =>
    by_cases hin : j + 4 ≤ win.rMapSize
    · rw [FpgaWindow.load_eq hin]
      exact iff_of_true rfl fun _ => hin
    · rw [FpgaWindow.load, if_neg hin]
      exact iff_of_false (by simp) fun h => hin (h hpos)
  next hzero => exact iff_of_true rfl fun hpos => absurd hpos hzero

theorem writePartial_isSome : (writePartial win shift j prev m).isSome ↔ (0 < shift → j + 4 ≤ win.rMapSize) := by
  unfold writePartial
  split
  next hpos =>
    by_cases hin : j + 4 ≤ win.rMapSize
    · rw [FpgaWindow.load_eq hin, Option.bind_eq_bind, Option.bind_some, FpgaWindow.store_eq hin]
      exact iff_of_true rfl fun _ => hin
    · rw [FpgaWindow.load, if_neg hin]
      exact iff_of_false (by simp) fun h => hin (h hpos)
  next hzero => exact iff_of_true rfl fun hpos => absurd hpos hzero

theorem mem_ite_pair {p : Prop} [Decidable p] {l : List Nat} : a ∈ (if p then l else []) ↔ p ∧ a ∈ l := by
  split <;> simp_all

/-- A word write goes through where all the words that it touches are in the mapping. -/
theorem wordWrite_isSome : (wordWrite wide win m te start values).isSome ↔
    ∀ a ∈ wordWriteTouches win te start values, a + 4 ≤ win.rMapSize := by
  unfold wordWrite wordWriteTouches
  split
  · dsimp only
    simp only [List.mem_append, or_imp, forall_and, mem_ite_pair, List.mem_singleton]
    constructor
    · intro h
      obtain ⟨r, hr⟩ := Option.isSome_iff_exists.mp h
      obtain ⟨prev, hlead, hrest⟩ := Option.bind_eq_some_iff.mp hr
      obtain ⟨⟨done, next, k, last⟩, hloop, hend⟩ := Option.bind_eq_some_iff.mp hrest
      have hlow := leadingBits_isSome.mp (Option.isSome_iff_exists.mpr ⟨prev, hlead⟩)
      have htouched := touches_of_writeWords (Option.isSome_iff_exists.mpr ⟨_, hloop⟩)
      obtain ⟨next', last', hloop'⟩ := @writeWords_of_touches wide _ m _ te.ePosOffset prev _
        htouched
      cases Option.some.inj (hloop.symm.trans hloop')
      refine ⟨⟨?_, htouched⟩, ?_⟩
      · rintro a ⟨hpos, rfl⟩
        exact hlow hpos
      · rintro a ⟨⟨hdone, hpos⟩, hmem⟩
        dsimp only at hend
        rw [if_pos hdone] at hend
        obtain ⟨m', hlastWord, _⟩ := Option.bind_eq_some_iff.mp hend
        have hin := writePartial_isSome.mp (Option.isSome_iff_exists.mpr ⟨m', hlastWord⟩) hpos
        simp only [List.mem_cons, List.not_mem_nil, or_false, or_self] at hmem
        rw [hmem]
        exact hin
    · rintro ⟨⟨hlow, htouched⟩, hlast⟩
      obtain ⟨prev, hlead⟩ := Option.isSome_iff_exists.mp (leadingBits_isSome (m := m).mpr fun hpos => hlow _ ⟨hpos, rfl⟩)
      obtain ⟨next, last, hloop⟩ := @writeWords_of_touches wide _ m _ te.ePosOffset prev _
        htouched
      rw [hlead, Option.bind_eq_bind, Option.bind_some, hloop, Option.bind_eq_bind, Option.bind_some]
      dsimp only
      split
      next hdone =>
        obtain ⟨m', hlastWord⟩ := Option.isSome_iff_exists.mp ((@writePartial_isSome _ next _ _ last).mpr
          fun hpos => hlast _ ⟨⟨hdone, hpos⟩, List.mem_cons_self⟩)
        rw [hlastWord]
        rfl
      next => rfl
  · simp

theorem storeWords_isSome : (storeWords win buffer shift n i m j prev).isSome ↔
    ∀ a ∈ wordsFrom n j, a + 4 ≤ win.rMapSize := by
  induction n generalizing i j m prev with
  | zero => simp [storeWords, wordsFrom]
  | succ n ih =>
    rw [storeWords, wordsFrom]
    simp only [List.mem_cons, forall_eq_or_imp]
    by_cases hin : j + 4 ≤ win.rMapSize
    · rw [FpgaWindow.store_eq hin, Option.bind_eq_bind, Option.bind_some, ih]
      exact (and_iff_right hin).symm
    · rw [FpgaWindow.store, if_neg hin]
      exact iff_of_false (by simp) fun h => hin h.1

theorem storeWords_end {next : Bytes} {last : BitVec 32} (hj : j < 2 ^ 32)
    (h : storeWords win buffer shift n i m j prev = some (next, k, last)) : k = (j + 4 * n) % 2 ^ 32 := by
  induction n generalizing i j m prev with
  | zero =>
    cases Option.some.inj h
    rw [Nat.mul_zero, Nat.add_zero, Nat.mod_eq_of_lt hj]
  | succ n ih =>
    obtain ⟨m', _, hrest⟩ := Option.bind_eq_some_iff.mp h
    rw [ih (Nat.mod_lt _ (by decide)) hrest, Nat.mod_add_mod]
    congr 1
    omega

theorem writeLast_isSome {prefixBits remaining : Nat} : (writeLast win m j prev prefixBits remaining).isSome ↔
    ∀ a ∈ writeLastTouches win j remaining, a + 4 ≤ win.rMapSize := by
  unfold writeLast writeLastTouches
  split
  · simp
  · split
    · simp
    · by_cases hin : j + 4 ≤ win.rMapSize
      · rw [FpgaWindow.load_eq hin, Option.bind_eq_bind, Option.bind_some]
        dsimp only
        rw [FpgaWindow.store_eq hin]
        exact iff_of_true rfl (by simp [hin])
      · rw [FpgaWindow.load, if_neg hin]
        exact iff_of_false (by simp) (by simp [hin])

theorem writeRest_isSome : (writeRest win buffer m plan j prev).isSome ↔
    ∀ a ∈ writeRestTouches win plan j, a + 4 ≤ win.rMapSize := by
  have hleft : leftOver plan = if 0 < plan.copyWordsFloor then
      (plan.ptrOffset + plan.copyBits + (2 ^ 32 - plan.copyWordsFloor * 32 % 2 ^ 32)) % 2 ^ 32
    else plan.copyBits := rfl
  unfold writeRest writeRestTouches
  dsimp only
  rw [← hleft]
  split
  · simp
  · split
    · simp only [List.mem_cons, forall_eq_or_imp]
      by_cases hin : j + 4 ≤ win.rMapSize
      · rw [FpgaWindow.store_eq hin, Option.bind_eq_bind, Option.bind_some, writeLast_isSome]
        exact (and_iff_right hin).symm
      · rw [FpgaWindow.store, if_neg hin]
        exact iff_of_false (by simp) fun h => hin h.1
    · exact writeLast_isSome

/-- A request goes through where all the words that it touches are in the mapping. -/
theorem writeRegister_isSome (hbase : plan.ptrBase < 2 ^ 32) : (writeRegister win buffer m plan).isSome ↔
    ∀ a ∈ writeTouches win plan, a + 4 ≤ win.rMapSize := by
  have hlead : (writeLead win m plan.ptrBase plan.ptrOffset).isSome ↔
      (0 < plan.ptrOffset → plan.ptrBase + 4 ≤ win.rMapSize) := by
    unfold writeLead
    split
    next hpos =>
      by_cases hin : plan.ptrBase + 4 ≤ win.rMapSize
      · rw [FpgaWindow.load_eq hin]
        exact iff_of_true rfl fun _ => hin
      · rw [FpgaWindow.load, if_neg hin]
        exact iff_of_false (by simp) fun h => hin (h hpos)
    next hzero => exact iff_of_true rfl fun hpos => absurd hpos hzero
  unfold writeRegister writeTouches
  simp only [List.mem_append, or_imp, forall_and, mem_ite_pair, List.mem_singleton]
  constructor
  · intro h
    obtain ⟨r, hr⟩ := Option.isSome_iff_exists.mp h
    obtain ⟨prev, hp, hrest⟩ := Option.bind_eq_some_iff.mp hr
    obtain ⟨⟨next, k, last⟩, hloop, hend⟩ := Option.bind_eq_some_iff.mp hrest
    rw [← storeWords_end hbase hloop]
    refine ⟨⟨?_, storeWords_isSome.mp (Option.isSome_iff_exists.mpr ⟨_, hloop⟩)⟩,
      writeRest_isSome.mp (Option.isSome_iff_exists.mpr ⟨_, hend⟩)⟩
    rintro a ⟨hpos, rfl⟩
    exact hlead.mp (Option.isSome_iff_exists.mpr ⟨prev, hp⟩) hpos
  · rintro ⟨⟨hlow, hloop⟩, hrest⟩
    obtain ⟨prev, hp⟩ := Option.isSome_iff_exists.mp (hlead.mpr fun hpos => hlow _ ⟨hpos, rfl⟩)
    obtain ⟨⟨next, k, last⟩, hstored⟩ := Option.isSome_iff_exists.mp
      ((@storeWords_isSome _ m buffer 0 _ _ plan.ptrOffset prev).mpr hloop)
    rw [← storeWords_end hbase hstored] at hrest
    rw [hp, Option.bind_eq_bind, Option.bind_some, hstored, Option.bind_eq_bind, Option.bind_some]
    exact writeRest_isSome.mpr hrest

end

end Katcp
