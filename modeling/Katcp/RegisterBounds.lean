import Katcp.RegisterAccess

namespace Katcp

section

open BitMemory

/-- Every word of a list is one that a register overlaps, and in the mapping. -/
def TouchKept (win : FpgaWindow) (te : TbsEntry) (touched : List Nat) : Prop :=
  ∀ a ∈ touched, te.Covers a ∧ a + 4 ≤ win.rMapSize

/-- The values before the first that is null or whose word is beyond the mapping. -/
def storedWords (win : FpgaWindow) : List (Option (BitVec 32)) → Nat → Nat
  | [], _ => 0
  | none :: _, _ => 0
  | some _ :: rest, j => if win.beyond j then 0 else storedWords win rest ((j + 4) % 2 ^ 32) + 1

/-- How many words a word write reaches: its values and one more at a bit offset, or those before
it stops. -/
def wordWriteReach (win : FpgaWindow) (te : TbsEntry) (j : Nat) (values : List (Option (BitVec 32))) : Nat :=
  if storedWords win values j = values.length then values.length + extraWord te.ePosOffset
  else max (storedWords win values j) (extraWord te.ePosOffset)

/-- The bits that a request has left over after its whole words: with a whole word the bit shift is
counted among them. -/
def restBits (shift count : Nat) : Nat := if 0 < count / 32 % 2 ^ 32 then shift + count % 32 else count % 32

/-- The words that a request writes in full. -/
def fullWords (shift count : Nat) : Nat :=
  count / 32 % 2 ^ 32 + if restBits shift count ≠ 0 ∧ 32 ≤ shift + restBits shift count then 1 else 0

/-- A request ends in a part of a word. -/
def partWord (shift count : Nat) : Prop := restBits shift count ≠ 0 ∧ shift + restBits shift count ≠ 32

instance (shift count : Nat) : Decidable (partWord shift count) := inferInstanceAs (Decidable (_ ∧ _))

/-- How many words a request to write a register reaches from the one that it starts in. -/
def writeReach (win : FpgaWindow) (base shift count : Nat) : Nat :=
  if partWord shift count ∧ win.beyond ((base + 4 * fullWords shift count) % 2 ^ 32) = false then fullWords shift count + 1
  else max (fullWords shift count) (extraWord shift)

/-- A word read keeps to its register: its words are counted without a wrap, and lie where the register does, as
they do where that starts in whole words. -/
def wordReadKeeps (te : TbsEntry) (start count : Nat) : Prop :=
  start % 2 ^ 30 + count % 2 ^ 32 < 2 ^ 30 ∧
    (te.ePosBase % 4 = 0 ∨ te.Spans (te.ePosBase + 4 * (start % 2 ^ 30))
      (te.ePosBase + 4 * (start % 2 ^ 30) + 4 * (count % 2 ^ 32 + extraWord te.ePosOffset)))

/-- A word write keeps to its register. -/
def wordWriteKeeps (win : FpgaWindow) (te : TbsEntry) (start : Nat) (values : List (Option (BitVec 32))) : Prop :=
  te.ePosBase % 4 = 0 ∧ start % 2 ^ 30 + values.length < 2 ^ 30 ∨
    wordWriteReach win te (wordAddress te start) values = 0 ∨
    te.Spans (wordAddress te start) (wordAddress te start + 4 * wordWriteReach win te (wordAddress te start) values)

/-- A request for so many bits, from a bit of the register on, keeps to it. -/
def writeKeeps (win : FpgaWindow) (te : TbsEntry) (start count : Nat) : Prop :=
  writeReach win (writeAddress te start % 2 ^ 32) (writeShift te start) count = 0 ∨
    te.Spans (writeAddress te start % 2 ^ 32)
      (writeAddress te start % 2 ^ 32 + 4 * writeReach win (writeAddress te start % 2 ^ 32) (writeShift te start) count)

variable {win : FpgaWindow} {te : TbsEntry} {a j n start count : Nat} {values : List (Option (BitVec 32))}
  {plan : WritePlan}

theorem mem_wordsFrom_first (hn : 0 < n) : j ∈ wordsFrom n j := by
  cases n with
  | zero => omega
  | succ n => exact List.mem_cons_self

theorem mem_wordsFrom_succ (hj : j < 2 ^ 32) : a ∈ wordsFrom (n + 1) j ↔ a ∈ wordsFrom n j ∨ a = (j + 4 * n) % 2 ^ 32 := by
  induction n generalizing j with
  | zero =>
    have hmod : (j + 4 * 0) % 2 ^ 32 = j := by omega
    rw [hmod]
    simp [wordsFrom]
  | succ n ih =>
    have hmod : ((j + 4) % 2 ^ 32 + 4 * n) % 2 ^ 32 = (j + 4 * (n + 1)) % 2 ^ 32 := by omega
    rw [wordsFrom, List.mem_cons, ih (Nat.mod_lt _ (by decide)), hmod, wordsFrom, List.mem_cons, or_assoc]

/-- Which words are kept depends on which there are. -/
theorem touchKept_iff {touched : List Nat} (hin : te.Inside win) (hmem : ∀ a, a ∈ touched ↔ a ∈ wordsFrom n j) :
    TouchKept win te touched ↔ n = 0 ∨ te.Spans j (j + 4 * n) := by
  rw [← wordsFrom_covers hin]
  unfold TouchKept
  simp only [hmem]
  exact ⟨fun h a ha => (h a ha).1, fun h a ha => ⟨h a ha, (h a ha).le_mapSize hin⟩⟩

theorem wordRead_kept (hin : te.Inside win) : TouchKept win te (wordReadTouches win te start count) ↔
    (wordReadChecks win te (start % 2 ^ 32) (count % 2 ^ 32) = true → wordReadKeeps te start count) := by
  unfold wordReadTouches wordReadKeeps
  dsimp only
  split
  next hchecks =>
    have hlist : (if 0 < te.ePosOffset then
          (te.ePosBase + start % 2 ^ 32 * 4) % 2 ^ 32 ::
            wordsFrom (count % 2 ^ 32) (((te.ePosBase + start % 2 ^ 32 * 4) % 2 ^ 32 + 4) % 2 ^ 32)
        else wordsFrom (count % 2 ^ 32) ((te.ePosBase + start % 2 ^ 32 * 4) % 2 ^ 32)) =
        wordsFrom (count % 2 ^ 32 + extraWord te.ePosOffset) ((te.ePosBase + start % 2 ^ 32 * 4) % 2 ^ 32) := by
      unfold extraWord
      split <;> rfl
    rw [hlist, touchKept_iff hin fun a => Iff.rfl, imp_iff_right hchecks]
    unfold wordReadChecks at hchecks
    simp only [Bool.and_eq_true, decide_eq_true_eq, bne_iff_ne, beq_iff_eq] at hchecks
    obtain ⟨⟨⟨_, -⟩, hend⟩, hne⟩ := hchecks
    have hmap := win.mapSize_lt
    have hbase := te.posBase_lt
    have hoff := te.posOffset_lt
    have hwrap : (te.ePosBase + start % 2 ^ 32 * 4) % 2 ^ 32 = (te.ePosBase + 4 * (start % 2 ^ 30)) % 2 ^ 32 := by omega
    have hnone : extraWord te.ePosOffset = 0 ∨ extraWord te.ePosOffset = 1 ∧ 0 < te.ePosOffset := by
      unfold extraWord
      split <;> omega
    rw [hwrap]
    constructor
    · intro h
      have hspans := h.resolve_left (by omega)
      have hle := hspans.le_mapSize hin
      have hlow := hspans.2.1
      unfold TbsEntry.pos at hlow
      have hroom : start % 2 ^ 30 + count % 2 ^ 32 < 2 ^ 30 := by omega
      have hsmall : (te.ePosBase + 4 * (start % 2 ^ 30)) % 2 ^ 32 = te.ePosBase + 4 * (start % 2 ^ 30) := by omega
      rw [hsmall] at hspans
      exact ⟨hroom, .inr hspans⟩
    · rintro ⟨hroom, hspans⟩
      have hlen : 4 * (start % 2 ^ 30) + 4 * (count % 2 ^ 32) ≤ te.eLenBase := by omega
      unfold TbsEntry.Inside TbsEntry.pos TbsEntry.len at hin
      have hsmall : (te.ePosBase + 4 * (start % 2 ^ 30)) % 2 ^ 32 = te.ePosBase + 4 * (start % 2 ^ 30) := by omega
      rw [hsmall]
      refine .inr (hspans.elim (fun haligned => ?_) id)
      refine ⟨?_, ?_, ?_⟩
      · unfold TbsEntry.len
        omega
      · unfold TbsEntry.pos
        omega
      · unfold TbsEntry.pos TbsEntry.len
        omega
  next hchecks => exact iff_of_true (fun a ha => absurd ha List.not_mem_nil) fun h => absurd h hchecks

theorem writeWordsTouches_eq (hj : j < 2 ^ 32) : writeWordsTouches win values j =
    (decide (storedWords win values j = values.length), (j + 4 * storedWords win values j) % 2 ^ 32,
      wordsFrom (storedWords win values j) j) := by
  induction values generalizing j with
  | nil =>
    simp only [writeWordsTouches, storedWords, wordsFrom, List.length_nil, Nat.mul_zero, Nat.add_zero,
      Nat.mod_eq_of_lt hj, decide_true]
  | cons v rest ih =>
    have hstop : (false, j, ([] : List Nat)) =
        (decide (0 = (v :: rest).length), (j + 4 * 0) % 2 ^ 32, wordsFrom 0 j) := by
      rw [Nat.mul_zero, Nat.add_zero, Nat.mod_eq_of_lt hj]
      rfl
    cases v with
    | none => exact hstop
    | some value =>
      rw [writeWordsTouches, storedWords]
      by_cases hbeyond : win.beyond j = true
      · rw [if_pos hbeyond, if_pos hbeyond]
        exact hstop
      · have hnext : (j + 4) % 2 ^ 32 < 2 ^ 32 := Nat.mod_lt _ (by decide)
        have hend : ((j + 4) % 2 ^ 32 + 4 * storedWords win rest ((j + 4) % 2 ^ 32)) % 2 ^ 32 =
            (j + 4 * (storedWords win rest ((j + 4) % 2 ^ 32) + 1)) % 2 ^ 32 := by omega
        rw [if_neg hbeyond, if_neg hbeyond, ih hnext]
        dsimp only
        rw [hend, wordsFrom]
        simp only [List.length_cons, Nat.add_right_cancel_iff]

/-- The words of a word write are so many from its address on. -/
theorem mem_wordWriteTouches (hchecks : wordWriteChecks win te start values.length = true) :
    a ∈ wordWriteTouches win te start values ↔
      a ∈ wordsFrom (wordWriteReach win te (wordAddress te start) values) (wordAddress te start) := by
  have haddress : wordAddress te start < 2 ^ 32 := Nat.mod_lt _ (by decide)
  have hpos : 0 < values.length := by
    unfold wordWriteChecks at hchecks
    simp only [Bool.and_eq_true, bne_iff_ne] at hchecks
    omega
  unfold wordWriteTouches wordWriteReach
  rw [if_pos hchecks]
  dsimp only
  rw [writeWordsTouches_eq haddress]
  generalize storedWords win values (wordAddress te start) = stored
  generalize wordAddress te start = j at *
  unfold extraWord
  by_cases hoff : 0 < te.ePosOffset
  · by_cases hall : stored = values.length
    · have hfirst : j ∈ wordsFrom stored j := mem_wordsFrom_first (by omega)
      simp only [if_pos hoff, hall, decide_true, true_and, if_true, mem_wordsFrom_succ haddress, List.mem_append,
        List.mem_cons, List.not_mem_nil, or_false, or_self]
      rw [hall] at hfirst
      constructor
      · rintro ((rfl | hmem) | hlast)
        · exact .inl hfirst
        · exact .inl hmem
        · exact .inr hlast
      · rintro (hmem | hlast)
        · exact .inl (.inr hmem)
        · exact .inr hlast
    · have hfirst : j ∈ wordsFrom (max stored 1) j := mem_wordsFrom_first (by omega)
      simp only [if_pos hoff, hall, decide_false, Bool.false_eq_true, false_and, if_false, List.append_nil,
        List.mem_append, List.mem_singleton]
      rcases Nat.eq_zero_or_pos stored with rfl | hstored
      · simp [wordsFrom]
      · rw [Nat.max_eq_left hstored] at hfirst ⊢
        exact ⟨fun h => h.elim (fun he => he ▸ hfirst) id, .inr⟩
  · by_cases hall : stored = values.length
    · simp [if_neg hoff, hall]
    · simp [if_neg hoff, hall]

theorem wordWrite_kept (hin : te.Inside win) : TouchKept win te (wordWriteTouches win te start values) ↔
    (wordWriteChecks win te start values.length = true → wordWriteKeeps win te start values) := by
  unfold wordWriteKeeps
  by_cases hchecks : wordWriteChecks win te start values.length = true
  · rw [touchKept_iff hin fun a => mem_wordWriteTouches hchecks, imp_iff_right hchecks]
    refine ⟨.inr, fun h => h.elim (fun hplain => ?_) id⟩
    obtain ⟨haligned, hroom⟩ := hplain
    have hreach : wordWriteReach win te (wordAddress te start) values ≤ values.length + extraWord te.ePosOffset := by
      have hstored : ∀ (vs : List (Option (BitVec 32))) j, storedWords win vs j ≤ vs.length := by
        intro vs
        induction vs with
        | nil => exact fun j => Nat.le_refl 0
        | cons v rest ih =>
          intro j
          cases v with
          | none => exact Nat.zero_le _
          | some value =>
            rw [storedWords]
            split
            · exact Nat.zero_le _
            · exact Nat.succ_le_succ (ih _)
      have hle := hstored values (wordAddress te start)
      unfold wordWriteReach
      split <;> omega
    have hmap := win.mapSize_lt
    have hoff := te.posOffset_lt
    unfold wordWriteChecks at hchecks
    simp only [Bool.and_eq_true, decide_eq_true_eq, bne_iff_ne, beq_iff_eq] at hchecks
    obtain ⟨⟨_, -⟩, hend⟩ := hchecks
    have hlen : 4 * (start % 2 ^ 30) + 4 * values.length ≤ te.eLenBase := by omega
    have hnone : extraWord te.ePosOffset = 0 ∨ extraWord te.ePosOffset = 1 ∧ 0 < te.ePosOffset := by
      unfold extraWord
      split <;> omega
    unfold TbsEntry.Inside TbsEntry.pos TbsEntry.len at hin
    have haddress : wordAddress te start = te.ePosBase + 4 * (start % 2 ^ 30) := by
      unfold wordAddress
      omega
    rw [haddress] at hreach ⊢
    generalize wordWriteReach win te (te.ePosBase + 4 * (start % 2 ^ 30)) values = reach at *
    by_cases hzero : reach = 0
    · exact .inl hzero
    · refine .inr ⟨?_, ?_, ?_⟩
      · unfold TbsEntry.len
        omega
      · unfold TbsEntry.pos
        omega
      · unfold TbsEntry.pos TbsEntry.len
        omega
  · refine iff_of_true ?_ fun h => absurd h hchecks
    unfold wordWriteTouches
    rw [if_neg hchecks]
    exact fun a ha => absurd ha List.not_mem_nil

theorem leftOver_rest (hfits : plan.Fits te start count) : leftOver plan = restBits plan.ptrOffset count := by
  have hbits := hfits.bits
  have hwords := hfits.words
  have hoff := hfits.shift ▸ writeShift_lt te start
  unfold leftOver restBits
  rw [hbits, hwords]
  split <;> omega

/-- The words of a request to write a register are so many from the one that it starts in. -/
theorem mem_writeTouches (hfits : plan.Fits te start count) : a ∈ writeTouches win plan ↔
    a ∈ wordsFrom (writeReach win plan.ptrBase plan.ptrOffset count) plan.ptrBase := by
  have hbase : plan.ptrBase < 2 ^ 32 := hfits.base ▸ Nat.mod_lt _ (by decide)
  have hoff := hfits.shift ▸ writeShift_lt te start
  have hleft := leftOver_rest hfits
  have hsmall := leftOver_lt hfits
  have hlead : ∀ n, a ∈ wordsFrom (max n (extraWord plan.ptrOffset)) plan.ptrBase ↔
      (0 < plan.ptrOffset ∧ a = plan.ptrBase) ∨ a ∈ wordsFrom n plan.ptrBase := by
    intro n
    unfold extraWord
    by_cases hpos : 0 < plan.ptrOffset
    · rw [if_pos hpos]
      rcases Nat.eq_zero_or_pos n with rfl | hn
      · simp [wordsFrom, hpos]
      · rw [Nat.max_eq_left hn]
        exact ⟨.inr, fun h => h.elim (fun hfirst => hfirst.2 ▸ mem_wordsFrom_first hn) id⟩
    · rw [if_neg hpos, Nat.max_eq_left (Nat.zero_le n)]
      exact ⟨.inr, fun h => h.resolve_left fun hfirst => hpos hfirst.1⟩
  have hrest : a ∈ writeRestTouches win plan ((plan.ptrBase + 4 * plan.copyWordsFloor) % 2 ^ 32) ↔
      (fullWords plan.ptrOffset count = plan.copyWordsFloor + 1 ∧ a = (plan.ptrBase + 4 * plan.copyWordsFloor) % 2 ^ 32) ∨
      (partWord plan.ptrOffset count ∧ win.beyond ((plan.ptrBase + 4 * fullWords plan.ptrOffset count) % 2 ^ 32) = false ∧
        a = (plan.ptrBase + 4 * fullWords plan.ptrOffset count) % 2 ^ 32) := by
    have hlast : ∀ k r, a ∈ writeLastTouches win k r ↔ r ≠ 0 ∧ win.beyond k = false ∧ a = k := by
      intro k r
      unfold writeLastTouches
      split
      next hzero => simp [hzero]
      next hnonzero =>
        split
        next hbeyond => simp [hbeyond]
        next hbeyond => simp [hnonzero, hbeyond]
    unfold writeRestTouches
    dsimp only
    rw [hleft] at hsmall ⊢
    unfold fullWords partWord
    rw [← hfits.words]
    generalize restBits plan.ptrOffset count = remaining at *
    rw [Nat.mod_eq_of_lt (by omega : plan.ptrOffset + remaining < 2 ^ 32)]
    by_cases hzero : remaining = 0
    · simp [hzero]
    · rw [if_neg hzero]
      by_cases hfull : 32 ≤ plan.ptrOffset + remaining
      · have hnext : ((plan.ptrBase + 4 * plan.copyWordsFloor) % 2 ^ 32 + 4) % 2 ^ 32 =
            (plan.ptrBase + 4 * (plan.copyWordsFloor + 1)) % 2 ^ 32 := by omega
        have hends : plan.ptrOffset + remaining - 32 ≠ 0 ↔ plan.ptrOffset + remaining ≠ 32 := by omega
        rw [if_pos hfull, List.mem_cons, hlast, hnext, hends, if_pos ⟨hzero, hfull⟩]
        simp [hzero]
      · have hends : plan.ptrOffset + remaining ≠ 32 := by omega
        rw [if_neg hfull, hlast, if_neg fun h => hfull h.2]
        simp [hzero, hends]
  have hfull : a ∈ wordsFrom (fullWords plan.ptrOffset count) plan.ptrBase ↔ a ∈ wordsFrom plan.copyWordsFloor plan.ptrBase ∨
      (fullWords plan.ptrOffset count = plan.copyWordsFloor + 1 ∧ a = (plan.ptrBase + 4 * plan.copyWordsFloor) % 2 ^ 32) := by
    have hcases : fullWords plan.ptrOffset count = plan.copyWordsFloor + 1 ∨
        fullWords plan.ptrOffset count = plan.copyWordsFloor := by
      unfold fullWords
      rw [← hfits.words]
      split
      · exact .inl rfl
      · exact .inr rfl
    rcases hcases with hsucc | hsame
    · rw [hsucc, mem_wordsFrom_succ hbase, and_iff_right rfl]
    · rw [hsame]
      exact ⟨.inl, fun h => h.resolve_right fun hmore => by omega⟩
  unfold writeTouches writeReach
  rw [List.mem_append, List.mem_append, mem_ite_pair, List.mem_singleton, hrest, or_assoc, ← or_assoc (b := _ ∧ _), ← hfull]
  split
  next hpart =>
    rw [mem_wordsFrom_succ hbase]
    constructor
    · rintro (⟨_, rfl⟩ | hmem | ⟨_, _, hlast⟩)
      · exact (mem_wordsFrom_succ hbase).mp (mem_wordsFrom_first (Nat.succ_pos _))
      · exact .inl hmem
      · exact .inr hlast
    · rintro (hmem | hlast)
      · exact .inr (.inl hmem)
      · exact .inr (.inr ⟨hpart.1, hpart.2, hlast⟩)
  next hpart =>
    rw [hlead]
    constructor
    · rintro (hfirst | hmem | ⟨hp, hinside, _⟩)
      · exact .inl hfirst
      · exact .inr hmem
      · exact absurd ⟨hp, hinside⟩ hpart
    · rintro (hfirst | hmem)
      · exact .inl hfirst
      · exact .inr (.inl hmem)

theorem write_kept {long blen : Nat} {offset : Nat × Nat} {length : Option (Nat × Nat)} {flags : Align}
    (hin : te.Inside win) (hlong : 32 ≤ long) (hblen : blen < 2 ^ 32) (hoffset : offset.1 < 2 ^ long ∧ offset.2 < 2 ^ long)
    (hlength : ∀ given, length = some given → given.1 < 2 ^ long ∧ given.2 < 2 ^ long) :
    TouchKept win te (writeCmdTouches long win te offset length blen flags) ↔
      ((writePlan long win te offset length blen flags).isSome = true →
        writeKeeps win te (offsetBits offset) (requestedBits long blen length)) := by
  unfold writeCmdTouches
  cases hplan : writePlan long win te offset length blen flags with
  | none => exact iff_of_true (fun a ha => absurd ha List.not_mem_nil) fun h => by simp at h
  | some plan =>
    have hfits := writePlan_fits hplan hlong hblen hoffset hlength
    dsimp only
    rw [touchKept_iff hin fun a => mem_writeTouches hfits, imp_iff_right (Option.isSome_some (a := plan)), hfits.base, hfits.shift]
    rfl

/-- Whether the words that the requests for a register load from and store to are ones that it overlaps, and in
the mapping, is a matter of where they start and how much they are for. -/
theorem register_accesses_kept_iff (hin : te.Inside win) :
    (∀ start count, TouchKept win te (wordReadTouches win te start count) ↔
      (wordReadChecks win te (start % 2 ^ 32) (count % 2 ^ 32) = true → wordReadKeeps te start count)) ∧
    (∀ start values, TouchKept win te (wordWriteTouches win te start values) ↔
      (wordWriteChecks win te start values.length = true → wordWriteKeeps win te start values)) ∧
    ∀ long offset length blen flags, 32 ≤ long → blen < 2 ^ 32 → offset.1 < 2 ^ long ∧ offset.2 < 2 ^ long →
      (∀ given, length = some given → given.1 < 2 ^ long ∧ given.2 < 2 ^ long) →
      (TouchKept win te (writeCmdTouches long win te offset length blen flags) ↔
        ((writePlan long win te offset length blen flags).isSome = true →
          writeKeeps win te (offsetBits offset) (requestedBits long blen length))) :=
  ⟨fun _ _ => wordRead_kept hin, fun _ _ => wordWrite_kept hin,
    fun _ _ _ _ _ hlong hblen hoffset hlength => write_kept hin hlong hblen hoffset hlength⟩

/-- Two words, from the fifth of the mapping on. -/
def pairEntry : TbsEntry :=
  ⟨16, 8, 0, 0, ⟨true, true⟩, TbsEntry.sixteen_base, by decide, TbsEntry.zero_offset, TbsEntry.zero_offset⟩

theorem pairEntry_inside : pairEntry.Inside pageWindow := by
  unfold TbsEntry.Inside
  decide

theorem register_accesses_kept_iff_pair :
    TouchKept pageWindow pairEntry (wordReadTouches pageWindow pairEntry 0 2) ↔
      (wordReadChecks pageWindow pairEntry (0 % 2 ^ 32) (2 % 2 ^ 32) = true → wordReadKeeps pairEntry 0 2) :=
  (register_accesses_kept_iff pairEntry_inside).1 0 2

/-- The word before the register is read and written where the index wraps, and the word behind it where a request
at the twentieth bit is for a whole word. -/
theorem accesses_beyond : pairEntry.Inside pageWindow ∧
    ¬ TouchKept pageWindow pairEntry (wordReadTouches pageWindow pairEntry 0xffffffff 2) ∧
    ¬ TouchKept pageWindow pairEntry (wordWriteTouches pageWindow pairEntry 0x3fffffff [some 0]) ∧
    ¬ TouchKept pageWindow pairEntry (writeCmdTouches 32 pageWindow pairEntry (0, 20) (some (4, 0)) 4 ⟨false, false⟩) := by
  refine ⟨pairEntry_inside, fun h => ?_, fun h => ?_, fun h => ?_⟩
  · exact absurd (covers_iff.mp (h 12 (by decide)).1).2.1 (by decide)
  · exact absurd (covers_iff.mp (h 12 (by decide)).1).2.1 (by decide)
  · exact absurd (covers_iff.mp (h 24 (by decide)).1).2.2 (by decide)

end

end Katcp
