import Katcp.RegisterWindow
import Mathlib.Data.Option.Basic

namespace Katcp

section

open BitMemory

/-- A shift of a word to the left. What the host makes of a shift by the whole width is not
said by the language: nothing is left on some, the word is left as it is on others. -/
def hostShift (wide : BitVec 32 → BitVec 32) (w : BitVec 32) (count : Nat) : BitVec 32 :=
  if count < 32 then w <<< count else wide w

/-- The checks of a word write that are made before anything is written. -/
def wordWriteChecks (win : FpgaWindow) (te : TbsEntry) (start count : Nat) : Bool :=
  win.rFpga == .ready && count != 0 && te.eMode.writable &&
    decide ((start % 2 ^ 32 * 4 % 2 ^ 32 + 4 * count) % 2 ^ 32 ≤ te.eLenBase)

/-- The loop over the values, null where an argument is, and whether it came to their end. -/
def writeWords (wide : BitVec 32 → BitVec 32) (win : FpgaWindow) (shift : Nat) :
    List (Option (BitVec 32)) → Bytes → Nat → BitVec 32 → Option (Bool × Bytes × Nat × BitVec 32)
  | [], m, j, prev => some (true, m, j, prev)
  | none :: _, m, j, prev => some (false, m, j, prev)
  | some value :: rest, m, j, prev =>
    if win.beyond j then some (false, m, j, prev)
    else do
      let m ← win.store m j (prev ||| value >>> shift)
      writeWords wide win shift rest m ((j + 4) % 2 ^ 32) (hostShift wide value (32 - shift))

/-- What a register at a bit offset holds before its first word. -/
def leadingBits (win : FpgaWindow) (m : Bytes) (shift j : Nat) : Option (BitVec 32) :=
  if 0 < shift then do
    let current ← win.load m j
    some (current &&& BitVec.allOnes 32 <<< (32 - shift))
  else some 0

/-- The word that the last value ends in. -/
def writePartial (win : FpgaWindow) (shift j : Nat) (prev : BitVec 32) (m : Bytes) : Option Bytes :=
  if 0 < shift then do
    let current ← win.load m j
    win.store m j (prev ||| current &&& BitVec.allOnes 32 >>> shift)
  else some m

/-- The address a word write starts at. -/
def wordAddress (te : TbsEntry) (start : Nat) : Nat := (te.ePosBase + start % 2 ^ 32 * 4 % 2 ^ 32) % 2 ^ 32

/-- A word write: whether it is accepted and the memory that it leaves, none where it faults. -/
def wordWrite (wide : BitVec 32 → BitVec 32) (win : FpgaWindow) (m : Bytes) (te : TbsEntry) (start : Nat)
    (values : List (Option (BitVec 32))) : Option (Bool × Bytes) :=
  if wordWriteChecks win te start values.length then do
    let prev ← leadingBits win m te.ePosOffset (wordAddress te start)
    let (done, m, j, prev) ← writeWords wide win te.ePosOffset values m (wordAddress te start) prev
    if done then do
      let m ← writePartial win te.ePosOffset j prev m
      some (true, m)
    else some (false, m)
  else some (false, m)

/-- The loop of a word read, whose shift is 32 for a register at no bit offset. -/
def readWords (wide : BitVec 32 → BitVec 32) (win : FpgaWindow) (m : Bytes) (shift : Nat) :
    Nat → Nat → BitVec 32 → Option (List (BitVec 32))
  | 0, _, _ => some []
  | n + 1, j, prev => do
    let current ← win.load m j
    let rest ← readWords wide win m shift n ((j + 4) % 2 ^ 32) (hostShift wide current shift)
    some ((current >>> (32 - shift) ||| prev) :: rest)

def wordReadChecks (win : FpgaWindow) (te : TbsEntry) (start length : Nat) : Bool :=
  win.rFpga == .ready && te.eMode.readable &&
    decide ((te.ePosBase + (start + length) * 4) % 2 ^ 32 < win.rMapSize) &&
    decide ((start + length) * 4 % 2 ^ 32 ≤ te.eLenBase) && length != 0

/-- A word read: its words where it is accepted, none where it faults. -/
def wordRead (wide : BitVec 32 → BitVec 32) (win : FpgaWindow) (m : Bytes) (te : TbsEntry) (start length : Nat) :
    Option (Option (List (BitVec 32))) :=
  let start := start % 2 ^ 32
  let length := length % 2 ^ 32
  if wordReadChecks win te start length then do
    let j := (te.ePosBase + start * 4) % 2 ^ 32
    let words ← if 0 < te.ePosOffset then do
        let current ← win.load m j
        readWords wide win m te.ePosOffset length ((j + 4) % 2 ^ 32) (current <<< te.ePosOffset)
      else readWords wide win m 32 length j 0
    some (some words)
  else some none

end

section

open BitMemory

variable {wide : BitVec 32 → BitVec 32} {win : FpgaWindow} {before m next : Bytes} {te : TbsEntry}
  {target : Nat → Bool} {shift j k start n : Nat} {value prev last : BitVec 32} {words : List (BitVec 32)}
  {values : List (Option (BitVec 32))} {done : Bool}

/-- Words that, with what each of them carries to the next, have the bits wanted from an address on. -/
def Joined (wide : BitVec 32 → BitVec 32) (shift : Nat) (target : Nat → Bool) : Nat → BitVec 32 → List (BitVec 32) → Prop
  | j, prev, [] => 0 < shift → ∀ k < 32, prev.getMsbD k = (decide (k < shift) && target (8 * j + k))
  | j, prev, value :: rest => (∀ k < 32, (prev ||| value >>> shift).getMsbD k = target (8 * j + k)) ∧
      Joined wide shift target (j + 4) (hostShift wide value (32 - shift)) rest

theorem writeWords_written (h : Joined wide shift target j prev words) (hm : Written before target j m)
    (hin : j + 4 * words.length ≤ win.rMapSize) :
    ∃ next last, writeWords wide win shift (words.map some) m j prev =
        some (true, next, j + 4 * words.length, last) ∧
      Written before target (j + 4 * words.length) next ∧
        Joined wide shift target (j + 4 * words.length) last [] := by
  have hlt := win.mapSize_lt
  induction words generalizing m j prev with
  | nil => exact ⟨m, prev, rfl, hm, h⟩
  | cons value rest ih =>
    rw [List.length_cons] at hin
    obtain ⟨next, last, hrun, hwritten, hjoined⟩ := ih h.2 (hm.word h.1) (by omega)
    have hlength : j + 4 * (value :: rest).length = j + 4 + 4 * rest.length := by
      rw [List.length_cons]
      omega
    refine ⟨next, last, ?_, hlength ▸ hwritten, hlength ▸ hjoined⟩
    rw [hlength, List.map_cons, writeWords, FpgaWindow.beyond_of_le (by omega), if_neg Bool.false_ne_true,
      FpgaWindow.store_eq (by omega), Option.bind_eq_bind, Option.bind_some, Nat.mod_eq_of_lt (by omega)]
    exact hrun

theorem writePartial_written (h : Joined wide shift target j prev []) (hm : Written before target j m)
    (hshift : shift < 32) (htarget : ∀ p, 8 * j + shift ≤ p → target p = bit before p)
    (hin : 0 < shift → j + 4 ≤ win.rMapSize) :
    ∃ next, writePartial win shift j prev m = some next ∧ ∀ p, bit next p = target p := by
  unfold writePartial
  split
  next hpos =>
    have hword : Written before target (j + 4) (setWord m j (prev ||| word m j &&& BitVec.allOnes 32 >>> shift)) := by
      apply hm.word
      intro k hk
      rw [BitVec.getMsbD_or, h hpos k hk, BitVec.getMsbD_and, getMsbD_word hk, BitVec.getMsbD_ushiftRight,
        BitVec.getMsbD_allOnes, hm, if_neg (by omega), decide_eq_true hk, Bool.true_and]
      by_cases hlow : k < shift
      · simp [hlow]
      · rw [htarget _ (by omega), decide_eq_false hlow, decide_eq_true (by omega : k - shift < 32)]
        simp
    rw [FpgaWindow.load_eq (hin hpos), Option.bind_eq_bind, Option.bind_some, FpgaWindow.store_eq (hin hpos)]
    refine ⟨_, rfl, fun p => ?_⟩
    rw [hword p]
    split
    next => rfl
    next => exact (htarget p (by omega)).symm
  next hzero =>
    refine ⟨m, rfl, fun p => ?_⟩
    rw [hm p]
    split
    next => rfl
    next => exact (htarget p (by omega)).symm

/-- The bits of a list of words in a row. -/
def wordsBit (words : List (BitVec 32)) (q : Nat) : Bool := (words.getD (q / 32) 0#32).getMsbD (q % 32)

theorem wordsBit_head (hk : k < 32) : wordsBit (value :: words) k = value.getMsbD k := by
  unfold wordsBit
  rw [Nat.div_eq_of_lt hk, Nat.mod_eq_of_lt hk, List.getD_cons_zero]

theorem wordsBit_tail : wordsBit (value :: words) (32 + k) = wordsBit words k := by
  unfold wordsBit
  rw [show (32 + k) / 32 = k / 32 + 1 by omega, List.getD_cons_succ, Nat.add_mod_left]

/-- At a bit offset each word carries its end to the next one. -/
theorem joined_of_shift (hpos : 0 < shift) (hshift : shift < 32)
    (hprev : ∀ k < 32, prev.getMsbD k = (decide (k < shift) && target (8 * j + k)))
    (hwords : ∀ q < 32 * words.length, target (8 * j + shift + q) = wordsBit words q) :
    Joined wide shift target j prev words := by
  induction words generalizing j prev with
  | nil => exact fun _ => hprev
  | cons value rest ih =>
    rw [List.length_cons] at hwords
    have hvalue : ∀ k < 32, target (8 * j + shift + k) = value.getMsbD k := by
      intro k hk
      rw [hwords k (by omega), wordsBit_head hk]
    refine ⟨?_, ih ?_ ?_⟩
    · intro k hk
      rw [BitVec.getMsbD_or, hprev k hk, BitVec.getMsbD_ushiftRight, decide_eq_true hk, Bool.true_and]
      by_cases hlow : k < shift
      · simp [hlow]
      · rw [← hvalue _ (by omega), show 8 * j + shift + (k - shift) = 8 * j + k by omega]
        simp [hlow]
    · intro k hk
      rw [hostShift, if_pos (by omega), BitVec.getMsbD_shiftLeft]
      by_cases hlow : k < shift
      · rw [← hvalue _ (by omega), decide_eq_true hlow, Bool.true_and]
        congr 1
        omega
      · rw [BitVec.getMsbD_of_ge _ _ (by omega), decide_eq_false hlow, Bool.false_and]
    · intro q hq
      rw [show 8 * (j + 4) + shift + q = 8 * j + shift + (32 + q) by omega, hwords _ (by omega), wordsBit_tail]

/-- Each word has the bits that the host leaves of the one before it. -/
def Covers (wide : BitVec 32 → BitVec 32) : BitVec 32 → List (BitVec 32) → Prop
  | _, [] => True
  | prev, value :: rest => prev ||| value = value ∧ Covers wide (wide value) rest

/-- At no bit offset a word is written with what the host leaves of the one before. -/
theorem joined_of_covers (hcovers : Covers wide prev words)
    (hwords : ∀ q < 32 * words.length, target (8 * j + q) = wordsBit words q) :
    Joined wide 0 target j prev words := by
  induction words generalizing j prev with
  | nil => exact fun h => absurd h (Nat.lt_irrefl 0)
  | cons value rest ih =>
    rw [List.length_cons] at hwords
    refine ⟨?_, ih hcovers.2 ?_⟩
    · intro k hk
      rw [BitVec.ushiftRight_zero, hcovers.1, hwords k (by omega), wordsBit_head hk]
    · intro q hq
      rw [show 8 * (j + 4) + q = 8 * j + (32 + q) by omega, hwords _ (by omega), wordsBit_tail]

/-- The first of the values that a loop goes through. -/
theorem writeWords_cons {rest : List (Option (BitVec 32))}
    (h : writeWords wide win shift (some value :: rest) m j prev = some (done, next, k, last))
    (hbeyond : win.beyond j = false) :
    j + 4 ≤ win.rMapSize ∧ writeWords wide win shift rest (setWord m j (prev ||| value >>> shift)) (j + 4)
      (hostShift wide value (32 - shift)) = some (done, next, k, last) := by
  have hlt := win.mapSize_lt
  rw [writeWords, hbeyond, if_neg Bool.false_ne_true] at h
  obtain ⟨stored, hstored, hrun⟩ := Option.bind_eq_some_iff.mp h
  obtain ⟨rfl, hin⟩ := FpgaWindow.store_some hstored
  rw [Nat.mod_eq_of_lt (by omega)] at hrun
  exact ⟨hin, hrun⟩

/-- A loop leaves what lies before the address it starts at. -/
theorem writeWords_low (h : writeWords wide win shift values m j prev = some (done, next, k, last)) :
    ∀ p < 8 * j, bit next p = bit m p := by
  induction values generalizing m j prev with
  | nil =>
    cases Option.some.inj h
    exact fun _ _ => rfl
  | cons first rest ih =>
    cases first with
    | none =>
      cases Option.some.inj h
      exact fun _ _ => rfl
    | some value =>
      cases hbeyond : win.beyond j with
      | true =>
        rw [writeWords, hbeyond, if_pos rfl] at h
        cases Option.some.inj h
        exact fun _ _ => rfl
      | false =>
        intro p hp
        rw [ih (writeWords_cons h hbeyond).2 p (by omega), bit_setWord, if_neg (by omega)]

/-- The word that a loop starts with stays as it is written. -/
theorem writeWords_first {rest : List (Option (BitVec 32))}
    (h : writeWords wide win shift (some value :: rest) m j prev = some (done, next, k, last))
    (hbeyond : win.beyond j = false) : word next j = prev ||| value >>> shift := by
  obtain ⟨_, hrun⟩ := writeWords_cons h hbeyond
  apply BitVec.eq_of_getMsbD_eq
  intro i hi
  rw [getMsbD_word hi, writeWords_low hrun _ (by omega), bit_setWord, if_pos (by omega), Nat.add_sub_cancel_left]

/-- A loop that comes to its end has written every value. -/
theorem writeWords_done (h : writeWords wide win shift values m j prev = some (true, next, k, last)) :
    ∃ words, values = words.map some ∧ k = j + 4 * words.length ∧ (words = [] ∨ k ≤ win.rMapSize) := by
  induction values generalizing m j prev with
  | nil =>
    cases Option.some.inj h
    exact ⟨[], rfl, rfl, Or.inl rfl⟩
  | cons first rest ih =>
    cases first with
    | none => cases Option.some.inj h
    | some value =>
      cases hbeyond : win.beyond j with
      | true =>
        rw [writeWords, hbeyond, if_pos rfl] at h
        cases Option.some.inj h
      | false =>
        obtain ⟨hin, hrun⟩ := writeWords_cons h hbeyond
        obtain ⟨words, hwords, hk, hend⟩ := ih hrun
        refine ⟨value :: words, by rw [hwords, List.map_cons], by rw [hk, List.length_cons]; omega, Or.inr ?_⟩
        rcases hend with rfl | hend
        · rw [hk]
          exact hin
        · exact hend

end

section

open BitMemory

variable {wide : BitVec 32 → BitVec 32} {win : FpgaWindow} {before m next : Bytes} {te : TbsEntry}
  {shift j k start n : Nat} {value prev last : BitVec 32} {words : List (BitVec 32)}
  {values : List (Option (BitVec 32))} {done : Bool}

/-- Words that lie at a bit offset are put together from the words they lie in. -/
theorem readWords_shift (hpos : 0 < shift) (hshift : shift < 32)
    (hprev : ∀ k < 32, prev.getMsbD k = (decide (k + shift < 32) && bit m (8 * j + shift + k)))
    (hwords : ∀ q < 32 * words.length, bit m (8 * j + shift + q) = wordsBit words q)
    (hin : j + 4 + 4 * words.length ≤ win.rMapSize) :
    readWords wide win m shift words.length (j + 4) prev = some words := by
  have hlt := win.mapSize_lt
  induction words generalizing j prev with
  | nil => rfl
  | cons value rest ih =>
    rw [List.length_cons] at hin hwords
    have hnext : ∀ k < 32, (hostShift wide (word m (j + 4)) shift).getMsbD k =
        (decide (k + shift < 32) && bit m (8 * (j + 4) + shift + k)) := by
      intro k hk
      rw [hostShift, if_pos hshift, BitVec.getMsbD_shiftLeft]
      by_cases hlow : k + shift < 32
      · rw [getMsbD_word hlow, decide_eq_true hlow, Bool.true_and]
        congr 1
        omega
      · rw [BitVec.getMsbD_of_ge _ _ (by omega), decide_eq_false hlow, Bool.false_and]
    have hvalue : word m (j + 4) >>> (32 - shift) ||| prev = value := by
      apply BitVec.eq_of_getMsbD_eq
      intro k hk
      rw [BitVec.getMsbD_or, hprev k hk, BitVec.getMsbD_ushiftRight, decide_eq_true hk, Bool.true_and,
        ← wordsBit_head hk, ← hwords k (by omega)]
      by_cases hlow : k + shift < 32
      · rw [decide_eq_true (by omega : k < 32 - shift), decide_eq_true hlow]
        simp
      · rw [decide_eq_false (by omega : ¬k < 32 - shift), decide_eq_false hlow, getMsbD_word (by omega),
          Bool.false_and, Bool.or_false, Bool.not_false, Bool.true_and]
        congr 1
        omega
    have hrest := ih hnext (fun q hq => by
      rw [show 8 * (j + 4) + shift + q = 8 * j + shift + (32 + q) by omega, hwords _ (by omega), wordsBit_tail]) (by omega)
    rw [List.length_cons, readWords, FpgaWindow.load_eq (by omega), Option.bind_eq_bind, Option.bind_some,
      Nat.mod_eq_of_lt (by omega), hrest, hvalue]
    rfl

/-- At no bit offset what the host leaves of the word before is put into each word. -/
theorem readWords_whole (hcovers : Covers wide prev words)
    (hwords : ∀ q < 32 * words.length, bit m (8 * j + q) = wordsBit words q)
    (hin : j + 4 * words.length ≤ win.rMapSize) :
    readWords wide win m 32 words.length j prev = some words := by
  have hlt := win.mapSize_lt
  induction words generalizing j prev with
  | nil => rfl
  | cons value rest ih =>
    rw [List.length_cons] at hin hwords
    have hvalue : word m j = value := by
      apply BitVec.eq_of_getMsbD_eq
      intro k hk
      rw [getMsbD_word hk, hwords k (by omega), wordsBit_head hk]
    have hrest := ih hcovers.2 (fun q hq => by
      rw [show 8 * (j + 4) + q = 8 * j + (32 + q) by omega, hwords _ (by omega), wordsBit_tail]) (by omega)
    have hlast : value >>> (32 - 32) ||| prev = value := by
      rw [BitVec.or_comm]
      exact hcovers.1
    rw [List.length_cons, readWords, FpgaWindow.load_eq (by omega), Option.bind_eq_bind, Option.bind_some, hvalue,
      hlast, hostShift, if_neg (Nat.lt_irrefl 32), Nat.mod_eq_of_lt (by omega), hrest]
    rfl

/-- Words that are read back as they were written at no bit offset cover what the host leaves of
the ones before them. -/
theorem covers_of_read {other : BitVec 32}
    (hwrite : writeWords wide win 0 (words.map some) m j prev = some (true, next, k, last))
    (hread : readWords wide win next 32 words.length j other = some words) : Covers wide prev words := by
  induction words generalizing m j prev other with
  | nil => trivial
  | cons value rest ih =>
    rw [List.map_cons] at hwrite
    have hbeyond : win.beyond j = false := by
      cases hb : win.beyond j with
      | true =>
        rw [writeWords, hb, if_pos rfl] at hwrite
        cases Option.some.inj hwrite
      | false => rfl
    have hfirst := writeWords_first hwrite hbeyond
    obtain ⟨hin, hrun⟩ := writeWords_cons hwrite hbeyond
    have hlt := win.mapSize_lt
    rw [List.length_cons, readWords] at hread
    obtain ⟨current, hcurrent, hloop⟩ := Option.bind_eq_some_iff.mp hread
    obtain ⟨words, hwords, hlist⟩ := Option.bind_eq_some_iff.mp hloop
    obtain ⟨rfl, _⟩ := FpgaWindow.load_some hcurrent
    rw [Nat.mod_eq_of_lt (by omega)] at hwords
    obtain ⟨hvalue, rfl⟩ := List.cons.inj (Option.some.inj hlist)
    refine ⟨?_, ih hrun hwords⟩
    rw [hfirst] at hvalue
    apply BitVec.eq_of_getMsbD_eq
    intro i hi
    have hbit := congrArg (BitVec.getMsbD · i) hvalue
    simp only [Nat.sub_self, BitVec.ushiftRight_zero, BitVec.getMsbD_or] at hbit ⊢
    rw [← hbit]
    cases prev.getMsbD i <;> cases value.getMsbD i <;> cases other.getMsbD i <;> rfl

end

end Katcp
