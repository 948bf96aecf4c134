import Katcp.ByteBit
import Katcp.RegisterWindow
import Mathlib.Data.Option.Basic

namespace Katcp

section

open BitMemory

/-- A request to read a register that passed the checks: where it starts in the mapping, how
much it reads and the number of bytes for that. -/
structure ReadPlan where
  combinedStart : ByteBit
  amount : ByteBit
  transfer : Nat

/-- The checks of a request, before any word is read. -/
def readPlan (long : Nat) (win : FpgaWindow) (te : TbsEntry) (start amount : ByteBit) (size : Nat) : Option ReadPlan := do
  guard (win.rFpga = .ready)
  guard (te.eMode.readable = true)
  let regStart ← (← ByteBit.makeBb long te.ePosBase te.ePosOffset).wordNormalise long
  let regLen ← (← ByteBit.makeBb long te.eLenBase te.eLenOffset).wordNormalise long
  let sum ← ByteBit.addBb long regStart regLen
  let limit ← (← ByteBit.makeBb long win.rMapSize 0).wordNormalise long
  guard (ByteBit.exceedsBb long sum limit = some false)
  let start ← start.wordNormalise long
  guard (ByteBit.exceedsBb long start regLen = some false)
  let amount ← amount.wordNormalise long
  let total ← ByteBit.addBb long start amount
  guard (ByteBit.exceedsBb long ((total.wordNormalise long).getD total) regLen = some false)
  let transfer := (amount.bByte + (amount.bBit + 7) / 8) % 2 ^ 32
  guard (0 < transfer ∧ transfer < 2 ^ 31)
  guard (transfer ≤ size)
  let combinedStart ← ByteBit.addBb long regStart start
  some ⟨(combinedStart.wordNormalise long).getD combinedStart, amount, transfer⟩

/-- Copying the first bytes of a word behind what is in the buffer, none where they do not fit. -/
def copyOut (size : Nat) (out : List (BitVec 8)) (current : BitVec 32) (length : Nat) : Option (List (BitVec 8)) :=
  if out.length + length ≤ size then some (out ++ (wordBytes current).take length) else none

def fastWords (win : FpgaWindow) (m : Bytes) (size base : Nat) : Nat → Nat → List (BitVec 8) → Option (List (BitVec 8))
  | 0, _, out => some out
  | n + 1, i, out => do
    let current ← win.load m (base + i)
    let out ← copyOut size out current 4
    fastWords win m size base n (i + 4) out

def fastTail (win : FpgaWindow) (m : Bytes) (size base i bBit : Nat) (out : List (BitVec 8)) : Option (List (BitVec 8)) :=
  if bBit = 0 then some out
  else do
    let current ← win.load m (base + i)
    copyOut size out (current &&& ~~~(BitVec.allOnes 32 >>> bBit)) ((bBit + 7) / 8)

/-- A request that starts at a word. The checks that abort are on. -/
def readFast (win : FpgaWindow) (m : Bytes) (size : Nat) (plan : ReadPlan) : Option (List (BitVec 8)) := do
  let base := plan.combinedStart.bByte
  let words := (plan.amount.bByte + 3) / 4
  let out ← fastWords win m size base words 0 []
  let out ← fastTail win m size base (4 * words) plan.amount.bBit out
  guard (4 * words + (plan.amount.bBit + 7) / 8 = plan.transfer)
  some out

/-- The loop over whole words of a request that starts within a word. What is carried to the
next word is the word that was handed out, shifted. -/
def complexWords (win : FpgaWindow) (m : Bytes) (size base shift : Nat) :
    Nat → Nat → BitVec 32 → List (BitVec 8) → Option (Nat × BitVec 32 × List (BitVec 8))
  | 0, j, prev, out => some (j, prev, out)
  | n + 1, j, prev, out => do
    let mask := ~~~(BitVec.allOnes 32 <<< shift)
    let ptr ← win.load m (base + 4 * j)
    let current := prev ||| (mask &&& ptr >>> (32 - shift))
    let out ← copyOut size out current 4
    complexWords win m size base shift n (j + 1) (current <<< shift) out

/-- The last word of a request that starts within a word: where whole words went before it is
masked for what comes from the fpga only. -/
def complexTail (win : FpgaWindow) (m : Bytes) (base shift grabBase grabOffset j : Nat) (prev : BitVec 32) :
    Option (BitVec 32) :=
  if 0 < grabBase then do
    let mask := ~~~(BitVec.allOnes 32 <<< shift)
    let ptr ← win.load m (base + 4 * j)
    some (prev ||| (mask &&& (ptr &&& BitVec.allOnes 32 <<< (32 - grabOffset)) >>> (32 - shift)))
  else do
    guard (shift ≤ grabOffset)
    some (prev &&& BitVec.allOnes 32 <<< (32 - (grabOffset - shift)))

/-- A request that starts within a word. -/
def readComplex (win : FpgaWindow) (m : Bytes) (size : Nat) (plan : ReadPlan) : Option (List (BitVec 8)) := do
  let base := plan.combinedStart.bByte
  let shift := plan.combinedStart.bBit
  let wide := 32 < shift + plan.amount.bBit
  let grabBase := if wide then plan.amount.bByte + 4 else plan.amount.bByte
  let grabOffset := if wide then shift + plan.amount.bBit - 32 else shift + plan.amount.bBit
  let roundLeft := (plan.amount.bBit + 7) / 8
  let first ← win.load m base
  let words := (grabBase + 3) / 4
  let (j, prev, out) ← complexWords win m size base shift words 1 (first <<< shift) []
  if grabOffset = 0 then some out
  else do
    let current ← complexTail win m base shift grabBase grabOffset j prev
    let out ← copyOut size out current roundLeft
    guard (4 * words + roundLeft = plan.transfer)
    some out

/-- How a request to read a register ends. -/
inductive RegisterReading
  | refused
  | crashed
  | copied (out : List (BitVec 8))
deriving DecidableEq, Repr

def readRegister (long : Nat) (win : FpgaWindow) (m : Bytes) (te : TbsEntry) (start amount : ByteBit) (size : Nat) :
    RegisterReading :=
  match readPlan long win te start amount size with
  | none => .refused
  | some plan =>
    let out := if plan.combinedStart.bBit = 0 then readFast win m size plan else readComplex win m size plan
    match out with
    | none => .crashed
    | some out => .copied out

end

section

open BitMemory

variable {long size : Nat} {win : FpgaWindow} {te : TbsEntry} {start amount : ByteBit} {plan : ReadPlan}

/-- What the checks of a request leave: words, and bits within a word, that lie in the mapping. -/
structure ReadPlan.Fits (plan : ReadPlan) (win : FpgaWindow) (te : TbsEntry) (start amount : ByteBit) (size : Nat) : Prop where
  base : plan.combinedStart.bByte % 4 = 0
  shift : plan.combinedStart.bBit < 32
  pos : plan.combinedStart.bits = te.pos + start.bits
  words : plan.amount.bByte % 4 = 0
  rest : plan.amount.bBit < 32
  count : plan.amount.bits = amount.bits
  transfer : plan.transfer = plan.amount.bByte + (plan.amount.bBit + 7) / 8
  some : 0 < plan.transfer
  room : plan.transfer ≤ size
  inside : te.pos + start.bits + amount.bits ≤ 8 * win.rMapSize

/-- Normalising a pair that may wrap keeps its bits, and normalises it where it lies in the mapping. -/
theorem normalised_getD {bb : ByteBit} (hbb : bb.Truthful long) (hlong : 8 ≤ long) :
    ((bb.wordNormalise long).getD bb).bits = bb.bits ∧ ((bb.wordNormalise long).getD bb).Truthful long ∧
      (bb.bAlign.word = true → (bb.wordNormalise long).getD bb = bb) := by
  cases h : bb.wordNormalise long with
  | none =>
    refine ⟨rfl, hbb, fun _ => rfl⟩
  | some next =>
    obtain ⟨hbits, htruthful, _⟩ := ByteBit.wordNormalise_spec h hbb hlong
    refine ⟨hbits, htruthful, fun hword => ?_⟩
    rw [ByteBit.wordNormalise, if_pos hword] at h
    exact (Option.some.inj h).symm

theorem made_normalised {byte bit : Nat} {made bb : ByteBit} (hmade : ByteBit.makeBb long byte bit = some made)
    (h : made.wordNormalise long = some bb) (hbyte : byte < 2 ^ long) (hbit : bit < 2 ^ long) (hlong : 8 ≤ long) :
    bb.bits = 8 * byte + bit ∧ bb.Truthful long ∧ bb.bAlign.word = true := by
  obtain ⟨hbits, htruthful, _⟩ := ByteBit.makeBb_spec hmade hbyte hbit
  obtain ⟨hnbits, hntruthful, hword⟩ := ByteBit.wordNormalise_spec h htruthful hlong
  exact ⟨hnbits.trans hbits, hntruthful, hword⟩

theorem guarded {α : Type} {p : Prop} [Decidable p] {rest : Option α} {x : α}
    (h : (guard p >>= fun _ : Unit => rest) = some x) : p ∧ rest = some x := by
  obtain ⟨_, hp, hrest⟩ := Option.bind_eq_some_iff.mp h
  exact ⟨(Option.guard_eq_some' _).mp hp, hrest⟩

theorem guard_of {p : Prop} [Decidable p] (h : p) : (guard p : Option Unit) = some () := if_pos h

theorem readPlan_fits (hlong : 32 ≤ long) (hstart : start.Truthful long) (hamount : amount.Truthful long)
    (h : readPlan long win te start amount size = some plan) : plan.Fits win te start amount size := by
  have hpow : 2 ^ 32 ≤ 2 ^ long := Nat.pow_le_pow_right (by omega) hlong
  have hpos := te.posBase_lt
  have hlen := te.lenBase_lt
  have hposo := te.posOffset_lt
  have hleno := te.lenOffset_lt
  have hsize := win.mapSize_lt
  unfold readPlan at h
  obtain ⟨_, h⟩ := guarded h
  obtain ⟨_, h⟩ := guarded h
  obtain ⟨made, hmade, h⟩ := Option.bind_eq_some_iff.mp h
  obtain ⟨regStart, hregStart, h⟩ := Option.bind_eq_some_iff.mp h
  obtain ⟨lenMade, hlenMade, h⟩ := Option.bind_eq_some_iff.mp h
  obtain ⟨regLen, hregLen, h⟩ := Option.bind_eq_some_iff.mp h
  obtain ⟨sum, hsum, h⟩ := Option.bind_eq_some_iff.mp h
  obtain ⟨limitMade, hlimitMade, h⟩ := Option.bind_eq_some_iff.mp h
  obtain ⟨limit, hlimit, h⟩ := Option.bind_eq_some_iff.mp h
  obtain ⟨hfits, h⟩ := guarded h
  obtain ⟨first, hfirst, h⟩ := Option.bind_eq_some_iff.mp h
  obtain ⟨_, h⟩ := guarded h
  obtain ⟨count, hcount, h⟩ := Option.bind_eq_some_iff.mp h
  obtain ⟨total, htotal, h⟩ := Option.bind_eq_some_iff.mp h
  obtain ⟨hwithin, h⟩ := guarded h
  obtain ⟨hsome, h⟩ := guarded h
  obtain ⟨hroom, h⟩ := guarded h
  obtain ⟨combined, hcombined, hplan⟩ := Option.bind_eq_some_iff.mp h
  obtain ⟨hsbits, hstruthful, hsword⟩ := made_normalised hmade hregStart (by omega) (by omega) (by omega)
  obtain ⟨hlbits, hltruthful, hlword⟩ := made_normalised hlenMade hregLen (by omega) (by omega) (by omega)
  obtain ⟨hmbits, hmtruthful, _⟩ := made_normalised hlimitMade hlimit (by omega) (by omega) (by omega)
  obtain ⟨hubits, hutruthful, _⟩ := ByteBit.addBb_spec hsum hstruthful hltruthful hsword hlword (by omega)
  obtain ⟨hfbits, hftruthful, hfword⟩ := ByteBit.wordNormalise_spec hfirst hstart (by omega)
  obtain ⟨hcbits, hctruthful, hcword⟩ := ByteBit.wordNormalise_spec hcount hamount (by omega)
  obtain ⟨htbits, httruthful, _⟩ := ByteBit.addBb_spec htotal hftruthful hctruthful hfword hcword (by omega)
  obtain ⟨hbits, htruthful, hword⟩ := ByteBit.addBb_spec hcombined hstruthful hftruthful hsword hfword (by omega)
  obtain ⟨hnbits, hntruthful, _⟩ := normalised_getD httruthful (by omega)
  obtain ⟨hkbits, _, hkeep⟩ := normalised_getD htruthful (by omega)
  have hsle := ByteBit.le_of_exceedsBb hfits hutruthful hmtruthful (by omega)
  have htle := ByteBit.le_of_exceedsBb hwithin hntruthful hltruthful (by omega)
  have hinside : te.pos + start.bits + amount.bits ≤ 8 * win.rMapSize := by
    unfold TbsEntry.pos
    omega
  have haligned : combined.bAlign.word = true := by
    refine hword.resolve_right ?_
    unfold TbsEntry.pos at hinside
    omega
  obtain ⟨hcbyte, hcbit⟩ := hctruthful.word hcword
  obtain ⟨hbyte, hbit⟩ := htruthful.word haligned
  have hexact : (count.bByte + (count.bBit + 7) / 8) % 2 ^ 32 = count.bByte + (count.bBit + 7) / 8 := by
    apply Nat.mod_eq_of_lt
    unfold ByteBit.bits at hcbits hinside
    omega
  cases Option.some.inj hplan
  rw [hexact] at hsome hroom
  refine ⟨?_, ?_, ?_, hcbyte, hcbit, hcbits, hexact, ?_, ?_, hinside⟩
  · rw [hkeep haligned]
    exact hbyte
  · rw [hkeep haligned]
    exact hbit
  · rw [hkbits, hbits, hsbits, hfbits]
    rfl
  · rw [hexact]
    exact hsome.1
  · rw [hexact]
    exact hroom

end

section

open BitMemory

variable {long size base shift i j n p amount : Nat} {win : FpgaWindow} {m : Bytes} {w prev : BitVec 32}
  {out next : List (BitVec 8)} {plan : ReadPlan}

/-- A buffer holds so many bits from a place on, and zeros up to its last byte. -/
structure ReadsBits (m : Bytes) (p amount : Nat) (out : List (BitVec 8)) : Prop where
  length : out.length = (amount + 7) / 8
  bits : ∀ q < 8 * out.length, listBit out q = (decide (q < amount) && bit m (p + q))

/-- What is in the buffer so far are the bits from a place on. -/
def Copies (m : Bytes) (p : Nat) (out : List (BitVec 8)) : Prop :=
  ∀ q < 8 * out.length, listBit out q = bit m (p + q)

theorem copyOut_eq {length : Nat} (h : out.length + length ≤ size) :
    copyOut size out w length = some (out ++ (wordBytes w).take length) := if_pos h

theorem copyOut_some {length : Nat} (h : copyOut size out w length = some next) :
    next = out ++ (wordBytes w).take length := by
  unfold copyOut at h
  split at h
  next => exact (Option.some.inj h).symm
  next => simp at h

theorem copies_nil : Copies m p [] := fun q hq => absurd hq (Nat.not_lt_zero q)

theorem Copies.word (h : Copies m p out) (hw : ∀ i < 32, w.getMsbD i = bit m (p + 8 * out.length + i)) :
    Copies m p (out ++ (wordBytes w).take 4) := by
  intro q hq
  rw [List.length_append, List.length_take, length_wordBytes] at hq
  by_cases hlow : q < 8 * out.length
  · rw [listBit_append_left hlow]
    exact h q hlow
  · rw [listBit_append_right (by omega), listBit_take (by omega), listBit_wordBytes (by omega), hw _ (by omega)]
    congr 1
    omega

/-- The last, partial word. -/
theorem Copies.last (h : Copies m p out) (w : BitVec 32) (amount : Nat) (hle : 8 * out.length ≤ amount) (hlt : amount < 8 * out.length + 32)
    (hw : ∀ i < 32, w.getMsbD i = (decide (i < amount - 8 * out.length) && bit m (p + 8 * out.length + i))) :
    ReadsBits m p amount (out ++ (wordBytes w).take ((amount - 8 * out.length + 7) / 8)) := by
  have hlength : ((wordBytes w).take ((amount - 8 * out.length + 7) / 8)).length = (amount - 8 * out.length + 7) / 8 := by
    rw [List.length_take, length_wordBytes]
    omega
  refine ⟨?_, ?_⟩
  · rw [List.length_append, hlength]
    omega
  · intro q hq
    rw [List.length_append, hlength] at hq
    by_cases hlow : q < 8 * out.length
    · rw [listBit_append_left hlow, h q hlow, decide_eq_true (by omega), Bool.true_and]
    · rw [listBit_append_right (by omega), listBit_take (by omega), listBit_wordBytes (by omega), hw _ (by omega),
        show p + 8 * out.length + (q - 8 * out.length) = p + q by omega]
      congr 1
      exact decide_eq_decide.mpr (by omega)

theorem Copies.whole (h : Copies m p out) (hle : 8 * out.length = amount) : ReadsBits m p amount out := by
  refine ⟨by omega, ?_⟩
  intro q hq
  rw [h q hq, decide_eq_true (by omega), Bool.true_and]

theorem fastWords_copies (h : Copies m (8 * base) out) (hi : out.length = i) (hin : base + i + 4 * n ≤ win.rMapSize)
    (hroom : i + 4 * n ≤ size) :
    ∃ next, fastWords win m size base n i out = some next ∧ Copies m (8 * base) next ∧ next.length = i + 4 * n := by
  induction n generalizing i out with
  | zero => exact ⟨out, rfl, h, by omega⟩
  | succ n ih =>
    have hword := h.word (w := word m (base + i)) (by
      intro k hk
      rw [getMsbD_word hk, hi]
      congr 1
      omega)
    have hlength : (out ++ (wordBytes (word m (base + i))).take 4).length = i + 4 := by
      rw [List.length_append, hi]
      rfl
    obtain ⟨next, hnext, hcopies, hlen⟩ := ih hword hlength (by omega) (by omega)
    refine ⟨next, ?_, hcopies, by omega⟩
    rw [fastWords, FpgaWindow.load_eq (by omega), Option.bind_eq_bind, Option.bind_some, copyOut_eq (by omega)]
    exact hnext

/-- The bits of the mask for the end of a request. -/
theorem getMsbD_topMask (hi : i < 32) : (~~~(BitVec.allOnes 32 >>> n)).getMsbD i = decide (i < n) := by
  rw [BitVec.getMsbD_not, BitVec.getMsbD_ushiftRight, BitVec.getMsbD_allOnes]
  by_cases hn : i < n
  · simp [hi, hn]
  · simp [hi, hn]
    omega

theorem readFast_reads (hfits : plan.combinedStart.bByte % 4 = 0 ∧ plan.combinedStart.bBit = 0)
    (hwords : plan.amount.bByte % 4 = 0) (hrest : plan.amount.bBit < 32)
    (htransfer : plan.transfer = plan.amount.bByte + (plan.amount.bBit + 7) / 8) (hroom : plan.transfer ≤ size)
    (hinside : plan.combinedStart.bits + plan.amount.bits ≤ 8 * win.rMapSize) :
    ∃ out, readFast win m size plan = some out ∧ ReadsBits m plan.combinedStart.bits plan.amount.bits out := by
  have hpages := win.pages
  have hstart : plan.combinedStart.bits = 8 * plan.combinedStart.bByte := by
    rw [ByteBit.bits, hfits.2, Nat.add_zero]
  have hamount : plan.amount.bits = 8 * plan.amount.bByte + plan.amount.bBit := rfl
  have hcount : 4 * ((plan.amount.bByte + 3) / 4) = plan.amount.bByte := by omega
  have hempty : Copies m (8 * plan.combinedStart.bByte) [] := copies_nil
  obtain ⟨out, hout, hcopies, hlength⟩ := fastWords_copies hempty List.length_nil
    (by omega : plan.combinedStart.bByte + 0 + 4 * ((plan.amount.bByte + 3) / 4) ≤ win.rMapSize)
    (by omega : 0 + 4 * ((plan.amount.bByte + 3) / 4) ≤ size)
  rw [Nat.zero_add, hcount] at hlength
  have hguard := guard_of htransfer.symm
  suffices htail : ∃ last, fastTail win m size plan.combinedStart.bByte plan.amount.bByte plan.amount.bBit out =
      some last ∧ ReadsBits m (8 * plan.combinedStart.bByte) plan.amount.bits last by
    obtain ⟨last, hlast, hreads⟩ := htail
    refine ⟨last, ?_, hstart ▸ hreads⟩
    unfold readFast
    simp only [Option.bind_eq_bind, hout, Option.bind_some, hcount, hlast, hguard]
  unfold fastTail
  split
  next hb => exact ⟨out, rfl, hcopies.whole (by omega)⟩
  next hb =>
    have hlast := hcopies.last (word m (plan.combinedStart.bByte + plan.amount.bByte) &&&
        ~~~(BitVec.allOnes 32 >>> plan.amount.bBit)) plan.amount.bits (by omega) (by omega) (by
      intro k hk
      rw [BitVec.getMsbD_and, getMsbD_topMask hk, getMsbD_word hk, Bool.and_comm, hlength, hamount,
        Nat.add_sub_cancel_left]
      congr 2
      omega)
    rw [hlength, hamount, Nat.add_sub_cancel_left] at hlast
    refine ⟨_, ?_, hamount ▸ hlast⟩
    rw [FpgaWindow.load_eq (by omega), Option.bind_eq_bind, Option.bind_some, copyOut_eq (by omega)]

end

section

open BitMemory

variable {size base shift i j k n p a : Nat} {win : FpgaWindow} {m : Bytes} {c w x prev last : BitVec 32}
  {out next : List (BitVec 8)} {plan : ReadPlan}

theorem getMsbD_lowMask (hi : i < 32) : (~~~(BitVec.allOnes 32 <<< shift)).getMsbD i = decide (32 ≤ i + shift) := by
  rw [BitVec.getMsbD_not, BitVec.getMsbD_shiftLeft, BitVec.getMsbD_allOnes, decide_eq_true hi, Bool.true_and]
  by_cases h : i + shift < 32
  · rw [decide_eq_true h, decide_eq_false (by omega), Bool.not_true]
  · rw [decide_eq_false h, decide_eq_true (by omega), Bool.not_false]

/-- The end of a word and the start of the next one. -/
theorem getMsbD_joined (hshift : shift < 32) (hi : i < 32) :
    (word m a <<< shift ||| (~~~(BitVec.allOnes 32 <<< shift) &&& word m (a + 4) >>> (32 - shift))).getMsbD i =
      bit m (8 * a + shift + i) := by
  rw [BitVec.getMsbD_or, BitVec.getMsbD_shiftLeft, BitVec.getMsbD_and, getMsbD_lowMask hi, BitVec.getMsbD_ushiftRight,
    decide_eq_true hi, Bool.true_and]
  by_cases h : i + shift < 32
  · rw [getMsbD_word h, decide_eq_false (by omega), Bool.false_and, Bool.or_false]
    congr 1
    omega
  · rw [BitVec.getMsbD_of_ge _ _ (by omega), decide_eq_true (by omega), decide_eq_false (by omega), Bool.not_false,
      Bool.true_and, Bool.true_and, Bool.false_or, getMsbD_word (by omega)]
    congr 1
    omega

/-- What is carried to a word comes first in it. -/
theorem getMsbD_carried (hshift : shift < 32) :
    (c <<< shift ||| (~~~(BitVec.allOnes 32 <<< shift) &&& x)).getMsbD 0 = c.getMsbD shift := by
  rw [BitVec.getMsbD_or, BitVec.getMsbD_shiftLeft, BitVec.getMsbD_and, getMsbD_lowMask (by omega),
    decide_eq_false (by omega), Bool.false_and, Bool.or_false, Nat.zero_add]

theorem complexWords_appends (h : complexWords win m size base shift n j prev out = some (k, last, next)) :
    k = j + n ∧ ∃ more, next = out ++ more ∧ more.length = 4 * n := by
  induction n generalizing j prev out with
  | zero =>
    cases Option.some.inj h
    exact ⟨rfl, [], (List.append_nil _).symm, rfl⟩
  | succ n ih =>
    obtain ⟨ptr, _, hrest⟩ := Option.bind_eq_some_iff.mp h
    obtain ⟨copied, hcopied, hloop⟩ := Option.bind_eq_some_iff.mp hrest
    obtain ⟨hk, more, hmore, hlength⟩ := ih hloop
    refine ⟨by omega, _, by rw [hmore, copyOut_some hcopied, List.append_assoc], ?_⟩
    rw [List.length_append, List.length_take, length_wordBytes, hlength]
    omega

/-- The steps of a request that ends, with what it starts within, in a word. -/
theorem readComplex_eq {first current : BitVec 32} (hend : plan.combinedStart.bBit + plan.amount.bBit ≤ 32)
    (hpos : 0 < plan.combinedStart.bBit + plan.amount.bBit) (hload : win.load m plan.combinedStart.bByte = some first)
    (hwords : complexWords win m size plan.combinedStart.bByte plan.combinedStart.bBit
      ((plan.amount.bByte + 3) / 4) 1 (first <<< plan.combinedStart.bBit) [] = some (j, prev, out))
    (htail : complexTail win m plan.combinedStart.bByte plan.combinedStart.bBit plan.amount.bByte
      (plan.combinedStart.bBit + plan.amount.bBit) j prev = some current)
    (hcopy : copyOut size out current ((plan.amount.bBit + 7) / 8) = some next)
    (htransfer : 4 * ((plan.amount.bByte + 3) / 4) + (plan.amount.bBit + 7) / 8 = plan.transfer) :
    readComplex win m size plan = some next := by
  have hover : ¬32 < plan.combinedStart.bBit + plan.amount.bBit := by omega
  have hsome : ¬plan.combinedStart.bBit + plan.amount.bBit = 0 := by omega
  have hguard := guard_of htransfer
  unfold readComplex
  dsimp only
  rw [if_neg hover, if_neg hover, hload]
  simp only [Option.bind_eq_bind, Option.bind_some]
  rw [hwords]
  simp only [Option.bind_some]
  rw [if_neg hsome, htail]
  simp only [Option.bind_some]
  rw [hcopy]
  simp only [Option.bind_some]
  rw [hguard, Option.bind_some]

/-- What a request within a word that does not crash has done. -/
theorem readComplex_some (h : readComplex win m size plan = some next) (hpos : 0 < plan.combinedStart.bBit)
    (hwords : plan.amount.bByte % 4 = 0) (hrest : plan.amount.bBit < 32) (hshift : plan.combinedStart.bBit < 32)
    (htransfer : plan.transfer = plan.amount.bByte + (plan.amount.bBit + 7) / 8) :
    plan.combinedStart.bBit + plan.amount.bBit ≤ 32 ∧ ∃ j prev out current,
      complexWords win m size plan.combinedStart.bByte plan.combinedStart.bBit (plan.amount.bByte / 4) 1
        (word m plan.combinedStart.bByte <<< plan.combinedStart.bBit) [] = some (j, prev, out) ∧
      complexTail win m plan.combinedStart.bByte plan.combinedStart.bBit plan.amount.bByte
        (plan.combinedStart.bBit + plan.amount.bBit) j prev = some current ∧
      next = out ++ (wordBytes current).take ((plan.amount.bBit + 7) / 8) := by
  unfold readComplex at h
  dsimp only at h
  by_cases hover : 32 < plan.combinedStart.bBit + plan.amount.bBit
  · rw [if_pos hover, if_pos hover] at h
    obtain ⟨first, _, hrun⟩ := Option.bind_eq_some_iff.mp h
    obtain ⟨⟨j, prev, out⟩, _, hend⟩ := Option.bind_eq_some_iff.mp hrun
    rw [if_neg (by omega)] at hend
    obtain ⟨current, _, hcopy⟩ := Option.bind_eq_some_iff.mp hend
    obtain ⟨copied, _, hguard⟩ := Option.bind_eq_some_iff.mp hcopy
    have hbad := (guarded hguard).1
    omega
  · rw [if_neg hover, if_neg hover, show (plan.amount.bByte + 3) / 4 = plan.amount.bByte / 4 by omega] at h
    obtain ⟨first, hfirst, hrun⟩ := Option.bind_eq_some_iff.mp h
    obtain ⟨⟨j, prev, out⟩, hloop, hend⟩ := Option.bind_eq_some_iff.mp hrun
    obtain ⟨rfl, _⟩ := FpgaWindow.load_some hfirst
    rw [if_neg (by omega)] at hend
    obtain ⟨current, hcurrent, hcopy⟩ := Option.bind_eq_some_iff.mp hend
    obtain ⟨copied, hcopied, hguard⟩ := Option.bind_eq_some_iff.mp hcopy
    cases Option.some.inj (guarded hguard).2
    exact ⟨by omega, j, prev, out, current, hloop, hcurrent, copyOut_some hcopied⟩

/-- Less than a word of a register, which does not go beyond its word. -/
theorem readComplex_short (hbyte : plan.amount.bByte = 0)
    (hend : plan.combinedStart.bBit + plan.amount.bBit ≤ 32) (hbit : 0 < plan.amount.bBit)
    (hlt : plan.amount.bBit < 32) (htransfer : plan.transfer = (plan.amount.bBit + 7) / 8)
    (hroom : plan.transfer ≤ size) (hin : plan.combinedStart.bByte + 4 ≤ win.rMapSize) :
    ∃ out, readComplex win m size plan = some out ∧ ReadsBits m plan.combinedStart.bits plan.amount.bits out := by
  have hamount : plan.amount.bits = plan.amount.bBit := by
    rw [ByteBit.bits, hbyte, Nat.mul_zero, Nat.zero_add]
  have hempty : Copies m plan.combinedStart.bits [] := copies_nil
  have hlast := hempty.last (word m plan.combinedStart.bByte <<< plan.combinedStart.bBit &&&
      BitVec.allOnes 32 <<< (32 - (plan.combinedStart.bBit + plan.amount.bBit - plan.combinedStart.bBit)))
    plan.amount.bBit (Nat.zero_le _) hlt (by
      intro i hi
      rw [BitVec.getMsbD_and, BitVec.getMsbD_shiftLeft, BitVec.getMsbD_shiftLeft, BitVec.getMsbD_allOnes, Bool.and_comm]
      by_cases h : i < plan.amount.bBit
      · rw [getMsbD_word (by omega), decide_eq_true (by omega), decide_eq_true (by simpa using h)]
        unfold ByteBit.bits
        congr 2
        simp only [List.length_nil]
        omega
      · rw [decide_eq_false (by omega), decide_eq_false (by simpa using h), Bool.false_and, Bool.false_and])
  have hloop : complexWords win m size plan.combinedStart.bByte plan.combinedStart.bBit ((plan.amount.bByte + 3) / 4) 1
      (word m plan.combinedStart.bByte <<< plan.combinedStart.bBit) [] =
        some (1, word m plan.combinedStart.bByte <<< plan.combinedStart.bBit, []) := by
    rw [hbyte]
    rfl
  have htail : complexTail win m plan.combinedStart.bByte plan.combinedStart.bBit plan.amount.bByte
      (plan.combinedStart.bBit + plan.amount.bBit) 1 (word m plan.combinedStart.bByte <<< plan.combinedStart.bBit) =
        some (word m plan.combinedStart.bByte <<< plan.combinedStart.bBit &&&
          BitVec.allOnes 32 <<< (32 - (plan.combinedStart.bBit + plan.amount.bBit - plan.combinedStart.bBit))) := by
    rw [complexTail, hbyte, if_neg (Nat.lt_irrefl 0), guard_of (Nat.le_add_right _ _)]
    rfl
  rw [hamount]
  refine ⟨_, readComplex_eq hend (by omega) (FpgaWindow.load_eq hin) hloop htail ?_ ?_, hlast⟩
  · exact copyOut_eq (by rw [List.length_nil]; omega)
  · rw [hbyte, htransfer]
    omega

/-- One whole word. -/
theorem readComplex_word (hshift : plan.combinedStart.bBit < 32) (hpos : 0 < plan.combinedStart.bBit)
    (hbyte : plan.amount.bByte = 4) (hbit : plan.amount.bBit = 0) (htransfer : plan.transfer = 4)
    (hroom : plan.transfer ≤ size) (hin : plan.combinedStart.bByte + 12 ≤ win.rMapSize) :
    ∃ out, readComplex win m size plan = some out ∧ ReadsBits m plan.combinedStart.bits plan.amount.bits out := by
  have hempty : Copies m plan.combinedStart.bits [] := copies_nil
  have hcopies := hempty.word (fun i hi => getMsbD_joined hshift hi)
  have hamount : plan.amount.bits = 32 := by
    rw [ByteBit.bits, hbyte, hbit]
  have hnext : ([] : List (BitVec 8)).length + 4 ≤ size := by
    rw [List.length_nil]
    omega
  have hloop := complexWords.eq_2 win m size plan.combinedStart.bByte plan.combinedStart.bBit 1
    (word m plan.combinedStart.bByte <<< plan.combinedStart.bBit) [] 0
  rw [FpgaWindow.load_eq (by omega), Option.bind_eq_bind, Option.bind_some] at hloop
  dsimp only at hloop
  rw [copyOut_eq hnext, Option.bind_eq_bind, Option.bind_some, complexWords, Nat.mul_one,
    show Nat.succ 0 = (plan.amount.bByte + 3) / 4 by omega] at hloop
  have htail := complexTail.eq_1 win m plan.combinedStart.bByte plan.combinedStart.bBit plan.amount.bByte
    (plan.combinedStart.bBit + plan.amount.bBit) 2
    ((word m plan.combinedStart.bByte <<< plan.combinedStart.bBit |||
      (~~~(BitVec.allOnes 32 <<< plan.combinedStart.bBit) &&&
        word m (plan.combinedStart.bByte + 4) >>> (32 - plan.combinedStart.bBit))) <<< plan.combinedStart.bBit)
  rw [if_pos (by omega), FpgaWindow.load_eq (by omega), Option.bind_eq_bind, Option.bind_some] at htail
  refine ⟨_, readComplex_eq (by omega) (by omega) (FpgaWindow.load_eq (by omega)) hloop htail ?_ ?_,
    hcopies.whole (by rw [hamount]; rfl)⟩
  · rw [hbit, copyOut_eq (by rw [List.length_append]; simp [length_wordBytes]; omega)]
    simp
  · rw [hbyte, hbit, htransfer]

end

section

open BitMemory

variable {long size base shift j k n p amount : Nat} {win : FpgaWindow} {m : Bytes} {prev last : BitVec 32}
  {out next : List (BitVec 8)} {plan : ReadPlan} {te : TbsEntry} {start count : ByteBit}

/-- From its second word on, a request within a word gets bits of the first one again. -/
theorem complexWords_second (h : complexWords win m size base shift (n + 1) 1 (word m base <<< shift) [] =
    some (k, last, next)) (hshift : shift < 32) :
    (n = 0 ∧ ∃ c : BitVec 32, last = c <<< shift ∧ next.length = 4 ∧ c.getMsbD shift = bit m (8 * base + 2 * shift)) ∨
      0 < n ∧ 8 ≤ next.length ∧ listBit next 32 = bit m (8 * base + 2 * shift) := by
  have hjoined := getMsbD_joined (m := m) (a := base) hshift hshift
  rw [show 8 * base + shift + shift = 8 * base + 2 * shift by omega] at hjoined
  obtain ⟨ptr, hptr, h⟩ := Option.bind_eq_some_iff.mp h
  obtain ⟨copied, hcopied, h⟩ := Option.bind_eq_some_iff.mp h
  obtain ⟨rfl, _⟩ := FpgaWindow.load_some hptr
  have hfirst := copyOut_some hcopied
  have hlength : copied.length = 4 := by
    rw [hfirst]
    rfl
  cases n with
  | zero =>
    cases Option.some.inj h
    exact Or.inl ⟨rfl, _, rfl, hlength, hjoined⟩
  | succ n =>
    obtain ⟨ptr, _, h⟩ := Option.bind_eq_some_iff.mp h
    obtain ⟨twice, htwice, h⟩ := Option.bind_eq_some_iff.mp h
    obtain ⟨_, more, hmore, _⟩ := complexWords_appends h
    refine Or.inr ⟨Nat.succ_pos _, ?_, ?_⟩
    · rw [hmore, copyOut_some htwice, List.length_append, List.length_append, List.length_take, length_wordBytes]
      omega
    · rw [hmore, copyOut_some htwice, List.append_assoc, listBit_append_right (by omega), hlength,
        listBit_append_left (by simp [length_wordBytes]), listBit_take (by omega), listBit_wordBytes (by omega)]
      exact (getMsbD_carried hshift).trans hjoined

/-- The first bit of the second word of a request within a word. -/
theorem readComplex_second (h : readComplex win m size plan = some next) (hpos : 0 < plan.combinedStart.bBit)
    (hwords : plan.amount.bByte % 4 = 0) (hrest : plan.amount.bBit < 32) (hshift : plan.combinedStart.bBit < 32)
    (htransfer : plan.transfer = plan.amount.bByte + (plan.amount.bBit + 7) / 8) (hlong : 32 < plan.amount.bits) :
    listBit next 32 = bit m (plan.combinedStart.bits + plan.combinedStart.bBit) := by
  have hamount : plan.amount.bits = 8 * plan.amount.bByte + plan.amount.bBit := rfl
  have hplace : plan.combinedStart.bits + plan.combinedStart.bBit =
      8 * plan.combinedStart.bByte + 2 * plan.combinedStart.bBit := by
    unfold ByteBit.bits
    omega
  rw [hplace]
  obtain ⟨hend, j, prev, out, current, hloop, htail, rfl⟩ := readComplex_some h hpos hwords hrest hshift htransfer
  rw [show plan.amount.bByte / 4 = plan.amount.bByte / 4 - 1 + 1 by omega] at hloop
  rcases complexWords_second hloop hshift with ⟨hn, c, rfl, hlength, hc⟩ | ⟨_, hlength, hbit⟩
  · rw [complexTail, if_pos (by omega)] at htail
    obtain ⟨ptr, _, hcurrent⟩ := Option.bind_eq_some_iff.mp htail
    rw [listBit_append_right (by omega), hlength, listBit_take (by omega), listBit_wordBytes (by omega),
      ← Option.some.inj hcurrent, ← hc]
    exact getMsbD_carried hshift
  · rw [listBit_append_left (by omega)]
    exact hbit

/-- A request that is read as it lies in the fpga: one that starts at a word, or does not go
beyond the word it starts in, or is for one word and not at the end of the mapping. -/
def Straight (p amount mapSize : Nat) : Prop :=
  p % 32 = 0 ∨ p % 32 + amount ≤ 32 ∨ amount = 32 ∧ 4 * (p / 32 + 3) ≤ mapSize

/-- Whether an accepted request hands out the bits it names, whatever is in the fpga, is a
matter of where it lies. -/
theorem register_read_exact (hlong : 32 ≤ long) (hstart : start.Truthful long) (hcount : count.Truthful long)
    (haccepted : (readPlan long win te start count size).isSome) :
    (∀ m, ∃ out, readRegister long win m te start count size = .copied out ∧
      ReadsBits m (te.pos + start.bits) count.bits out) ↔
      Straight (te.pos + start.bits) count.bits win.rMapSize := by
  obtain ⟨plan, hplan⟩ := Option.isSome_iff_exists.mp haccepted
  have hfits := readPlan_fits hlong hstart hcount hplan
  have hpages := win.pages
  have hbase := hfits.base
  have hshift := hfits.shift
  have htransfer := hfits.transfer
  have hroom := hfits.room
  have hsome := hfits.some
  have hinside := hfits.inside
  have hwords := hfits.words
  have hrest := hfits.rest
  have hamount : count.bits = 8 * plan.amount.bByte + plan.amount.bBit := hfits.count.symm
  have hplace : te.pos + start.bits = 8 * plan.combinedStart.bByte + plan.combinedStart.bBit := hfits.pos.symm
  constructor
  · intro hall
    unfold Straight
    by_contra hnot
    have hpos : 0 < plan.combinedStart.bBit := by omega
    have hrun : ∀ m, ∃ out, readComplex win m size plan = some out ∧
        ReadsBits m (te.pos + start.bits) count.bits out := by
      intro m
      obtain ⟨out, hout, hreads⟩ := hall m
      rw [readRegister, hplan] at hout
      dsimp only at hout
      rw [if_neg (by omega)] at hout
      split at hout
      next => simp at hout
      next copied hcopied =>
        cases RegisterReading.copied.inj hout
        exact ⟨_, hcopied, hreads⟩
    obtain ⟨out, hout, hreads⟩ := hrun (ofBits fun q => decide (q = te.pos + start.bits + 32))
    have hparts := readComplex_some hout hpos hwords hrest hshift htransfer
    by_cases hmore : 32 < plan.amount.bits
    · have hsecond := readComplex_second hout hpos hwords hrest hshift htransfer hmore
      have hneed := hreads.bits 32 (by
        have hlength := hreads.length
        rw [hfits.count] at hmore
        omega)
      rw [hsecond, bit_ofBits, bit_ofBits, hfits.pos, decide_eq_true rfl, decide_eq_false (by omega),
        decide_eq_true (hfits.count ▸ hmore)] at hneed
      simp at hneed
    · obtain ⟨hend, j, prev, words, current, hloop, htail, _⟩ := hparts
      obtain ⟨hj, _⟩ := complexWords_appends hloop
      rw [hfits.count] at hmore
      rw [complexTail, if_pos (by omega)] at htail
      obtain ⟨ptr, hptr, _⟩ := Option.bind_eq_some_iff.mp htail
      have hin := (FpgaWindow.load_some hptr).2
      omega
  · intro hstraight m
    have hcopied : ∃ out, (if plan.combinedStart.bBit = 0 then readFast win m size plan
        else readComplex win m size plan) = some out ∧
          ReadsBits m plan.combinedStart.bits plan.amount.bits out := by
      by_cases hzero : plan.combinedStart.bBit = 0
      · rw [if_pos hzero]
        exact readFast_reads ⟨hbase, hzero⟩ hwords hrest htransfer hroom (by rw [hfits.pos, hfits.count]; exact hinside)
      · rw [if_neg hzero]
        unfold Straight at hstraight
        by_cases hbyte : plan.amount.bByte = 0
        · exact readComplex_short hbyte (by omega) (by omega) hrest (by omega) hroom (by omega)
        · exact readComplex_word hshift (by omega) (by omega) (by omega) (by omega) hroom (by omega)
    obtain ⟨out, hout, hreads⟩ := hcopied
    rw [hfits.pos, hfits.count] at hreads
    refine ⟨out, ?_, hreads⟩
    rw [readRegister, hplan]
    dsimp only
    rw [hout]

/-- Four words, from the second bit of the mapping on. -/
def shiftedEntry : TbsEntry :=
  ⟨0, 16, 1, 0, ⟨true, true⟩, TbsEntry.zero_base, TbsEntry.sixteen_base, by decide, TbsEntry.zero_offset⟩

theorem register_read_exact_word : (∀ m, ∃ out,
    readRegister 32 pageWindow m shiftedEntry ⟨0, 0, ⟨true, true⟩⟩ ⟨4, 0, ⟨true, true⟩⟩ 4 = .copied out ∧
      ReadsBits m 1 32 out) ↔ Straight 1 32 4096 :=
  register_read_exact (Nat.le_refl 32) ⟨by decide, by decide, by decide, by decide⟩
    ⟨by decide, by decide, by decide, by decide⟩ rfl

/-- Two words are read with a bit set that the second of them starts with: it is not handed out. -/
theorem second_word_lost : ∃ out,
    readRegister 32 pageWindow (ofBits (· == 33)) shiftedEntry ⟨0, 0, ⟨true, true⟩⟩ ⟨8, 0, ⟨true, true⟩⟩ 8 =
      .copied out ∧ ¬ReadsBits (ofBits (· == 33)) 1 64 out := by
  refine ⟨List.replicate 8 0#8, rfl, ?_⟩
  intro h
  have hbit := h.bits 32 (by decide)
  rw [bit_ofBits] at hbit
  simp [listBit] at hbit

end

end Katcp
