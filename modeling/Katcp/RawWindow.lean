import Katcp.RawLifecycle

namespace Katcp

open Function

variable {b : RawBuild} {raw raw' : TbsRaw} {d : Declaration} {te : TbsEntry} {name : Text} {events log : List RawEvent}

/-- The first bit of a register as it was declared. -/
def Declaration.pos (d : Declaration) : Nat := 8 * d.posBytes + d.posBits

/-- The number of bits of a register as it was declared: without a length, the rest of its word. -/
def Declaration.len (d : Declaration) : Nat :=
  match d.length with
  | some (bytes, bits) => 8 * bytes + bits
  | none => 32 - d.pos % 32

abbrev Declarations := Text → Option Declaration

def declare (ds : Declarations) : RawEvent → Declarations
  | .stopped => fun _ => none
  | .accepted name d => update ds name (some d)
  | _ => ds

/-- The last declaration of each register that was accepted since the fpga was stopped. -/
def declaredIn (log : List RawEvent) : Declarations := log.foldl declare fun _ => none

def TbsRaw.isMapped (raw : TbsRaw) : Prop := raw.rFpga = .mapped ∨ raw.rFpga = .ready

instance (raw : TbsRaw) : Decidable raw.isMapped := inferInstanceAs (Decidable (_ ∨ _))

/-- Where the mapping starts, if there is one. -/
def TbsRaw.offset (raw : TbsRaw) : Nat := if raw.isMapped then raw.rMapOffset else 0

/-- A register lies where it was declared, and inside the window once that is mapped. -/
structure Located (raw : TbsRaw) (d : Declaration) (te : TbsEntry) : Prop where
  aligned : (te.ePosBase + raw.offset) % 4 = 0
  position : 8 * (te.ePosBase + raw.offset) + te.ePosOffset = d.pos
  length : te.len = d.len
  inside : raw.isMapped → te.pos + te.len ≤ 8 * raw.rMapSize

/-- Every register that was accepted lies where it was declared, and no attempt to map the fpga
that failed changed a register. -/
structure RegistersPlaced (s : RawServer) (log : List RawEvent) : Prop where
  placed : ∀ name d, declaredIn log name = some d → ∃ te, s.raw.findRegister name = some te ∧ Located s.raw d te
  kept : ∀ before after, .mapTried false before after ∈ log → after = before

/-- The numbers fit their fields, the offsets come to less than a word, and the register ends
within the addresses of 32 bits. -/
structure Declaration.Fits (d : Declaration) : Prop where
  posBytes : d.posBytes < 2 ^ 32
  posBits : d.posBits + 8 * (d.posBytes % 4) < 32
  given : ∀ bytes bits, d.length = some (bytes, bits) → bytes < 2 ^ 32 ∧ bits + 8 * (bytes % 4) < 32
  ends : d.pos / 32 * 4 + d.len / 32 * 4 + (d.pos % 32 + d.len % 32 + 7) / 8 < 2 ^ 32

/-- The registers of a bof file are aligned, end within the addresses of 32 bits, and unless the
window starts at 0 none starts in a page below that of another. -/
def TableFits (b : RawBuild) (table : List BofReg) : Prop :=
  ∀ br ∈ table, br.loc.toNat % 4 = 0 ∧ br.loc.toNat + br.len.toNat < 2 ^ 32 ∧
    (b.ppc = false → ∀ br' ∈ table, br'.loc.toNat / b.page * b.page ≤ br.loc.toNat)

/-- The attempt does not move registers, or does not fail: the window starts at 0, and its size can
be represented, or the device can be opened and mapped. -/
def MapClear (b : RawBuild) (opens : Bool) (address : Option Nat) (low fits : Prop) : Prop :=
  b.ppc = true ∨ (low ∧ fits) ∨ (¬low ∧ opens = true ∧ address.isSome = true)

def BofClear (b : RawBuild) (image : ImageFile) : Prop :=
  ∀ f, image = .bof (some f) → f.programs = true → TableFits b f.table ∧
    (f.complete = true → MapClear b f.opens f.address (∀ br ∈ f.table, br.loc.toNat < b.page)
      (∀ br ∈ f.table, br.loc.toNat + br.len.toNat + b.page ≤ 2 ^ 32))

/-- Every declaration fits, every bof file is clear, and so is every attempt to map the fpga. -/
def RegistersClear (b : RawBuild) (s : RawServer) : RawAction → Prop
  | .register name d => s.raw.rFpga ≠ .down → s.raw.findRegister name = none ∨ s.raw.rClobber = true → d.Fits
  | .finalise opens address => s.raw.mayMap →
      MapClear b opens address (s.raw.rBotRegister < b.page) (s.raw.rTopRegister + b.page ≤ 2 ^ 32)
  | .progdev client args _ image => s.locked client = false → s.inFlight .kcpfpg = false →
      ∀ file, argString args 1 = some file → byte '/' ∉ file → BofClear b image
  | .remoteDone ok _ image => ok = true → s.inFlight .kcpfpg = false → BofClear b image
  | _ => True

theorem normalise_eq {base offset : Nat} (hbase : base < 2 ^ 32) (hoffset : offset + 8 * (base % 4) < 32) :
    normalise base offset = (base - base % 4, offset + 8 * (base % 4)) := by
  have hsum : (offset % 256 + 8 * (base % 4)) % 256 = offset + 8 * (base % 4) := by omega
  unfold normalise
  dsimp only
  rw [Nat.mod_eq_of_lt hbase, hsum, Nat.div_eq_of_lt hoffset, Nat.mod_eq_of_lt hoffset, Nat.add_zero,
    Nat.mod_eq_of_lt (by omega)]

/-- The entry of a declaration that fits, in whole words and bits. -/
theorem Declaration.Fits.entry (h : d.Fits) : d.entry.ePosBase = d.pos / 32 * 4 ∧ d.entry.ePosOffset = d.pos % 32 ∧
    d.entry.eLenBase = d.len / 32 * 4 ∧ d.entry.eLenOffset = d.len % 32 := by
  have hbits := h.posBits
  have hpos := normalise_eq h.posBytes hbits
  have hbase : d.posBytes - d.posBytes % 4 = d.pos / 32 * 4 := by
    unfold Declaration.pos
    omega
  have hoffset : d.posBits + 8 * (d.posBytes % 4) = d.pos % 32 := by
    unfold Declaration.pos
    omega
  rw [hbase, hoffset] at hpos
  have hlen : normalise (d.length.getD (guessLength (d.pos % 32))).1 (d.length.getD (guessLength (d.pos % 32))).2 =
      (d.len / 32 * 4, d.len % 32) := by
    unfold Declaration.len
    cases hgiven : d.length with
    | some given =>
      obtain ⟨bytes, bits⟩ := given
      obtain ⟨hbytes, hfew⟩ := h.given bytes bits hgiven
      dsimp only [Option.getD_some]
      rw [normalise_eq hbytes hfew]
      congr 1 <;> omega
    | none =>
      dsimp only [Option.getD_none]
      unfold guessLength
      split
      next hne =>
        dsimp only
        rw [normalise_eq (by decide) (by omega)]
        congr 1 <;> omega
      next hzero =>
        have hmod : d.pos % 32 = 0 := by omega
        rw [hmod]
        rfl
  unfold Declaration.entry
  dsimp only
  rw [hpos]
  dsimp only
  rw [hlen]
  exact ⟨rfl, rfl, rfl, rfl⟩

theorem bits_cover (te : TbsEntry) : te.ePosOffset + te.eLenOffset ≤ 8 * te.bits := by
  unfold TbsEntry.bits
  omega

/-- A register that ends within a number of bytes. -/
theorem pos_len_le {size : Nat} (h : te.ePosBase + te.eLenBase + te.bits ≤ size) : te.pos + te.len ≤ 8 * size := by
  have hbits := bits_cover te
  unfold TbsEntry.pos TbsEntry.len
  omega

theorem Declaration.Fits.ends_lt (h : d.Fits) : d.entry.ePosBase + d.entry.eLenBase + d.entry.bits < 2 ^ 32 := by
  obtain ⟨hpos, hoffset, hlen, hbits⟩ := h.entry
  unfold TbsEntry.bits
  rw [hpos, hoffset, hlen, hbits]
  exact h.ends

theorem Declaration.Fits.last_eq (h : d.Fits) : d.entry.last = d.entry.ePosBase + d.entry.eLenBase + d.entry.bits :=
  Nat.mod_eq_of_lt h.ends_lt

/-- What the map is to cover, before there is one. -/
structure Covered (b : RawBuild) (raw : TbsRaw) (te : TbsEntry) : Prop where
  bottom : b.ppc = false → raw.rBotRegister / b.page * b.page ≤ te.ePosBase
  top : te.ePosBase + te.eLenBase + te.bits ≤ raw.rTopRegister

structure WindowInv (b : RawBuild) (raw : TbsRaw) (ds : Declarations) : Prop where
  top_lt : raw.rTopRegister < 2 ^ 32
  unset : raw.rRegisters = none ∨ raw.rFpga = .down → ∀ name, ds name = none
  stored : ∀ name d, ds name = some d → ∃ te, raw.findRegister name = some te ∧ Located raw d te ∧
    (raw.rFpga = .programmed → Covered b raw te)

namespace WindowInv

variable {ds : Declarations}

/-- Nothing is declared. -/
theorem empty (hds : ∀ name, ds name = none) (htop : raw.rTopRegister < 2 ^ 32) : WindowInv b raw ds := by
  refine ⟨htop, fun _ => hds, fun name d hd => ?_⟩
  rw [hds name] at hd
  cases hd

/-- What changes nothing that the registers depend on. -/
theorem same (h : WindowInv b raw ds) (hregisters : raw'.rRegisters = raw.rRegisters) (hfpga : raw'.rFpga = raw.rFpga)
    (htop : raw'.rTopRegister = raw.rTopRegister) (hbot : raw'.rBotRegister = raw.rBotRegister)
    (hsize : raw'.rMapSize = raw.rMapSize) (hoffset : raw'.rMapOffset = raw.rMapOffset) : WindowInv b raw' ds := by
  refine ⟨htop ▸ h.top_lt, fun hunset => h.unset (hregisters ▸ hfpga ▸ hunset), fun name d hd => ?_⟩
  obtain ⟨te, hte, hlocated, hcovered⟩ := h.stored name d hd
  have hmapped : raw'.isMapped ↔ raw.isMapped := by
    unfold TbsRaw.isMapped
    rw [hfpga]
  have heff : raw'.offset = raw.offset := by
    unfold TbsRaw.offset
    simp only [hmapped, hoffset]
  refine ⟨te, ?_, ⟨?_, ?_, hlocated.length, ?_⟩, ?_⟩
  · unfold TbsRaw.findRegister at hte ⊢
    rwa [hregisters]
  · rw [heff]
    exact hlocated.aligned
  · rw [heff]
    exact hlocated.position
  · rw [hmapped, hsize]
    exact hlocated.inside
  · intro hprogrammed
    obtain ⟨hbottom, htop'⟩ := hcovered (hfpga ▸ hprogrammed)
    exact ⟨fun hppc => hbot ▸ hbottom hppc, htop ▸ htop'⟩

/-- A register that may be stored under its name, whether or not it is there already. -/
theorem store (h : WindowInv b raw ds) {tree : RegisterTree} (htree : raw.rRegisters = some tree)
    (hfpga : raw.rFpga ≠ .down) (hlocated : Located raw d te) (hcovered : raw.rFpga = .programmed → Covered b raw te) :
    WindowInv b { raw with rRegisters := some (update tree name (some te)) } (update ds name (some d)) := by
  refine ⟨h.top_lt, fun hunset => ?_, fun name' d' hd => ?_⟩
  · rcases hunset with hnone | hdown
    · cases hnone
    · exact absurd hdown hfpga
  · by_cases he : name' = name
    · subst he
      rw [update_self] at hd
      cases hd
      refine ⟨te, ?_, ⟨hlocated.aligned, hlocated.position, hlocated.length, hlocated.inside⟩, fun hprogrammed => ?_⟩
      · exact update_self ..
      · exact ⟨(hcovered hprogrammed).bottom, (hcovered hprogrammed).top⟩
    · rw [update_of_ne he] at hd
      obtain ⟨te', hte, hloc, hcov⟩ := h.stored name' d' hd
      refine ⟨te', ?_, ⟨hloc.aligned, hloc.position, hloc.length, hloc.inside⟩, fun hprogrammed => ?_⟩
      · unfold TbsRaw.findRegister at hte ⊢
        rw [htree] at hte
        exact (update_of_ne he ..).trans hte
      · exact ⟨(hcov hprogrammed).bottom, (hcov hprogrammed).top⟩

/-- The extent of the registers grows. -/
theorem widen (h : WindowInv b raw ds) (bot top : Nat) (htop : raw.rTopRegister ≤ top) (hlt : top < 2 ^ 32)
    (hbot : bot ≤ raw.rBotRegister ∨ (b.ppc = false → ∀ name d te, ds name = some d → raw.findRegister name = some te →
      bot / b.page * b.page ≤ te.ePosBase)) :
    WindowInv b { raw with rBotRegister := bot, rTopRegister := top } ds := by
  refine ⟨hlt, h.unset, fun name d hd => ?_⟩
  obtain ⟨te, hte, hloc, hcov⟩ := h.stored name d hd
  refine ⟨te, hte, ⟨hloc.aligned, hloc.position, hloc.length, hloc.inside⟩, fun hprogrammed => ⟨fun hppc => ?_, ?_⟩⟩
  · rcases hbot with hle | hall
    · exact Nat.le_trans (Nat.mul_le_mul_right _ (Nat.div_le_div_right hle)) ((hcov hprogrammed).bottom hppc)
    · exact hall hppc name d te hd hte
  · exact Nat.le_trans (hcov hprogrammed).top htop

end WindowInv

theorem unmapped_of_programmed (h : raw.rFpga = .programmed) : ¬raw.isMapped := by
  simp [TbsRaw.isMapped, h]

theorem offset_unmapped (h : ¬raw.isMapped) : raw.offset = 0 := if_neg h

/-- A declaration that fits, as it is stored before the fpga is mapped. -/
theorem Declaration.Fits.located (h : d.Fits) (hunmapped : ¬raw.isMapped) : Located raw d d.entry := by
  obtain ⟨hpos, hoffset, hlen, hbits⟩ := h.entry
  refine ⟨?_, ?_, ?_, fun hm => absurd hm hunmapped⟩
  · rw [offset_unmapped hunmapped, hpos]
    omega
  · rw [offset_unmapped hunmapped, hpos, hoffset]
    omega
  · unfold TbsEntry.len
    rw [hlen, hbits]
    omega

theorem fixup_base {offset : Nat} (h : offset ≤ te.ePosBase) : (fixupOffset offset te).ePosBase = te.ePosBase - offset :=
  if_neg (Nat.not_lt.mpr h)

/-- A register moved into the window. -/
theorem Located.moved (h : Located raw d te) (hunmapped : ¬raw.isMapped) (hmapped : raw'.isMapped)
    (hbase : raw'.rMapOffset ≤ te.ePosBase)
    (hend : te.ePosBase + te.eLenBase + te.bits ≤ raw'.rMapOffset + raw'.rMapSize) :
    Located raw' d (fixupOffset raw'.rMapOffset te) := by
  have hfix := fixup_base hbase
  have hoffset : raw'.offset = raw'.rMapOffset := if_pos hmapped
  have haligned := h.aligned
  have hposition := h.position
  rw [offset_unmapped hunmapped, Nat.add_zero] at haligned hposition
  refine ⟨?_, ?_, h.length, fun _ => pos_len_le ?_⟩
  · rw [hoffset, hfix, Nat.sub_add_cancel hbase]
    exact haligned
  · rw [hoffset, hfix, Nat.sub_add_cancel hbase]
    exact hposition
  · have hlast : (fixupOffset raw'.rMapOffset te).ePosBase + te.eLenBase + te.bits ≤ raw'.rMapSize := by omega
    exact hlast

theorem placeRegister_inv {ds : Declarations} (h : WindowInv b raw ds) (hfits : d.Fits) (hfpga : raw.rFpga ≠ .down)
    {stored : Bool} (hs : raw.placeRegister name d.entry = (stored, raw')) :
    WindowInv b raw' (if stored then update ds name (some d) else ds) := by
  have hlast := hfits.last_eq
  unfold TbsRaw.placeRegister at hs
  split at hs
  next hfinal =>
    have hmapped : raw.isMapped := by
      unfold TbsRaw.isMapped
      cases hc : raw.rFpga <;> simp_all
    split at hs
    · cases hs
      exact h
    next hbase =>
      split at hs
      · cases hs
        exact h
      next hend =>
        unfold TbsRaw.storeRegister at hs
        split at hs
        · cases hs
          exact h
        next tree htree =>
          cases hs
          have hwrap := Nat.mod_le (raw.rMapOffset + raw.rMapSize) (2 ^ 32)
          have hdecl : Located { raw with rFpga := .programmed } d d.entry :=
            hfits.located (unmapped_of_programmed rfl)
          have hloc := hdecl.moved (unmapped_of_programmed rfl) hmapped (Nat.not_lt.mp hbase) (by omega)
          exact h.store htree hfpga hloc fun hprogrammed => absurd hprogrammed hfinal
  next hprogrammed =>
    have hprogrammed : raw.rFpga = .programmed := not_not.mp hprogrammed
    have hunmapped := unmapped_of_programmed hprogrammed
    have hwide := h.widen (if d.entry.ePosBase < raw.rBotRegister then d.entry.ePosBase else raw.rBotRegister)
      (if raw.rTopRegister < d.entry.last then d.entry.last else raw.rTopRegister) (by split <;> omega) (by
        have hlt := hfits.ends_lt
        have htop := h.top_lt
        split <;> omega) (.inl (by split <;> omega))
    unfold TbsRaw.storeRegister at hs
    split at hs
    · cases hs
      exact hwide
    next tree htree =>
      cases hs
      refine hwide.store htree hfpga ?_ fun _ => ⟨fun _ => ?_, ?_⟩
      · exact hfits.located (unmapped_of_programmed hprogrammed)
      · refine Nat.le_trans (Nat.div_mul_le_self ..) ?_
        dsimp only
        split <;> omega
      · dsimp only
        split <;> omega

/-- How the extent of the registers stands to the registers of a table that were read. -/
structure Extent (b : RawBuild) (raw : TbsRaw) (all : List BofReg) : Prop where
  bottom : b.ppc = false → ∀ br ∈ all, raw.rBotRegister / b.page * b.page ≤ br.loc.toNat
  low : ∀ m, (∀ br ∈ all, br.loc.toNat < m) → 0 < m → raw.rBotRegister < m
  ends : ∀ m, (∀ br ∈ all, br.loc.toNat + br.len.toNat ≤ m) → raw.rTopRegister ≤ m

theorem BofReg.located {br : BofReg} (haligned : br.loc.toNat % 4 = 0) (hunmapped : ¬raw.isMapped) :
    Located raw br.declaration br.entry := by
  refine ⟨?_, ?_, ?_, fun hm => absurd hm hunmapped⟩
  · rw [offset_unmapped hunmapped]
    exact haligned
  · rw [offset_unmapped hunmapped]
    rfl
  · rfl

theorem indexRegister_eq {tree : RegisterTree} (htree : raw.rRegisters = some tree) (br : BofReg) :
    raw.indexRegister br = (true, { raw with
      rTopRegister := if raw.rTopRegister < (br.loc + br.len).toNat then (br.loc + br.len).toNat else raw.rTopRegister
      rBotRegister := if raw.rBotRegister < br.loc.toNat then br.loc.toNat else raw.rBotRegister
      rRegisters := some (update tree br.name (some br.entry)) }) := by
  unfold TbsRaw.indexRegister TbsRaw.storeRegister
  dsimp only
  rw [htree]

/-- One turn of the loop of `index_bof`. -/
theorem indexRegister_inv {ds : Declarations} {all : List BofReg} {br : BofReg} (h : WindowInv b raw ds)
    (hextent : Extent b raw all) (hfits : TableFits b all) (hbr : br ∈ all) (hfpga : raw.rFpga = .programmed)
    (hregisters : raw.rRegisters.isSome = true)
    (hof : ∀ name d te, ds name = some d → raw.findRegister name = some te → ∃ br' ∈ all, te = br'.entry) :
    ∃ next, raw.indexRegister br = (true, next) ∧ WindowInv b next (update ds br.name (some br.declaration)) ∧
      Extent b next all ∧ br.loc.toNat ≤ next.rBotRegister ∧ raw.rBotRegister ≤ next.rBotRegister ∧
      next.rFpga = .programmed ∧ next.rRegisters.isSome = true ∧
      ∀ name d te, update ds br.name (some br.declaration) name = some d → next.findRegister name = some te →
        ∃ br' ∈ all, te = br'.entry := by
  obtain ⟨tree, htree⟩ := Option.isSome_iff_exists.mp hregisters
  obtain ⟨haligned, hlt, hbottom⟩ := hfits br hbr
  have htop : (br.loc + br.len).toNat = br.loc.toNat + br.len.toNat := by
    rw [BitVec.toNat_add, Nat.mod_eq_of_lt hlt]
  have hwide := h.widen (if raw.rBotRegister < br.loc.toNat then br.loc.toNat else raw.rBotRegister)
    (if raw.rTopRegister < (br.loc + br.len).toNat then (br.loc + br.len).toNat else raw.rTopRegister)
    (by split <;> omega) (by
      have htop_lt := h.top_lt
      rw [htop]
      split <;> omega) (.inr (by
      intro hppc name d te hd hte
      obtain ⟨br', hbr', rfl⟩ := hof name d te hd hte
      split
      · exact (hfits br' hbr').2.2 hppc br hbr
      · exact hextent.bottom hppc br' hbr'))
  refine ⟨_, indexRegister_eq htree br, ?_, ?_, ?_, ?_, hfpga, rfl, ?_⟩
  · refine hwide.store htree (by simp [hfpga]) ?_ fun _ => ⟨fun hppc => ?_, ?_⟩
    · exact BofReg.located haligned (unmapped_of_programmed hfpga)
    · dsimp only
      split
      · exact hbottom hppc br hbr
      · exact hextent.bottom hppc br hbr
    · have hend : br.entry.ePosBase + br.entry.eLenBase + br.entry.bits = br.loc.toNat + br.len.toNat := by
        simp [BofReg.entry, TbsEntry.bits]
      rw [hend]
      dsimp only
      split <;> omega
  · refine ⟨fun hppc br' hbr' => ?_, fun m hm hpos => ?_, fun m hm => ?_⟩
    · dsimp only
      split
      · exact (hfits br' hbr').2.2 hppc br hbr
      · exact hextent.bottom hppc br' hbr'
    · have hold := hextent.low m hm hpos
      have hnew := hm br hbr
      dsimp only
      split <;> omega
    · have hold := hextent.ends m hm
      have hnew := hm br hbr
      dsimp only
      split <;> omega
  · dsimp only
    split <;> omega
  · dsimp only
    split <;> omega
  · intro name d te hd hte
    by_cases he : name = br.name
    · subst he
      have hentry : some te = some br.entry := hte.symm.trans (update_self ..)
      exact ⟨br, hbr, Option.some.inj hentry⟩
    · rw [update_of_ne he] at hd
      refine hof name d te hd ?_
      unfold TbsRaw.findRegister
      rw [htree]
      exact (update_of_ne he ..).symm.trans hte

/-- The loop of `index_bof`: it stores registers of the table, and where it comes to its end the
window reaches down to the highest. -/
theorem indexBof_inv {complete : Bool} {all : List BofReg} (hfits : TableFits b all) (table : List BofReg)
    {ds : Declarations} (hsub : ∀ br ∈ table, br ∈ all) (h : WindowInv b raw ds) (hextent : Extent b raw all)
    (hfpga : raw.rFpga = .programmed) (hregisters : raw.rRegisters.isSome = true)
    (hof : ∀ name d te, ds name = some d → raw.findRegister name = some te → ∃ br' ∈ all, te = br'.entry)
    {indexed : Bool} (hs : raw.indexBof complete table = (indexed, raw', events)) :
    WindowInv b raw' (events.foldl declare ds) ∧ Extent b raw' all ∧ raw'.rFpga = .programmed ∧
      raw.rBotRegister ≤ raw'.rBotRegister ∧
      (indexed = true → complete = true ∧ ∀ br ∈ table, br.loc.toNat ≤ raw'.rBotRegister) := by
  induction table generalizing raw ds events with
  | nil =>
    cases hs
    exact ⟨h, hextent, hfpga, le_rfl, fun hc => ⟨hc, fun br hbr => absurd hbr List.not_mem_nil⟩⟩
  | cons br rest ih =>
    unfold TbsRaw.indexBof at hs
    split at hs
    · cases hs
      exact ⟨h, hextent, hfpga, le_rfl, fun hc => absurd hc Bool.false_ne_true⟩
    · obtain ⟨next, hnext, hinv, hext, hbr, hgrow, hprogrammed, hsome, hmore⟩ :=
        indexRegister_inv h hextent hfits (hsub br (List.mem_cons_self ..)) hfpga hregisters hof
      rw [hnext] at hs
      dsimp only at hs
      rw [if_pos rfl] at hs
      cases hrest : next.indexBof complete rest with
      | mk result tail =>
        obtain ⟨last, more⟩ := tail
        rw [hrest] at hs
        cases hs
        obtain ⟨hlast, hlastExt, hlastFpga, hlastGrow, hdone⟩ :=
          ih (fun br' hbr' => hsub br' (List.mem_cons_of_mem _ hbr')) hinv hext hprogrammed hsome hmore hrest
        refine ⟨hlast, hlastExt, hlastFpga, Nat.le_trans hgrow hlastGrow, fun hi => ?_⟩
        obtain ⟨hcomplete, hall⟩ := hdone hi
        refine ⟨hcomplete, fun br' hbr' => ?_⟩
        rcases List.mem_cons.mp hbr' with rfl | hbr'
        · exact Nat.le_trans hbr hlastGrow
        · exact hall br' hbr'

theorem page_pos (b : RawBuild) : 0 < b.page := Nat.two_pow_pos _

/-- The window of a build with rounding, in terms of the extent of the registers. -/
theorem fitWindow_size (b : RawBuild) (hlt : raw.rTopRegister < 2 ^ 32) (hbot : raw.rBotRegister < raw.rTopRegister) :
    (raw.fitWindow b).rMapSize = 0 ∧ raw.rBotRegister / b.page * b.page = 0 ∧ 2 ^ 32 < raw.rTopRegister + b.page ∨
      (raw.fitWindow b).rMapSize ≠ 0 ∧
        raw.rTopRegister ≤ raw.rBotRegister / b.page * b.page + (raw.fitWindow b).rMapSize := by
  have hpage := page_pos b
  have hpage_lt : b.page < 2 ^ 32 := Nat.pow_lt_pow_right (by decide) b.small
  have hlow : raw.rBotRegister / b.page * b.page ≤ raw.rBotRegister := Nat.div_mul_le_self ..
  unfold TbsRaw.fitWindow
  dsimp only
  generalize raw.rBotRegister / b.page * b.page = bot at hlow ⊢
  by_cases hwrap : 2 ^ 32 < raw.rTopRegister + b.page
  · have hsmall : (raw.rTopRegister + b.page - 1) % 2 ^ 32 < b.page := by omega
    rw [Nat.div_eq_of_lt hsmall, Nat.zero_mul]
    by_cases hzero : bot = 0
    · left
      omega
    · right
      omega
  · right
    have hsum : (raw.rTopRegister + b.page - 1) % 2 ^ 32 = raw.rTopRegister + b.page - 1 := by omega
    rw [hsum]
    have hup : raw.rTopRegister ≤ (raw.rTopRegister + b.page - 1) / b.page * b.page := by
      have hdiv := Nat.lt_div_mul_add hpage (a := raw.rTopRegister + b.page - 1)
      omega
    have hle : (raw.rTopRegister + b.page - 1) / b.page * b.page ≤ raw.rTopRegister + b.page - 1 :=
      Nat.div_mul_le_self ..
    generalize (raw.rTopRegister + b.page - 1) / b.page * b.page = top at hup hle ⊢
    omega

theorem growPower_le {n top power grown : Nat} (h : TbsRaw.growPower n top power = some grown) : top ≤ grown := by
  induction n generalizing power with
  | zero => cases h
  | succ n ih =>
    unfold TbsRaw.growPower at h
    split at h
    · exact ih h
    next hle =>
      cases Option.some.inj h
      exact Nat.not_lt.mp hle

/-- What `open` and `mmap` leave as it is, and when they fail. -/
theorem mapWindow_spec {opens done : Bool} {address : Option Nat} (h : raw.mapWindow opens address = (done, raw')) :
    (raw'.rRegisters = raw.rRegisters ∧ raw'.rFpga = raw.rFpga ∧ raw'.rTopRegister = raw.rTopRegister ∧
      raw'.rBotRegister = raw.rBotRegister ∧ raw'.rMapSize = raw.rMapSize ∧ raw'.rMapOffset = raw.rMapOffset) ∧
    (done = true → raw.rMapSize ≠ 0) ∧ (done = false → opens = true → address.isSome = true → raw.rMapSize = 0) := by
  unfold TbsRaw.mapWindow at h
  split at h
  next hopens =>
    cases h
    exact ⟨⟨rfl, rfl, rfl, rfl, rfl, rfl⟩, fun hd => (nomatch hd), fun _ ho => absurd (hopens.symm.trans ho) (by decide)⟩
  · split at h
    · cases h
      exact ⟨⟨rfl, rfl, rfl, rfl, rfl, rfl⟩, fun hd => (nomatch hd), fun _ _ ha => (nomatch ha)⟩
    · split at h
      next hzero =>
        cases h
        exact ⟨⟨rfl, rfl, rfl, rfl, rfl, rfl⟩, fun hd => (nomatch hd), fun _ _ _ => hzero⟩
      next hne =>
        cases h
        exact ⟨⟨rfl, rfl, rfl, rfl, rfl, rfl⟩, fun _ => hne, fun hd => (nomatch hd)⟩

/-- A window that covers every register, once it is mapped. -/
theorem WindowInv.mapped {ds : Declarations} (h : WindowInv b raw ds) (hfpga : raw.rFpga = .programmed)
    (hready : raw'.rFpga = .ready)
    (hregisters : raw'.rRegisters = raw.rRegisters.map fun tree name => (tree name).map (fixupOffset raw'.rMapOffset))
    (hbase : ∀ te, Covered b raw te → raw'.rMapOffset ≤ te.ePosBase) (htop : raw'.rTopRegister < 2 ^ 32)
    (hend : raw.rTopRegister ≤ raw'.rMapOffset + raw'.rMapSize) : WindowInv b raw' ds := by
  have hmapped : raw'.isMapped := .inr hready
  refine ⟨htop, fun hunset => ?_, fun name d hd => ?_⟩
  · rcases hunset with hnone | hdown
    · rw [hregisters, Option.map_eq_none_iff] at hnone
      exact h.unset (.inl hnone)
    · rw [hready] at hdown
      cases hdown
  · obtain ⟨te, hte, hloc, hcov⟩ := h.stored name d hd
    have hcovered := hcov hfpga
    refine ⟨_, ?_, hloc.moved (unmapped_of_programmed hfpga) hmapped (hbase te hcovered)
      (Nat.le_trans hcovered.top hend), fun hprogrammed => ?_⟩
    · unfold TbsRaw.findRegister at hte ⊢
      obtain ⟨tree, htree, hname⟩ := Option.bind_eq_some_iff.mp hte
      rw [hregisters, htree, Option.map_some, Option.bind_some]
      dsimp only
      rw [hname, Option.map_some]
    · rw [hready] at hprogrammed
      cases hprogrammed

/-- An attempt that leaves every register where it was. -/
theorem WindowInv.unmoved {ds : Declarations} (h : WindowInv b raw ds) (hfpga : raw.rFpga = .programmed)
    (hstate : raw'.rFpga = raw.rFpga) (hregisters : raw'.rRegisters = raw.rRegisters)
    (htop : raw.rTopRegister ≤ raw'.rTopRegister) (hlt : raw'.rTopRegister < 2 ^ 32)
    (hbot : b.ppc = false → raw'.rBotRegister / b.page * b.page ≤ raw.rBotRegister / b.page * b.page) :
    WindowInv b raw' ds := by
  refine ⟨hlt, fun hunset => h.unset (hregisters ▸ hstate ▸ hunset), fun name d hd => ?_⟩
  obtain ⟨te, hte, hloc, hcov⟩ := h.stored name d hd
  have hcovered := hcov hfpga
  have hunmapped : ¬raw'.isMapped := unmapped_of_programmed (hstate.trans hfpga)
  have haligned := hloc.aligned
  have hposition := hloc.position
  rw [offset_unmapped (unmapped_of_programmed hfpga)] at haligned hposition
  refine ⟨te, ?_, ⟨?_, ?_, hloc.length, fun hm => absurd hm hunmapped⟩, fun _ => ⟨fun hppc => ?_, ?_⟩⟩
  · unfold TbsRaw.findRegister at hte ⊢
    rwa [hregisters]
  · rw [offset_unmapped hunmapped]
    exact haligned
  · rw [offset_unmapped hunmapped]
    exact hposition
  · exact Nat.le_trans (hbot hppc) (hcovered.bottom hppc)
  · exact Nat.le_trans hcovered.top htop

theorem map_fixup_zero (registers : Option RegisterTree) :
    registers.map (fun tree name => (tree name).map (fixupOffset 0)) = registers := by
  have hid : (fun (tree : RegisterTree) name => (tree name).map (fixupOffset 0)) = id := by
    funext tree name
    rw [id]
    cases tree name <;> rfl
  rw [hid, Option.map_id_fun, id]

/-- An attempt to map the fpga: where it succeeds, the registers lie inside the window, and else
they are where they were. -/
theorem mapRaw_inv {ds : Declarations} {opens done : Bool} {address : Option Nat} {low fits : Prop}
    (h : WindowInv b raw ds) (hfpga : raw.rFpga = .programmed)
    (hclear : raw.mayMap → MapClear b opens address low fits) (hlow : low ↔ raw.rBotRegister < b.page)
    (hfits : fits → raw.rTopRegister + b.page ≤ 2 ^ 32) (hs : raw.mapRaw b opens address = some (done, raw')) :
    (done = true → WindowInv b { raw' with rFpga := .ready } ds) ∧
      (done = false → WindowInv b raw' ds ∧ raw'.rRegisters = raw.rRegisters) := by
  unfold TbsRaw.mapRaw at hs
  split at hs
  next hmay =>
    obtain ⟨win, hwin, hmap⟩ := Option.map_eq_some_iff.mp hs
    obtain ⟨⟨hregisters, hstate, htop, hbot, hsize, hoffset⟩, hdone, hfailed⟩ := mapWindow_spec hmap
    unfold TbsRaw.window at hwin
    split at hwin
    next hppc =>
      obtain ⟨power, hpower, rfl⟩ := Option.map_eq_some_iff.mp hwin
      dsimp only at hregisters hstate htop hbot hsize hoffset
      have hcover := growPower_le hpower
      refine ⟨fun _ => ?_, fun _ => ⟨?_, hregisters⟩⟩
      · refine h.mapped hfpga rfl ?_ (fun te _ => ?_) (htop ▸ h.top_lt) ?_
        · dsimp only
          rw [hregisters, hoffset, map_fixup_zero]
        · dsimp only
          rw [hoffset]
          exact Nat.zero_le _
        · dsimp only
          rw [hoffset, hsize]
          omega
      · exact h.unmoved hfpga hstate hregisters (Nat.le_of_eq htop.symm) (htop ▸ h.top_lt) fun _ => by rw [hbot]
    next hppc =>
      cases Option.some.inj hwin
      have hplain : b.ppc = false := Bool.eq_false_iff.mpr hppc
      have hpage := page_pos b
      have hwindow := fitWindow_size b h.top_lt hmay.2.2
      have htop_lt : (raw.fitWindow b).rTopRegister < 2 ^ 32 := by
        unfold TbsRaw.fitWindow
        exact Nat.lt_of_le_of_lt (Nat.div_mul_le_self ..) (Nat.mod_lt _ (by decide))
      refine ⟨fun hd => ?_, fun hd => ?_⟩
      · obtain ⟨hzero, -⟩ | ⟨-, hcover⟩ := hwindow
        · exact absurd hzero (hdone hd)
        · have hrounded : raw'.rMapOffset = raw.rBotRegister / b.page * b.page := hoffset
          refine h.mapped hfpga rfl ?_ (fun te hcov => ?_) (htop ▸ htop_lt) ?_
          · dsimp only
            rw [hregisters, hoffset]
            rfl
          · dsimp only
            rw [hrounded]
            exact hcov.bottom hplain
          · dsimp only
            rw [hrounded, hsize]
            exact hcover
      · have hlow' : raw.rBotRegister < b.page ∧ raw.rTopRegister + b.page ≤ 2 ^ 32 := by
          rcases hclear hmay with hp | ⟨hl, hf⟩ | ⟨hl, hopens, haddress⟩
          · exact absurd hp hppc
          · exact ⟨hlow.mp hl, hfits hf⟩
          · have hzero := hfailed hd hopens haddress
            obtain ⟨-, hbot', -⟩ | ⟨hne, -⟩ := hwindow
            · have hpos := Nat.div_pos (Nat.not_lt.mp fun hlt => hl (hlow.mpr hlt)) hpage
              have hmul := Nat.mul_pos hpos hpage
              omega
            · exact absurd hzero hne
        have hrounded : raw.rBotRegister / b.page * b.page = 0 := by
          rw [Nat.div_eq_of_lt hlow'.1, Nat.zero_mul]
        have hsame : raw'.rRegisters = raw.rRegisters := by
          rw [hregisters]
          unfold TbsRaw.fitWindow
          dsimp only
          rw [hrounded, map_fixup_zero]
        refine ⟨h.unmoved hfpga hstate hsame ?_ (htop ▸ htop_lt) fun _ => ?_, hsame⟩
        · have hsum : (raw.rTopRegister + b.page - 1) % 2 ^ 32 = raw.rTopRegister + b.page - 1 := by omega
          have hdiv := Nat.lt_div_mul_add hpage (a := raw.rTopRegister + b.page - 1)
          rw [htop]
          unfold TbsRaw.fitWindow
          dsimp only
          rw [hsum]
          omega
        · rw [hbot]
          unfold TbsRaw.fitWindow
          dsimp only
          rw [hrounded, Nat.zero_div, Nat.zero_mul]
  next =>
    cases Option.some.inj hs
    exact ⟨fun hd => (nomatch hd), fun _ => ⟨h, rfl⟩⟩

/-- The attempts to map the fpga that failed left every register as it was. -/
def MapsKept (events : List RawEvent) : Prop := ∀ before after, .mapTried false before after ∈ events → after = before

theorem mapsKept_nil : MapsKept [] := fun _ _ hmem => absurd hmem List.not_mem_nil

theorem MapsKept.append {more : List RawEvent} (h : MapsKept events) (h' : MapsKept more) : MapsKept (events ++ more) :=
  fun before after hmem => (List.mem_append.mp hmem).elim (h before after) (h' before after)

theorem indexBof_mapsKept (complete : Bool) (table : List BofReg) (raw : TbsRaw) :
    MapsKept (raw.indexBof complete table).2.2 := by
  induction table generalizing raw with
  | nil => exact mapsKept_nil
  | cons br rest ih =>
    unfold TbsRaw.indexBof
    split
    · exact mapsKept_nil
    · dsimp only
      split
      · intro before after hmem
        rcases List.mem_cons.mp hmem with he | hmem
        · cases he
        · exact ih _ before after hmem
      · exact mapsKept_nil

/-- The fpga as a stop leaves it, with the extent of no register. -/
structure Cleared (raw : TbsRaw) : Prop where
  registers : raw.rRegisters = none
  top : raw.rTopRegister = 0
  bot : raw.rBotRegister = 0

theorem stopFpga_cleared (raw : TbsRaw) (opens : Bool) : Cleared (raw.stopFpga opens).2 := by
  unfold TbsRaw.stopFpga
  dsimp only
  split
  · split <;> exact ⟨rfl, rfl, rfl⟩
  · exact ⟨rfl, rfl, rfl⟩

/-- `start_bof_tbs` after a stop. -/
theorem startBof_inv {f : BofFile} (hcleared : Cleared raw)
    (hclear : f.programs = true → TableFits b f.table ∧ (f.complete = true →
      MapClear b f.opens f.address (∀ br ∈ f.table, br.loc.toNat < b.page)
        (∀ br ∈ f.table, br.loc.toNat + br.len.toNat + b.page ≤ 2 ^ 32)))
    {outcome : Attempt} (hs : raw.startBof b f = some (outcome, raw', events)) :
    WindowInv b raw' (events.foldl declare fun _ => none) ∧ MapsKept events := by
  have hpage := page_pos b
  have htop_lt : raw.rTopRegister < 2 ^ 32 := by
    rw [hcleared.top]
    decide
  unfold TbsRaw.startBof at hs
  rw [hcleared.registers, if_neg (by simp)] at hs
  dsimp only at hs
  split at hs
  · cases Option.some.inj hs
    exact ⟨.empty (fun _ => rfl) htop_lt, mapsKept_nil⟩
  next hprograms =>
    obtain ⟨hfits, hmapClear⟩ := hclear (Bool.not_eq_false _ |>.mp hprograms)
    have hempty : WindowInv b { raw with rRegisters := some fun _ => none, rFpga := .programmed } fun _ => none :=
      .empty (fun _ => rfl) htop_lt
    have hextent : Extent b { raw with rRegisters := some fun _ => none, rFpga := .programmed } f.table := by
      refine ⟨fun _ br _ => ?_, fun m _ hpos => ?_, fun m _ => ?_⟩
      · dsimp only
        rw [hcleared.bot, Nat.zero_div, Nat.zero_mul]
        exact Nat.zero_le _
      · dsimp only
        rwa [hcleared.bot]
      · dsimp only
        rw [hcleared.top]
        exact Nat.zero_le m
    cases hindex : TbsRaw.indexBof f.complete f.table
        { raw with rRegisters := some fun _ => none, rFpga := .programmed } with
    | mk indexed tail =>
      obtain ⟨next, more⟩ := tail
      obtain ⟨hinv, hext, hfpga, -, hdone⟩ := indexBof_inv hfits f.table (fun br hbr => hbr) hempty hextent rfl rfl
        (fun _ _ _ hd => (nomatch hd)) hindex
      have hkept := indexBof_mapsKept f.complete f.table
        { raw with rRegisters := some fun _ => none, rFpga := .programmed }
      rw [hindex] at hkept hs
      dsimp only at hkept hs
      split at hs
      · cases Option.some.inj hs
        exact ⟨hinv, hkept⟩
      next hindexed =>
        obtain ⟨hcomplete, hreach⟩ := hdone (Bool.not_eq_false _ |>.mp hindexed)
        obtain ⟨⟨done, win⟩, hmap, heq⟩ := Option.map_eq_some_iff.mp hs
        have hlow : (∀ br ∈ f.table, br.loc.toNat < b.page) ↔ next.rBotRegister < b.page :=
          ⟨fun hall => hext.low b.page hall hpage, fun hlt br hbr => Nat.lt_of_le_of_lt (hreach br hbr) hlt⟩
        have hends : (∀ br ∈ f.table, br.loc.toNat + br.len.toNat + b.page ≤ 2 ^ 32) →
            next.rTopRegister + b.page ≤ 2 ^ 32 := by
          intro hall
          have hle := b.small
          have hpage_lt : b.page < 2 ^ 32 := Nat.pow_lt_pow_right (by decide) hle
          have htop := hext.ends (2 ^ 32 - b.page) fun br hbr => by
            have hone := hall br hbr
            omega
          omega
        obtain ⟨hyes, hno⟩ := mapRaw_inv hinv hfpga (fun _ => hmapClear hcomplete) hlow hends hmap
        dsimp only at heq
        have hsame : ∀ before after, (more ++ [RawEvent.mapTried done before after]).foldl declare (fun _ => none) =
            more.foldl declare fun _ => none := by
          intro before after
          rw [List.foldl_append]
          rfl
        split at heq
        next hd =>
          cases heq
          refine ⟨?_, hkept.append fun before after hmem => ?_⟩
          · rw [hsame]
            exact hyes hd
          · simp [hd] at hmem
        next hd =>
          cases heq
          obtain ⟨hw, hregisters⟩ := hno (Bool.eq_false_iff.mpr hd)
          refine ⟨?_, hkept.append fun before after hmem => ?_⟩
          · rw [hsame]
            exact hw
          · obtain ⟨-, rfl, rfl⟩ := RawEvent.mapTried.inj (List.mem_singleton.mp hmem)
            exact hregisters

/-- What a step makes of the declarations it finds. -/
structure Serves (b : RawBuild) (ds : Declarations) (raw : TbsRaw) (events : List RawEvent) : Prop where
  window : WindowInv b raw (events.foldl declare ds)
  kept : MapsKept events

variable {ds : Declarations} {more : List RawEvent} {s s' : RawServer} {client : Text}

/-- Events that say nothing of registers may follow. -/
theorem Serves.attempted (h : Serves b ds raw events) (outcome : Attempt) :
    Serves b ds raw (events ++ [.attempted outcome]) := by
  refine ⟨?_, h.kept.append fun _ _ hmem => by simp at hmem⟩
  rw [List.foldl_append]
  exact h.window

theorem Serves.image (h : Serves b ds raw events) (image : Option Text) : Serves b ds { raw with rImage := image } events :=
  ⟨h.window.same rfl rfl rfl rfl rfl rfl, h.kept⟩

theorem stop_serves (s : RawServer) (client : Text) (opens : Bool) (ds : Declarations) :
    Cleared (s.stop client opens).2.1.raw ∧ (s.stop client opens).2.2.foldl declare ds = (fun _ => none) ∧
      Serves b ds (s.stop client opens).2.1.raw (s.stop client opens).2.2 := by
  have hcleared : Cleared (s.stop client opens).2.1.raw := stopFpga_cleared s.raw opens
  refine ⟨hcleared, rfl, .empty (fun _ => rfl) ?_, fun _ _ hmem => ?_⟩
  · rw [hcleared.top]
    decide
  · unfold RawServer.stop at hmem
    simp at hmem

theorem programImage_serves (hcleared : Cleared s.raw) {image : ImageFile} (hclear : BofClear b image)
    {result : KatcpResult} (hs : s.programImage b client image = some (result, s', events)) :
    Serves b (fun _ => none) s'.raw events := by
  have hnothing : Serves b (fun _ => none) s.raw [] := by
    refine ⟨.empty (fun _ => rfl) ?_, mapsKept_nil⟩
    rw [hcleared.top]
    decide
  unfold RawServer.programImage at hs
  split at hs
  · cases Option.some.inj hs
    exact hnothing.attempted .failed
  · cases Option.some.inj hs
    exact hnothing.attempted .failed
  next f =>
    obtain ⟨⟨outcome, raw, more⟩, hstart, heq⟩ := Option.map_eq_some_iff.mp hs
    cases heq
    obtain ⟨hwindow, hkept⟩ := startBof_inv hcleared (hclear f rfl) hstart
    have hstep : Serves b (fun _ => none) raw (.step client s.raw.rLkey :: more) := by
      refine ⟨hwindow, fun before after hmem => ?_⟩
      rcases List.mem_cons.mp hmem with he | hmem
      · cases he
      · exact hkept before after hmem
    exact hstep.attempted outcome
  next launch =>
    have hlaunch : Serves b (fun _ => none) (s.launch .kcpfpg client launch).2.raw [] := by
      rw [RawServer.launch_raw]
      exact hnothing
    dsimp only at hs
    split at hs
    · cases Option.some.inj hs
      exact hlaunch
    · cases Option.some.inj hs
      exact hlaunch.attempted .failed

/-- What follows a stop. -/
theorem Serves.after {opens : Bool} (h : Serves b (fun _ => none) raw more) :
    Serves b ds raw ((s.stop client opens).2.2 ++ more) := by
  obtain ⟨-, hds, hstop⟩ := stop_serves (b := b) s client opens ds
  refine ⟨?_, hstop.kept.append h.kept⟩
  rw [List.foldl_append, hds]
  exact h.window

theorem progdevCmd_serves (h : WindowInv b s.raw ds) {args : Words} {opens : Bool} {image : ImageFile} {o : RawOutcome}
    (hclear : RegistersClear b s (.progdev client args opens image))
    (hs : s.progdevCmd b client args opens image = some o) : Serves b ds o.server.raw o.events := by
  unfold RawServer.progdevCmd at hs
  split at hs
  · cases Option.some.inj hs
    exact ⟨h, mapsKept_nil⟩
  next hfree =>
    have himage := hclear (Bool.eq_false_iff.mpr fun hl => hfree (.inl hl)) (Bool.eq_false_iff.mpr fun hk => hfree (.inr hk))
    obtain ⟨hcleared, -, hstop⟩ := stop_serves (b := b) s client opens ds
    dsimp only at hs
    split at hs
    · cases Option.some.inj hs
      exact hstop
    · split at hs
      · cases Option.some.inj hs
        exact hstop.attempted .failed
      next file hfile =>
        split at hs
        · cases Option.some.inj hs
          exact hstop.attempted .failed
        next hslash =>
          obtain ⟨⟨result, t, more⟩, hprogram, heq⟩ := Option.map_eq_some_iff.mp hs
          have hdone := programImage_serves hcleared (himage file hfile hslash) hprogram
          cases heq
          dsimp only
          split
          · exact (hdone.image (some file)).after
          · exact hdone.after

theorem uploadBinCmd_serves (h : WindowInv b s.raw ds) (client : Text) (port : Option Nat) (opens : Bool)
    (launch : Launch) : Serves b ds (s.uploadBinCmd client port opens launch).server.raw
      (s.uploadBinCmd client port opens launch).events := by
  obtain ⟨-, -, hstop⟩ := stop_serves (b := b) s client opens ds
  unfold RawServer.uploadBinCmd
  split
  · exact ⟨h, mapsKept_nil⟩
  · split
    · exact ⟨h, mapsKept_nil⟩
    · split
      · exact ⟨h, mapsKept_nil⟩
      · dsimp only
        split
        · exact hstop.attempted .failed
        · rw [← RawServer.launch_raw _ .bin client launch] at hstop
          split
          · exact hstop
          · exact hstop.attempted .failed

theorem uploadProgramCmd_serves (h : WindowInv b s.raw ds) (client : Text) (port : Option Nat) (opens : Bool)
    (launch : Launch) : Serves b ds (s.uploadProgramCmd client port opens launch).server.raw
      (s.uploadProgramCmd client port opens launch).events := by
  obtain ⟨-, -, hstop⟩ := stop_serves (b := b) s client opens ds
  unfold RawServer.uploadProgramCmd
  split
  · exact ⟨h, mapsKept_nil⟩
  · split
    · exact ⟨h, mapsKept_nil⟩
    · split
      · exact ⟨h, mapsKept_nil⟩
      · dsimp only
        rw [← RawServer.launch_raw _ .remote client launch] at hstop
        split
        · exact hstop
        · exact hstop.attempted .failed

theorem uploadProgramPartial_serves (h : WindowInv b s.raw ds) {ok opens : Bool} {image : ImageFile}
    (hclear : ok = true → s.inFlight .kcpfpg = false → BofClear b image)
    (hs : s.uploadProgramPartial b client ok opens image = some (s', events)) : Serves b ds s'.raw events := by
  have hnothing : Serves b ds s.raw [] := ⟨h, mapsKept_nil⟩
  unfold RawServer.uploadProgramPartial at hs
  split at hs
  · cases Option.some.inj hs
    exact hnothing.attempted .failed
  next hfree =>
    have himage := hclear (Bool.not_eq_false _ |>.mp fun hf => hfree (.inl hf))
      (Bool.eq_false_iff.mpr fun hk => hfree (.inr hk))
    obtain ⟨hcleared, -, hstop⟩ := stop_serves (b := b) s client opens ds
    dsimp only at hs
    split at hs
    · cases Option.some.inj hs
      exact hstop.attempted .failed
    · obtain ⟨⟨result, t, more⟩, hprogram, heq⟩ := Option.map_eq_some_iff.mp hs
      have hdone := programImage_serves hcleared himage hprogram
      cases heq
      exact hdone.after

theorem uploadBinComplete_serves (h : WindowInv b s.raw ds) (client : Text) (ok : Bool) :
    Serves b ds (s.uploadBinComplete client ok).1.raw (s.uploadBinComplete client ok).2 := by
  have hnothing : Serves b ds s.raw [] := ⟨h, mapsKept_nil⟩
  cases ok with
  | false => exact hnothing.attempted .failed
  | true =>
    have hstart : WindowInv b s.raw.startFpg.2 ds := by
      unfold TbsRaw.startFpg
      split
      · exact h
      next hnone =>
        have hnone : s.raw.rRegisters = none := by simpa using hnone
        exact .empty (h.unset (.inl hnone)) (Nat.two_pow_pos 32)
    exact ⟨hstart, fun _ _ hmem => by simp [RawServer.uploadBinComplete] at hmem⟩

theorem registerCmd_serves (h : WindowInv b raw ds)
    (hfits : raw.rFpga ≠ .down → raw.findRegister name = none ∨ raw.rClobber = true → d.Fits) :
    Serves b ds (raw.registerCmd name d).2.1 (raw.registerCmd name d).2.2 := by
  unfold TbsRaw.registerCmd
  split
  · exact ⟨h, mapsKept_nil⟩
  next hfree =>
    have hfpga : raw.rFpga ≠ .down := fun he => hfree (.inl he)
    have hfits := hfits hfpga (by
      by_contra hnot
      push Not at hnot
      exact hfree (.inr ⟨Option.isSome_iff_ne_none.mpr hnot.1, by simpa using hnot.2⟩))
    split
    · exact ⟨h, mapsKept_nil⟩
    · cases hplace : raw.placeRegister name d.entry with
      | mk stored next =>
        have hinv := placeRegister_inv h hfits hfpga hplace
        dsimp only
        split
        next hs =>
          rw [if_pos hs] at hinv
          exact ⟨hinv, fun _ _ hmem => by simp at hmem⟩
        next hs =>
          rw [if_neg hs] at hinv
          exact ⟨hinv, mapsKept_nil⟩

theorem finaliseCmd_serves (h : WindowInv b raw ds) {opens : Bool} {address : Option Nat} {code : ResultCode}
    (hclear : raw.mayMap → MapClear b opens address (raw.rBotRegister < b.page) (raw.rTopRegister + b.page ≤ 2 ^ 32))
    (hs : raw.finaliseCmd b opens address = some (code, raw', events)) : Serves b ds raw' events := by
  unfold TbsRaw.finaliseCmd at hs
  split at hs
  next hfpga =>
    obtain ⟨⟨done, win⟩, hmap, heq⟩ := Option.map_eq_some_iff.mp hs
    obtain ⟨hyes, hno⟩ := mapRaw_inv h hfpga hclear Iff.rfl id hmap
    dsimp only at heq
    split at heq
    next hd =>
      cases heq
      exact ⟨hyes hd, fun _ _ hmem => by simp [hd] at hmem⟩
    next hd =>
      cases heq
      obtain ⟨hw, hregisters⟩ := hno (Bool.eq_false_iff.mpr hd)
      refine ⟨hw, fun before after hmem => ?_⟩
      obtain ⟨-, rfl, rfl⟩ := RawEvent.mapTried.inj (List.mem_singleton.mp hmem)
      exact hregisters
  next hfpga =>
    cases Option.some.inj hs
    refine ⟨⟨h.top_lt, fun hunset => h.unset (hunset.imp id fun hdown => (nomatch hdown)), fun name d hd => ?_⟩,
      mapsKept_nil⟩
    obtain ⟨te, hte, hloc, -⟩ := h.stored name d hd
    have hmapped : raw.isMapped := .inl hfpga
    have hoffset : raw.offset = raw.rMapOffset := if_pos hmapped
    have haligned := hloc.aligned
    have hposition := hloc.position
    rw [hoffset] at haligned hposition
    exact ⟨te, hte, ⟨haligned, hposition, hloc.length, fun _ => hloc.inside hmapped⟩, fun hp => (nomatch hp)⟩
  · cases Option.some.inj hs
    exact ⟨h, mapsKept_nil⟩
  · cases Option.some.inj hs
    exact ⟨h, mapsKept_nil⟩

structure RegistersInv (b : RawBuild) (s : RawServer) (log : List RawEvent) : Prop where
  window : WindowInv b s.raw (declaredIn log)
  kept : MapsKept log

theorem Serves.quiet (h : WindowInv b raw ds) (hregisters : raw'.rRegisters = raw.rRegisters)
    (hfpga : raw'.rFpga = raw.rFpga) (htop : raw'.rTopRegister = raw.rTopRegister)
    (hbot : raw'.rBotRegister = raw.rBotRegister) (hsize : raw'.rMapSize = raw.rMapSize)
    (hoffset : raw'.rMapOffset = raw.rMapOffset) : Serves b ds raw' [] :=
  ⟨h.same hregisters hfpga htop hbot hsize hoffset, mapsKept_nil⟩

theorem metaCmd_serves (h : WindowInv b raw ds) (args : Words) : Serves b ds (raw.metaCmd args).2 [] := by
  unfold TbsRaw.metaCmd
  split
  · exact .quiet h rfl rfl rfl rfl rfl rfl
  · split
    · split
      · exact .quiet h rfl rfl rfl rfl rfl rfl
      · split
        · exact .quiet h rfl rfl rfl rfl rfl rfl
        · split <;> exact .quiet h rfl rfl rfl rfl rfl rfl
    · split
      · split <;> exact .quiet h rfl rfl rfl rfl rfl rfl
      · exact .quiet h rfl rfl rfl rfl rfl rfl

theorem lockdevCmd_serves (h : WindowInv b s.raw ds) (client : Text) (args : Words) :
    Serves b ds (s.lockdevCmd client args).server.raw [] := by
  unfold RawServer.lockdevCmd
  split
  · exact .quiet h rfl rfl rfl rfl rfl rfl
  · split <;> exact .quiet h rfl rfl rfl rfl rfl rfl

theorem unlockdevCmd_serves (h : WindowInv b s.raw ds) {args : Words} {o : RawOutcome}
    (ho : s.unlockdevCmd client args = some o) : Serves b ds o.server.raw [] := by
  unfold RawServer.unlockdevCmd at ho
  split at ho
  · cases Option.some.inj ho
    exact .quiet h rfl rfl rfl rfl rfl rfl
  · dsimp only at ho
    split at ho
    · cases Option.some.inj ho
      exact .quiet h rfl rfl rfl rfl rfl rfl
    · split at ho
      · cases Option.some.inj ho
        split <;> exact .quiet h rfl rfl rfl rfl rfl rfl
      · split at ho
        · obtain ⟨given, -, rfl⟩ := Option.map_eq_some_iff.mp ho
          split <;> exact .quiet h rfl rfl rfl rfl rfl rfl
        · cases Option.some.inj ho
          exact .quiet h rfl rfl rfl rfl rfl rfl

theorem registers_keep (b : RawBuild) : (rawMachine b).Keeps (RegistersClear b) (RegistersInv b) := by
  refine Machine.keeps_of_act (f := fun s a => s.act b a) (fun _ _ => rfl) (fun _ _ => rfl)
    fun s log a next out h hok hact => ?_
  suffices hserves : Serves b (declaredIn log) next.raw out by
    refine ⟨?_, h.kept.append hserves.kept⟩
    unfold declaredIn
    rw [List.foldl_append]
    exact hserves.window
  have hw := h.window
  cases a with
  | progdev client args opens image =>
    obtain ⟨o, ho, heq⟩ := Option.map_eq_some_iff.mp hact
    cases heq
    exact progdevCmd_serves hw hok ho
  | uploadBin client port opens launch =>
    cases Option.some.inj hact
    exact uploadBinCmd_serves hw ..
  | progremote client port opens launch =>
    cases Option.some.inj hact
    exact uploadProgramCmd_serves hw ..
  | lockdev client args =>
    cases Option.some.inj hact
    exact lockdevCmd_serves hw ..
  | unlockdev client args =>
    obtain ⟨o, ho, heq⟩ := Option.map_eq_some_iff.mp hact
    cases heq
    exact unlockdevCmd_serves hw ho
  | register name d =>
    cases Option.some.inj hact
    exact registerCmd_serves hw hok
  | metaEntry args =>
    cases Option.some.inj hact
    exact metaCmd_serves hw args
  | finalise opens address =>
    obtain ⟨⟨code, raw, more⟩, hfinal, heq⟩ := Option.map_eq_some_iff.mp hact
    cases heq
    exact finaliseCmd_serves hw hok hfinal
  | clobber enabled =>
    cases Option.some.inj hact
    exact .quiet hw rfl rfl rfl rfl rfl rfl
  | tapStart name tap works =>
    cases Option.some.inj hact
    unfold TbsRaw.insertTap
    dsimp only [RawServer.withRaw]
    split <;> exact .quiet hw rfl rfl rfl rfl rfl rfl
  | tapStop tap =>
    cases Option.some.inj hact
    exact .quiet hw rfl rfl rfl rfl rfl rfl
  | transfer =>
    obtain ⟨r, -, heq⟩ := Option.map_eq_some_iff.mp hact
    cases heq
    exact ⟨hw, fun _ _ hmem => by simp at hmem⟩
  | binDone ok =>
    obtain ⟨⟨client, t⟩, hland, heq⟩ := Option.map_eq_some_iff.mp hact
    obtain ⟨f, -, -, -, -, rfl⟩ := RawServer.land_some hland
    have hdone := uploadBinComplete_serves (s := { s with flights := s.flights.erase f }) hw client ok
    dsimp only at heq
    rwa [heq] at hdone
  | remoteDone ok opens image =>
    obtain ⟨⟨client, t⟩, hland, hpart⟩ := Option.bind_eq_some_iff.mp hact
    obtain ⟨f, hf, hkind, -, -, rfl⟩ := RawServer.land_some hland
    refine uploadProgramPartial_serves (s := { s with flights := s.flights.erase f }) hw (fun hok' hkcpfpg => ?_) hpart
    exact hok hok' (RawServer.inFlight_erase (by rw [hkind]; decide) hkcpfpg)
  | kcpfpgDone =>
    obtain ⟨⟨client, t⟩, hland, heq⟩ := Option.map_eq_some_iff.mp hact
    obtain ⟨f, -, -, -, -, rfl⟩ := RawServer.land_some hland
    cases heq
    exact .quiet hw rfl rfl rfl rfl rfl rfl
  | collect f =>
    obtain ⟨-, heq⟩ := Option.ite_none_right_eq_some.mp hact
    cases heq
    exact .quiet hw rfl rfl rfl rfl rfl rfl

/-- In a run whose declarations, bof files and attempts to map the fpga are clear, every register
lies where it was declared, and a failed attempt changes none. -/
theorem registers_placed {b : RawBuild} {s : RawServer} {log : List RawEvent}
    (h : (rawMachine b).Runs (RegistersClear b) s log) : RegistersPlaced s log := by
  have hinv := h.invariant (RegistersInv b) ⟨.empty (fun _ => rfl) (Nat.two_pow_pos 32), mapsKept_nil⟩
    (registers_keep b)
  refine ⟨fun name d hd => ?_, hinv.kept⟩
  obtain ⟨te, hte, hloc, -⟩ := hinv.window.stored name d hd
  exact ⟨te, hte, hloc⟩

/-- A bitstream is uploaded, and a register declared. -/
def declaredRun (d : Declaration) : List RawAction :=
  [.uploadBin (textOf "a") none true .runs, .binDone true, .register (textOf "r") d]

def pageRun : List RawAction :=
  [.uploadBin (textOf "a") none true .runs, .binDone true, .register (textOf "r") ⟨4102, 3, some (2, 5)⟩,
    .finalise true (some 0x40000000)]

theorem pageRun_meets : (rawMachine hostBuild).Meets (RegistersClear hostBuild) .setupRaw pageRun := by
  refine ⟨trivial, fun s hs => ?_⟩
  cases hs
  refine ⟨trivial, fun s hs => ?_⟩
  cases hs
  refine ⟨fun _ _ => ⟨by decide, by decide, fun bytes bits he => ?_, by decide⟩, fun s hs => ?_⟩
  · cases he
    decide
  · cases hs
    exact ⟨fun _ => .inr (.inr ⟨by decide, rfl, rfl⟩), fun _ _ => trivial⟩

/-- A register in the second page, once the fpga is mapped. -/
theorem registers_placed_page : ∃ s log, RegistersPlaced s log ∧
    s.raw.findRegister (textOf "r") = some (fixupOffset 4096 (Declaration.entry ⟨4102, 3, some (2, 5)⟩)) ∧
    s.raw.rMapOffset = 4096 :=
  ⟨_, _, registers_placed (Machine.Runs.exec (.start (m := rawMachine hostBuild)) pageRun rfl pageRun_meets), rfl, rfl⟩

/-- A register whose bits come to more than a word is stored some words too low, and a failed
attempt to map the fpga moves a register. -/
theorem registers_misplaced : (∃ s log, (rawMachine hostBuild).Runs (fun _ _ => True) s log ∧ ¬RegistersPlaced s log) ∧
    ∃ s log, (rawMachine hostBuild).Runs (fun _ _ => True) s log ∧ ¬RegistersPlaced s log ∧
      s.raw.findRegister (textOf "r") = some (fixupOffset 4096 (Declaration.entry ⟨4096, 0, none⟩)) := by
  refine ⟨⟨_, _, Machine.Runs.exec (.start (m := rawMachine hostBuild)) (declaredRun ⟨16, 40, none⟩) rfl
    (Machine.meets_true ..), fun h => ?_⟩, ⟨_, _, Machine.Runs.exec (.start (m := rawMachine hostBuild))
    (declaredRun ⟨4096, 0, none⟩ ++ [.finalise false none]) rfl (Machine.meets_true ..), fun h => ?_, rfl⟩⟩
  · obtain ⟨te, hte, hloc⟩ := h.placed (textOf "r") ⟨16, 40, none⟩ rfl
    cases Option.some.inj hte
    exact absurd hloc.position (by decide)
  · obtain ⟨te, hte, hloc⟩ := h.placed (textOf "r") ⟨4096, 0, none⟩ rfl
    cases Option.some.inj hte
    exact absurd hloc.position (by decide)

end Katcp
