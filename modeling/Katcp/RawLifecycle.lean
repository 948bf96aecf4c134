import Katcp.RawFlights

namespace Katcp

open Function

variable {b : RawBuild} {s s' t : RawServer} {raw raw' : TbsRaw} {client : Text} {events more log : List RawEvent}

/-- What holds together at any time: the trees while the fpga is not down, the mapping while it is
mapped, and tap instances only while it is ready. -/
structure Settled (raw : TbsRaw) : Prop where
  trees : raw.rFpga ≠ .down → raw.rRegisters.isSome = true ∧ raw.rMeta.isSome = true
  mapping : raw.rFpga = .mapped ∨ raw.rFpga = .ready → ∃ a, raw.rMap = .placed a ∧ (a, raw.rMapSize) ∈ raw.live
  taps : raw.rTaps ≠ [] → raw.rFpga = .ready

/-- A programming attempt that follows a failed one is not refused. -/
def FailureForgotten (log : List RawEvent) : Prop :=
  ∀ a b c, log = a ++ .attempted .failed :: (b ++ .attempted .refused :: c) → ∃ outcome, .attempted outcome ∈ b

/-- What a step leaves as it is when it changes the content of a tree at most. -/
structure SameShape (raw raw' : TbsRaw) : Prop where
  fpga : raw'.rFpga = raw.rFpga
  registers : raw'.rRegisters.isSome = raw.rRegisters.isSome
  metas : raw'.rMeta.isSome = raw.rMeta.isSome
  map : raw'.rMap = raw.rMap
  size : raw'.rMapSize = raw.rMapSize
  live : raw'.live = raw.live
  taps : raw'.rTaps = raw.rTaps

theorem SameShape.refl (raw : TbsRaw) : SameShape raw raw := ⟨rfl, rfl, rfl, rfl, rfl, rfl, rfl⟩

namespace Settled

theorem same (h : Settled raw) (hsame : SameShape raw raw') : Settled raw' := by
  obtain ⟨hfpga, hregisters, hmetas, hmap, hsize, hlive, htaps⟩ := hsame
  refine ⟨fun hdown => ?_, fun hmapped => ?_, fun hne => ?_⟩
  · rw [hregisters, hmetas]
    exact h.trees (hfpga ▸ hdown)
  · rw [hmap, hsize, hlive]
    exact h.mapping (hfpga ▸ hmapped)
  · rw [hfpga]
    exact h.taps (htaps ▸ hne)

/-- Without taps, an fpga that is down or just programmed. -/
theorem down (hfpga : raw.rFpga = .down) (htaps : raw.rTaps = []) : Settled raw :=
  ⟨fun hne => absurd hfpga hne, fun hmapped => by simp [hfpga] at hmapped, fun hne => absurd htaps hne⟩

theorem programmed (hfpga : raw.rFpga = .programmed) (hregisters : raw.rRegisters.isSome = true)
    (hmetas : raw.rMeta.isSome = true) (htaps : raw.rTaps = []) : Settled raw :=
  ⟨fun _ => ⟨hregisters, hmetas⟩, fun hmapped => by simp [hfpga] at hmapped, fun hne => absurd htaps hne⟩

/-- Where the fpga is down there are no taps. -/
theorem taps_nil (h : Settled raw) (hfpga : raw.rFpga ≠ .ready) : raw.rTaps = [] := by
  by_contra hne
  exact hfpga (h.taps hne)

end Settled

namespace TbsRaw

/-- A stop that can open the configuration device, or finds nothing to stop, takes the fpga down. -/
theorem stopFpga_down {opens : Bool} (h : opens = true ∨ raw.rFpga = .down) :
    (raw.stopFpga opens).1 = true ∧ (raw.stopFpga opens).2.rFpga = .down ∧
      (raw.stopFpga opens).2.rRegisters = none ∧ (raw.stopFpga opens).2.rTaps = [] := by
  unfold stopFpga unmapRaw
  cases hfpga : raw.rFpga with
  | down => simp
  | programmed =>
    have hopens : opens = true := by simpa [hfpga] using h
    simp [hopens]
  | mapped =>
    have hopens : opens = true := by simpa [hfpga] using h
    simp [hopens]
  | ready =>
    have hopens : opens = true := by simpa [hfpga] using h
    simp [hopens]

theorem storeRegister_shape (raw : TbsRaw) (name : Text) (te : TbsEntry) :
    SameShape raw (raw.storeRegister name te).2 := by
  unfold storeRegister
  split
  next hnone => exact .refl raw
  next tree htree => exact ⟨rfl, by rw [htree]; rfl, rfl, rfl, rfl, rfl, rfl⟩

theorem placeRegister_shape (raw : TbsRaw) (name : Text) (te : TbsEntry) :
    SameShape raw (raw.placeRegister name te).2 := by
  unfold placeRegister
  split
  · split
    · exact .refl raw
    · split
      · exact .refl raw
      · exact storeRegister_shape ..
  · obtain ⟨hfpga, hregisters, hmetas, hmap, hsize, hlive, htaps⟩ := storeRegister_shape { raw with
      rBotRegister := if te.ePosBase < raw.rBotRegister then te.ePosBase else raw.rBotRegister
      rTopRegister := if raw.rTopRegister < te.last then te.last else raw.rTopRegister } name te
    exact ⟨hfpga, hregisters, hmetas, hmap, hsize, hlive, htaps⟩

theorem registerCmd_shape (raw : TbsRaw) (name : Text) (d : Declaration) :
    SameShape raw (raw.registerCmd name d).2.1 := by
  unfold registerCmd
  split
  · exact .refl raw
  · split
    · exact .refl raw
    · dsimp only
      split <;> exact placeRegister_shape ..

theorem metaCmd_shape (raw : TbsRaw) (args : Words) : SameShape raw (raw.metaCmd args).2 := by
  unfold metaCmd
  split
  · exact .refl raw
  · split
    · split
      · exact .refl raw
      · split
        · exact .refl raw
        · split
          next hnone => exact .refl raw
          next tree htree => exact ⟨rfl, rfl, by rw [htree]; rfl, rfl, rfl, rfl, rfl⟩
    · split
      · split <;> exact .refl raw
      · exact .refl raw

theorem window_shape {win : TbsRaw} (h : raw.window b = some win) : win.rFpga = raw.rFpga ∧
    win.rRegisters.isSome = raw.rRegisters.isSome ∧ win.rMeta = raw.rMeta ∧ win.rTaps = raw.rTaps := by
  unfold window at h
  split at h
  · obtain ⟨power, -, rfl⟩ := Option.map_eq_some_iff.mp h
    exact ⟨rfl, rfl, rfl, rfl⟩
  · cases Option.some.inj h
    exact ⟨rfl, Option.isSome_map .., rfl, rfl⟩

/-- An attempt to map the fpga leaves the rest in place, and where it succeeds the mapping is
live. -/
theorem mapRaw_shape {opens done : Bool} {address : Option Nat} (h : raw.mapRaw b opens address = some (done, raw')) :
    (raw'.rFpga = raw.rFpga ∧ raw'.rRegisters.isSome = raw.rRegisters.isSome ∧ raw'.rMeta = raw.rMeta ∧
      raw'.rTaps = raw.rTaps) ∧
    (done = true → ∃ a, raw'.rMap = .placed a ∧ (a, raw'.rMapSize) ∈ raw'.live) := by
  unfold mapRaw at h
  split at h
  · obtain ⟨win, hwin, heq⟩ := Option.map_eq_some_iff.mp h
    have hshape := window_shape hwin
    unfold mapWindow at heq
    split at heq
    · cases heq
      exact ⟨hshape, fun hd => (nomatch hd)⟩
    · split at heq
      · cases heq
        exact ⟨hshape, fun hd => (nomatch hd)⟩
      · split at heq
        · cases heq
          exact ⟨hshape, fun hd => (nomatch hd)⟩
        · cases heq
          exact ⟨hshape, fun _ => ⟨_, rfl, List.mem_cons_self ..⟩⟩
  · cases Option.some.inj h
    exact ⟨⟨rfl, rfl, rfl, rfl⟩, fun hd => (nomatch hd)⟩

theorem finaliseCmd_settled (h : Settled raw) {opens : Bool} {address : Option Nat} {code : ResultCode}
    (hs : raw.finaliseCmd b opens address = some (code, raw', events)) :
    Settled raw' ∧ raw'.rRegisters.isSome = raw.rRegisters.isSome ∧ (raw.rFpga = .down → raw'.rFpga = .down) := by
  unfold finaliseCmd at hs
  split at hs
  next hfpga =>
    obtain ⟨⟨done, win⟩, hmap, heq⟩ := Option.map_eq_some_iff.mp hs
    obtain ⟨⟨hwin, hregisters, hmetas, htaps⟩, hlive⟩ := mapRaw_shape hmap
    have hne : raw.rFpga ≠ .down := by simp [hfpga]
    obtain ⟨hr, hm⟩ := h.trees hne
    have hnil := h.taps_nil (by simp [hfpga])
    dsimp only at heq
    split at heq
    next hdone =>
      cases heq
      refine ⟨⟨fun _ => ⟨hregisters.trans hr, hmetas ▸ hm⟩, fun _ => hlive hdone, fun _ => rfl⟩, hregisters, ?_⟩
      simp [hfpga]
    next =>
      cases heq
      exact ⟨.programmed (hwin.trans hfpga) (hregisters.trans hr) (hmetas ▸ hm) (htaps.trans hnil), hregisters,
        by simp [hfpga]⟩
  next hfpga =>
    cases Option.some.inj hs
    exact ⟨⟨fun _ => h.trees (by simp [hfpga]), fun _ => h.mapping (.inl hfpga), fun _ => rfl⟩, rfl, by simp [hfpga]⟩
  · cases Option.some.inj hs
    exact ⟨h, rfl, id⟩
  · cases Option.some.inj hs
    exact ⟨h, rfl, id⟩

theorem insertTap_settled (h : Settled raw) (name tap : Text) (works : Bool) :
    Settled (raw.insertTap name tap works).2 := by
  have hkept : (raw.rTaps.filter (· ≠ tap)) ≠ [] → raw.rFpga = .ready := by
    intro hne
    refine h.taps fun hnil => hne ?_
    rw [hnil]
    rfl
  unfold insertTap
  dsimp only
  split
  next hready => exact ⟨h.trees, h.mapping, fun _ => hready.1⟩
  next => exact ⟨h.trees, h.mapping, hkept⟩

theorem unlinkTap_settled (h : Settled raw) (tap : Text) : Settled (raw.unlinkTap tap) := by
  refine ⟨h.trees, h.mapping, fun hne => h.taps fun hnil => hne ?_⟩
  unfold unlinkTap
  rw [hnil]
  rfl

end TbsRaw

/-- An upload of a bitstream is in flight, and its child runs. -/
def BinRuns (s : RawServer) : Prop := ∃ f ∈ s.flights, f.running = true ∧ f.kind = .bin

/-- A stop finds the fpga down, or the configuration device can be opened. -/
def StopClear (s : RawServer) (opens : Bool) : Prop := opens = true ∨ s.raw.rFpga = .down

/-- No bof file is programmed, and none fails while a bitstream is uploaded. -/
def ImageClear (s : RawServer) (image : ImageFile) : Prop :=
  ∀ f, image = .bof (some f) → f.programs = false ∧ ¬BinRuns s

/-- Every stop is clear, and so is every file that is programmed. -/
def LifecycleClear (s : RawServer) : RawAction → Prop
  | .progdev client args opens image => s.locked client = false → s.inFlight .kcpfpg = false →
      StopClear s opens ∧ ∀ file, argString args 1 = some file → byte '/' ∉ file → ImageClear s image
  | .uploadBin client port opens _ => s.locked client = false → RawServer.sanePort port = true →
      s.inFlight .bin = false → StopClear s opens
  | .progremote client port opens _ => s.locked client = false → RawServer.sanePort port = true →
      s.inFlight .remote = false → StopClear s opens
  | .remoteDone ok opens image => ok = true → s.inFlight .kcpfpg = false → StopClear s opens ∧ ImageClear s image
  | _ => True

/-- The fpga as a stop leaves it. -/
structure Idle (raw : TbsRaw) : Prop where
  fpga : raw.rFpga = .down
  registers : raw.rRegisters = none
  taps : raw.rTaps = []

structure Tidy (s : RawServer) : Prop where
  settled : Settled s.raw
  upload : BinRuns s → s.raw.rRegisters = none ∧ s.raw.rFpga = .down

theorem Idle.tidy (h : Idle s.raw) : Tidy s := ⟨.down h.fpga h.taps, fun _ => ⟨h.registers, h.fpga⟩⟩

namespace RawServer

theorem stop_idle {opens : Bool} (h : StopClear s opens) (client : Text) :
    (s.stop client opens).1 = true ∧ Idle (s.stop client opens).2.1.raw := by
  obtain ⟨hdone, hfpga, hregisters, htaps⟩ := TbsRaw.stopFpga_down h
  exact ⟨hdone, hfpga, hregisters, htaps⟩

theorem stop_unrefused (s : RawServer) (client : Text) (opens : Bool) :
    .attempted .refused ∉ (s.stop client opens).2.2 := by
  unfold stop
  simp

theorem launch_raw (s : RawServer) (kind : FlightKind) (client : Text) (launch : Launch) :
    (s.launch kind client launch).2.raw = s.raw := by
  cases launch with
  | runs => rfl
  | fails left => cases left <;> rfl

theorem programImage_tidy (h : Idle s.raw) {image : ImageFile} (hclear : ImageClear s image) {result : KatcpResult}
    (hs : s.programImage b client image = some (result, s', events)) :
    Tidy s' ∧ .attempted .refused ∉ events := by
  unfold programImage at hs
  split at hs
  · cases Option.some.inj hs
    exact ⟨h.tidy, by simp⟩
  · cases Option.some.inj hs
    exact ⟨h.tidy, by simp⟩
  next f =>
    obtain ⟨hprograms, hruns⟩ := hclear f rfl
    have hfailed : s.raw.startBof b f = some (.failed, { s.raw with rRegisters := some fun _ => none }, []) := by
      unfold TbsRaw.startBof
      rw [h.registers, if_neg (by simp), if_pos hprograms]
    rw [hfailed] at hs
    cases Option.some.inj hs
    exact ⟨⟨.down h.fpga h.taps, fun hbin => absurd hbin hruns⟩, by simp⟩
  next launch =>
    have hlaunch : Idle (s.launch .kcpfpg client launch).2.raw := by
      rw [launch_raw]
      exact h
    dsimp only at hs
    split at hs
    · cases Option.some.inj hs
      exact ⟨hlaunch.tidy, by simp⟩
    · cases Option.some.inj hs
      exact ⟨hlaunch.tidy, by simp⟩

theorem progdevCmd_tidy (h : Tidy s) {args : Words} {opens : Bool} {image : ImageFile} {o : RawOutcome}
    (hclear : LifecycleClear s (.progdev client args opens image))
    (hs : s.progdevCmd b client args opens image = some o) : Tidy o.server ∧ .attempted .refused ∉ o.events := by
  unfold progdevCmd at hs
  split at hs
  · cases Option.some.inj hs
    exact ⟨h, List.not_mem_nil⟩
  · next hfree =>
    have hlocked : s.locked client = false := Bool.eq_false_iff.mpr fun hl => hfree (.inl hl)
    have hkcpfpg : s.inFlight .kcpfpg = false := Bool.eq_false_iff.mpr fun hk => hfree (.inr hk)
    obtain ⟨hstop, himage⟩ := hclear hlocked hkcpfpg
    have hidle := (stop_idle hstop client).2
    have hquiet := stop_unrefused s client opens
    dsimp only at hs
    split at hs
    · cases Option.some.inj hs
      exact ⟨hidle.tidy, hquiet⟩
    · split at hs
      · cases Option.some.inj hs
        exact ⟨hidle.tidy, by simp [hquiet]⟩
      next file hfile =>
        split at hs
        · cases Option.some.inj hs
          exact ⟨hidle.tidy, by simp [hquiet]⟩
        next hslash =>
          obtain ⟨⟨result, t, more⟩, hprogram, heq⟩ := Option.map_eq_some_iff.mp hs
          obtain ⟨htidy, hmore⟩ := programImage_tidy hidle (himage file hfile hslash) hprogram
          cases heq
          refine ⟨⟨htidy.settled.same ?_, fun hbin => ?_⟩, by simp [hquiet, hmore]⟩
          · dsimp only
            split <;> exact ⟨rfl, rfl, rfl, rfl, rfl, rfl, rfl⟩
          · have hupload := htidy.upload hbin
            dsimp only
            split <;> exact hupload

theorem uploadBinCmd_tidy (h : Tidy s) {port : Option Nat} {opens : Bool} {launch : Launch}
    (hclear : LifecycleClear s (.uploadBin client port opens launch)) :
    Tidy (s.uploadBinCmd client port opens launch).server ∧
      .attempted .refused ∉ (s.uploadBinCmd client port opens launch).events := by
  unfold uploadBinCmd
  split
  · exact ⟨h, List.not_mem_nil⟩
  next hlocked =>
    split
    · exact ⟨h, List.not_mem_nil⟩
    next hport =>
      split
      · exact ⟨h, List.not_mem_nil⟩
      next hbin =>
        have hstop := hclear (Bool.eq_false_iff.mpr hlocked) (Bool.not_eq_false _ |>.mp hport) (Bool.eq_false_iff.mpr hbin)
        have hidle := (stop_idle hstop client).2
        have hquiet := stop_unrefused s client opens
        have hlaunch : Idle ((s.stop client opens).2.1.launch .bin client launch).2.raw := by
          rw [launch_raw]
          exact hidle
        dsimp only
        split
        · exact ⟨hidle.tidy, by simp [hquiet]⟩
        · split
          · exact ⟨hlaunch.tidy, hquiet⟩
          · exact ⟨hlaunch.tidy, by simp [hquiet]⟩

theorem uploadProgramCmd_tidy (h : Tidy s) {port : Option Nat} {opens : Bool} {launch : Launch}
    (hclear : LifecycleClear s (.progremote client port opens launch)) :
    Tidy (s.uploadProgramCmd client port opens launch).server ∧
      .attempted .refused ∉ (s.uploadProgramCmd client port opens launch).events := by
  unfold uploadProgramCmd
  split
  · exact ⟨h, List.not_mem_nil⟩
  next hlocked =>
    split
    · exact ⟨h, List.not_mem_nil⟩
    next hport =>
      split
      · exact ⟨h, List.not_mem_nil⟩
      next hremote =>
        have hstop := hclear (Bool.eq_false_iff.mpr hlocked) (Bool.not_eq_false _ |>.mp hport)
          (Bool.eq_false_iff.mpr hremote)
        have hidle := (stop_idle hstop client).2
        have hquiet := stop_unrefused s client opens
        have hlaunch : Idle ((s.stop client opens).2.1.launch .remote client launch).2.raw := by
          rw [launch_raw]
          exact hidle
        dsimp only
        split
        · exact ⟨hlaunch.tidy, hquiet⟩
        · exact ⟨hlaunch.tidy, by simp [hquiet]⟩

theorem uploadProgramPartial_tidy (h : Tidy s) {ok opens : Bool} {image : ImageFile}
    (hclear : ok = true → s.inFlight .kcpfpg = false → StopClear s opens ∧ ImageClear s image)
    (hs : s.uploadProgramPartial b client ok opens image = some (s', events)) :
    Tidy s' ∧ .attempted .refused ∉ events := by
  unfold uploadProgramPartial at hs
  split at hs
  · cases Option.some.inj hs
    exact ⟨h, by simp⟩
  next hfree =>
    have hok : ok = true := Bool.not_eq_false _ |>.mp fun hf => hfree (.inl hf)
    have hkcpfpg : s.inFlight .kcpfpg = false := Bool.eq_false_iff.mpr fun hk => hfree (.inr hk)
    obtain ⟨hstop, himage⟩ := hclear hok hkcpfpg
    have hidle := (stop_idle hstop client).2
    have hquiet := stop_unrefused s client opens
    dsimp only at hs
    split at hs
    · cases Option.some.inj hs
      exact ⟨hidle.tidy, by simp [hquiet]⟩
    · obtain ⟨⟨result, t, more⟩, hprogram, heq⟩ := Option.map_eq_some_iff.mp hs
      obtain ⟨htidy, hmore⟩ := programImage_tidy hidle himage hprogram
      cases heq
      exact ⟨htidy, by simp [hquiet, hmore]⟩

/-- What changes no tree's existence keeps all in order. -/
theorem tidy_withRaw (h : Tidy s) (hsettled : Settled raw) (hregisters : raw.rRegisters.isSome = s.raw.rRegisters.isSome)
    (hdown : s.raw.rFpga = .down → raw.rFpga = .down) : Tidy (s.withRaw raw) := by
  refine ⟨hsettled, fun hbin => ?_⟩
  obtain ⟨hnone, hfpga⟩ := h.upload hbin
  rw [hnone] at hregisters
  have hraw : raw.rRegisters = none := by simpa using hregisters
  exact ⟨hraw, hdown hfpga⟩

theorem tidy_shape (h : Tidy s) (hsame : SameShape s.raw raw) : Tidy (s.withRaw raw) :=
  tidy_withRaw h (h.settled.same hsame) hsame.registers fun hfpga => hsame.fpga.trans hfpga

theorem unlockdevCmd_tidy (h : Tidy s) {args : Words} {o : RawOutcome} (ho : s.unlockdevCmd client args = some o) :
    Tidy o.server := by
  have hunlocked : Tidy (s.withRaw { s.raw with rLkey := none }) := tidy_shape h ⟨rfl, rfl, rfl, rfl, rfl, rfl, rfl⟩
  unfold unlockdevCmd at ho
  split at ho
  · cases Option.some.inj ho
    exact h
  · dsimp only at ho
    split at ho
    · cases Option.some.inj ho
      exact h
    · split at ho
      · cases Option.some.inj ho
        split
        · exact h
        · exact hunlocked
      · split at ho
        · obtain ⟨given, -, rfl⟩ := Option.map_eq_some_iff.mp ho
          split
          · exact h
          · exact hunlocked
        · cases Option.some.inj ho
          exact hunlocked

theorem tidy_fewer (h : Tidy s) (f : Flight) : Tidy { s with flights := s.flights.erase f } :=
  ⟨h.settled, fun ⟨g, hg, hgf⟩ => h.upload ⟨g, List.mem_of_mem_erase hg, hgf⟩⟩

/-- When the upload of a bitstream ends, no other is in flight, and the fpga is down. -/
theorem uploadBinComplete_tidy (h : Tidy s) (honce : OneOfEach s) (hland : s.land .bin = some (client, t)) (ok : Bool) :
    Tidy (t.uploadBinComplete client ok).1 ∧ .attempted .refused ∉ (t.uploadBinComplete client ok).2 := by
  obtain ⟨f, hf, hkind, hrun, -, rfl⟩ := land_some hland
  obtain ⟨hnone, hdown⟩ := h.upload ⟨f, hf, hrun, hkind⟩
  have hidle : ¬BinRuns { s with flights := s.flights.erase f } := by
    rintro ⟨g, hg, -, hgk⟩
    have hnodup := ((List.perm_cons_erase hf).map Flight.kind).nodup_iff.mp honce
    rw [List.map_cons, List.nodup_cons] at hnodup
    exact hnodup.1 (List.mem_map.mpr ⟨g, hg, hgk.trans hkind.symm⟩)
  cases ok with
  | false => exact ⟨tidy_fewer h f, by simp [uploadBinComplete]⟩
  | true =>
    have hstart : s.raw.startFpg = (.succeeded, { s.raw with
        rRegisters := some fun _ => none, rMeta := some fun _ => [], rTopRegister := 0, rBotRegister := 2 ^ 32 - 1,
        rFpga := .programmed }) := by
      unfold TbsRaw.startFpg
      rw [hnone, if_neg (by simp)]
    unfold uploadBinComplete
    rw [if_pos rfl]
    dsimp only
    rw [hstart]
    refine ⟨⟨.programmed rfl rfl rfl (h.settled.taps_nil (by simp [hdown])), fun hbin => absurd hbin hidle⟩, by simp⟩

end RawServer

/-- What holds at any time of a run whose stops and files are clear. -/
structure LifecycleInv (s : RawServer) (log : List RawEvent) : Prop where
  once : OneOfEach s
  tidy : Tidy s
  unrefused : .attempted .refused ∉ log

theorem registerCmd_unrefused (raw : TbsRaw) (name : Text) (d : Declaration) :
    .attempted .refused ∉ (raw.registerCmd name d).2.2 := by
  unfold TbsRaw.registerCmd
  split
  · exact List.not_mem_nil
  · split
    · exact List.not_mem_nil
    · dsimp only
      split <;> simp

theorem finaliseCmd_unrefused {opens : Bool} {address : Option Nat} {code : ResultCode}
    (h : raw.finaliseCmd b opens address = some (code, raw', events)) : .attempted .refused ∉ events := by
  unfold TbsRaw.finaliseCmd at h
  split at h
  · obtain ⟨⟨done, t⟩, -, heq⟩ := Option.map_eq_some_iff.mp h
    dsimp only at heq
    split at heq <;>
    · cases heq
      simp
  all_goals
    cases Option.some.inj h
    exact List.not_mem_nil

theorem LifecycleInv.next (h : LifecycleInv s log) (honce : OneOfEach s') (htidy : Tidy s')
    (hevents : .attempted .refused ∉ events) : LifecycleInv s' (log ++ events) :=
  ⟨honce, htidy, fun hmem => (List.mem_append.mp hmem).elim h.unrefused hevents⟩

theorem lifecycle_keeps (b : RawBuild) : (rawMachine b).Keeps LifecycleClear LifecycleInv := by
  intro s log a s' h hok hstep
  have honce := flights_keep b s log a s' h.once trivial hstep
  have hact := Machine.act_of_step (f := fun s a => s.act b a) (fun _ _ => rfl) (fun _ _ => rfl) hstep
  generalize (rawMachine b).emits s a = out at hact ⊢
  suffices Tidy s' ∧ .attempted .refused ∉ out from h.next honce this.1 this.2
  cases a with
  | progdev client args opens image =>
    obtain ⟨o, ho, heq⟩ := Option.map_eq_some_iff.mp hact
    cases heq
    exact RawServer.progdevCmd_tidy h.tidy hok ho
  | uploadBin client port opens launch =>
    cases Option.some.inj hact
    exact RawServer.uploadBinCmd_tidy h.tidy hok
  | progremote client port opens launch =>
    cases Option.some.inj hact
    exact RawServer.uploadProgramCmd_tidy h.tidy hok
  | lockdev client args =>
    cases Option.some.inj hact
    refine ⟨?_, List.not_mem_nil⟩
    unfold RawServer.lockdevCmd
    split
    · exact h.tidy
    · split
      · exact h.tidy
      · exact RawServer.tidy_shape h.tidy ⟨rfl, rfl, rfl, rfl, rfl, rfl, rfl⟩
  | unlockdev client args =>
    obtain ⟨o, ho, heq⟩ := Option.map_eq_some_iff.mp hact
    cases heq
    exact ⟨RawServer.unlockdevCmd_tidy h.tidy ho, List.not_mem_nil⟩
  | register name d =>
    cases Option.some.inj hact
    exact ⟨RawServer.tidy_shape h.tidy (TbsRaw.registerCmd_shape ..), registerCmd_unrefused s.raw name d⟩
  | metaEntry args =>
    cases Option.some.inj hact
    exact ⟨RawServer.tidy_shape h.tidy (TbsRaw.metaCmd_shape ..), List.not_mem_nil⟩
  | finalise opens address =>
    obtain ⟨⟨code, raw, more⟩, hfinal, heq⟩ := Option.map_eq_some_iff.mp hact
    cases heq
    obtain ⟨hsettled, hregisters, hdown⟩ := TbsRaw.finaliseCmd_settled h.tidy.settled hfinal
    exact ⟨RawServer.tidy_withRaw h.tidy hsettled hregisters hdown, finaliseCmd_unrefused hfinal⟩
  | clobber enabled =>
    cases Option.some.inj hact
    exact ⟨RawServer.tidy_shape h.tidy ⟨rfl, rfl, rfl, rfl, rfl, rfl, rfl⟩, List.not_mem_nil⟩
  | tapStart name tap works =>
    cases Option.some.inj hact
    have hsame : (s.raw.insertTap name tap works).2.rRegisters = s.raw.rRegisters ∧
        (s.raw.insertTap name tap works).2.rFpga = s.raw.rFpga := by
      unfold TbsRaw.insertTap
      dsimp only
      split <;> exact ⟨rfl, rfl⟩
    exact ⟨RawServer.tidy_withRaw h.tidy (TbsRaw.insertTap_settled h.tidy.settled ..) (by rw [hsame.1])
      fun hdown => hsame.2.trans hdown, List.not_mem_nil⟩
  | tapStop tap =>
    cases Option.some.inj hact
    exact ⟨RawServer.tidy_withRaw h.tidy (TbsRaw.unlinkTap_settled h.tidy.settled tap) rfl id, List.not_mem_nil⟩
  | transfer =>
    obtain ⟨r, -, heq⟩ := Option.map_eq_some_iff.mp hact
    cases heq
    exact ⟨h.tidy, by simp⟩
  | binDone ok =>
    obtain ⟨⟨client, t⟩, hland, heq⟩ := Option.map_eq_some_iff.mp hact
    have hdone := RawServer.uploadBinComplete_tidy h.tidy h.once hland ok
    dsimp only at heq
    rwa [heq] at hdone
  | remoteDone ok opens image =>
    obtain ⟨⟨client, t⟩, hland, hpart⟩ := Option.bind_eq_some_iff.mp hact
    obtain ⟨f, hf, hkind, -, -, rfl⟩ := RawServer.land_some hland
    refine RawServer.uploadProgramPartial_tidy (RawServer.tidy_fewer h.tidy f) (fun hok' hkcpfpg => ?_) hpart
    obtain ⟨hstop, himage⟩ := hok hok' (RawServer.inFlight_erase (by rw [hkind]; decide) hkcpfpg)
    exact ⟨hstop, fun file hfile => ⟨(himage file hfile).1, fun ⟨g, hg, hgf⟩ =>
      (himage file hfile).2 ⟨g, List.mem_of_mem_erase hg, hgf⟩⟩⟩
  | kcpfpgDone =>
    obtain ⟨⟨client, t⟩, hland, heq⟩ := Option.map_eq_some_iff.mp hact
    obtain ⟨f, -, -, -, -, rfl⟩ := RawServer.land_some hland
    cases heq
    exact ⟨RawServer.tidy_fewer h.tidy f, List.not_mem_nil⟩
  | collect f =>
    obtain ⟨-, heq⟩ := Option.ite_none_right_eq_some.mp hact
    cases heq
    exact ⟨RawServer.tidy_fewer h.tidy f, List.not_mem_nil⟩

/-- What holds in every state, with the order of programming attempts. -/
structure Lifecycle (s : RawServer) (log : List RawEvent) : Prop where
  settled : Settled s.raw
  forgotten : FailureForgotten log

/-- If every stop can take the fpga down, no bof file gets as far as being programmed, and none
fails while a bitstream is uploaded, the fpga is in order at any time. -/
theorem lifecycle_sound (h : (rawMachine b).Runs LifecycleClear s log) : Lifecycle s log := by
  have hstart : LifecycleInv RawServer.setupRaw [] :=
    ⟨List.nodup_nil, ⟨.down rfl rfl, fun ⟨f, hf, _⟩ => absurd hf List.not_mem_nil⟩, List.not_mem_nil⟩
  have hinv := h.invariant LifecycleInv hstart (lifecycle_keeps b)
  refine ⟨hinv.tidy.settled, fun a b c hlog => absurd ?_ hinv.unrefused⟩
  simp [hlog]

/-- A bitstream is uploaded, a register declared and the fpga mapped. -/
theorem lifecycle_sound_bin : ∃ s log, Lifecycle s log ∧ s.raw.rFpga = .ready :=
  ⟨_, _, lifecycle_sound (Machine.Runs.exec (.start (m := rawMachine hostBuild))
    [.uploadBin (textOf "a") none true .runs, .binDone true, .register (textOf "r") ⟨8, 0, none⟩,
      .finalise true (some 0x40000000)] rfl
    ⟨fun _ _ _ => .inl rfl, fun _ _ => ⟨trivial, fun _ _ => ⟨trivial, fun _ _ => ⟨trivial, fun _ _ => trivial⟩⟩⟩⟩), rfl⟩

/-- A bof file is programmed and mapped, and there is no meta tree. -/
theorem bof_without_meta : ∃ s log, (rawMachine hostBuild).Runs (fun _ _ => True) s log ∧ ¬Lifecycle s log := by
  refine ⟨_, _, Machine.Runs.exec (.start (m := rawMachine hostBuild))
    [.progdev (textOf "a") [textOf "progdev", textOf "x.bof"] true
      (.bof (some ⟨true, [⟨textOf "r", 0, 4, 3⟩], true, true, some 0x40000000⟩))] rfl (Machine.meets_true ..), fun h => ?_⟩
  have htrees := h.settled.trees (by decide)
  exact absurd htrees.2 (by decide)

end Katcp
