import Katcp.RegisterWindow
import Katcp.SampleCommand

namespace Katcp

section

open Function

/-- What the server was built for: `__PPC__`, and the size of a page as a power of two. -/
structure RawBuild where
  ppc : Bool
  pageBits : Nat
  small : pageBits < 32
  deriving Repr

def RawBuild.page (b : RawBuild) : Nat := 2 ^ b.pageBits

/-- The value of `r_map`: `NULL`, `MAP_FAILED`, or where the host placed the mapping. -/
inductive MapPointer where
  | null
  | failed
  | placed (a : Nat)
  deriving DecidableEq, Repr

abbrev RegisterTree := Text → Option TbsEntry

/-- The entries of each key, in the order in which they were added. -/
abbrev MetaTree := Text → List Words

/-- `struct tbs_raw`, with the addresses and sizes of the mappings that the host holds. -/
structure TbsRaw where
  rRegisters : Option RegisterTree
  rMeta : Option MetaTree
  rFpga : FpgaState
  rClobber : Bool
  rMap : MapPointer
  rMapSize : Nat
  rMapOffset : Nat
  rTopRegister : Nat
  rBotRegister : Nat
  rImage : Option Text
  rTaps : List Text
  rLkey : Option Text
  live : List (Nat × Nat)

/-- A position, and a length unless it is left to the server, in bytes and bits. -/
structure Declaration where
  posBytes : Nat
  posBits : Nat
  length : Option (Nat × Nat)
  deriving DecidableEq, Repr

/-- How an attempt to program the fpga ends; it is refused where the fpga seems already
programmed. -/
inductive Attempt where
  | refused
  | failed
  | succeeded
  deriving DecidableEq, Repr

inductive RawEvent where
  | stopped
  | accepted (name : Text) (d : Declaration)
  | mapTried (done : Bool) (before after : Option RegisterTree)
  | attempted (outcome : Attempt)
  | step (client : Text) (key : Option Text)

/-- `br`, as it is read from a bof file. -/
structure BofReg where
  name : Text
  loc : BitVec 32
  len : BitVec 32
  mode : Nat
  deriving DecidableEq, Repr

/-- A bof file that can be opened: whether its bitstream can be programmed, its registers up to
the first that cannot be read, whether there is none such, whether the device can be opened, and
where it is mapped to. -/
structure BofFile where
  programs : Bool
  table : List BofReg
  complete : Bool
  opens : Bool
  address : Option Nat
  deriving DecidableEq, Repr

/-- The steps by which a base in bytes and an offset in bits are brought to words. -/
def normalise (base offset : Nat) : Nat × Nat :=
  let base := base % 2 ^ 32
  let offset := offset % 256
  let mod := base % 4
  let base := base - mod
  let offset := (offset + 8 * mod) % 256
  ((base + offset / 32) % 2 ^ 32, offset % 32)

theorem normalise_base_lt (base offset : Nat) : (normalise base offset).1 < 2 ^ 32 := Nat.mod_lt _ (by decide)

theorem normalise_offset_lt (base offset : Nat) : (normalise base offset).2 < 32 := Nat.mod_lt _ (by decide)

/-- The length that a register gets when none is given. -/
def guessLength (posOffset : Nat) : Nat × Nat := if 0 < posOffset then (0, 32 - posOffset) else (4, 0)

def Declaration.entry (d : Declaration) : TbsEntry :=
  let pos := normalise d.posBytes d.posBits
  let given := d.length.getD (guessLength pos.2)
  let len := normalise given.1 given.2
  ⟨pos.1, len.1, pos.2, len.2, ⟨true, true⟩, normalise_base_lt .., normalise_base_lt .., normalise_offset_lt ..,
    normalise_offset_lt ..⟩

/-- The switch on the mode of a register. -/
def BofReg.access (br : BofReg) : AccessMode := ⟨br.mode = 1 ∨ br.mode = 3, br.mode = 2 ∨ br.mode = 3⟩

def BofReg.entry (br : BofReg) : TbsEntry :=
  ⟨br.loc.toNat, br.len.toNat, 0, 0, br.access, br.loc.isLt, br.len.isLt, TbsEntry.zero_offset, TbsEntry.zero_offset⟩

def BofReg.declaration (br : BofReg) : Declaration := ⟨br.loc.toNat, 0, some (br.len.toNat, 0)⟩

/-- `bits`, the bytes that hold both offsets. -/
def TbsEntry.bits (te : TbsEntry) : Nat := (te.ePosOffset + te.eLenOffset + 7) / 8

/-- The end of a register, as it is compared. -/
def TbsEntry.last (te : TbsEntry) : Nat := (te.ePosBase + te.eLenBase + te.bits) % 2 ^ 32

/-- `fixup_offset_tbs` -/
def fixupOffset (offset : Nat) (te : TbsEntry) : TbsEntry :=
  { te with
    ePosBase := if te.ePosBase < offset then 0 else te.ePosBase - offset
    posBase_lt := by
      split
      · decide
      · exact Nat.lt_of_le_of_lt (Nat.sub_le ..) te.posBase_lt }

namespace TbsRaw

/-- `unmap_raw_tbs` -/
def unmapRaw (s : TbsRaw) : TbsRaw :=
  if s.rFpga = .mapped ∨ s.rFpga = .ready then
    { s with
      live := match s.rMap with
        | .placed a => s.live.erase (a, s.rMapSize)
        | _ => s.live
      rFpga := .programmed
      rMapOffset := 0
      rMapSize := 0
      rMap := .null }
  else s

/-- `stop_fpga_tbs`, given whether the configuration device can be opened. -/
def stopFpga (s : TbsRaw) (opens : Bool) : Bool × TbsRaw :=
  let s := unmapRaw { s with rTaps := [] }
  let cleared := { s with
    rImage := none, rRegisters := none, rMeta := none, rTopRegister := 0, rBotRegister := 0 }
  if s.rFpga = .programmed then
    if opens then (true, { cleared with rFpga := .down }) else (false, cleared)
  else (true, cleared)

/-- `start_fpg_tbs` -/
def startFpg (s : TbsRaw) : Attempt × TbsRaw :=
  if s.rRegisters.isSome then (.refused, s)
  else (.succeeded, { s with
    rRegisters := some fun _ => none
    rMeta := some fun _ => []
    rTopRegister := 0
    rBotRegister := 2 ^ 32 - 1
    rFpga := .programmed })

/-- `find_data_avltree` in the registers. -/
def findRegister (s : TbsRaw) (name : Text) : Option TbsEntry := s.rRegisters.bind (· name)

/-- `store_named_node_avltree` of a register, or the copy over one that exists. -/
def storeRegister (s : TbsRaw) (name : Text) (te : TbsEntry) : Bool × TbsRaw :=
  match s.rRegisters with
  | none => (false, s)
  | some tree => (true, { s with rRegisters := some (update tree name (some te)) })

/-- The turn of the loop of `index_bof` for a register that is not there yet. -/
def indexRegister (s : TbsRaw) (br : BofReg) : Bool × TbsRaw :=
  let top := (br.loc + br.len).toNat
  let s := { s with
    rTopRegister := if s.rTopRegister < top then top else s.rTopRegister
    rBotRegister := if s.rBotRegister < br.loc.toNat then br.loc.toNat else s.rBotRegister }
  s.storeRegister br.name br.entry

/-- The loop of `index_bof`. -/
def indexBof (complete : Bool) : List BofReg → TbsRaw → Bool × TbsRaw × List RawEvent
  | [], s => (complete, s, [])
  | br :: rest, s =>
    if (s.findRegister br.name).isSome then (false, s, [])
    else
      let (stored, s) := s.indexRegister br
      if stored then
        let (result, s, events) := indexBof complete rest s
        (result, s, .accepted br.name br.declaration :: events)
      else (false, s, [])

/-- The loop that doubles the window until all registers fit. An unsigned power that was doubled
as often as it has bits is 0, and stays so. -/
def growPower : Nat → Nat → Nat → Option Nat
  | 0, _, _ => none
  | n + 1, top, power => if power < top then growPower n top (power * 2 % 2 ^ 32) else some power

/-- The window for builds other than the first, and the registers moved into it. -/
def fitWindow (b : RawBuild) (s : TbsRaw) : TbsRaw :=
  let bot := s.rBotRegister / b.page * b.page
  let top := (s.rTopRegister + b.page - 1) % 2 ^ 32 / b.page * b.page
  { s with
    rBotRegister := bot
    rTopRegister := top
    rMapSize := (top + 2 ^ 32 - bot) % 2 ^ 32
    rMapOffset := bot
    rRegisters := s.rRegisters.map fun tree name => (tree name).map (fixupOffset bot) }

/-- The tests at the start of `map_raw_tbs`. -/
def mayMap (s : TbsRaw) : Prop := s.rFpga = .programmed ∧ 0 < s.rTopRegister ∧ s.rBotRegister < s.rTopRegister

instance (s : TbsRaw) : Decidable s.mayMap := inferInstanceAs (Decidable (_ ∧ _ ∧ _))

/-- The window, unless its size is doubled for ever. -/
def window (b : RawBuild) (s : TbsRaw) : Option TbsRaw :=
  if b.ppc then (growPower 33 s.rTopRegister b.page).map fun power => { s with rMapSize := power, rMapOffset := 0 }
  else some (s.fitWindow b)

/-- `open` and `mmap`; nothing is mapped where the size is 0. -/
def mapWindow (s : TbsRaw) (opens : Bool) (address : Option Nat) : Bool × TbsRaw :=
  if opens = false then (false, s)
  else match address with
    | none => (false, { s with rMap := .failed })
    | some a =>
      if s.rMapSize = 0 then (false, { s with rMap := .failed })
      else (true, { s with rMap := .placed a, live := (a, s.rMapSize) :: s.live })

/-- `map_raw_tbs` -/
def mapRaw (b : RawBuild) (s : TbsRaw) (opens : Bool) (address : Option Nat) : Option (Bool × TbsRaw) :=
  if s.mayMap then (s.window b).map fun s => s.mapWindow opens address else some (false, s)

/-- `start_bof_tbs` -/
def startBof (b : RawBuild) (s : TbsRaw) (f : BofFile) : Option (Attempt × TbsRaw × List RawEvent) :=
  if s.rRegisters.isSome then some (.refused, s, [])
  else
    let s := { s with rRegisters := some fun _ => none }
    if f.programs = false then some (.failed, s, [])
    else
      let (indexed, s, events) := indexBof f.complete f.table { s with rFpga := .programmed }
      if indexed = false then some (.failed, s, events)
      else (s.mapRaw b f.opens f.address).map fun (done, t) =>
        let events := events ++ [.mapTried done s.rRegisters t.rRegisters]
        if done then (.succeeded, { t with rFpga := .ready }, events) else (.failed, t, events)

/-- `finalise_cmd` -/
def finaliseCmd (b : RawBuild) (s : TbsRaw) (opens : Bool) (address : Option Nat) :
    Option (ResultCode × TbsRaw × List RawEvent) :=
  match s.rFpga with
  | .programmed => (s.mapRaw b opens address).map fun (done, t) =>
      let events := [.mapTried done s.rRegisters t.rRegisters]
      if done then (.ok, { t with rFpga := .ready }, events) else (.fail, t, events)
  | .mapped => some (.ok, { s with rFpga := .ready }, [])
  | .ready => some (.ok, s, [])
  | .down => some (.fail, s, [])

/-- The end of `register_cmd`, for an entry that may be stored under its name. -/
def placeRegister (s : TbsRaw) (name : Text) (te : TbsEntry) : Bool × TbsRaw :=
  if s.rFpga ≠ .programmed then
    if te.ePosBase < s.rMapOffset then (false, s)
    else if (s.rMapOffset + s.rMapSize) % 2 ^ 32 < te.last then (false, s)
    else s.storeRegister name (fixupOffset s.rMapOffset te)
  else
    storeRegister { s with
      rBotRegister := if te.ePosBase < s.rBotRegister then te.ePosBase else s.rBotRegister
      rTopRegister := if s.rTopRegister < te.last then te.last else s.rTopRegister } name te

/-- `register_cmd`, once its arguments are read. -/
def registerCmd (s : TbsRaw) (name : Text) (d : Declaration) : ResultCode × TbsRaw × List RawEvent :=
  if s.rFpga = .down ∨ ((s.findRegister name).isSome ∧ s.rClobber = false) then (.fail, s, [])
  else if d.entry.eLenBase = 0 ∧ d.entry.eLenOffset = 0 then (.fail, s, [])
  else
    let (stored, s) := s.placeRegister name d.entry
    if stored then (.ok, s, [.accepted name d]) else (.fail, s, [])

/-- `meta_cmd`, of an entry to add or a key to show. -/
def metaCmd (s : TbsRaw) (args : Words) : ResultCode × TbsRaw :=
  if s.rFpga = .down then (.fail, s)
  else if 2 < args.length then
    match argString args 1 with
    | none => (.fail, s)
    | some key =>
      if (args.drop 2).any (· == []) then (.fail, s)
      else match s.rMeta with
        | none => (.fail, s)
        | some tree => (.ok, { s with rMeta := some (update tree key (tree key ++ [(args.drop 2).map cString])) })
  else if args.length = 2 then
    match argString args 1 with
    | none => (.fail, s)
    | some key => (if (s.rMeta.map (· key)).getD [] = [] then .fail else .ok, s)
  else (.ok, s)

/-- `insert_getap`, given whether all that it sets up but the state of the fpga and the register
lets it. -/
def insertTap (s : TbsRaw) (name tap : Text) (works : Bool) : Bool × TbsRaw :=
  let s := { s with rTaps := s.rTaps.filter (· ≠ tap) }
  if s.rFpga = .ready ∧ (s.findRegister name).isSome ∧ works = true then (true, { s with rTaps := s.rTaps ++ [tap] })
  else (false, s)

/-- `unlink_getap` -/
def unlinkTap (s : TbsRaw) (tap : Text) : TbsRaw := { s with rTaps := s.rTaps.filter (· ≠ tap) }

end TbsRaw

end

/-- The notices of operations in flight: `TBS_FPGA_CONFIG` of `?uploadbin`, `TBS_RAMFILE_PATH` of
`?progremote`, and `TBS_KCPFPG_PATH` of the child that programs an fpg file. -/
inductive FlightKind where
  | bin
  | remote
  | kcpfpg
  deriving DecidableEq, Repr

/-- A notice, the name of the client whose request made it, and whether a child runs that will
trigger it; where the child could not be started it may stay behind. -/
structure Flight where
  kind : FlightKind
  client : Text
  running : Bool
  deriving DecidableEq, Repr

structure RawServer where
  raw : TbsRaw
  flights : List Flight

/-- How the start of a child ends. -/
inductive Launch where
  | runs
  | fails (left : Bool)
  deriving DecidableEq, Repr

/-- What `detect_file_tbs` makes of a file, and what comes of it. -/
inductive ImageFile where
  | bad
  | bof (file : Option BofFile)
  | fpg (launch : Launch)
  deriving DecidableEq, Repr

structure RawOutcome where
  result : KatcpResult
  server : RawServer
  events : List RawEvent

namespace RawServer

def answer (s : RawServer) (code : ResultCode) : RawOutcome := ⟨.done code, s, []⟩

/-- The test of the lock at the start of a request. -/
def locked (s : RawServer) (client : Text) : Bool := s.raw.rLkey.any (· ≠ client)

/-- `find_notice_katcp` -/
def inFlight (s : RawServer) (kind : FlightKind) : Bool := s.flights.any (·.kind = kind)

/-- A notice and the child that is to trigger it. -/
def launch (s : RawServer) (kind : FlightKind) (client : Text) : Launch → Bool × RawServer
  | .runs => (true, { s with flights := s.flights ++ [⟨kind, client, true⟩] })
  | .fails left => (false, if left then { s with flights := s.flights ++ [⟨kind, client, false⟩] } else s)

/-- The child of this kind that ends, and the server without it. -/
def land (s : RawServer) (kind : FlightKind) : Option (Text × RawServer) :=
  (s.flights.find? fun f => f.kind = kind ∧ f.running = true).map fun f =>
    (f.client, { s with flights := s.flights.erase f })

/-- `stop_fpga_tbs`, for a request of a client. -/
def stop (s : RawServer) (client : Text) (opens : Bool) : Bool × RawServer × List RawEvent :=
  let (done, raw) := s.raw.stopFpga opens
  (done, { s with raw := raw }, [.step client s.raw.rLkey, .stopped])

/-- The switch on the type of a file in `progdev_cmd` and `upload_program_partial_tbs`. -/
def programImage (b : RawBuild) (s : RawServer) (client : Text) :
    ImageFile → Option (KatcpResult × RawServer × List RawEvent)
  | .bad | .bof none => some (.done .fail, s, [.attempted .failed])
  | .bof (some f) => (s.raw.startBof b f).map fun (outcome, raw, events) =>
      (.done (if outcome = .succeeded then .ok else .fail), { s with raw := raw },
        .step client s.raw.rLkey :: events ++ [.attempted outcome])
  | .fpg launch =>
    let (runs, s) := s.launch .kcpfpg client launch
    if runs then some (.pause, s, []) else some (.done .fail, s, [.attempted .failed])

/-- `progdev_cmd` -/
def progdevCmd (b : RawBuild) (s : RawServer) (client : Text) (args : Words) (opens : Bool) (image : ImageFile) :
    Option RawOutcome :=
  if s.locked client = true ∨ s.inFlight .kcpfpg = true then some (s.answer .fail)
  else
    let (_, s, stops) := s.stop client opens
    if args.length ≤ 1 then some ⟨.done .ok, s, stops⟩
    else match argString args 1 with
      | none => some ⟨.done .fail, s, stops ++ [.attempted .failed]⟩
      | some file =>
        if byte '/' ∈ file then some ⟨.done .fail, s, stops ++ [.attempted .failed]⟩
        else (s.programImage b client image).map fun (result, s, events) =>
          let raw := if result = .done .ok then { s.raw with rImage := some file } else s.raw
          ⟨result, { s with raw := raw }, stops ++ events⟩

/-- `sane_port_tbs`; without an argument the port is a constant that passes. -/
def sanePort (port : Option Nat) : Bool := port.all fun port => 1024 < port ∧ port ≤ 0xffff

/-- `upload_bin_cmd` -/
def uploadBinCmd (s : RawServer) (client : Text) (port : Option Nat) (opens : Bool) (launch : Launch) : RawOutcome :=
  if s.locked client then s.answer .fail
  else if sanePort port = false then s.answer .invalid
  else if s.inFlight .bin then s.answer .fail
  else
    let (done, s, stops) := s.stop client opens
    if done = false then ⟨.done .fail, s, stops ++ [.attempted .failed]⟩
    else
      let (runs, s) := s.launch .bin client launch
      if runs then ⟨.pause, s, stops⟩ else ⟨.done .fail, s, stops ++ [.attempted .failed]⟩

/-- `upload_program_cmd` -/
def uploadProgramCmd (s : RawServer) (client : Text) (port : Option Nat) (opens : Bool) (launch : Launch) :
    RawOutcome :=
  if s.locked client then s.answer .fail
  else if sanePort port = false then s.answer .invalid
  else if s.inFlight .remote then s.answer .fail
  else
    let (_, s, stops) := s.stop client opens
    let (runs, s) := s.launch .remote client launch
    if runs then ⟨.done .ok, s, stops⟩ else ⟨.done .fail, s, stops ++ [.attempted .failed]⟩

/-- `upload_bin_complete_tbs` -/
def uploadBinComplete (s : RawServer) (client : Text) (ok : Bool) : RawServer × List RawEvent :=
  if ok then
    let (outcome, raw) := s.raw.startFpg
    ({ s with raw := raw }, [.step client s.raw.rLkey, .attempted outcome])
  else (s, [.attempted .failed])

/-- `upload_program_partial_tbs` -/
def uploadProgramPartial (b : RawBuild) (s : RawServer) (client : Text) (ok opens : Bool) (image : ImageFile) :
    Option (RawServer × List RawEvent) :=
  if ok = false ∨ s.inFlight .kcpfpg = true then some (s, [.attempted .failed])
  else
    let (done, s, stops) := s.stop client opens
    if done = false then some (s, stops ++ [.attempted .failed])
    else (s.programImage b client image).map fun (_, s, events) => (s, stops ++ events)

/-- The key that `lockdev_cmd` takes from its arguments. -/
def lockKey (client : Text) (args : Words) : Option Text :=
  if args.length = 1 then some client else if args.length = 2 then argString args 1 else none

/-- `lockdev_cmd` -/
def lockdevCmd (s : RawServer) (client : Text) (args : Words) : RawOutcome :=
  if s.raw.rLkey.isSome then s.answer .fail
  else if 2 < args.length then s.answer .invalid
  else answer { s with raw := { s.raw with rLkey := lockKey client args } } .ok

/-- `unlockdev_cmd`; an empty key is compared as a null pointer. -/
def unlockdevCmd (s : RawServer) (client : Text) (args : Words) : Option RawOutcome :=
  match s.raw.rLkey with
  | none => some (s.answer .ok)
  | some key =>
    let unlocked := answer { s with raw := { s.raw with rLkey := none } } .ok
    if 2 < args.length then some (s.answer .invalid)
    else if args.length = 1 then some (if key ≠ client then s.answer .fail else unlocked)
    else if args.length = 2 then (argString args 1).map fun given => if key ≠ given then s.answer .fail else unlocked
    else some unlocked

end RawServer

/-- Requests with the name of their client, what children and the host do. -/
inductive RawAction where
  | progdev (client : Text) (args : Words) (opens : Bool) (image : ImageFile)
  | uploadBin (client : Text) (port : Option Nat) (opens : Bool) (launch : Launch)
  | progremote (client : Text) (port : Option Nat) (opens : Bool) (launch : Launch)
  | lockdev (client : Text) (args : Words)
  | unlockdev (client : Text) (args : Words)
  | register (name : Text) (d : Declaration)
  | metaEntry (args : Words)
  | finalise (opens : Bool) (address : Option Nat)
  | clobber (enabled : Bool)
  | tapStart (name tap : Text) (works : Bool)
  | tapStop (tap : Text)
  | transfer
  | binDone (ok : Bool)
  | remoteDone (ok opens : Bool) (image : ImageFile)
  | kcpfpgDone
  | collect (f : Flight)

namespace RawServer

def withRaw (s : RawServer) (raw : TbsRaw) : RawServer := { s with raw := raw }

def act (b : RawBuild) (s : RawServer) : RawAction → Option (RawServer × List RawEvent)
  | .progdev client args opens image => (s.progdevCmd b client args opens image).map fun o => (o.server, o.events)
  | .uploadBin client port opens launch =>
    let o := s.uploadBinCmd client port opens launch
    some (o.server, o.events)
  | .progremote client port opens launch =>
    let o := s.uploadProgramCmd client port opens launch
    some (o.server, o.events)
  | .lockdev client args => some ((s.lockdevCmd client args).server, [])
  | .unlockdev client args => (s.unlockdevCmd client args).map fun o => (o.server, [])
  | .register name d =>
    let (_, raw, events) := s.raw.registerCmd name d
    some (s.withRaw raw, events)
  | .metaEntry args => some (s.withRaw (s.raw.metaCmd args).2, [])
  | .finalise opens address => (s.raw.finaliseCmd b opens address).map fun (_, raw, events) => (s.withRaw raw, events)
  | .clobber enabled => some (s.withRaw { s.raw with rClobber := enabled }, [])
  | .tapStart name tap works => some (s.withRaw (s.raw.insertTap name tap works).2, [])
  | .tapStop tap => some (s.withRaw (s.raw.unlinkTap tap), [])
  | .transfer => (s.land .bin).map fun (client, _) => (s, [.step client s.raw.rLkey])
  | .binDone ok => (s.land .bin).map fun (client, s) => s.uploadBinComplete client ok
  | .remoteDone ok opens image => (s.land .remote).bind fun (client, s) => s.uploadProgramPartial b client ok opens image
  | .kcpfpgDone => (s.land .kcpfpg).map fun (_, s) => (s, [])
  | .collect f => if f ∈ s.flights ∧ f.running = false then some ({ s with flights := s.flights.erase f }, []) else none

/-- `setup_raw_tbs` -/
def setupRaw : RawServer where
  raw := {
    rRegisters := some fun _ => none
    rMeta := some fun _ => []
    rFpga := .down
    rClobber := false
    rMap := .null
    rMapSize := 0
    rMapOffset := 0
    rTopRegister := 0
    rBotRegister := 2 ^ 32 - 1
    rImage := none
    rTaps := []
    rLkey := none
    live := [] }
  flights := []

end RawServer

def rawMachine (b : RawBuild) : Machine RawServer RawAction RawEvent where
  start := .setupRaw
  step s a := (s.act b a).map Prod.fst
  emits s a := ((s.act b a).map Prod.snd).getD []

end Katcp
