import Katcp.RawCommands

namespace Katcp

open Function

variable {b : RawBuild} {s s' t : RawServer} {raw raw' : TbsRaw} {client : Text} {events more : List RawEvent}

namespace TbsRaw

theorem unmapRaw_lkey (raw : TbsRaw) : raw.unmapRaw.rLkey = raw.rLkey := by
  unfold unmapRaw
  split <;> rfl

theorem stopFpga_lkey (raw : TbsRaw) (opens : Bool) : (raw.stopFpga opens).2.rLkey = raw.rLkey := by
  have hunmapped := unmapRaw_lkey { raw with rTaps := [] }
  unfold stopFpga
  dsimp only
  split
  · split <;> exact hunmapped
  · exact hunmapped

theorem startFpg_lkey (raw : TbsRaw) : raw.startFpg.2.rLkey = raw.rLkey := by
  unfold startFpg
  split <;> rfl

theorem storeRegister_lkey (raw : TbsRaw) (name : Text) (te : TbsEntry) :
    (raw.storeRegister name te).2.rLkey = raw.rLkey := by
  unfold storeRegister
  split <;> rfl

theorem placeRegister_lkey (raw : TbsRaw) (name : Text) (te : TbsEntry) :
    (raw.placeRegister name te).2.rLkey = raw.rLkey := by
  unfold placeRegister
  split
  · split
    · rfl
    · split
      · rfl
      · exact storeRegister_lkey ..
  · exact storeRegister_lkey ..

theorem registerCmd_lkey (raw : TbsRaw) (name : Text) (d : Declaration) :
    (raw.registerCmd name d).2.1.rLkey = raw.rLkey := by
  unfold registerCmd
  split
  · rfl
  · split
    · rfl
    · dsimp only
      split <;> exact placeRegister_lkey ..

theorem metaCmd_lkey (raw : TbsRaw) (args : Words) : (raw.metaCmd args).2.rLkey = raw.rLkey := by
  unfold metaCmd
  split
  · rfl
  · split
    · split
      · rfl
      · split
        · rfl
        · split <;> rfl
    · split
      · split <;> rfl
      · rfl

theorem insertTap_lkey (raw : TbsRaw) (name tap : Text) (works : Bool) :
    (raw.insertTap name tap works).2.rLkey = raw.rLkey := by
  unfold insertTap
  dsimp only
  split <;> rfl

theorem indexBof_lkey (complete : Bool) (table : List BofReg) (raw : TbsRaw) :
    (raw.indexBof complete table).2.1.rLkey = raw.rLkey := by
  induction table generalizing raw with
  | nil => rfl
  | cons br rest ih =>
    unfold indexBof
    split
    · rfl
    · have hstored : (raw.indexRegister br).2.rLkey = raw.rLkey := storeRegister_lkey ..
      dsimp only
      split
      · exact (ih _).trans hstored
      · exact hstored

/-- The registers of a bof file are no step of the fpga. -/
theorem indexBof_steps (complete : Bool) (table : List BofReg) (raw : TbsRaw) (c : Text) (k : Option Text) :
    .step c k ∉ (raw.indexBof complete table).2.2 := by
  induction table generalizing raw with
  | nil => exact List.not_mem_nil
  | cons br rest ih =>
    unfold indexBof
    split
    · exact List.not_mem_nil
    · dsimp only
      split
      · intro hmem
        rcases List.mem_cons.mp hmem with he | hmem
        · cases he
        · exact ih _ hmem
      · exact List.not_mem_nil

theorem mapWindow_lkey (raw : TbsRaw) (opens : Bool) (address : Option Nat) :
    (raw.mapWindow opens address).2.rLkey = raw.rLkey := by
  unfold mapWindow
  split
  · rfl
  · split
    · rfl
    · split <;> rfl

theorem mapRaw_lkey {opens done : Bool} {address : Option Nat} (h : raw.mapRaw b opens address = some (done, raw')) :
    raw'.rLkey = raw.rLkey := by
  unfold mapRaw at h
  split at h
  · obtain ⟨win, hwin, heq⟩ := Option.map_eq_some_iff.mp h
    have hkey : win.rLkey = raw.rLkey := by
      unfold window at hwin
      split at hwin
      · obtain ⟨power, -, rfl⟩ := Option.map_eq_some_iff.mp hwin
        rfl
      · cases Option.some.inj hwin
        rfl
    rw [← hkey, ← mapWindow_lkey win opens address, heq]
  · cases Option.some.inj h
    rfl

theorem startBof_lkey {f : BofFile} {outcome : Attempt} (h : raw.startBof b f = some (outcome, raw', events)) :
    raw'.rLkey = raw.rLkey ∧ ∀ c k, .step c k ∉ events := by
  unfold startBof at h
  dsimp only at h
  split at h
  · cases Option.some.inj h
    exact ⟨rfl, fun _ _ => List.not_mem_nil⟩
  · split at h
    · cases Option.some.inj h
      exact ⟨rfl, fun _ _ => List.not_mem_nil⟩
    · have hkey := indexBof_lkey f.complete f.table { raw with rRegisters := some fun _ => none, rFpga := .programmed }
      have hsteps := indexBof_steps f.complete f.table { raw with rRegisters := some fun _ => none, rFpga := .programmed }
      split at h
      · cases Option.some.inj h
        exact ⟨hkey, hsteps⟩
      · obtain ⟨⟨done, t⟩, ht, heq⟩ := Option.map_eq_some_iff.mp h
        have hmapped := (mapRaw_lkey ht).trans hkey
        dsimp only at heq
        split at heq <;>
        · cases heq
          refine ⟨hmapped, fun c k hmem => ?_⟩
          rcases List.mem_append.mp hmem with hmem | hmem
          · exact hsteps c k hmem
          · simp at hmem

theorem finaliseCmd_lkey {opens : Bool} {address : Option Nat} {code : ResultCode}
    (h : raw.finaliseCmd b opens address = some (code, raw', events)) :
    raw'.rLkey = raw.rLkey ∧ ∀ c k, .step c k ∉ events := by
  unfold finaliseCmd at h
  split at h
  · obtain ⟨⟨done, t⟩, ht, heq⟩ := Option.map_eq_some_iff.mp h
    have hmapped := mapRaw_lkey ht
    dsimp only at heq
    split at heq <;>
    · cases heq
      exact ⟨hmapped, fun c k hmem => by simp at hmem⟩
  all_goals
    cases Option.some.inj h
    exact ⟨rfl, fun _ _ => List.not_mem_nil⟩

end TbsRaw

/-- What is done on behalf of a client: the key stays, new notices are the client's, and every step
of the fpga is taken in its name. -/
structure OnBehalf (s : RawServer) (client : Text) (s' : RawServer) (events : List RawEvent) : Prop where
  key : s'.raw.rLkey = s.raw.rLkey
  flights : ∀ f ∈ s'.flights, f ∈ s.flights ∨ f.client = client
  steps : ∀ c k, .step c k ∈ events → c = client ∧ k = s.raw.rLkey

namespace OnBehalf

/-- A change of the rest, with events that are no steps. -/
theorem quiet (hkey : raw.rLkey = s.raw.rLkey) (hsteps : ∀ c k, .step c k ∉ events) :
    OnBehalf s client { s with raw := raw } events :=
  ⟨hkey, fun _ hf => .inl hf, fun c k hmem => absurd hmem (hsteps c k)⟩

theorem refl (s : RawServer) (client : Text) : OnBehalf s client s [] := quiet rfl fun _ _ => List.not_mem_nil

theorem attempt (s : RawServer) (client : Text) (outcome : Attempt) : OnBehalf s client s [.attempted outcome] :=
  quiet rfl fun _ _ hmem => by simp at hmem

theorem trans (h : OnBehalf s client t events) (h' : OnBehalf t client s' more) :
    OnBehalf s client s' (events ++ more) := by
  refine ⟨h'.key.trans h.key, fun f hf => ?_, fun c k hmem => ?_⟩
  · rcases h'.flights f hf with hf | hf
    · exact h.flights f hf
    · exact .inr hf
  · rcases List.mem_append.mp hmem with hmem | hmem
    · exact h.steps c k hmem
    · rw [← h.key]
      exact h'.steps c k hmem

end OnBehalf

namespace RawServer

theorem stop_onBehalf (s : RawServer) (client : Text) (opens : Bool) :
    OnBehalf s client (s.stop client opens).2.1 (s.stop client opens).2.2 := by
  refine ⟨TbsRaw.stopFpga_lkey s.raw opens, fun f hf => .inl hf, fun c k hmem => ?_⟩
  unfold stop at hmem
  simp only [List.mem_cons, RawEvent.step.injEq, reduceCtorEq, List.not_mem_nil, or_false] at hmem
  exact hmem

theorem launch_onBehalf (s : RawServer) (kind : FlightKind) (client : Text) (launch : Launch) :
    OnBehalf s client (s.launch kind client launch).2 [] := by
  have hadded : ∀ running, OnBehalf s client { s with flights := s.flights ++ [⟨kind, client, running⟩] } [] := by
    intro running
    refine ⟨rfl, fun f hf => ?_, fun c k hmem => absurd hmem List.not_mem_nil⟩
    rcases List.mem_append.mp hf with hf | hf
    · exact .inl hf
    · rw [List.mem_singleton.mp hf]
      exact .inr rfl
  cases launch with
  | runs => exact hadded true
  | fails left =>
    cases left with
    | true => exact hadded false
    | false => exact .refl s client

theorem programImage_onBehalf {image : ImageFile} {result : KatcpResult}
    (h : s.programImage b client image = some (result, s', events)) : OnBehalf s client s' events := by
  unfold programImage at h
  split at h
  · cases Option.some.inj h
    exact .attempt ..
  · cases Option.some.inj h
    exact .attempt ..
  · obtain ⟨⟨outcome, raw, more⟩, hstart, heq⟩ := Option.map_eq_some_iff.mp h
    cases heq
    obtain ⟨hkey, hsteps⟩ := TbsRaw.startBof_lkey hstart
    refine ⟨hkey, fun f hf => .inl hf, fun c k hmem => ?_⟩
    rcases List.mem_append.mp hmem with hmem | hmem
    · rcases List.mem_cons.mp hmem with he | hmem
      · cases he
        exact ⟨rfl, rfl⟩
      · exact absurd hmem (hsteps c k)
    · simp at hmem
  · next launch =>
    have hlaunch := launch_onBehalf s .kcpfpg client launch
    dsimp only at h
    split at h
    · cases Option.some.inj h
      exact hlaunch
    · cases Option.some.inj h
      exact hlaunch.trans (.attempt ..)

/-- A request is refused and changes nothing, or its client is not locked out and it is done on
behalf of the client. -/
def Served (s : RawServer) (client : Text) (o : RawOutcome) : Prop :=
  (o.server = s ∧ o.events = []) ∨ (s.locked client = false ∧ OnBehalf s client o.server o.events)

theorem progdevCmd_served {args : Words} {opens : Bool} {image : ImageFile} {o : RawOutcome}
    (h : s.progdevCmd b client args opens image = some o) : s.Served client o := by
  unfold progdevCmd at h
  split at h
  · cases Option.some.inj h
    exact .inl ⟨rfl, rfl⟩
  · next hfree =>
    have hstop := stop_onBehalf s client opens
    refine .inr ⟨Bool.eq_false_iff.mpr fun hl => hfree (.inl hl), ?_⟩
    dsimp only at h
    split at h
    · cases Option.some.inj h
      exact hstop
    · split at h
      · cases Option.some.inj h
        exact hstop.trans (.attempt ..)
      · split at h
        · cases Option.some.inj h
          exact hstop.trans (.attempt ..)
        · obtain ⟨⟨result, t, more⟩, himage, heq⟩ := Option.map_eq_some_iff.mp h
          cases heq
          have hdone := hstop.trans (programImage_onBehalf himage)
          refine ⟨?_, hdone.flights, hdone.steps⟩
          rw [← hdone.key]
          dsimp only
          split <;> rfl

theorem uploadBinCmd_served (s : RawServer) (client : Text) (port : Option Nat) (opens : Bool) (launch : Launch) :
    s.Served client (s.uploadBinCmd client port opens launch) := by
  have hstop := stop_onBehalf s client opens
  unfold uploadBinCmd
  split
  · exact .inl ⟨rfl, rfl⟩
  · next hfree =>
    split
    · exact .inl ⟨rfl, rfl⟩
    · split
      · exact .inl ⟨rfl, rfl⟩
      · refine .inr ⟨Bool.eq_false_iff.mpr hfree, ?_⟩
        dsimp only
        split
        · exact hstop.trans (.attempt ..)
        · have hlaunch := hstop.trans (launch_onBehalf (s.stop client opens).2.1 .bin client launch)
          rw [List.append_nil] at hlaunch
          split
          · exact hlaunch
          · exact hlaunch.trans (.attempt ..)

theorem uploadProgramCmd_served (s : RawServer) (client : Text) (port : Option Nat) (opens : Bool) (launch : Launch) :
    s.Served client (s.uploadProgramCmd client port opens launch) := by
  have hstop := stop_onBehalf s client opens
  unfold uploadProgramCmd
  split
  · exact .inl ⟨rfl, rfl⟩
  · next hfree =>
    split
    · exact .inl ⟨rfl, rfl⟩
    · split
      · exact .inl ⟨rfl, rfl⟩
      · refine .inr ⟨Bool.eq_false_iff.mpr hfree, ?_⟩
        have hlaunch := hstop.trans (launch_onBehalf (s.stop client opens).2.1 .remote client launch)
        rw [List.append_nil] at hlaunch
        dsimp only
        split
        · exact hlaunch
        · exact hlaunch.trans (.attempt ..)

theorem uploadBinComplete_onBehalf (s : RawServer) (client : Text) (ok : Bool) :
    OnBehalf s client (s.uploadBinComplete client ok).1 (s.uploadBinComplete client ok).2 := by
  cases ok with
  | false => exact .attempt ..
  | true =>
    refine ⟨TbsRaw.startFpg_lkey s.raw, fun f hf => .inl hf, fun c k hmem => ?_⟩
    unfold uploadBinComplete at hmem
    simpa using hmem

theorem uploadProgramPartial_onBehalf {ok opens : Bool} {image : ImageFile}
    (h : s.uploadProgramPartial b client ok opens image = some (s', events)) : OnBehalf s client s' events := by
  have hstop := stop_onBehalf s client opens
  unfold uploadProgramPartial at h
  split at h
  · cases Option.some.inj h
    exact .attempt ..
  · dsimp only at h
    split at h
    · cases Option.some.inj h
      exact hstop.trans (.attempt ..)
    · obtain ⟨⟨result, t, more⟩, himage, heq⟩ := Option.map_eq_some_iff.mp h
      cases heq
      exact hstop.trans (programImage_onBehalf himage)

/-- A child that ends. -/
theorem land_some {kind : FlightKind} (h : s.land kind = some (client, s')) :
    ∃ f ∈ s.flights, f.kind = kind ∧ f.running = true ∧ f.client = client ∧
      s' = { s with flights := s.flights.erase f } := by
  obtain ⟨f, hf, heq⟩ := Option.map_eq_some_iff.mp h
  cases heq
  have hfound := List.find?_some hf
  simp only [decide_eq_true_eq] at hfound
  exact ⟨f, List.mem_of_find?_eq_some hf, hfound.1, hfound.2, rfl, rfl⟩

end RawServer

/-- The uploads in flight that will stop or program the fpga when they end are those of the client
whose name is the key. -/
def HeldBy (key : Text) (flights : List Flight) : Prop :=
  ∀ f ∈ flights, f.running = true → f.kind ≠ .kcpfpg → f.client = key

/-- Every step of the fpga that is taken while a key is set is in the name of the client with
that name. -/
def LockRespected (log : List RawEvent) : Prop := ∀ client key, .step client (some key) ∈ log → client = key

/-- The device is locked only while the uploads in flight are those of the client named by the key. -/
def LockClear (s : RawServer) : RawAction → Prop
  | .lockdev client args => s.raw.rLkey = none → ∀ key, RawServer.lockKey client args = some key → HeldBy key s.flights
  | _ => True

structure LockInv (s : RawServer) (log : List RawEvent) : Prop where
  held : ∀ key, s.raw.rLkey = some key → HeldBy key s.flights
  respected : LockRespected log

variable {log : List RawEvent}

/-- What is done for a client that may hold the lock keeps it respected. -/
theorem LockInv.behalf (h : LockInv s log) (hb : OnBehalf s client s' events)
    (hclient : ∀ key, s.raw.rLkey = some key → client = key) : LockInv s' (log ++ events) := by
  constructor
  · intro key hkey f hf hrun hkind
    rw [hb.key] at hkey
    rcases hb.flights f hf with hf | hf
    · exact h.held key hkey f hf hrun hkind
    · exact hf.trans (hclient key hkey)
  · intro c key hmem
    rcases List.mem_append.mp hmem with hmem | hmem
    · exact h.respected c key hmem
    · obtain ⟨rfl, hkey⟩ := hb.steps c (some key) hmem
      exact hclient key hkey.symm

theorem LockInv.served (h : LockInv s log) {o : RawOutcome} (ho : s.Served client o) :
    LockInv o.server (log ++ o.events) := by
  rcases ho with ⟨hs, he⟩ | ⟨hfree, hb⟩
  · rw [hs, he, List.append_nil]
    exact h
  · refine h.behalf hb fun key hkey => ?_
    unfold RawServer.locked at hfree
    rw [hkey] at hfree
    have hsame : key = client := by simpa using hfree
    exact hsame.symm

theorem LockInv.fewer (h : LockInv s log) {flights : List Flight} (hsub : ∀ f ∈ flights, f ∈ s.flights) :
    LockInv { s with flights := flights } log :=
  ⟨fun key hkey f hf => h.held key hkey f (hsub f hf), h.respected⟩

/-- What changes neither the key nor the notices and takes no step of the fpga. -/
theorem LockInv.quiet (h : LockInv s log) (hkey : raw.rLkey = s.raw.rLkey) (hsteps : ∀ c k, .step c k ∉ events) :
    LockInv (s.withRaw raw) (log ++ events) := by
  refine ⟨fun key hk => h.held key (hkey ▸ hk), fun c key hmem => ?_⟩
  rcases List.mem_append.mp hmem with hmem | hmem
  · exact h.respected c key hmem
  · exact absurd hmem (hsteps c _)

/-- When an upload ends, what it does is done for the client that holds the lock, if one does. -/
theorem LockInv.landed (h : LockInv s log) {kind : FlightKind} (hkind : kind ≠ .kcpfpg)
    (hland : s.land kind = some (client, t)) (hb : OnBehalf t client s' events) : LockInv s' (log ++ events) := by
  obtain ⟨f, hf, hfk, hrun, hclient, rfl⟩ := RawServer.land_some hland
  refine (h.fewer fun g hg => List.mem_of_mem_erase hg).behalf hb fun key hkey => ?_
  exact hclient ▸ h.held key hkey f hf hrun (hfk ▸ hkind)

theorem TbsRaw.registerCmd_steps (raw : TbsRaw) (name : Text) (d : Declaration) (c : Text) (k : Option Text) :
    .step c k ∉ (raw.registerCmd name d).2.2 := by
  unfold registerCmd
  split
  · exact List.not_mem_nil
  · split
    · exact List.not_mem_nil
    · dsimp only
      split <;> simp

theorem lockdevCmd_inv (h : LockInv s log) {args : Words} (hclear : LockClear s (.lockdev client args)) :
    LockInv (s.lockdevCmd client args).server log := by
  unfold RawServer.lockdevCmd
  split
  · exact h
  · next hnone =>
    split
    · exact h
    · have hkey : s.raw.rLkey = none := by simpa using hnone
      exact ⟨fun key hk => hclear hkey key hk, h.respected⟩

theorem unlockdevCmd_inv (h : LockInv s log) {args : Words} {o : RawOutcome}
    (ho : s.unlockdevCmd client args = some o) : LockInv o.server log := by
  have hunlocked : LockInv (s.withRaw { s.raw with rLkey := none }) log :=
    ⟨fun key hk => (nomatch hk), h.respected⟩
  unfold RawServer.unlockdevCmd at ho
  split at ho
  · cases Option.some.inj ho
    exact h
  · dsimp only at ho
    split at ho
    · cases Option.some.inj ho
      exact h
    · split at ho
      · cases Option.some.inj ho
        split
        · exact h
        · exact hunlocked
      · split at ho
        · obtain ⟨given, -, rfl⟩ := Option.map_eq_some_iff.mp ho
          split
          · exact h
          · exact hunlocked
        · cases Option.some.inj ho
          exact hunlocked

theorem lock_keeps (b : RawBuild) : (rawMachine b).Keeps LockClear LockInv := by
  refine Machine.keeps_of_act (f := fun s a => s.act b a) (fun _ _ => rfl) (fun _ _ => rfl)
    fun s log a next out h hok hact => ?_
  have hnone : ∀ (c : Text) (k : Option Text), RawEvent.step c k ∉ ([] : List RawEvent) := fun _ _ => List.not_mem_nil
  cases a with
  | progdev client args opens image =>
    obtain ⟨o, ho, heq⟩ := Option.map_eq_some_iff.mp hact
    cases heq
    exact h.served (RawServer.progdevCmd_served ho)
  | uploadBin client port opens launch =>
    cases Option.some.inj hact
    exact h.served (RawServer.uploadBinCmd_served ..)
  | progremote client port opens launch =>
    cases Option.some.inj hact
    exact h.served (RawServer.uploadProgramCmd_served ..)
  | lockdev client args =>
    cases Option.some.inj hact
    rw [List.append_nil]
    exact lockdevCmd_inv h hok
  | unlockdev client args =>
    obtain ⟨o, ho, heq⟩ := Option.map_eq_some_iff.mp hact
    cases heq
    rw [List.append_nil]
    exact unlockdevCmd_inv h ho
  | register name d =>
    cases Option.some.inj hact
    exact h.quiet (TbsRaw.registerCmd_lkey ..) fun c k => TbsRaw.registerCmd_steps s.raw name d c k
  | metaEntry args =>
    cases Option.some.inj hact
    exact h.quiet (TbsRaw.metaCmd_lkey ..) hnone
  | finalise opens address =>
    obtain ⟨⟨code, raw, more⟩, hfinal, heq⟩ := Option.map_eq_some_iff.mp hact
    cases heq
    obtain ⟨hkey, hsteps⟩ := TbsRaw.finaliseCmd_lkey hfinal
    exact h.quiet hkey hsteps
  | clobber enabled =>
    cases Option.some.inj hact
    exact h.quiet rfl hnone
  | tapStart name tap works =>
    cases Option.some.inj hact
    exact h.quiet (TbsRaw.insertTap_lkey ..) hnone
  | tapStop tap =>
    cases Option.some.inj hact
    exact h.quiet rfl hnone
  | transfer =>
    obtain ⟨⟨client, t⟩, hland, heq⟩ := Option.map_eq_some_iff.mp hact
    cases heq
    obtain ⟨f, hf, hfk, hrun, hclient, -⟩ := RawServer.land_some hland
    refine ⟨h.held, fun c key hmem => ?_⟩
    rcases List.mem_append.mp hmem with hmem | hmem
    · exact h.respected c key hmem
    · obtain ⟨rfl, hkey⟩ := RawEvent.step.inj (List.mem_singleton.mp hmem)
      exact hclient ▸ h.held key hkey.symm f hf hrun (by rw [hfk]; decide)
  | binDone ok =>
    obtain ⟨⟨client, t⟩, hland, heq⟩ := Option.map_eq_some_iff.mp hact
    have hdone := RawServer.uploadBinComplete_onBehalf t client ok
    dsimp only at heq
    rw [heq] at hdone
    exact h.landed (by decide) hland hdone
  | remoteDone ok opens image =>
    obtain ⟨⟨client, t⟩, hland, hpart⟩ := Option.bind_eq_some_iff.mp hact
    exact h.landed (by decide) hland (RawServer.uploadProgramPartial_onBehalf hpart)
  | kcpfpgDone =>
    obtain ⟨⟨client, t⟩, hland, heq⟩ := Option.map_eq_some_iff.mp hact
    cases heq
    obtain ⟨f, -, -, -, -, rfl⟩ := RawServer.land_some hland
    rw [List.append_nil]
    exact h.fewer fun g hg => List.mem_of_mem_erase hg
  | collect f =>
    obtain ⟨-, heq⟩ := Option.ite_none_right_eq_some.mp hact
    cases heq
    rw [List.append_nil]
    exact h.fewer fun g hg => List.mem_of_mem_erase hg

/-- If the device is never locked for a client while an upload of another one is in flight, the
lock is respected. -/
theorem lock_respected (h : (rawMachine b).Runs LockClear s log) : LockRespected log :=
  (h.invariant LockInv ⟨fun _ hk => (nomatch hk), fun _ _ hmem => absurd hmem List.not_mem_nil⟩
    (lock_keeps b)).respected

def hostBuild : RawBuild := ⟨false, 12, by decide⟩

/-- A client that locks the device before its upload. -/
theorem lock_respected_upload : ∃ log, LockRespected log ∧ .step (textOf "a") (some (textOf "a")) ∈ log :=
  ⟨_, lock_respected (Machine.Runs.exec (.start (m := rawMachine hostBuild))
    [.lockdev (textOf "a") [textOf "lockdev"], .uploadBin (textOf "a") none true .runs, .binDone true] rfl
    ⟨fun _ _ _ _ hf => absurd hf List.not_mem_nil, fun _ _ => ⟨trivial, fun _ _ => ⟨trivial, fun _ _ => trivial⟩⟩⟩),
    List.mem_cons_self ..⟩

/-- An upload whose client is locked out before it ends. -/
theorem locked_out_programs : ∃ s log, (rawMachine hostBuild).Runs (fun _ _ => True) s log ∧ ¬LockRespected log := by
  refine ⟨_, _, Machine.Runs.exec (.start (m := rawMachine hostBuild))
    [.uploadBin (textOf "a") none true .runs, .lockdev (textOf "b") [textOf "lockdev"], .binDone true] rfl
    (Machine.meets_true ..), fun h => ?_⟩
  have hclient := h (textOf "a") (textOf "b") (List.mem_cons_of_mem _ (List.mem_cons_of_mem _ (List.mem_cons_self ..)))
  exact absurd hclient (by decide)

end Katcp
