import Katcp.TapFrameRuns
import Katcp.TapSweeps

namespace Katcp

open BitMemory ByteBlock

/-- What an instance does outside of a sweep leaves the sweep where it is. -/
structure OutsideSweep (t t' : Tap) : Prop where
  touches : ArpTouches t.arp t'.arp
  burst : t'.rx.sBurst = t.rx.sBurst
  deferrals : t'.rx.sDeferrals = t.rx.sDeferrals

namespace OutsideSweep

variable {t t' t1 : Tap}

theorem of_eq (harp : t'.arp = t.arp) (hburst : t'.rx.sBurst = t.rx.sBurst)
    (hdeferrals : t'.rx.sDeferrals = t.rx.sDeferrals) : OutsideSweep t t' :=
  ⟨harp ▸ .refl, hburst, hdeferrals⟩

theorem of_same (harp : t'.arp = t.arp) (hrx : t'.rx = t.rx) : OutsideSweep t t' :=
  .of_eq harp (by rw [hrx]) (by rw [hrx])

theorem of_touch (htouch : ArpTouch t.arp t'.arp) (hrx : t'.rx = t.rx) : OutsideSweep t t' :=
  ⟨.single htouch, by rw [hrx], by rw [hrx]⟩

theorem of_touches {a : TapArp} (h : ArpTouches t.arp a) : OutsideSweep t { t with arp := a } := ⟨h, rfl, rfl⟩

theorem refl (t : Tap) : OutsideSweep t t := .of_same rfl rfl

theorem trans (h : OutsideSweep t t1) (h' : OutsideSweep t1 t') : OutsideSweep t t' :=
  ⟨h.touches.trans h'.touches, h'.burst.trans h.burst, h'.deferrals.trans h.deferrals⟩

/-- What is changed before does not matter to the sweep. -/
theorem before (h : OutsideSweep t1 t') (harp : t1.arp = t.arp) (hburst : t1.rx.sBurst = t.rx.sBurst)
    (hdeferrals : t1.rx.sDeferrals = t.rx.sDeferrals) : OutsideSweep t t' :=
  (of_eq harp hburst hdeferrals).trans h

end OutsideSweep

namespace Tap

variable {w : TapWorld} {t t' : Tap}

theorem gleanArp_outside (mac : Octets) (v : BitVec 32) : OutsideSweep t (t.gleanArp mac v) := by
  unfold gleanArp
  dsimp only
  repeat' split
  all_goals first | exact .refl t | exact .of_touch (.glean _ _) rfl

theorem replyArp_outside : OutsideSweep t (t.replyArp w).2 :=
  ⟨.single (.refresh _ (by decide)), rfl, rfl⟩

theorem processArp_outside : OutsideSweep t (t.processArp w).2 := by
  unfold processArp
  split
  · exact .refl t
  · split
    · exact gleanArp_outside _ _
    · split
      · split
        · exact replyArp_outside
        · exact (gleanArp_outside _ _).before rfl rfl rfl
      · exact .refl t

/-- A reload is a number of new delays. -/
theorem tapReloadArp_touches (a : TapArp) (mac : Octets) : ArpTouches a (a.tapReloadArp mac) := by
  have hfirst : ∀ (b : TapArp) i, b.firstDelay i ≤ longDelay := fun b i => by
    unfold TapArp.firstDelay getapArpCache cacheDivisor longDelay
    omega
  have hfold : ∀ (l : List Nat) (b : TapArp), ArpTouches b (l.foldl (fun a i => a.refresh i (a.firstDelay i)) b) := by
    intro l
    induction l with
    | nil => exact fun b => .refl
    | cons i l ih => exact fun b => .head (.refresh i (hfirst b i)) (ih _)
  unfold TapArp.tapReloadArp
  dsimp only
  split
  · exact (hfold _ a).tail (.entry _ mac (by decide))
  · exact hfold _ a

theorem fillArp_touches (a : TapArp) (broadcast mac : Octets) : ArpTouches a (a.fillArp broadcast mac) := by
  have hfirst : ∀ (b : TapArp) i, b.firstDelay i ≤ longDelay := fun b i => by
    unfold TapArp.firstDelay getapArpCache cacheDivisor longDelay
    omega
  have hfold : ∀ (l : List Nat) (b : TapArp),
      ArpTouches b (l.foldl (fun a i => a.setEntryArp i broadcast (a.firstDelay i)) b) := by
    intro l
    induction l with
    | nil => exact fun b => .refl
    | cons i l ih => exact fun b => .head (.entry i broadcast (hfirst b i)) (ih _)
  unfold TapArp.fillArp
  dsimp only
  split
  · exact (hfold _ a).tail (.entry _ mac (by decide))
  · exact hfold _ a

theorem tapReloadArp_outside : OutsideSweep t t.tapReloadArp := ⟨tapReloadArp_touches _ _, rfl, rfl⟩

theorem takeDhcp_outside {mtype : DhcpMsgType} {is : Bool} (h : t.takeDhcp w mtype = some (is, t')) :
    OutsideSweep t t' := by
  unfold takeDhcp at h
  split at h
  next =>
    obtain ⟨⟨mt, t1⟩, hp, h⟩ := Option.map_eq_some_iff.mp h
    cases h
    unfold processDhcp at hp
    dsimp only at hp
    split at hp
    next =>
      obtain ⟨_, _, hp⟩ := Option.map_eq_some_iff.mp hp
      cases hp
      exact .of_same rfl rfl
    next =>
      cases Option.some.inj hp
      exact .of_eq rfl rfl rfl
  next =>
    cases Option.some.inj h
    exact .refl t

theorem configureIpFpga_outside {address : BitVec 32} {subnet : Option Nat} {gateway : Option (BitVec 32)} :
    OutsideSweep t (t.configureIpFpga address subnet gateway).2 := by
  unfold configureIpFpga
  dsimp only
  split
  · exact .of_same rfl rfl
  · exact .of_touch (.self _) rfl

theorem leased_outside : OutsideSweep t ({ t with arp := t.arp.note (.leased t.arp.sSelf) }.announceArp w) :=
  .of_touch .lease rfl

theorem dhcpConfigureFpga_outside : OutsideSweep t (t.dhcpConfigureFpga w).2 := by
  have hconf : OutsideSweep t (t.configureIpFpga t.dhcp.lease.sDhcpYipAddr
      (some (convertNetmask t.dhcp.lease.sDhcpSubmask)) (some t.dhcp.lease.sDhcpRoute)).2 := configureIpFpga_outside
  unfold dhcpConfigureFpga
  dsimp only
  generalize t.configureIpFpga t.dhcp.lease.sDhcpYipAddr (some (convertNetmask t.dhcp.lease.sDhcpSubmask))
    (some t.dhcp.lease.sDhcpRoute) = r at hconf ⊢
  obtain ⟨ok, t1⟩ := r
  split
  · exact (hconf.trans tapReloadArp_outside).trans leased_outside
  · exact hconf

theorem addDhcpError_outside (ok : Bool) (t : Tap) : OutsideSweep t (if ok then t else t.addDhcpError) := by
  split
  · exact .refl t
  · exact .of_same rfl rfl

theorem bound_outside {d : TapDhcp} {outcome : DhcpOutcome} :
    OutsideSweep t (({ t with dhcp := d }.wakeDhcp outcome).dhcpGoes .bound) := .of_same rfl rfl

theorem leaseObtained_outside : OutsideSweep t (t.leaseObtained w) := by
  have hconf : OutsideSweep t (t.dhcpConfigureFpga w).2 := dhcpConfigureFpga_outside
  unfold leaseObtained
  dsimp only
  generalize t.dhcpConfigureFpga w = r at hconf ⊢
  refine (hconf.trans (addDhcpError_outside r.1 r.2)).trans ?_
  generalize (if r.1 = true then r.2 else r.2.addDhcpError) = t1
  have hkernel : OutsideSweep t1 (t1.dhcpConfigureKernel w).2 := .of_same rfl rfl
  refine (hkernel.trans (addDhcpError_outside (t1.dhcpConfigureKernel w).1 _)).trans ?_
  exact bound_outside

theorem requestDhcpState_outside (h : t.requestDhcpState w = some t') : OutsideSweep t t' := by
  obtain ⟨⟨is, t1⟩, ht, h⟩ := Option.map_eq_some_iff.mp h
  cases h
  refine (takeDhcp_outside ht).trans ?_
  dsimp only
  split
  · exact leaseObtained_outside
  · exact .of_same rfl rfl

theorem selectDhcpState_outside (h : t.selectDhcpState w = some t') : OutsideSweep t t' := by
  obtain ⟨⟨is, t1⟩, ht, h⟩ := Option.map_eq_some_iff.mp h
  cases h
  refine (takeDhcp_outside ht).trans ?_
  dsimp only
  split <;> exact .of_same rfl rfl

theorem renewDhcpState_outside (h : t.renewDhcpState w = some t') : OutsideSweep t t' := by
  obtain ⟨⟨is, t1⟩, ht, h⟩ := Option.map_eq_some_iff.mp h
  cases h
  have htaken : OutsideSweep t t1 := (takeDhcp_outside ht).before rfl rfl rfl
  refine htaken.trans ?_
  dsimp only
  split
  · exact .of_same rfl rfl
  · split <;> exact .of_same rfl rfl

theorem rebindDhcpState_outside (h : t.rebindDhcpState w = some t') : OutsideSweep t t' := by
  obtain ⟨⟨is, t1⟩, ht, h⟩ := Option.map_eq_some_iff.mp h
  cases h
  have htaken : OutsideSweep t t1 := (takeDhcp_outside ht).before rfl rfl rfl
  refine htaken.trans ?_
  dsimp only
  split
  · exact .of_same rfl rfl
  · split <;> exact .of_same rfl rfl

theorem dhcpStateTable_outside (h : t.dhcpStateTable w = some t') : OutsideSweep t t' := by
  unfold dhcpStateTable at h
  split at h
  next =>
    cases Option.some.inj h
    exact .of_same rfl rfl
  next =>
    cases Option.some.inj h
    unfold randomizeDhcpState
    split <;> exact .of_same rfl rfl
  next => exact selectDhcpState_outside h
  next =>
    cases Option.some.inj h
    unfold waitDhcpState
    dsimp only
    repeat' split
    all_goals exact .of_same rfl rfl
  next => exact requestDhcpState_outside h
  next =>
    cases Option.some.inj h
    unfold boundDhcpState
    dsimp only
    split <;> exact .of_same rfl rfl
  next => exact renewDhcpState_outside h
  next => exact rebindDhcpState_outside h

theorem dhcpStatemachine_outside (h : t.dhcpStatemachine w = some t') : OutsideSweep t t' := by
  unfold dhcpStatemachine at h
  dsimp only at h
  split at h
  next =>
    split at h
    next =>
      cases Option.some.inj h
      exact .of_same rfl rfl
    next => exact (dhcpStateTable_outside h).before rfl rfl rfl
  next => exact (dhcpStateTable_outside h).before rfl rfl rfl

theorem flushBuffers_outside : OutsideSweep t (t.flushBuffers w) := by
  unfold flushBuffers
  dsimp only
  split <;> split <;> exact .of_same rfl rfl

theorem receiveFrameFpga_outside : OutsideSweep t (t.receiveFrameFpga w).2 := by
  unfold receiveFrameFpga
  dsimp only
  repeat' split
  all_goals exact .of_eq rfl rfl rfl

theorem transmitIpKernel_outside : OutsideSweep t (t.transmitIpKernel w).2 := by
  unfold transmitIpKernel
  repeat' split
  all_goals exact .of_eq rfl rfl rfl

theorem validateDhcpReply_outside : OutsideSweep t t.validateDhcpReply.2 := by
  unfold validateDhcpReply
  repeat' split
  all_goals exact .of_eq rfl rfl rfl

theorem keepDhcp_outside : OutsideSweep t t.keepDhcp := by
  unfold keepDhcp
  split <;> exact .of_same rfl rfl

theorem receivedIp_outside : OutsideSweep t (t.receivedIp w).2 := by
  unfold receivedIp
  dsimp only
  refine validateDhcpReply_outside.trans ?_
  split
  · exact keepDhcp_outside.trans (.of_eq rfl rfl rfl)
  · have hk := transmitIpKernel_outside (w := w) (t := t.validateDhcpReply.2)
    split
    next h =>
      rw [h] at hk
      exact hk.trans (.of_eq rfl rfl rfl)
    next h =>
      rw [h] at hk
      exact hk.trans (.of_eq rfl rfl rfl)

theorem receivedArp_outside : OutsideSweep t (t.receivedArp w).2 := by
  have hp := processArp_outside (w := w) (t := t)
  unfold receivedArp
  split
  · split
    next h =>
      rw [h] at hp
      exact hp.trans (.of_eq rfl rfl rfl)
    next h =>
      rw [h] at hp
      exact hp.trans (.of_eq rfl rfl rfl)
    next h =>
      rw [h] at hp
      exact hp.trans (.of_eq rfl rfl rfl)
  · exact .of_eq rfl rfl rfl

theorem receivedFrame_outside : OutsideSweep t (t.receivedFrame w).2 := by
  unfold receivedFrame
  dsimp only
  split
  · exact receivedIp_outside.before rfl rfl rfl
  · split
    · exact receivedArp_outside.before rfl rfl rfl
    · exact .of_eq rfl rfl rfl

/-- A poll receives no more frames than its limit. -/
theorem receiveBurst_outside (left burst : Nat) :
    OutsideSweep t (t.receiveBurst w left burst).2 ∧ (t.receiveBurst w left burst).1 ≤ burst + left := by
  induction left generalizing t burst with
  | zero => exact ⟨.refl t, Nat.le_refl _⟩
  | succ left ih =>
    have hr := receiveFrameFpga_outside (w := w) (t := t)
    unfold receiveBurst
    split
    next he =>
      rw [he] at hr
      exact ⟨hr, Nat.le_add_right _ _⟩
    next t1 he =>
      rw [he] at hr
      have hf := receivedFrame_outside (w := w) (t := t1)
      split
      next t2 he2 =>
        rw [he2] at hf
        obtain ⟨houtside, hle⟩ := @ih t2 (burst + 1)
        exact ⟨(hr.trans hf).trans houtside, by omega⟩
      next t2 he2 =>
        rw [he2] at hf
        exact ⟨hr.trans hf, by dsimp only; omega⟩

theorem ioReadable_outside : OutsideSweep t (t.ioReadable w) := by
  have hread : OutsideSweep t (t.receiveIpKernel w).2 := by
    unfold receiveIpKernel
    dsimp only
    repeat' split
    all_goals exact .of_same rfl rfl
  unfold ioReadable
  split
  next h =>
    rw [h] at hread
    refine hread.trans ?_
    unfold transmitIpFpga
    split <;> exact .of_same rfl rfl
  next h =>
    rw [h] at hread
    exact hread

theorem ioWritable_outside : OutsideSweep t (t.ioWritable w) := by
  have hk := transmitIpKernel_outside (w := w) (t := t)
  unfold ioWritable
  split
  · split
    next h =>
      rw [h] at hk
      exact hk
    next h =>
      rw [h] at hk
      exact hk.trans (.of_eq rfl rfl rfl)
  · exact .refl t

theorem runIoTap_outside (readable writable : Bool) : OutsideSweep t (t.runIoTap w readable writable) := by
  have hread : OutsideSweep t (if readable then t.ioReadable w else t) := by
    split
    · exact ioReadable_outside
    · exact .refl t
  unfold runIoTap
  dsimp only
  split
  · exact hread.trans ioWritable_outside
  · exact hread

theorem askEntry_rx : (t.askEntry w).rx = t.rx := by
  unfold askEntry requestArp
  dsimp only
  repeat' split
  all_goals rfl

theorem spamSweep_rx (left : Nat) : (t.spamSweep w left).rx = t.rx := by
  induction left generalizing t with
  | zero => rfl
  | succ left ih =>
    unfold spamSweep
    dsimp only
    split
    · exact askEntry_rx
    · exact ih

/-- A sweep goes on by an entry at least, or comes to its end. -/
structure Swept (a a' : TapArp) : Prop where
  moves : ArpMoves a a'
  onward : a.sIndex < a'.sIndex ∨ ∃ more, a'.sweeps = a.sweeps ++ more ∧ .swept ∈ more

theorem spamSweep_swept (left : Nat) (hleft : t.arp.sTableSize - 1 - t.arp.sIndex = left) :
    Swept t.arp (t.spamSweep w left).arp := by
  induction left generalizing t with
  | zero =>
    refine ⟨.single (.sweep (by omega)), .inr ⟨[.swept, .ticked], ?_, List.mem_cons_self⟩⟩
    exact List.append_assoc _ _ _
  | succ left ih =>
    have hlt : t.arp.sIndex < t.arp.sTableSize - 1 := by omega
    unfold spamSweep
    dsimp only
    by_cases hdue : t.arp.reach.age (t.arp.reach.sArpFresh t.arp.reach.sIndex) < 2 * getapArpCache
    · rw [if_pos hdue]
      unfold askEntry
      dsimp only
      by_cases hself : t.arp.reach.sIndex = t.arp.reach.sSelf
      · rw [if_pos hself]
        refine ⟨.single (.own hlt hdue hself), .inl ?_⟩
        show t.arp.sIndex < t.arp.reach.announce.sIndex + 1
        rw [TapArp.announce_index]
        exact Nat.lt_succ_self _
      · rw [if_neg hself, requestArp, if_neg (Ne.symm hself)]
        exact ⟨.single (.ask hlt hdue hself), .inl (Nat.lt_succ_self _)⟩
    · rw [if_neg hdue]
      have hpass : ArpMove t.arp t.arp.reach.advance := .pass hlt hdue
      obtain ⟨hmoves, honward⟩ := @ih { t with arp := t.arp.reach.advance } (by
        show t.arp.sTableSize - 1 - (t.arp.sIndex + 1) = left
        omega)
      refine ⟨.head hpass hmoves, honward.imp (fun h => Nat.lt_of_succ_lt h) ?_⟩
      rintro ⟨more, hmore, hmem⟩
      obtain ⟨first, hfirst⟩ := hpass.grows
      exact ⟨first ++ more, by rw [hmore, ← hfirst, List.append_assoc], List.mem_append_right _ hmem⟩

theorem spamArp_swept (hfree : t.tx.sArpLen = 0) : Swept t.arp (t.spamArp w).arp := by
  unfold spamArp
  rw [if_neg (by omega)]
  dsimp only
  split
  next hsize =>
    have hshrink : ArpMove t.arp { t.arp with sTableSize := getapArpCache } := .shrink hsize
    obtain ⟨hmoves, honward⟩ := spamSweep_swept (w := w)
      (t := { t with arp := { t.arp with sTableSize := getapArpCache } }) _ rfl
    exact ⟨.head hshrink hmoves, honward⟩
  next => exact spamSweep_swept _ rfl

theorem spamArp_moves_arp : ArpMoves t.arp (t.spamArp w).arp := by
  by_cases hfree : t.tx.sArpLen = 0
  · exact (spamArp_swept hfree).moves
  · unfold spamArp
    rw [if_pos (by omega)]

theorem spamArp_onward :
    (∃ more, (t.spamArp w).arp.sweeps = t.arp.sweeps ++ more ∧ .swept ∈ more) ∨ t.arp.sIndex ≤ (t.spamArp w).arp.sIndex := by
  by_cases hfree : t.tx.sArpLen = 0
  · exact (spamArp_swept hfree).onward.symm.imp id Nat.le_of_lt
  · unfold spamArp
    rw [if_pos (by omega)]
    exact .inr (Nat.le_refl _)

theorem spamArp_rx : (t.spamArp w).rx = t.rx := by
  unfold spamArp
  dsimp only
  repeat' split
  all_goals first | rfl | exact spamSweep_rx _

/-- What a poll does before the sweep: how many frames it has received, and the instance then. -/
def beforeSweep (w : TapWorld) (t : Tap) : Option (Nat × Tap) :=
  (if t.dhcp.sDhcpSmEnable then t.dhcpStatemachine w else some t).map fun t =>
    (t.flushBuffers w).receiveBurst w ((t.flushBuffers w).rx.sBurst + 1) 0

/-- The arp table is maintained when the poll comes to it. -/
def maintains (w : TapWorld) (t : Tap) : Bool :=
  match t.beforeSweep w with
  | some (_, t1) => t1.addr.sAddress ≠ 0 ∧ t1.sArpMode ≠ 0
  | none => false

/-- The poll does not put off the sweep. -/
def sweeps (w : TapWorld) (t : Tap) : Bool :=
  match t.beforeSweep w with
  | some (burst, t1) => (t1.addr.sAddress ≠ 0 ∧ t1.sArpMode ≠ 0) ∧ burst < t1.rx.sDeferrals + 1
  | none => false

/-- The poll does not put off the sweep, and finds the arp buffer free. -/
def sweepsFree (w : TapWorld) (t : Tap) : Bool :=
  match t.beforeSweep w with
  | some (burst, t1) => ((t1.addr.sAddress ≠ 0 ∧ t1.sArpMode ≠ 0) ∧ burst < t1.rx.sDeferrals + 1) ∧ t1.tx.sArpLen = 0
  | none => false

theorem runTimerTap_eq : t.runTimerTap w = (t.beforeSweep w).map fun r => r.2.spamQuiet w r.1 := by
  unfold runTimerTap beforeSweep
  rw [Option.map_map]
  rfl

/-- How many entries a sweep still has to go. -/
def distance (t : Tap) : Nat := lastEntry - t.arp.sIndex

end Tap

/-- An instance whose table is maintained, and which does not put off the sweep more than nine times. -/
structure Paced (t : Tap) : Prop where
  maintained : Maintained t.arp
  burst : t.rx.sBurst = 8
  deferrals : t.rx.sDeferrals ≤ 9

/-- A sweep has ended in the meantime. -/
def SweptSince (t t' : Tap) : Prop := ∃ more, t'.arp.sweeps = t.arp.sweeps ++ more ∧ .swept ∈ more

section

variable {w : TapWorld} {t t1 t' : Tap} {burst : Nat}

theorem SweptSince.upto (h : SweptSince t t1) (hgrows : t1.arp.sweeps <+: t'.arp.sweeps) : SweptSince t t' := by
  obtain ⟨more, hmore, hmem⟩ := h
  obtain ⟨rest, hrest⟩ := hgrows
  exact ⟨more ++ rest, by rw [← hrest, hmore, List.append_assoc], List.mem_append_left _ hmem⟩

theorem SweptSince.since (hgrows : t.arp.sweeps <+: t1.arp.sweeps) (h : SweptSince t1 t') : SweptSince t t' := by
  obtain ⟨more, hmore, hmem⟩ := h
  obtain ⟨first, hfirst⟩ := hgrows
  exact ⟨first ++ more, by rw [hmore, ← hfirst, List.append_assoc], List.mem_append_right _ hmem⟩

theorem Maintained.index_le (h : Maintained t.arp) : 1 ≤ t.arp.sIndex ∧ t.arp.sIndex ≤ lastEntry := by
  obtain ⟨p, _, hf⟩ := h
  rw [hf.index]
  exact ⟨hf.first, hf.last⟩

theorem Paced.outside (h : Paced t) (houtside : OutsideSweep t t') : Paced t' :=
  ⟨h.maintained.moves houtside.touches.moves, houtside.burst.trans h.burst, houtside.deferrals ▸ h.deferrals⟩

theorem OutsideSweep.distance (h : OutsideSweep t t') : t'.distance = t.distance := by
  rw [Tap.distance, Tap.distance, h.touches.index]

theorem beforeSweep_outside (hbefore : t.beforeSweep w = some (burst, t1)) :
    OutsideSweep t t1 ∧ burst ≤ t.rx.sBurst + 1 := by
  obtain ⟨t0, h0, heq⟩ := Option.map_eq_some_iff.mp hbefore
  have hdhcp : OutsideSweep t t0 := by
    split at h0
    · exact Tap.dhcpStatemachine_outside h0
    · cases Option.some.inj h0
      exact .refl t
  have hflush : OutsideSweep t (t0.flushBuffers w) := hdhcp.trans Tap.flushBuffers_outside
  obtain ⟨hburst, hle⟩ := Tap.receiveBurst_outside (w := w) (t := t0.flushBuffers w)
    ((t0.flushBuffers w).rx.sBurst + 1) 0
  rw [heq] at hburst hle
  rw [hflush.burst, Nat.zero_add] at hle
  exact ⟨hflush.trans hburst, hle⟩

/-- The sweep is put off at most nine times in a row. -/
theorem spamQuiet_paced (h : Paced t) (hburst : burst ≤ 9) : Paced (t.spamQuiet w burst) := by
  have hpos := h.deferrals
  unfold Tap.spamQuiet
  split
  · split
    · exact ⟨h.maintained.moves Tap.spamArp_moves_arp, (congrArg TapRx.sBurst Tap.spamArp_rx).trans h.burst,
        Nat.zero_le _⟩
    · exact ⟨h.maintained, h.burst, by dsimp only; omega⟩
  · exact h

theorem spamQuiet_put_off : (t.spamQuiet w burst).rx.sDeferrals =
    if t.addr.sAddress ≠ 0 ∧ t.sArpMode ≠ 0 then
      if burst < t.rx.sDeferrals + 1 then 0 else t.rx.sDeferrals + 1
    else t.rx.sDeferrals := by
  unfold Tap.spamQuiet
  split
  · split <;> rfl
  · rfl

theorem spamQuiet_moves : ArpMoves t.arp (t.spamQuiet w burst).arp := by
  unfold Tap.spamQuiet
  split
  · split
    · exact Tap.spamArp_moves_arp
    · exact .refl
  · exact .refl

theorem poll_moves (hpoll : t.runTimerTap w = some t') : ArpMoves t.arp t'.arp := by
  rw [Tap.runTimerTap_eq] at hpoll
  obtain ⟨⟨burst, t1⟩, hbefore, rfl⟩ := Option.map_eq_some_iff.mp hpoll
  exact ((beforeSweep_outside hbefore).1.touches.moves).trans spamQuiet_moves

theorem poll_paced (h : Paced t) (hpoll : t.runTimerTap w = some t') : Paced t' := by
  rw [Tap.runTimerTap_eq] at hpoll
  obtain ⟨⟨burst, t1⟩, hbefore, rfl⟩ := Option.map_eq_some_iff.mp hpoll
  obtain ⟨houtside, hburst⟩ := beforeSweep_outside hbefore
  rw [h.burst] at hburst
  exact spamQuiet_paced (h.outside houtside) hburst

/-- A poll that sweeps with the arp buffer free is one entry on. -/
theorem poll_sweeps (h : Paced t) (hpoll : t.runTimerTap w = some t') (hfree : t.sweepsFree w = true) :
    SweptSince t t' ∨ t'.distance < t.distance := by
  have hp := poll_paced h hpoll
  rw [Tap.runTimerTap_eq] at hpoll
  obtain ⟨⟨burst, t1⟩, hbefore, rfl⟩ := Option.map_eq_some_iff.mp hpoll
  have houtside := (beforeSweep_outside hbefore).1
  unfold Tap.sweepsFree at hfree
  rw [hbefore] at hfree
  obtain ⟨⟨hon, hquiet⟩, hlen⟩ := of_decide_eq_true hfree
  have hindex := hp.maintained.index_le.2
  rw [← houtside.distance]
  unfold Tap.distance
  dsimp only at hindex ⊢
  unfold Tap.spamQuiet at hindex ⊢
  rw [if_pos hon, if_pos hquiet] at hindex ⊢
  obtain ⟨hmoves, honward | hswept⟩ := Tap.spamArp_swept (w := w) hlen
  · refine .inr ?_
    dsimp only at hindex ⊢
    omega
  · exact .inl (.since houtside.touches.moves.grows hswept)

/-- A poll of the arp table that does not sweep has put it off once more. -/
theorem poll_puts_off (h : Paced t) (hpoll : t.runTimerTap w = some t') (hon : t.maintains w = true) :
    1 + t.rx.sDeferrals ≤ 10 * (t.sweeps w).toNat + t'.rx.sDeferrals := by
  have hpos := h.deferrals
  rw [Tap.runTimerTap_eq] at hpoll
  obtain ⟨⟨burst, t1⟩, hbefore, rfl⟩ := Option.map_eq_some_iff.mp hpoll
  have houtside := (beforeSweep_outside hbefore).1
  unfold Tap.maintains at hon
  unfold Tap.sweeps
  rw [hbefore] at hon ⊢
  have hon := of_decide_eq_true hon
  rw [← houtside.deferrals, spamQuiet_put_off, if_pos hon]
  rw [← houtside.deferrals] at hpos
  by_cases hquiet : burst < t1.rx.sDeferrals + 1
  · have hsweeps : (decide ((t1.addr.sAddress ≠ 0 ∧ t1.sArpMode ≠ 0) ∧ burst < t1.rx.sDeferrals + 1)).toNat = 1 := by
      rw [decide_eq_true ⟨hon, hquiet⟩, Bool.toNat_true]
    rw [if_pos hquiet]
    dsimp only
    rw [hsweeps]
    omega
  · rw [if_neg hquiet, Nat.add_comm 1]
    exact Nat.le_add_left _ _

end

def TapAction.isPoll : TapAction → Bool
  | .poll _ => true
  | _ => false

/-- The poll is one that the arp table is maintained at. -/
def maintains (t : Tap) : TapAction → Prop
  | .poll w => t.maintains w = true
  | _ => True

/-- The action is a poll that does not put off the sweep. -/
def sweeps (t : Tap) : TapAction → Bool
  | .poll w => t.sweeps w
  | _ => false

/-- The action is a poll that does not put off the sweep, and finds the arp buffer free. -/
def sweepsFree (t : Tap) : TapAction → Bool
  | .poll w => t.sweepsFree w
  | _ => false

/-- What an instance is set up with is short enough for a clock of 32 bits. -/
structure ShortSetup (setup : TapSetup) : Prop where
  spam : setup.spamPeriod.current < 2 ^ 30
  spamStep : setup.spamPeriod.increment < 2 ^ 30
  spamStop : setup.spamPeriod.stop < 2 ^ 30
  announce : setup.announcePeriod.current < 2 ^ 30
  announceStep : setup.announcePeriod.increment < 2 ^ 30
  announceStop : setup.announcePeriod.stop < 2 ^ 30
  valid : setup.validPeriod < 2 ^ 30

section

variable {t t' created : Tap} {setup : TapSetup} {log out : List Unit} {a : TapAction} {actions : List TapAction}

/-- What is no poll does not concern the sweep. -/
theorem act_outside (ha : a.isPoll = false) (h : t.act a = some t') : OutsideSweep t t' := by
  cases a with
  | poll w => cases ha
  | io w readable writable =>
    cases Option.some.inj h
    exact Tap.runIoTap_outside readable writable
  | reload =>
    cases Option.some.inj h
    exact Tap.tapReloadArp_outside
  | dhcp n =>
    obtain ⟨_, h⟩ := Option.ite_none_left_eq_some.mp h
    cases Option.some.inj h
    exact .of_same rfl rfl

theorem act_paced (hp : Paced t) (h : t.act a = some t') : Paced t' ∧ t.arp.sweeps <+: t'.arp.sweeps := by
  by_cases ha : a.isPoll = false
  · have houtside := act_outside ha h
    exact ⟨hp.outside houtside, houtside.touches.moves.grows⟩
  · cases a with
    | poll w => exact ⟨poll_paced hp h, (poll_moves h).grows⟩
    | _ => exact absurd rfl ha

theorem poll_distance (hpoll : t.runTimerTap w = some t') :
    SweptSince t t' ∨ t'.distance ≤ t.distance := by
  rw [Tap.runTimerTap_eq] at hpoll
  obtain ⟨⟨burst, t1⟩, hbefore, rfl⟩ := Option.map_eq_some_iff.mp hpoll
  have houtside := (beforeSweep_outside hbefore).1
  rw [← houtside.distance]
  refine Or.imp (.since houtside.touches.moves.grows) id ?_
  unfold Tap.distance Tap.spamQuiet
  dsimp only
  split
  · split
    · rcases Tap.spamArp_onward (w := w) (t := t1) with hswept | honward
      · exact .inl hswept
      · exact .inr (Nat.sub_le_sub_left honward _)
    · exact .inr (Nat.le_refl _)
  · exact .inr (Nat.le_refl _)

theorem act_sweeps (hp : Paced t) (h : t.act a = some t') :
    SweptSince t t' ∨ t'.distance + (sweepsFree t a).toNat ≤ t.distance := by
  cases a with
  | poll w =>
    show SweptSince t t' ∨ t'.distance + (t.sweepsFree w).toNat ≤ t.distance
    cases hfree : t.sweepsFree w with
    | true => exact poll_sweeps hp h hfree
    | false => exact poll_distance h
  | _ => exact .inr (Nat.le_of_eq (act_outside rfl h).distance)

theorem exec_grows (hp : Paced t) (he : (tapMachine created).exec t actions = some (t', out)) :
    t.arp.sweeps <+: t'.arp.sweeps :=
  (@Machine.exec_keeps _ _ _ _ _ [] _ _ (fun t2 _ => Paced t2 ∧ t.arp.sweeps <+: t2.arp.sweeps) actions he
    ⟨hp, List.prefix_rfl⟩ fun _ _ _ _ _ hs hstep =>
      ⟨(act_paced hs.1 hstep).1, hs.2.trans (act_paced hs.1 hstep).2⟩).2

/-- Each poll that sweeps with the arp buffer free brings the end of the sweep nearer. -/
theorem exec_sweeps (hp : Paced t) (he : (tapMachine created).exec t actions = some (t', out)) :
    SweptSince t t' ∨ t'.distance + (tapMachine created).times sweepsFree t actions ≤ t.distance := by
  induction actions generalizing t out with
  | nil =>
    cases he
    exact .inr (Nat.le_refl _)
  | cons a rest ih =>
    obtain ⟨t1, h1, he⟩ := Option.bind_eq_some_iff.mp he
    obtain ⟨⟨t2, more⟩, hmore, he⟩ := Option.map_eq_some_iff.mp he
    cases he
    obtain ⟨hp1, hgrows⟩ := act_paced hp h1
    rw [Machine.times_cons rest h1]
    rcases ih hp1 hmore with hswept | hnear
    · exact .inl (.since hgrows hswept)
    · rcases act_sweeps hp h1 with hswept | hless
      · exact .inl (hswept.upto (exec_grows hp1 hmore))
      · refine .inr ?_
        omega

/-- Of ten polls in a row at which the table is maintained one sweeps. -/
theorem exec_puts_off (hp : Paced t) (he : (tapMachine created).exec t actions = some (t', out))
    (hm : (tapMachine created).Meets maintains t actions) :
    actions.countP TapAction.isPoll + t.rx.sDeferrals ≤
      10 * (tapMachine created).times sweeps t actions + t'.rx.sDeferrals := by
  induction actions generalizing t out with
  | nil =>
    cases he
    exact Nat.le_of_eq (by rw [List.countP_nil, Machine.times])
  | cons a rest ih =>
    obtain ⟨t1, h1, he⟩ := Option.bind_eq_some_iff.mp he
    obtain ⟨⟨t2, more⟩, hmore, he⟩ := Option.map_eq_some_iff.mp he
    cases he
    have hrest := ih (act_paced hp h1).1 hmore (hm.2 t1 h1)
    have hon := hm.1
    have hact : t.act a = some t1 := h1
    rw [Machine.times_cons rest h1]
    by_cases ha : a.isPoll = false
    · have hsame := (act_outside ha hact).deferrals
      rw [List.countP_cons_of_neg (by rw [ha]; decide), ← hsame]
      omega
    · cases a with
      | poll w =>
        have hone := poll_puts_off hp h1 hon
        rw [List.countP_cons_of_pos rfl]
        change _ ≤ 10 * ((t.sweeps w).toNat + _) + _
        omega
      | _ => exact absurd rfl ha

theorem createGetap_paced (hshort : ShortSetup setup) (h : createGetap setup = some created) : Paced created := by
  have hfresh : Paced (freshTap setup) := by
    refine ⟨⟨.start, rfl, ?_⟩, rfl, Nat.zero_le _⟩
    exact {
      owes := rfl
      index := rfl
      first := Nat.le_refl 1
      last := by decide
      size := rfl
      clock := rfl
      fresh := fun i hi => (Nat.mod_eq_of_lt (Nat.lt_trans hi (by decide))).symm
      soon := fun i _ hi => by
        show i ≤ 0 + longDelay
        unfold lastEntry getapArpCache at hi
        unfold longDelay
        omega
      kept := fun i _ _ _ => Nat.zero_le _
      periods := ⟨hshort.spam, hshort.spamStep, hshort.spamStop, Nat.lt_trans hshort.announce (by decide),
        hshort.announceStep, hshort.announceStop, hshort.valid⟩ }
  have hconf : OutsideSweep (freshTap setup) (((freshTap setup).takeMac setup.mac).configureIpFpga setup.address
      setup.subnet setup.gateway).2 := Tap.configureIpFpga_outside.before rfl rfl rfl
  unfold createGetap Tap.configureFpga at h
  dsimp only at h
  generalize ((freshTap setup).takeMac setup.mac).configureIpFpga setup.address setup.subnet setup.gateway = r at hconf h
  obtain ⟨ok, t1⟩ := r
  cases ok with
  | false => cases h
  | true =>
    have hfill := OutsideSweep.of_touches (Tap.fillArp_touches t1.arp broadcastConst setup.mac)
    simp only [if_true, Option.some.injEq] at h
    rw [← h]
    exact hfresh.outside (hconf.trans hfill)

theorem tapMachine_paced (hshort : ShortSetup setup) (hc : createGetap setup = some created)
    (h : (tapMachine created).Runs (fun _ _ => True) t log) : Paced t :=
  h.invariant (fun t _ => Paced t) (createGetap_paced hshort hc) fun _ _ _ _ hp _ hstep => (act_paced hp hstep).1

theorem sampleSetup_short : ShortSetup sampleSetup :=
  ⟨by decide, by decide, by decide, by decide, by decide, by decide, by decide⟩

end

end Katcp
