import Katcp.DhcpOptions
import Katcp.TapSweepRuns

namespace Katcp

open BitMemory ByteBlock

/-- What an instance does outside of its dhcp state machine leaves the lease and its timer as they are. -/
structure SameLease (t t' : Tap) : Prop where
  state : t'.dhcp.sDhcpState = t.dhcp.sDhcpState
  timer : t'.dhcp.sDhcpTimer = t.dhcp.sDhcpTimer
  lease : t'.dhcp.lease = t.dhcp.lease

namespace SameLease

variable {t t' t1 : Tap}

theorem of_eq (h : t'.dhcp = t.dhcp) : SameLease t t' := ⟨by rw [h], by rw [h], by rw [h]⟩

theorem trans (h : SameLease t t1) (h' : SameLease t1 t') : SameLease t t' :=
  ⟨h'.state.trans h.state, h'.timer.trans h.timer, h'.lease.trans h.lease⟩

theorem before (h : SameLease t1 t') (hdhcp : t1.dhcp = t.dhcp) : SameLease t t' := (of_eq hdhcp).trans h

end SameLease

namespace Tap

variable {w : TapWorld} {t t' : Tap}

theorem gleanArp_dhcp (mac : Octets) (v : BitVec 32) : (t.gleanArp mac v).dhcp = t.dhcp := by
  unfold gleanArp
  dsimp only
  repeat' split
  all_goals rfl

theorem processArp_dhcp : (t.processArp w).2.dhcp = t.dhcp := by
  unfold processArp
  split
  · rfl
  · split
    · exact gleanArp_dhcp _ _
    · split
      · split
        · rfl
        · exact gleanArp_dhcp _ _
      · rfl

theorem flushBuffers_dhcp : (t.flushBuffers w).dhcp = t.dhcp := by
  unfold flushBuffers
  dsimp only
  split <;> split <;> rfl

theorem receiveFrameFpga_dhcp : (t.receiveFrameFpga w).2.dhcp = t.dhcp := by
  unfold receiveFrameFpga
  dsimp only
  repeat' split
  all_goals rfl

theorem transmitIpKernel_dhcp : (t.transmitIpKernel w).2.dhcp = t.dhcp := by
  unfold transmitIpKernel
  repeat' split
  all_goals rfl

theorem validateDhcpReply_dhcp : t.validateDhcpReply.2.dhcp = t.dhcp := by
  unfold validateDhcpReply
  repeat' split
  all_goals rfl

theorem keepDhcp_same : SameLease t t.keepDhcp := by
  unfold keepDhcp
  split
  · exact .of_eq rfl
  · exact ⟨rfl, rfl, rfl⟩

theorem receivedIp_same : SameLease t (t.receivedIp w).2 := by
  unfold receivedIp
  dsimp only
  refine (SameLease.of_eq validateDhcpReply_dhcp).trans ?_
  split
  · exact keepDhcp_same.trans (.of_eq rfl)
  · have hk := transmitIpKernel_dhcp (w := w) (t := t.validateDhcpReply.2)
    split
    next h =>
      rw [h] at hk
      exact .of_eq hk
    next h =>
      rw [h] at hk
      exact .of_eq hk

theorem receivedArp_dhcp : (t.receivedArp w).2.dhcp = t.dhcp := by
  have hp := processArp_dhcp (w := w) (t := t)
  unfold receivedArp
  split
  · split
    next h =>
      rw [h] at hp
      exact hp
    next h =>
      rw [h] at hp
      exact hp
    next h =>
      rw [h] at hp
      exact hp
  · rfl

theorem receivedFrame_same : SameLease t (t.receivedFrame w).2 := by
  unfold receivedFrame
  dsimp only
  split
  · exact receivedIp_same.before rfl
  · split
    · exact .of_eq receivedArp_dhcp
    · exact .of_eq rfl

theorem receiveBurst_same (left burst : Nat) : SameLease t (t.receiveBurst w left burst).2 := by
  induction left generalizing t burst with
  | zero => exact .of_eq rfl
  | succ left ih =>
    have hr := receiveFrameFpga_dhcp (w := w) (t := t)
    unfold receiveBurst
    split
    next he =>
      rw [he] at hr
      exact .of_eq hr
    next t1 he =>
      rw [he] at hr
      have hf := receivedFrame_same (w := w) (t := t1)
      split
      next t2 he2 =>
        rw [he2] at hf
        exact ((SameLease.of_eq hr).trans hf).trans (ih (burst + 1))
      next t2 he2 =>
        rw [he2] at hf
        exact (SameLease.of_eq hr).trans hf

theorem askEntry_dhcp : (t.askEntry w).dhcp = t.dhcp := by
  unfold askEntry requestArp
  dsimp only
  repeat' split
  all_goals rfl

theorem spamSweep_dhcp (left : Nat) : (t.spamSweep w left).dhcp = t.dhcp := by
  induction left generalizing t with
  | zero => rfl
  | succ left ih =>
    unfold spamSweep
    dsimp only
    split
    · exact askEntry_dhcp
    · exact ih

theorem spamQuiet_dhcp (burst : Nat) : (t.spamQuiet w burst).dhcp = t.dhcp := by
  unfold spamQuiet spamArp
  dsimp only
  split
  · split
    · split
      · rfl
      · refine (spamSweep_dhcp _).trans ?_
        split <;> rfl
    · rfl
  · rfl

/-- The frames of a poll do not touch the lease. -/
theorem pollFrames_same : SameLease t (t.pollFrames w) := by
  have hpoll : t.pollFrames w = ((t.flushBuffers w).receiveBurst w ((t.flushBuffers w).rx.sBurst + 1) 0).2.spamQuiet w
      ((t.flushBuffers w).receiveBurst w ((t.flushBuffers w).rx.sBurst + 1) 0).1 := rfl
  rw [hpoll]
  exact ((receiveBurst_same _ _).before flushBuffers_dhcp).trans (.of_eq (spamQuiet_dhcp _))

theorem runIoTap_dhcp (readable writable : Bool) : (t.runIoTap w readable writable).dhcp = t.dhcp := by
  have hread : (t.receiveIpKernel w).2.dhcp = t.dhcp := by
    unfold receiveIpKernel
    dsimp only
    repeat' split
    all_goals rfl
  have hreadable : (t.ioReadable w).dhcp = t.dhcp := by
    unfold ioReadable
    split
    next h =>
      rw [h] at hread
      refine Eq.trans ?_ hread
      unfold transmitIpFpga
      split <;> rfl
    next h =>
      rw [h] at hread
      exact hread
  have hwritable : ∀ t : Tap, (t.ioWritable w).dhcp = t.dhcp := by
    intro t
    have hk := transmitIpKernel_dhcp (w := w) (t := t)
    unfold ioWritable
    split
    · split
      next h =>
        rw [h] at hk
        exact hk
      next h =>
        rw [h] at hk
        exact hk
    · rfl
  unfold runIoTap
  dsimp only
  split
  · rw [hwritable]
    split
    · exact hreadable
    · rfl
  · split
    · exact hreadable
    · rfl

end Tap

/-- The value of the last option of a kind. -/
def lastOption (code : BitVec 8) (options : List (BitVec 8 × Octets)) : Option Octets :=
  options.foldl (fun r o => if o.1 = code then some o.2 else r) none

def timeGiven (code : BitVec 8) (options : List (BitVec 8 × Octets)) : Option (BitVec 32) :=
  (lastOption code options).map valueWord

/-- The times of a lease, in seconds. -/
structure LeaseTimes where
  lease : Nat
  renewal : Nat
  rebinding : Nat
deriving DecidableEq, Repr

/-- The times of an acknowledgement: half and seven eighths of its lease where it does not give the others. -/
def ackTimes (options : List (BitVec 8 × Octets)) : LeaseTimes :=
  let lease := ((timeGiven 51 options).map (·.toNat)).getD 0
  ⟨lease, ((timeGiven 58 options).map (·.toNat)).getD (lease / 2),
    ((timeGiven 59 options).map (·.toNat)).getD (lease * 7 / 8)⟩

/-- The options of the message in the dhcp buffer. -/
def bufferedOptions (t : Tap) : List (BitVec 8 × Octets) :=
  (OptionList.read 0 0xff (optionOctets getapMaxFrame t.dhcp.sDhcpRxBuffer)).getD []

/-- The times of the last acknowledgement, and the polls since it was taken. -/
structure LeaseWatch where
  since : Nat
  times : Option LeaseTimes
deriving DecidableEq, Repr

/-- The states in which an acknowledgement is taken. -/
def DhcpState.awaitsAck : DhcpState → Bool
  | .request => true
  | .renew => true
  | .rebind => true
  | _ => false

def LeaseWatch.next (watch : LeaseWatch) (t t' : Tap) : TapAction → LeaseWatch
  | .poll _ =>
    if t.dhcp.sDhcpState.awaitsAck ∧ t'.dhcp.sDhcpState = .bound then ⟨0, some (ackTimes (bufferedOptions t))⟩
    else { watch with since := watch.since + 1 }
  | _ => watch

/-- An instance and its acknowledgements. -/
def leaseMachine (created : Tap) : Machine (Tap × LeaseWatch) TapAction Unit where
  start := (created, ⟨0, none⟩)
  step s a := (s.1.act a).map fun t' => (t', s.2.next s.1 t' a)
  emits _ _ := []

/-- The renewal request, the rebinding request, and the search for another lease, are made no sooner than the
times of the last acknowledgement are over. -/
structure OnTime (watch : LeaseWatch) (t t' : Tap) : Prop where
  renewal : t.dhcp.sDhcpState = .bound → t'.dhcp.sDhcpState ≠ .bound → ∃ times, watch.times = some times ∧
    times.renewal * 1000 ≤ (watch.since + 1) * pollInterval
  rebinding : t.dhcp.sDhcpState = .renew → t'.dhcp.sDhcpState = .rebind → ∃ times, watch.times = some times ∧
    times.rebinding * 1000 ≤ (watch.since + 1) * pollInterval
  lease : t.dhcp.sDhcpState = .renew ∨ t.dhcp.sDhcpState = .rebind → Tap.DhcpState.belowBound t'.dhcp.sDhcpState = true →
    ∃ times, watch.times = some times ∧ times.lease * 1000 ≤ (watch.since + 1) * pollInterval

/-- What an instance keeps for a lease, a renewal and a rebinding time when it takes a message. -/
def leaseKept (t : Tap) (options : List (BitVec 8 × Octets)) : BitVec 32 :=
  (timeGiven 51 options).getD t.dhcp.lease.sDhcpLeaseT

def renewalKept (t : Tap) (options : List (BitVec 8 × Octets)) : BitVec 32 :=
  let kept := (timeGiven 58 options).getD t.dhcp.lease.sDhcpT1
  if t.dhcp.sDhcpState = .request ∧ kept = 0 then leaseKept t options / 2 else kept

def rebindingKept (t : Tap) (options : List (BitVec 8 × Octets)) : BitVec 32 :=
  let kept := (timeGiven 59 options).getD t.dhcp.lease.sDhcpT2
  if t.dhcp.sDhcpState = .request ∧ kept = 0 then leaseKept t options * 7 / 8 else kept

/-- A time that is kept for another is over no sooner, in the arithmetic of the source. -/
def Lasts (given : Nat) (kept : BitVec 32) : Prop := given * 1000 ≤ u32 (kept.toNat * 1000)

instance (given : Nat) (kept : BitVec 32) : Decidable (Lasts given kept) := inferInstanceAs (Decidable (_ ≤ _))

/-- An acknowledgement whose times last as they are kept, at the start of the timer if it is for a new lease; or
another message, that gives no times once there is a lease. -/
def TakesWell (t : Tap) (options : List (BitVec 8 × Octets)) : Prop :=
  if lastOption 53 options = some [DhcpMsgType.ack.code] then
    (t.dhcp.sDhcpState = .request → t.dhcp.sDhcpTimer = 0) ∧ Lasts (ackTimes options).lease (leaseKept t options) ∧
      Lasts (ackTimes options).renewal (renewalKept t options) ∧
      Lasts (ackTimes options).rebinding (rebindingKept t options)
  else t.dhcp.sDhcpState ≠ .request → timeGiven 51 options = none ∧ timeGiven 58 options = none ∧
    timeGiven 59 options = none

/-- The message that a step takes, where it takes one, has options that are laid out as they should be, and is one
whose times last. -/
def LeaseSound (s : Tap × LeaseWatch) : TapAction → Prop
  | .poll _ => s.1.dhcp.sDhcpSmEnable = true → s.1.dhcp.sDhcpBufferFlag = true → s.1.dhcp.sDhcpState.awaitsAck = true →
      messageXid s.1.dhcp.sDhcpRxBuffer = s.1.dhcp.lease.sDhcpXid →
      ∃ options, DhcpLaid (optionOctets getapMaxFrame s.1.dhcp.sDhcpRxBuffer) options ∧
        (lastOption 53 options).isSome = true ∧ TakesWell s.1 options
  | _ => True

/-- What is kept of the last acknowledgement while there is a lease. -/
structure LeaseHeld (t : Tap) (watch : LeaseWatch) (times : LeaseTimes) : Prop where
  noted : watch.times = some times
  timer : t.dhcp.sDhcpTimer ≤ watch.since
  lease : Lasts times.lease t.dhcp.lease.sDhcpLeaseT
  renewal : Lasts times.renewal t.dhcp.lease.sDhcpT1
  rebinding : Lasts times.rebinding t.dhcp.lease.sDhcpT2

def LeaseInv (t : Tap) (watch : LeaseWatch) : Prop :=
  Tap.DhcpState.belowBound t.dhcp.sDhcpState = false → ∃ times, LeaseHeld t watch times

section

variable {w : TapWorld} {t t' t1 : Tap} {watch : LeaseWatch} {options : List (BitVec 8 × Octets)}
  {acc : DhcpLease × BitVec 8} {octets : Octets} {code : BitVec 8} {is : Bool} {times : LeaseTimes}

/-- What options of one kind write is what the last of them says. -/
theorem foldl_lastOption {β : Type} {read : DhcpLease × BitVec 8 → β} {value : Octets → β}
    (h : ∀ acc o, read (storeOption acc o) = if o.1 = code then value o.2 else read acc) :
    read (options.foldl storeOption acc) = ((lastOption code options).map value).getD (read acc) := by
  have hfold : ∀ (r : Option Octets) old, read acc = (r.map value).getD old → read (options.foldl storeOption acc) =
      ((options.foldl (fun r o => if o.1 = code then some o.2 else r) r).map value).getD old := by
    induction options generalizing acc with
    | nil => exact fun _ _ hr => hr
    | cons o options ih =>
      intro r old hr
      refine ih _ old ?_
      rw [h]
      dsimp only
      split
      · rfl
      · exact hr
  exact hfold none _ rfl

theorem storeOption_type (acc : DhcpLease × BitVec 8) (o : BitVec 8 × Octets) :
    (storeOption acc o).2 = if o.1 = 53 then o.2.getD 0 0 else acc.2 := by
  unfold storeOption
  split
  · rfl
  · repeat' split
    all_goals rfl

theorem storeOption_lease (acc : DhcpLease × BitVec 8) (o : BitVec 8 × Octets) :
    (storeOption acc o).1.sDhcpLeaseT = if o.1 = 51 then valueWord o.2 else acc.1.sDhcpLeaseT := by
  unfold storeOption
  by_cases h : o.1 = 51
  · rw [h]
    rfl
  · rw [if_neg h]
    repeat' split
    all_goals rfl

theorem storeOption_renewal (acc : DhcpLease × BitVec 8) (o : BitVec 8 × Octets) :
    (storeOption acc o).1.sDhcpT1 = if o.1 = 58 then valueWord o.2 else acc.1.sDhcpT1 := by
  unfold storeOption
  by_cases h : o.1 = 58
  · rw [h]
    rfl
  · rw [if_neg h]
    repeat' split
    all_goals rfl

theorem storeOption_rebinding (acc : DhcpLease × BitVec 8) (o : BitVec 8 × Octets) :
    (storeOption acc o).1.sDhcpT2 = if o.1 = 59 then valueWord o.2 else acc.1.sDhcpT2 := by
  unfold storeOption
  by_cases h : o.1 = 59
  · rw [h]
    rfl
  · rw [if_neg h]
    repeat' split
    all_goals rfl

/-- What is stored of a kind is its last option, or what was there. -/
theorem foldl_storeOption :
    (options.foldl storeOption acc).2 = ((lastOption 53 options).map fun v => v.getD 0 0).getD acc.2 ∧
    (options.foldl storeOption acc).1.sDhcpLeaseT = (timeGiven 51 options).getD acc.1.sDhcpLeaseT ∧
    (options.foldl storeOption acc).1.sDhcpT1 = (timeGiven 58 options).getD acc.1.sDhcpT1 ∧
    (options.foldl storeOption acc).1.sDhcpT2 = (timeGiven 59 options).getD acc.1.sDhcpT2 :=
  ⟨@foldl_lastOption _ _ 53 _ (·.2) (fun v => v.getD 0 0) storeOption_type,
    @foldl_lastOption _ _ 51 _ (·.1.sDhcpLeaseT) valueWord storeOption_lease,
    @foldl_lastOption _ _ 58 _ (·.1.sDhcpT1) valueWord storeOption_renewal,
    @foldl_lastOption _ _ 59 _ (·.1.sDhcpT2) valueWord storeOption_rebinding⟩

/-- A message that is taken. -/
structure Takes (t t1 : Tap) (options : List (BitVec 8 × Octets)) : Prop where
  state : t1.dhcp.sDhcpState = t.dhcp.sDhcpState
  timer : t1.dhcp.sDhcpTimer = t.dhcp.sDhcpTimer
  lease : t1.dhcp.lease.sDhcpLeaseT = (timeGiven 51 options).getD t.dhcp.lease.sDhcpLeaseT
  renewal : t1.dhcp.lease.sDhcpT1 = (timeGiven 58 options).getD t.dhcp.lease.sDhcpT1
  rebinding : t1.dhcp.lease.sDhcpT2 = (timeGiven 59 options).getD t.dhcp.lease.sDhcpT2

theorem DhcpLaid.proper (h : DhcpLaid octets options) : ∀ o ∈ options, ProperOption o := by
  induction h with
  | stop => exact fun o ho => absurd ho List.not_mem_nil
  | pads _ ih => exact ih
  | option _ _ _ hproper _ ih =>
    intro o ho
    rcases List.mem_cons.mp ho with rfl | hmem
    · exact hproper
    · exact ih o hmem

theorem lastOption_mem (h : lastOption code options = some octets) : (code, octets) ∈ options := by
  have hfold : ∀ (options : List (BitVec 8 × Octets)) (r : Option Octets),
      options.foldl (fun r o => if o.1 = code then some o.2 else r) r = some octets →
      r = some octets ∨ (code, octets) ∈ options := by
    intro options
    induction options with
    | nil => exact fun r hr => .inl hr
    | cons o options ih =>
      intro r hr
      rcases ih _ hr with hsome | hmem
      · dsimp only at hsome
        split at hsome
        next hcode =>
          cases Option.some.inj hsome
          exact .inr (hcode ▸ List.mem_cons_self)
        next => exact .inl hsome
      · exact .inr (List.mem_cons_of_mem o hmem)
  exact (hfold options none h).resolve_left (by simp)

/-- A step that awaits a message takes none, or one whose options are laid out, and tells its type. -/
theorem takeDhcp_cases (h : t.takeDhcp w .ack = some (is, t1))
    (hsound : t.dhcp.sDhcpBufferFlag = true → messageXid t.dhcp.sDhcpRxBuffer = t.dhcp.lease.sDhcpXid →
      ∃ options, DhcpLaid (optionOctets getapMaxFrame t.dhcp.sDhcpRxBuffer) options ∧
        (lastOption 53 options).isSome = true ∧ TakesWell t options) :
    (is = false ∧ SameLease t t1) ∨ ∃ options, DhcpLaid (optionOctets getapMaxFrame t.dhcp.sDhcpRxBuffer) options ∧
      TakesWell t options ∧ Takes t t1 options ∧ (is = true ↔ lastOption 53 options = some [DhcpMsgType.ack.code]) := by
  unfold Tap.takeDhcp at h
  by_cases hflag : t.dhcp.sDhcpBufferFlag = true
  · rw [if_pos hflag] at h
    obtain ⟨⟨mt, t2⟩, hp, he⟩ := Option.map_eq_some_iff.mp h
    cases he
    unfold Tap.processDhcp at hp
    dsimp only at hp
    split at hp
    next hxid =>
      obtain ⟨options, hlaid, htype, hwell⟩ := hsound hflag hxid
      obtain ⟨⟨l, mt'⟩, hscan, he⟩ := Option.map_eq_some_iff.mp hp
      cases he
      have hroom : ipLength t.dhcp.sDhcpRxBuffer + 282 ≤ getapMaxFrame := by
        by_contra hshort
        unfold optionOctets at hlaid
        rw [Nat.sub_eq_zero_of_le (by omega)] at hlaid
        cases hlaid
      have hwalk := (@DhcpLaid.walked getapMaxFrame getapMaxFrame _ _ _
        ({ t.dhcp.lease with sDhcpNextHopMac := ByteBlock.load t.dhcp.sDhcpRxBuffer 6 6,
                             sDhcpYipAddr := word t.dhcp.sDhcpRxBuffer (ipLength t.dhcp.sDhcpRxBuffer + 58) },
          w.uninitialised t.clock) _ hlaid (by omega) (by omega)).1
      rw [dhcpScan_eq, hwalk] at hscan
      have hstored := @foldl_storeOption options
        ({ t.dhcp.lease with sDhcpNextHopMac := ByteBlock.load t.dhcp.sDhcpRxBuffer 6 6,
                             sDhcpYipAddr := word t.dhcp.sDhcpRxBuffer (ipLength t.dhcp.sDhcpRxBuffer + 58) },
          w.uninitialised t.clock)
      rw [Option.some.inj hscan] at hstored
      obtain ⟨hmt, hlease, hrenewal, hrebinding⟩ := hstored
      refine .inr ⟨options, hlaid, hwell, ⟨rfl, rfl, hlease, hrenewal, hrebinding⟩, ?_⟩
      obtain ⟨value, hvalue⟩ := Option.isSome_iff_exists.mp htype
      obtain ⟨o, rfl⟩ := List.length_eq_one_iff.mp ((hlaid.proper _ (lastOption_mem hvalue)).1 rfl)
      rw [hvalue] at hmt ⊢
      obtain rfl : mt' = o := hmt
      simp
    next =>
      cases Option.some.inj hp
      exact .inl ⟨by simp, rfl, rfl, rfl⟩
  · rw [if_neg hflag] at h
    cases Option.some.inj h
    exact .inl ⟨rfl, rfl, rfl, rfl⟩

theorem dhcpConfigureFpga_dhcp : (t.dhcpConfigureFpga w).2.dhcp = t.dhcp := by
  have hconf : ∀ address subnet gateway, (t.configureIpFpga address subnet gateway).2.dhcp = t.dhcp := by
    intro address subnet gateway
    unfold Tap.configureIpFpga
    dsimp only
    split <;> rfl
  unfold Tap.dhcpConfigureFpga
  dsimp only
  split
  · exact hconf _ _ _
  · exact hconf _ _ _

/-- A lease that is obtained: the times that it does not give are derived from its own. -/
structure Obtains (t t' : Tap) : Prop where
  state : t'.dhcp.sDhcpState = .bound
  timer : t'.dhcp.sDhcpTimer = t.dhcp.sDhcpTimer
  lease : t'.dhcp.lease.sDhcpLeaseT = t.dhcp.lease.sDhcpLeaseT
  renewal : t'.dhcp.lease.sDhcpT1 = if t.dhcp.lease.sDhcpT1 = 0 then t.dhcp.lease.sDhcpLeaseT / 2 else t.dhcp.lease.sDhcpT1
  rebinding : t'.dhcp.lease.sDhcpT2 =
    if t.dhcp.lease.sDhcpT2 = 0 then t.dhcp.lease.sDhcpLeaseT * 7 / 8 else t.dhcp.lease.sDhcpT2

theorem leaseObtained_obtains : Obtains t (t.leaseObtained w) := by
  have herror : ∀ (ok : Bool) (t : Tap), (if ok then t else t.addDhcpError).dhcp.lease = t.dhcp.lease ∧
      (if ok then t else t.addDhcpError).dhcp.sDhcpTimer = t.dhcp.sDhcpTimer := by
    intro ok t
    split <;> exact ⟨rfl, rfl⟩
  have hfpga := @dhcpConfigureFpga_dhcp w t
  unfold Tap.leaseObtained
  dsimp only
  generalize t.dhcpConfigureFpga w = r at hfpga ⊢
  obtain ⟨hlease1, htimer1⟩ := herror r.1 r.2
  generalize (if r.1 = true then r.2 else r.2.addDhcpError) = t1 at hlease1 htimer1 ⊢
  obtain ⟨hlease2, htimer2⟩ := herror (t1.dhcpConfigureKernel w).1 (t1.dhcpConfigureKernel w).2
  generalize (if (t1.dhcpConfigureKernel w).1 = true then (t1.dhcpConfigureKernel w).2
    else (t1.dhcpConfigureKernel w).2.addDhcpError) = t2 at hlease2 htimer2 ⊢
  have hl : t2.dhcp.lease = t.dhcp.lease := by
    rw [hlease2, show (t1.dhcpConfigureKernel w).2.dhcp = t1.dhcp from rfl, hlease1, hfpga]
  have ht : t2.dhcp.sDhcpTimer = t.dhcp.sDhcpTimer := by
    rw [htimer2, show (t1.dhcpConfigureKernel w).2.dhcp = t1.dhcp from rfl, htimer1, hfpga]
  rw [hl]
  by_cases h1 : t.dhcp.lease.sDhcpT1 = 0
  · by_cases h2 : t.dhcp.lease.sDhcpT2 = 0
    · simp only [h1, h2, if_true]
      exact ⟨rfl, ht, rfl, (if_pos h1).symm, (if_pos h2).symm⟩
    · simp only [h1, h2, if_true, if_false]
      exact ⟨rfl, ht, rfl, (if_pos h1).symm, (if_neg h2).symm⟩
  · by_cases h2 : t.dhcp.lease.sDhcpT2 = 0
    · simp only [h1, h2, if_true, if_false]
      exact ⟨rfl, ht, rfl, (if_neg h1).symm, (if_pos h2).symm⟩
    · simp only [h1, h2, if_false]
      exact ⟨rfl, ht, rfl, (if_neg h1).symm, (if_neg h2).symm⟩

/-- A time that has been reached. -/
theorem reached_iff {due : BitVec 32} : t.leaseTimeReached due = true ↔
    u32 (due.toNat * 1000) ≤ u32 (t.dhcp.sDhcpTimer * pollInterval) := by
  unfold Tap.leaseTimeReached
  exact decide_eq_true_iff

/-- What the timer has reached is over. -/
theorem Lasts.over {given n : Nat} {kept : BitVec 32} (h : Lasts given kept) (htimer : t.dhcp.sDhcpTimer ≤ n)
    (hreached : t.leaseTimeReached kept = true) : given * 1000 ≤ n * pollInterval := by
  have hle := reached_iff.mp hreached
  unfold Lasts at h
  unfold u32 at *
  have hmod := Nat.mod_le (t.dhcp.sDhcpTimer * pollInterval) (2 ^ 32)
  have hmul := Nat.mul_le_mul_right pollInterval htimer
  omega

/-- The times are kept through a step that takes no message, or one that gives none. -/
theorem LeaseHeld.kept (h : LeaseHeld t watch times) (hlease : t'.dhcp.lease.sDhcpLeaseT = t.dhcp.lease.sDhcpLeaseT)
    (hrenewal : t'.dhcp.lease.sDhcpT1 = t.dhcp.lease.sDhcpT1) (hrebinding : t'.dhcp.lease.sDhcpT2 = t.dhcp.lease.sDhcpT2)
    (htimer : t'.dhcp.sDhcpTimer ≤ t.dhcp.sDhcpTimer + 1) :
    LeaseHeld t' { watch with since := watch.since + 1 } times :=
  ⟨h.noted, Nat.le_trans htimer (Nat.succ_le_succ h.timer), hlease ▸ h.lease, hrenewal ▸ h.renewal,
    hrebinding ▸ h.rebinding⟩

/-- A lease that is sound by an acknowledgement that has been taken. -/
theorem LeaseHeld.taken (hlaid : DhcpLaid (optionOctets getapMaxFrame t.dhcp.sDhcpRxBuffer) options)
    (htimer : t'.dhcp.sDhcpTimer = 0) (hlease : Lasts (ackTimes options).lease t'.dhcp.lease.sDhcpLeaseT)
    (hrenewal : Lasts (ackTimes options).renewal t'.dhcp.lease.sDhcpT1)
    (hrebinding : Lasts (ackTimes options).rebinding t'.dhcp.lease.sDhcpT2) :
    LeaseHeld t' ⟨0, some (ackTimes (bufferedOptions t))⟩ (ackTimes options) := by
  have hread : bufferedOptions t = options := by
    have hwalk := (@DhcpLaid.walked (getapMaxFrame + (ipLength t.dhcp.sDhcpRxBuffer + 282))
      (getapMaxFrame - (ipLength t.dhcp.sDhcpRxBuffer + 282)) _ _ t.dhcp.sDhcpRxBuffer (t.dhcp.lease, 0) _ hlaid
      (Nat.le_refl _) (by omega)).2
    unfold bufferedOptions OptionList.read
    unfold optionOctets at hwalk ⊢
    rw [length_load, hwalk, Option.getD_some]
  exact ⟨by rw [hread], Nat.le_of_eq htimer, hlease, hrenewal, hrebinding⟩

theorem OnTime.same (h : OnTime watch t t1) (hsame : SameLease t1 t') : OnTime watch t t' :=
  ⟨fun hb hne => h.renewal hb (hsame.state ▸ hne), fun hr hb => h.rebinding hr (hsame.state ▸ hb),
    fun hl hb => h.lease hl (hsame.state ▸ hb)⟩

theorem LeaseInv.same {a : TapAction} (h : LeaseInv t1 (watch.next t t1 a)) (hsame : SameLease t1 t') :
    LeaseInv t' (watch.next t t' a) := by
  have hnext : watch.next t t' a = watch.next t t1 a := by
    cases a with
    | poll w =>
      unfold LeaseWatch.next
      rw [hsame.state]
    | _ => rfl
  rw [hnext]
  intro hb
  rw [hsame.state] at hb
  obtain ⟨times, hheld⟩ := h hb
  exact ⟨times, hheld.noted, hsame.timer ▸ hheld.timer, hsame.lease ▸ hheld.lease, hsame.lease ▸ hheld.renewal,
    hsame.lease ▸ hheld.rebinding⟩

/-- Without a lease nothing is promised. -/
theorem below_fine {a : TapAction} (hb : Tap.DhcpState.belowBound t.dhcp.sDhcpState = true)
    (hb1 : Tap.DhcpState.belowBound t1.dhcp.sDhcpState = true) : OnTime watch t t1 ∧ LeaseInv t1 (watch.next t t1 a) := by
  refine ⟨⟨fun h _ => ?_, fun h _ => ?_, fun h _ => ?_⟩, fun h => ?_⟩
  · rw [h] at hb
    exact absurd hb (by decide)
  · rw [h] at hb
    exact absurd hb (by decide)
  · rcases h with h | h
    · rw [h] at hb
      exact absurd hb (by decide)
    · rw [h] at hb
      exact absurd hb (by decide)
  · rw [hb1] at h
    exact absurd h (by decide)

/-- A step of the state machine is one of the table, or it starts over. -/
theorem dhcpStatemachine_cases (h : t.dhcpStatemachine w = some t1) :
    (Tap.DhcpState.belowBound t.dhcp.sDhcpState = true ∧ Tap.DhcpState.belowBound t1.dhcp.sDhcpState = true) ∨
      ∃ count steps, ({ t with dhcp := { t.dhcp with sDhcpSmCount := count, steps := steps } } : Tap).dhcpStateTable w =
        some t1 := by
  unfold Tap.dhcpStatemachine at h
  dsimp only at h
  split at h
  next hout =>
    refine .inl ⟨hout.1, ?_⟩
    split at h
    next =>
      cases Option.some.inj h
      rfl
    next =>
      cases Option.some.inj h
      rfl
  next => exact .inr ⟨_, _, h⟩

/-- Below the lease, only the request for one leads to it. -/
theorem dhcpStateTable_below (h : t.dhcpStateTable w = some t1)
    (hb : Tap.DhcpState.belowBound t.dhcp.sDhcpState = true) (hrequest : t.dhcp.sDhcpState ≠ .request) :
    Tap.DhcpState.belowBound t1.dhcp.sDhcpState = true := by
  unfold Tap.dhcpStateTable at h
  split at h
  next =>
    cases Option.some.inj h
    rfl
  next =>
    cases Option.some.inj h
    unfold Tap.randomizeDhcpState
    split <;> rfl
  next =>
    obtain ⟨⟨is, t2⟩, _, he⟩ := Option.map_eq_some_iff.mp h
    cases he
    dsimp only
    split <;> rfl
  next =>
    cases Option.some.inj h
    unfold Tap.waitDhcpState
    dsimp only
    repeat' split
    all_goals rfl
  next hs => exact absurd hs hrequest
  next hs =>
    rw [hs] at hb
    exact absurd hb (by decide)
  next hs =>
    rw [hs] at hb
    exact absurd hb (by decide)
  next hs =>
    rw [hs] at hb
    exact absurd hb (by decide)

/-- The lease as it is bound: the timer goes on, until the renewal time is over. -/
theorem bound_fine (hinv : LeaseInv t watch) (hs : t.dhcp.sDhcpState = .bound) :
    OnTime watch t (t.boundDhcpState w) ∧ LeaseInv (t.boundDhcpState w) (watch.next t (t.boundDhcpState w) (.poll w)) := by
  obtain ⟨times, hheld⟩ := hinv (by rw [hs]; rfl)
  have hnext : watch.next t (t.boundDhcpState w) (.poll w) = { watch with since := watch.since + 1 } := by
    unfold LeaseWatch.next
    rw [if_neg]
    rintro ⟨hawaits, _⟩
    rw [hs] at hawaits
    exact absurd hawaits (by decide)
  rw [hnext]
  unfold Tap.boundDhcpState
  dsimp only
  split
  next hreached =>
    refine ⟨⟨fun _ _ => ⟨times, hheld.noted, ?_⟩, fun hr => ?_, fun hr _ => ?_⟩,
      fun _ => ⟨times, hheld.kept rfl rfl rfl (Nat.le_refl _)⟩⟩
    · exact hheld.renewal.over (Nat.succ_le_succ hheld.timer) hreached
    · rw [hs] at hr
      exact absurd hr (by decide)
    · rw [hs] at hr
      exact absurd hr (by decide)
  next =>
    refine ⟨⟨fun _ hne => absurd rfl hne, fun hr => ?_, fun hr _ => ?_⟩,
      fun _ => ⟨times, hheld.kept rfl rfl rfl (Nat.le_refl _)⟩⟩
    · rw [hs] at hr
      exact absurd hr (by decide)
    · rw [hs] at hr
      exact absurd hr (by decide)

@[simp] theorem dhcpGoes_state {s : DhcpState} : (t.dhcpGoes s).dhcp.sDhcpState = s := rfl

/-- The timer only matters to a new lease. -/
theorem TakesWell.timed {n : Nat} (h : TakesWell t options) (hs : t.dhcp.sDhcpState ≠ .request) :
    TakesWell (t.setDhcpTimer n) options := by
  unfold TakesWell at h ⊢
  split
  next htype =>
    rw [if_pos htype] at h
    exact ⟨fun hr => absurd hr hs, h.2⟩
  next htype =>
    rw [if_neg htype] at h
    exact h

/-- Of a message that is taken while there is a lease, an acknowledgement gives the times anew, and any other leaves
them. -/
theorem awaited {n : Nat} (hs : t.dhcp.sDhcpState ≠ .request)
    (hsound : t.dhcp.sDhcpBufferFlag = true → messageXid t.dhcp.sDhcpRxBuffer = t.dhcp.lease.sDhcpXid →
      ∃ options, DhcpLaid (optionOctets getapMaxFrame t.dhcp.sDhcpRxBuffer) options ∧
        (lastOption 53 options).isSome = true ∧ TakesWell t options)
    (h : (t.setDhcpTimer n).takeDhcp w .ack = some (is, t1)) :
    (is = false ∧ t1.dhcp.sDhcpTimer = n ∧ t1.dhcp.lease.sDhcpLeaseT = t.dhcp.lease.sDhcpLeaseT ∧
      t1.dhcp.lease.sDhcpT1 = t.dhcp.lease.sDhcpT1 ∧ t1.dhcp.lease.sDhcpT2 = t.dhcp.lease.sDhcpT2) ∨
    (is = true ∧ ∃ times, LeaseHeld ((t1.setDhcpTimer 0).dhcpGoes .bound) ⟨0, some (ackTimes (bufferedOptions t))⟩ times) := by
  rcases takeDhcp_cases h fun hflag hxid => (hsound hflag hxid).imp fun _ ho => ⟨ho.1, ho.2.1, ho.2.2.timed hs⟩ with
    ⟨hno, hsame⟩ | ⟨options, hlaid, hwell, htakes, hack⟩
  · exact .inl ⟨hno, hsame.timer, by rw [hsame.lease]; rfl, by rw [hsame.lease]; rfl, by rw [hsame.lease]; rfl⟩
  · unfold TakesWell at hwell
    by_cases htype : lastOption 53 options = some [DhcpMsgType.ack.code]
    · rw [if_pos htype] at hwell
      obtain ⟨_, hlease, hrenewal, hrebinding⟩ := hwell
      unfold renewalKept at hrenewal
      unfold rebindingKept at hrebinding
      dsimp only at hrenewal hrebinding
      rw [if_neg fun h => hs h.1] at hrenewal hrebinding
      refine .inr ⟨hack.mpr htype, _, LeaseHeld.taken hlaid rfl ?_ ?_ ?_⟩
      · exact htakes.lease ▸ hlease
      · exact htakes.renewal ▸ hrenewal
      · exact htakes.rebinding ▸ hrebinding
    · rw [if_neg htype] at hwell
      obtain ⟨hlease, hrenewal, hrebinding⟩ := hwell hs
      refine .inl ⟨Bool.eq_false_iff.mpr fun h => htype (hack.mp h), htakes.timer, ?_, ?_, ?_⟩
      · rw [htakes.lease, hlease, Option.getD_none]
        rfl
      · rw [htakes.renewal, hrenewal, Option.getD_none]
        rfl
      · rw [htakes.rebinding, hrebinding, Option.getD_none]
        rfl

theorem next_unbound (hne : t1.dhcp.sDhcpState ≠ .bound) :
    watch.next t t1 (.poll w) = { watch with since := watch.since + 1 } := if_neg fun h => hne h.2

theorem next_bound (hs : t.dhcp.sDhcpState.awaitsAck = true) (hb : t1.dhcp.sDhcpState = .bound) :
    watch.next t t1 (.poll w) = ⟨0, some (ackTimes (bufferedOptions t))⟩ := if_pos ⟨hs, hb⟩

/-- What the source does to derive a time is what it is to keep. -/
theorem request_fine (hs : t.dhcp.sDhcpState = .request)
    (hsound : t.dhcp.sDhcpBufferFlag = true → messageXid t.dhcp.sDhcpRxBuffer = t.dhcp.lease.sDhcpXid →
      ∃ options, DhcpLaid (optionOctets getapMaxFrame t.dhcp.sDhcpRxBuffer) options ∧
        (lastOption 53 options).isSome = true ∧ TakesWell t options)
    (h : t.requestDhcpState w = some t1) : OnTime watch t t1 ∧ LeaseInv t1 (watch.next t t1 (.poll w)) := by
  have hbelow : Tap.DhcpState.belowBound t.dhcp.sDhcpState = true := by
    rw [hs]
    rfl
  obtain ⟨⟨is, t2⟩, htake, he⟩ := Option.map_eq_some_iff.mp h
  cases he
  dsimp only
  cases is with
  | false => exact below_fine hbelow rfl
  | true =>
    rw [if_pos rfl]
    have hobtains := @leaseObtained_obtains w t2
    rcases takeDhcp_cases htake hsound with ⟨hno, _⟩ | ⟨options, hlaid, hwell, htakes, hack⟩
    · exact absurd hno (by decide)
    · unfold TakesWell at hwell
      rw [if_pos (hack.mp rfl)] at hwell
      obtain ⟨htimer, hlease, hrenewal, hrebinding⟩ := hwell
      rw [next_bound (by rw [hs]; rfl) hobtains.state]
      refine ⟨⟨fun hb => ?_, fun hb => ?_, fun hb _ => ?_⟩, fun _ => ⟨_, LeaseHeld.taken hlaid ?_ ?_ ?_ ?_⟩⟩
      · rw [hs] at hb
        exact absurd hb (by decide)
      · rw [hs] at hb
        exact absurd hb (by decide)
      · rw [hs] at hb
        exact absurd hb (by decide)
      · rw [hobtains.timer, htakes.timer, htimer hs]
      · rw [hobtains.lease, htakes.lease]
        exact hlease
      · unfold renewalKept leaseKept at hrenewal
        dsimp only at hrenewal
        rw [hobtains.renewal, htakes.renewal, htakes.lease]
        simpa only [hs, true_and] using hrenewal
      · unfold rebindingKept leaseKept at hrebinding
        dsimp only at hrebinding
        rw [hobtains.rebinding, htakes.rebinding, htakes.lease]
        simpa only [hs, true_and] using hrebinding

/-- A step that leaves the lease alone, or begins it anew. -/
theorem OnTime.stays (hne : t.dhcp.sDhcpState ≠ .bound) (hr : t1.dhcp.sDhcpState ≠ .rebind ∨ t.dhcp.sDhcpState ≠ .renew)
    (hb : Tap.DhcpState.belowBound t1.dhcp.sDhcpState = false) : OnTime watch t t1 := by
  refine ⟨fun h => absurd h hne, fun h h1 => hr.elim (absurd h1) (absurd h), fun _ h => ?_⟩
  rw [hb] at h
  exact absurd h (by decide)

theorem renew_fine (hinv : LeaseInv t watch) (hs : t.dhcp.sDhcpState = .renew)
    (hsound : t.dhcp.sDhcpBufferFlag = true → messageXid t.dhcp.sDhcpRxBuffer = t.dhcp.lease.sDhcpXid →
      ∃ options, DhcpLaid (optionOctets getapMaxFrame t.dhcp.sDhcpRxBuffer) options ∧
        (lastOption 53 options).isSome = true ∧ TakesWell t options)
    (h : t.renewDhcpState w = some t1) : OnTime watch t t1 ∧ LeaseInv t1 (watch.next t t1 (.poll w)) := by
  obtain ⟨times, hheld⟩ := hinv (by rw [hs]; rfl)
  have hne : t.dhcp.sDhcpState ≠ .bound := by
    rw [hs]
    decide
  obtain ⟨⟨is, t2⟩, htake, he⟩ := Option.map_eq_some_iff.mp h
  cases he
  dsimp only
  rcases awaited (by rw [hs]; decide) hsound htake with ⟨rfl, htimer, hlease, hrenewal, hrebinding⟩ | ⟨rfl, times, hack⟩
  · rw [if_neg (by decide)]
    split
    next hreached =>
      rw [hrebinding] at hreached
      rw [next_unbound (by simp)]
      refine ⟨⟨fun hb => absurd hb hne, fun _ _ => ⟨times, hheld.noted, ?_⟩,
          fun _ hb => by simp [Tap.DhcpState.belowBound] at hb⟩, fun _ => ⟨times, hheld.kept hlease hrenewal hrebinding (Nat.le_of_eq htimer)⟩⟩
      exact hheld.rebinding.over (Nat.le_trans (Nat.le_of_eq htimer) (Nat.succ_le_succ hheld.timer)) hreached
    next =>
      rw [next_unbound (by simp)]
      exact ⟨.stays hne (.inl (by simp)) rfl, fun _ => ⟨times, hheld.kept hlease hrenewal hrebinding (Nat.le_of_eq htimer)⟩⟩
  · rw [if_pos rfl, next_bound (by rw [hs]; rfl) rfl]
    exact ⟨.stays hne (.inl (by simp)) rfl, fun _ => ⟨times, hack⟩⟩

theorem rebind_fine (hinv : LeaseInv t watch) (hs : t.dhcp.sDhcpState = .rebind)
    (hsound : t.dhcp.sDhcpBufferFlag = true → messageXid t.dhcp.sDhcpRxBuffer = t.dhcp.lease.sDhcpXid →
      ∃ options, DhcpLaid (optionOctets getapMaxFrame t.dhcp.sDhcpRxBuffer) options ∧
        (lastOption 53 options).isSome = true ∧ TakesWell t options)
    (h : t.rebindDhcpState w = some t1) : OnTime watch t t1 ∧ LeaseInv t1 (watch.next t t1 (.poll w)) := by
  obtain ⟨times, hheld⟩ := hinv (by rw [hs]; rfl)
  have hne : t.dhcp.sDhcpState ≠ .bound := by
    rw [hs]
    decide
  have hnr : t.dhcp.sDhcpState ≠ .renew := by
    rw [hs]
    decide
  obtain ⟨⟨is, t2⟩, htake, he⟩ := Option.map_eq_some_iff.mp h
  cases he
  dsimp only
  rcases awaited (by rw [hs]; decide) hsound htake with ⟨rfl, htimer, hlease, hrenewal, hrebinding⟩ | ⟨rfl, times, hack⟩
  · rw [if_neg (by decide)]
    split
    next hreached =>
      rw [hlease] at hreached
      refine ⟨⟨fun hb => absurd hb hne, fun hr => absurd hr hnr, fun _ _ => ⟨times, hheld.noted, ?_⟩⟩,
        fun hb => by simp [Tap.DhcpState.belowBound] at hb⟩
      exact hheld.lease.over (Nat.le_trans (Nat.le_of_eq htimer) (Nat.succ_le_succ hheld.timer)) hreached
    next =>
      rw [next_unbound (by simp)]
      exact ⟨.stays hne (.inr hnr) rfl, fun _ => ⟨times, hheld.kept hlease hrenewal hrebinding (Nat.le_of_eq htimer)⟩⟩
  · rw [if_pos rfl, next_bound (by rw [hs]; rfl) rfl]
    exact ⟨.stays hne (.inr hnr) rfl, fun _ => ⟨times, hack⟩⟩

/-- A step of the table is on time, and keeps what is known of the lease. -/
theorem table_fine (hinv : LeaseInv t watch)
    (hsound : t.dhcp.sDhcpBufferFlag = true → t.dhcp.sDhcpState.awaitsAck = true →
      messageXid t.dhcp.sDhcpRxBuffer = t.dhcp.lease.sDhcpXid →
      ∃ options, DhcpLaid (optionOctets getapMaxFrame t.dhcp.sDhcpRxBuffer) options ∧
        (lastOption 53 options).isSome = true ∧ TakesWell t options)
    (h : t.dhcpStateTable w = some t1) : OnTime watch t t1 ∧ LeaseInv t1 (watch.next t t1 (.poll w)) := by
  by_cases hbelow : Tap.DhcpState.belowBound t.dhcp.sDhcpState = true ∧ t.dhcp.sDhcpState ≠ .request
  · exact below_fine hbelow.1 (dhcpStateTable_below h hbelow.1 hbelow.2)
  · have hgoes := h
    unfold Tap.dhcpStateTable at hgoes
    split at hgoes
    next hs => exact absurd ⟨by rw [hs]; rfl, by rw [hs]; decide⟩ hbelow
    next hs => exact absurd ⟨by rw [hs]; rfl, by rw [hs]; decide⟩ hbelow
    next hs => exact absurd ⟨by rw [hs]; rfl, by rw [hs]; decide⟩ hbelow
    next hs => exact absurd ⟨by rw [hs]; rfl, by rw [hs]; decide⟩ hbelow
    next hs => exact request_fine hs (fun hflag hxid => hsound hflag (by rw [hs]; rfl) hxid) hgoes
    next hs =>
      cases Option.some.inj hgoes
      exact bound_fine hinv hs
    next hs => exact renew_fine hinv hs (fun hflag hxid => hsound hflag (by rw [hs]; rfl) hxid) hgoes
    next hs => exact rebind_fine hinv hs (fun hflag hxid => hsound hflag (by rw [hs]; rfl) hxid) hgoes

theorem OnTime.start {t0 : Tap} (h : OnTime watch t0 t1) (hs : t0.dhcp.sDhcpState = t.dhcp.sDhcpState) :
    OnTime watch t t1 :=
  ⟨fun hb => h.renewal (hs.trans hb), fun hr => h.rebinding (hs.trans hr), fun hl => h.lease (hs ▸ hl)⟩

theorem idle_fine (hinv : LeaseInv t watch) : OnTime watch t t ∧ LeaseInv t (watch.next t t (.poll w)) := by
  refine ⟨⟨fun hb hne => absurd hb hne, fun hr hb => ?_, fun hl hb => ?_⟩, fun hheld => ?_⟩
  · rw [hr] at hb
    exact absurd hb (by decide)
  · rcases hl with hl | hl
    · rw [hl] at hb
      exact absurd hb (by decide)
    · rw [hl] at hb
      exact absurd hb (by decide)
  · obtain ⟨times, hheld⟩ := hinv hheld
    have hnext : watch.next t t (.poll w) = { watch with since := watch.since + 1 } := by
      refine if_neg fun h => ?_
      obtain ⟨hawaits, hb⟩ := h
      rw [hb] at hawaits
      exact absurd hawaits (by decide)
    rw [hnext]
    exact ⟨times, hheld.kept rfl rfl rfl (Nat.le_succ _)⟩

/-- A poll is on time, and keeps what is known of the lease. -/
theorem poll_fine (hinv : LeaseInv t watch) (hsound : LeaseSound (t, watch) (.poll w)) (h : t.act (.poll w) = some t') :
    OnTime watch t t' ∧ LeaseInv t' (watch.next t t' (.poll w)) := by
  obtain ⟨t1, h1, rfl⟩ := Option.map_eq_some_iff.mp h
  have hsame := @Tap.pollFrames_same w t1
  have hstep : OnTime watch t t1 ∧ LeaseInv t1 (watch.next t t1 (.poll w)) := by
    by_cases henabled : t.dhcp.sDhcpSmEnable = true
    · rw [if_pos henabled] at h1
      rcases dhcpStatemachine_cases h1 with ⟨hb, hb1⟩ | ⟨count, steps, htable⟩
      · exact below_fine hb hb1
      · have hkept : LeaseInv { t with dhcp := { t.dhcp with sDhcpSmCount := count, steps := steps } } watch := fun hb =>
          (hinv hb).imp fun _ hheld => ⟨hheld.noted, hheld.timer, hheld.lease, hheld.renewal, hheld.rebinding⟩
        obtain ⟨htime, hnext⟩ := table_fine hkept (hsound henabled) htable
        exact ⟨htime.start rfl, hnext⟩
    · rw [if_neg henabled] at h1
      cases Option.some.inj h1
      exact idle_fine hinv
  exact ⟨hstep.1.same hsame, hstep.2.same hsame⟩

theorem act_fine {s s' : Tap × LeaseWatch} {a : TapAction} {created : Tap} (hinv : LeaseInv s.1 s.2)
    (hsound : LeaseSound s a) (h : (leaseMachine created).step s a = some s') : LeaseInv s'.1 s'.2 := by
  obtain ⟨t', hact, rfl⟩ := Option.map_eq_some_iff.mp h
  cases a with
  | poll w => exact (poll_fine hinv hsound hact).2
  | io w readable writable =>
    cases Option.some.inj hact
    intro hb
    rw [Tap.runIoTap_dhcp] at hb
    obtain ⟨times, hheld⟩ := hinv hb
    have hdhcp := @Tap.runIoTap_dhcp w s.1 readable writable
    exact ⟨times, hheld.noted, by rw [hdhcp]; exact hheld.timer, by rw [hdhcp]; exact hheld.lease,
      by rw [hdhcp]; exact hheld.renewal, by rw [hdhcp]; exact hheld.rebinding⟩
  | reload =>
    cases Option.some.inj hact
    exact fun hb => (hinv hb).imp fun _ hheld => ⟨hheld.noted, hheld.timer, hheld.lease, hheld.renewal, hheld.rebinding⟩
  | dhcp n =>
    have hcmd : s.1.tapDhcpCmd n = some t' := hact
    unfold Tap.tapDhcpCmd at hcmd
    split at hcmd
    next => simp at hcmd
    next =>
      cases Option.some.inj hcmd
      exact fun hb => absurd hb (by simp [Tap.DhcpState.belowBound])

theorem createGetap_dhcp {setup : TapSetup} (hc : createGetap setup = some t) : t.dhcp = (freshTap setup).dhcp := by
  have hconf : ((freshTap setup).configureFpga setup).2.dhcp = (freshTap setup).dhcp := by
    unfold Tap.configureFpga Tap.configureIpFpga
    dsimp only
    split
    · rfl
    · rfl
  unfold createGetap at hc
  split at hc
  next t1 heq =>
    cases Option.some.inj hc
    rw [heq] at hconf
    exact hconf
  next => simp at hc

/-- A world that sends replies with given options, or nothing. -/
def replyWorld (options : Option Octets) : TapWorld where
  bufferSizes _ := if options.isSome then 38 else 0
  rxBuffer _ := sampleReply (options.getD [])
  tapRead _ := .again
  tapWrite _ := .again
  dhcpRand _ := 0
  time _ := 0
  setKernelIfAddr _ := true
  uninitialised _ := 0

/-- An instance that looks for no stations. -/
def quietSetup : TapSetup := { sampleSetup with arpMode := 0 }

/-- A lease is asked for, offered and acknowledged, for 2^30 seconds, to be renewed after half of them. -/
def longLease : List TapAction :=
  .dhcp 0 :: List.replicate 12 (.poll (replyWorld none)) ++ [.poll (replyWorld (some [53, 1, 2, 0xff]))] ++
    List.replicate 7 (.poll (replyWorld none)) ++
    [.poll (replyWorld (some [53, 1, 5, 51, 4, 0x40, 0, 0, 0, 58, 4, 0x20, 0, 0, 0, 0xff])), .poll (replyWorld none)]

theorem longLease_renewed : ((createGetap quietSetup).bind fun created =>
    ((leaseMachine created).exec (created, ⟨0, none⟩) longLease).map fun r =>
      (r.1.1.dhcp.sDhcpState, r.1.2, (r.1.1.act (.poll (replyWorld none))).map (·.dhcp.sDhcpState))) =
    some (.bound, ⟨0, some ⟨2 ^ 30, 2 ^ 29, 2 ^ 30 / 8 * 7⟩⟩, some .renew) := by
  decide +kernel

end

end Katcp
