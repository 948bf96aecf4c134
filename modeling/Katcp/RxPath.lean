import Katcp.TapSweepRuns

namespace Katcp

open BitMemory ByteBlock

/-- A frame that the gateware announces: how many words of eight bytes it has, and its bytes. -/
structure RxFrame where
  words : Nat
  content : Bytes
  shown : 0 < words ∧ words < 2 ^ 16

namespace RxFrame

def len (f : RxFrame) : Nat := f.words * 8

/-- More than a header, and no more than the receive buffer holds. -/
def Sized (f : RxFrame) : Prop := sizeFrameHeader < f.len ∧ f.len ≤ getapMaxFrame

def octets (f : RxFrame) : Octets := ByteBlock.load f.content 0 f.len

/-- What is behind the header. -/
def packet (f : RxFrame) : Octets := ByteBlock.load f.content sizeFrameHeader (f.len - sizeFrameHeader)

/-- An ip packet for the kernel. -/
def ForKernel (f : RxFrame) : Prop :=
  f.content 12 = 0x08 ∧ f.content 13 = 0x00 ∧
    ∀ b : Bytes, (∀ i < f.len, b i = f.content i) → isDhcpReply b = false

end RxFrame

/-- What is to be seen of the way from the gateware to the kernel. -/
inductive RxEvent
  | announced (f : RxFrame)
  | acknowledged (f : RxFrame)
  | taken (frame : Octets)
  | written (packet : Octets) (count : Nat)

/-- An instance, and the frame that its gateware shows until it is acknowledged. -/
structure RxPath where
  tap : Tap
  shown : Option RxFrame

namespace Tap

variable (w : TapWorld)

/-- What the kernel is given of the frame in the receive buffer. -/
def kernelWrites (t : Tap) : List RxEvent :=
  if t.rx.sRxLen ≤ sizeFrameHeader then []
  else
    match w.tapWrite t.clock with
    | .wrote count => [.written (ByteBlock.load t.rx.sRxb sizeFrameHeader (t.rx.sRxLen - sizeFrameHeader)) count]
    | _ => []

/-- What becomes of a frame that has been received. -/
def frameEvents (t : Tap) : List RxEvent :=
  .taken (ByteBlock.load t.rx.sRxb 0 t.rx.sRxLen) ::
    if t.rx.sRxb 12 = 0x08 ∧ t.rx.sRxb 13 = 0x00 ∧ t.validateDhcpReply.1 = false then
      t.validateDhcpReply.2.kernelWrites w
    else []

end Tap

namespace RxPath

variable (w : TapWorld)

def words (s : RxPath) : Nat := (s.shown.map (·.words)).getD 0

/-- The low half of the size register is the length of the frame that is shown, the receive
buffer its content. -/
def world (s : RxPath) : TapWorld :=
  { w with
    bufferSizes := fun n => (w.bufferSizes n).extractLsb' 16 16 ++ BitVec.ofNat 16 s.words
    rxBuffer := fun n => (s.shown.map (·.content)).getD (w.rxBuffer n) }

/-- The loop of a poll. A frame that has been copied is acknowledged, after which the gateware may
show the next one. -/
def receiveBurst (next : Nat → Option RxFrame) : Nat → Nat → RxPath → Nat × RxPath × List RxEvent
  | 0, burst, s => (burst, s, [])
  | left + 1, burst, s =>
    match s.shown, s.tap.receiveFrameFpga (s.world w) with
    | some f, (true, t) =>
      let said := .acknowledged f :: t.frameEvents w ++ ((next burst).map RxEvent.announced).toList
      match t.receivedFrame (s.world w) with
      | (true, t) =>
        let (count, s, more) := receiveBurst next left (burst + 1) ⟨t, next burst⟩
        (count, s, said ++ more)
      | (false, t) => (burst + 1, ⟨t, next burst⟩, said)
    | _, (_, t) => (burst, { s with tap := t }, [])

/-- `run_timer_tap`, with the frames that the gateware comes to show meanwhile. -/
def runTimerTap (s : RxPath) (next : Nat → Option RxFrame) : Option (RxPath × List RxEvent) :=
  (if s.tap.dhcp.sDhcpSmEnable then s.tap.dhcpStatemachine (s.world w) else some s.tap).map fun t =>
    let t := t.flushBuffers (s.world w)
    let (burst, s, said) := receiveBurst w next (t.rx.sBurst + 1) 0 { s with tap := t }
    ({ s with tap := s.tap.spamQuiet (s.world w) burst }, said)

def runIoTap (s : RxPath) (readable writable : Bool) : RxPath × List RxEvent :=
  let t := if readable then s.tap.ioReadable (s.world w) else s.tap
  ({ s with tap := s.tap.runIoTap (s.world w) readable writable },
    if writable ∧ t.rx.tapWritable then t.kernelWrites w else [])

end RxPath

/-- The gateware shows a frame; the instance is polled; its device has become readable or writable;
its arp table is reloaded; it is asked for a lease. -/
inductive RxAction
  | announce (f : RxFrame)
  | poll (w : TapWorld) (next : Nat → Option RxFrame)
  | io (w : TapWorld) (readable writable : Bool)
  | reload
  | dhcp (n : Nat)

/-- Every frame that the gateware shows has a size that can be received. -/
def RxAction.Sized : RxAction → Prop
  | .announce f => f.Sized
  | .poll _ next => ∀ k f, next k = some f → f.Sized
  | _ => True

def RxPath.act (s : RxPath) : RxAction → Option (RxPath × List RxEvent)
  | .announce f => if s.shown.isNone then some ({ s with shown := some f }, [.announced f]) else none
  | .poll w next => s.runTimerTap w next
  | .io w readable writable => some (s.runIoTap w readable writable)
  | .reload => some ({ s with tap := s.tap.tapReloadArp }, [])
  | .dhcp n => (s.tap.tapDhcpCmd n).map fun t => ({ s with tap := t }, [])

def rxMachine (created : Tap) : Machine RxPath RxAction RxEvent where
  start := ⟨created, none⟩
  step s a := (s.act a).map (·.1)
  emits s a := ((s.act a).map (·.2)).getD []

namespace Tap

variable {w : TapWorld} {t t' : Tap}

/-- How much waits for the kernel, and whether the device is watched until it is writable. -/
def pending (t : Tap) : Nat × Bool := (t.rx.sRxLen, t.rx.tapWritable)

theorem takeDhcp_pending {mtype : DhcpMsgType} {is : Bool} (h : t.takeDhcp w mtype = some (is, t')) :
    t'.pending = t.pending := by
  unfold takeDhcp at h
  split at h
  next =>
    obtain ⟨⟨mt, t1⟩, hp, h⟩ := Option.map_eq_some_iff.mp h
    cases h
    unfold processDhcp at hp
    dsimp only at hp
    split at hp
    next =>
      obtain ⟨_, _, hp⟩ := Option.map_eq_some_iff.mp hp
      cases hp
      rfl
    next =>
      cases Option.some.inj hp
      rfl
  next =>
    cases Option.some.inj h
    rfl

theorem dhcpConfigureFpga_pending : (t.dhcpConfigureFpga w).2.pending = t.pending := by
  have hconf : (t.configureIpFpga t.dhcp.lease.sDhcpYipAddr (some (convertNetmask t.dhcp.lease.sDhcpSubmask))
      (some t.dhcp.lease.sDhcpRoute)).2.pending = t.pending := by
    unfold configureIpFpga
    dsimp only
    split <;> rfl
  unfold dhcpConfigureFpga
  dsimp only
  generalize t.configureIpFpga t.dhcp.lease.sDhcpYipAddr (some (convertNetmask t.dhcp.lease.sDhcpSubmask))
    (some t.dhcp.lease.sDhcpRoute) = r at hconf ⊢
  obtain ⟨ok, t1⟩ := r
  split <;> exact hconf

theorem addDhcpError_pending (ok : Bool) (t : Tap) : (if ok then t else t.addDhcpError).pending = t.pending := by
  split <;> rfl

theorem leaseObtained_pending : (t.leaseObtained w).pending = t.pending := by
  have hconf : (t.dhcpConfigureFpga w).2.pending = t.pending := dhcpConfigureFpga_pending
  unfold leaseObtained
  dsimp only
  generalize t.dhcpConfigureFpga w = r at hconf ⊢
  have hkept : (if r.1 = true then r.2 else r.2.addDhcpError).pending = t.pending :=
    (addDhcpError_pending r.1 r.2).trans hconf
  generalize (if r.1 = true then r.2 else r.2.addDhcpError) = t1 at hkept ⊢
  have hkernel : (t1.dhcpConfigureKernel w).2.pending = t1.pending := rfl
  exact (addDhcpError_pending (t1.dhcpConfigureKernel w).1 _).trans (hkernel.trans hkept)

theorem requestDhcpState_pending (h : t.requestDhcpState w = some t') : t'.pending = t.pending := by
  obtain ⟨⟨is, t1⟩, ht, h⟩ := Option.map_eq_some_iff.mp h
  cases h
  rw [← takeDhcp_pending ht]
  dsimp only
  split
  · exact leaseObtained_pending
  · rfl

theorem selectDhcpState_pending (h : t.selectDhcpState w = some t') : t'.pending = t.pending := by
  obtain ⟨⟨is, t1⟩, ht, h⟩ := Option.map_eq_some_iff.mp h
  cases h
  rw [← takeDhcp_pending ht]
  dsimp only
  split <;> rfl

theorem renewDhcpState_pending (h : t.renewDhcpState w = some t') : t'.pending = t.pending := by
  obtain ⟨⟨is, t1⟩, ht, h⟩ := Option.map_eq_some_iff.mp h
  cases h
  have htaken : t1.pending = t.pending := (takeDhcp_pending ht).trans rfl
  rw [← htaken]
  dsimp only
  split
  · rfl
  · split <;> rfl

theorem rebindDhcpState_pending (h : t.rebindDhcpState w = some t') : t'.pending = t.pending := by
  obtain ⟨⟨is, t1⟩, ht, h⟩ := Option.map_eq_some_iff.mp h
  cases h
  have htaken : t1.pending = t.pending := (takeDhcp_pending ht).trans rfl
  rw [← htaken]
  dsimp only
  split
  · rfl
  · split <;> rfl

theorem dhcpStateTable_pending (h : t.dhcpStateTable w = some t') : t'.pending = t.pending := by
  unfold dhcpStateTable at h
  split at h
  next =>
    cases Option.some.inj h
    rfl
  next =>
    cases Option.some.inj h
    unfold randomizeDhcpState
    split <;> rfl
  next => exact selectDhcpState_pending h
  next =>
    cases Option.some.inj h
    unfold waitDhcpState
    dsimp only
    repeat' split
    all_goals rfl
  next => exact requestDhcpState_pending h
  next =>
    cases Option.some.inj h
    unfold boundDhcpState
    dsimp only
    split <;> rfl
  next => exact renewDhcpState_pending h
  next => exact rebindDhcpState_pending h

theorem dhcpStatemachine_pending (h : t.dhcpStatemachine w = some t') : t'.pending = t.pending := by
  unfold dhcpStatemachine at h
  dsimp only at h
  split at h
  next =>
    split at h
    next =>
      cases Option.some.inj h
      rfl
    next => exact (dhcpStateTable_pending h).trans rfl
  next => exact (dhcpStateTable_pending h).trans rfl

theorem flushBuffers_pending : (t.flushBuffers w).pending = t.pending := by
  unfold flushBuffers
  dsimp only
  split <;> split <;> rfl

theorem ioReadable_pending : (t.ioReadable w).pending = t.pending := by
  have hread : (t.receiveIpKernel w).2.pending = t.pending := by
    unfold receiveIpKernel
    dsimp only
    repeat' split
    all_goals rfl
  unfold ioReadable
  split
  next h =>
    rw [h] at hread
    unfold transmitIpFpga
    split <;> exact hread
  next h =>
    rw [h] at hread
    exact hread

theorem spamQuiet_pending (burst : Nat) : (t.spamQuiet w burst).pending = t.pending := by
  unfold spamQuiet
  split
  · split
    · unfold pending
      dsimp only
      rw [spamArp_rx]
    · rfl
  · rfl

/-- What waits for the kernel waits until the device is writable. -/
def Held (t : Tap) : Prop := t.rx.sRxLen = 0 ∨ t.rx.tapWritable = true

theorem Held.of_pending (h : t.Held) (hp : t'.pending = t.pending) : t'.Held := by
  obtain ⟨hlen, hwritable⟩ := Prod.mk.inj hp
  unfold Held
  rw [hlen, hwritable]
  exact h

theorem free_of_pending (h : t.rx.sRxLen = 0) (hp : t'.pending = t.pending) : t'.rx.sRxLen = 0 :=
  (congrArg Prod.fst hp).trans h

end Tap

/-- The kernel does not put off what it is given. -/
def TapWorld.Writable (w : TapWorld) : Prop := ∀ n, w.tapWrite n ≠ .again

/-- The kernel takes what it is given, or a part of it. -/
def TapWorld.Accepting (w : TapWorld) : Prop := ∀ n, ∃ count, w.tapWrite n = .wrote count

theorem TapWorld.Accepting.writable {w : TapWorld} (h : w.Accepting) : w.Writable := by
  intro n hagain
  obtain ⟨count, hcount⟩ := h n
  rw [hcount] at hagain
  cases hagain

namespace Tap

variable {w : TapWorld} {t t' : Tap}

/-- The buffer is free after a frame has been given to the kernel, unless the kernel is busy. -/
theorem transmitIpKernel_cases : (t.transmitIpKernel w).1 = .busy ∧ ¬ w.Writable ∧
      (t.transmitIpKernel w).2.pending = t.pending ∨
    (t.transmitIpKernel w).1 ≠ .busy ∧ (t.transmitIpKernel w).2.rx.sRxLen = 0 := by
  unfold transmitIpKernel
  split
  · split
    next h => exact .inr ⟨by simp, h⟩
    next => exact .inr ⟨by simp, rfl⟩
  · split
    next h => exact .inl ⟨rfl, fun hw => hw _ h, rfl⟩
    next => exact .inr ⟨by simp, rfl⟩
    next =>
      refine .inr ⟨?_, rfl⟩
      split <;> simp

theorem receivedIp_settles : (t.receivedIp w).2.Held ∧ (w.Writable → (t.receivedIp w).2.rx.sRxLen = 0) := by
  unfold receivedIp
  dsimp only
  split
  · exact ⟨.inl rfl, fun _ => rfl⟩
  · have hk := transmitIpKernel_cases (w := w) (t := t.validateDhcpReply.2)
    generalize t.validateDhcpReply.2.transmitIpKernel w = r at hk
    obtain ⟨result, t1⟩ := r
    rcases hk with ⟨hbusy, hno, _⟩ | ⟨hdone, hfree⟩
    · cases hbusy
      exact ⟨.inr rfl, fun hw => absurd hw hno⟩
    · split
      next he =>
        cases he
        exact absurd rfl hdone
      next he =>
        cases he
        exact ⟨.inl hfree, fun _ => hfree⟩

theorem receivedArp_free : (t.receivedArp w).2.rx.sRxLen = 0 := by
  unfold receivedArp
  split
  · split <;> rfl
  · rfl

theorem receivedFrame_settles : (t.receivedFrame w).2.Held ∧ (w.Writable → (t.receivedFrame w).2.rx.sRxLen = 0) := by
  unfold receivedFrame
  dsimp only
  split
  · exact receivedIp_settles
  · split
    · exact ⟨.inl receivedArp_free, fun _ => receivedArp_free⟩
    · exact ⟨.inl rfl, fun _ => rfl⟩

theorem ioWritable_settles (h : t.Held) :
    (t.ioWritable w).Held ∧ (w.Writable → (t.ioWritable w).rx.sRxLen = 0) := by
  unfold ioWritable
  split
  next hwatched =>
    have hk := transmitIpKernel_cases (w := w) (t := t)
    generalize t.transmitIpKernel w = r at hk
    obtain ⟨result, t1⟩ := r
    rcases hk with ⟨hbusy, hno, hsame⟩ | ⟨hdone, hfree⟩
    · cases hbusy
      exact ⟨h.of_pending hsame, fun hw => absurd hw hno⟩
    · split
      next he =>
        cases he
        exact absurd rfl hdone
      next he =>
        cases he
        exact ⟨.inl hfree, fun _ => hfree⟩
  next hwatched =>
    have hfree := h.resolve_right hwatched
    exact ⟨h, fun _ => hfree⟩

theorem runIoTap_settles (h : t.Held) (readable writable : Bool) : (t.runIoTap w readable writable).Held ∧
    (w.Writable → writable = true → (t.runIoTap w readable writable).rx.sRxLen = 0) := by
  have hread : (if readable then t.ioReadable w else t).Held := by
    split
    · exact h.of_pending ioReadable_pending
    · exact h
  unfold runIoTap
  dsimp only
  split
  next =>
    obtain ⟨hheld, hfree⟩ := ioWritable_settles (w := w) hread
    exact ⟨hheld, fun hw _ => hfree hw⟩
  next hno => exact ⟨hread, fun _ hyes => absurd hyes hno⟩

end Tap

end Katcp
