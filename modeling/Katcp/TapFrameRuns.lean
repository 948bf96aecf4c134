import Katcp.TapFates

namespace Katcp

open BitMemory ByteBlock ItemLog

namespace Tap

variable {w : TapWorld} {t t' : Tap} {tx : TapTx}

theorem announceArp_moves (h : t.tx = tx) : TxMoves tx (t.announceArp w).tx := by
  subst h
  exact .single (.newArp _ (by simp [announceFrame, broadcastConst]))

theorem requestArp_moves {index : Nat} (h : t.tx = tx) : TxMoves tx (t.requestArp w index).tx := by
  subst h
  unfold requestArp
  split
  · exact .refl
  · exact .single (.newArp _ (by simp [requestFrame, broadcastConst]))

theorem senderGleaned_tx : t.senderGleaned.tx = t.tx := by
  unfold senderGleaned gleanArp
  dsimp only
  repeat' split
  all_goals rfl

theorem processArp_moves (h : t.tx = tx) : TxMoves tx (t.processArp w).2.tx := by
  subst h
  unfold processArp
  split
  · exact .refl
  · split
    · rw [senderGleaned_tx]
    · split
      · split
        · exact .single (.reply _ _ (by decide))
        · rw [senderGleaned_tx]
      · exact .refl

theorem askEntry_moves (h : t.tx = tx) : TxMoves tx (t.askEntry w).tx := by
  unfold askEntry
  dsimp only
  split
  · exact announceArp_moves h
  · exact requestArp_moves h

theorem spamSweep_moves (left : Nat) (h : t.tx = tx) : TxMoves tx (t.spamSweep w left).tx := by
  induction left generalizing t with
  | zero =>
    subst h
    exact .refl
  | succ left ih =>
    unfold spamSweep
    dsimp only
    split
    · exact askEntry_moves h
    · exact ih h

theorem spamArp_moves (h : t.tx = tx) : TxMoves tx (t.spamArp w).tx := by
  unfold spamArp
  split
  · rw [h]
  · dsimp only
    split <;> exact spamSweep_moves _ h

theorem spamQuiet_moves {burst : Nat} (h : t.tx = tx) : TxMoves tx (t.spamQuiet w burst).tx := by
  unfold spamQuiet
  split
  · split
    · exact spamArp_moves h
    · rw [h]
  · rw [h]

theorem dhcpMsg_moves {mtype : DhcpMsgType} {flags : DhcpFlags} (h : t.tx = tx) :
    TxMoves tx (t.dhcpMsg w mtype flags).2.tx := by
  subst h
  exact .single (.dhcp _ _ (by decide))

theorem takeDhcp_tx {mtype : DhcpMsgType} {is : Bool} (h : t.takeDhcp w mtype = some (is, t')) : t'.tx = t.tx := by
  unfold takeDhcp at h
  split at h
  next =>
    obtain ⟨⟨mt, t1⟩, hp, h⟩ := Option.map_eq_some_iff.mp h
    cases h
    unfold processDhcp at hp
    dsimp only at hp
    split at hp
    next =>
      obtain ⟨_, _, hp⟩ := Option.map_eq_some_iff.mp hp
      cases hp
      rfl
    next =>
      cases Option.some.inj hp
      rfl
  next => cases Option.some.inj h; rfl

theorem configureIpFpga_tx {address : BitVec 32} {subnet : Option Nat} {gateway : Option (BitVec 32)} :
    (t.configureIpFpga address subnet gateway).2.tx = t.tx := by
  unfold configureIpFpga
  dsimp only
  split <;> rfl

theorem dhcpConfigureFpga_moves (h : t.tx = tx) : TxMoves tx (t.dhcpConfigureFpga w).2.tx := by
  subst h
  unfold dhcpConfigureFpga
  dsimp only
  split
  · refine Relation.ReflTransGen.trans (.single .reload) (announceArp_moves ?_)
    unfold tapReloadArp
    rw [configureIpFpga_tx]
  · rw [configureIpFpga_tx]

theorem leaseObtained_moves (h : t.tx = tx) : TxMoves tx (t.leaseObtained w).tx := by
  unfold leaseObtained
  have hmoves : TxMoves tx (t.dhcpConfigureFpga w).2.tx := dhcpConfigureFpga_moves h
  dsimp only [dhcpConfigureKernel, dhcpGoes, wakeDhcp, asked]
  split <;> split <;> exact hmoves

theorem selectDhcpState_tx (h : t.selectDhcpState w = some t') : t'.tx = t.tx := by
  obtain ⟨⟨is, t1⟩, ht, h⟩ := Option.map_eq_some_iff.mp h
  cases h
  rw [← takeDhcp_tx ht]
  dsimp only
  split <;> rfl

theorem requestDhcpState_moves (h : t.requestDhcpState w = some t') : TxMoves t.tx t'.tx := by
  obtain ⟨⟨is, t1⟩, ht, h⟩ := Option.map_eq_some_iff.mp h
  cases h
  rw [← takeDhcp_tx ht]
  dsimp only
  split
  · exact leaseObtained_moves rfl
  · exact .refl

theorem renewDhcpState_moves (h : t.renewDhcpState w = some t') : TxMoves t.tx t'.tx := by
  obtain ⟨⟨is, t1⟩, ht, h⟩ := Option.map_eq_some_iff.mp h
  cases h
  rw [show t.tx = t1.tx from (takeDhcp_tx ht).symm]
  dsimp only
  split
  · exact .refl
  · split
    · rw [dhcpGoes_tx]
      exact dhcpMsg_moves rfl
    · exact .refl

theorem rebindDhcpState_moves (h : t.rebindDhcpState w = some t') : TxMoves t.tx t'.tx := by
  obtain ⟨⟨is, t1⟩, ht, h⟩ := Option.map_eq_some_iff.mp h
  cases h
  rw [show t.tx = t1.tx from (takeDhcp_tx ht).symm]
  dsimp only
  split
  · exact .refl
  · split
    · rw [dhcpGoes_tx, addDhcpRetry_tx]
      exact dhcpMsg_moves rfl
    · exact .refl

theorem dhcpStateTable_moves (h : t.dhcpStateTable w = some t') (htx : t.tx = tx) : TxMoves tx t'.tx := by
  subst htx
  unfold dhcpStateTable at h
  split at h
  next =>
    cases Option.some.inj h
    exact .refl
  next =>
    cases Option.some.inj h
    unfold randomizeDhcpState
    split
    · rw [dhcpGoes_tx, addDhcpRetry_tx]
      exact dhcpMsg_moves rfl
    · exact .refl
  next => rw [selectDhcpState_tx h]
  next =>
    cases Option.some.inj h
    unfold waitDhcpState
    split
    · dsimp only
      split
      · rw [dhcpGoes_tx]
        exact dhcpMsg_moves rfl
      · rw [dhcpGoes_tx, setDhcpWait_tx]
        exact dhcpMsg_moves rfl
    · exact .refl
  next => exact requestDhcpState_moves h
  next =>
    cases Option.some.inj h
    unfold boundDhcpState
    dsimp only
    split
    · rw [dhcpGoes_tx]
      exact dhcpMsg_moves rfl
    · exact .refl
  next => exact renewDhcpState_moves h
  next => exact rebindDhcpState_moves h

theorem dhcpStatemachine_moves (h : t.dhcpStatemachine w = some t') : TxMoves t.tx t'.tx := by
  unfold dhcpStatemachine at h
  dsimp only at h
  split at h
  next =>
    split at h
    next =>
      cases Option.some.inj h
      exact .refl
    next => exact dhcpStateTable_moves h rfl
  next => exact dhcpStateTable_moves h rfl

theorem flushBuffers_moves : TxMoves t.tx (t.flushBuffers w).tx := by
  unfold flushBuffers
  dsimp only
  split
  next ha =>
    have harp : TxMoves t.tx (t.tx.sendArp (t.sizes w)) := .single (.arp _ ha)
    split
    next hu => exact harp.tail (.user _ hu)
    next => exact harp
  next =>
    split
    next hu => exact .single (.user _ hu)
    next => exact .refl

theorem validateDhcpReply_tx : t.validateDhcpReply.2.tx = t.tx := by
  unfold validateDhcpReply
  repeat' split
  all_goals rfl

theorem keepDhcp_tx : t.keepDhcp.tx = t.tx := by
  unfold keepDhcp
  split <;> rfl

theorem transmitIpKernel_tx : (t.transmitIpKernel w).2.tx = t.tx := by
  unfold transmitIpKernel
  repeat' split
  all_goals rfl

theorem receivedIp_tx : (t.receivedIp w).2.tx = t.tx := by
  unfold receivedIp
  dsimp only
  split
  · exact (keepDhcp_tx (t := t.validateDhcpReply.2)).trans validateDhcpReply_tx
  · split
    next h =>
      have hk := transmitIpKernel_tx (w := w) (t := t.validateDhcpReply.2)
      rw [h] at hk
      exact hk.trans validateDhcpReply_tx
    next h =>
      have hk := transmitIpKernel_tx (w := w) (t := t.validateDhcpReply.2)
      rw [h] at hk
      exact hk.trans validateDhcpReply_tx

theorem receivedArp_moves (h : t.tx = tx) : TxMoves tx (t.receivedArp w).2.tx := by
  unfold receivedArp
  have hp : TxMoves tx (t.processArp w).2.tx := processArp_moves h
  split
  · split
    next he => rwa [he] at hp
    next he => rwa [he] at hp
    next he => rwa [he] at hp
  · subst h
    exact .refl

theorem receivedFrame_moves (h : t.tx = tx) : TxMoves tx (t.receivedFrame w).2.tx := by
  unfold receivedFrame
  dsimp only
  split
  · rw [receivedIp_tx, ← h]
  · split
    · exact receivedArp_moves h
    · rw [← h]
      exact .refl

theorem receiveBurst_moves (left burst : Nat) : TxMoves t.tx (t.receiveBurst w left burst).2.tx := by
  induction left generalizing t burst with
  | zero => exact .refl
  | succ left ih =>
    have hr : (t.receiveFrameFpga w).2.tx = t.tx := by
      unfold receiveFrameFpga
      dsimp only
      repeat' split
      all_goals rfl
    unfold receiveBurst
    split
    next he =>
      rw [he] at hr
      rw [← hr]
    next t1 he =>
      rw [he] at hr
      have hf : TxMoves t.tx (t1.receivedFrame w).2.tx := receivedFrame_moves hr
      split
      next t2 he2 =>
        rw [he2] at hf
        exact hf.trans (ih (burst + 1))
      next t2 he2 =>
        rw [he2] at hf
        exact hf

theorem pollFrames_moves : TxMoves t.tx (t.pollFrames w).tx := by
  have hflush : TxMoves t.tx (t.flushBuffers w).tx := flushBuffers_moves
  have hburst := receiveBurst_moves (w := w) (t := t.flushBuffers w) ((t.flushBuffers w).rx.sBurst + 1) 0
  unfold pollFrames
  dsimp only
  generalize (t.flushBuffers w).receiveBurst w ((t.flushBuffers w).rx.sBurst + 1) 0 = received at hburst ⊢
  exact hflush.trans (hburst.trans (spamQuiet_moves rfl))

theorem runTimerTap_moves (h : t.runTimerTap w = some t') : TxMoves t.tx t'.tx := by
  obtain ⟨t1, h1, h⟩ := Option.map_eq_some_iff.mp h
  cases h
  refine Relation.ReflTransGen.trans ?_ pollFrames_moves
  split at h1
  · exact dhcpStatemachine_moves h1
  · cases Option.some.inj h1
    exact .refl

theorem ioReadable_moves : TxMoves t.tx (t.ioReadable w).tx := by
  unfold ioReadable receiveIpKernel
  by_cases hlen : t.tx.sTxLen > 0
  · rw [if_pos hlen]
  · have hfree : t.tx.sTxLen = 0 := Nat.eq_zero_of_not_pos hlen
    rw [if_neg hlen]
    cases w.tapRead t.clock with
    | data bytes =>
      dsimp only
      split
      next t1 he =>
        split at he
        next => cases he
        next =>
          cases he
          unfold transmitIpFpga
          dsimp only
          split
          next =>
            have hdrop := TxMove.dropped (put t.tx.sTxb sizeFrameHeader (bytes.take (getapMaxFrame - sizeFrameHeader)))
              (t.tx.sTxError + 1) hfree (Nat.le_succ _)
            rw [← hfree]
            exact .single hdrop
          next mac _ => exact .single (.newUser _ _ hfree (Nat.lt_of_lt_of_le (by decide) (Nat.le_add_left _ _)))
      next t1 he =>
        split at he
        next =>
          cases he
          exact .single (.dropped _ _ hfree (Nat.le_refl _))
        next => cases he
    | _ => exact .refl

theorem ioWritable_tx : (t.ioWritable w).tx = t.tx := by
  unfold ioWritable
  split
  · have hk : (t.transmitIpKernel w).2.tx = t.tx := transmitIpKernel_tx
    split
    next he => rwa [he] at hk
    next he => rwa [he] at hk
  · rfl

theorem runIoTap_moves (readable writable : Bool) : TxMoves t.tx (t.runIoTap w readable writable).tx := by
  have hr : TxMoves t.tx (if readable then t.ioReadable w else t).tx := by
    split
    · exact ioReadable_moves
    · exact .refl
  unfold runIoTap
  dsimp only
  split
  · rwa [ioWritable_tx]
  · exact hr

theorem act_moves {a : TapAction} (h : t.act a = some t') : TxMoves t.tx t'.tx := by
  cases a with
  | poll w => exact runTimerTap_moves h
  | io w readable writable =>
    cases Option.some.inj h
    exact runIoTap_moves readable writable
  | reload =>
    cases Option.some.inj h
    exact .single .reload
  | dhcp n =>
    obtain ⟨_, h⟩ := Option.ite_none_left_eq_some.mp h
    cases Option.some.inj h
    exact .refl

/-- A poll tries every frame that waits. -/
theorem flushBuffers_tries {id : Nat} {item : FrameMaker × Octets} (h : Waits t.tx id item) :
    ∃ e more, Tries id item e ∧ e ∈ more ∧ (t.flushBuffers w).tx.frames = t.tx.frames ++ more := by
  rcases h with ⟨hlen, hid, hitem⟩ | ⟨hlen, hid, hitem⟩
  · subst hid hitem
    obtain ⟨e, hf, he, _⟩ := TapTx.sendArp_tries (t.sizes w) hlen
    have hgrows : t.tx.frames ++ [e] <+: (t.flushBuffers w).tx.frames := by
      rw [← hf]
      unfold flushBuffers
      rw [if_pos hlen]
      dsimp only
      split
      next hu => exact TapTx.transmitFrameFpga_grows hu
      next => exact List.prefix_rfl
    obtain ⟨rest, hrest⟩ := hgrows
    exact ⟨e, [e] ++ rest, he, by simp, by rw [← hrest, List.append_assoc]⟩
  · subst hid hitem
    unfold flushBuffers
    dsimp only
    split
    next ha =>
      obtain ⟨e1, hf1, _, hl, hi, hb⟩ := TapTx.sendArp_tries (t.sizes w) ha
      rw [if_pos (by rw [hl]; exact hlen)]
      have huser : 0 < (t.tx.sendArp (t.sizes w)).sTxLen := by rwa [hl]
      obtain ⟨e, hf, he⟩ := TapTx.transmitFrameFpga_tries
        (sizes w { t.asked with tx := t.tx.sendArp (t.sizes w) }) huser
      rw [hl, hi, hb] at he
      exact ⟨e, [e1, e], he, by simp, by rw [hf, hf1, List.append_assoc]; rfl⟩
    next =>
      obtain ⟨e, hf, he⟩ := TapTx.transmitFrameFpga_tries (t.sizes w) hlen
      exact ⟨e, [e], he, by simp, hf⟩

theorem configureFpga_tx (setup : TapSetup) : (t.configureFpga setup).2.tx = (t.takeMac setup.mac).tx := by
  unfold configureFpga
  dsimp only
  split
  · dsimp only
    exact configureIpFpga_tx
  · exact configureIpFpga_tx

end Tap

/-- What becomes of the frames of an instance: each comes to an end at most once, with its own
bytes; an arp frame may be replaced by a later one; what has not ended waits for the next poll;
and nothing is counted as sent that was not written. -/
structure FrameFates (t : Tap) : Prop where
  once : ∀ id, (ends t.tx.frames id).length ≤ 1
  again : ∀ id item again, .opened id item ∈ t.tx.frames → .tried id again ∈ t.tx.frames → again = item
  written : ∀ id maker frame maker' image sizes, .opened id (maker, frame) ∈ t.tx.frames →
    .ended id (.written maker' image sizes) ∈ t.tx.frames → maker' = maker ∧ frame <+: image
  replaced : ∀ id maker frame other, .opened id (maker, frame) ∈ t.tx.frames →
    .ended id (.replaced other) ∈ t.tx.frames →
    maker = .arp ∧ id < other ∧ ∃ later, .opened other (.arp, later) ∈ t.tx.frames
  waits : ∀ id maker frame, ItemLog.Open t.tx.frames id (maker, frame) → maker ≠ .dhcp → Waits t.tx id (maker, frame)
  retried : ∀ id maker frame w t', ItemLog.Open t.tx.frames id (maker, frame) → maker ≠ .dhcp → t.act (.poll w) = some t' →
    ∃ e more, Tries id (maker, frame) e ∧ e ∈ more ∧ t'.tx.frames = t.tx.frames ++ more
  counted : FramesCounted t.tx

variable {w : TapWorld} {created t t' : Tap} {setup : TapSetup} {log : List Unit}

/-- An instance starts with nothing to send. -/
theorem createGetap_tx (h : createGetap setup = some created) : FramesKept [] created.tx ∧ FramesCounted created.tx := by
  have hconf := Tap.configureFpga_tx (t := freshTap setup) setup
  have htx : created.tx = ((freshTap setup).takeMac setup.mac).tx := by
    unfold createGetap at h
    split at h
    next h1 =>
      cases Option.some.inj h
      rwa [h1] at hconf
    next => cases h
  rw [htx]
  exact ⟨{
    orderly := .start
    arp := fun hlen => absurd hlen (Nat.lt_irrefl 0)
    user := fun hlen => absurd hlen (Nat.lt_irrefl 0)
    rest := fun _ _ _ hopen _ => (by cases hopen.1)
    later := fun _ _ hmem => (by cases hmem) }, {
    user := rfl, dhcp := rfl, arp := Nat.le_refl 0, failed := Nat.le_refl 0 }⟩

theorem tapMachine_frames (hc : createGetap setup = some created)
    (h : (tapMachine created).Runs (fun _ _ => True) t log) : FramesKept [] t.tx ∧ FramesCounted t.tx := by
  refine h.invariant (fun t _ => FramesKept [] t.tx ∧ FramesCounted t.tx) (createGetap_tx hc) ?_
  intro t _ a t' ⟨hk, hcount⟩ _ hstep
  have hmoves := Tap.act_moves hstep
  exact ⟨hk.moves hmoves, hcount.moves hmoves⟩

theorem FramesKept.retried {id : Nat} {maker : FrameMaker} {frame : Octets} (h : FramesKept [] t.tx)
    (hopen : ItemLog.Open t.tx.frames id (maker, frame)) (hmaker : maker ≠ .dhcp) (hpoll : t.runTimerTap w = some t') :
    ∃ e more, Tries id (maker, frame) e ∧ e ∈ more ∧ t'.tx.frames = t.tx.frames ++ more := by
  obtain ⟨t1, h1, hpoll⟩ := Option.map_eq_some_iff.mp hpoll
  cases hpoll
  have hmoves : TxMoves t.tx t1.tx := by
    split at h1
    · exact Tap.dhcpStatemachine_moves h1
    · cases Option.some.inj h1
      exact .refl
  obtain ⟨m1, hm1⟩ := hmoves.grows
  by_cases hended : ∃ how, .ended id how ∈ t1.tx.frames
  · obtain ⟨how, hended⟩ := hended
    obtain ⟨m2, hm2⟩ := (Tap.pollFrames_moves (w := w) (t := t1)).grows
    have hnew : .ended id how ∈ m1 := by
      rw [← hm1] at hended
      exact (List.mem_append.mp hended).resolve_left (hopen.2 how)
    exact ⟨.ended id how, m1 ++ m2, .inr ⟨how, rfl⟩, List.mem_append_left _ hnew, by
      rw [← hm2, ← hm1, List.append_assoc]⟩
  · have hopen1 : ItemLog.Open t1.tx.frames id (maker, frame) := by
      refine ⟨?_, fun how hmem => hended ⟨how, hmem⟩⟩
      rw [← hm1]
      exact List.mem_append_left _ hopen.1
    obtain ⟨e, m2, he, hmem, hm2⟩ := Tap.flushBuffers_tries (w := w) ((h.moves hmoves).waits hopen1 hmaker)
    have hgrows : (t1.flushBuffers w).tx.frames <+: (t1.pollFrames w).tx.frames := by
      have hburst := Tap.receiveBurst_moves (w := w) (t := t1.flushBuffers w) ((t1.flushBuffers w).rx.sBurst + 1) 0
      unfold Tap.pollFrames
      dsimp only
      generalize (t1.flushBuffers w).receiveBurst w ((t1.flushBuffers w).rx.sBurst + 1) 0 = received at hburst ⊢
      exact TxMoves.grows (hburst.trans (Tap.spamQuiet_moves rfl))
    obtain ⟨m3, hm3⟩ := hgrows
    exact ⟨e, m1 ++ (m2 ++ m3), he, by simp [hmem], by rw [← hm3, hm2, ← hm1, List.append_assoc, List.append_assoc]⟩

/-- Whatever the gateware says, and however packets, arp and dhcp traffic come together. -/
theorem frames_retried_or_replaced (hc : createGetap setup = some created)
    (h : (tapMachine created).Runs (fun _ _ => True) t log) : FrameFates t := by
  obtain ⟨hk, hcount⟩ := tapMachine_frames hc h
  exact {
    once := hk.orderly.once
    again := fun id item again hopened htried => hk.orderly.unique (hk.orderly.tried_opened htried) hopened
    written := fun id maker frame maker' image sizes hopened hended => by
      obtain ⟨item, hitem, hfits⟩ := hk.orderly.ended_fits hended
      cases hk.orderly.unique hitem hopened
      exact hfits
    replaced := fun id maker frame other hopened hended => by
      obtain ⟨item, hitem, hfits⟩ := hk.orderly.ended_fits hended
      cases hk.orderly.unique hitem hopened
      exact ⟨hfits, hk.later id other hended⟩
    waits := fun id maker frame hopen hmaker => hk.waits hopen hmaker
    retried := fun id maker frame w t' hopen hmaker hpoll => hk.retried hopen hmaker hpoll
    counted := hcount }

/-- An arp request for 10.0.0.1. -/
def arpRequestBuffer : Bytes :=
  put (fun _ => 0) 0 (broadcastConst ++ [2, 0, 0, 0, 0, 9] ++ [0x08, 0x06] ++ arpConst ++ [1] ++
    [2, 0, 0, 0, 0, 9] ++ [10, 0, 0, 9] ++ [0, 0, 0, 0, 0, 0] ++ [10, 0, 0, 1])

/-- A world in which the gateware is always busy, and has an arp request from the fourth answer on. -/
def busyWorld : TapWorld where
  bufferSizes k := if k < 4 then 0x00010000 else 0x00010006
  rxBuffer _ := arpRequestBuffer
  tapRead _ := .again
  tapWrite _ := .again
  dhcpRand _ := 0
  time _ := 0
  setKernelIfAddr _ := true
  uninitialised _ := 0

/-- An instance with the address 10.0.0.1 and the periods of the source. -/
def sampleSetup : TapSetup where
  mac := [2, 0, 0, 0, 0, 1]
  address := 0x0a000001
  subnet := some 24
  gateway := none
  spamPeriod := spamPeriodDefault
  announcePeriod := announcePeriodDefault
  validPeriod := freshValid
  arpMode := arpModeDefault

/-- The announcement that was the first frame is gone, with nothing to show for it. -/
def firstReplaced (t : Tap) : Bool :=
  (t.tx.frames.any fun e => match e with
    | .opened 0 (.arp, _) => true
    | _ => false) &&
  (t.tx.frames.all fun e => match e with
    | .ended 0 (.written _ _ _) => false
    | .ended 0 .failed => false
    | _ => true) && t.tx.arpId = 1 && t.tx.sTxLen = 0

theorem busy_polls : ((createGetap sampleSetup).bind fun created => ((tapMachine created).exec created
    [.poll busyWorld, .poll busyWorld, .poll busyWorld]).map fun r => firstReplaced r.1) = some true := by
  decide +kernel

theorem frames_retried_or_replaced_busy : ∃ created t, createGetap sampleSetup = some created ∧
    firstReplaced t = true ∧ FrameFates t := by
  obtain ⟨created, hc, hrun⟩ := Option.bind_eq_some_iff.mp busy_polls
  obtain ⟨⟨t, out⟩, he, hgone⟩ := Option.map_eq_some_iff.mp hrun
  exact ⟨created, t, hc, hgone, frames_retried_or_replaced hc (Machine.Runs.exec .start _ he (Machine.meets_true ..))⟩

/-- A reply that the busy gateware refuses takes the place of an announcement that waits, which is
then neither written nor counted. -/
theorem frames_replaced_unreported : ¬ ∀ setup created t log, createGetap setup = some created →
    (tapMachine created).Runs (fun _ _ => True) t log →
    ∀ id maker frame, .opened id (maker, frame) ∈ t.tx.frames →
      (∃ image sizes, .ended id (.written maker image sizes) ∈ t.tx.frames) ∨ .ended id .failed ∈ t.tx.frames ∨
        Waits t.tx id (maker, frame) := by
  intro h
  obtain ⟨created, hc, hrun⟩ := Option.bind_eq_some_iff.mp busy_polls
  obtain ⟨⟨t, out⟩, he, hgone⟩ := Option.map_eq_some_iff.mp hrun
  have hfates := h sampleSetup created t _ hc (Machine.Runs.exec .start _ he (Machine.meets_true ..))
  simp only [firstReplaced, Bool.and_eq_true, List.any_eq_true, List.all_eq_true, decide_eq_true_eq] at hgone
  obtain ⟨⟨⟨⟨e, hopened, he⟩, hnone⟩, harp⟩, hlen⟩ := hgone
  split at he
  next frame =>
    rcases hfates 0 .arp frame hopened with ⟨image, sizes, hw⟩ | hf | ⟨_, hid, _⟩ | ⟨hl, _⟩
    · exact Bool.false_ne_true (hnone _ hw)
    · exact Bool.false_ne_true (hnone _ hf)
    · omega
    · omega
  next => cases he

end Katcp
