import Katcp.DhcpLease
import Katcp.RxPath

namespace Katcp

open BitMemory ByteBlock

def RxEvent.announced? : RxEvent → Option RxFrame
  | .announced f => some f
  | _ => none

def RxEvent.acknowledged? : RxEvent → Option RxFrame
  | .acknowledged f => some f
  | _ => none

namespace RxPath

variable {w : TapWorld} {s s' : RxPath} {f : RxFrame} {next : Nat → Option RxFrame} {said : List RxEvent}

theorem words_lt (s : RxPath) : s.words < 2 ^ 16 := by
  unfold words
  cases s.shown with
  | none => exact Nat.two_pow_pos 16
  | some f => exact f.shown.2

theorem world_words (n : Nat) : ((s.world w).bufferSizes n &&& 0xffff).toNat = s.words := by
  have hlt := s.words_lt
  have hsize : (s.world w).bufferSizes n = (w.bufferSizes n).extractLsb' 16 16 ++ BitVec.ofNat 16 s.words := rfl
  rw [hsize, BitVec.toNat_and, BitVec.toNat_append, BitVec.toNat_ofNat, Nat.mod_eq_of_lt hlt]
  generalize ((w.bufferSizes n).extractLsb' 16 16).toNat = high
  have hmask : (0xffff : BitVec 32).toNat = 2 ^ 16 - 1 := rfl
  rw [hmask, Nat.and_two_pow_sub_one_eq_mod, ← Nat.shiftLeft_add_eq_or_of_lt hlt, Nat.shiftLeft_eq]
  omega

theorem words_shown (hshown : s.shown = some f) : s.words = f.words := by
  rw [words, hshown]
  rfl

/-- The tap with a frame in its receive buffer. -/
def received (s : RxPath) (f : RxFrame) : Tap :=
  { s.tap.asked with rx := { s.tap.rx with sRxb := put s.tap.rx.sRxb 0 f.octets, sRxLen := f.len } }

theorem receiveFrameFpga_sized (hshown : s.shown = some f) (hfree : s.tap.rx.sRxLen = 0) (hsized : f.Sized) :
    s.tap.receiveFrameFpga (s.world w) = (true, s.received f) := by
  have hcontent : (s.world w).rxBuffer s.tap.clock = f.content := by
    rw [world, hshown]
    rfl
  unfold RxFrame.Sized RxFrame.len at hsized
  unfold Tap.receiveFrameFpga
  rw [if_neg (by omega)]
  dsimp only
  rw [Tap.sizes, world_words, words_shown hshown, hcontent, if_neg (by omega)]
  rfl

theorem receiveFrameFpga_unsized (hshown : s.shown = some f) (hsized : ¬ f.Sized) :
    (s.tap.receiveFrameFpga (s.world w)).1 = false := by
  unfold RxFrame.Sized RxFrame.len at hsized
  unfold Tap.receiveFrameFpga
  dsimp only
  split
  · rfl
  · rw [Tap.sizes, world_words, words_shown hshown, if_pos (by omega)]

theorem receiveFrameFpga_nothing (hshown : s.shown = none) : (s.tap.receiveFrameFpga (s.world w)).1 = false := by
  have hwords : s.words = 0 := by
    rw [words, hshown]
    rfl
  unfold Tap.receiveFrameFpga
  dsimp only
  split
  · rfl
  · rw [Tap.sizes, world_words, hwords, if_pos (.inl (Nat.zero_le _))]

theorem receiveFrameFpga_still (t : Tap) (h : (t.receiveFrameFpga w).1 = false) :
    (t.receiveFrameFpga w).2.pending = t.pending := by
  unfold Tap.receiveFrameFpga at h ⊢
  dsimp only at h ⊢
  split at h
  next hbusy => rw [if_pos hbusy]
  next hfree =>
    rw [if_neg hfree]
    split at h
    next hlen =>
      rw [if_pos hlen]
      rfl
    next => cases h

theorem frameEvents_quiet (t : Tap) : (t.frameEvents w).filterMap RxEvent.announced? = [] ∧
    (t.frameEvents w).filterMap RxEvent.acknowledged? = [] := by
  unfold Tap.frameEvents Tap.kernelWrites
  split
  · split
    · exact ⟨rfl, rfl⟩
    · split <;> exact ⟨rfl, rfl⟩
  · exact ⟨rfl, rfl⟩

/-- What a loop keeps: who announced what is settled, and what is left waits until the device is writable. -/
structure Passed (w : TapWorld) (s s' : RxPath) (said : List RxEvent) : Prop where
  held : s.tap.Held → s'.tap.Held
  free : w.Writable → s.tap.rx.sRxLen = 0 → s'.tap.rx.sRxLen = 0
  ledger : s.shown.toList ++ said.filterMap RxEvent.announced? =
    said.filterMap RxEvent.acknowledged? ++ s'.shown.toList

theorem Passed.still (w : TapWorld) {t : Tap} (h : t.pending = s.tap.pending) : Passed w s { s with tap := t } [] :=
  ⟨fun hheld => hheld.of_pending h, fun _ hfree => Tap.free_of_pending hfree h, by simp⟩

theorem Passed.trans {s1 : RxPath} {more : List RxEvent} (h : Passed w s s1 said) (h' : Passed w s1 s' more) :
    Passed w s s' (said ++ more) := by
  refine ⟨fun hheld => h'.held (h.held hheld), fun hw hfree => h'.free hw (h.free hw hfree), ?_⟩
  rw [List.filterMap_append, List.filterMap_append, ← List.append_assoc, h.ledger, List.append_assoc, h'.ledger,
    List.append_assoc]

theorem Passed.frame (hshown : s.shown = some f) (t : Tap) (after : Option RxFrame) :
    Passed w s ⟨(t.receivedFrame (s.world w)).2, after⟩
      (.acknowledged f :: t.frameEvents w ++ (after.map RxEvent.announced).toList) := by
  have hsettles := Tap.receivedFrame_settles (w := s.world w) (t := t)
  obtain ⟨hannounced, hacknowledged⟩ := frameEvents_quiet (w := w) t
  refine ⟨fun _ => hsettles.1, fun hw _ => hsettles.2 hw, ?_⟩
  rw [List.filterMap_append, List.filterMap_append, List.filterMap_cons_none rfl,
    List.filterMap_cons_some (show RxEvent.acknowledged? (.acknowledged f) = some f from rfl), hannounced,
    hacknowledged, hshown]
  cases after <;> rfl

theorem receiveBurst_passed (left burst : Nat) :
    Passed w s (receiveBurst w next left burst s).2.1 (receiveBurst w next left burst s).2.2 := by
  induction left generalizing s burst with
  | zero => exact .still w rfl
  | succ left ih =>
    have hstill := receiveFrameFpga_still (w := s.world w) s.tap
    have hnothing := receiveFrameFpga_nothing (w := w) (s := s)
    unfold receiveBurst
    generalize s.tap.receiveFrameFpga (s.world w) = r at hstill hnothing
    obtain ⟨copied, t⟩ := r
    cases hshown : s.shown with
    | none =>
      cases hnothing hshown
      have hsame : Passed w s { s with tap := t } [] := .still w (hstill rfl)
      rwa [hshown] at hsame
    | some f =>
      cases copied with
      | false =>
        have hsame : Passed w s { s with tap := t } [] := .still w (hstill rfl)
        rwa [hshown] at hsame
      | true =>
        have hframe := Passed.frame (w := w) hshown t (next burst)
        dsimp only
        split
        next t1 he =>
          rw [he] at hframe
          exact hframe.trans (ih (burst + 1))
        next t1 he =>
          rw [he] at hframe
          exact hframe

theorem receiveBurst_first (hshown : s.shown = some f) (hfree : s.tap.rx.sRxLen = 0) (hsized : f.Sized)
    (left burst : Nat) : ∃ more, (receiveBurst w next (left + 1) burst s).2.2 =
      .acknowledged f :: (s.received f).frameEvents w ++ more := by
  unfold receiveBurst
  rw [receiveFrameFpga_sized hshown hfree hsized, hshown]
  dsimp only
  split
  next t he =>
    refine ⟨((next burst).map RxEvent.announced).toList ++
      (receiveBurst w next left (burst + 1) ⟨t, next burst⟩).2.2, ?_⟩
    simp only [List.cons_append, List.append_assoc]
  next => exact ⟨_, rfl⟩

theorem receiveBurst_unsized (hshown : s.shown = some f) (hsized : ¬ f.Sized) (left burst : Nat) :
    receiveBurst w next (left + 1) burst s =
      (burst, { s with tap := (s.tap.receiveFrameFpga (s.world w)).2 }, []) := by
  have hstill := receiveFrameFpga_unsized (w := w) hshown hsized
  unfold receiveBurst
  generalize s.tap.receiveFrameFpga (s.world w) = r at hstill
  obtain ⟨copied, t⟩ := r
  cases hstill
  rw [hshown]

theorem put_load (b c : Bytes) {n i : Nat} (h : i < n) : put b 0 (ByteBlock.load c 0 n) i = c i := by
  rw [put, if_pos (Nat.zero_le i), Nat.sub_zero, List.getD_eq_getElem?_getD, getElem?_load, if_pos h, Nat.zero_add,
    Option.getD_some]

/-- The frame is in the receive buffer, whatever an earlier one has left behind it. -/
theorem received_byte {i : Nat} (h : i < f.len) : (s.received f).rx.sRxb i = f.content i := put_load _ _ h

theorem received_octets : ByteBlock.load (s.received f).rx.sRxb 0 f.len = f.octets := by
  have hlen : f.octets.length = f.len := length_load
  have hload : ByteBlock.load (put s.tap.rx.sRxb 0 f.octets) 0 f.octets.length = f.octets := load_put_self
  rwa [hlen] at hload

theorem received_packet (hsized : f.Sized) :
    ByteBlock.load (s.received f).rx.sRxb sizeFrameHeader (f.len - sizeFrameHeader) = f.packet := by
  have hlen := hsized.1
  apply List.ext_getElem?
  intro i
  rw [RxFrame.packet, getElem?_load, getElem?_load]
  split
  next hi => rw [received_byte (by omega)]
  next => rfl

theorem frameEvents_taken (s : RxPath) (f : RxFrame) : RxEvent.taken f.octets ∈ (s.received f).frameEvents w := by
  rw [← received_octets (s := s)]
  exact List.mem_cons_self

/-- An ip packet that is no dhcp reply is written to the kernel. -/
theorem frameEvents_written (hsized : f.Sized) (hf : f.ForKernel) (hw : w.Accepting) :
    ∃ count, RxEvent.written f.packet count ∈ (s.received f).frameEvents w := by
  have hlen : 14 < f.len := hsized.1
  have hreply : isDhcpReply (s.received f).rx.sRxb = false := hf.2.2 _ fun i hi => received_byte hi
  have hvalid : (s.received f).validateDhcpReply = (false, s.received f) := by
    unfold Tap.validateDhcpReply
    rw [hreply]
    rfl
  obtain ⟨count, hcount⟩ := hw (s.received f).clock
  have hwrites : (s.received f).kernelWrites w = [.written f.packet count] := by
    have hrx : (s.received f).rx.sRxLen = f.len := rfl
    unfold Tap.kernelWrites
    rw [hrx, if_neg (Nat.not_le.mpr hsized.1), hcount, received_packet hsized]
  refine ⟨count, List.mem_cons_of_mem _ ?_⟩
  rw [hvalid, received_byte (by omega), received_byte (by omega), if_pos ⟨hf.1, hf.2.1, rfl⟩, hwrites]
  exact List.mem_cons_self

theorem runTimerTap_parts (h : s.runTimerTap w next = some (s', said)) :
    ∃ t burst s1, t.pending = s.tap.pending ∧
      receiveBurst w next (t.rx.sBurst + 1) 0 { s with tap := t } = (burst, s1, said) ∧
      s' = { s1 with tap := s1.tap.spamQuiet (s1.world w) burst } := by
  obtain ⟨t, ht, h⟩ := Option.map_eq_some_iff.mp h
  cases h
  have hdhcp : t.pending = s.tap.pending := by
    split at ht
    next => exact Tap.dhcpStatemachine_pending ht
    next =>
      cases ht
      rfl
  exact ⟨_, _, _, Tap.flushBuffers_pending.trans hdhcp, rfl, rfl⟩

theorem runTimerTap_passed (h : s.runTimerTap w next = some (s', said)) : Passed w s s' said := by
  obtain ⟨t, burst, s1, ht, hburst, rfl⟩ := runTimerTap_parts h
  have hbefore : Passed w s { s with tap := t } [] := .still w ht
  have hloop := @receiveBurst_passed w { s with tap := t } next (t.rx.sBurst + 1) 0
  rw [hburst] at hloop
  have hafter : Passed w s1 { s1 with tap := s1.tap.spamQuiet (s1.world w) burst } [] :=
    .still w (Tap.spamQuiet_pending burst)
  have hwhole := (hbefore.trans hloop).trans hafter
  rwa [List.nil_append, List.append_nil] at hwhole

/-- A poll that finds the buffer free acknowledges the frame that is shown, and deals with it. -/
theorem runTimerTap_first (h : s.runTimerTap w next = some (s', said)) (hshown : s.shown = some f)
    (hfree : s.tap.rx.sRxLen = 0) (hsized : f.Sized) :
    ∃ s1 more, said = .acknowledged f :: (RxPath.received s1 f).frameEvents w ++ more := by
  obtain ⟨t, burst, s1, ht, hburst, _⟩ := runTimerTap_parts h
  obtain ⟨more, hmore⟩ := @receiveBurst_first w { s with tap := t } f next hshown
    (Tap.free_of_pending hfree ht) hsized t.rx.sBurst 0
  rw [hburst] at hmore
  exact ⟨_, more, hmore⟩

theorem kernelWrites_quiet (t : Tap) : (t.kernelWrites w).filterMap RxEvent.announced? = [] ∧
    (t.kernelWrites w).filterMap RxEvent.acknowledged? = [] := by
  unfold Tap.kernelWrites
  split
  · exact ⟨rfl, rfl⟩
  · split <;> exact ⟨rfl, rfl⟩

theorem runIoTap_quiet (readable writable : Bool) :
    (s.runIoTap w readable writable).2.filterMap RxEvent.announced? = [] ∧
      (s.runIoTap w readable writable).2.filterMap RxEvent.acknowledged? = [] := by
  unfold runIoTap
  dsimp only
  generalize (if readable = true then s.tap.ioReadable (s.world w) else s.tap) = t
  split
  · exact kernelWrites_quiet t
  · exact ⟨rfl, rfl⟩

/-- The frames that have been shown are those that have been acknowledged and the one that is shown still. What waits
for the kernel waits until the device is writable. -/
structure Kept (s : RxPath) (log : List RxEvent) : Prop where
  held : s.tap.Held
  ledger : log.filterMap RxEvent.announced? = log.filterMap RxEvent.acknowledged? ++ s.shown.toList

theorem Kept.quiet {log : List RxEvent} (h : Kept s log) (hheld : s'.tap.Held) (hshown : s'.shown = s.shown)
    (hannounced : said.filterMap RxEvent.announced? = [])
    (hacknowledged : said.filterMap RxEvent.acknowledged? = []) :
    Kept s' (log ++ said) := by
  refine ⟨hheld, ?_⟩
  rw [List.filterMap_append, List.filterMap_append, hannounced, hacknowledged, List.append_nil, List.append_nil,
    hshown]
  exact h.ledger

theorem Kept.act {log : List RxEvent} {a : RxAction} (h : Kept s log) (hact : s.act a = some (s', said)) :
    Kept s' (log ++ said) := by
  cases a with
  | announce f =>
    obtain ⟨hnone, hact⟩ := Option.ite_none_right_eq_some.mp hact
    cases hact
    refine ⟨h.held, ?_⟩
    have hledger := h.ledger
    rw [Option.isNone_iff_eq_none.mp hnone, Option.toList_none, List.append_nil] at hledger
    rw [List.filterMap_append, List.filterMap_append, hledger]
    exact congrArg (· ++ [f]) (List.append_nil _).symm
  | poll w next =>
    have hpassed := runTimerTap_passed hact
    refine ⟨hpassed.held h.held, ?_⟩
    rw [List.filterMap_append, List.filterMap_append, h.ledger, List.append_assoc, List.append_assoc, hpassed.ledger]
  | io w readable writable =>
    cases hact
    obtain ⟨hannounced, hacknowledged⟩ := runIoTap_quiet (w := w) (s := s) readable writable
    exact h.quiet (Tap.runIoTap_settles h.held readable writable).1 rfl hannounced hacknowledged
  | reload =>
    cases hact
    exact h.quiet (h.held.of_pending rfl) rfl rfl rfl
  | dhcp n =>
    obtain ⟨t, ht, hact⟩ := Option.map_eq_some_iff.mp hact
    cases hact
    have hpending : t.pending = s.tap.pending := by
      unfold Tap.tapDhcpCmd at ht
      split at ht
      next => cases ht
      next =>
        cases ht
        rfl
    exact h.quiet (h.held.of_pending hpending) rfl rfl rfl

theorem receiveBurst_shown (left burst : Nat) (h : (receiveBurst w next left burst s).2.1.shown = some f) :
    s.shown = some f ∨ ∃ k, next k = some f := by
  induction left generalizing s burst with
  | zero => exact .inl h
  | succ left ih =>
    unfold receiveBurst at h
    split at h
    next =>
      dsimp only at h
      split at h
      next => exact (ih _ h).elim (fun he => .inr ⟨burst, he⟩) .inr
      next => exact .inr ⟨burst, h⟩
    next => exact .inl h

theorem act_shown {a : RxAction} (h : ∀ f, s.shown = some f → f.Sized) (ha : a.Sized)
    (hact : s.act a = some (s', said)) (hshown : s'.shown = some f) : f.Sized := by
  cases a with
  | announce f' =>
    obtain ⟨_, hact⟩ := Option.ite_none_right_eq_some.mp hact
    cases hact
    cases hshown
    exact ha
  | poll w next =>
    obtain ⟨t, burst, s1, _, hburst, rfl⟩ := runTimerTap_parts hact
    have hlast := @receiveBurst_shown w { s with tap := t } f next (t.rx.sBurst + 1) 0
    rw [hburst] at hlast
    rcases hlast hshown with hsame | ⟨k, hk⟩
    · exact h f hsame
    · exact ha k f hk
  | io w readable writable =>
    cases hact
    exact h f hshown
  | reload =>
    cases hact
    exact h f hshown
  | dhcp n =>
    obtain ⟨t, _, hact⟩ := Option.map_eq_some_iff.mp hact
    cases hact
    exact h f hshown

end RxPath

section

variable {setup : TapSetup} {created : Tap} {s s' : RxPath} {log said : List RxEvent} {f : RxFrame}

theorem createGetap_free (h : createGetap setup = some created) : created.rx.sRxLen = 0 := by
  unfold createGetap at h
  split at h
  next t hconf =>
    cases h
    have hrx : ((freshTap setup).configureFpga setup).2.rx.sRxLen = 0 := by
      unfold Tap.configureFpga Tap.configureIpFpga
      dsimp only
      split <;> rfl
    rwa [hconf] at hrx
  next => cases h

theorem rx_act {a : RxAction} (h : (rxMachine created).step s a = some s') :
    s.act a = some (s', (rxMachine created).emits s a) :=
  Machine.act_of_step (fun _ _ => rfl) (fun _ _ => rfl) h

theorem rx_runs (hc : createGetap setup = some created) (h : (rxMachine created).Runs (fun _ a => a.Sized) s log) :
    s.Kept log ∧ ∀ f, s.shown = some f → f.Sized := by
  refine h.invariant (fun s log => s.Kept log ∧ ∀ f, s.shown = some f → f.Sized) ?_ ?_
  · exact ⟨⟨.inl (createGetap_free hc), rfl⟩, fun _ hf => (by cases hf)⟩
  · intro s log a s' hinv hok hstep
    have hact := rx_act hstep
    exact ⟨hinv.1.act hact, fun f hf => RxPath.act_shown hinv.2 hok hact hf⟩

/-- What a way that is not stuck does: every frame but the one that is shown has been acknowledged, and when the
device is writable the next poll acknowledges that one, deals with it and leaves the buffer free. -/
structure Unwedged (created : Tap) (s : RxPath) (log : List RxEvent) : Prop where
  ledger : log.filterMap RxEvent.announced? = log.filterMap RxEvent.acknowledged? ++ s.shown.toList
  round : ∀ (w w' : TapWorld) readable next s' said, w.Writable → w'.Writable →
    (rxMachine created).exec s [.io w readable true, .poll w' next] = some (s', said) →
    s'.tap.rx.sRxLen = 0 ∧ ∀ f, s.shown = some f →
      .acknowledged f ∈ said ∧ .taken f.octets ∈ said ∧
        (f.ForKernel → w'.Accepting → ∃ count, .written f.packet count ∈ said)

theorem receive_never_wedges (hc : createGetap setup = some created)
    (h : (rxMachine created).Runs (fun _ a => a.Sized) s log) : Unwedged created s log := by
  obtain ⟨hkept, hsized⟩ := rx_runs hc h
  refine ⟨hkept.ledger, fun w w' readable next s2 said hw hw' he => ?_⟩
  obtain ⟨s1, more, hio, hrest, rfl⟩ := Machine.exec_cons_some he
  obtain ⟨s2', more, hpoll, hnil, rfl⟩ := Machine.exec_cons_some hrest
  cases hnil
  have hact := rx_act hpoll
  have hs1 : (s.runIoTap w readable true).1 = s1 := congrArg Prod.fst (Option.some.inj (rx_act hio))
  subst hs1
  have hfree := (Tap.runIoTap_settles (w := s.world w) hkept.held readable true).2 hw rfl
  refine ⟨(RxPath.runTimerTap_passed hact).free hw' hfree, fun f hf => ?_⟩
  obtain ⟨s3, more, hsaid⟩ := RxPath.runTimerTap_first hact hf hfree (hsized f hf)
  have htaken := RxPath.frameEvents_taken (w := w') s3 f
  rw [List.append_nil, hsaid]
  refine ⟨?_, ?_, fun hkernel haccepting => ?_⟩
  · simp
  · simp [htaken]
  · obtain ⟨count, hwritten⟩ := RxPath.frameEvents_written (s := s3) (hsized f hf) hkernel haccepting
    exact ⟨count, by simp [hwritten]⟩

/-- A frame that cannot be received is shown for ever. -/
theorem round_unsized {w : TapWorld} (hw : w.Writable) (hshown : s.shown = some f) (hsized : ¬ f.Sized)
    (hfree : s.tap.rx.sRxLen = 0) (hoff : s.tap.dhcp.sDhcpSmEnable = false) (next : Nat → Option RxFrame) :
    ∃ s', (rxMachine created).exec s [.io w false true, .poll w next] = some (s', []) ∧ s'.shown = some f ∧
      s'.tap.rx.sRxLen = 0 ∧ s'.tap.dhcp.sDhcpSmEnable = false := by
  obtain ⟨t, ht⟩ : ∃ t, s.tap.runIoTap (s.world w) false true = t := ⟨_, rfl⟩
  have htfree : t.rx.sRxLen = 0 := ht ▸ (Tap.runIoTap_settles (w := s.world w) (.inl hfree) false true).2 hw rfl
  have htoff : t.dhcp.sDhcpSmEnable = false := by
    rw [← ht, Tap.runIoTap_dhcp, hoff]
  have hio : s.act (.io w false true) = some ({ s with tap := t }, []) := by
    have hnothing : s.tap.kernelWrites w = [] := if_pos (hfree ▸ Nat.zero_le _)
    simp only [RxPath.act, RxPath.runIoTap, ht, Bool.false_eq_true, if_false, hnothing, ite_self]
  have hpoll : ∃ s2, RxPath.act { s with tap := t } (.poll w next) = some (s2, []) ∧ s2.shown = some f ∧
      s2.tap.dhcp.sDhcpSmEnable = false := by
    have hburst := @RxPath.receiveBurst_unsized w
      { s with tap := t.flushBuffers (RxPath.world w { s with tap := t }) } f next hshown hsized
      (t.flushBuffers (RxPath.world w { s with tap := t })).rx.sBurst 0
    simp only [RxPath.act, RxPath.runTimerTap, htoff, Bool.false_eq_true, if_false, Option.map_some, hburst]
    refine ⟨_, rfl, hshown, ?_⟩
    rw [Tap.spamQuiet_dhcp, Tap.receiveFrameFpga_dhcp, Tap.flushBuffers_dhcp, htoff]
  obtain ⟨s2, hpoll, hshown2, hoff2⟩ := hpoll
  refine ⟨s2, ?_, hshown2, (RxPath.runTimerTap_passed hpoll).free hw htfree, hoff2⟩
  simp only [Machine.exec, rxMachine, hio, hpoll, Option.map_some, Option.bind_some, Option.getD_some,
    List.append_nil]

theorem rounds_unsized {w : TapWorld} (hw : w.Writable) (hshown : s.shown = some f) (hsized : ¬ f.Sized)
    (hfree : s.tap.rx.sRxLen = 0) (hoff : s.tap.dhcp.sDhcpSmEnable = false) (next : Nat → Option RxFrame)
    (n : Nat) :
    ∃ s', (rxMachine created).exec s (List.replicate n [.io w false true, .poll w next]).flatten = some (s', []) ∧
      s'.shown = some f := by
  induction n generalizing s with
  | zero => exact ⟨s, rfl, hshown⟩
  | succ n ih =>
    obtain ⟨s1, hround, hshown1, hfree1, hoff1⟩ := @round_unsized created s f w hw hshown hsized hfree hoff next
    obtain ⟨s2, hrest, hshown2⟩ := ih hshown1 hfree1 hoff1
    refine ⟨s2, ?_, hshown2⟩
    rw [List.replicate_succ, List.flatten_cons, Machine.exec_append, hround, Option.bind_some]
    dsimp only
    rw [hrest]
    rfl

end

/-- The kernel takes whatever it is given. -/
def openWorld : TapWorld := { busyWorld with tapWrite := fun _ => .wrote getapMaxFrame }

/-- A frame of sixty four bytes with a tcp packet in it. -/
def packetFrame : RxFrame where
  words := 8
  content := put (put (fun _ => 0) 12 [0x08, 0x00]) 23 [0x06]
  shown := by decide

/-- A frame of eight bytes. -/
def runtFrame : RxFrame := ⟨1, fun _ => 0, by decide⟩

theorem packetFrame_forKernel : packetFrame.ForKernel := by
  refine ⟨rfl, rfl, fun b hb => ?_⟩
  have hprotocol : b 23 = 0x06 := (hb 23 (by decide)).trans rfl
  simp [isDhcpReply, hprotocol]

theorem packet_polled : ((createGetap sampleSetup).bind fun created => (rxMachine created).exec ⟨created, none⟩
    [.announce packetFrame, .io openWorld false true, .poll openWorld fun _ => none]).isSome = true := by
  decide +kernel

theorem receive_never_wedges_packet : ∃ created s said count, createGetap sampleSetup = some created ∧
    (rxMachine created).exec ⟨created, some packetFrame⟩
      [.io openWorld false true, .poll openWorld fun _ => none] = some (s, said) ∧
    .acknowledged packetFrame ∈ said ∧ .written packetFrame.packet count ∈ said ∧ s.tap.rx.sRxLen = 0 := by
  obtain ⟨⟨s, log⟩, hpolled⟩ := Option.isSome_iff_exists.mp packet_polled
  obtain ⟨created, hc, he⟩ := Option.bind_eq_some_iff.mp hpolled
  obtain ⟨s1, said, hstep, hround, _⟩ := Machine.exec_cons_some he
  cases hstep
  have hsized : (RxAction.announce packetFrame).Sized := by
    unfold RxAction.Sized RxFrame.Sized
    decide
  have hunwedged := receive_never_wedges hc (.step .start hsized rfl)
  have hopen : openWorld.Accepting := fun _ => ⟨_, rfl⟩
  obtain ⟨hfree, hdealt⟩ := hunwedged.round openWorld openWorld false _ _ _ hopen.writable hopen.writable hround
  obtain ⟨hacknowledged, _, hwritten⟩ := hdealt packetFrame rfl
  obtain ⟨count, hcount⟩ := hwritten packetFrame_forKernel hopen
  exact ⟨created, s, said, count, hc, hround, hacknowledged, hcount, hfree⟩

theorem runt_never_acknowledged : ∃ created s, createGetap sampleSetup = some created ∧
    (rxMachine created).step (rxMachine created).start (.announce runtFrame) = some s ∧
    ∀ n, ∃ s', (rxMachine created).exec s
      (List.replicate n [.io openWorld false true, .poll openWorld fun _ => none]).flatten = some (s', []) ∧
      s'.shown = some runtFrame := by
  have hfresh : ((createGetap sampleSetup).map fun created => created.dhcp.sDhcpSmEnable) = some false := by
    decide +kernel
  obtain ⟨created, hc, hoff⟩ := Option.map_eq_some_iff.mp hfresh
  have hopen : openWorld.Accepting := fun _ => ⟨_, rfl⟩
  have hsized : ¬ runtFrame.Sized := by
    unfold RxFrame.Sized
    decide
  exact ⟨created, ⟨created, some runtFrame⟩, hc, rfl, fun n =>
    rounds_unsized hopen.writable rfl hsized (createGetap_free hc) hoff _ n⟩

end Katcp
