import Katcp.TapPoll
import Mathlib.Logic.Relation

namespace Katcp

open BitMemory ByteBlock ItemLog

variable {tx tx' : TapTx} {sizes : BitVec 32} {id len : Nat} {maker : FrameMaker} {data b : Bytes} {frame : Octets}

/-- An image carries the frame of its maker, and only arp frames are replaced. -/
def frameFits : FrameMaker × Octets → FrameEnd → Prop
  | (maker, frame), .written maker' image _ => maker' = maker ∧ frame <+: image
  | _, .failed => True
  | (maker, _), .replaced _ => maker = .arp

theorem finalLength_ge (len : Nat) : len + 4 ≤ finalLength len := by
  unfold finalLength minFrame
  split <;> omega

theorem load_padded : ByteBlock.load (padded data len) 0 len = ByteBlock.load data 0 len := by
  unfold padded
  split
  · exact load_put_below (Nat.le_of_eq (Nat.zero_add len))
  · rfl

theorem load_sealed (final : Nat) (h : len + 4 ≤ final) : ByteBlock.load (sealed data final) 0 len = ByteBlock.load data 0 len :=
  load_put_below (by omega)

namespace TapTx

theorem frame_isPrefix_image : ByteBlock.load data 0 len <+:
    ByteBlock.load (sealed (padded data len) (finalLength len)) 0 (finalLength len) := by
  have hge := finalLength_ge len
  have hload := load_append (sealed (padded data len) (finalLength len)) 0 len (finalLength len - len)
  rw [Nat.add_sub_cancel' (by omega)] at hload
  rw [hload, load_sealed _ hge, load_padded]
  exact List.prefix_append _ _

/-- The results of the frame writer: an error changes nothing, a busy gateware leaves the frame as
it is, and otherwise an image of the frame is in the gateware. -/
theorem writeFrameFpga_cases (hlen : 0 < len) :
    writeFrameFpga sizes tx id maker data len = (.error, data, tx) ∨
      (∃ data', ByteBlock.load data' 0 len = ByteBlock.load data 0 len ∧ writeFrameFpga sizes tx id maker data len =
        (.busy, data', tx.note (.tried id (maker, ByteBlock.load data 0 len)))) ∨
      ∃ data' image value small big, ByteBlock.load data 0 len <+: image ∧ writeFrameFpga sizes tx id maker data len =
        (.done, data', { tx with
          sTxSmall := small, sTxBig := big, frames := tx.frames ++ [.ended id (.written maker image value)] }) := by
  unfold writeFrameFpga
  rw [if_neg (Nat.ne_of_gt hlen)]
  split
  · exact .inl rfl
  · split
    · exact .inr (.inl ⟨_, load_padded, rfl⟩)
    · exact .inr (.inr ⟨_, _, _, _, _, frame_isPrefix_image, rfl⟩)

end TapTx

/-- What the transmit half of an instance can do in one go. -/
inductive TxMove : TapTx → TapTx → Prop
  | arp (sizes : BitVec 32) {tx : TapTx} : 0 < tx.sArpLen → TxMove tx (tx.sendArp sizes)
  | user (sizes : BitVec 32) {tx : TapTx} : 0 < tx.sTxLen → TxMove tx (tx.transmitFrameFpga sizes)
  | newArp (sizes : BitVec 32) {tx : TapTx} {frame : Octets} : 0 < frame.length →
      TxMove tx (tx.sendNewArp sizes frame)
  | reply (sizes : BitVec 32) {tx : TapTx} (rxb : Bytes) {len : Nat} : 0 < len →
      TxMove tx (tx.sendReply sizes rxb len).2.2
  | newUser (sizes : BitVec 32) {tx : TapTx} (txb : Bytes) {len : Nat} : tx.sTxLen = 0 → 0 < len →
      TxMove tx (tx.sendUser sizes txb len)
  | dhcp (sizes : BitVec 32) {tx : TapTx} (frame : Bytes) {len : Nat} : 0 < len →
      TxMove tx (tx.sendDhcp sizes frame len).2
  | dropped {tx : TapTx} (txb : Bytes) (errors : Nat) : tx.sTxLen = 0 → tx.sTxError ≤ errors →
      TxMove tx { tx with sTxb := txb, sTxError := errors }
  | reload {tx : TapTx} : TxMove tx { tx with sTxArp := 0 }

/-- What it can do in a while. -/
abbrev TxMoves : TapTx → TapTx → Prop := Relation.ReflTransGen TxMove

/-- The frames of an instance: those that are open and have to be written wait in their buffers,
but for some that are being dealt with. -/
structure FramesKept (loose : List Nat) (tx : TapTx) : Prop where
  orderly : Orderly frameFits tx.frames tx.handed
  arp : 0 < tx.sArpLen → ItemLog.Open tx.frames tx.arpId (.arp, ByteBlock.load tx.sArpBuffer 0 tx.sArpLen)
  user : 0 < tx.sTxLen → ItemLog.Open tx.frames tx.userId (.user, ByteBlock.load tx.sTxb 0 tx.sTxLen)
  rest : ∀ id maker frame, ItemLog.Open tx.frames id (maker, frame) → maker ≠ .dhcp →
    id ∈ loose ∨ (0 < tx.sArpLen ∧ id = tx.arpId) ∨ (0 < tx.sTxLen ∧ id = tx.userId)
  later : ∀ id other, .ended id (.replaced other) ∈ tx.frames →
    id < other ∧ ∃ frame, .opened other (.arp, frame) ∈ tx.frames

/-- The arp buffer waits with the same frame, or with none. -/
def SameArp (tx tx' : TapTx) : Prop :=
  tx'.sArpLen = tx.sArpLen ∧ tx'.arpId = tx.arpId ∧
    ByteBlock.load tx'.sArpBuffer 0 tx.sArpLen = ByteBlock.load tx.sArpBuffer 0 tx.sArpLen

def SameUser (tx tx' : TapTx) : Prop :=
  tx'.sTxLen = tx.sTxLen ∧ tx'.userId = tx.userId ∧ ByteBlock.load tx'.sTxb 0 tx.sTxLen = ByteBlock.load tx.sTxb 0 tx.sTxLen

theorem SameArp.rfl : SameArp tx tx := ⟨Eq.refl _, Eq.refl _, Eq.refl _⟩

theorem SameUser.rfl : SameUser tx tx := ⟨Eq.refl _, Eq.refl _, Eq.refl _⟩

namespace FramesKept

variable {loose : List Nat} {how : FrameEnd}

theorem trying (h : FramesKept loose tx) (hopen : ItemLog.Open tx.frames id (maker, frame))
    (hf : tx'.frames = tx.frames ++ [.tried id (maker, frame)]) (hn : tx'.handed = tx.handed)
    (harp : SameArp tx tx') (huser : SameUser tx tx') : FramesKept loose tx' where
  orderly := by
    rw [hf, hn]
    exact h.orderly.tried hopen
  arp hlen := by
    obtain ⟨hl, hid, hload⟩ := harp
    rw [hl] at hlen
    rw [hf, hl, hid, hload]
    exact (h.arp hlen).tried
  user hlen := by
    obtain ⟨hl, hid, hload⟩ := huser
    rw [hl] at hlen
    rw [hf, hl, hid, hload]
    exact (h.user hlen).tried
  rest id' maker' frame' hopen' hmaker := by
    rw [hf] at hopen'
    rw [harp.1, harp.2.1, huser.1, huser.2.1]
    exact h.rest id' maker' frame' (hopen'.before (by simp)) hmaker
  later id' other hmem := by
    rw [hf] at hmem ⊢
    obtain ⟨hlt, frame', hframe⟩ := h.later id' other (by simpa using hmem)
    exact ⟨hlt, frame', List.mem_append_left _ hframe⟩

/-- An open frame comes to an end; the buffer it waits in is emptied. -/
theorem ending (h : FramesKept loose tx) (hopen : ItemLog.Open tx.frames id (maker, frame))
    (hfit : frameFits (maker, frame) how)
    (hlater : ∀ other, how = .replaced other → id < other ∧ ∃ frame, .opened other (.arp, frame) ∈ tx.frames)
    (hf : tx'.frames = tx.frames ++ [.ended id how])
    (hn : tx'.handed = tx.handed)
    (harp : (tx'.sArpLen = 0 ∧ (0 < tx.sArpLen → tx.arpId = id)) ∨
      (SameArp tx tx' ∧ (0 < tx.sArpLen → tx.arpId ≠ id)))
    (huser : (tx'.sTxLen = 0 ∧ (0 < tx.sTxLen → tx.userId = id)) ∨
      (SameUser tx tx' ∧ (0 < tx.sTxLen → tx.userId ≠ id))) : FramesKept (loose.erase id) tx' where
  orderly := by
    rw [hf, hn]
    exact h.orderly.ended hopen hfit
  arp hlen := by
    rcases harp with ⟨hl, _⟩ | ⟨⟨hl, hid, hload⟩, hne⟩
    · omega
    · rw [hl] at hlen
      rw [hf, hl, hid, hload]
      exact (h.arp hlen).ended (Ne.symm (hne hlen))
  user hlen := by
    rcases huser with ⟨hl, _⟩ | ⟨⟨hl, hid, hload⟩, hne⟩
    · omega
    · rw [hl] at hlen
      rw [hf, hl, hid, hload]
      exact (h.user hlen).ended (Ne.symm (hne hlen))
  rest id' maker' frame' hopen' hmaker := by
    rw [hf] at hopen'
    have hne := hopen'.ne_ended
    rcases h.rest id' maker' frame' (hopen'.before (by simp)) hmaker with hl | ⟨hl, hid⟩ | ⟨hl, hid⟩
    · exact .inl ((List.mem_erase_of_ne (Ne.symm hne)).mpr hl)
    · rcases harp with ⟨_, he⟩ | ⟨⟨hlen, hid', _⟩, _⟩
      · exact absurd ((he hl).symm.trans hid.symm) hne
      · rw [hlen, hid']
        exact .inr (.inl ⟨hl, hid⟩)
    · rcases huser with ⟨_, he⟩ | ⟨⟨hlen, hid', _⟩, _⟩
      · exact absurd ((he hl).symm.trans hid.symm) hne
      · rw [hlen, hid']
        exact .inr (.inr ⟨hl, hid⟩)
  later id' other hmem := by
    rw [hf] at hmem ⊢
    have hold : id' < other ∧ ∃ frame, .opened other (.arp, frame) ∈ tx.frames := by
      rcases List.mem_append.mp hmem with hmem | hmem
      · exact h.later id' other hmem
      · cases List.mem_singleton.mp hmem
        exact hlater other rfl
    obtain ⟨hlt, frame', hframe⟩ := hold
    exact ⟨hlt, frame', List.mem_append_left _ hframe⟩

/-- The frames in the two buffers are not the same. -/
theorem arp_ne_user (h : FramesKept loose tx) (harp : 0 < tx.sArpLen) (huser : 0 < tx.sTxLen) :
    tx.arpId ≠ tx.userId := by
  intro heq
  have hboth := (h.user huser).1
  rw [← heq] at hboth
  cases h.orderly.unique (h.arp harp).1 hboth

/-- A frame that has just been handed over waits nowhere yet. -/
theorem hand (h : FramesKept [] tx) (maker : FrameMaker) (frame : Octets) :
    FramesKept [tx.handed] (tx.hand maker frame) where
  orderly := h.orderly.opened _
  arp hlen := (h.arp hlen).opened
  user hlen := (h.user hlen).opened
  rest id maker' frame' hopen hmaker := by
    by_cases hid : id = tx.handed
    · exact .inl (List.mem_singleton.mpr hid)
    · have hbefore : ItemLog.Open tx.frames id (maker', frame') := by
        refine ItemLog.Open.before hopen fun hmem => ?_
        cases List.mem_singleton.mp hmem
        exact hid rfl
      rcases h.rest id maker' frame' hbefore hmaker with hl | hl
      · cases hl
      · exact .inr hl
  later id other hmem := by
    obtain ⟨hlt, frame', hframe⟩ := h.later id other (by simpa [TapTx.hand] using hmem)
    exact ⟨hlt, frame', List.mem_append_left _ hframe⟩

theorem hand_open (h : FramesKept [] tx) (maker : FrameMaker) (frame : Octets) :
    ItemLog.Open (tx.hand maker frame).frames tx.handed (maker, frame) := h.orderly.open_new _

/-- What waits in the buffers was handed over before. -/
theorem waiting_lt_handed (h : FramesKept [] tx) :
    (0 < tx.sArpLen → tx.arpId < tx.handed) ∧ (0 < tx.sTxLen → tx.userId < tx.handed) :=
  ⟨fun hlen => h.orderly.lt (h.arp hlen).1, fun hlen => h.orderly.lt (h.user hlen).1⟩

/-- A frame is put in the arp buffer, and what was there is lost. -/
theorem keepArp (h : FramesKept [id] tx) (hopen : ItemLog.Open tx.frames id (.arp, frame)) (hlen : 0 < frame.length)
    (harp : 0 < tx.sArpLen → tx.arpId < id) : FramesKept [] (tx.keepArp id frame) := by
  have hload : ByteBlock.load (put tx.sArpBuffer 0 frame) 0 frame.length = frame := load_put_self
  by_cases hbusy : 0 < tx.sArpLen
  · have hne := Nat.ne_of_lt (harp hbusy)
    have hended : FramesKept ([id].erase tx.arpId)
        { tx with sArpLen := 0, frames := tx.frames ++ [.ended tx.arpId (.replaced id)] } :=
      h.ending (h.arp hbusy) (show frameFits (.arp, _) (.replaced id) from rfl)
        (fun other ho => by
          cases ho
          exact ⟨harp hbusy, frame, hopen.1⟩)
        rfl rfl (.inl ⟨rfl, fun _ => rfl⟩) (.inr ⟨SameUser.rfl, fun hu => Ne.symm (h.arp_ne_user hbusy hu)⟩)
    have hopen' : ItemLog.Open (tx.frames ++ [.ended tx.arpId (.replaced id)]) id (.arp, frame) := hopen.ended hne
    unfold TapTx.keepArp
    rw [if_pos hbusy]
    exact {
      orderly := hended.orderly
      arp := fun _ => by
        dsimp only
        rw [hload]
        exact hopen'
      user := hended.user
      rest := fun id' maker' frame' ho hm => by
        rcases hended.rest id' maker' frame' ho hm with hl | hl | hl
        · have hid := List.mem_of_mem_erase hl
          exact .inr (.inl ⟨hlen, List.mem_singleton.mp hid⟩)
        · exact absurd hl.1 (Nat.lt_irrefl _)
        · exact .inr (.inr hl)
      later := hended.later }
  · unfold TapTx.keepArp
    rw [if_neg hbusy]
    exact {
      orderly := h.orderly
      arp := fun _ => by
        dsimp only
        rw [hload]
        exact hopen
      user := h.user
      rest := fun id' maker' frame' ho hm => by
        rcases h.rest id' maker' frame' ho hm with hl | hl | hl
        · exact .inr (.inl ⟨hlen, List.mem_singleton.mp hl⟩)
        · exact absurd hl.1 hbusy
        · exact .inr (.inr hl)
      later := h.later }

/-- A frame is put in the free transmit buffer. -/
theorem keepUser (h : FramesKept [id] tx) (hopen : ItemLog.Open tx.frames id (.user, ByteBlock.load b 0 len)) (hfree : tx.sTxLen = 0)
    (hlen : 0 < len) : FramesKept [] { tx with sTxb := b, sTxLen := len, userId := id } where
  orderly := h.orderly
  arp := h.arp
  user _ := hopen
  rest id' maker' frame' ho hm := by
    rcases h.rest id' maker' frame' ho hm with hl | hl | hl
    · exact .inr (.inr ⟨hlen, List.mem_singleton.mp hl⟩)
    · exact .inr (.inl hl)
    · omega
  later := h.later

theorem sendArp (h : FramesKept [] tx) (hlen : 0 < tx.sArpLen) : FramesKept [] (tx.sendArp sizes) := by
  have hopen := h.arp hlen
  have hne : 0 < tx.sTxLen → tx.userId ≠ tx.arpId := fun hu => Ne.symm (h.arp_ne_user hlen hu)
  unfold TapTx.sendArp
  rcases TapTx.writeFrameFpga_cases hlen with hw | ⟨data', hload, hw⟩ | ⟨data', image, value, small, big, hpre, hw⟩
  · rw [hw]
    exact h.ending hopen (show frameFits (.arp, _) .failed from trivial) nofun rfl rfl (.inl ⟨rfl, fun _ => rfl⟩)
      (.inr ⟨SameUser.rfl, hne⟩)
  · rw [hw]
    exact h.trying hopen rfl rfl ⟨rfl, rfl, hload⟩ SameUser.rfl
  · rw [hw]
    exact h.ending hopen (show frameFits (.arp, _) (.written .arp image value) from ⟨rfl, hpre⟩) nofun rfl rfl
      (.inl ⟨rfl, fun _ => rfl⟩) (.inr ⟨SameUser.rfl, hne⟩)

theorem transmitFrameFpga (h : FramesKept [] tx) (hlen : 0 < tx.sTxLen) :
    FramesKept [] (tx.transmitFrameFpga sizes) := by
  have hopen := h.user hlen
  have hne : 0 < tx.sArpLen → tx.arpId ≠ tx.userId := fun ha => h.arp_ne_user ha hlen
  unfold TapTx.transmitFrameFpga
  rcases TapTx.writeFrameFpga_cases hlen with hw | ⟨data', hload, hw⟩ | ⟨data', image, value, small, big, hpre, hw⟩
  · rw [hw]
    exact h.ending hopen (show frameFits (.user, _) .failed from trivial) nofun rfl rfl (.inr ⟨SameArp.rfl, hne⟩)
      (.inl ⟨rfl, fun _ => rfl⟩)
  · rw [hw]
    exact h.trying hopen rfl rfl SameArp.rfl ⟨rfl, rfl, hload⟩
  · rw [hw]
    exact h.ending hopen (show frameFits (.user, _) (.written .user image value) from ⟨rfl, hpre⟩) nofun rfl rfl
      (.inr ⟨SameArp.rfl, hne⟩) (.inl ⟨rfl, fun _ => rfl⟩)

theorem sendNewArp (h : FramesKept [] tx) (hlen : 0 < frame.length) : FramesKept [] (tx.sendNewArp sizes frame) :=
  ((h.hand .arp frame).keepArp (h.hand_open .arp frame) hlen h.waiting_lt_handed.1).sendArp hlen

theorem sendUser (h : FramesKept [] tx) (hfree : tx.sTxLen = 0) (hlen : 0 < len) :
    FramesKept [] (tx.sendUser sizes b len) :=
  ((h.hand .user (ByteBlock.load b 0 len)).keepUser (h.hand_open .user (ByteBlock.load b 0 len)) hfree hlen).transmitFrameFpga hlen

/-- A frame just handed over that comes to an end at once. -/
theorem settled (h : FramesKept [] tx) (hfit : frameFits (maker, frame) how) (hnew : ∀ other, how ≠ .replaced other)
    (hf : tx'.frames = (tx.hand maker frame).frames ++ [.ended tx.handed how]) (hn : tx'.handed = tx.handed + 1)
    (harp : SameArp tx tx') (huser : SameUser tx tx') : FramesKept [] tx' := by
  have hended := (h.hand maker frame).ending (h.hand_open maker frame) hfit
    (fun other ho => absurd ho (hnew other)) hf hn (.inr ⟨harp, fun hlen => Nat.ne_of_lt (h.waiting_lt_handed.1 hlen)⟩)
    (.inr ⟨huser, fun hlen => Nat.ne_of_lt (h.waiting_lt_handed.2 hlen)⟩)
  rwa [List.erase_cons_head] at hended

theorem sendReply (h : FramesKept [] tx) (hlen : 0 < len) : FramesKept [] (tx.sendReply sizes b len).2.2 := by
  unfold TapTx.sendReply
  dsimp only
  rcases TapTx.writeFrameFpga_cases hlen with hw | ⟨data', hload, hw⟩ | ⟨data', image, value, small, big, hpre, hw⟩
  · rw [hw]
    exact h.settled (show frameFits (.arp, _) .failed from trivial) nofun rfl rfl SameArp.rfl SameUser.rfl
  · rw [hw]
    have htried : FramesKept [tx.handed] ((tx.hand .arp (ByteBlock.load b 0 len)).note (.tried tx.handed (.arp, ByteBlock.load b 0 len))) :=
      (h.hand .arp (ByteBlock.load b 0 len)).trying (h.hand_open .arp (ByteBlock.load b 0 len)) rfl rfl SameArp.rfl SameUser.rfl
    refine htried.keepArp ?_ (by rw [length_load]; exact hlen) h.waiting_lt_handed.1
    rw [hload]
    exact (h.hand_open .arp (ByteBlock.load b 0 len)).tried
  · rw [hw]
    exact h.settled (show frameFits (.arp, _) (.written .arp image value) from ⟨rfl, hpre⟩) nofun rfl rfl SameArp.rfl
      SameUser.rfl

/-- A dhcp message that the gateware is too busy for is open for good: it waits nowhere. -/
theorem sendDhcp (h : FramesKept [] tx) (hlen : 0 < len) : FramesKept [] (tx.sendDhcp sizes b len).2 := by
  unfold TapTx.sendDhcp
  dsimp only
  rcases TapTx.writeFrameFpga_cases hlen with hw | ⟨data', hload, hw⟩ | ⟨data', image, value, small, big, hpre, hw⟩
  · rw [hw]
    exact h.settled (show frameFits (.dhcp, _) .failed from trivial) nofun rfl rfl SameArp.rfl SameUser.rfl
  · rw [hw]
    have htried : FramesKept [tx.handed] ((tx.hand .dhcp (ByteBlock.load b 0 len)).note (.tried tx.handed (.dhcp, ByteBlock.load b 0 len))) :=
      (h.hand .dhcp (ByteBlock.load b 0 len)).trying (h.hand_open .dhcp (ByteBlock.load b 0 len)) rfl rfl SameArp.rfl SameUser.rfl
    exact {
      orderly := htried.orderly
      arp := htried.arp
      user := htried.user
      rest := fun id' maker' frame' ho hm => by
        rcases htried.rest id' maker' frame' ho hm with hl | hl
        · cases List.mem_singleton.mp hl
          cases htried.orderly.unique ho.1 ((h.hand_open .dhcp (ByteBlock.load b 0 len)).tried).1
          exact absurd rfl hm
        · exact .inr hl
      later := htried.later }
  · rw [hw]
    exact h.settled (show frameFits (.dhcp, _) (.written .dhcp image value) from ⟨rfl, hpre⟩) nofun rfl rfl SameArp.rfl
      SameUser.rfl

/-- Nothing an instance does to its transmit half loses a frame that has to be written. -/
theorem move (h : FramesKept [] tx) (hmove : TxMove tx tx') : FramesKept [] tx' := by
  cases hmove with
  | arp sizes hlen => exact h.sendArp hlen
  | user sizes hlen => exact h.transmitFrameFpga hlen
  | newArp sizes hlen => exact h.sendNewArp hlen
  | reply sizes rxb hlen => exact h.sendReply hlen
  | newUser sizes txb hfree hlen => exact h.sendUser hfree hlen
  | dhcp sizes frame hlen => exact h.sendDhcp hlen
  | dropped txb errors hfree =>
    have huser : ¬ 0 < tx.sTxLen := by omega
    exact {
      orderly := h.orderly, arp := h.arp, user := fun hlen => absurd hlen huser, rest := h.rest, later := h.later }
  | reload =>
    exact { orderly := h.orderly, arp := h.arp, user := h.user, rest := h.rest, later := h.later }

theorem moves (h : FramesKept [] tx) (hmoves : TxMoves tx tx') : FramesKept [] tx' := by
  induction hmoves with
  | refl => exact h
  | tail _ hmove ih => exact ih.move hmove

end FramesKept

def writtenBy (maker : FrameMaker) : FrameEvent → Bool
  | .ended _ (.written m _ _) => m = maker
  | _ => false

def countedAsError : FrameEvent → Bool
  | .ended _ .failed => true
  | _ => false

/-- The counters of an instance: no frame is counted as sent that is not in the gateware. -/
structure FramesCounted (tx : TapTx) : Prop where
  user : tx.sTxUser = tx.frames.countP (writtenBy .user)
  dhcp : tx.sTxDhcp = tx.frames.countP (writtenBy .dhcp)
  arp : tx.sTxArp ≤ tx.frames.countP (writtenBy .arp)
  failed : tx.frames.countP countedAsError ≤ tx.sTxError

namespace FramesCounted

/-- New entries that are counted. -/
theorem counting (h : FramesCounted tx) {more : List FrameEvent} (hf : tx'.frames = tx.frames ++ more)
    (huser : tx'.sTxUser = tx.sTxUser + more.countP (writtenBy .user))
    (hdhcp : tx'.sTxDhcp = tx.sTxDhcp + more.countP (writtenBy .dhcp))
    (harp : tx'.sTxArp = tx.sTxArp + more.countP (writtenBy .arp))
    (hfailed : tx'.sTxError = tx.sTxError + more.countP countedAsError) : FramesCounted tx' where
  user := by rw [hf, List.countP_append, huser, h.user]
  dhcp := by rw [hf, List.countP_append, hdhcp, h.dhcp]
  arp := by
    rw [hf, List.countP_append, harp]
    exact Nat.add_le_add_right h.arp _
  failed := by
    rw [hf, List.countP_append, hfailed]
    exact Nat.add_le_add_right h.failed _

theorem hand (h : FramesCounted tx) : FramesCounted (tx.hand maker frame) := h.counting rfl rfl rfl rfl rfl

theorem keepArp (h : FramesCounted tx) : FramesCounted (tx.keepArp id frame) := by
  by_cases hlen : tx.sArpLen > 0
  · exact h.counting (if_pos hlen) rfl rfl rfl rfl
  · exact h.counting ((if_neg hlen).trans (List.append_nil _).symm) rfl rfl rfl rfl

theorem sendArp (h : FramesCounted tx) (hlen : 0 < tx.sArpLen) : FramesCounted (tx.sendArp sizes) := by
  unfold TapTx.sendArp
  rcases TapTx.writeFrameFpga_cases hlen with hw | ⟨data', hload, hw⟩ | ⟨data', image, value, small, big, hpre, hw⟩ <;>
    rw [hw] <;> exact h.counting rfl rfl rfl rfl rfl

theorem transmitFrameFpga (h : FramesCounted tx) (hlen : 0 < tx.sTxLen) :
    FramesCounted (tx.transmitFrameFpga sizes) := by
  unfold TapTx.transmitFrameFpga
  rcases TapTx.writeFrameFpga_cases hlen with hw | ⟨data', hload, hw⟩ | ⟨data', image, value, small, big, hpre, hw⟩ <;>
    rw [hw] <;> exact h.counting rfl rfl rfl rfl rfl

theorem move (h : FramesCounted tx) (hmove : TxMove tx tx') : FramesCounted tx' := by
  cases hmove with
  | arp sizes hlen => exact h.sendArp hlen
  | user sizes hlen => exact h.transmitFrameFpga hlen
  | newArp sizes hlen => exact h.hand.keepArp.sendArp hlen
  | @reply sizes _ rxb len hlen =>
    have hhand : FramesCounted (tx.hand .arp (ByteBlock.load rxb 0 len)) := h.hand
    unfold TapTx.sendReply
    dsimp only
    rcases TapTx.writeFrameFpga_cases hlen with hw | ⟨data', hload, hw⟩ | ⟨data', image, value, small, big, hpre, hw⟩
    · rw [hw]
      exact hhand.counting rfl rfl rfl rfl rfl
    · rw [hw]
      exact keepArp (hhand.counting rfl rfl rfl rfl rfl)
    · rw [hw]
      exact hhand.counting rfl rfl rfl rfl rfl
  | @newUser sizes _ txb len hfree hlen =>
    refine transmitFrameFpga ?_ hlen
    exact h.counting rfl rfl rfl rfl rfl
  | @dhcp sizes _ frame len hlen =>
    have hhand : FramesCounted (tx.hand .dhcp (ByteBlock.load frame 0 len)) := h.hand
    unfold TapTx.sendDhcp
    dsimp only
    rcases TapTx.writeFrameFpga_cases hlen with hw | ⟨data', hload, hw⟩ | ⟨data', image, value, small, big, hpre, hw⟩ <;>
      rw [hw] <;> exact hhand.counting rfl rfl rfl rfl rfl
  | dropped txb errors _ hle =>
    exact { user := h.user, dhcp := h.dhcp, arp := h.arp, failed := Nat.le_trans h.failed hle }
  | reload => exact { user := h.user, dhcp := h.dhcp, arp := Nat.zero_le _, failed := h.failed }

theorem moves (h : FramesCounted tx) (hmoves : TxMoves tx tx') : FramesCounted tx' := by
  induction hmoves with
  | refl => exact h
  | tail _ hmove ih => exact ih.move hmove

end FramesCounted

/-- A frame waits in its buffer, with its bytes. -/
def Waits (tx : TapTx) (id : Nat) (item : FrameMaker × Octets) : Prop :=
  (0 < tx.sArpLen ∧ id = tx.arpId ∧ item = (.arp, ByteBlock.load tx.sArpBuffer 0 tx.sArpLen)) ∨
    (0 < tx.sTxLen ∧ id = tx.userId ∧ item = (.user, ByteBlock.load tx.sTxb 0 tx.sTxLen))

/-- An entry about a frame that is left where it is, or comes to an end. -/
def Tries (id : Nat) (item : FrameMaker × Octets) (e : FrameEvent) : Prop :=
  e = .tried id item ∨ ∃ how, e = .ended id how

theorem FramesKept.waits (h : FramesKept [] tx) (hopen : ItemLog.Open tx.frames id (maker, frame)) (hmaker : maker ≠ .dhcp) :
    Waits tx id (maker, frame) := by
  rcases h.rest id maker frame hopen hmaker with hl | ⟨hlen, hid⟩ | ⟨hlen, hid⟩
  · cases hl
  · have harp := (h.arp hlen).1
    rw [← hid] at harp
    exact .inl ⟨hlen, hid, h.orderly.unique hopen.1 harp⟩
  · have huser := (h.user hlen).1
    rw [← hid] at huser
    exact .inr ⟨hlen, hid, h.orderly.unique hopen.1 huser⟩

namespace TapTx

theorem sendArp_tries (sizes : BitVec 32) (hlen : 0 < tx.sArpLen) : ∃ e, (tx.sendArp sizes).frames = tx.frames ++ [e] ∧
    Tries tx.arpId (.arp, ByteBlock.load tx.sArpBuffer 0 tx.sArpLen) e ∧ (tx.sendArp sizes).sTxLen = tx.sTxLen ∧
    (tx.sendArp sizes).userId = tx.userId ∧ (tx.sendArp sizes).sTxb = tx.sTxb := by
  unfold sendArp
  rcases writeFrameFpga_cases hlen with hw | ⟨data', hload, hw⟩ | ⟨data', image, value, small, big, hpre, hw⟩
  · rw [hw]
    exact ⟨_, rfl, .inr ⟨_, rfl⟩, rfl, rfl, rfl⟩
  · rw [hw]
    exact ⟨_, rfl, .inl rfl, rfl, rfl, rfl⟩
  · rw [hw]
    exact ⟨_, rfl, .inr ⟨_, rfl⟩, rfl, rfl, rfl⟩

theorem transmitFrameFpga_tries (sizes : BitVec 32) (hlen : 0 < tx.sTxLen) : ∃ e, (tx.transmitFrameFpga sizes).frames = tx.frames ++ [e] ∧
    Tries tx.userId (.user, ByteBlock.load tx.sTxb 0 tx.sTxLen) e := by
  unfold transmitFrameFpga
  rcases writeFrameFpga_cases hlen with hw | ⟨data', hload, hw⟩ | ⟨data', image, value, small, big, hpre, hw⟩
  · rw [hw]
    exact ⟨_, rfl, .inr ⟨_, rfl⟩⟩
  · rw [hw]
    exact ⟨_, rfl, .inl rfl⟩
  · rw [hw]
    exact ⟨_, rfl, .inr ⟨_, rfl⟩⟩

theorem sendArp_grows (hlen : 0 < tx.sArpLen) : tx.frames <+: (tx.sendArp sizes).frames := by
  obtain ⟨e, he, _⟩ := sendArp_tries sizes hlen
  rw [he]
  exact List.prefix_append _ _

theorem transmitFrameFpga_grows (hlen : 0 < tx.sTxLen) : tx.frames <+: (tx.transmitFrameFpga sizes).frames := by
  obtain ⟨e, he, _⟩ := transmitFrameFpga_tries sizes hlen
  rw [he]
  exact List.prefix_append _ _

theorem hand_grows : tx.frames <+: (tx.hand maker frame).frames := List.prefix_append _ _

theorem note_grows {e : FrameEvent} : tx.frames <+: (tx.note e).frames := List.prefix_append _ _

theorem keepArp_grows : tx.frames <+: (tx.keepArp id frame).frames := by
  unfold keepArp
  dsimp only
  split
  · exact List.prefix_append _ _
  · exact List.prefix_rfl

end TapTx

/-- The record of an instance only grows. -/
theorem TxMove.grows (h : TxMove tx tx') : tx.frames <+: tx'.frames := by
  cases h with
  | arp sizes hlen => exact TapTx.sendArp_grows hlen
  | user sizes hlen => exact TapTx.transmitFrameFpga_grows hlen
  | newArp sizes hlen =>
    exact TapTx.hand_grows.trans (TapTx.keepArp_grows.trans (TapTx.sendArp_grows hlen))
  | reply sizes rxb hlen =>
    unfold TapTx.sendReply
    dsimp only
    rcases TapTx.writeFrameFpga_cases hlen with hw | ⟨data', hload, hw⟩ | ⟨data', image, value, small, big, hpre, hw⟩
    · rw [hw]
      exact (List.prefix_append _ _).trans (List.prefix_append _ _)
    · rw [hw]
      exact TapTx.hand_grows.trans (TapTx.note_grows.trans TapTx.keepArp_grows)
    · rw [hw]
      exact (List.prefix_append _ _).trans (List.prefix_append _ _)
  | newUser sizes txb _ hlen =>
    unfold TapTx.sendUser
    refine List.IsPrefix.trans ?_ (TapTx.transmitFrameFpga_grows hlen)
    exact List.prefix_append _ _
  | dhcp sizes frame hlen =>
    unfold TapTx.sendDhcp
    dsimp only
    rcases TapTx.writeFrameFpga_cases hlen with hw | ⟨data', hload, hw⟩ | ⟨data', image, value, small, big, hpre, hw⟩ <;>
      rw [hw] <;> exact (List.prefix_append _ _).trans (List.prefix_append _ _)
  | dropped txb errors _ _ => exact List.prefix_rfl
  | reload => exact List.prefix_rfl

theorem TxMoves.grows (h : TxMoves tx tx') : tx.frames <+: tx'.frames := by
  induction h with
  | refl => exact List.prefix_rfl
  | tail _ hmove ih => exact ih.trans hmove.grows

end Katcp
