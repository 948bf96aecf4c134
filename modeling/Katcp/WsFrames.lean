import Katcp.DuplexData

namespace Katcp

def wsfMask : Byte := 0x80
def wsfPayload : Byte := 0x7f
def wsfPayload16 : Byte := 0x7e
def wsfPayload64 : Byte := 0x7f

/-- The loop that takes the mask off, or puts it on. -/
def maskBytes (msk data : List Byte) : List Byte :=
  data.mapIdx fun i b => b ^^^ msk[i % 4]?.getD 0

/-- A masked frame of a client. The first byte has the fin bit and the opcode. -/
structure WsFrame where
  first : Byte
  key : List Byte
  payload : List Byte
  keyed : key.length = 4
  fits : payload.length < 2 ^ 63

def bigEndian : Nat → Nat → List Byte
  | 0, _ => []
  | k + 1, n => bigEndian k (n / 256) ++ [UInt8.ofNat (n % 256)]

def lengthCode (n : Nat) : Nat := if n ≤ 125 then n else if n < 65536 then 126 else 127

def lengthBytes (n : Nat) : List Byte :=
  if n ≤ 125 then [] else if n < 65536 then bigEndian 2 n else bigEndian 8 n

namespace WsFrame

variable (f : WsFrame)

/-- The frame on the wire. -/
def bytes : List Byte :=
  f.first :: (wsfMask ||| UInt8.ofNat (lengthCode f.payload.length)) ::
    (lengthBytes f.payload.length ++ (f.key ++ maskBytes f.key f.payload))

def unmasked : List Byte × List Byte := (f.key, f.payload)

end WsFrame

/-- The frames that are complete in the first `m` bytes of the stream. -/
def completeFrames : List WsFrame → Nat → List WsFrame
  | [], _ => []
  | f :: fs, m => if f.bytes.length ≤ m then f :: completeFrames fs (m - f.bytes.length) else []

/-- `ws_client`: what is buffered, the keys and bytes of what has been unmasked, what has been
printed for it, and what was read from the buffer and given up. -/
structure WsClient where
  cRb : List Byte
  decoded : List (List Byte × List Byte)
  printed : List (Option Text)
  lost : List Byte

/-- A read from the socket, and what stands in the local variables of the parser before. -/
structure WsRead where
  buf : List Byte
  junk : Nat → Byte

/-- `readdata_client_ws`, with what is in `dest` before. A short read is not an error. -/
def readdataClientWs (rb dest : List Byte) : Option (List Byte × List Byte) :=
  if rb = [] then none
  else some (rb.take dest.length ++ dest.drop rb.length, rb.drop dest.length)

def beforeEol : List Byte → List Byte
  | [] => []
  | [c] => [c]
  | c :: d :: rest => if c = byte '\r' ∧ d = byte '\n' then [] else c :: beforeEol (d :: rest)

/-- What is printed of `readline_client_ws`. The buffer is gone where it is empty, unless a
`realloc` to no bytes gives a block. -/
def readlineClientWs (zeroBlock : Bool) (data : List Byte) : Option Text :=
  if data = [] ∧ zeroBlock = false then none else some (cString (beforeEol data))

namespace WsClient

variable (c : WsClient)

/-- `populate_client_data_ws` -/
def populate (buf : List Byte) : WsClient := { c with cRb := c.cRb ++ buf }

/-- The parser returns -1, with so much left in the buffer. -/
def giveUp (rb : List Byte) : WsClient :=
  { c with cRb := rb, lost := c.lost ++ c.cRb.take (c.cRb.length - rb.length) }

/-- `readline_client_ws` and `dropdata_client_ws` on the unmasked buffer. -/
def finish (zeroBlock : Bool) (msk data : List Byte) : WsClient :=
  { c with
    cRb := []
    decoded := c.decoded ++ [(msk, data)]
    printed := c.printed ++ [readlineClientWs zeroBlock data] }

end WsClient

/-- The extended length, whose value is not used any more. -/
def readPayloadLength (payload : Byte) (rb : List Byte) : Option (List Byte × List Byte) :=
  if payload = wsfPayload16 then readdataClientWs rb [payload, 0]
  else if payload = wsfPayload64 then readdataClientWs rb (payload :: List.replicate 7 0)
  else some ([], rb)

/-- `parse_websocket_proto_ws` -/
def parseWebsocketProtoWs (zeroBlock : Bool) (junk : Nat → Byte) (c : WsClient) : Int × WsClient :=
  match readdataClientWs c.cRb [junk 0, junk 1] with
  | none => (-1, c.giveUp c.cRb)
  | some (hdr, rb) =>
    match readPayloadLength (hdr[1]?.getD 0 &&& wsfPayload) rb with
    | none => (-1, c.giveUp rb)
    | some (_, rb) =>
      match readdataClientWs rb [junk 2, junk 3, junk 4, junk 5] with
      | none => (-1, c.giveUp rb)
      | some (msk, rb) => (0, c.finish zeroBlock msk (maskBytes msk rb))

/-- `get_client_data_ws` on an upgraded client. -/
def getClientDataWs (zeroBlock : Bool) (c : WsClient) (r : WsRead) : WsClient :=
  (parseWebsocketProtoWs zeroBlock r.junk (c.populate r.buf)).2

def runReads (zeroBlock : Bool) (c : WsClient) (reads : List WsRead) : WsClient :=
  reads.foldl (getClientDataWs zeroBlock) c

def streamOf (reads : List WsRead) : List Byte := (reads.map WsRead.buf).flatten

theorem length_maskBytes (msk data : List Byte) : (maskBytes msk data).length = data.length :=
  List.length_mapIdx

theorem maskBytes_twice (msk data : List Byte) : maskBytes msk (maskBytes msk data) = data := by
  apply List.ext_getElem?
  intro i
  simp only [maskBytes, List.getElem?_mapIdx, Option.map_map]
  cases data[i]? with
  | none => rfl
  | some b => simp [UInt8.xor_assoc]

theorem length_bigEndian (k n : Nat) : (bigEndian k n).length = k := by
  induction k generalizing n with
  | zero => rfl
  | succ k ih => rw [bigEndian, List.length_append, ih, List.length_singleton]

theorem readdata_append {a dest : List Byte} (rest : List Byte) (hlen : a.length = dest.length)
    (hne : a ≠ []) : readdataClientWs (a ++ rest) dest = some (a, rest) := by
  have hrb : a ++ rest ≠ [] := List.append_ne_nil_of_left_ne_nil hne rest
  rw [readdataClientWs, if_neg hrb, ← hlen, List.take_left, List.drop_left,
    List.drop_of_length_le (by rw [List.length_append]; omega), List.append_nil]

/-- The parser reads the length code of a frame as it was written. -/
theorem payload_code {n : Nat} (h : n < 128) :
    (wsfMask ||| UInt8.ofNat n) &&& wsfPayload = UInt8.ofNat n := by
  have : ∀ n < 128, (wsfMask ||| UInt8.ofNat n) &&& wsfPayload = UInt8.ofNat n := by decide
  exact this n h

theorem lengthCode_lt (n : Nat) : lengthCode n < 128 := by
  unfold lengthCode
  split_ifs <;> omega

theorem readPayloadLength_code (n : Nat) (rest : List Byte) :
    ∃ ext, readPayloadLength (UInt8.ofNat (lengthCode n)) (lengthBytes n ++ rest) = some (ext, rest) := by
  unfold readPayloadLength lengthCode lengthBytes
  by_cases hs : n ≤ 125
  · have hcode : ∀ n ≤ 125, UInt8.ofNat n ≠ wsfPayload16 ∧ UInt8.ofNat n ≠ wsfPayload64 := by decide
    rw [if_pos hs, if_pos hs, if_neg (hcode n hs).1, if_neg (hcode n hs).2]
    exact ⟨[], rfl⟩
  · rw [if_neg hs, if_neg hs]
    by_cases hm : n < 65536
    · rw [if_pos hm, if_pos hm, if_pos (by decide)]
      exact ⟨_, readdata_append rest (length_bigEndian 2 n)
        (List.ne_nil_of_length_eq_add_one (length_bigEndian 2 n))⟩
    · rw [if_neg hm, if_neg hm, if_neg (by decide), if_pos (by decide)]
      exact ⟨_, readdata_append rest (length_bigEndian 8 n)
        (List.ne_nil_of_length_eq_add_one (length_bigEndian 8 n))⟩

section

variable {zeroBlock : Bool} {junk : Nat → Byte} {c : WsClient} {f : WsFrame} {x : List Byte}

/-- What stands behind a frame in the buffer is unmasked with it. -/
theorem parse_frame (h : c.cRb = f.bytes ++ x) :
    parseWebsocketProtoWs zeroBlock junk c =
      (0, c.finish zeroBlock f.key (maskBytes f.key (maskBytes f.key f.payload ++ x))) := by
  obtain ⟨ext, hext⟩ := readPayloadLength_code f.payload.length
    (f.key ++ (maskBytes f.key f.payload ++ x))
  have hhdr : readdataClientWs c.cRb [junk 0, junk 1] =
      some ([f.first, wsfMask ||| UInt8.ofNat (lengthCode f.payload.length)],
        lengthBytes f.payload.length ++ (f.key ++ (maskBytes f.key f.payload ++ x))) := by
    have hbytes : f.bytes ++ x =
        [f.first, wsfMask ||| UInt8.ofNat (lengthCode f.payload.length)] ++
          (lengthBytes f.payload.length ++ (f.key ++ (maskBytes f.key f.payload ++ x))) := by
      simp [WsFrame.bytes]
    rw [h, hbytes]
    exact readdata_append _ rfl (List.cons_ne_nil _ _)
  have hmsk := @readdata_append f.key [junk 2, junk 3, junk 4, junk 5] (maskBytes f.key f.payload ++ x)
    f.keyed (List.ne_nil_of_length_eq_add_one f.keyed)
  have hcode : [f.first, wsfMask ||| UInt8.ofNat (lengthCode f.payload.length)][1]?.getD 0 &&& wsfPayload =
      UInt8.ofNat (lengthCode f.payload.length) := payload_code (lengthCode_lt _)
  rw [parseWebsocketProtoWs, hhdr]
  dsimp only
  rw [hcode, hext]
  dsimp only
  rw [hmsk]

theorem giveUp_nil (c : WsClient) : c.giveUp [] = { c with cRb := [], lost := c.lost ++ c.cRb } := by
  rw [WsClient.giveUp, List.length_nil, Nat.sub_zero, List.take_length]

theorem readdata_none {rb dest : List Byte} (h : readdataClientWs rb dest = none) : rb = [] := by
  unfold readdataClientWs at h
  split at h
  next hrb => exact hrb
  next => cases h

theorem readPayloadLength_none {payload : Byte} {rb : List Byte}
    (h : readPayloadLength payload rb = none) : rb = [] := by
  unfold readPayloadLength at h
  split at h
  · exact readdata_none h
  · split at h
    · exact readdata_none h
    · cases h

/-- The parser uses up all that is there, for a frame or for nothing. -/
theorem parse_empties (zeroBlock : Bool) (junk : Nat → Byte) (c : WsClient) :
    parseWebsocketProtoWs zeroBlock junk c = (-1, { c with cRb := [], lost := c.lost ++ c.cRb }) ∨
      ∃ msk data, parseWebsocketProtoWs zeroBlock junk c = (0, c.finish zeroBlock msk data) := by
  unfold parseWebsocketProtoWs
  split
  next h =>
    left
    rw [readdata_none h, giveUp_nil, readdata_none h]
  next hdr rb _ =>
    split
    next h =>
      left
      rw [readPayloadLength_none h, giveUp_nil]
    next _ rb' _ =>
      split
      next h =>
        left
        rw [readdata_none h, giveUp_nil]
      next => exact .inr ⟨_, _, rfl⟩

theorem getClientData_empties (c : WsClient) (r : WsRead) : (getClientDataWs zeroBlock c r).cRb = [] := by
  unfold getClientDataWs
  rcases parse_empties zeroBlock r.junk (c.populate r.buf) with h | ⟨msk, data, h⟩
  · rw [h]
  · rw [h]
    rfl

/-- Every line that is printed is the one of what has been unmasked. -/
theorem runReads_printed (reads : List WsRead)
    (h : c.printed = c.decoded.map fun e => readlineClientWs zeroBlock e.2) :
    (runReads zeroBlock c reads).printed =
      (runReads zeroBlock c reads).decoded.map fun e => readlineClientWs zeroBlock e.2 := by
  induction reads generalizing c with
  | nil => exact h
  | cons r reads ih =>
    apply ih
    unfold getClientDataWs
    rcases parse_empties zeroBlock r.junk (c.populate r.buf) with hp | ⟨msk, data, hp⟩
    · rw [hp]
      exact h
    · rw [hp]
      dsimp only [WsClient.finish, WsClient.populate]
      rw [h, List.map_append]
      rfl

end

/-- What has been unmasked is the payloads of the frames that are complete, each with the key of
its frame, and no byte has been given up. -/
def FramesInStep (zeroBlock : Bool) (c : WsClient) (fs : List WsFrame) (seen : List WsRead) : Prop :=
  (runReads zeroBlock c seen).decoded =
      c.decoded ++ (completeFrames fs (streamOf seen).length).map WsFrame.unmasked ∧
    (runReads zeroBlock c seen).lost = []

section

variable {zeroBlock : Bool} {c : WsClient} {f : WsFrame} {fs : List WsFrame} {r : WsRead}
variable {reads : List WsRead}

theorem bytes_ne_nil (f : WsFrame) : f.bytes ≠ [] := List.cons_ne_nil _ _

theorem completeFrames_zero (fs : List WsFrame) : completeFrames fs 0 = [] := by
  cases fs with
  | nil => rfl
  | cons f fs => exact if_neg (by have := List.length_pos_iff.mpr (bytes_ne_nil f); omega)

theorem completeFrames_cons (f : WsFrame) (fs : List WsFrame) (m : Nat) :
    completeFrames (f :: fs) (f.bytes.length + m) = f :: completeFrames fs m := by
  rw [completeFrames, if_pos (by omega), Nat.add_sub_cancel_left]

theorem streamOf_cons : streamOf (r :: reads) = r.buf ++ streamOf reads := by
  rw [streamOf, List.map_cons, List.flatten_cons]
  rfl

/-- A read of a frame alone. -/
theorem getClientData_frame (hc : c.cRb = []) (hr : r.buf = f.bytes) :
    (getClientDataWs zeroBlock c r).decoded = c.decoded ++ [f.unmasked] ∧
      (getClientDataWs zeroBlock c r).lost = c.lost := by
  have hrb : (c.populate r.buf).cRb = f.bytes ++ [] := by
    rw [WsClient.populate, hc, hr, List.append_nil, List.nil_append]
  unfold getClientDataWs
  rw [parse_frame hrb, List.append_nil, maskBytes_twice]
  exact ⟨rfl, rfl⟩

/-- A read that leaves the client in step is a frame alone. -/
theorem frame_of_framesInStep (hc : c.cRb = []) (hne : r.buf ≠ [])
    (hstream : streamOf (r :: reads) = (fs.map WsFrame.bytes).flatten)
    (h : FramesInStep zeroBlock c fs [r]) : ∃ g gs, fs = g :: gs ∧ r.buf = g.bytes := by
  obtain ⟨hdecoded, hlost⟩ := h
  have hlen : (streamOf [r]).length = r.buf.length := by simp [streamOf]
  have hrb : (c.populate r.buf).cRb = r.buf := by rw [WsClient.populate, hc, List.nil_append]
  rw [hlen] at hdecoded
  rw [runReads, List.foldl_cons, List.foldl_nil, getClientDataWs] at hdecoded hlost
  rcases parse_empties zeroBlock r.junk (c.populate r.buf) with hp | ⟨msk, data, hp⟩
  · rw [hp, hrb] at hlost
    exact absurd (List.append_eq_nil_iff.mp hlost).2 hne
  · rw [hp] at hdecoded
    have hone : [(msk, data)] = (completeFrames fs r.buf.length).map WsFrame.unmasked :=
      List.append_cancel_left hdecoded
    cases fs with
    | nil => cases hone
    | cons g gs =>
      rw [completeFrames] at hone
      split at hone
      next hle =>
        rw [streamOf_cons, List.map_cons, List.flatten_cons] at hstream
        obtain ⟨x, hx⟩ : ∃ x, r.buf = g.bytes ++ x := by
          rcases List.append_eq_append_iff.mp hstream with ⟨x, hx, -⟩ | ⟨x, hx, -⟩
          · have hlen := congrArg List.length hx
            rw [List.length_append] at hlen
            have hnil : x = [] := List.eq_nil_of_length_eq_zero (by omega)
            exact ⟨[], by rw [hx, hnil, List.append_nil, List.append_nil]⟩
          · exact ⟨x, hx⟩
        have hframe := hp.symm.trans (parse_frame (hrb.trans hx))
        have hfinish := congrArg (fun e : Int × WsClient => e.2.decoded) hframe
        have hlast : [(msk, data)] = [(g.key, maskBytes g.key (maskBytes g.key g.payload ++ x))] :=
          List.append_cancel_left hfinish
        have hhead := congrArg (fun l => l.head?.map fun e : List Byte × List Byte => e.2.length)
          (hlast.symm.trans hone)
        have hlengths : (maskBytes g.key (maskBytes g.key g.payload ++ x)).length = g.payload.length :=
          Option.some.inj hhead
        rw [length_maskBytes, List.length_append, length_maskBytes] at hlengths
        have hnil : x = [] := List.eq_nil_of_length_eq_zero (by omega)
        exact ⟨g, gs, rfl, by rw [hx, hnil, List.append_nil]⟩
      next => cases hone

theorem framesInStep_cons (hc : c.cRb = []) (hr : r.buf = f.bytes) :
    FramesInStep zeroBlock c (f :: fs) (r :: reads) ↔
      FramesInStep zeroBlock (getClientDataWs zeroBlock c r) fs reads := by
  obtain ⟨hdecoded, -⟩ := @getClientData_frame zeroBlock c f r hc hr
  unfold FramesInStep
  rw [streamOf_cons, List.length_append, hr, completeFrames_cons, hdecoded, List.map_cons,
    List.append_assoc]
  rfl

theorem reads_of_framesInStep (hc : c.cRb = []) (hlost : c.lost = []) (hne : ∀ r ∈ reads, r.buf ≠ [])
    (hstream : streamOf reads = (fs.map WsFrame.bytes).flatten) :
    (∀ k, FramesInStep zeroBlock c fs (reads.take k)) ↔ reads.map WsRead.buf = fs.map WsFrame.bytes := by
  induction reads generalizing c fs with
  | nil =>
    have hfs : fs = [] := by
      cases fs with
      | nil => rfl
      | cons g gs =>
        rw [List.map_cons, List.flatten_cons] at hstream
        exact absurd (List.append_eq_nil_iff.mp hstream.symm).1 (bytes_ne_nil g)
    rw [hfs]
    refine iff_of_true (fun k => ?_) rfl
    rw [List.take_nil]
    exact ⟨(List.append_nil _).symm, hlost⟩
  | cons r reads ih =>
    have hnext : ∀ {g gs}, fs = g :: gs → r.buf = g.bytes →
        ((∀ k, FramesInStep zeroBlock (getClientDataWs zeroBlock c r) gs (reads.take k)) ↔
          reads.map WsRead.buf = gs.map WsFrame.bytes) := by
      intro g gs hfs hr
      refine ih (getClientData_empties c r) ((getClientData_frame hc hr).2.trans hlost)
        (fun q hq => hne q (List.mem_cons_of_mem _ hq)) ?_
      rw [hfs, streamOf_cons, List.map_cons, List.flatten_cons, hr] at hstream
      exact List.append_cancel_left hstream
    constructor
    · intro h
      obtain ⟨g, gs, hfs, hr⟩ := frame_of_framesInStep hc (hne r List.mem_cons_self) hstream (h 1)
      have hrest := (hnext hfs hr).mp fun k => by
        have hk := h (k + 1)
        rw [hfs, List.take_succ_cons] at hk
        exact (framesInStep_cons hc hr).mp hk
      rw [hfs, List.map_cons, List.map_cons, hr, hrest]
    · intro h k
      cases fs with
      | nil => cases h
      | cons g gs =>
        rw [List.map_cons, List.map_cons] at h
        obtain ⟨hr, hrest⟩ := List.cons.inj h
        cases k with
        | zero =>
          rw [List.take_zero]
          refine ⟨?_, hlost⟩
          rw [streamOf, List.map_nil, List.flatten_nil, List.length_nil, completeFrames_zero,
            List.map_nil, List.append_nil]
          rfl
        | succ k =>
          rw [List.take_succ_cons]
          exact (framesInStep_cons hc hr).mpr ((hnext rfl hr).mpr hrest k)

end

/-- A client after its upgrade. -/
def freshWsClient : WsClient := ⟨[], [], [], []⟩

/-- After every read the client is in step with the frames exactly where each read of the stream
brings one whole frame. -/
theorem frames_decoded_iff (zeroBlock : Bool) (fs : List WsFrame) (reads : List WsRead)
    (hne : ∀ r ∈ reads, r.buf ≠ []) (hstream : streamOf reads = (fs.map WsFrame.bytes).flatten) :
    (∀ k, FramesInStep zeroBlock freshWsClient fs (reads.take k)) ↔
      reads.map WsRead.buf = fs.map WsFrame.bytes :=
  reads_of_framesInStep rfl rfl hne hstream

/-- Two frames of one letter each. -/
def twoFrames : List WsFrame :=
  [⟨0x81, [1, 2, 3, 4], [byte 'a'], rfl, by decide⟩, ⟨0x81, [5, 6, 7, 8], [byte 'b'], rfl, by decide⟩]

theorem frames_decoded_two :
    (∀ k, FramesInStep false freshWsClient twoFrames
        ((twoFrames.map fun f => (⟨f.bytes, fun _ => 0⟩ : WsRead)).take k)) ↔
      (twoFrames.map fun f => (⟨f.bytes, fun _ => 0⟩ : WsRead)).map WsRead.buf =
        twoFrames.map WsFrame.bytes :=
  frames_decoded_iff false twoFrames _ (by decide) (by decide)

/-- The two frames in one read. -/
def bothFrames : WsRead := ⟨(twoFrames.map WsFrame.bytes).flatten, fun _ => 0⟩

/-- The bytes of the second frame are unmasked with the first key and gone. -/
theorem frames_run_together :
    streamOf [bothFrames] = (twoFrames.map WsFrame.bytes).flatten ∧
      (runReads false freshWsClient [bothFrames]).cRb = [] ∧
      (runReads false freshWsClient [bothFrames]).decoded =
        [(twoFrames[0].key, byte 'a' :: maskBytes [2, 3, 4, 1] twoFrames[1].bytes)] ∧
      ¬ FramesInStep false freshWsClient twoFrames [bothFrames] := by
  refine ⟨by decide, by decide, by decide, fun h => ?_⟩
  exact absurd h.1 (by decide)

end Katcp
