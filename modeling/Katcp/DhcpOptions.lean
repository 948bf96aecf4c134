import Katcp.DhcpMessage

namespace Katcp

open BitMemory ByteBlock

/-- The walk over the options of a message of so many octets, none where it leads out of the message. A char
that is signed is never 255. -/
def dhcpScanWithin (signed : Bool) (limit : Nat) (b : Bytes) :
    Nat → Nat → DhcpLease × BitVec 8 → Option (DhcpLease × BitVec 8)
  | 0, _, _ => none
  | fuel + 1, i, (l, mt) =>
    let next := i + (b (i + 1)).toNat + 2
    let far := i + 6 ≤ limit
    if limit ≤ i then none
    else if b i = 255 ∧ signed = false then some (l, mt)
    else if limit ≤ i + 1 then none
    else if b i = 53 then
      if i + 3 ≤ limit then dhcpScanWithin signed limit b fuel (i + 3) (l, b (i + 2)) else none
    else if b i = 1 then
      if far then dhcpScanWithin signed limit b fuel next ({ l with sDhcpSubmask := word b (i + 2) }, mt) else none
    else if b i = 3 then
      if far then dhcpScanWithin signed limit b fuel next ({ l with sDhcpRoute := word b (i + 2) }, mt) else none
    else if b i = 51 then
      if far then
        dhcpScanWithin signed limit b fuel next ({ l with sDhcpLeaseT := shiftedIn b (i + 2) l.sDhcpLeaseT }, mt)
      else none
    else if b i = 58 then
      if far then dhcpScanWithin signed limit b fuel next ({ l with sDhcpT1 := shiftedIn b (i + 2) l.sDhcpT1 }, mt)
      else none
    else if b i = 59 then
      if far then dhcpScanWithin signed limit b fuel next ({ l with sDhcpT2 := shiftedIn b (i + 2) l.sDhcpT2 }, mt)
      else none
    else if b i = 54 then
      if far then dhcpScanWithin signed limit b fuel next ({ l with sDhcpSrvAddr := word b (i + 2) }, mt) else none
    else dhcpScanWithin signed limit b fuel next (l, mt)

/-- What a message in a frame of so many octets leaves, where its transaction is the one under way; none where
more than the frame is read. -/
def processDhcpWithin (signed : Bool) (limit : Nat) (b : Bytes) (l : DhcpLease) (mt : BitVec 8) :
    Option (Option (DhcpLease × BitVec 8)) :=
  if limit < ipLength b + 50 then none
  else if messageXid b = l.sDhcpXid then
    if limit < ipLength b + 62 then none
    else (dhcpScanWithin signed limit b limit (ipLength b + 282)
      ({ l with sDhcpNextHopMac := ByteBlock.load b 6 6, sDhcpYipAddr := word b (ipLength b + 58) }, mt)).map some
  else some none

/-- The first four octets of a value. -/
def valueWord (value : Octets) : BitVec 32 := word (fun k => value.getD k 0) 0

/-- What an option says. -/
def storeOption (acc : DhcpLease × BitVec 8) (o : BitVec 8 × Octets) : DhcpLease × BitVec 8 :=
  if o.1 = 53 then (acc.1, o.2.getD 0 0)
  else if o.1 = 1 then ({ acc.1 with sDhcpSubmask := valueWord o.2 }, acc.2)
  else if o.1 = 3 then ({ acc.1 with sDhcpRoute := valueWord o.2 }, acc.2)
  else if o.1 = 51 then ({ acc.1 with sDhcpLeaseT := valueWord o.2 }, acc.2)
  else if o.1 = 58 then ({ acc.1 with sDhcpT1 := valueWord o.2 }, acc.2)
  else if o.1 = 59 then ({ acc.1 with sDhcpT2 := valueWord o.2 }, acc.2)
  else if o.1 = 54 then ({ acc.1 with sDhcpSrvAddr := valueWord o.2 }, acc.2)
  else acc

/-- The octets of a frame from its options on. -/
def optionOctets (n : Nat) (b : Bytes) : Octets := ByteBlock.load b (ipLength b + 282) (n - (ipLength b + 282))

/-- A message is taken: nothing but its frame is read, and what is stored, where it is, is what its options say,
which give its type. -/
def DhcpTaken (signed : Bool) (n : Nat) (b : Bytes) (l : DhcpLease) (mt : BitVec 8) : Prop :=
  ∃ r, processDhcpWithin signed n b l mt = some r ∧ ∀ taken, r = some taken →
    ∃ options, OptionList.read 0 0xff (optionOctets n b) = some options ∧ (∃ o ∈ options, o.1 = 53) ∧
      taken = options.foldl storeOption
        ({ l with sDhcpNextHopMac := ByteBlock.load b 6 6, sDhcpYipAddr := word b (ipLength b + 58) }, mt)

/-- An option has a value of the size that its code asks for: one octet for the type of a message, and four or more
for an address or a time. -/
def ProperOption (o : BitVec 8 × Octets) : Prop :=
  (o.1 = 53 → o.2.length = 1) ∧ (o.1 = 1 ∨ o.1 = 3 ∨ o.1 = 51 ∨ o.1 = 58 ∨ o.1 = 59 ∨ o.1 = 54 → 4 ≤ o.2.length)

/-- Octets that start with proper options, between pairs of pads, up to an end. -/
inductive DhcpLaid : Octets → List (BitVec 8 × Octets) → Prop
  | stop (rest : Octets) : DhcpLaid (0xff :: rest) []
  | pads {rest : Octets} {options : List (BitVec 8 × Octets)} (laid : DhcpLaid rest options) :
      DhcpLaid (0 :: 0 :: rest) options
  | option {c n : BitVec 8} {value rest : Octets} {options : List (BitVec 8 × Octets)} (pad : c ≠ 0) (stop : c ≠ 0xff)
      (size : value.length = n.toNat) (proper : ProperOption (c, value)) (laid : DhcpLaid rest options) :
      DhcpLaid (c :: n :: (value ++ rest)) ((c, value) :: options)

section

variable {signed : Bool} {limit fuel i k m n : Nat} {b : Bytes} {l : DhcpLease} {mt : BitVec 8}
  {acc : DhcpLease × BitVec 8} {octets xs ys : Octets} {options : List (BitVec 8 × Octets)} {c : BitVec 8}

/-- Within the buffer, and with chars that are not signed, it is the walk of the instance. -/
theorem dhcpScan_eq : dhcpScan b fuel i acc = dhcpScanWithin false getapMaxFrame b fuel i acc := by
  induction fuel generalizing i acc with
  | zero => rfl
  | succ fuel ih =>
    rw [dhcpScan, dhcpScanWithin]
    simp only [ih, and_true]

theorem toNat_append_octet {w : Nat} (x : BitVec w) (o : BitVec 8) : (x ++ o).toNat = 256 * x.toNat + o.toNat := by
  rw [BitVec.toNat_append, ← Nat.shiftLeft_add_eq_or_of_lt o.isLt, Nat.shiftLeft_eq, Nat.mul_comm]

theorem toNat_shiftedIn (x : BitVec 32) (o : BitVec 8) :
    ((x <<< 8) + o.setWidth 32).toNat = (256 * x.toNat + o.toNat) % 2 ^ 32 := by
  rw [BitVec.toNat_add, BitVec.toNat_shiftLeft, BitVec.toNat_setWidth, Nat.shiftLeft_eq]
  omega

/-- Four octets that are shifted in leave nothing of what was there. -/
theorem shiftedIn_eq (old : BitVec 32) : shiftedIn b i old = word b i := by
  have hfour : ByteBlock.load b i 4 = [b i, b (i + 1), b (i + 2), b (i + 3)] := rfl
  have h0 := (b i).isLt
  have h1 := (b (i + 1)).isLt
  have h2 := (b (i + 2)).isLt
  have h3 := (b (i + 3)).isLt
  unfold shiftedIn
  rw [hfour]
  simp only [List.foldl_cons, List.foldl_nil]
  refine BitVec.eq_of_toNat_eq ?_
  unfold word
  rw [toNat_shiftedIn, toNat_shiftedIn, toNat_shiftedIn, toNat_shiftedIn, toNat_append_octet, toNat_append_octet,
    toNat_append_octet]
  omega

theorem load_cons (h : ByteBlock.load b i m = c :: xs) : ∃ k, m = k + 1 ∧ b i = c ∧ ByteBlock.load b (i + 1) k = xs := by
  cases m with
  | zero => simp [ByteBlock.load] at h
  | succ k =>
    rw [Nat.add_comm, load_append] at h
    obtain ⟨hc, hxs⟩ := List.cons.inj h
    exact ⟨k, rfl, hc, hxs⟩

theorem load_split (h : ByteBlock.load b i m = xs ++ ys) :
    m = xs.length + ys.length ∧ ByteBlock.load b i xs.length = xs ∧ ByteBlock.load b (i + xs.length) ys.length = ys := by
  have hm : m = xs.length + ys.length := by
    rw [← List.length_append, ← h, length_load]
  rw [hm, load_append] at h
  obtain ⟨hxs, hys⟩ := List.append_inj h (by simp)
  exact ⟨hm, hxs, hys⟩

theorem valueWord_load (h : 4 ≤ n) : valueWord (ByteBlock.load b i n) = word b i := by
  have hat : ∀ k < 4, (ByteBlock.load b i n).getD k 0 = b (i + k) := by
    intro k hk
    rw [List.getD_eq_getElem?_getD, getElem?_load, if_pos (by omega), Option.getD_some]
  unfold valueWord word
  dsimp only
  rw [hat 0 (by decide), hat (0 + 1) (by decide), hat (0 + 2) (by decide), hat (0 + 3) (by decide)]
  rfl

/-- An option that is proper is taken as what it says, and the walk goes on behind it. -/
theorem dhcpScanWithin_option {value : Octets} (hc : b i = c) (hvalue : ByteBlock.load b (i + 2) value.length = value)
    (hsize : value.length = (b (i + 1)).toNat) (hend : c ≠ 0xff) (hproper : ProperOption (c, value))
    (hin : i + 2 + value.length ≤ limit) :
    dhcpScanWithin signed limit b (fuel + 1) i acc =
      dhcpScanWithin signed limit b fuel (i + 2 + value.length) (storeOption acc (c, value)) := by
  obtain ⟨l, mt⟩ := acc
  have hnext : i + (b (i + 1)).toNat + 2 = i + 2 + value.length := by omega
  rw [dhcpScanWithin, hnext, if_neg (by omega), hc, if_neg fun h => hend h.1, if_neg (by omega)]
  unfold storeOption
  dsimp only
  have hword : 4 ≤ value.length → valueWord value = word b (i + 2) := by
    intro h
    rw [← hvalue]
    exact valueWord_load h
  by_cases h53 : c = 53
  · have hone : value.length = 1 := hproper.1 h53
    rw [hone] at hvalue
    rw [if_pos h53, if_pos h53, if_pos (by omega), hone, ← hvalue]
    rfl
  rw [if_neg h53, if_neg h53]
  by_cases h1 : c = 1
  · have hfour := hproper.2 (.inl h1)
    rw [if_pos h1, if_pos h1, if_pos (by dsimp only at hfour; omega), hword hfour]
  rw [if_neg h1, if_neg h1]
  by_cases h3 : c = 3
  · have hfour := hproper.2 (.inr (.inl h3))
    rw [if_pos h3, if_pos h3, if_pos (by dsimp only at hfour; omega), hword hfour]
  rw [if_neg h3, if_neg h3]
  by_cases h51 : c = 51
  · have hfour := hproper.2 (.inr (.inr (.inl h51)))
    rw [if_pos h51, if_pos h51, if_pos (by dsimp only at hfour; omega), hword hfour, shiftedIn_eq]
  rw [if_neg h51, if_neg h51]
  by_cases h58 : c = 58
  · have hfour := hproper.2 (.inr (.inr (.inr (.inl h58))))
    rw [if_pos h58, if_pos h58, if_pos (by dsimp only at hfour; omega), hword hfour, shiftedIn_eq]
  rw [if_neg h58, if_neg h58]
  by_cases h59 : c = 59
  · have hfour := hproper.2 (.inr (.inr (.inr (.inr (.inl h59)))))
    rw [if_pos h59, if_pos h59, if_pos (by dsimp only at hfour; omega), hword hfour, shiftedIn_eq]
  rw [if_neg h59, if_neg h59]
  by_cases h54 : c = 54
  · have hfour := hproper.2 (.inr (.inr (.inr (.inr (.inr h54)))))
    rw [if_pos h54, if_pos h54, if_pos (by dsimp only at hfour; omega), hword hfour]
  rw [if_neg h54, if_neg h54]

/-- Two pads are taken for an option without a value. -/
theorem dhcpScanWithin_pads (hpad : b i = 0) (hsecond : b (i + 1) = 0) (hin : i + 2 ≤ limit) :
    dhcpScanWithin signed limit b (fuel + 1) i acc = dhcpScanWithin signed limit b fuel (i + 2) acc := by
  have hvalue : ByteBlock.load b (i + 2) ([] : Octets).length = [] := rfl
  have hsize : ([] : Octets).length = (b (i + 1)).toNat := by
    rw [hsecond]
    rfl
  exact dhcpScanWithin_option hpad hvalue hsize (by decide) ⟨by decide, by decide⟩ hin

/-- Over options that are laid out so, the walk of the source is the standard one. -/
theorem DhcpLaid.walked (h : DhcpLaid (ByteBlock.load b i m) options) (hfuel : m ≤ fuel) (hin : i + m ≤ limit) :
    dhcpScanWithin false limit b fuel i acc = some (options.foldl storeOption acc) ∧
      OptionList.walk 0 0xff fuel (ByteBlock.load b i m) = some options := by
  generalize hoctets : ByteBlock.load b i m = octets at h
  induction h generalizing i m fuel acc with
  | stop rest =>
    obtain ⟨k, rfl, hi, hrest⟩ := load_cons hoctets
    obtain ⟨fuel, rfl⟩ : ∃ f, fuel = f + 1 := ⟨fuel - 1, by omega⟩
    refine ⟨?_, OptionList.walk_stop⟩
    rw [dhcpScanWithin, if_neg (by omega), if_pos ⟨hi, rfl⟩]
    rfl
  | pads _ ih =>
    obtain ⟨k, rfl, hi, hmore⟩ := load_cons hoctets
    obtain ⟨j, rfl, hj, hrest⟩ := load_cons hmore
    obtain ⟨fuel, rfl⟩ : ∃ f, fuel = f + 2 := ⟨fuel - 2, by omega⟩
    obtain ⟨hscan, _⟩ := @ih (fuel + 1) (i + 2) j acc (by omega) (by omega) hrest
    obtain ⟨_, hwalk⟩ := @ih fuel (i + 2) j acc (by omega) (by omega) hrest
    rw [dhcpScanWithin_pads hi hj (by omega), OptionList.walk_pad (by decide), OptionList.walk_pad (by decide)]
    exact ⟨hscan, hwalk⟩
  | option hpad hstop hsize hproper _ ih =>
    obtain ⟨k, rfl, hi, hmore⟩ := load_cons hoctets
    obtain ⟨j, rfl, hj, htail⟩ := load_cons hmore
    obtain ⟨rfl, hvalue, hrest⟩ := load_split htail
    obtain ⟨fuel, rfl⟩ : ∃ f, fuel = f + 1 := ⟨fuel - 1, by omega⟩
    obtain ⟨hscan, hwalk⟩ := @ih fuel _ _ (storeOption acc _) (by omega) (by omega) hrest
    rw [dhcpScanWithin_option hi hvalue (by rw [hj]; exact hsize) hstop hproper (by omega),
      OptionList.walk_option hpad hstop hsize, hwalk]
    exact ⟨hscan, rfl⟩

/-- The walk ends in so many steps as there are octets, or it is outside of the frame. -/
theorem dhcpScanWithin_fuel (hfuel : limit ≤ i + fuel) :
    dhcpScanWithin signed limit b (fuel + 1) i acc = dhcpScanWithin signed limit b fuel i acc := by
  induction fuel generalizing i acc with
  | zero =>
    obtain ⟨l, mt⟩ := acc
    rw [dhcpScanWithin, dhcpScanWithin, if_pos (by omega)]
  | succ fuel ih =>
    obtain ⟨l, mt⟩ := acc
    conv_rhs => rw [dhcpScanWithin]
    rw [dhcpScanWithin]
    simp only [ih (show limit ≤ i + 3 + fuel by omega), ih (show limit ≤ i + (b (i + 1)).toNat + 2 + fuel by omega)]

/-- With chars that are signed no end is found. -/
theorem dhcpScanWithin_signed : dhcpScanWithin true limit b fuel i acc = none := by
  induction fuel generalizing i acc with
  | zero => rfl
  | succ fuel ih =>
    obtain ⟨l, mt⟩ := acc
    rw [dhcpScanWithin]
    simp [ih]

/-- What an instance takes is what is taken from its buffer, as long as no more than that is read. -/
theorem processDhcp_within {w : TapWorld} {t : Tap} (hreply : isDhcpReply t.dhcp.sDhcpRxBuffer = true) :
    t.processDhcp w = (processDhcpWithin false getapMaxFrame t.dhcp.sDhcpRxBuffer t.dhcp.lease
      (w.uninitialised t.clock)).map fun taken => match taken with
        | some (l, mt) => (some mt, { t.asked with dhcp := { t.dhcp with lease := l } })
        | none => (none, { t with rx := { t.rx with sRxDhcpInvalid := t.rx.sRxDhcpInvalid + 1 } }) := by
  have hlen : ipLength t.dhcp.sDhcpRxBuffer ≤ 40 := by
    unfold isDhcpReply at hreply
    simp only [Bool.decide_and, Bool.and_eq_true, decide_eq_true_eq] at hreply
    exact hreply.1
  have hmax : getapMaxFrame = 4096 := rfl
  have hheader : ¬ getapMaxFrame < ipLength t.dhcp.sDhcpRxBuffer + 50 := by omega
  have haddress : ¬ getapMaxFrame < ipLength t.dhcp.sDhcpRxBuffer + 62 := by omega
  unfold Tap.processDhcp processDhcpWithin
  dsimp only
  rw [if_neg hheader]
  split
  · rw [dhcpScan_eq, Option.map_map]
    rfl
  · rfl

/-- Whether a message is taken as it should be: where its transaction is an old one, if its header is in the frame;
where chars are signed, never; else where its options are proper ones, with pads in pairs, up to an end in the
frame, and its type is among them. -/
theorem dhcp_options_taken : (messageXid b ≠ l.sDhcpXid → (DhcpTaken signed n b l mt ↔ ipLength b + 50 ≤ n)) ∧
    (messageXid b = l.sDhcpXid → signed = true → ¬ DhcpTaken signed n b l mt) ∧
    (messageXid b = l.sDhcpXid → signed = false →
      (∃ options, DhcpLaid (optionOctets n b) options ∧ ∃ o ∈ options, o.1 = 53) → DhcpTaken signed n b l mt) := by
  refine ⟨fun hxid => ⟨?_, fun hle => ?_⟩, fun hxid hsigned => ?_, fun hxid hsigned => ?_⟩
  · rintro ⟨r, hr, _⟩
    unfold processDhcpWithin at hr
    split at hr
    next => simp at hr
    next hle => exact Nat.not_lt.mp hle
  · refine ⟨none, ?_, fun taken htaken => by simp at htaken⟩
    unfold processDhcpWithin
    rw [if_neg (Nat.not_lt.mpr hle), if_neg hxid]
  · rintro ⟨r, hr, _⟩
    unfold processDhcpWithin at hr
    rw [if_pos hxid, hsigned, dhcpScanWithin_signed] at hr
    simp at hr
  · rintro ⟨options, hlaid, htype⟩
    have hpos : ipLength b + 282 < n := by
      by_contra hshort
      have hnone : optionOctets n b = [] := by
        unfold optionOctets
        rw [Nat.sub_eq_zero_of_le (Nat.not_lt.mp hshort)]
        rfl
      rw [hnone] at hlaid
      cases hlaid
    unfold optionOctets at hlaid
    obtain ⟨hscan, _⟩ := @DhcpLaid.walked n n _ _ b
      ({ l with sDhcpNextHopMac := ByteBlock.load b 6 6, sDhcpYipAddr := word b (ipLength b + 58) }, mt) _ hlaid
      (by omega) (by omega)
    obtain ⟨_, hread⟩ := @DhcpLaid.walked n (n - (ipLength b + 282)) _ _ b (l, mt) _ hlaid (Nat.le_refl _) (by omega)
    have htaken : processDhcpWithin signed n b l mt = some (some (options.foldl storeOption
        ({ l with sDhcpNextHopMac := ByteBlock.load b 6 6, sDhcpYipAddr := word b (ipLength b + 58) }, mt))) := by
      unfold processDhcpWithin
      rw [if_neg (by omega), if_pos hxid, if_neg (by omega), hsigned, hscan, Option.map_some]
    refine ⟨_, htaken, fun taken h => ⟨options, ?_, htype, (Option.some.inj h).symm⟩⟩
    unfold OptionList.read optionOctets
    rw [length_load]
    exact hread

/-- A reply with given options. -/
def sampleReply (options : Octets) : Bytes :=
  putAll (fun _ => 0) [(12, [0x08]), (14, [0x45]), (23, [0x11]), (37, [0x44]), (42, [0x02]),
    (278, [0x63, 0x82, 0x53, 0x63] ++ options)]

theorem acknowledgement_laid : DhcpLaid [53, 1, 5, 0xff] [(53, [5])] :=
  @DhcpLaid.option 53 1 [5] [0xff] [] (by decide) (by decide) rfl ⟨by decide, by decide⟩ (.stop [])

theorem dhcp_options_taken_acknowledgement :
    DhcpTaken false 286 (sampleReply [53, 1, 5, 0xff]) (freshTap sampleSetup).dhcp.lease 0 := by
  have hoctets : optionOctets 286 (sampleReply [53, 1, 5, 0xff]) = [53, 1, 5, 0xff] := by decide +kernel
  refine dhcp_options_taken.2.2 (by decide +kernel) rfl ⟨[(53, [5])], ?_, _, List.mem_singleton_self _, rfl⟩
  rw [hoctets]
  exact acknowledgement_laid

/-- A pad before the type of a message is taken for an option as long as that is: the walk leaves the frame. -/
theorem pad_not_skipped : isDhcpReply (sampleReply [0, 53, 1, 5, 0xff]) = true ∧
    OptionList.read 0 0xff (optionOctets 287 (sampleReply [0, 53, 1, 5, 0xff])) = some [(53, [5])] ∧
    ¬ DhcpTaken false 287 (sampleReply [0, 53, 1, 5, 0xff]) (freshTap sampleSetup).dhcp.lease 0 := by
  refine ⟨by decide +kernel, by decide +kernel, ?_⟩
  rintro ⟨r, hr, _⟩
  have hnone : processDhcpWithin false 287 (sampleReply [0, 53, 1, 5, 0xff]) (freshTap sampleSetup).dhcp.lease 0 = none := by
    decide +kernel
  rw [hnone] at hr
  simp at hr

end

end Katcp
