import Katcp.OnesComplement
import Katcp.OptionList
import Katcp.TapFrameRuns

namespace Katcp

open BitMemory ByteBlock

/-- Runs of octets that are copied to their places one after another. -/
def putAll (b : Bytes) (fields : List (Nat × Octets)) : Bytes := fields.foldl (fun b f => put b f.1 f.2) b

/-- A number of two octets. -/
def octetWord (b : Bytes) (i : Nat) : Nat := 256 * (b i).toNat + (b (i + 1)).toNat

def headerPlaces : List Nat := (List.range 10).map fun k => 14 + 2 * k

def headerWords (b : Bytes) : List Nat := headerPlaces.map (octetWord b)

/-- What is copied into the buffer of a message, up to its options. -/
def dhcpFixed (mac : Octets) (l : DhcpLease) (now : BitVec 64) (flags : DhcpFlags) : List (Nat × Octets) :=
  let sec := now - l.sDhcpSecStart
  [(0, if flags.unicast then l.sDhcpNextHopMac else broadcastConst), (6, mac), (12, [0x08])] ++ (14, [0x45]) ::
    ([(22, [0x40, 0x11])] ++
      (if flags.unicast ∧ firstOctet l.sDhcpSrvAddr ≠ 0 ∧ firstOctet l.sDhcpYipAddr ≠ 0 then
        [(30, wordBytes l.sDhcpSrvAddr), (26, wordBytes l.sDhcpYipAddr)] else [(30, [0xff, 0xff, 0xff, 0xff])]) ++
      [(35, [0x44]), (37, [0x43]), (42, [0x01, 0x01, 0x06]), (46, wordBytes l.sDhcpXid),
        (50, [sec.extractLsb' 8 8, sec.extractLsb' 0 8])] ++
      (if flags.bootpCipaddr then [(54, wordBytes l.sDhcpYipAddr)] else []) ++ [(70, mac)])

/-- The same up to its checksum. -/
def dhcpFields (mac : Octets) (l : DhcpLease) (now : BitVec 64) (mtype : DhcpMsgType) (flags : DhcpFlags) :
    List (Nat × Octets) :=
  let options := dhcpOptions mac l mtype flags
  dhcpFixed mac l now flags ++ [(278, options), (38, octetPair (8 + 236 + options.length)),
    (16, octetPair (8 + 236 + options.length + 20))]

/-- All that is copied into the buffer of a message. -/
def dhcpWrites (mac : Octets) (l : DhcpLease) (now : BitVec 64) (mtype : DhcpMsgType) (flags : DhcpFlags) :
    List (Nat × Octets) :=
  let fields := dhcpFields mac l now mtype flags
  fields ++ [(24, octetPair (dhcpChecksum (putAll (fun _ => 0) fields) 14 33).toNat)]

/-- The options that a message of a type is to carry. -/
def requestedOptions (mac : Octets) (l : DhcpLease) (mtype : DhcpMsgType) (flags : DhcpFlags) :
    List (BitVec 8 × Octets) :=
  [(53, [mtype.code]), (61, 1 :: mac)] ++ (if flags.dhcpReqip then [(50, wordBytes l.sDhcpYipAddr)] else []) ++
    (if flags.dhcpSvrid then [(54, wordBytes l.sDhcpSrvAddr)] else []) ++
    (if flags.dhcpReqparam then [(55, [1, 3, 6, 12, 15])] else []) ++
    (if flags.dhcpVendid then [(60, vendorId)] else [])

/-- A message that ends before a place and carries so many options. -/
structure WellBuilt (frame : Bytes) (requested : List (BitVec 8 × Octets)) (stop : Nat) : Prop where
  fits : stop ≤ getapDhcpBufferSize - 8
  udpLength : octetWord frame 38 = stop - 34
  ipLength : octetWord frame 16 = stop - 14
  checksum : OnesComplement.sum (2 ^ 16) (headerWords frame) = 2 ^ 16 - 1
  cookie : ByteBlock.load frame 278 4 = [0x63, 0x82, 0x53, 0x63]
  options : ByteBlock.load frame 282 (stop - 282) = OptionList.write requested ++ [0xff]
  found : OptionList.read 0 0xff (ByteBlock.load frame 282 (stop - 282)) = some requested

section

variable {mac : Octets} {l : DhcpLease} {now : BitVec 64} {mtype : DhcpMsgType} {flags : DhcpFlags} {b : Bytes}
  {fields more : List (Nat × Octets)} {f : Nat × Octets} {i k n start : Nat} {x : BitVec 16}

theorem dhcpBuffer_writes : dhcpBuffer mac l now mtype flags = putAll (fun _ => 0) (dhcpWrites mac l now mtype flags) := by
  unfold dhcpBuffer dhcpWrites putAll dhcpFields dhcpFixed
  dsimp only
  rw [List.foldl_append]
  split <;> split <;> split <;> rfl

theorem putAll_append : putAll b (fields ++ more) = putAll (putAll b fields) more := List.foldl_append

/-- What lies outside of all runs that are copied is not changed. -/
theorem putAll_outside (h : ∀ f ∈ fields, k < f.1 ∨ f.1 + f.2.length ≤ k) : putAll b fields k = b k := by
  induction fields generalizing b with
  | nil => rfl
  | cons f fields ih =>
    rw [List.forall_mem_cons] at h
    exact (ih h.2).trans (h.1.elim put_below put_above)

theorem load_putAll_outside (h : ∀ f ∈ fields, start + n ≤ f.1 ∨ f.1 + f.2.length ≤ start) :
    ByteBlock.load (putAll b fields) start n = ByteBlock.load b start n := by
  apply List.ext_getElem?
  intro i
  rw [getElem?_load, getElem?_load]
  split
  next hi =>
    rw [putAll_outside fun f hf => ?_]
    have := h f hf
    omega
  next => rfl

/-- A run that no later one touches is there. -/
theorem load_putAll (h : ∀ g ∈ more, f.1 + f.2.length ≤ g.1 ∨ g.1 + g.2.length ≤ f.1) :
    ByteBlock.load (putAll b (fields ++ f :: more)) f.1 f.2.length = f.2 := by
  rw [putAll_append]
  exact (load_putAll_outside h).trans load_put_self

theorem octetWord_of_load (h : ByteBlock.load b i 2 = octetPair n) (hn : n < 2 ^ 16) : octetWord b i = n := by
  unfold ByteBlock.load octetPair at h
  obtain ⟨hhigh, hlow⟩ : b i = BitVec.ofNat 8 (n / 256) ∧ b (i + 1) = BitVec.ofNat 8 n := by
    simpa [List.range_succ] using h
  unfold octetWord
  rw [hhigh, hlow, BitVec.toNat_ofNat, BitVec.toNat_ofNat]
  omega

theorem octetWord_lt : octetWord b i < 2 ^ 16 := by
  have hhigh := (b i).isLt
  have hlow := (b (i + 1)).isLt
  unfold octetWord
  omega

/-- One step of the checksum: the complement of a word comes in with the carry. -/
theorem checksum_step {c : BitVec 32} (hc : c.toNat < 2 ^ 16) :
    (((0xffff : BitVec 32) &&& (c + (~~~x).setWidth 32)) + (c + (~~~x).setWidth 32) >>> 16).toNat =
      OnesComplement.add (2 ^ 16) c.toNat (OnesComplement.complement (2 ^ 16) x.toNat) := by
  have hx := x.isLt
  have hnot : ((~~~x).setWidth 32).toNat = 2 ^ 16 - 1 - x.toNat := by
    rw [BitVec.toNat_setWidth, BitVec.toNat_not]
    omega
  have hsum : (c + (~~~x).setWidth 32).toNat = c.toNat + (2 ^ 16 - 1 - x.toNat) := by
    rw [BitVec.toNat_add, hnot]
    omega
  have hmask : ((0xffff : BitVec 32) &&& (c + (~~~x).setWidth 32)).toNat = (c.toNat + (2 ^ 16 - 1 - x.toNat)) % 2 ^ 16 := by
    rw [BitVec.toNat_and, hsum, Nat.and_comm]
    exact Nat.and_two_pow_sub_one_eq_mod _ 16
  unfold OnesComplement.add OnesComplement.complement
  rw [BitVec.toNat_add, hmask, BitVec.toNat_ushiftRight, hsum, Nat.shiftRight_eq_div_pow]
  omega

theorem checksum_word : ((b i).setWidth 16 <<< 8 + (b (i + 1)).setWidth 16 : BitVec 16).toNat = octetWord b i := by
  have hhigh := (b i).isLt
  have hlow := (b (i + 1)).isLt
  unfold octetWord
  rw [BitVec.toNat_add, BitVec.toNat_shiftLeft, BitVec.toNat_setWidth, BitVec.toNat_setWidth, Nat.shiftLeft_eq]
  omega

/-- The checksum of a header is the sum of the complements of its words. -/
theorem dhcpChecksum_header : (dhcpChecksum b 14 33).toNat =
    OnesComplement.sum (2 ^ 16) ((headerWords b).map (OnesComplement.complement (2 ^ 16))) := by
  have hfold : ∀ (places : List Nat) (c : BitVec 32), (∀ i ∈ places, i ≠ 19) → c.toNat < 2 ^ 16 →
      (places.foldl (fun (chksm : BitVec 32) i =>
        let high : BitVec 16 := (b i).setWidth 16 <<< 8
        let tmp := if i = 19 then high else high + (b (i + 1)).setWidth 16
        let chksm := chksm + (~~~tmp).setWidth 32
        (0xffff &&& chksm) + (chksm >>> 16)) c).toNat =
      ((places.map (octetWord b)).map (OnesComplement.complement (2 ^ 16))).foldl (OnesComplement.add (2 ^ 16)) c.toNat := by
    intro places
    induction places with
    | nil => exact fun c _ _ => rfl
    | cons i places ih =>
      intro c hplaces hc
      rw [List.forall_mem_cons] at hplaces
      have hlt : OnesComplement.complement (2 ^ 16) (octetWord b i) < 2 ^ 16 := by
        unfold OnesComplement.complement
        omega
      have hstep := @checksum_step ((b i).setWidth 16 <<< 8 + (b (i + 1)).setWidth 16) c hc
      rw [checksum_word] at hstep
      rw [List.foldl_cons, List.map_cons, List.map_cons, List.foldl_cons, ← hstep]
      dsimp only
      rw [if_neg hplaces.1]
      have hnext := OnesComplement.add_lt hc hlt
      rw [← hstep] at hnext
      exact ih _ hplaces.2 hnext
  have hplaces : ∀ i ∈ headerPlaces, i ≠ 19 := by decide
  have hheader := hfold headerPlaces 0 hplaces (by decide)
  have hlt : ((headerWords b).map (OnesComplement.complement (2 ^ 16))).foldl (OnesComplement.add (2 ^ 16)) 0 < 2 ^ 16 := by
    refine OnesComplement.foldl_lt (by decide) fun y hy => ?_
    obtain ⟨x, _, rfl⟩ := List.mem_map.mp hy
    unfold OnesComplement.complement
    omega
  unfold dhcpChecksum
  rw [if_neg (by decide)]
  dsimp only
  rw [BitVec.toNat_setWidth]
  refine (congrArg (· % 2 ^ 16) hheader).trans (Nat.mod_eq_of_lt hlt)

/-- A header with its checksum sums up to all ones. -/
theorem header_sum (hfirst : b 14 ≠ 0) (hhigh : b 24 = 0) (hlow : b 25 = 0) :
    OnesComplement.sum (2 ^ 16)
      (headerWords (put b 24 (octetPair (dhcpChecksum b 14 33).toNat))) = 2 ^ 16 - 1 := by
  have hwords : ∀ b, headerWords b = [octetWord b 14, octetWord b 16, octetWord b 18, octetWord b 20, octetWord b 22,
      octetWord b 24, octetWord b 26, octetWord b 28, octetWord b 30, octetWord b 32] := fun _ => rfl
  have hkept : ∀ k, k + 2 ≤ 24 ∨ 26 ≤ k →
      octetWord (put b 24 (octetPair (dhcpChecksum b 14 33).toNat)) k = octetWord b k := by
    intro k hk
    have hat : ∀ i, i < 24 ∨ 26 ≤ i → put b 24 (octetPair (dhcpChecksum b 14 33).toNat) i = b i := fun i hi =>
      hi.elim put_below fun h => put_above (show 24 + 2 ≤ i from h)
    unfold octetWord
    rw [hat k (by omega), hat (k + 1) (by omega)]
  have hset : octetWord (put b 24 (octetPair (dhcpChecksum b 14 33).toNat)) 24 = (dhcpChecksum b 14 33).toNat :=
    octetWord_of_load load_put_self (dhcpChecksum b 14 33).isLt
  have hzero : octetWord b 24 = 0 := by
    unfold octetWord
    rw [hhigh, hlow]
    rfl
  have hpos : 0 < octetWord b 14 := by
    have hne : (b 14).toNat ≠ 0 := fun h => hfirst (BitVec.eq_of_toNat_eq h)
    unfold octetWord
    omega
  have hlt : ∀ b, ∀ x ∈ headerWords b, x < 2 ^ 16 := by
    intro b x hx
    obtain ⟨i, _, rfl⟩ := List.mem_map.mp hx
    exact octetWord_lt
  have hdvd := OnesComplement.dvd_sum_add (by decide) (hlt b)
  rw [← dhcpChecksum_header, hwords] at hdvd
  refine OnesComplement.sum_eq_ones (by decide) (hlt _) ?_ ?_
  · rw [hwords, hkept 14 (by omega), List.sum_cons]
    omega
  · rw [hwords, hkept 14 (by omega), hkept 16 (by omega), hkept 18 (by omega), hkept 20 (by omega), hkept 22 (by omega),
      hset, hkept 26 (by omega), hkept 28 (by omega), hkept 30 (by omega), hkept 32 (by omega)]
    simp only [List.sum_cons, List.sum_nil, hzero] at hdvd ⊢
    rw [show ∀ a b c d e n f g h i : Nat, a + (b + (c + (d + (e + (n + (f + (g + (h + (i + 0))))))))) =
      a + (b + (c + (d + (e + (0 + (f + (g + (h + (i + 0))))))))) + n by intros; omega]
    exact hdvd

theorem dhcpOptions_eq (hmac : mac.length = 6) : dhcpOptions mac l mtype flags =
    [0x63, 0x82, 0x53, 0x63] ++ (OptionList.write (requestedOptions mac l mtype flags) ++ [0xff]) := by
  have hid : ∀ rest, OptionList.write ((61, 1 :: mac) :: rest) = [61, 7, 1] ++ mac ++ OptionList.write rest := by
    intro rest
    rw [OptionList.write_cons, List.length_cons, hmac]
    rfl
  unfold dhcpOptions requestedOptions
  simp only [List.cons_append, List.nil_append, List.append_assoc, OptionList.write_cons, OptionList.write_append, hid]
  split <;> split <;> split <;> split <;> rfl

theorem requestedOptions_plain (hmac : mac.length = 6) :
    ∀ o ∈ requestedOptions mac l mtype flags, OptionList.Plain 0 0xff o := by
  have hite : ∀ (p : Prop) [Decidable p] (o : BitVec 8 × Octets), OptionList.Plain 0 0xff o →
      ∀ o' ∈ (if p then [o] else []), OptionList.Plain 0 0xff o' := by
    intro p _ o ho o' ho'
    split at ho'
    · exact List.mem_singleton.mp ho' ▸ ho
    · exact absurd ho' List.not_mem_nil
  have hsmall : ∀ c v, c ≠ 0 → c ≠ 0xff → v.length < 256 → OptionList.Plain 0 0xff (c, v) := fun c v h0 h1 h2 =>
    ⟨h0, h1, h2⟩
  have hid : OptionList.Plain 0 0xff (61, 1 :: mac) := hsmall _ _ (by decide) (by decide) (by simp [hmac])
  unfold requestedOptions
  simp only [List.forall_mem_append, List.forall_mem_cons]
  exact ⟨⟨⟨⟨⟨hsmall _ _ (by decide) (by decide) (by simp), hid, fun _ h => absurd h List.not_mem_nil⟩,
    hite _ _ (hsmall _ _ (by decide) (by decide) (by simp [length_wordBytes]))⟩,
    hite _ _ (hsmall _ _ (by decide) (by decide) (by simp [length_wordBytes]))⟩,
    hite _ _ (hsmall _ _ (by decide) (by decide) (by simp))⟩,
    hite _ _ (hsmall _ _ (by decide) (by decide) (by decide))⟩

theorem dhcpOptions_length (hmac : mac.length = 6) :
    17 ≤ (dhcpOptions mac l mtype flags).length ∧ (dhcpOptions mac l mtype flags).length ≤ 52 := by
  have hvendor : vendorId.length = 14 := rfl
  have hite : ∀ (p : Prop) [Decidable p] (o : Octets), (if p then o else []).length ≤ o.length := by
    intro p _ o
    split
    · exact Nat.le_refl _
    · exact Nat.zero_le _
  have hip := hite (flags.dhcpReqip = true) ([50, 4] ++ wordBytes l.sDhcpYipAddr)
  have hserver := hite (flags.dhcpSvrid = true) ([54, 4] ++ wordBytes l.sDhcpSrvAddr)
  have hparam := hite (flags.dhcpReqparam = true) [55, 5, 1, 3, 6, 12, 15]
  have hid := hite (flags.dhcpVendid = true) ([60, 14] ++ vendorId)
  unfold dhcpOptions
  simp only [List.length_append, List.length_cons, List.length_nil, length_wordBytes, hvendor, hmac] at *
  omega

/-- The fixed part of a message leaves its checksum and its options alone. -/
theorem dhcpFixed_places (hmac : mac.length = 6) (hhop : l.sDhcpNextHopMac.length = 6) :
    ∀ f ∈ dhcpFixed mac l now flags, f.1 + f.2.length ≤ 76 ∧ (f.1 + f.2.length ≤ 24 ∨ 26 ≤ f.1) := by
  have hdst : (if flags.unicast then l.sDhcpNextHopMac else broadcastConst).length = 6 := by
    split
    · exact hhop
    · rfl
  unfold dhcpFixed
  simp only [List.forall_mem_append, List.forall_mem_cons (a := (14, _))]
  refine ⟨?_, by simp, ⟨⟨⟨?_, ?_⟩, ?_⟩, ?_⟩, ?_⟩
  · simp [hmac, hdst]
  · simp
  · split <;> simp [length_wordBytes]
  · simp [length_wordBytes]
  · split <;> simp [length_wordBytes]
  · simp [hmac]

/-- The first octet of the header is not written again. -/
theorem dhcpFixed_version : ∃ early later, dhcpFixed mac l now flags = early ++ (14, [0x45]) :: later ∧
    ∀ f ∈ later, 15 ≤ f.1 := by
  unfold dhcpFixed
  refine ⟨_, _, rfl, ?_⟩
  simp only [List.forall_mem_append]
  exact ⟨⟨⟨⟨by simp, by split <;> simp⟩, by simp⟩, by split <;> simp⟩, by simp⟩

theorem dhcpWrites_built (hmac : mac.length = 6) (hhop : l.sDhcpNextHopMac.length = 6) :
    WellBuilt (putAll (fun _ => 0) (dhcpWrites mac l now mtype flags)) (requestedOptions mac l mtype flags)
      (278 + (dhcpOptions mac l mtype flags).length) := by
  obtain ⟨hmin, hmax⟩ := @dhcpOptions_length _ l mtype flags hmac
  have hfixed := @dhcpFixed_places _ l now flags hmac hhop
  have hoptions := @dhcpOptions_eq _ l mtype flags hmac
  have hplain := @requestedOptions_plain _ l mtype flags hmac
  have hwrites : dhcpWrites mac l now mtype flags = dhcpFixed mac l now flags ++
      [(278, dhcpOptions mac l mtype flags), (38, octetPair (8 + 236 + (dhcpOptions mac l mtype flags).length)),
        (16, octetPair (8 + 236 + (dhcpOptions mac l mtype flags).length + 20)),
        (24, octetPair (dhcpChecksum (putAll (fun _ => 0) (dhcpFields mac l now mtype flags)) 14 33).toNat)] := by
    unfold dhcpWrites dhcpFields
    simp only [List.append_assoc, List.cons_append, List.nil_append]
  have hload : ByteBlock.load (putAll (fun _ => 0) (dhcpWrites mac l now mtype flags)) 278
      (dhcpOptions mac l mtype flags).length = dhcpOptions mac l mtype flags := by
    rw [hwrites]
    refine @load_putAll _ _ _ (278, dhcpOptions mac l mtype flags) ?_
    simp [octetPair]
  obtain ⟨m, hm⟩ : ∃ m, (dhcpOptions mac l mtype flags).length = 4 + m :=
    ⟨(dhcpOptions mac l mtype flags).length - 4, by omega⟩
  have hwhole := hload
  rw [hm, load_append, hoptions] at hwhole
  obtain ⟨hcookie, hrest⟩ := List.append_inj hwhole (by simp)
  have hstop : 278 + (dhcpOptions mac l mtype flags).length - 282 = m := by omega
  refine ⟨?_, ?_, ?_, ?_, hcookie, ?_, ?_⟩
  · unfold getapDhcpBufferSize
    omega
  · refine octetWord_of_load ?_ (by omega)
    rw [show 278 + (dhcpOptions mac l mtype flags).length - 34 = 8 + 236 + (dhcpOptions mac l mtype flags).length by omega,
      hwrites, List.append_cons]
    refine @load_putAll _ _ _ (38, octetPair _) ?_
    simp [octetPair]
  · refine octetWord_of_load ?_ (by omega)
    rw [show 278 + (dhcpOptions mac l mtype flags).length - 14 =
      8 + 236 + (dhcpOptions mac l mtype flags).length + 20 by omega, hwrites, List.append_cons, List.append_cons]
    refine @load_putAll _ _ _ (16, octetPair _) ?_
    simp [octetPair]
  · have hfields : ∀ f ∈ dhcpFields mac l now mtype flags, f.1 + f.2.length ≤ 24 ∨ 26 ≤ f.1 := by
      unfold dhcpFields
      rw [List.forall_mem_append]
      exact ⟨fun f hf => (hfixed f hf).2, by simp [octetPair]⟩
    have hzero : ∀ k, k = 24 ∨ k = 25 → putAll (fun _ => 0) (dhcpFields mac l now mtype flags) k = 0 := by
      intro k hk
      rw [putAll_outside fun f hf => ?_]
      have := hfields f hf
      omega
    unfold dhcpWrites
    rw [putAll_append]
    refine header_sum (fun hversion => ?_) (hzero 24 (.inl rfl)) (hzero 25 (.inr rfl))
    obtain ⟨early, later, hsplit, hlater⟩ := @dhcpFixed_version mac l now flags
    have hone : ByteBlock.load (putAll (fun _ => 0) (dhcpFields mac l now mtype flags)) 14 1 = [0x45] := by
      unfold dhcpFields
      dsimp only
      rw [hsplit, List.append_assoc, List.cons_append]
      refine @load_putAll _ _ _ (14, [0x45]) fun g hg => .inl ?_
      rcases List.mem_append.mp hg with hmem | hmem
      · exact hlater g hmem
      · simp at hmem
        rcases hmem with rfl | rfl | rfl
        · exact (by decide : 15 ≤ 278)
        · exact (by decide : 15 ≤ 38)
        · exact (by decide : 15 ≤ 16)
    rw [show ByteBlock.load (putAll (fun _ => 0) (dhcpFields mac l now mtype flags)) 14 1 =
      [putAll (fun _ => 0) (dhcpFields mac l now mtype flags) 14] from rfl, hversion] at hone
    simp at hone
  · rw [hstop]
    exact hrest
  · rw [hstop, hrest]
    exact OptionList.read_write hplain

/-- What a message is made from, once its transaction is set. -/
def messageLease (w : TapWorld) (t : Tap) (flags : DhcpFlags) : DhcpLease :=
  let l := t.dhcp.lease
  let l := if flags.dhcpNewXid then { l with sDhcpXid := BitVec.ofNat 32 (w.dhcpRand t.clock) } else l
  if flags.dhcpResetSec then { l with sDhcpSecStart := w.time t.clock } else l

theorem messageLease_kept {w : TapWorld} {t : Tap} :
    (messageLease w t flags).sDhcpNextHopMac = t.dhcp.lease.sDhcpNextHopMac ∧
      (messageLease w t flags).sDhcpYipAddr = t.dhcp.lease.sDhcpYipAddr ∧
      (messageLease w t flags).sDhcpSrvAddr = t.dhcp.lease.sDhcpSrvAddr := by
  unfold messageLease
  dsimp only
  split <;> split <;> exact ⟨rfl, rfl, rfl⟩

/-- A message that is made stays within its buffer, its lengths and its checksum are right, and its options are
those that its flags ask for. -/
theorem dhcp_message_built (w : TapWorld) (t : Tap) (mtype : DhcpMsgType) (flags : DhcpFlags)
    (hmac : t.addr.sMac.length = 6) (hhop : t.dhcp.lease.sDhcpNextHopMac.length = 6) :
    ∃ fields stop, (t.dhcpMsg w mtype flags).2.tx =
        (t.tx.sendDhcp (t.sizes w) (putAll (fun _ => 0) fields) (getapDhcpBufferSize - 8)).2 ∧
      (∀ f ∈ fields, f.1 + f.2.length ≤ getapDhcpBufferSize) ∧
      WellBuilt (putAll (fun _ => 0) fields) (requestedOptions t.addr.sMac t.dhcp.lease mtype flags) stop := by
  obtain ⟨hkept, hyip, hsrv⟩ := @messageLease_kept flags w t
  rw [← hkept] at hhop
  have hsent : (t.dhcpMsg w mtype flags).2.tx = (t.tx.sendDhcp (t.sizes w)
      (dhcpBuffer t.addr.sMac (messageLease w t flags) (w.time t.clock) mtype flags) (getapDhcpBufferSize - 8)).2 := rfl
  have hrequested : requestedOptions t.addr.sMac t.dhcp.lease mtype flags =
      requestedOptions t.addr.sMac (messageLease w t flags) mtype flags := by
    unfold requestedOptions
    rw [hyip, hsrv]
  have hfixed := @dhcpFixed_places _ _ (w.time t.clock) flags hmac hhop
  have hmax := (@dhcpOptions_length _ (messageLease w t flags) mtype flags hmac).2
  rw [dhcpBuffer_writes] at hsent
  rw [hrequested]
  refine ⟨_, _, hsent, ?_, dhcpWrites_built hmac hhop⟩
  unfold dhcpWrites dhcpFields getapDhcpBufferSize
  rw [List.forall_mem_append, List.forall_mem_append]
  refine ⟨⟨fun f hf => ?_, ?_⟩, by simp [octetPair]⟩
  · have := (hfixed f hf).1
    omega
  · simp [octetPair]
    omega

theorem dhcp_message_built_first : ∃ fields stop,
    (((freshTap sampleSetup).takeMac sampleSetup.mac).dhcpMsg busyWorld .discover { dhcpVendid := true }).2.tx =
      (((freshTap sampleSetup).takeMac sampleSetup.mac).tx.sendDhcp
        (((freshTap sampleSetup).takeMac sampleSetup.mac).sizes busyWorld) (putAll (fun _ => 0) fields)
        (getapDhcpBufferSize - 8)).2 ∧
      (∀ f ∈ fields, f.1 + f.2.length ≤ getapDhcpBufferSize) ∧
      WellBuilt (putAll (fun _ => 0) fields) (requestedOptions sampleSetup.mac (freshTap sampleSetup).dhcp.lease .discover
        { dhcpVendid := true }) stop :=
  dhcp_message_built busyWorld ((freshTap sampleSetup).takeMac sampleSetup.mac) .discover { dhcpVendid := true } rfl rfl

end

end Katcp
