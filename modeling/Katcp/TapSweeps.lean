import Katcp.TapPoll
import Mathlib.Logic.Relation

namespace Katcp

/-- The last entry of the table, which no sweep asks about. -/
def lastEntry : Nat := getapArpCache - 1

/-- A plan of the maintenance with a clock that does not wrap: when each entry is due, which one the
sweep reaches next, and which one has to be asked about now, ourselves or another station. -/
structure ArpPlan where
  now : Nat
  due : Nat → Nat
  position : Nat
  owed : Option (Nat × Bool)

namespace ArpPlan

/-- What is done has to be what the plan says: a sweep takes the entries in order, and asks about
those that are due and no others. -/
def accepts (p : ArpPlan) : ArpEvent → Option ArpPlan
  | .refreshed i delay => some { p with due := Function.update p.due i (p.now + delay) }
  | .reached i own =>
    if p.owed = none ∧ i = p.position ∧ p.position < lastEntry then
      some { p with position := p.position + 1, owed := if p.due i ≤ p.now then some (i, own) else none }
    else none
  | .queried i => if p.owed = some (i, false) then some { p with owed := none } else none
  | .announced i => if p.owed = some (i, true) then some { p with owed := none } else none
  | .leased i => if p.owed = none then some { p with owed := some (i, true) } else none
  | .ticked => if p.owed = none then some { p with now := p.now + 1 } else none
  | .swept => if p.owed = none ∧ p.position = lastEntry then some { p with position := 1 } else none

def start : ArpPlan := ⟨0, id, 1, none⟩

end ArpPlan

/-- The plan after a record, if the record is according to plan. -/
def planned (record : List ArpEvent) : Option ArpPlan := record.foldlM ArpPlan.accepts ArpPlan.start

theorem planned_append {record : List ArpEvent} {p p' : ArpPlan} {e : ArpEvent} (h : planned record = some p)
    (he : p.accepts e = some p') : planned (record ++ [e]) = some p' := by
  unfold planned at h ⊢
  rw [List.foldlM_append, h]
  simpa using he

/-- How much later than due an entry may be when the sweep reaches it, or has passed it. -/
def lateness (position i : Nat) : Nat := if i < position then position - i else lastEntry - i + position

/-- The longest delay. -/
def longDelay : Nat := 2 ^ 31

/-- Periods that leave room on a clock of 32 bits. -/
structure ShortPeriods (a : TapArp) : Prop where
  spam : a.sSpamPeriod.current < 2 ^ 30
  spamStep : a.sSpamPeriod.increment < 2 ^ 30
  spamStop : a.sSpamPeriod.stop < 2 ^ 30
  announce : a.sAnnouncePeriod.current < 2 ^ 31
  announceStep : a.sAnnouncePeriod.increment < 2 ^ 30
  announceStop : a.sAnnouncePeriod.stop < 2 ^ 30
  valid : a.sValidPeriod < 2 ^ 30

/-- A table is as the plan says, up to the size of its clock, except for an entry that has to be
asked about; the entries are so much less late than they may be. -/
structure FollowsPlan (debt : Option (Nat × Bool)) (slack : Nat) (a : TapArp) (p : ArpPlan) : Prop where
  owes : p.owed = debt
  index : a.sIndex = p.position
  first : 1 ≤ p.position
  last : p.position ≤ lastEntry
  size : a.sTableSize = getapArpCache
  clock : a.sIteration = u32 p.now
  fresh : ∀ i, i < getapArpCache → a.sArpFresh i = u32 (p.due i)
  soon : ∀ i, 1 ≤ i → i < lastEntry → p.due i ≤ p.now + longDelay
  kept : ∀ i, 1 ≤ i → i < lastEntry → (∀ own, debt ≠ some (i, own)) → p.now + slack ≤ p.due i + lateness p.position i
  periods : ShortPeriods a

variable {a : TapArp} {p : ArpPlan} {debt : Option (Nat × Bool)} {slack i delay : Nat}

theorem lateness_pos {position : Nat} (hi : i < lastEntry) : 1 ≤ lateness position i := by
  unfold lateness
  split <;> omega

/-- The test of the source on a wrapped clock is the test of the plan. -/
theorem FollowsPlan.age_lt (h : FollowsPlan none slack a p) (hi : p.position < lastEntry) :
    a.age (a.sArpFresh a.sIndex) < 2 * getapArpCache ↔ p.due p.position ≤ p.now := by
  have hsoon := h.soon p.position h.first hi
  have hkept := h.kept p.position h.first hi (fun own ho => by cases ho)
  have hlate : lateness p.position p.position = lastEntry := by
    unfold lateness
    rw [if_neg (Nat.lt_irrefl _)]
    omega
  rw [hlate] at hkept
  rw [h.index, h.fresh _ (Nat.lt_of_lt_of_le hi (Nat.sub_le _ _))]
  unfold TapArp.age
  rw [h.clock]
  unfold u32 uint32Max getapArpCache lastEntry longDelay at *
  unfold getapArpCache at hkept
  split <;> omega

/-- An entry gets a new delay. -/
theorem FollowsPlan.refresh (h : FollowsPlan debt slack a p) (hslack : slack ≤ 1) (hdelay : delay ≤ longDelay) :
    ∃ p', p.accepts (.refreshed i delay) = some p' ∧ FollowsPlan debt slack (a.refresh i delay) p' := by
  refine ⟨_, rfl, { h with
    fresh := fun j hsize => ?_
    soon := fun j h1 hj => ?_
    kept := fun j h1 hj ho => ?_
    periods := ⟨h.periods.spam, h.periods.spamStep, h.periods.spamStop, h.periods.announce, h.periods.announceStep,
      h.periods.announceStop, h.periods.valid⟩ }⟩
  · by_cases hji : j = i
    · subst hji
      simp only [TapArp.refresh, Function.update_self, h.clock]
      unfold u32
      exact Nat.mod_add_mod _ _ _
    · simp only [TapArp.refresh, Function.update_of_ne hji, h.fresh j hsize]
  · by_cases hji : j = i
    · subst hji
      simp only [Function.update_self]
      omega
    · simp only [Function.update_of_ne hji]
      exact h.soon j h1 hj
  · by_cases hji : j = i
    · subst hji
      have hpos : 1 ≤ lateness p.position j := lateness_pos hj
      simp only [Function.update_self]
      omega
    · simp only [Function.update_of_ne hji]
      exact h.kept j h1 hj ho

theorem computeAnnounceRate_le (h : ShortPeriods a) : a.computeAnnounceRate.1 ≤ longDelay ∧
    ShortPeriods a.computeAnnounceRate.2 := by
  have hstop := h.announceStop
  have hstep := h.announceStep
  unfold TapArp.computeAnnounceRate longDelay
  split
  · exact ⟨by dsimp only; omega, h⟩
  next hlt =>
    have hcur : u32 (a.sAnnouncePeriod.current + a.sAnnouncePeriod.increment) < 2 ^ 31 := by
      unfold u32
      omega
    exact ⟨Nat.le_of_lt hcur, { h with announce := hcur }⟩

theorem computeSpamRate_le (h : ShortPeriods a) (hsize : a.sTableSize = getapArpCache) (hi : i < getapArpCache) :
    (a.computeSpamRate i).1 ≤ longDelay ∧ ShortPeriods (a.computeSpamRate i).2 := by
  have hstop := h.spamStop
  have hcur : (if a.sSpamPeriod.current ≥ a.sSpamPeriod.stop then a.sSpamPeriod.stop
      else a.sSpamPeriod.current) < 2 ^ 30 := by
    have := h.spam
    split <;> omega
  unfold TapArp.computeSpamRate
  dsimp only
  generalize (if a.sSpamPeriod.current ≥ a.sSpamPeriod.stop then a.sSpamPeriod.stop
    else a.sSpamPeriod.current) = current at hcur ⊢
  have hextra : u32 (current / 3 / a.sTableSize * i) ≤ current / 3 := by
    refine Nat.le_trans (Nat.mod_le _ _) ?_
    calc current / 3 / a.sTableSize * i ≤ current / 3 / a.sTableSize * a.sTableSize :=
          Nat.mul_le_mul_left _ (by rw [hsize]; exact Nat.le_of_lt hi)
      _ ≤ current / 3 := Nat.div_mul_le_self _ _
  refine ⟨?_, { h with spam := hcur }⟩
  generalize u32 (current / 3 / a.sTableSize * i) = extra at hextra ⊢
  refine Nat.le_trans (Nat.mod_le _ _) ?_
  unfold longDelay
  split <;> split <;> omega

/-- An entry that has to be asked about gets its new delay, and nothing is owed. -/
theorem FollowsPlan.settle {own : Bool} (h : FollowsPlan (some (i, own)) slack a p) (hslack : slack ≤ 1)
    (hdelay : delay ≤ longDelay) :
    FollowsPlan none slack (a.refresh i delay)
      { p with owed := none, due := Function.update p.due i (p.now + delay) } := by
  obtain ⟨p', hp, hf⟩ := h.refresh (i := i) hslack hdelay
  cases Option.some.inj hp
  refine { hf with owes := rfl, kept := fun j h1 hj _ => ?_ }
  by_cases hji : j = i
  · subst hji
    have hpos : 1 ≤ lateness p.position j := lateness_pos hj
    simp only [Function.update_self]
    omega
  · exact hf.kept j h1 hj fun own' ho => (by cases ho; exact hji rfl)

theorem FollowsPlan.same {a' : TapArp} (h : FollowsPlan debt slack a p) (hindex : a'.sIndex = a.sIndex)
    (hsize : a'.sTableSize = a.sTableSize) (hclock : a'.sIteration = a.sIteration)
    (hfresh : a'.sArpFresh = a.sArpFresh) (hshort : ShortPeriods a') : FollowsPlan debt slack a' p :=
  { h with
    index := hindex.trans h.index
    size := hsize.trans h.size
    clock := hclock.trans h.clock
    fresh := fun i hi => by rw [hfresh, h.fresh i hi]
    periods := hshort }

theorem FollowsPlan.announce (h : FollowsPlan (some (a.sSelf, true)) slack a p) (hslack : slack ≤ 1)
    (hp : planned a.sweeps = some p) : ∃ p', planned a.announce.sweeps = some p' ∧ FollowsPlan none slack a.announce p' := by
  have hnote : ShortPeriods (a.note (.announced a.sSelf)) := { h.periods with }
  obtain ⟨hrate, hshort⟩ := computeAnnounceRate_le hnote
  have hrest : (a.note (.announced a.sSelf)).computeAnnounceRate.2 = { a.note (.announced a.sSelf) with
      sAnnouncePeriod := (a.note (.announced a.sSelf)).computeAnnounceRate.2.sAnnouncePeriod } := by
    unfold TapArp.computeAnnounceRate
    split <;> rfl
  unfold TapArp.announce
  generalize (a.note (.announced a.sSelf)).computeAnnounceRate = r at hrate hshort hrest ⊢
  obtain ⟨rate, a1⟩ := r
  dsimp only at hrate hshort hrest ⊢
  have h1 : FollowsPlan (some (a1.sSelf, true)) slack a1 p := by
    rw [hrest] at hshort ⊢
    exact h.same rfl rfl rfl rfl hshort
  refine ⟨_, ?_, h1.settle hslack hrate⟩
  have hann : p.accepts (.announced a.sSelf) = some { p with owed := none } := if_pos h.owes
  have hself : a1.sSelf = a.sSelf := by rw [hrest]; rfl
  have hsweeps : a1.sweeps = a.sweeps ++ [.announced a.sSelf] := by rw [hrest]; rfl
  show planned (a1.sweeps ++ [.refreshed a1.sSelf rate]) = _
  rw [hsweeps]
  exact planned_append (planned_append hp hann) rfl

theorem FollowsPlan.query (h : FollowsPlan (some (i, false)) slack a p) (hi : i < getapArpCache) (hslack : slack ≤ 1)
    (hp : planned a.sweeps = some p) : ∃ p', planned (a.query i).sweeps = some p' ∧ FollowsPlan none slack (a.query i) p' := by
  have hnote : ShortPeriods (a.note (.queried i)) := { h.periods with }
  obtain ⟨hrate, hshort⟩ := computeSpamRate_le hnote h.size hi
  have hrest : ((a.note (.queried i)).computeSpamRate i).2 = { a.note (.queried i) with
      sSpamPeriod := ((a.note (.queried i)).computeSpamRate i).2.sSpamPeriod } := rfl
  unfold TapArp.query
  generalize (a.note (.queried i)).computeSpamRate i = r at hrate hshort hrest ⊢
  obtain ⟨rate, a1⟩ := r
  dsimp only at hrate hshort hrest ⊢
  have h1 : FollowsPlan (some (i, false)) slack a1 p := by
    rw [hrest] at hshort ⊢
    exact h.same rfl rfl rfl rfl hshort
  refine ⟨_, ?_, h1.settle hslack hrate⟩
  have hask : p.accepts (.queried i) = some { p with owed := none } := if_pos h.owes
  have hsweeps : a1.sweeps = a.sweeps ++ [.queried i] := by rw [hrest]; rfl
  show planned (a1.sweeps ++ [.refreshed i rate]) = _
  rw [hsweeps]
  exact planned_append (planned_append hp hask) rfl

/-- The sweep reaches an entry, which has to be asked about if it is due. -/
theorem FollowsPlan.reach (h : FollowsPlan none 0 a p) (hi : p.position < lastEntry) (hp : planned a.sweeps = some p) :
    ∃ p', planned a.reach.advance.sweeps = some p' ∧
      FollowsPlan (if p.due p.position ≤ p.now then some (a.sIndex, decide (a.sIndex = a.sSelf)) else none) 1
        a.reach.advance p' := by
  have hreach : p.accepts (.reached a.sIndex (a.sIndex = a.sSelf)) = some { p with
      position := p.position + 1
      owed := if p.due p.position ≤ p.now then some (a.sIndex, decide (a.sIndex = a.sSelf)) else none } := by
    rw [h.index]
    exact if_pos ⟨h.owes, rfl, hi⟩
  refine ⟨_, planned_append hp hreach, {
    owes := rfl
    index := by
      show a.sIndex + 1 = p.position + 1
      rw [h.index]
    first := Nat.le_add_left 1 _
    last := hi
    size := h.size
    clock := h.clock
    fresh := h.fresh
    soon := h.soon
    kept := fun j h1 hj ho => ?_
    periods := { h.periods with } }⟩
  have hkept := h.kept j h1 hj (fun own ho => (by cases ho))
  unfold lateness at hkept ⊢
  dsimp only at ho ⊢
  by_cases hjp : j = p.position
  · subst hjp
    have hnot : ¬ p.due p.position ≤ p.now := fun hdue => by
      rw [if_pos hdue, h.index] at ho
      exact ho _ rfl
    rw [if_pos (Nat.lt_succ_self _)]
    omega
  · split at hkept <;> split <;> omega

theorem FollowsPlan.tick (h : FollowsPlan none 1 a p) (hp : planned a.sweeps = some p) :
    ∃ p', planned a.tick.sweeps = some p' ∧ FollowsPlan none 0 a.tick p' := by
  have htick : p.accepts .ticked = some { p with now := p.now + 1 } := if_pos h.owes
  refine ⟨_, planned_append hp htick, { h with
    clock := ?_
    soon := fun j h1 hj => Nat.le_trans (h.soon j h1 hj) (by dsimp only; omega)
    kept := fun j h1 hj ho => h.kept j h1 hj ho
    periods := { h.periods with } }⟩
  simp only [TapArp.tick, h.clock]
  unfold u32
  exact Nat.mod_add_mod _ _ _

theorem FollowsPlan.endSweep (h : FollowsPlan none 0 a p) (hi : ¬ p.position < lastEntry) (hp : planned a.sweeps = some p) :
    ∃ p', planned a.endSweep.sweeps = some p' ∧ FollowsPlan none 0 a.endSweep p' := by
  have hlast : p.position = lastEntry := Nat.le_antisymm h.last (Nat.le_of_not_lt hi)
  have hswept : p.accepts .swept = some { p with position := 1 } := if_pos ⟨h.owes, hlast⟩
  have hshort : ShortPeriods { a.fixupSpamRate.note .swept with sIndex := 1 } := by
    refine { h.periods with spam := ?_ }
    have hstop := h.periods.spamStop
    show (if u32 (a.sSpamPeriod.current + a.sSpamPeriod.increment) > a.sSpamPeriod.stop then a.sSpamPeriod.stop
      else u32 (a.sSpamPeriod.current + a.sSpamPeriod.increment)) < 2 ^ 30
    split <;> omega
  have h1 : FollowsPlan none 1 { a.fixupSpamRate.note .swept with sIndex := 1 } { p with position := 1 } := { h with
    index := rfl
    first := Nat.le_refl 1
    last := by dsimp only [lastEntry, getapArpCache]; omega
    kept := fun j h1 hj ho => by
      have hkept := h.kept j h1 hj ho
      unfold lateness at hkept ⊢
      dsimp only at hkept ⊢
      split at hkept <;> split <;> omega
    periods := hshort }
  exact h1.tick (planned_append hp hswept)

theorem TapArp.announce_advance : a.advance.announce = a.announce.advance := by
  unfold TapArp.announce TapArp.computeAnnounceRate
  by_cases h : a.sAnnouncePeriod.current ≥ a.sAnnouncePeriod.stop
  · have h1 : (a.note (.announced a.sSelf)).sAnnouncePeriod.current ≥ (a.note (.announced a.sSelf)).sAnnouncePeriod.stop := h
    have h2 : (a.advance.note (.announced a.advance.sSelf)).sAnnouncePeriod.current ≥
      (a.advance.note (.announced a.advance.sSelf)).sAnnouncePeriod.stop := h
    rw [if_pos h1, if_pos h2]
    rfl
  · have h1 : ¬ (a.note (.announced a.sSelf)).sAnnouncePeriod.current ≥ (a.note (.announced a.sSelf)).sAnnouncePeriod.stop := h
    have h2 : ¬ (a.advance.note (.announced a.advance.sSelf)).sAnnouncePeriod.current ≥
      (a.advance.note (.announced a.advance.sSelf)).sAnnouncePeriod.stop := h
    rw [if_neg h1, if_neg h2]
    rfl

/-- What an instance does to its arp table outside of a sweep. -/
inductive ArpTouch : TapArp → TapArp → Prop
  | refresh {a : TapArp} (i : Nat) {delay : Nat} : delay ≤ longDelay → ArpTouch a (a.refresh i delay)
  | entry {a : TapArp} (i : Nat) (mac : Octets) {delay : Nat} : delay ≤ longDelay →
      ArpTouch a (a.setEntryArp i mac delay)
  | glean {a : TapArp} (i : Nat) (mac : Octets) : ArpTouch a (a.setEntryArp i mac (a.validDelay i))
  | self {a : TapArp} (index : Nat) : ArpTouch a { a with sSelf := index }
  | lease {a : TapArp} : ArpTouch a (a.note (.leased a.sSelf)).announce

abbrev ArpTouches : TapArp → TapArp → Prop := Relation.ReflTransGen ArpTouch

/-- What an instance can do to its arp table in one go. -/
inductive ArpMove : TapArp → TapArp → Prop
  | touch {a a' : TapArp} : ArpTouch a a' → ArpMove a a'
  | shrink {a : TapArp} : a.sTableSize > getapArpCache → ArpMove a { a with sTableSize := getapArpCache }
  | pass {a : TapArp} : a.sIndex < a.sTableSize - 1 → ¬ a.age (a.sArpFresh a.sIndex) < 2 * getapArpCache →
      ArpMove a a.reach.advance
  | own {a : TapArp} : a.sIndex < a.sTableSize - 1 → a.age (a.sArpFresh a.sIndex) < 2 * getapArpCache →
      a.sIndex = a.sSelf → ArpMove a a.reach.announce.advance.tick
  | ask {a : TapArp} : a.sIndex < a.sTableSize - 1 → a.age (a.sArpFresh a.sIndex) < 2 * getapArpCache →
      a.sIndex ≠ a.sSelf → ArpMove a (a.reach.query a.sIndex).advance.tick
  | sweep {a : TapArp} : ¬ a.sIndex < a.sTableSize - 1 → ArpMove a a.endSweep

abbrev ArpMoves : TapArp → TapArp → Prop := Relation.ReflTransGen ArpMove

/-- The record of a table is according to plan, and so is the table. -/
def Maintained (a : TapArp) : Prop := ∃ p, planned a.sweeps = some p ∧ FollowsPlan none 0 a p

namespace Maintained

theorem refresh (h : Maintained a) (hdelay : delay ≤ longDelay) : Maintained (a.refresh i delay) := by
  obtain ⟨p, hp, hf⟩ := h
  obtain ⟨p', hacc, hf'⟩ := hf.refresh (i := i) (by decide) hdelay
  exact ⟨p', planned_append hp hacc, hf'⟩

theorem setEntryArp {mac : Octets} (h : Maintained a) (hdelay : delay ≤ longDelay) :
    Maintained (a.setEntryArp i mac delay) := by
  unfold TapArp.setEntryArp
  split
  · exact h
  · obtain ⟨p, hp, hf⟩ := h.refresh (i := i) hdelay
    exact ⟨p, hp, hf.same rfl rfl rfl rfl { hf.periods with }⟩

theorem lease (h : Maintained a) : Maintained (a.note (.leased a.sSelf)).announce := by
  obtain ⟨p, hp, hf⟩ := h
  have hlease : p.accepts (.leased a.sSelf) = some { p with owed := some (a.sSelf, true) } := if_pos hf.owes
  have hf1 : FollowsPlan (some (a.sSelf, true)) 0 (a.note (.leased a.sSelf)) { p with owed := some (a.sSelf, true) } := { hf with
    owes := rfl
    kept := fun j h1 hj _ => hf.kept j h1 hj (fun own ho => (by cases ho))
    periods := { hf.periods with } }
  exact hf1.announce (by decide) (planned_append hp hlease)

/-- The sweep takes one entry: it asks about it if and only if it is due. -/
theorem take (h : Maintained a) (hi : a.sIndex < a.sTableSize - 1) :
    (¬ a.age (a.sArpFresh a.sIndex) < 2 * getapArpCache → Maintained a.reach.advance) ∧
      (a.age (a.sArpFresh a.sIndex) < 2 * getapArpCache → a.sIndex = a.sSelf →
        Maintained a.reach.announce.advance.tick) ∧
      (a.age (a.sArpFresh a.sIndex) < 2 * getapArpCache → a.sIndex ≠ a.sSelf →
        Maintained (a.reach.query a.sIndex).advance.tick) := by
  obtain ⟨p, hp, hf⟩ := h
  have hsize := hf.size
  have hpos : p.position < lastEntry := by
    rw [← hf.index]
    unfold lastEntry
    omega
  have hage := hf.age_lt hpos
  obtain ⟨p', hp', hf'⟩ := hf.reach hpos hp
  refine ⟨fun hnot => ?_, fun hdue hself => ?_, fun hdue hself => ?_⟩
  · rw [if_neg fun hdue => hnot (hage.mpr hdue)] at hf'
    exact ⟨p', hp', { hf' with kept := fun j h1 hj ho => Nat.le_trans (by omega) (hf'.kept j h1 hj ho) }⟩
  · rw [if_pos (hage.mp hdue), decide_eq_true hself, hself] at hf'
    obtain ⟨p2, hp2, hf2⟩ := FollowsPlan.announce (a := a.reach.advance) hf' (Nat.le_refl 1) hp'
    rw [TapArp.announce_advance] at hp2 hf2
    exact hf2.tick hp2
  · rw [if_pos (hage.mp hdue), decide_eq_false hself] at hf'
    have hlt : a.sIndex < getapArpCache := by omega
    obtain ⟨p2, hp2, hf2⟩ := FollowsPlan.query (a := a.reach.advance) hf' hlt (Nat.le_refl 1) hp'
    exact hf2.tick hp2

theorem touch {a' : TapArp} (h : Maintained a) (htouch : ArpTouch a a') : Maintained a' := by
  cases htouch with
  | refresh i hdelay => exact h.refresh hdelay
  | entry i mac hdelay => exact h.setEntryArp hdelay
  | glean i mac =>
    refine h.setEntryArp ?_
    obtain ⟨p, _, hf⟩ := h
    have hsize := hf.size
    have hvalid := hf.periods.valid
    unfold TapArp.validDelay longDelay
    unfold getapArpCache at hsize
    omega
  | self index =>
    obtain ⟨p, hp, hf⟩ := h
    exact ⟨p, hp, hf.same rfl rfl rfl rfl { hf.periods with }⟩
  | lease => exact h.lease

theorem move {a' : TapArp} (h : Maintained a) (hmove : ArpMove a a') : Maintained a' := by
  cases hmove with
  | touch htouch => exact h.touch htouch
  | shrink hsize =>
    obtain ⟨p, _, hf⟩ := h
    exact absurd hf.size (Nat.ne_of_gt hsize)
  | pass hi hnot => exact (h.take hi).1 hnot
  | own hi hdue hself => exact (h.take hi).2.1 hdue hself
  | ask hi hdue hself => exact (h.take hi).2.2 hdue hself
  | sweep hi =>
    obtain ⟨p, hp, hf⟩ := h
    have hsize := hf.size
    refine hf.endSweep ?_ hp
    rw [← hf.index]
    unfold lastEntry
    omega

theorem moves {a' : TapArp} (h : Maintained a) (hmoves : ArpMoves a a') : Maintained a' := by
  induction hmoves with
  | refl => exact h
  | tail _ hmove ih => exact ih.move hmove

end Maintained

theorem TapArp.computeAnnounceRate_sweeps : a.computeAnnounceRate.2.sweeps = a.sweeps := by
  unfold TapArp.computeAnnounceRate
  split <;> rfl

theorem TapArp.note_grows (e : ArpEvent) : a.sweeps <+: (a.note e).sweeps := List.prefix_append _ _

theorem TapArp.announce_grows : a.sweeps <+: a.announce.sweeps := by
  unfold TapArp.announce
  dsimp only [TapArp.refresh]
  rw [computeAnnounceRate_sweeps]
  exact (List.prefix_append _ _).trans (List.prefix_append _ _)

theorem ArpTouch.grows {a' : TapArp} (h : ArpTouch a a') : a.sweeps <+: a'.sweeps := by
  have hset : ∀ i mac d, a.sweeps <+: (a.setEntryArp i mac d).sweeps := by
    intro i mac d
    unfold TapArp.setEntryArp
    split
    · exact List.prefix_rfl
    · exact List.prefix_append _ _
  cases h with
  | refresh i _ => exact List.prefix_append _ _
  | entry i mac _ => exact hset i mac _
  | glean i mac => exact hset i mac _
  | self index => exact List.prefix_rfl
  | lease => exact (TapArp.note_grows (.leased a.sSelf)).trans TapArp.announce_grows

/-- The record of a table only grows. -/
theorem ArpMove.grows {a' : TapArp} (h : ArpMove a a') : a.sweeps <+: a'.sweeps := by
  cases h with
  | touch htouch => exact htouch.grows
  | shrink _ => exact List.prefix_rfl
  | pass _ _ => exact List.prefix_append _ _
  | own _ _ _ =>
    have hreach : a.sweeps <+: a.reach.announce.sweeps := (TapArp.note_grows _).trans TapArp.announce_grows
    exact hreach.trans (List.prefix_append _ _)
  | ask _ _ _ =>
    have hreach : a.sweeps <+: a.reach.sweeps := TapArp.note_grows _
    have hquery : a.reach.sweeps <+: (a.reach.query a.sIndex).sweeps :=
      List.IsPrefix.trans (List.prefix_append _ _) (List.prefix_append _ _)
    exact (hreach.trans hquery).trans (List.prefix_append _ _)
  | sweep _ => exact List.IsPrefix.trans (List.prefix_append _ _) (List.prefix_append _ _)

theorem ArpMoves.grows {a' : TapArp} (h : ArpMoves a a') : a.sweeps <+: a'.sweeps := by
  induction h with
  | refl => exact List.prefix_rfl
  | tail _ hmove ih => exact ih.trans hmove.grows

theorem TapArp.announce_index : a.announce.sIndex = a.sIndex := by
  have hrate : (a.note (.announced a.sSelf)).computeAnnounceRate.2.sIndex = a.sIndex := by
    unfold TapArp.computeAnnounceRate
    split <;> rfl
  exact hrate

/-- Outside of a sweep the place that it has come to stays. -/
theorem ArpTouch.index {a' : TapArp} (h : ArpTouch a a') : a'.sIndex = a.sIndex := by
  have hset : ∀ i mac d, (a.setEntryArp i mac d).sIndex = a.sIndex := by
    intro i mac d
    unfold TapArp.setEntryArp
    split <;> rfl
  cases h with
  | refresh i _ => rfl
  | entry i mac _ => exact hset i mac _
  | glean i mac => exact hset i mac _
  | self index => rfl
  | lease => exact TapArp.announce_index

theorem ArpTouches.index {a' : TapArp} (h : ArpTouches a a') : a'.sIndex = a.sIndex := by
  induction h with
  | refl => rfl
  | tail _ htouch ih => exact htouch.index.trans ih

theorem ArpTouches.moves {a' : TapArp} (h : ArpTouches a a') : ArpMoves a a' := h.lift id fun _ _ => .touch

end Katcp
