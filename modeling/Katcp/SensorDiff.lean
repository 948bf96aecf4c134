import Katcp.PastTime
import Katcp.SensorValues
import Mathlib.Algebra.Order.Group.Abs
import Mathlib.Algebra.Order.Group.Int

namespace Katcp

open Function

/-- The two types of sensor that hold whole numbers and can be sampled by their difference. -/
inductive WholeType where
  | integer | bigint
  deriving DecidableEq, Repr

/-- The size of an `int` and of a `long long`. -/
def WholeType.bits : WholeType → Nat
  | .integer => 32
  | .bigint => 64

/-- `katcp_nonsense` with `katcp_integer_nonsense` or `katcp_bigint_nonsense`. -/
structure DiffNonsense (w : Nat) where
  nStrategy : Strategy
  previous : BitVec w
  delta : BitVec w

/-- `create_nonsense_intbool_katcp` and `create_nonsense_bigint_katcp` -/
def createDiff {w : Nat} (current : BitVec w) : DiffNonsense w := ⟨.off, current, 1⟩

namespace DiffNonsense

variable {w : Nat}

/-- The two difference checks, after which the client is sent an update or not. -/
def diffCheck (ns : DiffNonsense w) (current : BitVec w) : DiffNonsense w × Bool :=
  if withinBits current ns.previous ns.delta then (ns, false) else ({ ns with previous := current }, true)

def diffCheckInteger : DiffNonsense 32 → BitVec 32 → DiffNonsense 32 × Bool := diffCheck

def diffCheckBigint : DiffNonsense 64 → BitVec 64 → DiffNonsense 64 × Bool := diffCheck

/-- The scans of a difference; one that is too large for a `long` is cut off to it, and then to
what the client's record holds. -/
def scanDiff (ns : DiffNonsense w) (extra : Option Text) : Option (DiffNonsense w) :=
  extra.bind fun extra =>
    if endsDelta (strtolEnd extra) then
      some { ns with delta := .ofInt w (max (-(2 ^ 63)) (min (strtolValue extra) (2 ^ 63 - 1))) }
    else none

def scanDiffInteger : DiffNonsense 32 → Option Text → Option (DiffNonsense 32) := scanDiff

def scanDiffBigint : DiffNonsense 64 → Option Text → Option (DiffNonsense 64) := scanDiff

/-- The client's check in `c_checks`, as far as the clients have one of these two strategies. -/
def check (ns : DiffNonsense w) (current : BitVec w) : DiffNonsense w × Bool :=
  if ns.nStrategy = .diff then ns.diffCheck current else (ns, false)

end DiffNonsense

/-- A sensor of whole numbers, with the records of its clients. -/
structure WholeSensor (w : Nat) where
  acquired : BitVec w
  current : BitVec w
  clients : DispatchId → Option (DiffNonsense w)

inductive DiffEvent (w : Nat) where
  /-- A client has its record, since when the value counts as reported to it. -/
  | entered (d : DispatchId) (value : BitVec w)
  | asked (d : DispatchId) (delta : Int)
  | propagated (value : BitVec w) (sent : DispatchId → Bool)

inductive DiffAction (w : Nat) where
  | set (value : BitVec w)
  | propagate
  | sample (d : DispatchId) (extra : Option Text)

namespace WholeSensor

variable {w : Nat}

/-- `propagate_acquire_katcp`, and who is sent an update. -/
def propagate (sn : WholeSensor w) : WholeSensor w × List (DiffEvent w) :=
  ({ sn with
      current := sn.acquired
      clients := fun d => (sn.clients d).map fun ns => (ns.check sn.acquired).1 },
    [.propagated sn.acquired fun d => (sn.clients d).any fun ns => (ns.check sn.acquired).2])

/-- `set_integer_acquire_katcp` and `set_bigint_acquire_katcp` -/
def setAcquire (sn : WholeSensor w) (value : BitVec w) : WholeSensor w × List (DiffEvent w) :=
  ({ sn with acquired := value } : WholeSensor w).propagate

/-- `configure_sensor_katcp` for the difference strategy; the client keeps a record that was made
for it, also if its difference is no good. The sensor is then propagated, or scheduled. -/
def configure (sn : WholeSensor w) (d : DispatchId) (extra : Option Text) : WholeSensor w × List (DiffEvent w) :=
  let made : List (DiffEvent w) := if (sn.clients d).isSome then [] else [.entered d sn.current]
  let ns := (sn.clients d).getD (createDiff sn.current)
  match ns.scanDiff extra with
  | none => ({ sn with clients := update sn.clients d (some ns) }, made)
  | some ns => ({ sn with clients := update sn.clients d (some { ns with nStrategy := .diff }) },
      made ++ [.asked d ((extra.map strtolValue).getD 0)])

def act (sn : WholeSensor w) : DiffAction w → WholeSensor w × List (DiffEvent w)
  | .set value => sn.setAcquire value
  | .propagate => sn.propagate
  | .sample d extra => sn.configure d extra

end WholeSensor

/-- A sensor from its creation, sampled by differences. -/
def diffMachine (type : WholeType) : Machine (WholeSensor type.bits) (DiffAction type.bits) (DiffEvent type.bits) where
  start := ⟨0, 0, fun _ => none⟩
  step sn a := some (sn.act a).1
  emits sn a := (sn.act a).2

/-- The value that a client was last sent, or that its record was made with. -/
def Reported {w : Nat} (d : DispatchId) (value : BitVec w) : List (DiffEvent w) → Prop :=
  Since (fun e => (∀ v, e ≠ .entered d v) ∧ ∀ v sent, e = .propagated v sent → sent d = false)
    fun _ e => e = .entered d value ∨ ∃ sent, e = .propagated value sent ∧ sent d = true

/-- The difference that a client has asked for last. -/
def Wanted {w : Nat} (d : DispatchId) (delta : Int) : List (DiffEvent w) → Prop :=
  Since (fun e => ∀ n, e ≠ .asked d n) fun _ e => e = .asked d delta

/-- A client is sent an update exactly when the value is as far from the one last reported to it
as the difference that it has asked for. -/
def DiffExact {w : Nat} (before : List (DiffEvent w)) : DiffEvent w → Prop
  | .propagated value sent => ∀ d last delta, Reported d last before → Wanted d delta before → 0 < delta →
      (sent d = true ↔ delta ≤ |value.toInt - last.toInt|)
  | _ => True

/-- How far the values may be apart for a difference: less than half the range of the type, or
more than that while the rest of the range is still as large as the difference. -/
def DistanceKept (w : Nat) (distance delta : Int) : Prop :=
  distance < 2 ^ (w - 1) ∨ (2 ^ (w - 1) < distance ∧ distance + delta ≤ 2 ^ w)

/-- The differences asked for fit the type, and the values are not too far apart for them. -/
def DiffFits {w : Nat} (sn : WholeSensor w) : DiffAction w → Prop
  | .set value => ∀ d ns, sn.clients d = some ns → ns.nStrategy = .diff →
      DistanceKept w |value.toInt - ns.previous.toInt| ns.delta.toInt
  | .propagate => ∀ d ns, sn.clients d = some ns → ns.nStrategy = .diff →
      DistanceKept w |sn.acquired.toInt - ns.previous.toInt| ns.delta.toInt
  | .sample _ extra => ∀ text ∈ extra, strtolValue text < 2 ^ (w - 1)

variable {type : WholeType} {w : Nat}

/-- The difference of two machine integers is the right one, unless it takes more than half of
their range. -/
theorem toInt_sub_eq {x y : BitVec w} {n k : Int} (hw : 0 < w) (hn : x.toInt - y.toInt = n + k * 2 ^ w)
    (hk : k = 0 ∨ k = 1 ∨ k = -1) (hlow : -(2 ^ (w - 1)) ≤ n) (hhigh : n < 2 ^ (w - 1)) : (x - y).toInt = n := by
  have hpow : 2 ^ w = 2 * 2 ^ (w - 1) := by
    rw [← Nat.pow_succ', Nat.succ_eq_add_one, Nat.sub_add_cancel hw]
  have hfit : n.bmod (2 ^ w) = n := by
    rw [hpow]
    refine Int.bmod_eq_of_le ?_ ?_ <;> push_cast <;> omega
  have hcast : ((2 ^ w : Nat) : Int) = 2 ^ w := by push_cast; rfl
  rw [BitVec.toInt_sub, hn, ← hcast]
  rcases hk with rfl | rfl | rfl
  · rw [Int.zero_mul, Int.add_zero, hfit]
  · rw [Int.one_mul, Int.add_bmod_right, hfit]
  · rw [Int.neg_one_mul, ← Int.sub_eq_add_neg, Int.sub_bmod_right, hfit]

/-- An update is due by the machine's difference just where it is by the distance, unless the
values are too far apart. -/
theorem withinBits_exact_iff {x y delta : BitVec w} (hw : 0 < w) (hpos : 0 < delta.toInt) :
    (¬ withinBits x y delta = true ↔ delta.toInt ≤ |x.toInt - y.toInt|) ↔
      DistanceKept w |x.toInt - y.toInt| delta.toInt := by
  have hpow : (2 : Int) ^ w = 2 * 2 ^ (w - 1) := by
    rw [← pow_succ', Nat.sub_add_cancel hw]
  have hmin : (BitVec.intMin w).toInt = -(2 ^ (w - 1)) := BitVec.toInt_intMin_of_pos hw
  have heq : x - y = BitVec.intMin w ↔ (x - y).toInt = -(2 ^ (w - 1)) := by
    rw [← hmin]
    exact BitVec.toInt_inj.symm
  have hwithin : withinBits x y delta = true ↔
      (if x - y = BitVec.intMin w then -(2 ^ (w - 1)) else |(x - y).toInt|) < delta.toInt := by
    unfold withinBits
    rw [BitVec.slt_iff_toInt_lt, BitVec.toInt_abs_eq_natAbs, hmin, Int.natCast_natAbs]
  have hx := x.toInt_lt
  have hx' := x.le_toInt
  have hy := y.toInt_lt
  have hy' := y.le_toInt
  have hd := delta.toInt_lt
  have hn : ∃ n k : Int, x.toInt - y.toInt = n + k * 2 ^ w ∧ (k = 0 ∨ k = 1 ∨ k = -1) ∧ -(2 ^ (w - 1)) ≤ n ∧
      n < 2 ^ (w - 1) := by
    rcases lt_or_ge (x.toInt - y.toInt) (-(2 ^ (w - 1))) with hlow | hlow
    · exact ⟨x.toInt - y.toInt + 2 ^ w, -1, by omega, .inr (.inr rfl), by omega, by omega⟩
    · rcases lt_or_ge (x.toInt - y.toInt) (2 ^ (w - 1)) with hhigh | hhigh
      · exact ⟨x.toInt - y.toInt, 0, by omega, .inl rfl, hlow, hhigh⟩
      · exact ⟨x.toInt - y.toInt - 2 ^ w, 1, by omega, .inr (.inl rfl), by omega, by omega⟩
  obtain ⟨n, k, hsub, hk, hlow, hhigh⟩ := hn
  have hdiff := toInt_sub_eq hw hsub hk hlow hhigh
  rw [hwithin, if_congr heq rfl rfl, hdiff]
  have hD : -(2 ^ w) < x.toInt - y.toInt ∧ x.toInt - y.toInt < 2 ^ w := by omega
  unfold DistanceKept
  rw [hpow] at hsub hD ⊢
  clear hwithin heq hdiff hpow hmin
  generalize x.toInt - y.toInt = D at *
  generalize delta.toInt = c at *
  generalize (2 : Int) ^ (w - 1) = h at *
  by_cases hn : n = -h
  · rw [if_pos hn]
    rcases abs_cases D with ⟨he, _⟩ | ⟨he, _⟩ <;> rw [he] <;> rcases hk with rfl | rfl | rfl <;> omega
  · rw [if_neg hn]
    rcases abs_cases D with ⟨he, _⟩ | ⟨he, _⟩ <;> rcases abs_cases n with ⟨hm, _⟩ | ⟨hm, _⟩ <;> rw [he, hm] <;>
      rcases hk with rfl | rfl | rfl <;> omega

/-- A check is right exactly where the values are not too far apart. -/
theorem DiffNonsense.diffCheck_exact_iff {ns : DiffNonsense w} {v : BitVec w} (hw : 0 < w) (hpos : 0 < ns.delta.toInt) :
    ((ns.diffCheck v).2 = true ↔ ns.delta.toInt ≤ |v.toInt - ns.previous.toInt|) ↔
      DistanceKept w |v.toInt - ns.previous.toInt| ns.delta.toInt := by
  rw [← withinBits_exact_iff hw hpos]
  unfold diffCheck
  split
  next h => simp [h]
  next h => simp [h]

theorem DiffNonsense.check_strategy (ns : DiffNonsense w) (v : BitVec w) :
    (ns.check v).1.nStrategy = ns.nStrategy ∧ (ns.check v).1.delta = ns.delta := by
  unfold check diffCheck
  split <;> [split; skip] <;> exact ⟨rfl, rfl⟩

theorem DiffNonsense.check_previous (ns : DiffNonsense w) (v : BitVec w) :
    (ns.check v).1.previous = if (ns.check v).2 then v else ns.previous := by
  unfold check diffCheck
  split <;> [split; skip] <;> rfl

section

variable {sn sn' : WholeSensor w} {log : List (DiffEvent w)} {d d' : DispatchId} {v value : BitVec w}
  {sent : DispatchId → Bool} {n n' : Int}

@[simp] theorem reported_entered : Reported d value (log ++ [.entered d' v]) ↔
    (d = d' ∧ value = v) ∨ (d ≠ d' ∧ Reported d value log) := by
  simp [Reported, Since.snoc, @eq_comm _ d' d, @eq_comm _ v value]

@[simp] theorem reported_asked : Reported d value (log ++ [.asked d' n]) ↔ Reported d value log := by
  simp [Reported, Since.snoc]

@[simp] theorem reported_propagated : Reported d value (log ++ [.propagated v sent]) ↔
    (value = v ∧ sent d = true) ∨ (sent d = false ∧ Reported d value log) := by
  simp [Reported, Since.snoc, @eq_comm _ v value]

@[simp] theorem wanted_entered : Wanted d n (log ++ [.entered d' v]) ↔ Wanted d n log := by
  simp [Wanted, Since.snoc]

@[simp] theorem wanted_asked : Wanted d n (log ++ [.asked d' n']) ↔ (d = d' ∧ n = n') ∨ (d ≠ d' ∧ Wanted d n log) := by
  simp [Wanted, Since.snoc, eq_comm]

@[simp] theorem wanted_propagated : Wanted d n (log ++ [.propagated v sent]) ↔ Wanted d n log := by
  simp [Wanted, Since.snoc]

/-- What the history of a sensor says about the records of its clients. -/
structure DiffInv (sn : WholeSensor w) (log : List (DiffEvent w)) : Prop where
  reported : ∀ d value, Reported d value log → ∃ ns, sn.clients d = some ns ∧ ns.previous = value
  wanted : ∀ d n, Wanted d n log → ∃ ns, sn.clients d = some ns ∧ ns.nStrategy = .diff ∧ (0 < n → ns.delta.toInt = n)
  exact : Always DiffExact log

theorem DiffInv.propagate (h : DiffInv sn log) (hw : 0 < w) (hfit : DiffFits sn .propagate) :
    DiffInv sn.propagate.1 (log ++ sn.propagate.2) := by
  refine ⟨fun d value hd => ?_, fun d n hd => ?_, h.exact.snoc fun d last delta hlast hdelta hpos => ?_⟩
  · rcases reported_propagated.mp hd with ⟨rfl, hsent⟩ | ⟨hsent, hd⟩
    · obtain ⟨ns, hns, hsent⟩ := (Option.any_eq_true _ _).mp hsent
      exact ⟨(ns.check sn.acquired).1, by simp [WholeSensor.propagate, hns], by rw [ns.check_previous, if_pos hsent]⟩
    · obtain ⟨ns, hns, rfl⟩ := h.reported d value hd
      rw [hns, Option.any_some] at hsent
      exact ⟨(ns.check sn.acquired).1, by simp [WholeSensor.propagate, hns],
        by rw [ns.check_previous, if_neg (ne_true_of_eq_false hsent)]⟩
  · obtain ⟨ns, hns, hdiff, hdelta⟩ := h.wanted d n (wanted_propagated.mp hd)
    obtain ⟨hsame, hdelta'⟩ := ns.check_strategy sn.acquired
    exact ⟨(ns.check sn.acquired).1, by simp [WholeSensor.propagate, hns], hsame.trans hdiff, by rwa [hdelta']⟩
  · obtain ⟨ns, hns, hdiff, hwant⟩ := h.wanted d delta hdelta
    obtain ⟨ns', hns', rfl⟩ := h.reported d last hlast
    cases hns.symm.trans hns'
    have hcheck : ns.check sn.acquired = ns.diffCheck sn.acquired := if_pos hdiff
    have hexact := (ns.diffCheck_exact_iff hw (hwant hpos ▸ hpos)).mpr (hfit d ns hns hdiff)
    rw [hwant hpos] at hexact
    dsimp only
    rw [hns, Option.any_some, hcheck]
    exact hexact

theorem DiffInv.setAcquire (h : DiffInv sn log) (hw : 0 < w) (hfit : DiffFits sn (.set v)) :
    DiffInv (sn.setAcquire v).1 (log ++ (sn.setAcquire v).2) := by
  have h' : DiffInv { sn with acquired := v } log := ⟨h.reported, h.wanted, h.exact⟩
  exact h'.propagate hw hfit

theorem DiffInv.enter (h : DiffInv sn log) (hd : sn.clients d = none) :
    DiffInv { sn with clients := update sn.clients d (some (createDiff sn.current)) } (log ++ [.entered d sn.current]) := by
  refine ⟨fun d' value hd' => ?_, fun d' n hd' => ?_, h.exact.snoc trivial⟩
  · rcases reported_entered.mp hd' with ⟨rfl, rfl⟩ | ⟨hne, hd'⟩
    · exact ⟨_, update_self .., rfl⟩
    · obtain ⟨ns, hns, hvalue⟩ := h.reported d' value hd'
      exact ⟨ns, (update_of_ne hne ..).trans hns, hvalue⟩
  · obtain ⟨ns, hns, hdiff⟩ := h.wanted d' n (wanted_entered.mp hd')
    have hne : d' ≠ d := by
      rintro rfl
      rw [hd] at hns
      cases hns
    exact ⟨ns, (update_of_ne hne ..).trans hns, hdiff⟩

theorem DiffInv.ask (h : DiffInv sn log) {ns : DiffNonsense w} (hd : sn.clients d = some ns) {delta : BitVec w}
    (hdelta : 0 < n → delta.toInt = n) :
    DiffInv { sn with clients := update sn.clients d (some { ns with delta := delta, nStrategy := .diff }) }
      (log ++ [.asked d n]) := by
  refine ⟨fun d' value hd' => ?_, fun d' n' hd' => ?_, h.exact.snoc trivial⟩
  · obtain ⟨ns', hns', hvalue⟩ := h.reported d' value (reported_asked.mp hd')
    by_cases hne : d' = d
    · subst hne
      cases hd.symm.trans hns'
      exact ⟨_, update_self .., hvalue⟩
    · exact ⟨ns', (update_of_ne hne ..).trans hns', hvalue⟩
  · rcases wanted_asked.mp hd' with ⟨rfl, rfl⟩ | ⟨hne, hd'⟩
    · exact ⟨_, update_self .., rfl, hdelta⟩
    · obtain ⟨ns', hns', hdiff⟩ := h.wanted d' n' hd'
      exact ⟨ns', (update_of_ne hne ..).trans hns', hdiff⟩

end

section

variable {type : WholeType} {n : Int}

theorem bits_pos : 0 < type.bits := by
  cases type <;> decide

/-- A difference that fits the type is kept as it was asked for. -/
theorem kept_delta (hpos : 0 < n) (hfit : n < 2 ^ (type.bits - 1)) :
    (BitVec.ofInt type.bits (max (-(2 ^ 63)) (min n (2 ^ 63 - 1)))).toInt = n := by
  have hmin : max (-(2 ^ 63)) (min n (2 ^ 63 - 1)) = n := by
    cases type <;> simp only [WholeType.bits] at hfit <;> omega
  rw [hmin, BitVec.toInt_ofInt]
  cases type <;> simp only [WholeType.bits] at hfit ⊢ <;> refine Int.bmod_eq_of_le ?_ ?_ <;> omega

theorem DiffInv.configure {sn : WholeSensor type.bits} {log : List (DiffEvent type.bits)} (h : DiffInv sn log)
    {d : DispatchId} {extra : Option Text} (hfit : DiffFits sn (.sample d extra)) :
    DiffInv (sn.configure d extra).1 (log ++ (sn.configure d extra).2) := by
  obtain ⟨ns, made, hns, hmade, hentered⟩ : ∃ ns made, (sn.clients d).getD (createDiff sn.current) = ns ∧
      (if (sn.clients d).isSome then [] else [.entered d sn.current]) = made ∧
      DiffInv { sn with clients := update sn.clients d (some ns) } (log ++ made) := by
    refine ⟨_, _, rfl, rfl, ?_⟩
    cases hd : sn.clients d with
    | some ns =>
      have hsame : update sn.clients d (some ns) = sn.clients := by
        rw [← hd, update_eq_self]
      rw [Option.getD_some, hsame]
      simpa using h
    | none => exact h.enter hd
  unfold WholeSensor.configure
  rw [hns, hmade]
  dsimp only
  split
  next => exact hentered
  next ns' hscan =>
    obtain ⟨text, rfl, hscan⟩ := Option.bind_eq_some_iff.mp hscan
    obtain ⟨_, hscan⟩ := Option.ite_none_right_eq_some.mp hscan
    cases hscan
    have hclient : (update sn.clients d (some ns)) d = some ns := update_self ..
    have hasked := hentered.ask hclient fun hpos => kept_delta hpos (hfit text rfl)
    dsimp only at hasked
    rw [update_idem] at hasked
    rw [← List.append_assoc]
    exact hasked

theorem diff_keeps (type : WholeType) : (diffMachine type).Keeps DiffFits DiffInv := by
  intro sn log a sn' h hfit hstep
  cases Option.some.inj hstep
  cases a with
  | set v => exact h.setAcquire bits_pos hfit
  | propagate => exact h.propagate bits_pos hfit
  | sample d extra => exact h.configure hfit

/-- As long as every difference fits its type and no two values are too far apart, the clients are
sent the updates that they have asked for. -/
theorem diff_updates_exact (type : WholeType) {sn : WholeSensor type.bits} {log : List (DiffEvent type.bits)}
    (h : (diffMachine type).Runs DiffFits sn log) : Always DiffExact log :=
  (h.invariant DiffInv ⟨fun _ _ hd => absurd hd Since.not_nil, fun _ _ hd => absurd hd Since.not_nil, .nil⟩
    (diff_keeps type)).exact

/-- A client asks for a difference, and the sensor is set to these values. -/
def diffRun {w : Nat} (delta : String) (values : List (BitVec w)) : List (DiffAction w) :=
  .sample 3 (some (textOf delta)) :: values.map .set

/-- A sensor with one client. -/
def soleClient {w : Nat} (v : BitVec w) (d : DispatchId) (ns : DiffNonsense w) : WholeSensor w :=
  ⟨v, v, update (fun _ => none) d (some ns)⟩

theorem soleClient_fits {w : Nat} {u v : BitVec w} {d : DispatchId} {ns : DiffNonsense w}
    (h : DistanceKept w |v.toInt - ns.previous.toInt| ns.delta.toInt) : DiffFits (soleClient u d ns) (.set v) := by
  intro d' ns' hns _
  unfold soleClient at hns
  by_cases hd : d' = d
  · subst hd
    dsimp only at hns
    rw [update_self] at hns
    cases hns
    exact h
  · simp [hd] at hns

theorem soleClient_set {w : Nat} (u v : BitVec w) (d : DispatchId) (ns : DiffNonsense w) :
    ((soleClient u d ns).setAcquire v).1 = soleClient v d (ns.check v).1 := by
  have hclients : (fun d' => (update (fun _ => none) d (some ns) d').map fun ns => (ns.check v).1) =
      update (fun _ => none) d (some (ns.check v).1) := by
    funext d'
    by_cases hd : d' = d
    · subst hd
      simp
    · simp [hd]
  unfold WholeSensor.setAcquire WholeSensor.propagate soleClient
  rw [← hclients]

theorem diffRun_meets : (diffMachine .bigint).Meets DiffFits (diffMachine .bigint).start (diffRun "10" [5, 15, 12]) := by
  refine ⟨fun text htext => ?_, fun sn hsn => ?_⟩
  · cases htext
    decide
  · cases hsn
    refine ⟨soleClient_fits (.inl (by decide)), fun sn hsn => ?_⟩
    cases hsn
    change (diffMachine .bigint).Meets DiffFits ((soleClient _ 3 _).setAcquire 5).1 _
    rw [soleClient_set]
    refine ⟨soleClient_fits (.inl (by decide)), fun sn hsn => ?_⟩
    cases hsn
    change (diffMachine .bigint).Meets DiffFits ((soleClient _ 3 _).setAcquire 15).1 _
    rw [soleClient_set]
    exact ⟨soleClient_fits (.inl (by decide)), fun _ _ => trivial⟩

theorem diff_updates_exact_steps : ∃ first second third,
    Always DiffExact [.entered 3 0, .asked 3 10, .propagated (5 : BitVec 64) first, .propagated 15 second,
      .propagated 12 third] ∧ first 3 = false ∧ second 3 = true ∧ third 3 = false :=
  ⟨_, _, _, diff_updates_exact .bigint (Machine.Runs.exec .start (diffRun "10" [5, 15, 12]) rfl diffRun_meets),
    by decide, by decide, by decide⟩

theorem diff_asked {w : Nat} (n : Int) : Reported (w := w) 3 0 [.entered 3 0, .asked 3 n] ∧
    Wanted (w := w) 3 n [.entered 3 0, .asked 3 n] := by
  change Reported 3 0 ([] ++ [.entered 3 0] ++ [.asked 3 n]) ∧ Wanted 3 n ([] ++ [.entered 3 0] ++ [.asked 3 n])
  rw [reported_asked, reported_entered, wanted_asked]
  exact ⟨.inl ⟨rfl, rfl⟩, .inl ⟨rfl, rfl⟩⟩

/-- A value that lies half the range from the last one is not reported, for the smallest of
differences; and a difference that is too large for an `int` is kept as a small one. -/
theorem diff_updates_lost : (∀ type : WholeType, ∃ sn log,
      (diffMachine type).Runs (fun _ _ => True) sn log ∧ ¬ Always DiffExact log) ∧
    ∃ sn sent, (diffMachine .integer).Runs (fun _ _ => True) sn [.entered 3 0, .asked 3 4294967297, .propagated 5 sent] ∧
      ¬ Always DiffExact [.entered 3 0, .asked 3 4294967297, .propagated (5 : BitVec 32) sent] := by
  refine ⟨fun type => ⟨_, _, Machine.Runs.exec .start (diffRun "1" [BitVec.intMin type.bits]) rfl
    (Machine.meets_true ..), fun h => ?_⟩, _, _, Machine.Runs.exec .start (diffRun "4294967297" [5]) rfl
    (Machine.meets_true ..), fun h => ?_⟩
  · obtain ⟨hlast, hdelta⟩ := diff_asked (w := type.bits) 1
    have hsent := (h _ _ [] rfl 3 0 1 hlast hdelta (by decide)).mpr
    cases type with
    | integer => exact absurd (hsent (by decide)) (by decide)
    | bigint => exact absurd (hsent (by decide)) (by decide)
  · obtain ⟨hlast, hdelta⟩ := diff_asked (w := 32) 4294967297
    have hfar := (h [.entered 3 0, .asked 3 4294967297] _ [] rfl 3 0 4294967297 hlast hdelta (by decide)).mp (by decide)
    exact absurd hfar (by decide)

end

end Katcp
