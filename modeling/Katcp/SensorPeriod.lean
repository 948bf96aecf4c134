import Katcp.PastTime
import Katcp.RelayCommand

namespace Katcp

section

variable {F : Type} (fl : Doubles F)

/-- What `propagate_acquire_katcp` does to the record of one client. -/
def RelayNonsense.propagated (ns : RelayNonsense F) (sn : RelaySensor F) (now : Timeval) :
    RelayNonsense F × Option SensorUpdate :=
  match sn.more.extract fl sn.sStatus with
  | none => (ns, none)
  | some (more, status) => informClient fl { sn with more := more, sStatus := status } now ns

/-- A propagation, as a client sees it: when it was, whether the sensor had a useful value, and
whether the client was sent an update. -/
structure PeriodEvent where
  now : Timeval
  useful : Bool
  sent : Bool

/-- A client that has been configured to sample by a period, and the propagations of its sensor,
whatever that is set to in between. -/
def periodMachine (ns : RelayNonsense F) (period t0 : Timeval) :
    Machine (RelayNonsense F) (RelaySensor F × Timeval) PeriodEvent where
  start := ns.take ⟨.period, true, period, ns.delta⟩ t0
  step ns a := some (ns.propagated fl a.1 a.2).1
  emits ns a := [⟨a.2, (a.1.more.extract fl a.1.sStatus).isSome, (ns.propagated fl a.1 a.2).2.isSome⟩]

end

def periodUpdates (log : List PeriodEvent) : Nat := (log.filter fun e => e.sent).length

/-- An update is sent at each propagation with a useful value that is not before the next due
time, which lies as many periods after the start as updates were sent, and at no other. -/
def PeriodDue (t0 p : Int) (before : List PeriodEvent) (e : PeriodEvent) : Prop :=
  e.sent = true ↔ e.useful = true ∧ t0 + periodUpdates before * p ≤ e.now.micros

/-- Up to no time there is more than one update for each whole period, and one more. -/
def PeriodRate (t0 p : Int) (log : List PeriodEvent) : Prop :=
  ∀ t, t0 ≤ t → ((log.filter fun e => e.sent && e.now.micros ≤ t).length : Int) ≤ 1 + (t - t0) / p

structure PeriodInv {F : Type} (t0 period : Timeval) (ns : RelayNonsense F) (log : List PeriodEvent) : Prop where
  strategy : ns.nStrategy = .period
  held : ns.nPeriod = period
  normal : ns.nNext.Normal
  next : ns.nNext.micros = t0.micros + periodUpdates log * period.micros
  due : Always (PeriodDue t0.micros period.micros) log
  rate : PeriodRate t0.micros period.micros log

section

variable {F : Type} {fl : Doubles F} {ns : RelayNonsense F} {sn : RelaySensor F} {t0 now period : Timeval}
  {log : List PeriodEvent}

theorem periodCheck_cases (hnext : ns.nNext.Normal) (hnow : now.Normal) :
    (now.micros < ns.nNext.micros ∧ ns.periodCheck now = (ns, false)) ∨
      (ns.nNext.micros ≤ now.micros ∧ ns.periodCheck now = ({ ns with nNext := addTime ns.nNext ns.nPeriod }, true)) := by
  have hcmp := (cmpTime_micros hnext hnow).1
  unfold RelayNonsense.periodCheck
  by_cases h : cmpTime ns.nNext now > 0
  · rw [if_pos h]
    exact .inl ⟨hcmp.mp h, rfl⟩
  · rw [if_neg h]
    exact .inr ⟨by omega, rfl⟩

/-- What a propagation does for a client that samples by a period. -/
theorem propagated_cases (fl : Doubles F) (sn : RelaySensor F) (hstrategy : ns.nStrategy = .period) (hnext : ns.nNext.Normal) (hnow : now.Normal) :
    (((sn.more.extract fl sn.sStatus).isSome = false ∨ now.micros < ns.nNext.micros) ∧
        ns.propagated fl sn now = (ns, none)) ∨
      ((sn.more.extract fl sn.sStatus).isSome = true ∧ ns.nNext.micros ≤ now.micros ∧ ∃ shown update,
        ns.propagated fl sn now = ({ ns with nNext := addTime ns.nNext ns.nPeriod, shown := shown }, some update)) := by
  unfold RelayNonsense.propagated
  cases hextract : sn.more.extract fl sn.sStatus with
  | none => exact .inl ⟨.inl rfl, rfl⟩
  | some r =>
    obtain ⟨more, status⟩ := r
    have hcheck : ns.check fl more status now = ns.periodCheck now := by
      unfold RelayNonsense.check
      rw [hstrategy]
    dsimp only [informClient]
    rw [hcheck]
    rcases periodCheck_cases hnext hnow with ⟨hlt, hperiod⟩ | ⟨hle, hperiod⟩
    · rw [hperiod]
      exact .inl ⟨.inr hlt, rfl⟩
    · rw [hperiod]
      exact .inr ⟨rfl, hle, _, _, rfl⟩

theorem PeriodRate.quiet {p : Int} {useful : Bool} (h : PeriodRate t0.micros p log) :
    PeriodRate t0.micros p (log ++ [⟨now, useful, false⟩]) := by
  intro t ht
  rw [List.filter_append]
  simpa using h t ht

/-- An update at its due time keeps the rate: all those before it are counted in its due time. -/
theorem PeriodRate.update {p : Int} {useful : Bool} (hp : 0 < p) (h : PeriodRate t0.micros p log)
    (hdue : t0.micros + periodUpdates log * p ≤ now.micros) :
    PeriodRate t0.micros p (log ++ [⟨now, useful, true⟩]) := by
  intro t ht
  rw [List.filter_append, List.length_append]
  by_cases hle : now.micros ≤ t
  · have hless : ((log.filter fun e => e.sent && e.now.micros ≤ t).length : Int) ≤ periodUpdates log := by
      unfold periodUpdates
      have hsub : (log.filter fun e => e.sent && e.now.micros ≤ t).Sublist (log.filter fun e => e.sent) :=
        List.monotone_filter_right log fun e he => (Bool.and_eq_true_iff.mp he).1
      exact_mod_cast hsub.length_le
    have hfit : (periodUpdates log : Int) ≤ (t - t0.micros) / p := by
      rw [Int.le_ediv_iff_mul_le hp]
      omega
    simp [hle]
    omega
  · simpa [hle] using h t ht

theorem periodUpdates_append (log : List PeriodEvent) (e : PeriodEvent) :
    periodUpdates (log ++ [e]) = periodUpdates log + if e.sent then 1 else 0 := by
  unfold periodUpdates
  rw [List.filter_append, List.length_append]
  cases h : e.sent <;> simp [h]

theorem period_keeps (hperiod : period.Normal) (hpos : 0 < period.micros) :
    (periodMachine fl ns period t0).Keeps (fun _ a => a.2.Normal) (PeriodInv t0 period) := by
  intro nx log a nx' h hnow hstep
  obtain ⟨sn, now⟩ := a
  cases Option.some.inj hstep
  change PeriodInv t0 period (nx.propagated fl sn now).1
    (log ++ [⟨now, (sn.more.extract fl sn.sStatus).isSome, (nx.propagated fl sn now).2.isSome⟩])
  have hnext := h.next
  have hnow : now.Normal := hnow
  rcases propagated_cases fl sn h.strategy h.normal hnow with ⟨hnot, heq⟩ | ⟨huse, hle, shown, update, heq⟩
  · rw [heq]
    refine ⟨h.strategy, h.held, h.normal, ?_, h.due.snoc ?_, h.rate.quiet⟩
    · rw [periodUpdates_append]
      simpa using hnext
    · refine iff_of_false nofun fun ⟨huse, hdue⟩ => ?_
      rcases hnot with hnot | hlt
      · exact absurd huse (ne_true_of_eq_false hnot)
      · have hlate : t0.micros + periodUpdates log * period.micros ≤ now.micros := hdue
        omega
  · rw [heq]
    have hdue : t0.micros + periodUpdates log * period.micros ≤ now.micros := by omega
    have hnormal := addTime_normal h.normal (h.held ▸ hperiod)
    refine ⟨h.strategy, h.held, hnormal, ?_, h.due.snoc ?_, h.rate.update hpos hdue⟩
    · rw [periodUpdates_append]
      dsimp only
      rw [addTime_micros, h.held, hnext]
      simp [Int.add_mul]
      omega
    · exact iff_of_true rfl ⟨huse, hdue⟩

/-- The period of a client is not below the limit of its sensor's acquire. -/
theorem periodFor_pos {a : KatcpAcquire} {extra : Option Text} {old : Timeval} (hlimit : a.aLimit.Normal)
    (hpos : 0 < a.aLimit.micros) (hperiod : (periodFor a .period extra old).Normal) :
    0 < (periodFor a .period extra old).micros := by
  unfold periodFor at hperiod ⊢
  dsimp only at hperiod ⊢
  split at hperiod
  next h =>
    rw [if_pos h]
    have hsum := addTime_micros a.aLimit sensorLimitFudge
    have hvalue : sensorLimitFudge.micros = 2500 := rfl
    omega
  next h =>
    rw [if_neg h]
    have hcmp := (cmpTime_micros hperiod hlimit).2
    omega

end

section

/-- A sensor with one name, and an index into it. -/
def oneNameSensor (i : Nat) : RelaySensor Int := ⟨textOf "s", 0, .unknown, [], .discrete ⟨0, [some (textOf "a")]⟩ i, none⟩

/-- A client's record, before it has asked for a period. -/
def plainNonsense : RelayNonsense Int := ⟨3, .off, .unknown, ⟨1, 0⟩, ⟨0, 0⟩, .index 0, .int 1, none⟩

def limitedAcquire : KatcpAcquire := ⟨[], false, 0, 0, ⟨1, 0⟩, ⟨1, 0⟩, ⟨0, 250000⟩, ⟨0, 0⟩⟩

end

end Katcp
