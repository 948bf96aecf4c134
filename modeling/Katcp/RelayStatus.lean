import Katcp.RelayRun

namespace Katcp

variable {F : Type} {fl : Doubles F} {s : RelayState F} {sn : RelaySensor F} {ns : RelayNonsense F}
  {more mx : SensorMore F} {S : SensorStatus} {w : SensorValue F} {text : Text}

/-- The value that a text stands for, in a sensor of this type. -/
def SensorMore.reads (fl : Doubles F) (more : SensorMore F) (text : Text) : Option (SensorValue F) :=
  match more with
  | .integer .. | .boolean .. => if endsDelta (strtolEnd text) then some (.int (strtolValue text)) else none
  | .discrete ds _ => (ds.vector.findIdx? fun t => t = some text).map .index
  | .float .. => if endsDelta (strtodEnd text) then some (.double (fl.strtod text)) else none

namespace CheckedSensor

variable {α : Type} (less : α → α → Bool) (is : CheckedSensor α) (v : α)

def outsideNominal : Bool := less v is.nominalMin || less is.nominalMax v

/-- Outside the warning limit too, on the side where the value is outside the nominal one. -/
def beyondWarning : Bool := if less v is.nominalMin then less v is.warningMin else less is.warningMax v

/-- The limits of a sensor have nothing against a status at a value. -/
def Agrees (status : SensorStatus) : Prop :=
  match is.checks with
  | .none => True
  | .single | .full => status = if is.outsideNominal less v then .warn else .nominal
  | .fast => status = if is.outsideNominal less v then if is.beyondWarning less v then .error else .warn else .nominal

theorem agrees_iff (status : SensorStatus) : is.extractStatus less v status = status ↔ is.Agrees less v status := by
  unfold extractStatus Agrees
  cases is.checks with
  | none => exact iff_of_true rfl trivial
  | single => exact eq_comm
  | full => exact eq_comm
  | fast =>
    have hsame : is.checkFast less v =
        if is.outsideNominal less v then if is.beyondWarning less v then .error else .warn else .nominal := by
      unfold checkFast outsideNominal beyondWarning
      by_cases hlow : less v is.nominalMin
      · simp [hlow]
      · simp [hlow]
    dsimp only
    rw [hsame]
    exact eq_comm

end CheckedSensor

/-- A sensor can take a value with a status: its limits agree, an integer fits, and no missing
name comes before the one that a discrete value has. -/
def SensorMore.Takes (fl : Doubles F) (more : SensorMore F) (w : SensorValue F) (status : SensorStatus) : Prop :=
  match more, w with
  | .integer is _, .int n => (-(2 ^ 31) ≤ n ∧ n < 2 ^ 31) ∧ is.Agrees intLess n status
  | .boolean is _, .int n => (-(2 ^ 31) ≤ n ∧ n < 2 ^ 31) ∧ is.Agrees intLess n status
  | .discrete ds _, .index i => ∀ k < i, ds.vector[k]? ≠ some none
  | .float ds _, .double x => ds.Agrees fl.less x status
  | _, _ => False

theorem longToInt_eq_iff (n : Int) : longToInt n = n ↔ -(2 ^ 31) ≤ n ∧ n < 2 ^ 31 := by
  constructor
  · intro h
    have hlow : -(((2 ^ 32 : Nat) : Int) / 2) ≤ longToInt n := Int.le_bmod (by decide)
    have hhigh : longToInt n < (((2 ^ 32 : Nat) : Int) + 1) / 2 := Int.bmod_lt (by decide)
    rw [h] at hlow hhigh
    omega
  · rintro ⟨hlow, hhigh⟩
    have hclamp : max (-(2 ^ 63)) (min n (2 ^ 63 - 1)) = n := by omega
    rw [longToInt, hclamp]
    exact Int.bmod_eq_of_le (by omega) (by omega)

/-- A name that is there is found at its place, or the search runs into a missing one. -/
theorem scanVector_found {vector : List (Option Text)} {base i : Nat}
    (h : (vector.findIdx? fun t => t = some text) = some i) :
    if ∀ k < i, vector[k]? ≠ some none then scanVector text vector base = some (some (base + i))
    else scanVector text vector base = none := by
  induction vector generalizing base i with
  | nil => cases h
  | cons t vector ih =>
    cases t with
    | none =>
      rw [List.findIdx?_cons] at h
      obtain ⟨k, _, rfl⟩ := Option.map_eq_some_iff.mp h
      rw [if_neg fun hall => hall 0 (Nat.succ_pos k) rfl]
      rfl
    | some t =>
      rw [List.findIdx?_cons] at h
      by_cases ht : t = text
      · rw [if_pos (by simp [ht])] at h
        cases h
        rw [if_pos nofun, scanVector, if_pos ht, Nat.add_zero]
      · rw [if_neg (by simp [ht])] at h
        obtain ⟨k, hk, rfl⟩ := Option.map_eq_some_iff.mp h
        have hrest := @ih (base + 1) k hk
        have hiff : (∀ m < k + 1, (some t :: vector)[m]? ≠ some none) ↔ ∀ m < k, vector[m]? ≠ some none := by
          constructor
          · intro hall m hm
            exact hall (m + 1) (by omega)
          · intro hall m hm
            cases m with
            | zero => exact nofun
            | succ m => exact hall m (by omega)
        rw [scanVector, if_neg ht, if_congr hiff rfl rfl, Nat.add_comm k 1, ← Nat.add_assoc]
        exact hrest

theorem sameValue_trans {x y z : SensorValue F} (h : fl.sameValue x y) (h' : fl.sameValue x z) : fl.sameValue y z := by
  cases x with
  | int m =>
    cases y <;> cases z <;> simp_all [Doubles.sameValue]
  | index i =>
    cases y <;> cases z <;> simp_all [Doubles.sameValue]
  | double x =>
    cases y with
    | double y =>
      cases z with
      | double z => exact fl.same_trans h h'
      | _ => cases h'
    | _ => cases h

theorem int_arrives (is : CheckedSensor Int) (n : Int) :
    ((-(2 ^ 31) ≤ n ∧ n < 2 ^ 31) ∧ is.Agrees intLess n S) ↔
      is.extractStatus intLess (longToInt n) S = S ∧ SensorValue.int (F := F) (longToInt n) = .int n := by
  rw [← longToInt_eq_iff, ← is.agrees_iff, SensorValue.int.injEq]
  constructor
  · rintro ⟨hn, hstatus⟩
    rw [hn]
    exact ⟨hstatus, rfl⟩
  · rintro ⟨hstatus, hn⟩
    rw [hn] at hstatus
    exact ⟨hn, hstatus⟩

/-- How a status and a value arrive in a sensor, unless the search for a discrete value crashes. -/
theorem scan_arrives (S : SensorStatus) (hread : more.reads fl text = some w) :
    (scanValue fl more text = none ∧ ¬ more.Takes fl w S) ∨
      ∃ mx my st, scanValue fl more text = some (some mx) ∧ mx.extract fl S = some (my, st) ∧
        my.valueText fl w = more.valueText fl w ∧ (more.Takes fl w S ↔ st = S ∧ my.current = w) := by
  unfold SensorMore.reads at hread
  cases more with
  | integer is v =>
    obtain ⟨hends, hw⟩ := Option.ite_none_right_eq_some.mp hread
    cases hw
    refine Or.inr ⟨.integer is (longToInt (strtolValue text)), _, _, ?_, rfl, rfl, int_arrives is _⟩
    rw [scanValue, scanValueIntbool, if_pos hends]
    rfl
  | boolean is v =>
    obtain ⟨hends, hw⟩ := Option.ite_none_right_eq_some.mp hread
    cases hw
    refine Or.inr ⟨.boolean is (longToInt (strtolValue text)), _, _, ?_, rfl, rfl, int_arrives is _⟩
    rw [scanValue, scanValueIntbool, if_pos hends]
    rfl
  | discrete ds v =>
    obtain ⟨i, hi, rfl⟩ := Option.map_eq_some_iff.mp hread
    have hlt : ¬ ds.vector.length < i := by
      obtain ⟨hlt, _⟩ := List.findIdx?_eq_some_iff_getElem.mp hi
      omega
    have hfound := @scanVector_found text ds.vector 0 i hi
    by_cases hnames : ∀ k < i, ds.vector[k]? ≠ some none
    · rw [if_pos hnames, Nat.zero_add] at hfound
      refine Or.inr ⟨.discrete ds i, .discrete { ds with current := i } i, S, ?_, if_neg hlt, rfl,
        iff_of_true hnames ⟨rfl, rfl⟩⟩
      rw [scanValue, hfound]
      rfl
    · rw [if_neg hnames] at hfound
      refine Or.inl ⟨?_, hnames⟩
      rw [scanValue, hfound]
      rfl
  | float ds v =>
    obtain ⟨hends, hw⟩ := Option.ite_none_right_eq_some.mp hread
    cases hw
    refine Or.inr ⟨.float ds (fl.strtod text), _, _, ?_, rfl, rfl, ?_⟩
    · rw [scanValue, if_pos hends]
    · rw [SensorMore.Takes, ← ds.agrees_iff]
      exact ⟨fun h => ⟨h, rfl⟩, fun h => h.1⟩

/-- The client of an entry was last sent another status or another value. -/
def RelayNonsense.SawOther (fl : Doubles F) (ns : RelayNonsense F) (status : SensorStatus) (v : SensorValue F) : Prop :=
  ∃ st x, ns.shown = some (st, x) ∧ ¬ (st = status ∧ fl.sameValue x v)

/-- A status inform of a subordinate that is connected, for a sensor that is relayed from
somewhere, with a status and a value. -/
structure StatusInform (fl : Doubles F) (s : RelayState F) (j : Nat) (args : Words) (i : Nat) (sn : RelaySensor F)
    (status : SensorStatus) (v : SensorValue F) : Prop where
  inform : argString args 0 = some sensorStatusInform
  named : ∃ job name combine, s.jobs[j]? = some job ∧ job.live ∧ argString args 3 = some name ∧
    pathFromNotice (noticeName job.url sensorStatusInform) name = some combine ∧ findRelay s combine = some i
  sensor : s.sensors[i]? = some sn
  relayed : sn.origin.isSome
  status : (argString args 4).bind statusCode = some status
  value : (argString args 5).bind (sn.more.reads fl) = some v

/-- The sensor has the status and the value, and each event subscriber that saw another of
them is sent exactly these. -/
def StatusRelayed (fl : Doubles F) (s : RelayState F) (j : Nat) (args : Words) (now : Timeval) (i : Nat)
    (sn : RelaySensor F) (status : SensorStatus) (v : SensorValue F) : Prop :=
  ∃ t told sx, deliverStatus fl s j args now = some (t, told) ∧ t.sensors[i]? = some sx ∧
    sx.sStatus = status ∧ sx.more.current = v ∧
    ∀ (k : Nat) (ns : RelayNonsense F), sn.sNonsense[k]? = some ns → ns.nStrategy = .event → ns.SawOther fl status v →
      told[k]? = some (some ⟨sensorStatusInform, sn.sName, statusName status, sn.more.valueText fl v⟩)

theorem propagate_told {k : Nat} {st : SensorStatus} {now : Timeval} (hextract : sn.more.extract fl sn.sStatus = some (more, st))
    (hns : sn.sNonsense[k]? = some ns) (he : ns.nStrategy = .event) (hcurrent : ns.Current fl)
    (hsaw : ns.SawOther fl st more.current) : (propagateAcquire fl sn now).2[k]? =
      some (some ⟨sensorStatusInform, sn.sName, statusName st, more.valueText fl more.current⟩) := by
  rw [propagateAcquire, hextract]
  dsimp only
  rw [List.getElem?_map, List.getElem?_map, hns, Option.map_some, Option.map_some]
  have htell : (informClient fl { sn with more := more, sStatus := st } now ns).2 = _ ∨ _ :=
    (informClient_event he hcurrent).2
  rcases htell with htold | ⟨hstatus, hsame⟩
  · rw [htold]
    rfl
  · obtain ⟨st', x, hshown, hother⟩ := hsaw
    obtain ⟨hst, hx⟩ := hcurrent st' x hshown
    refine absurd ⟨hst.symm.trans hstatus, ?_⟩ hother
    rcases hx with rfl | hx
    · exact hsame
    · exact sameValue_trans hx hsame

theorem propagate_extracted {now : Timeval} {st : SensorStatus} (h : sn.more.extract fl sn.sStatus = some (more, st)) :
    (propagateAcquire fl sn now).1.sStatus = st ∧ (propagateAcquire fl sn now).1.more = more := by
  rw [propagateAcquire, h]
  exact ⟨rfl, rfl⟩

theorem deliver_status {j i : Nat} {args : Words} {now : Timeval} (hinv : RelayInv fl s)
    (h : StatusInform fl s j args i sn S w) : StatusRelayed fl s j args now i sn S w ↔ sn.more.Takes fl w S := by
  obtain ⟨job, name, combine, hjob, hlive, hname, hpath, hfind⟩ := h.named
  obtain ⟨status, hstatus, hcode⟩ := Option.bind_eq_some_iff.mp h.status
  obtain ⟨text, htext, hread⟩ := Option.bind_eq_some_iff.mp h.value
  have hattached := hinv.attached j job hjob hlive
  have hmatch : matchSensorStatus fl s (noticeName job.url sensorStatusInform) args now =
      (scanned fl sn (some text)).map (updateStatus fl s i (some status) now) := by
    rw [matchSensorStatus_named h.inform (by decide) hname (Or.inl (by rw [hstatus]; rfl)) hpath, hfind]
    dsimp only
    rw [h.sensor, Option.bind_some, hstatus, htext]
  have hdeliver : deliverStatus fl s j args now = ((scanned fl sn (some text)).map (updateStatus fl s i (some status) now)).map
      fun out => (out.2.1.setJob j { job with statuses := 0 < out.1 }, out.2.2) := by
    rw [deliverStatus, hjob]
    dsimp only
    rw [if_neg (by simp [hlive]), if_neg (by simp [hattached]), hmatch]
  rcases scan_arrives S hread with ⟨hcrash, hno⟩ | ⟨mx, my, st, hscan, hextract, hshow, htakes⟩
  · refine iff_of_false ?_ hno
    rintro ⟨t, told, sx, hd, _⟩
    rw [hdeliver, scanned, hcrash] at hd
    cases hd
  · have harrived : deliverStatus fl s j args now = some
        ((s.setSensor i (propagateAcquire fl { sn with more := mx, sStatus := S } now).1).setJob j
          { job with statuses := true }, (propagateAcquire fl { sn with more := mx, sStatus := S } now).2) := by
      rw [hdeliver, scanned, hscan]
      simp only [Option.map_some, updateStatus, hcode]
      rfl
    have hplace : ((s.setSensor i (propagateAcquire fl { sn with more := mx, sStatus := S } now).1).setJob j
        { job with statuses := true }).sensors[i]? =
          some (propagateAcquire fl { sn with more := mx, sStatus := S } now).1 := by
      obtain ⟨hlt, _⟩ := List.getElem?_eq_some_iff.mp h.sensor
      exact List.getElem?_set_self hlt
    obtain ⟨hst, hmore⟩ : (propagateAcquire fl { sn with more := mx, sStatus := S } now).1.sStatus = st ∧ _ :=
      propagate_extracted hextract
    rw [htakes]
    constructor
    · rintro ⟨t, told, sx, hd, hsx, hS, hw, _⟩
      rw [harrived] at hd
      cases hd
      rw [hplace] at hsx
      cases hsx
      rw [← hst, ← hmore]
      exact ⟨hS, hw⟩
    · rintro ⟨rfl, hw⟩
      refine ⟨_, _, _, harrived, hplace, hst, by rw [hmore, hw], fun k ns hns he hsaw => ?_⟩
      have hkept := hinv.kept sn (List.mem_of_getElem? h.sensor) h.relayed ns (List.mem_of_getElem? hns) he
      rw [← hw] at hsaw
      rw [← hshow, ← hw]
      exact propagate_told hextract hns he hkept hsaw

/-- However the subordinates, the clients and the local sensors go about it, a status inform is
relayed if and only if the sensor can take the value with the status. -/
theorem relayed_status_iff {log : List (Option SensorUpdate)} (h : (relayMachine fl).Runs (RelayOk fl) s log)
    (j i : Nat) (args : Words) (now : Timeval) (hinform : StatusInform fl s j args i sn S w) :
    StatusRelayed fl s j args now i sn S w ↔ sn.more.Takes fl w S :=
  deliver_status (relay_run_inv h) hinform

def roach : KatcpUrl := createKurl (textOf "katcp") (textOf "roach") 7147 (some (textOf "/"))

/-- An integer with the limits that the inform gives it. -/
def declares (limits : Words) : List (RelayAction Int) :=
  [.connect (.host (textOf "roach") 7147), .list 0 ([textOf "#sensor-list", textOf "temp", textOf "heat", textOf "C", textOf "integer"] ++ limits)
    ⟨0, .none, 0, 0, 0, 0⟩]

def reports (status value : Text) : Words :=
  [textOf "#sensor-status", textOf "0", textOf "1", textOf "temp", status, value]

/-- What comes of it, with limits of the code's own. -/
def declared (nomMin nomMax : Int) : RelayState Int :=
  ⟨0, [⟨roach, true, true, true⟩], [⟨textOf "roach.temp", 0, .unknown, [],
    .integer (createSensorInteger nomMin nomMax 0 0) 0, some (roach, textOf "temp")⟩]⟩

theorem declared_informs {nomMin nomMax : Int} {status : Text} (hstatus : argString [status] 0 = some status)
    (hcode : statusCode status = some S) : ∃ sn, StatusInform wholeDoubles (declared nomMin nomMax) 0
      (reports status (textOf "5")) 0 sn S (.int 5) ∧ sn.more = .integer (createSensorInteger nomMin nomMax 0 0) 0 := by
  have harg : argString (reports status (textOf "5")) 4 = some status := hstatus
  refine ⟨_, ⟨rfl, ⟨_, textOf "temp", textOf "roach.temp", rfl, rfl, rfl, by decide, rfl⟩, rfl, rfl, ?_, rfl⟩, rfl⟩
  rw [harg, Option.bind_some, hcode]

theorem relayed_status_iff_unlimited : ∃ sn, StatusRelayed wholeDoubles (declared 0 0) 0
    (reports (textOf "warn") (textOf "5")) ⟨1, 0⟩ 0 sn .warn (.int 5) := by
  have hruns : (relayMachine wholeDoubles).Runs (RelayOk wholeDoubles) (declared 0 0) [] :=
    Machine.Runs.exec .start (declares []) rfl ⟨trivial, fun _ _ => ⟨trivial, fun _ _ => trivial⟩⟩
  have hcode : statusCode (textOf "warn") = some .warn := by decide
  obtain ⟨sn, hinform, hmore⟩ := declared_informs (by decide) hcode
  refine ⟨sn, (relayed_status_iff hruns 0 0 _ ⟨1, 0⟩ hinform).mpr ?_⟩
  rw [hmore]
  exact ⟨by decide, trivial⟩

/-- The limits that a subordinate lists are looked at again here. -/
theorem limits_overrule_status : ¬ ∀ (F : Type) (fl : Doubles F) (s : RelayState F) (log : List (Option SensorUpdate))
    (j i : Nat) (args : Words) (now : Timeval) (sn : RelaySensor F) (S : SensorStatus) (w : SensorValue F),
    (relayMachine fl).Runs (fun _ _ => True) s log → StatusInform fl s j args i sn S w →
      StatusRelayed fl s j args now i sn S w := by
  intro hall
  have hruns : (relayMachine wholeDoubles).Runs (fun _ _ => True) (declared 0 10) [] :=
    Machine.Runs.exec .start (declares [textOf "0", textOf "10"]) rfl (Machine.meets_true _ _ _)
  have hcode : statusCode (textOf "error") = some .error := by decide
  obtain ⟨sn, hinform, _⟩ := declared_informs (by decide) hcode
  obtain ⟨t, told, sx, hdeliver, hsx, hstatus, _⟩ := hall _ _ _ _ _ _ _ ⟨1, 0⟩ _ _ _ hruns hinform
  cases hdeliver
  cases hsx
  cases hstatus

end Katcp
