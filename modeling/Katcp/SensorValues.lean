import Katcp.Kurl
import Katcp.PollCommand

namespace Katcp

/-- What the sensors use of a `double`. -/
structure Doubles (F : Type) where
  zero : F
  one : F
  less : F → F → Bool
  same : F → F → Bool
  /-- The difference of two, taken without its sign, is less than the third. -/
  within : F → F → F → Bool
  strtod : Text → F
  written : F → Text
  same_trans : ∀ {x y z}, same x y → same x z → same y z

inductive SensorStatus where
  | unknown | nominal | warn | error | failure | unreachable | inactive
  deriving DecidableEq, Repr

/-- `status_name_sensor_katcp` -/
def statusName : SensorStatus → Text
  | .unknown => textOf "unknown"
  | .nominal => textOf "nominal"
  | .warn => textOf "warn"
  | .error => textOf "error"
  | .failure => textOf "failure"
  | .unreachable => textOf "unreachable"
  | .inactive => textOf "inactive"

/-- `status_code_sensor_katcl` -/
def statusCode (name : Text) : Option SensorStatus :=
  [SensorStatus.unknown, .nominal, .warn, .error, .failure, .unreachable, .inactive].find?
    fun status => name = statusName status

/-- `type_code_sensor_katcp`; the name of the big integers is taken for plain ones. -/
def typeCode (name : Text) : Option SensorType :=
  if name = textOf "integer" then some .integer
  else if name = textOf "boolean" then some .boolean
  else if name = textOf "discrete" then some .discrete
  else if name = textOf "float" then some .float
  else none

inductive SensorChecks where
  | none | single | fast | full
  deriving DecidableEq, Repr

/-- `katcp_integer_sensor`, also that of a boolean, and `katcp_double_sensor`. -/
structure CheckedSensor (α : Type) where
  current : α
  checks : SensorChecks
  nominalMin : α
  nominalMax : α
  warningMin : α
  warningMax : α
  deriving DecidableEq, Repr

section

variable {α : Type} (less : α → α → Bool)

/-- What `create_sensor_integer_katcp` and `create_sensor_double_katcp` do with the limits. -/
def createChecked (zero nomMin nomMax warnMin warnMax : α) : CheckedSensor α :=
  let checks :=
    if less nomMin nomMax then
      if less warnMin warnMax then
        if less warnMin nomMin && less nomMax warnMax then .fast else .full
      else .single
    else .none
  ⟨zero, checks, nomMin, nomMax, warnMin, warnMax⟩

namespace CheckedSensor

variable (is : CheckedSensor α) (v : α)

def checkSingle : SensorStatus :=
  if less v is.nominalMin || less is.nominalMax v then .warn else .nominal

def checkFast : SensorStatus :=
  if less v is.nominalMin then
    if less v is.warningMin then .error else .warn
  else if less is.nominalMax v then
    if less is.warningMax v then .error else .warn
  else .nominal

/-- The status that an extract function leaves. -/
def extractStatus (status : SensorStatus) : SensorStatus :=
  match is.checks with
  -- what comes of the warning limits is set first, and overwritten as the case falls through
  | .full => is.checkSingle less v
  | .single => is.checkSingle less v
  | .fast => is.checkFast less v
  | .none => status

end CheckedSensor

end

def intLess (m n : Int) : Bool := m < n

def createSensorInteger : Int → Int → Int → Int → CheckedSensor Int := createChecked intLess 0

/-- The checks and the nominal limits are what the memory held before. -/
def createSensorBoolean (memory : CheckedSensor Int) : CheckedSensor Int :=
  { memory with current := 0, warningMin := 0, warningMax := 1 }

/-- `katcp_discrete_sensor` -/
structure DiscreteSensor where
  current : Nat
  vector : List (Option Text)
  deriving DecidableEq, Repr

/-- A value as it is acquired, held by a sensor and remembered for a client. -/
inductive SensorValue (F : Type) where
  | int (n : Int)
  | index (i : Nat)
  | double (x : F)
  deriving DecidableEq, Repr

/-- A sensor's own state with the current value of the acquire it is linked to. -/
inductive SensorMore (F : Type) where
  | integer (is : CheckedSensor Int) (acquired : Int)
  | boolean (is : CheckedSensor Int) (acquired : Int)
  | discrete (ds : DiscreteSensor) (acquired : Nat)
  | float (ds : CheckedSensor F) (acquired : F)
  deriving DecidableEq, Repr

namespace SensorMore

variable {F : Type} (fl : Doubles F)

def current : SensorMore F → SensorValue F
  | .integer is _ => .int is.current
  | .boolean is _ => .int is.current
  | .discrete ds _ => .index ds.current
  | .float ds _ => .double ds.current

/-- `c_extract`, without a value if it fails. -/
def extract (more : SensorMore F) (status : SensorStatus) : Option (SensorMore F × SensorStatus) :=
  match more with
  | .integer is v => some (.integer { is with current := v } v, is.extractStatus intLess v status)
  | .boolean is v => some (.boolean { is with current := v } v, is.extractStatus intLess v status)
  | .discrete ds i => if ds.vector.length < i then none else some (.discrete { ds with current := i } i, status)
  | .float ds v => some (.float { ds with current := v } v, ds.extractStatus fl.less v status)

/-- What the append functions write of a value. -/
def valueText (more : SensorMore F) : SensorValue F → Text
  | .int n => decimalText n
  | .index i =>
    match more with
    | .discrete ds _ => (ds.vector[i]?.join).getD []
    | _ => []
  | .double x => fl.written x

end SensorMore

/-- The difference of two machine integers, without its sign, is less than a third. -/
def withinBits {w : Nat} (x y delta : BitVec w) : Bool := (x - y).abs.slt delta

namespace Doubles

variable {F : Type} (fl : Doubles F)

/-- The comparison of two values of one sensor. -/
def sameValue : SensorValue F → SensorValue F → Bool
  | .int m, .int n => m = n
  | .index i, .index j => i = j
  | .double x, .double y => fl.same x y
  | _, _ => false

def withinValue : SensorValue F → SensorValue F → SensorValue F → Bool
  | .int m, .int n, .int delta => withinBits (.ofInt 32 m) (.ofInt 32 n) (.ofInt 32 delta)
  | .double x, .double y, .double delta => fl.within x y delta
  | _, _, _ => false

end Doubles

def hexDigit (c : Byte) : Nat :=
  if isDigit c then c.toNat - 48 else (toLower c).toNat - 87

def digitsIn (base : Nat) (digits : Text) : Nat := digits.foldl (fun v c => v * base + hexDigit c) 0

def strtolSize (body : Text) : Nat :=
  match (afterWord (textOf "0x") body).filter fun rest => rest.head?.any isHex with
  | some rest => digitsIn 16 (rest.takeWhile isHex)
  | none =>
    if body.head? = some (byte '0') then digitsIn 8 (body.takeWhile isOctal)
    else digitsIn 10 (body.takeWhile isDigit)

/-- The number that `strtol` to the base zero finds, whatever its size. -/
def strtolValue (s : Text) : Int :=
  let start := s.dropWhile isSpace
  let n : Int := strtolSize (afterSign start)
  if start.head? = some (byte '-') then -n else n

/-- A `long`, cut off to an `int`. -/
def longToInt (v : Int) : Int := (max (-(2 ^ 63)) (min v (2 ^ 63 - 1))).bmod (2 ^ 32)

/-- `get_signed_long_parse_katcl` into an `int` -/
def getInt (args : Words) (index : Nat) : Int :=
  match args[index]? with
  | none => 0
  | some arg => longToInt (strtolValue (cString arg))

def getDouble {F : Type} (fl : Doubles F) (args : Words) (index : Nat) : F :=
  match args[index]? with
  | none => fl.zero
  | some arg => fl.strtod (cString arg)

def scanValueIntbool (value : Text) : Option Int :=
  if endsDelta (strtolEnd value) then some (longToInt (strtolValue value)) else none

/-- The loop of `scan_value_discrete_katcp`; the outer `none` is a crash. -/
def scanVector (value : Text) : List (Option Text) → Nat → Option (Option Nat)
  | [], _ => some none
  | none :: _, _ => none
  | some t :: vector, i => if t = value then some (some i) else scanVector value vector (i + 1)

/-- `scan_value_sensor_katcp` -/
def scanValue {F : Type} (fl : Doubles F) (more : SensorMore F) (value : Text) : Option (Option (SensorMore F)) :=
  match more with
  | .integer is _ => some ((scanValueIntbool value).map (.integer is))
  | .boolean is _ => some ((scanValueIntbool value).map (.boolean is))
  | .discrete ds _ => (scanVector value ds.vector 0).map fun found => found.map (.discrete ds)
  | .float ds _ => some (if endsDelta (strtodEnd value) then some (.float ds (fl.strtod value)) else none)

example : strtolValue (textOf " -0x1f z") = -31 := by decide

/-- Whole numbers in the place of the doubles. -/
def wholeDoubles : Doubles Int where
  zero := 0
  one := 1
  less := intLess
  same x y := x = y
  within x y delta := (x - y).natAbs < delta
  strtod := strtolValue
  written := decimalText
  same_trans h h' := by simp_all

/-- `create_sensor_bigint_katcp` -/
def createSensorBigint : Int → Int → Int → Int → CheckedSensor Int := createChecked intLess 0

/-- `extract_bigint_katcp` -/
def extractBigint (bs : CheckedSensor Int) (v : Int) (status : SensorStatus) : CheckedSensor Int × SensorStatus :=
  ({ bs with current := v }, bs.extractStatus intLess v status)

/-- What a value is by the two ranges. -/
def limitStatus (nomMin nomMax warnMin warnMax v : Int) : SensorStatus :=
  if v < warnMin ∨ warnMax < v then .error
  else if v < nomMin ∨ nomMax < v then .warn
  else .nominal

section

variable {nomMin nomMax warnMin warnMax v : Int}

lemma checkFast_eq (checks : SensorChecks) (current : Int) (hnom : nomMin < nomMax)
    (hinside : warnMin < nomMin ∧ nomMax < warnMax) :
    (CheckedSensor.mk current checks nomMin nomMax warnMin warnMax).checkFast intLess v =
      limitStatus nomMin nomMax warnMin warnMax v := by
  obtain ⟨hmin, hmax⟩ := hinside
  simp only [CheckedSensor.checkFast, intLess, limitStatus, decide_eq_true_eq]
  split_ifs <;> first | rfl | omega

lemma checkSingle_eq_iff (checks : SensorChecks) (current : Int) :
    (CheckedSensor.mk current checks nomMin nomMax warnMin warnMax).checkSingle intLess v =
      limitStatus nomMin nomMax warnMin warnMax v ↔ warnMin ≤ v ∧ v ≤ warnMax := by
  simp only [CheckedSensor.checkSingle, intLess, limitStatus, Bool.or_eq_true, decide_eq_true_eq]
  by_cases hout : v < warnMin ∨ warnMax < v
  · rw [if_pos hout]
    split_ifs <;> simp <;> omega
  · rw [if_neg hout]
    simp only [true_iff]
    omega

lemma extractStatus_eq_iff (hnom : nomMin < nomMax) (hwarn : warnMin < warnMax) (status : SensorStatus) :
    (createChecked intLess 0 nomMin nomMax warnMin warnMax).extractStatus intLess v status =
      limitStatus nomMin nomMax warnMin warnMax v ↔
      (warnMin < nomMin ∧ nomMax < warnMax) ∨ (warnMin ≤ v ∧ v ≤ warnMax) := by
  have hnom' : intLess nomMin nomMax = true := decide_eq_true hnom
  have hwarn' : intLess warnMin warnMax = true := decide_eq_true hwarn
  have hboth : (intLess warnMin nomMin && intLess nomMax warnMax) = true ↔ warnMin < nomMin ∧ nomMax < warnMax := by
    simp [intLess]
  simp only [createChecked, hnom', hwarn', if_true, hboth]
  by_cases hinside : warnMin < nomMin ∧ nomMax < warnMax
  · rw [if_pos hinside]
    exact iff_of_true (checkFast_eq .fast 0 hnom hinside) (.inl hinside)
  · rw [if_neg hinside, or_iff_right hinside]
    exact checkSingle_eq_iff .full 0

end

/-- The last part is about the two modes with the same limits. -/
theorem limits_classified {F : Type} (fl : Doubles F) {nomMin nomMax warnMin warnMax v : Int}
    (hnom : nomMin < nomMax) (hwarn : warnMin < warnMax) (status : SensorStatus) :
    ((((SensorMore.integer (createSensorInteger nomMin nomMax warnMin warnMax) v).extract fl status).map Prod.snd =
        some (limitStatus nomMin nomMax warnMin warnMax v) ∧
      (extractBigint (createSensorBigint nomMin nomMax warnMin warnMax) v status).2 =
        limitStatus nomMin nomMax warnMin warnMax v) ↔
      (warnMin < nomMin ∧ nomMax < warnMax) ∨ (warnMin ≤ v ∧ v ≤ warnMax)) ∧
    (warnMin < nomMin → nomMax < warnMax → ∀ current : Int,
      ((CheckedSensor.mk current .full nomMin nomMax warnMin warnMax).extractStatus intLess v status =
        (CheckedSensor.mk current .fast nomMin nomMax warnMin warnMax).extractStatus intLess v status ↔
      warnMin ≤ v ∧ v ≤ warnMax)) := by
  have hiff := extractStatus_eq_iff (v := v) hnom hwarn status
  refine ⟨⟨fun ⟨_, hbig⟩ => hiff.mp hbig, fun h => ⟨?_, hiff.mpr h⟩⟩, fun hmin hmax current => ?_⟩
  · exact congrArg some (hiff.mpr h)
  · have hfast := checkFast_eq (v := v) .fast current hnom ⟨hmin, hmax⟩
    change CheckedSensor.checkSingle intLess _ v = CheckedSensor.checkFast intLess _ v ↔ _
    rw [hfast]
    exact checkSingle_eq_iff .full current

theorem limits_classified_crossing :
    (extractBigint (createSensorBigint 0 10 (-5) 10) 7 .unknown).2 = .nominal ∧
      (extractBigint (createSensorBigint 0 10 (-5) 10) (-5) .unknown).2 = .warn := by
  have hnom : (0 : Int) < 10 := by decide
  have hwarn : (-5 : Int) < 10 := by decide
  have hseven := (limits_classified wholeDoubles (v := 7) hnom hwarn .unknown).1.mpr (.inr (by decide))
  have hfive := (limits_classified wholeDoubles (v := -5) hnom hwarn .unknown).1.mpr (.inr (by decide))
  exact ⟨hseven.2, hfive.2⟩

/-- A value far outside both ranges, as far as the nominal one alone. -/
theorem limits_overwritten :
    ¬ ∀ nomMin nomMax warnMin warnMax v : Int, nomMin < nomMax → warnMin < warnMax → ∀ status : SensorStatus,
      ((SensorMore.integer (createSensorInteger nomMin nomMax warnMin warnMax) v).extract wholeDoubles status).map
        Prod.snd = some (limitStatus nomMin nomMax warnMin warnMax v) := by
  intro h
  exact absurd (h 0 10 0 10 20 (by decide) (by decide) .unknown) (by decide)

end Katcp
