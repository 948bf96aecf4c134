import Katcp.AvlInsert
import Katcp.KeyedList
import Katcp.PastTime
import Katcp.SortedVector

namespace Katcp

open SortedVector

variable {δ : Type}

/-- The functions that a type is registered with. -/
structure TypeFunctions where
  fnPrint : Nat
  fnFree : Nat
  fnCopy : Nat
  fnCompare : Nat
  fnParse : Nat
  fnGetkey : Nat
  deriving DecidableEq, Repr

structure KatcpType (δ : Type) where
  tName : Text
  tDep : Int
  tTree : KeyedList Text δ
  fns : TypeFunctions

/-- The types of the shared state; `gone` when the memory of the vector was given back. -/
structure TypeVector (δ : Type) where
  sType : List (Option (KatcpType δ))
  gone : Bool

/-- How a name compares with that of the type at an index. -/
def probeType (ts : List (Option (KatcpType δ))) (str : Text) (i : Nat) : Option Ordering :=
  ts[i]?.join.map fun t => strcmp str t.tName

/-- `binary_search_type_list_katcp` for a name. -/
def binarySearchTypeList (ts : List (Option (KatcpType δ))) (str : Text) : Option Int :=
  if ts.length = 0 then some (-1) else search (probeType ts str) (ts.length + 1) 0 (ts.length - 1)

def registerAtId (s : TypeVector δ) (tid : Int) (tname : Text) (dep : Int) (fns : TypeFunctions) :
    Option (TypeVector δ × Int) :=
  if s.gone ∨ tid < 0 then none
  else
    let size := s.sType.length
    let i := min tid.toNat size
    let ts := (shiftUp tid.toNat size (s.sType ++ [none])).set i (some ⟨tname, dep, [], fns⟩)
    some ({ s with sType := ts }, i)

def registerNameType (s : TypeVector δ) (name : Text) (dep : Int) (fns : TypeFunctions) :
    Option (TypeVector δ × Int) :=
  if s.gone then none
  else do
    let pos ← binarySearchTypeList s.sType name
    if 0 ≤ pos then some (s, -1) else registerAtId s ((pos + 1) * -1) name dep fns

/-- `deregister_type_katcp`: given no bytes to keep, `realloc` frees the vector and returns NULL. -/
def deregisterType (s : TypeVector δ) (name : Text) : Option (TypeVector δ × Int) :=
  if s.gone then none
  else do
    let size := s.sType.length
    let pos ← binarySearchTypeList s.sType name
    if pos < 0 then some (s, -1)
    else
      let ts := shiftDown (size - 1 - pos.toNat) pos.toNat (s.sType.set pos.toNat none)
      if size - 1 = 0 then some (⟨ts, true⟩, -1) else some ({ s with sType := ts.take (size - 1) }, 0)

/-- `store_data_at_type_katcp`. -/
def storeDataAtType (t : KatcpType δ) (name : Text) (data : δ) (fns : TypeFunctions) : KatcpType δ × Int :=
  if t.fns ≠ fns then (t, -1)
  else if (t.tTree.find strcmp name).isSome then (t, -1)
  else ({ t with tTree := t.tTree.put strcmp name data }, 0)

def storeDataType (s : TypeVector δ) (tname : Text) (dep : Int) (dname : Text) (data : δ) (fns : TypeFunctions) :
    Option (TypeVector δ × Int) :=
  if s.gone then none
  else do
    let pos ← binarySearchTypeList s.sType tname
    let (s, pos) ← if pos < 0 then registerAtId s ((pos + 1) * -1) tname dep fns else some (s, pos)
    let t ← s.sType[pos.toNat]?.join
    let (t, r) := storeDataAtType t dname data fns
    some ({ s with sType := s.sType.set pos.toNat (some t) }, r)

def findNameId (s : TypeVector δ) (str : Text) : Option Int :=
  if s.gone then none else binarySearchTypeList s.sType str

inductive TypeCall (δ : Type) where
  | register (name : Text) (dep : Int) (fns : TypeFunctions)
  | store (tname : Text) (dep : Int) (dname : Text) (data : δ) (fns : TypeFunctions)
  | deregister (name : Text)

def TypeVector.call (s : TypeVector δ) : TypeCall δ → Option (TypeVector δ × Int)
  | .register name dep fns => registerNameType s name dep fns
  | .store tname dep dname data fns => storeDataType s tname dep dname data fns
  | .deregister name => deregisterType s name

/-- What a call on a type returned. -/
inductive TypeEvent where
  | registered (name : Text) (result : Int)
  | stored (name : Text) (result : Int)
  | deregistered (name : Text) (result : Int)
  deriving DecidableEq, Repr

def TypeCall.event (r : Int) : TypeCall δ → TypeEvent
  | .register name _ _ => .registered name r
  | .store name _ _ _ _ => .stored name r
  | .deregister name => .deregistered name r

def typeMachine (δ : Type) : Machine (TypeVector δ) (TypeCall δ) TypeEvent where
  start := ⟨[], false⟩
  step s c := (s.call c).map Prod.fst
  emits s c := ((s.call c).map fun r => c.event r.2).toList

/-- The only type there is stays. -/
def keepsOne (s : TypeVector δ) : TypeCall δ → Prop
  | .deregister name => ∀ t, s.sType = [some t] → t.tName ≠ name
  | _ => True

def holdsName (name : Text) (held : Bool) : TypeEvent → Bool
  | .registered n _ | .stored n _ => if n = name then true else held
  | .deregistered n _ => if n = name then false else held

/-- A name is registered: since the last call to register it, or to store under it, there was none to
deregister it. -/
def registeredIn (log : List TypeEvent) (name : Text) : Bool := log.foldl (holdsName name) false

/-- A registered type is deregistered, and one that is not is registered. -/
def rightAnswer (log : List TypeEvent) : TypeEvent → Prop
  | .registered name r => if registeredIn log name then r = -1 else 0 ≤ r
  | .stored name r => registeredIn log name = false → r = 0
  | .deregistered name r => r = if registeredIn log name then 0 else -1

/-- The vector has each registered type once, in the order of their names. -/
structure Filed (s : TypeVector δ) (log : List TypeEvent) : Prop where
  kept : s.gone = false
  sorted : ∃ types : List (KatcpType δ), s.sType = types.map some ∧
    types.Pairwise (fun t u => strcmp t.tName u.tName = .lt)
  finds : ∀ name, ∃ r, findNameId s name = some r ∧ Answer (probeType s.sType name) s.sType.length r ∧
    (0 ≤ r ↔ registeredIn log name = true)
  answers : Always rightAnswer log
  goes : ∀ c, (s.call c).isSome

section

variable {s : TypeVector δ} {types : List (KatcpType δ)} {name : Text} {log : List TypeEvent} {dep r : Int}
  {fns : TypeFunctions} {t u : KatcpType δ}

/-- The types of a vector, in the order of their names. -/
structure Lists (s : TypeVector δ) (types : List (KatcpType δ)) : Prop where
  kept : s.gone = false
  vector : s.sType = types.map some
  sorted : types.Pairwise fun t u => KeyLt t.tName u.tName

def Named (types : List (KatcpType δ)) (name : Text) : Prop := ∃ t ∈ types, t.tName = name

theorem probeType_map (types : List (KatcpType δ)) (name : Text) (i : Nat) :
    probeType (types.map some) name i = types[i]?.map fun t => strcmp name t.tName := by
  rw [probeType, List.getElem?_map]
  cases types[i]? <;> rfl

theorem probeType_of_get {i : Nat} (h : types[i]? = some t) :
    probeType (types.map some) name i = some (strcmp name t.tName) := by
  rw [probeType_map, h]
  rfl

theorem aimed_types (h : types.Pairwise fun t u => KeyLt t.tName u.tName) (name : Text) :
    Aimed (probeType (types.map some) name) types.length where
  probed i hi := by
    rw [probeType_of_get (List.getElem?_eq_getElem hi)]
    rfl
  rises i j hij hj hne := by
    have hi : i < types.length := by omega
    have hlt := List.pairwise_iff_getElem.mp h i j hi hj hij
    rw [probeType_of_get (List.getElem?_eq_getElem hi)] at hne
    rw [probeType_of_get (List.getElem?_eq_getElem hj)]
    cases ho : strcmp name types[i].tName with
    | gt => exact absurd (congrArg some ho) hne
    | eq =>
      rw [eq_of_strcmp ho]
      exact congrArg some hlt
    | lt => exact congrArg some (KeyLt.trans ho hlt)

theorem named_iff_probe : Named types name ↔ ∃ i, i < types.length ∧ probeType (types.map some) name i = some .eq := by
  constructor
  · rintro ⟨t, ht, rfl⟩
    obtain ⟨i, hi, rfl⟩ := List.mem_iff_getElem.mp ht
    refine ⟨i, hi, ?_⟩
    rw [probeType_of_get (List.getElem?_eq_getElem hi), strcmp_self]
  · rintro ⟨i, hi, he⟩
    rw [probeType_of_get (List.getElem?_eq_getElem hi)] at he
    exact ⟨types[i], List.getElem_mem hi, (eq_of_strcmp (Option.some.inj he)).symm⟩

/-- The search of the types finds a name when there is one. -/
theorem Lists.search (h : Lists s types) (name : Text) :
    ∃ r, binarySearchTypeList s.sType name = some r ∧ Answer (probeType s.sType name) s.sType.length r ∧
      (0 ≤ r ↔ Named types name) := by
  have hlen : s.sType.length = types.length := by rw [h.vector, List.length_map]
  have haim : Aimed (probeType s.sType name) s.sType.length := by
    rw [hlen, h.vector]
    exact aimed_types h.sorted name
  have hnamed : ∀ r, Answer (probeType s.sType name) s.sType.length r → (0 ≤ r ↔ Named types name) := by
    intro r hr
    rw [hr.nonneg_iff, named_iff_probe, hlen, h.vector]
  unfold binarySearchTypeList
  by_cases hzero : s.sType.length = 0
  · have hanswer : Answer (probeType s.sType name) s.sType.length (-1 * ((0 : Nat) + 1)) :=
      .absent (Nat.zero_le _) (fun j hj => by omega) (fun j _ hj => by omega)
    exact ⟨-1, if_pos hzero, hanswer, hnamed _ hanswer⟩
  · obtain ⟨r, hr, hanswer⟩ := search_all haim
    exact ⟨r, (if_neg hzero).trans hr, hanswer, hnamed _ hanswer⟩

/-- Where the search has not found a name, there is its place. -/
theorem Lists.place (h : Lists s types) (hanswer : Answer (probeType s.sType name) s.sType.length r) (hr : r < 0) :
    ∃ i, (r + 1) * -1 = (i : Nat) ∧ i ≤ types.length ∧ (∀ t ∈ types.take i, KeyLt t.tName name) ∧
      ∀ t ∈ types.drop i, KeyLt name t.tName := by
  have hlen : s.sType.length = types.length := by rw [h.vector, List.length_map]
  obtain ⟨i, hi, hle, hbelow, habove⟩ := hanswer.absent_of_neg hr
  rw [h.vector] at hbelow habove
  rw [hlen] at hle
  refine ⟨i, by omega, hle, fun t ht => ?_, fun t ht => ?_⟩
  · obtain ⟨j, hj, rfl⟩ := List.mem_iff_getElem.mp ht
    rw [List.length_take] at hj
    have hget : types[j]? = some (types.take i)[j] := by
      rw [List.getElem_take]
      exact List.getElem?_eq_getElem (by omega)
    have hgt := hbelow j (by omega)
    rw [probeType_of_get hget] at hgt
    exact keyLt_of_gt (Option.some.inj hgt)
  · obtain ⟨j, hj, rfl⟩ := List.mem_iff_getElem.mp ht
    rw [List.length_drop] at hj
    have hget : types[i + j]? = some (types.drop i)[j] := by
      rw [List.getElem_drop]
      exact List.getElem?_eq_getElem (by omega)
    have hlt := habove (i + j) (by omega) (by rw [List.length_map]; omega)
    rw [probeType_of_get hget] at hlt
    exact Option.some.inj hlt

/-- A type is put where the search says. -/
theorem Lists.insert (h : Lists s types) {i : Nat} (hi : i ≤ types.length)
    (hbelow : ∀ t ∈ types.take i, KeyLt t.tName name) (habove : ∀ t ∈ types.drop i, KeyLt name t.tName)
    (dep : Int) (fns : TypeFunctions) :
    ∃ s', registerAtId s i name dep fns = some (s', (i : Int)) ∧
      Lists s' (types.take i ++ ⟨name, dep, [], fns⟩ :: types.drop i) := by
  have hlen : s.sType.length = types.length := by rw [h.vector, List.length_map]
  have hset := @shiftUp_set _ i (types.map some) [] none (some (⟨name, dep, [], fns⟩ : KatcpType δ))
    (by rwa [List.length_map])
  rw [← h.vector, hlen, h.vector] at hset
  refine ⟨{ s with sType := (types.take i ++ ⟨name, dep, [], fns⟩ :: types.drop i).map some }, ?_, h.kept, rfl, ?_⟩
  · rw [registerAtId, if_neg (by simp [h.kept]), Int.toNat_natCast, hlen]
    dsimp only
    rw [Nat.min_eq_left hi, h.vector, hset]
    simp [List.map_take, List.map_drop]
  · have hsplit : types.take i ++ types.drop i = types := List.take_append_drop i types
    have hsorted := h.sorted
    rw [← hsplit] at hsorted
    obtain ⟨hfront, hback, hcross⟩ := List.pairwise_append.mp hsorted
    refine List.pairwise_append.mpr ⟨hfront, List.pairwise_cons.mpr ⟨habove, hback⟩, fun t ht u hu => ?_⟩
    rcases List.mem_cons.mp hu with rfl | hu
    · exact hbelow t ht
    · exact hcross t ht u hu

theorem named_insert (i : Nat) (t : KatcpType δ) (n : Text) :
    Named (types.take i ++ t :: types.drop i) n ↔ n = t.tName ∨ Named types n := by
  have hsplit : ∀ u, u ∈ types ↔ u ∈ types.take i ∨ u ∈ types.drop i := fun u => by
    rw [← List.mem_append, List.take_append_drop]
  constructor
  · rintro ⟨u, hu, rfl⟩
    rcases List.mem_append.mp hu with hu | hu
    · exact .inr ⟨u, (hsplit u).mpr (.inl hu), rfl⟩
    · rcases List.mem_cons.mp hu with rfl | hu
      · exact .inl rfl
      · exact .inr ⟨u, (hsplit u).mpr (.inr hu), rfl⟩
  · rintro (rfl | ⟨u, hu, rfl⟩)
    · exact ⟨t, by simp, rfl⟩
    · rcases (hsplit u).mp hu with hu | hu
      · exact ⟨u, List.mem_append_left _ hu, rfl⟩
      · exact ⟨u, List.mem_append_right _ (List.mem_cons_of_mem _ hu), rfl⟩

/-- A name that is not there is registered where the search says. -/
theorem Lists.register (h : Lists s types) (hanswer : Answer (probeType s.sType name) s.sType.length r) (hr : r < 0)
    (dep : Int) (fns : TypeFunctions) :
    ∃ (s' : TypeVector δ) (i : Nat), registerAtId s ((r + 1) * -1) name dep fns = some (s', (i : Int)) ∧ i ≤ types.length ∧
      Lists s' (types.take i ++ ⟨name, dep, [], fns⟩ :: types.drop i) := by
  obtain ⟨i, hi, hle, hbelow, habove⟩ := h.place hanswer hr
  obtain ⟨s', hs', hlists⟩ := h.insert hle hbelow habove dep fns
  exact ⟨s', i, by rw [hi, hs'], hle, hlists⟩

theorem registerNameType_spec (h : Lists s types) (name : Text) (dep : Int) (fns : TypeFunctions) :
    ∃ s' types' r, registerNameType s name dep fns = some (s', r) ∧ Lists s' types' ∧
      (∀ n, Named types' n ↔ n = name ∨ Named types n) ∧ (Named types name → r = -1) ∧
      (¬ Named types name → 0 ≤ r) := by
  obtain ⟨r, hr, hanswer, hnamed⟩ := h.search name
  by_cases hpos : 0 ≤ r
  · have hin := hnamed.mp hpos
    refine ⟨s, types, -1, ?_, h, fun n => ?_, fun _ => rfl, fun hout => absurd hin hout⟩
    · rw [registerNameType, if_neg (by simp [h.kept]), hr, Option.bind_eq_bind, Option.bind_some, if_pos hpos]
    · exact (or_iff_right_of_imp fun hn => hn ▸ hin).symm
  · obtain ⟨s', i, hs', -, hlists⟩ := h.register hanswer (by omega) dep fns
    refine ⟨s', _, i, ?_, hlists, fun n => named_insert i _ n, fun hin => absurd (hnamed.mpr hin) hpos,
      fun _ => Int.natCast_nonneg i⟩
    rw [registerNameType, if_neg (by simp [h.kept]), hr, Option.bind_eq_bind, Option.bind_some, if_neg hpos, hs']

theorem storeDataAtType_name (t : KatcpType δ) (dname : Text) (data : δ) (fns : TypeFunctions) :
    (storeDataAtType t dname data fns).1.tName = t.tName := by
  unfold storeDataAtType
  split
  · rfl
  · split <;> rfl

/-- What is stored in a type does not change which there are. -/
theorem Lists.edit (h : Lists s types) {i : Nat} (ht : types[i]? = some t) (hname : u.tName = t.tName) :
    Lists { s with sType := s.sType.set i (some u) } (types.set i u) ∧ ∀ n, Named (types.set i u) n ↔ Named types n := by
  have hnames : (types.set i u).map KatcpType.tName = types.map KatcpType.tName := by
    have hself : (types.map KatcpType.tName)[i]? = some t.tName := by rw [List.getElem?_map, ht, Option.map_some]
    obtain ⟨hi', he⟩ := List.getElem?_eq_some_iff.mp hself
    rw [List.map_set, hname, ← he, List.set_getElem_self]
  refine ⟨⟨h.kept, by rw [h.vector, List.map_set], ?_⟩, fun n => ?_⟩
  · have hsorted := List.pairwise_map.mpr h.sorted
    rw [← hnames] at hsorted
    exact List.pairwise_map.mp hsorted
  · have hmem : ∀ ts : List (KatcpType δ), Named ts n ↔ n ∈ ts.map KatcpType.tName := fun ts => by
      rw [List.mem_map]
      rfl
    rw [hmem, hmem, hnames]

theorem storeDataType_spec (h : Lists s types) (name : Text) (dep : Int) (dname : Text) (data : δ)
    (fns : TypeFunctions) :
    ∃ s' types' r, storeDataType s name dep dname data fns = some (s', r) ∧ Lists s' types' ∧
      (∀ n, Named types' n ↔ n = name ∨ Named types n) ∧ (¬ Named types name → r = 0) := by
  obtain ⟨r, hr, hanswer, hnamed⟩ := h.search name
  by_cases hneg : r < 0
  · obtain ⟨s', i, hs', hle, hlists⟩ := h.register hanswer hneg dep fns
    have hget : (types.take i ++ ⟨name, dep, [], fns⟩ :: types.drop i)[i]? = some ⟨name, dep, [], fns⟩ := by
      rw [List.getElem?_append_right (by rw [List.length_take]; omega), List.length_take, Nat.min_eq_left hle,
        Nat.sub_self]
      rfl
    have hentry : s'.sType[i]?.join = some ⟨name, dep, [], fns⟩ := by
      rw [hlists.vector, List.getElem?_map, hget]
      rfl
    obtain ⟨hedit, hsame⟩ := hlists.edit hget (storeDataAtType_name _ dname data fns)
    refine ⟨_, _, 0, ?_, hedit, fun n => (hsame n).trans (named_insert i _ n), fun _ => rfl⟩
    have hfresh : (storeDataAtType (⟨name, dep, [], fns⟩ : KatcpType δ) dname data fns).2 = 0 := by
      simp [storeDataAtType, KeyedList.find]
    rw [storeDataType, if_neg (by simp [h.kept]), hr]
    simp only [Option.bind_eq_bind, Option.bind_some, if_pos hneg, hs', Int.toNat_natCast, hentry, hfresh]
  · have hin := hnamed.mp (by omega)
    obtain ⟨i, rfl, hi, -⟩ := hanswer.found_of_nonneg (by omega)
    have hlen : s.sType.length = types.length := by rw [h.vector, List.length_map]
    have hget : types[i]? = some types[i] := List.getElem?_eq_getElem (by omega)
    have hentry : s.sType[i]?.join = some types[i] := by
      rw [h.vector, List.getElem?_map, hget]
      rfl
    obtain ⟨hedit, hsame⟩ := h.edit hget (storeDataAtType_name _ dname data fns)
    refine ⟨_, _, (storeDataAtType types[i] dname data fns).2, ?_, hedit, fun n => ?_, fun hout => absurd hin hout⟩
    · rw [storeDataType, if_neg (by simp [h.kept]), hr]
      simp only [Option.bind_eq_bind, Option.bind_some, if_neg hneg, Int.toNat_natCast, hentry]
    · exact (hsame n).trans (or_iff_right_of_imp fun hn => hn ▸ hin).symm

/-- A type that is not the only one is taken out. -/
theorem deregisterType_spec (h : Lists s types) (hone : ∀ t, types = [t] → t.tName ≠ name) :
    ∃ s' types' r, deregisterType s name = some (s', r) ∧ Lists s' types' ∧
      (∀ n, Named types' n ↔ n ≠ name ∧ Named types n) ∧ (Named types name → r = 0) ∧
      (¬ Named types name → r = -1) := by
  obtain ⟨r, hr, hanswer, hnamed⟩ := h.search name
  by_cases hneg : r < 0
  · have hout : ¬ Named types name := fun hin => by
      have := hnamed.mpr hin
      omega
    refine ⟨s, types, -1, ?_, h, fun n => ⟨fun hn => ⟨fun he => hout (he ▸ hn), hn⟩, And.right⟩,
      fun hin => absurd hin hout, fun _ => rfl⟩
    rw [deregisterType, if_neg (by simp [h.kept]), hr, Option.bind_eq_bind, Option.bind_some, if_pos hneg]
  · have hin := hnamed.mp (by omega)
    obtain ⟨i, rfl, hi, hfound⟩ := hanswer.found_of_nonneg (by omega)
    have hlen : s.sType.length = types.length := by rw [h.vector, List.length_map]
    have hi' : i < types.length := by omega
    rw [h.vector, probeType_of_get (List.getElem?_eq_getElem hi')] at hfound
    have hname : types[i].tName = name := (eq_of_strcmp (Option.some.inj hfound)).symm
    have hsplit : types = types.take i ++ types[i] :: types.drop (i + 1) := by
      rw [List.getElem_cons_drop, List.take_append_drop]
    have hsorted := h.sorted
    rw [hsplit] at hsorted
    obtain ⟨hfront, hback, hcross⟩ := List.pairwise_append.mp hsorted
    obtain ⟨habove, hback⟩ := List.pairwise_cons.mp hback
    have hmany : types.length ≠ 1 := by
      intro hlast
      obtain ⟨t, ht⟩ := List.length_eq_one_iff.mp hlast
      subst ht
      have hzero : i = 0 := by simpa using hi'
      subst hzero
      exact hone t rfl hname
    have hclose := @shiftDown_take _ ((types.take i).map some) ((types.drop (i + 1)).map some)
      (none : Option (KatcpType δ))
    have hset : s.sType.set i none = (types.take i).map some ++ none :: (types.drop (i + 1)).map some := by
      rw [h.vector, List.map_take, List.map_drop, List.set_eq_take_append_cons_drop, if_pos (by rwa [List.length_map])]
    rw [← hset, List.length_map, List.length_map, List.length_take, List.length_drop, Nat.min_eq_left hi'.le,
      show types.length - (i + 1) = types.length - 1 - i by omega,
      show i + (types.length - 1 - i) = types.length - 1 by omega] at hclose
    refine ⟨{ s with sType := (types.take i ++ types.drop (i + 1)).map some }, _, 0, ?_, ⟨h.kept, rfl, ?_⟩, fun n => ?_,
      fun _ => rfl, fun hout => absurd hin hout⟩
    · rw [deregisterType, if_neg (by simp [h.kept]), hr]
      simp only [Option.bind_eq_bind, Option.bind_some, if_neg hneg, Int.toNat_natCast, hlen,
        if_neg (show ¬ types.length - 1 = 0 by omega), hclose, List.map_append]
    · exact List.pairwise_append.mpr ⟨hfront, hback, fun t ht u hu => hcross t ht u (List.mem_cons_of_mem _ hu)⟩
    · have hbelow : ∀ t ∈ types.take i, KeyLt t.tName name := fun t ht =>
        hname ▸ hcross t ht types[i] List.mem_cons_self
      rw [hname] at habove
      constructor
      · rintro ⟨t, ht, rfl⟩
        rcases List.mem_append.mp ht with ht | ht
        · exact ⟨(hbelow t ht).ne, t, List.mem_of_mem_take ht, rfl⟩
        · exact ⟨(habove t ht).ne.symm, t, List.mem_of_mem_drop ht, rfl⟩
      · rintro ⟨hne, t, ht, rfl⟩
        rw [hsplit] at ht
        rcases List.mem_append.mp ht with ht | ht
        · exact ⟨t, List.mem_append_left _ ht, rfl⟩
        · rcases List.mem_cons.mp ht with rfl | ht
          · exact absurd hname hne
          · exact ⟨t, List.mem_append_right _ ht, rfl⟩

theorem registeredIn_snoc (log : List TypeEvent) (e : TypeEvent) (name : Text) :
    registeredIn (log ++ [e]) name = holdsName name (registeredIn log name) e := by
  rw [registeredIn, List.foldl_append]
  rfl

/-- The types of the vector are those that the calls so far have left registered. -/
structure Reflects (s : TypeVector δ) (types : List (KatcpType δ)) (log : List TypeEvent) : Prop where
  lists : Lists s types
  names : ∀ n, Named types n ↔ registeredIn log n = true
  answers : Always rightAnswer log

theorem Reflects.out (h : Reflects s types log) (hout : ¬ Named types name) : registeredIn log name = false := by
  rw [h.names] at hout
  exact Bool.not_eq_true _ ▸ hout

/-- A call that registers a name. -/
theorem Reflects.gained (h : Reflects s types log) {types' : List (KatcpType δ)} {e : TypeEvent}
    (he : ∀ n held, holdsName n held e = if name = n then true else held)
    (hnames : ∀ n, Named types' n ↔ n = name ∨ Named types n) (n : Text) :
    Named types' n ↔ registeredIn (log ++ [e]) n = true := by
  rw [registeredIn_snoc, hnames, h.names, he]
  by_cases hn : n = name
  · simp [hn]
  · simp [hn, Ne.symm hn]

/-- A call that meets the condition keeps it. -/
theorem Reflects.call (h : Reflects s types log) {c : TypeCall δ} (hok : keepsOne s c) :
    ∃ s' types' r, s.call c = some (s', r) ∧ Reflects s' types' (log ++ [c.event r]) := by
  cases c with
  | register name dep fns =>
    obtain ⟨s', types', r, hcall, hlists, hnames, hin, hout⟩ := registerNameType_spec h.lists name dep fns
    refine ⟨s', types', r, hcall, hlists, h.gained (fun _ _ => rfl) hnames, h.answers.snoc ?_⟩
    by_cases hreg : Named types name
    · rw [TypeCall.event, rightAnswer, if_pos ((h.names name).mp hreg)]
      exact hin hreg
    · rw [TypeCall.event, rightAnswer, if_neg (by rw [h.out hreg]; decide)]
      exact hout hreg
  | store name dep dname data fns =>
    obtain ⟨s', types', r, hcall, hlists, hnames, hout⟩ := storeDataType_spec h.lists name dep dname data fns
    refine ⟨s', types', r, hcall, hlists, h.gained (fun _ _ => rfl) hnames,
      h.answers.snoc fun hfalse => hout fun hreg => ?_⟩
    rw [(h.names name).mp hreg] at hfalse
    cases hfalse
  | deregister name =>
    have hone : ∀ t, types = [t] → t.tName ≠ name := fun t ht => hok t (by rw [h.lists.vector, ht]; rfl)
    obtain ⟨s', types', r, hcall, hlists, hnames, hin, hout⟩ := deregisterType_spec h.lists hone
    refine ⟨s', types', r, hcall, hlists, fun n => ?_, h.answers.snoc ?_⟩
    · rw [registeredIn_snoc, hnames, h.names]
      by_cases hn : n = name
      · simp [TypeCall.event, holdsName, hn]
      · simp [TypeCall.event, holdsName, hn, Ne.symm hn]
    · by_cases hreg : Named types name
      · rw [TypeCall.event, rightAnswer, if_pos ((h.names name).mp hreg)]
        exact hin hreg
      · rw [TypeCall.event, rightAnswer, if_neg (by rw [h.out hreg]; decide)]
        exact hout hreg

theorem Lists.deregister_goes (h : Lists s types) (name : Text) : (deregisterType s name).isSome := by
  obtain ⟨r, hr, -⟩ := h.search name
  rw [deregisterType, if_neg (by simp [h.kept]), hr, Option.bind_eq_bind, Option.bind_some]
  split
  · rfl
  · dsimp only
    split <;> rfl

theorem Reflects.filed (h : Reflects s types log) : Filed s log where
  kept := h.lists.kept
  sorted := ⟨types, h.lists.vector, h.lists.sorted⟩
  finds name := by
    obtain ⟨r, hr, hanswer, hnamed⟩ := h.lists.search name
    refine ⟨r, ?_, hanswer, hnamed.trans (h.names name)⟩
    rw [findNameId, if_neg (by simp [h.lists.kept]), hr]
  answers := h.answers
  goes c := by
    cases c with
    | register name dep fns =>
      obtain ⟨s', types', r, hcall, -⟩ := registerNameType_spec h.lists name dep fns
      rw [TypeVector.call, hcall]
      rfl
    | store name dep dname data fns =>
      obtain ⟨s', types', r, hcall, -⟩ := storeDataType_spec h.lists name dep dname data fns
      rw [TypeVector.call, hcall]
      rfl
    | deregister name => exact h.lists.deregister_goes name

/-- As long as the only type there is stays, the vector keeps the registered types. -/
theorem types_filed (s : TypeVector δ) (log : List TypeEvent) (h : (typeMachine δ).Runs keepsOne s log) :
    Filed s log := by
  have hinv : ∃ types, Reflects s types log := by
    refine h.invariant (fun s log => ∃ types, Reflects s types log) ?_ ?_
    · refine ⟨[], ⟨rfl, rfl, List.Pairwise.nil⟩, fun n => ?_, Always.nil⟩
      exact iff_of_false (fun ⟨t, ht, _⟩ => List.not_mem_nil ht) Bool.false_ne_true
    · rintro s log c s' ⟨types, hreflects⟩ hok hstep
      obtain ⟨s1, types', r, hcall, hnext⟩ := hreflects.call hok
      have heq : s' = s1 := by
        simp only [typeMachine, hcall, Option.map_some, Option.some.injEq] at hstep
        exact hstep.symm
      have hemits : (typeMachine δ).emits s c = [c.event r] := by simp [typeMachine, hcall]
      rw [heq, hemits]
      exact ⟨types', hnext⟩
  obtain ⟨types, hreflects⟩ := hinv
  exact hreflects.filed

end

def plainFunctions : TypeFunctions := ⟨1, 2, 0, 0, 3, 0⟩

def threeCalls : List (TypeCall Nat) :=
  [.register (textOf "roach") 0 plainFunctions, .store (textOf "actor") 0 (textOf "key") 7 plainFunctions,
    .register (textOf "url") 0 plainFunctions, .deregister (textOf "url"), .deregister (textOf "actor")]

theorem types_filed_three :
    ∃ s, (typeMachine Nat).exec (typeMachine Nat).start threeCalls = some (s,
      [.registered (textOf "roach") 0, .stored (textOf "actor") 0, .registered (textOf "url") 2,
        .deregistered (textOf "url") 0, .deregistered (textOf "actor") 0]) ∧
      Filed s [.registered (textOf "roach") 0, .stored (textOf "actor") 0, .registered (textOf "url") 2,
        .deregistered (textOf "url") 0, .deregistered (textOf "actor") 0] := by
  refine ⟨⟨[some ⟨textOf "roach", 0, [], plainFunctions⟩], false⟩, rfl, types_filed _ _ ?_⟩
  refine Machine.Runs.start.exec threeCalls rfl ⟨trivial, fun s1 h1 => ⟨trivial, fun s2 h2 => ⟨trivial, fun s3 h3 => ?_⟩⟩⟩
  cases h1
  cases h2
  cases h3
  refine ⟨fun t ht => ?_, fun s4 h4 => ?_⟩
  · cases ht
  · cases h4
    refine ⟨fun t ht => ?_, fun _ _ => trivial⟩
    cases ht

/-- The vector is lost with the last type, and the next call reads what was freed. -/
theorem only_type_lost :
    ∃ s, (typeMachine Nat).exec (typeMachine Nat).start
        [.register (textOf "roach") 0 plainFunctions, .deregister (textOf "roach")] =
        some (s, [.registered (textOf "roach") 0, .deregistered (textOf "roach") (-1)]) ∧
      ¬ Always rightAnswer [.registered (textOf "roach") 0, .deregistered (textOf "roach") (-1)] ∧
      findNameId s (textOf "roach") = none := by
  refine ⟨⟨[none], true⟩, rfl, fun h => ?_, rfl⟩
  have hbad := h [.registered (textOf "roach") 0] (.deregistered (textOf "roach") (-1)) [] rfl
  rw [rightAnswer, if_pos (by decide)] at hbad
  exact absurd hbad (by decide)

end Katcp
