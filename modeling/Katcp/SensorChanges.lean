import Katcp.PastTime
import Katcp.ScopeCommands
import Katcp.VrblCommand

namespace Katcp

open Function

/-- `KATCP_STALE_SENSOR_NAIVE`, `KATCP_STALE_SENSOR_CURRENT`, `KATCP_STALE_SENSOR_STALE` and
`KATCP_STALE_MASK_SENSOR`. -/
def staleNaive : BitVec 32 := 1
def staleCurrent : BitVec 32 := 2
def staleStale : BitVec 32 := 3
def staleMask : BitVec 32 := 3

/-- The clients, what they know of the sensors, the count of changes, and whether the timer that
makes them known is pending. -/
structure SensorChanges where
  groups : Groups
  fFlags : FlatId → BitVec 32
  fStale : FlatId → BitVec 32
  sChanges : Nat
  pending : Bool

inductive SensorEvent where
  | made (fx : FlatId)
  | listed (fx : FlatId)
  | added (affected : List FlatId)
  | ran (ready sees : FlatId → Bool) (told : List FlatId)

namespace SensorChanges

def clients (s : SensorChanges) : List FlatId := s.groups.allGroups.flatMap s.groups.members

/-- The clients that `for_all_flats_vrbl_katcp` goes through, for a variable that the client `fx`
refers to. -/
def allFlatsVrbl (s : SensorChanges) (fx : Option FlatId) (name : Text) : List FlatId :=
  let group (gt : Option GroupId) := (gt.map s.groups.members).getD []
  let own := match fx with
    | none => []
    | some fx => group (s.groups.thisGroup (some fx))
  match tokeniseVrbl name with
  | none => []
  | some (copy, v) =>
    match v with
    | [_] => s.clients
    | [v0, v1] => if v0 = 0 then own else if v0 = v1 - 1 then s.clients else []
    | [v0, v1, v2] =>
      if v1 ≠ v2 - 1 then []
      else if v0 = 0 then own
      else group (s.groups.findGroup (some (stringAt copy 0)))
    | [v0, v1, _, _] =>
      if v0 = 0 then
        if v1 ≠ 1 then []
        else match fx with
          | some fx => [fx]
          | none => s.clients
      else
        (s.groups.findName fx (some (stringAt copy 1)) (some (stringAt copy (v0 + 1))) true).toList
    | _ => []

/-- `mark_stale_flat_katcp` -/
def markStale (s : SensorChanges) (fx : FlatId) : SensorChanges :=
  { s with fStale := update s.fStale fx (s.fStale fx ||| staleNaive) }

/-- `schedule_sensor_update_katcp`; a timer that cannot be registered is not. -/
def scheduleUpdate (s : SensorChanges) (this : Option FlatId) (name : Text) (registered : Bool) : SensorChanges :=
  let s' := (s.allFlatsVrbl this name).foldl markStale s
  if 0 < s'.sChanges then s'
  else if registered then { s' with sChanges := s'.sChanges + 1, pending := true }
  else s'

/-- `is_ready_flat_katcp` -/
def isReady (s : SensorChanges) (fx : FlatId) : Bool := (s.groups.flats fx).any fun f => f.fState = .up

def sees (s : SensorChanges) (fx : FlatId) : Bool :=
  s.fFlags fx &&& flatToClient ≠ 0 && s.fFlags fx &&& flatSeesKatcp ≠ 0

/-- One turn of the loops of `perform_sensor_update_katcp`, with those told so far. -/
def updateClient (r : SensorChanges × List FlatId) (fx : FlatId) : SensorChanges × List FlatId :=
  if r.1.isReady fx && r.1.fStale fx &&& staleMask == staleStale then
    ({ r.1 with fStale := update r.1.fStale fx staleNaive }, if r.1.sees fx then r.2 ++ [fx] else r.2)
  else r

/-- `perform_sensor_update_katcp`, given memory for its message or not; the clients told, should
it come to that. -/
def performUpdate (s : SensorChanges) (allocated : Bool) : SensorChanges × Option (List FlatId) :=
  if s.sChanges = 0 then (s, none)
  else if allocated then
    let (s', told) := s.clients.foldl updateClient (s, [])
    ({ s' with sChanges := 0 }, some told)
  else (s, none)

/-- `sensor_list_group_cmd_katcp`, as far as it is about the client itself. -/
def sensorList (s : SensorChanges) (fx : FlatId) (args : Words) : SensorChanges :=
  if 1 < args.length then s
  else { s with fStale := update s.fStale fx ((s.fStale fx &&& ~~~staleMask) ||| staleCurrent) }

/-- A client that was just made, as `create_flat_katcp` leaves it. -/
def enter (s : SensorChanges) (fx : FlatId) : SensorChanges :=
  { s with fFlags := update s.fFlags fx 0, fStale := update s.fStale fx staleNaive }

end SensorChanges

def GroupAction.newFlat : GroupAction → Option FlatId
  | .createFlat _ _ _ fresh => some fresh
  | .acceptFlat _ _ fresh => some fresh
  | _ => none

inductive SensorAction where
  | group (a : GroupAction)
  | configure (fx : FlatId) (flags : BitVec 32)
  | list (fx : FlatId) (args : Words)
  | add (this : Option FlatId) (name : Text) (registered : Bool)
  | run (allocated : Bool)

def SensorChanges.act (s : SensorChanges) : SensorAction → Option (SensorChanges × List SensorEvent)
  | .group a => (groupStep s.groups a).map fun groups =>
    let s' := { s with groups := groups }
    match a.newFlat with
    | some fx => (s'.enter fx, [.made fx])
    | none => (s', [])
  | .configure fx flags => some ({ s with fFlags := update s.fFlags fx flags }, [])
  | .list fx args => some (s.sensorList fx args, if 1 < args.length then [] else [.listed fx])
  | .add this name registered => some (s.scheduleUpdate this name registered, [.added (s.allFlatsVrbl this name)])
  | .run allocated =>
    if s.pending then
      let (s', told) := ({ s with pending := false } : SensorChanges).performUpdate allocated
      some (s', told.toList.map fun told => .ran s.isReady s.sees told)
    else none

/-- The server from its start, with what happens to its clients and sensors. -/
def sensorMachine (first : GroupId) : Machine SensorChanges SensorAction SensorEvent where
  start := ⟨startupGroups first, fun _ => 0, fun _ => staleNaive, 0, false⟩
  step s a := (s.act a).map Prod.fst
  emits s a := ((s.act a).map Prod.snd).getD []

/-- The client has listed the sensors, and none was added for it since. -/
def Fresh (fx : FlatId) : List SensorEvent → Prop :=
  Since (fun e => e ≠ .made fx ∧ ∀ affected, e = .added affected → fx ∉ affected) fun _ e => e = .listed fx

/-- A sensor was added for the client after it had listed them, and since then it was not ready
at any run of the timer and has not listed the sensors again. -/
def Due (fx : FlatId) : List SensorEvent → Prop :=
  Since (fun e => e ≠ .made fx ∧ e ≠ .listed fx ∧ ∀ ready sees told, e = .ran ready sees told → ready fx = false)
    fun before e => (∃ affected, e = .added affected ∧ fx ∈ affected) ∧ Fresh fx before

/-- A run of the timer tells those once that are ready, are owed it and `wants`. -/
def Told (wants : (FlatId → Bool) → FlatId → Prop) (before : List SensorEvent) : SensorEvent → Prop
  | .ran ready sees told => told.Nodup ∧ ∀ fx, fx ∈ told ↔ ready fx = true ∧ wants sees fx ∧ Due fx before
  | _ => True

/-- Every run of the timer tells the right clients, nobody is told twice without a listing in
between, and changes are counted just when the timer is pending. -/
structure Announced (wants : (FlatId → Bool) → FlatId → Prop) (s : SensorChanges) (log : List SensorEvent) : Prop where
  told : Always (Told wants) log
  again : ∀ a b c r1 s1 t1 r2 s2 t2 fx, log = a ++ .ran r1 s1 t1 :: (b ++ .ran r2 s2 t2 :: c) →
    fx ∈ t1 → fx ∈ t2 → .listed fx ∈ b
  counted : 0 < s.sChanges ↔ s.pending = true

variable {fx fy : FlatId} {log : List SensorEvent} {affected : List FlatId} {ready sees : FlatId → Bool} {told : List FlatId}

@[simp] theorem fresh_made : Fresh fx (log ++ [.made fy]) ↔ fx ≠ fy ∧ Fresh fx log := by
  simp [Fresh, Since.snoc, eq_comm]

@[simp] theorem fresh_listed : Fresh fx (log ++ [.listed fy]) ↔ fx = fy ∨ Fresh fx log := by
  simp [Fresh, Since.snoc, eq_comm]

@[simp] theorem fresh_added : Fresh fx (log ++ [.added affected]) ↔ fx ∉ affected ∧ Fresh fx log := by
  simp [Fresh, Since.snoc]

@[simp] theorem fresh_ran : Fresh fx (log ++ [.ran ready sees told]) ↔ Fresh fx log := by
  simp [Fresh, Since.snoc]

@[simp] theorem due_made : Due fx (log ++ [.made fy]) ↔ fx ≠ fy ∧ Due fx log := by
  simp [Due, Since.snoc, @eq_comm _ fx fy]

@[simp] theorem due_listed : Due fx (log ++ [.listed fy]) ↔ fx ≠ fy ∧ Due fx log := by
  simp [Due, Since.snoc, @eq_comm _ fx fy]

@[simp] theorem due_added : Due fx (log ++ [.added affected]) ↔ (fx ∈ affected ∧ Fresh fx log) ∨ Due fx log := by
  simp [Due, Since.snoc]

@[simp] theorem due_ran : Due fx (log ++ [.ran ready sees told]) ↔ ready fx = false ∧ Due fx log := by
  simp [Due, Since.snoc]

/-- A client that is owed news lists the sensors before it is up to date again. -/
theorem fresh_of_append {out : List SensorEvent} (h : Fresh fx (log ++ out)) (hnot : .listed fx ∉ out) : Fresh fx log :=
  h.of_append fun before e after hout he => hnot (by simp [hout, he])

theorem Due.not_fresh (h : Due fx log) : ¬Fresh fx log := by
  obtain ⟨before, e, after, rfl, ⟨⟨affected, rfl, hmem⟩, -⟩, hhold⟩ := h
  intro hfresh
  have hnot : SensorEvent.listed fx ∉ after := fun hin => (hhold _ hin).2.1 rfl
  rw [List.append_cons] at hfresh
  exact (fresh_added.mp (fresh_of_append hfresh hnot)).1 hmem

/-- A client that was not up to date and owed nothing lists the sensors before it is owed anything. -/
theorem listed_of_due {out : List SensorEvent} (hfresh : ¬Fresh fx log) (hdue : ¬Due fx log) (h : Due fx (log ++ out)) :
    .listed fx ∈ out := by
  by_contra hnot
  refine hdue (h.of_append fun before e after hout hstart => hfresh ?_)
  exact fresh_of_append hstart.2 fun hin => hnot (by simp [hout, hin])

theorem foldl_markStale (s : SensorChanges) (xs : List FlatId) : xs.foldl SensorChanges.markStale s =
    { s with fStale := fun fx => if fx ∈ xs then s.fStale fx ||| staleNaive else s.fStale fx } := by
  induction xs generalizing s with
  | nil => simp
  | cons x xs ih =>
    rw [List.foldl_cons, ih]
    unfold SensorChanges.markStale
    congr 1
    funext fx
    by_cases he : fx = x
    · subst he
      simp [BitVec.or_assoc]
    · simp [he]

/-- Whether the loops find a client that is owed news. -/
def SensorChanges.isDue (s : SensorChanges) (fx : FlatId) : Bool :=
  s.isReady fx && s.fStale fx &&& staleMask == staleStale

/-- The loops make every client naive that is owed news, and tell those of them that see it. -/
theorem foldl_updateClient (s : SensorChanges) {xs : List FlatId} (hxs : xs.Nodup) (told : List FlatId) :
    xs.foldl SensorChanges.updateClient (s, told) =
      ({ s with fStale := fun fx => if fx ∈ xs ∧ s.isDue fx = true then staleNaive else s.fStale fx },
        told ++ xs.filter fun fx => s.isDue fx && s.sees fx) := by
  induction xs generalizing s told with
  | nil => simp
  | cons x xs ih =>
    obtain ⟨hx, hxs⟩ := List.nodup_cons.mp hxs
    rw [List.foldl_cons]
    by_cases hdue : s.isDue x = true
    · have hstep : SensorChanges.updateClient (s, told) x =
          ({ s with fStale := update s.fStale x staleNaive }, if s.sees x then told ++ [x] else told) := if_pos hdue
      have hrest : ∀ fx ∈ xs, ({ s with fStale := update s.fStale x staleNaive } : SensorChanges).isDue fx = s.isDue fx := by
        intro fx hfx
        have hne : fx ≠ x := fun he => hx (he ▸ hfx)
        simp [SensorChanges.isDue, SensorChanges.isReady, hne]
      rw [hstep, ih _ hxs]
      congr 1
      · congr 1
        funext fx
        by_cases he : fx = x
        · subst he
          simp [hx, hdue]
        · by_cases hmem : fx ∈ xs
          · simp [hmem, he, hrest fx hmem]
          · simp [hmem, he]
      · have hsame : (xs.filter fun fx => ({ s with fStale := update s.fStale x staleNaive } : SensorChanges).isDue fx &&
            s.sees fx) = xs.filter fun fx => s.isDue fx && s.sees fx :=
          List.filter_congr fun fx hfx => by rw [hrest fx hfx]
        rw [List.filter_cons, hdue, Bool.true_and]
        cases s.sees x
        · exact congrArg (told ++ ·) hsame
        · rw [if_pos rfl, if_pos rfl, List.append_assoc]
          exact congrArg (told ++ x :: ·) hsame
    · have hstep : SensorChanges.updateClient (s, told) x = (s, told) := if_neg hdue
      rw [hstep, ih s hxs, List.filter_cons, if_neg (by simp [hdue])]
      congr 2
      funext fx
      by_cases he : fx = x
      · subst he
        simp [hx, hdue]
      · simp [he]

/-- What the value of a client says about its history. -/
structure Tracked (s : SensorChanges) (log : List SensorEvent) (fx : FlatId) : Prop where
  value : s.fStale fx = staleNaive ∨ s.fStale fx = staleCurrent ∨ s.fStale fx = staleStale
  fresh : s.fStale fx = staleCurrent ↔ Fresh fx log
  due : s.fStale fx = staleStale ↔ Due fx log

variable {s s' : SensorChanges}

theorem Tracked.same (h : Tracked s log fx) (hstale : s'.fStale fx = s.fStale fx) : Tracked s' log fx := by
  obtain ⟨hvalue, hfresh, hdue⟩ := h
  rw [← hstale] at hvalue hfresh hdue
  exact ⟨hvalue, hfresh, hdue⟩

/-- A client that is naive. -/
theorem Tracked.naive (hstale : s.fStale fx = staleNaive) (hfresh : ¬Fresh fx log) (hdue : ¬Due fx log) :
    Tracked s log fx :=
  ⟨.inl hstale, by simp [hstale, hfresh, staleNaive, staleCurrent], by simp [hstale, hdue, staleNaive, staleStale]⟩

theorem Tracked.made (h : Tracked s log fx) (fy : FlatId) : Tracked (s.enter fy) (log ++ [.made fy]) fx := by
  by_cases he : fx = fy
  · subst he
    exact .naive (update_self ..) (by simp) (by simp)
  · have hstale : (s.enter fy).fStale fx = s.fStale fx := update_of_ne he ..
    obtain ⟨hvalue, hfresh, hdue⟩ := h
    rw [← hstale] at hvalue hfresh hdue
    exact ⟨hvalue, by simp [he, hfresh], by simp [he, hdue]⟩

theorem Tracked.listed (h : Tracked s log fx) (fy : FlatId) {args : Words} (hargs : ¬1 < args.length) :
    Tracked (s.sensorList fy args) (log ++ [.listed fy]) fx := by
  have hlist : s.sensorList fy args =
      { s with fStale := update s.fStale fy ((s.fStale fy &&& ~~~staleMask) ||| staleCurrent) } := if_neg hargs
  by_cases he : fx = fy
  · subst he
    have hstale : (s.sensorList fx args).fStale fx = staleCurrent := by
      rw [hlist]
      dsimp only
      rw [update_self]
      rcases h.value with hvalue | hvalue | hvalue <;> rw [hvalue] <;> rfl
    exact ⟨.inr (.inl hstale), by simp [hstale], by simp [hstale, staleCurrent, staleStale]⟩
  · have hstale : (s.sensorList fy args).fStale fx = s.fStale fx := by
      rw [hlist]
      exact update_of_ne he ..
    obtain ⟨hvalue, hfresh, hdue⟩ := h
    rw [← hstale] at hvalue hfresh hdue
    exact ⟨hvalue, by simp [he, hfresh], by simp [he, hdue]⟩

theorem Tracked.added (h : Tracked s log fx)
    (hstale : s'.fStale fx = if fx ∈ affected then s.fStale fx ||| staleNaive else s.fStale fx) :
    Tracked s' (log ++ [.added affected]) fx := by
  by_cases hmem : fx ∈ affected
  · rw [if_pos hmem] at hstale
    rcases h.value with hvalue | hvalue | hvalue
    · have hfresh : ¬Fresh fx log := by simp [← h.fresh, hvalue, staleNaive, staleCurrent]
      have hdue : ¬Due fx log := by simp [← h.due, hvalue, staleNaive, staleStale]
      rw [hvalue] at hstale
      exact .naive hstale (by simp [hmem]) (by simp [hfresh, hdue])
    · have hfresh := h.fresh.mp hvalue
      rw [hvalue] at hstale
      change s'.fStale fx = staleStale at hstale
      exact ⟨.inr (.inr hstale), by simp [hmem, hstale, staleStale, staleCurrent], by simp [hmem, hfresh, hstale]⟩
    · have hdue := h.due.mp hvalue
      rw [hvalue] at hstale
      change s'.fStale fx = staleStale at hstale
      exact ⟨.inr (.inr hstale), by simp [hmem, hstale, staleStale, staleCurrent], by simp [hdue, hstale]⟩
  · rw [if_neg hmem] at hstale
    obtain ⟨hvalue, hfresh, hdue⟩ := h
    rw [← hstale] at hvalue hfresh hdue
    exact ⟨hvalue, by simp [hmem, hfresh], by simp [hmem, hdue]⟩

/-- A client is owed news just when its value says so. -/
theorem Tracked.isDue (h : Tracked s log fx) : s.isDue fx = true ↔ s.isReady fx = true ∧ Due fx log := by
  unfold SensorChanges.isDue
  rw [Bool.and_eq_true, beq_iff_eq, ← h.due]
  rcases h.value with hvalue | hvalue | hvalue <;> simp [hvalue, staleNaive, staleCurrent, staleStale, staleMask]

theorem Tracked.ran (h : Tracked s log fx)
    (hstale : s'.fStale fx = if s.isDue fx = true then staleNaive else s.fStale fx) :
    Tracked s' (log ++ [.ran s.isReady s.sees told]) fx := by
  by_cases hdue : s.isDue fx = true
  · rw [if_pos hdue] at hstale
    obtain ⟨hready, hdue⟩ := h.isDue.mp hdue
    exact .naive hstale (by simpa using hdue.not_fresh) (by simp [hready])
  · rw [if_neg hdue] at hstale
    rw [h.isDue] at hdue
    obtain ⟨hvalue, hfresh, hvdue⟩ := h
    rw [← hstale] at hvalue hfresh hvdue
    refine ⟨hvalue, by simp [hfresh], ?_⟩
    rw [due_ran, hvdue]
    exact ⟨fun hd => ⟨Bool.eq_false_iff.mpr fun hready => hdue ⟨hready, hd⟩, hd⟩, fun hd => hd.2⟩

theorem mem_clients_of_ready (hs : GroupInv s.groups) (h : s.isReady fx = true) : fx ∈ s.clients := by
  unfold SensorChanges.isReady at h
  cases hf : s.groups.flats fx with
  | none => simp [hf] at h
  | some f => exact hs.mem_clients hf

/-- A run of the timer that has memory for its message. -/
theorem performUpdate_eq (hs : GroupInv s.groups) (hchanges : 0 < s.sChanges) : s.performUpdate true =
    ({ s with
        fStale := fun fx => if s.isDue fx = true then staleNaive else s.fStale fx
        sChanges := 0 },
      some (s.clients.filter fun fx => s.isDue fx && s.sees fx)) := by
  have hnodup : s.clients.Nodup := hs.clients_nodup
  unfold SensorChanges.performUpdate
  rw [if_neg (Nat.ne_of_gt hchanges), if_pos rfl, foldl_updateClient s hnodup]
  dsimp only
  rw [List.nil_append]
  congr 2
  funext fx
  by_cases hdue : s.isDue fx = true
  · have hmem := mem_clients_of_ready hs (Bool.and_eq_true_iff.mp hdue).1
    simp [hmem, hdue]
  · simp [hdue]

def SeesKatcp (sees : FlatId → Bool) (fx : FlatId) : Prop := sees fx = true

/-- What holds of the server at any time, if no run of the timer lacked memory. -/
structure ChangesInv (s : SensorChanges) (log : List SensorEvent) : Prop where
  groups : GroupInv s.groups
  tracked : ∀ fx, Tracked s log fx
  counted : 0 < s.sChanges ↔ s.pending = true
  told : Always (Told SeesKatcp) log

theorem ChangesInv.group (h : ChangesInv s log) {a : GroupAction} {out : List SensorEvent}
    (hact : s.act (.group a) = some (s', out)) : ChangesInv s' (log ++ out) := by
  obtain ⟨groups, hgroups, heq⟩ := Option.map_eq_some_iff.mp hact
  have hinv : GroupInv groups := group_keeps 0 s.groups [] a groups h.groups trivial hgroups
  dsimp only at heq
  split at heq
  next fx _ =>
    cases heq
    refine ⟨hinv, fun fy => ?_, h.counted, h.told.snoc trivial⟩
    have hsame : Tracked { s with groups := groups } log fy := (h.tracked fy).same rfl
    exact hsame.made fx
  next =>
    cases heq
    rw [List.append_nil]
    exact ⟨hinv, fun fy => (h.tracked fy).same rfl, h.counted, h.told⟩

theorem ChangesInv.list (h : ChangesInv s log) {args : Words} {out : List SensorEvent}
    (hact : s.act (.list fx args) = some (s', out)) : ChangesInv s' (log ++ out) := by
  cases Option.some.inj hact
  by_cases hargs : 1 < args.length
  · rw [if_pos hargs, List.append_nil]
    have hsame : s.sensorList fx args = s := if_pos hargs
    rwa [hsame]
  · rw [if_neg hargs]
    have htracked := fun fy => (h.tracked fy).listed fx hargs
    unfold SensorChanges.sensorList at htracked ⊢
    rw [if_neg hargs] at htracked ⊢
    exact ⟨h.groups, htracked, h.counted, h.told.snoc trivial⟩

theorem ChangesInv.add (h : ChangesInv s log) {this : Option FlatId} {name : Text} {registered : Bool}
    {out : List SensorEvent} (hact : s.act (.add this name registered) = some (s', out)) :
    ChangesInv s' (log ++ out) := by
  cases Option.some.inj hact
  have hstale : ∀ fy, (s.scheduleUpdate this name registered).fStale fy =
      if fy ∈ s.allFlatsVrbl this name then s.fStale fy ||| staleNaive else s.fStale fy := by
    intro fy
    unfold SensorChanges.scheduleUpdate
    rw [foldl_markStale]
    dsimp only
    split <;> [skip; split] <;> rfl
  have hgroups : (s.scheduleUpdate this name registered).groups = s.groups := by
    unfold SensorChanges.scheduleUpdate
    rw [foldl_markStale]
    dsimp only
    split <;> [skip; split] <;> rfl
  refine ⟨by rw [hgroups]; exact h.groups, fun fy => (h.tracked fy).added (hstale fy), ?_, h.told.snoc trivial⟩
  unfold SensorChanges.scheduleUpdate
  rw [foldl_markStale]
  dsimp only
  split
  · exact h.counted
  · split
    · simp
    · exact h.counted

theorem ChangesInv.run (h : ChangesInv s log) {out : List SensorEvent} (hact : s.act (.run true) = some (s', out)) :
    ChangesInv s' (log ++ out) := by
  unfold SensorChanges.act at hact
  dsimp only at hact
  obtain ⟨hpending, hact⟩ := Option.ite_none_right_eq_some.mp hact
  have hperform := performUpdate_eq (s := { s with pending := false }) h.groups (h.counted.mpr hpending)
  rw [hperform] at hact
  cases Option.some.inj hact
  refine ⟨h.groups, fun fx => (h.tracked fx).ran rfl, by simp, h.told.snoc ⟨?_, fun fx => ?_⟩⟩
  · exact h.groups.clients_nodup.filter _
  · rw [List.mem_filter, Bool.and_eq_true]
    change fx ∈ s.clients ∧ s.isDue fx = true ∧ s.sees fx = true ↔ _
    rw [(h.tracked fx).isDue]
    constructor
    · rintro ⟨-, ⟨hready, hdue⟩, hsees⟩
      exact ⟨hready, hsees, hdue⟩
    · rintro ⟨hready, hsees, hdue⟩
      exact ⟨mem_clients_of_ready h.groups hready, ⟨hready, hdue⟩, hsees⟩

theorem changes_keep (first : GroupId) : (sensorMachine first).Keeps (fun _ a => a ≠ .run false) ChangesInv := by
  refine Machine.keeps_of_act (f := fun s a => s.act a) (fun _ _ => rfl) (fun _ _ => rfl)
    fun s log a next out h hok hact => ?_
  cases a with
  | group a => exact h.group hact
  | configure fx flags =>
    cases Option.some.inj hact
    rw [List.append_nil]
    exact ⟨h.groups, fun fy => (h.tracked fy).same rfl, h.counted, h.told⟩
  | list fx args => exact h.list hact
  | add this name registered => exact h.add hact
  | run allocated =>
    cases allocated with
    | false => exact absurd rfl hok
    | true => exact h.run hact

/-- Where every run of the timer tells only those that are owed it, it tells nobody twice who has
not listed the sensors in between. -/
theorem listed_between {wants : (FlatId → Bool) → FlatId → Prop} (h : Always (Told wants) log)
    {a b c : List SensorEvent} {r1 s1 r2 s2 : FlatId → Bool} {t1 t2 : List FlatId}
    (hlog : log = a ++ .ran r1 s1 t1 :: (b ++ .ran r2 s2 t2 :: c)) (h1 : fx ∈ t1) (h2 : fx ∈ t2) : .listed fx ∈ b := by
  obtain ⟨hready, -, hdue⟩ := ((h a _ _ hlog).2 fx).mp h1
  have hagain := (h (a ++ .ran r1 s1 t1 :: b) (.ran r2 s2 t2) c (by simpa using hlog)).2 fx
  obtain ⟨-, -, hdue2⟩ := hagain.mp h2
  rw [List.append_cons] at hdue2
  exact listed_of_due (by simpa using hdue.not_fresh) (by simp [hready]) hdue2

/-- If no run of the timer lacks memory for its message, the changes are announced to those that
see such informs. -/
theorem changes_announced {first : GroupId} (h : (sensorMachine first).Runs (fun _ a => a ≠ .run false) s log) :
    Announced SeesKatcp s log := by
  have hinv := h.invariant ChangesInv ⟨startupGroups_inv first, fun fx => .naive rfl Since.not_nil Since.not_nil,
    by simp [sensorMachine], .nil⟩ (changes_keep first)
  exact ⟨hinv.told, fun a b c r1 s1 t1 r2 s2 t2 fx hlog => listed_between hinv.told hlog, hinv.counted⟩

/-- A client that lists the sensors and is told of two that are added after it. -/
def announcedRun (flags : BitVec 32) (allocated : Bool) : List SensorAction :=
  [.group (.createFlat false (some (textOf "a")) (some 0) 7), .configure 7 flags, .list 7 [textOf "sensor-list"],
    .add none (textOf "x") true, .add none (textOf "y") true, .run allocated]

theorem announcedRun_meets (flags : BitVec 32) (s : SensorChanges) :
    (sensorMachine 0).Meets (fun _ a => a ≠ .run false) s (announcedRun flags true) := by
  simp [Machine.Meets, announcedRun]

theorem changes_announced_twice : ∃ s ready sees, Announced SeesKatcp s
    [.made 7, .listed 7, .added [7], .added [7], .ran ready sees [7]] :=
  ⟨_, _, _, changes_announced (Machine.Runs.exec .start (announcedRun (flatToClient ||| flatSeesKatcp) true) rfl
    (announcedRun_meets ..))⟩

/-- A client that asked not to see such informs is passed over, and a run of the timer without
memory leaves changes that nothing will announce. -/
theorem changes_not_announced : (∃ s log, (sensorMachine 0).Runs (fun _ a => a ≠ .run false) s log ∧
      ¬Announced (fun _ _ => True) s log) ∧
    ∃ s log, (sensorMachine 0).Runs (fun _ _ => True) s log ∧ 0 < s.sChanges ∧ s.pending = false := by
  refine ⟨⟨_, _, Machine.Runs.exec .start (announcedRun flatToClient true) rfl (announcedRun_meets ..), fun h => ?_⟩,
    ⟨_, _, Machine.Runs.exec .start (announcedRun flatToClient false) rfl (Machine.meets_true ..), by decide, rfl⟩⟩
  have htold := h.told [.made 7, .listed 7, .added [7], .added [7]] _ [] rfl
  have hdue : Due 7 ([] ++ [.made 7] ++ [.listed 7] ++ [.added [7]] ++ [.added [7]]) := by
    rw [due_added, due_added, fresh_listed]
    exact .inr (.inl ⟨List.mem_singleton_self 7, .inl rfl⟩)
  exact absurd ((htold.2 7).mpr ⟨rfl, trivial, hdue⟩) (by decide)

end Katcp
