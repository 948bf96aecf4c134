import Katcp.TaskRunner

namespace Katcp

namespace SmState

/-- The entry at a position as a task meets it: the k-th trigger stands for the k-th edge. -/
def stepAt (st : SmState) (i : Nat) : SmOp → SmStep
  | .call o_call => .op i o_call
  | .trigger =>
    let k := (st.sOpList.take i).count .trigger
    let e := (st.sEdgeList[k]?).getD ⟨0, none⟩
    .edge k e.eNext e.eCall

def script (st : SmState) : List SmStep := st.sOpList.mapIdx st.stepAt

/-- The last edge. -/
def lastStep (st : SmState) : SmStep :=
  let k := st.sEdgeList.length - 1
  let e := (st.sEdgeList[k]?).getD ⟨0, none⟩
  .edge k e.eNext e.eCall

/-- What a task may have done at a node: the script up to a position or, where the whole of it has been run,
the last edge again any number of times. -/
def Ran (st : SmState) (p : Nat) (steps : List SmStep) : Prop :=
  p ≤ st.sOpList.length ∧ ∃ m, (m = 0 ∨ p = st.sOpList.length ∧ st.sEdgeList ≠ []) ∧
    steps = st.script.take p ++ List.replicate m st.lastStep

/-- Every edge has its trigger. -/
def Paired (st : SmState) : Prop := st.sOpList.count .trigger = st.sEdgeList.length

end SmState

/-- A task as its events tell it: where it is, what it has done there with what results, whether the last wait
ended well, and its result. -/
structure TaskView where
  client : ClientId
  name : Text
  flags : Nat
  node : StateId
  steps : List (SmStep × Int)
  told : Option Bool
  rtn : Int
  stopped : Option ClientId
  deriving DecidableEq, Repr

def SmStep.result (rtn : Int) : SmStep → Int
  | .op _ _ => if rtn < 0 then rtn else 0
  | .edge _ _ _ => 0

namespace TaskView

def after (v : TaskView) : Did → TaskView
  | .step x rtn => { v with steps := v.steps ++ [(x, rtn)], told := none, rtn := x.result rtn }
  | .told none => { v with told := some false, rtn := -1 }
  | .told (some p) => { v with told := some (SchedTask.saysOk p) }
  | .moved next => { v with node := next, steps := [], told := none }

/-- Nothing has failed, and an edge that was tried did not lead on. -/
def Ready (v : TaskView) : Prop :=
  v.rtn = 0 ∧ ∀ i n c r, v.steps.getLast? = some (.edge i n c, r) →
    r ≠ edgeOkay ∧ (r = edgeWait → v.told = some false)

/-- The last edge tried has not decided yet. -/
def Waits (v : TaskView) : Prop :=
  v.rtn = 0 ∧ v.told = none ∧ ∃ i n c, v.steps.getLast? = some (.edge i n c, edgeWait)

/-- The last edge tried leads to a node. -/
def Leads (v : TaskView) (next : StateId) : Prop :=
  ∃ i c r, v.steps.getLast? = some (.edge i next c, r) ∧ (r = edgeOkay ∨ r = edgeWait ∧ v.told = some true)

def Allows (v : TaskView) : Did → Prop
  | .step _ _ => v.Ready
  | .told _ => v.Waits
  | .moved next => v.Leads next

def AllowsAll : TaskView → List Did → Prop
  | _, [] => True
  | v, d :: rest => v.Allows d ∧ (v.after d).AllowsAll rest

/-- The reply of a task that ends: only a master replies, to the client that started or stopped it. -/
def reply (v : TaskView) : Option (ClientId × Words) :=
  if v.flags &&& processMaster ≠ 0 then
    some (v.stopped.getD v.client,
      if v.rtn < 0 then [textOf "fail", v.name, decimalText v.rtn] else [textOf "ok"])
  else none

/-- Why a task is at its end: a failure, or no edge is left. -/
def Over (st : SmState) (v : TaskView) : Prop :=
  v.rtn < 0 ∨ st.sEdgeList = [] ∧ v.steps.map Prod.fst = st.script ∨
    (v.steps.map Prod.fst).getLast? = some st.lastStep

end TaskView

namespace SmEvent

def task : SmEvent → Option TaskId
  | .result _ => none
  | .started t _ _ _ _ | .did t _ | .stopped t _ | .ended t _ | .lost t => some t

def view (t : TaskId) (v : Option TaskView) : SmEvent → Option TaskView
  | .result _ => v
  | .started k client name flags node => if k = t then some ⟨client, name, flags, node, [], none, 0, none⟩ else v
  | .did k d => if k = t then v.map fun v => v.after d else v
  | .stopped k client => if k = t then v.map fun v => { v with stopped := some client } else v
  | .ended k _ => if k = t then none else v
  | .lost k => if k = t then none else v

end SmEvent

/-- A task after its events, while it is alive. -/
def viewOf (t : TaskId) (log : List SmEvent) : Option TaskView := log.foldl (SmEvent.view t) none

/-- What each event may follow. -/
def Allowed (before : List SmEvent) : SmEvent → Prop
  | .result _ => True
  | .started t _ _ _ _ => ∀ ev ∈ before, ev.task ≠ some t
  | .did t d => ∃ v, viewOf t before = some v ∧ v.Allows d
  | .stopped t _ => (viewOf t before).isSome = true
  | .ended t reply => ∃ v, viewOf t before = some v ∧ reply = v.reply
  | .lost t => (viewOf t before).isSome = true

namespace SchedTask

/-- Where a task stands that is to run operations: at the trigger of its edge or before it, or behind the
trigger of the last edge. -/
def AtRun (t : SchedTask) (st : SmState) (steps : List SmStep) : Prop :=
  st.Ran t.tOpI steps ∧
    ((st.sOpList.take t.tOpI).count .trigger = t.tEdgeI ∧ (t.tEdgeI < st.sEdgeList.length ∨ st.sEdgeList = []) ∨
      (st.sOpList.take t.tOpI).count .trigger = st.sEdgeList.length ∧ t.tEdgeI + 1 = st.sEdgeList.length)

/-- Where a task stands that is to try its edge: just behind the edge's trigger, or at the end. -/
def AtEdge (t : SchedTask) (st : SmState) (steps : List SmStep) : Prop :=
  (∃ k, t.tOpI = k + 1 ∧ st.sOpList[k]? = some .trigger ∧ (st.sOpList.take k).count .trigger = t.tEdgeI ∧
      t.tEdgeI < st.sEdgeList.length ∧ st.Ran k steps) ∨
    t.tOpI = st.sOpList.length ∧ st.Ran st.sOpList.length steps ∧
      (t.tEdgeI + 1 = st.sEdgeList.length ∨ st.sEdgeList = [] ∧ t.tEdgeI = 0)

/-- Where a task stands whose edge was tried. -/
def PastEdge (t : SchedTask) (st : SmState) (steps : List SmStep) : Prop :=
  st.Ran t.tOpI steps ∧ (st.sOpList.take t.tOpI).count .trigger = t.tEdgeI + 1 ∧ t.tEdgeI < st.sEdgeList.length

/-- A task at a node, and what it has done there. -/
structure Stands (t : SchedTask) (st : SmState) (v : TaskView) : Prop where
  ran : ∃ p, st.Ran p (v.steps.map Prod.fst)
  index : t.tEdgeI < st.sEdgeList.length ∨ st.sEdgeList = [] ∧ t.tEdgeI = 0
  rtn : v.rtn = t.tRtn
  runs : t.tState = .runOps → v.Ready ∧ t.AtRun st (v.steps.map Prod.fst)
  follows : t.tState = .followEdges → v.Ready ∧ t.AtEdge st (v.steps.map Prod.fst)
  waits : t.tState = .edgeWait → v.Waits ∧ t.PastEdge st (v.steps.map Prod.fst) ∧
    ∃ e r, st.sEdgeList[t.tEdgeI]? = some e ∧ v.steps.getLast? = some (.edge t.tEdgeI e.eNext e.eCall, r)
  finished : t.tState = .cleanUp → v.Over st

end SchedTask

section

variable {st : SmState} {i j p k : Nat} {o : SmOp} {steps xs : List SmStep} {t : SchedTask} {a : SmAnswers}
  {v : TaskView} {d : Did} {out : List Did} {log : List SmEvent} {id : TaskId}

namespace SmState

theorem script_getElem? (st : SmState) (i : Nat) : st.script[i]? = (st.sOpList[i]?).map (st.stepAt i) :=
  List.getElem?_mapIdx

theorem length_script (st : SmState) : st.script.length = st.sOpList.length := List.length_mapIdx

theorem ran_start (st : SmState) : st.Ran 0 [] := by
  refine ⟨Nat.zero_le _, 0, Or.inl rfl, ?_⟩
  simp

/-- One more entry of the script. -/
theorem Ran.next (h : st.Ran p steps) (ho : st.sOpList[p]? = some o) : st.Ran (p + 1) (steps ++ [st.stepAt p o]) := by
  have hlt : p < st.sOpList.length := (List.getElem?_eq_some_iff.mp ho).1
  obtain ⟨-, m, hm, hsteps⟩ := h
  have hzero : m = 0 := hm.resolve_right fun hp => by omega
  subst hzero
  refine ⟨hlt, 0, Or.inl rfl, ?_⟩
  rw [hsteps, List.take_add_one, script_getElem?, ho]
  simp

/-- The last edge once more. -/
theorem Ran.again (h : st.Ran st.sOpList.length steps) (he : st.sEdgeList ≠ []) :
    st.Ran st.sOpList.length (steps ++ [st.lastStep]) := by
  obtain ⟨hp, m, -, hsteps⟩ := h
  refine ⟨hp, m + 1, Or.inr ⟨rfl, he⟩, ?_⟩
  rw [hsteps, List.replicate_succ', List.append_assoc]

theorem count_take_succ (ho : st.sOpList[p]? = some o) :
    (st.sOpList.take (p + 1)).count .trigger =
      (st.sOpList.take p).count .trigger + if o = .trigger then 1 else 0 := by
  rw [List.take_add_one, ho, Option.toList_some, List.count_append, List.count_singleton]
  cases o <;> simp

end SmState

namespace TaskView

def afterAll (v : TaskView) (out : List Did) : TaskView := out.foldl TaskView.after v

theorem after_fixed (v : TaskView) (d : Did) : (v.after d).client = v.client ∧ (v.after d).name = v.name ∧
    (v.after d).flags = v.flags ∧ (v.after d).stopped = v.stopped := by
  cases d with
  | step x rtn => exact ⟨rfl, rfl, rfl, rfl⟩
  | told p => cases p <;> exact ⟨rfl, rfl, rfl, rfl⟩
  | moved next => exact ⟨rfl, rfl, rfl, rfl⟩

theorem afterAll_fixed (v : TaskView) (out : List Did) : (v.afterAll out).client = v.client ∧
    (v.afterAll out).name = v.name ∧ (v.afterAll out).flags = v.flags ∧ (v.afterAll out).stopped = v.stopped := by
  induction out generalizing v with
  | nil => exact ⟨rfl, rfl, rfl, rfl⟩
  | cons d out ih =>
    obtain ⟨hclient, hname, hflags, hstopped⟩ := ih (v.after d)
    obtain ⟨hc, hn, hf, hs⟩ := v.after_fixed d
    exact ⟨hclient.trans hc, hname.trans hn, hflags.trans hf, hstopped.trans hs⟩

theorem ready_op (v : TaskView) {rtn : Int} (h : ¬ rtn < 0) (i o_call : Nat) :
    (v.after (.step (.op i o_call) rtn)).Ready := by
  refine ⟨if_neg h, fun j n c r hlast => ?_⟩
  rw [TaskView.after, List.getLast?_concat] at hlast
  cases hlast

theorem ready_refused (v : TaskView) {rtn : Int} (hokay : rtn ≠ edgeOkay) (hwait : rtn ≠ edgeWait) (i : Nat)
    (next : StateId) (call : Option Nat) : (v.after (.step (.edge i next call) rtn)).Ready := by
  refine ⟨rfl, fun j n c r hlast => ?_⟩
  rw [TaskView.after, List.getLast?_concat] at hlast
  cases hlast
  exact ⟨hokay, fun h => absurd h hwait⟩

theorem map_steps (v : TaskView) (x : SmStep) (rtn : Int) :
    (v.after (.step x rtn)).steps.map Prod.fst = v.steps.map Prod.fst ++ [x] := by
  rw [TaskView.after, List.map_append]
  rfl

end TaskView

/-- Where the operations from one position on come to an end. -/
def SmState.Reached (st : SmState) (i j : Nat) (steps : List SmStep) : Prop :=
  (∃ k, j = k + 1 ∧ st.sOpList[k]? = some .trigger ∧
      (st.sOpList.take k).count .trigger = (st.sOpList.take i).count .trigger ∧ st.Ran k steps) ∨
    j = st.sOpList.length ∧ st.sOpList.count .trigger = (st.sOpList.take i).count .trigger ∧
      st.Ran st.sOpList.length steps

theorem getElem?_of_drop {α : Type*} {l rest : List α} {x : α} (i : Nat) (h : l.drop i = x :: rest) :
    l[i]? = some x ∧ l.drop (i + 1) = rest := by
  have hx : (l.drop i)[0]? = some x := by rw [h]; rfl
  rw [List.getElem?_drop] at hx
  refine ⟨hx, ?_⟩
  rw [← List.drop_drop, h]
  rfl

/-- What comes of running the operations from one position on. -/
structure RanOps (st : SmState) (i : Nat) (v : TaskView) (r : Nat × List Did × Option Int) : Prop where
  allows : v.AllowsAll r.2.1
  node : (v.afterAll r.2.1).node = v.node
  success : r.2.2 = none → (v.afterAll r.2.1).Ready ∧ st.Reached i r.1 ((v.afterAll r.2.1).steps.map Prod.fst)
  failure : ∀ rtn, r.2.2 = some rtn → rtn < 0 ∧ (v.afterAll r.2.1).rtn = rtn ∧
    ∃ p, st.Ran p ((v.afterAll r.2.1).steps.map Prod.fst)

/-- Operations are called one after the other, until one fails. -/
theorem runOps_ran (ans : Nat → Int) (rest : List SmOp) (hdrop : st.sOpList.drop i = rest)
    (hran : st.Ran i (v.steps.map Prod.fst)) (hready : v.Ready) : RanOps st i v (runOps ans i rest) := by
  induction rest generalizing i v with
  | nil =>
    have hlen : i = st.sOpList.length := Nat.le_antisymm hran.1 (List.drop_eq_nil_iff.mp hdrop)
    have hcount : st.sOpList.count .trigger = (st.sOpList.take i).count .trigger := by rw [hlen, List.take_length]
    exact ⟨trivial, rfl, fun _ => ⟨hready, Or.inr ⟨hlen, hcount, hlen ▸ hran⟩⟩, fun rtn h => by cases h⟩
  | cons o rest ih =>
    obtain ⟨ho, hrest⟩ := getElem?_of_drop i hdrop
    cases o with
    | trigger => exact ⟨trivial, rfl, fun _ => ⟨hready, Or.inl ⟨i, rfl, ho, rfl, hran⟩⟩, fun rtn h => by cases h⟩
    | call o_call =>
      have hnext := hran.next ho
      rw [← v.map_steps _ (ans i)] at hnext
      rw [runOps]
      split
      next hfail =>
        refine ⟨⟨hready, trivial⟩, rfl, (fun h => by cases h), fun rtn h => ?_⟩
        cases h
        exact ⟨hfail, if_pos hfail, i + 1, hnext⟩
      next hfail =>
        have hmore := ih hrest hnext (v.ready_op hfail i o_call)
        refine ⟨⟨hready, hmore.allows⟩, hmore.node, fun h => ?_, hmore.failure⟩
        obtain ⟨hw, hreached⟩ := hmore.success h
        have hcount := SmState.count_take_succ ho
        rw [if_neg SmOp.noConfusion, Nat.add_zero] at hcount
        refine ⟨hw, ?_⟩
        rw [SmState.Reached, hcount] at hreached
        exact hreached

/-- What one call of a task does: it stays at its node, or goes on to the next of an edge. -/
structure Proceeds (st : SmState) (t t' : SchedTask) (v : TaskView) (out : List Did) (due : Bool) : Prop where
  allows : v.AllowsAll out
  flags : t'.tFlags = t.tFlags
  idle : due = true ∨ t'.tState = .edgeWait ∨ (v.afterAll out).steps = []
  node : t'.tPc = (v.afterAll out).node
  stands : t'.tPc = t.tPc ∧ t'.Stands st (v.afterAll out) ∨
    (∃ e ∈ st.sEdgeList, t'.tPc = e.eNext) ∧ ∀ next : SmState, t'.Stands next (v.afterAll out)

namespace SchedTask

theorem atRun_start (next : SmState) {t : SchedTask} (hop : t.tOpI = 0) (hedge : t.tEdgeI = 0) : t.AtRun next [] := by
  refine ⟨hop ▸ next.ran_start, Or.inl ⟨by rw [hop, hedge]; rfl, ?_⟩⟩
  rw [hedge]
  rcases List.eq_nil_or_concat next.sEdgeList with h | ⟨l, e, h⟩
  · exact Or.inr h
  · refine Or.inl ?_
    rw [h, List.length_concat]
    exact Nat.succ_pos _

/-- A task that has just come to a node. -/
theorem stands_start (t : SchedTask) (next : SmState) (hrtn : v.rtn = t.tRtn) (hready : v.rtn = 0)
    (hsteps : v.steps = []) (hop : t.tOpI = 0) (hedge : t.tEdgeI = 0) (hstate : t.tState = .runOps) : t.Stands next v := by
  have hrun : t.AtRun next (v.steps.map Prod.fst) := hsteps ▸ atRun_start next hop hedge
  refine ⟨⟨_, hrun.1⟩, ?_, hrtn, fun _ => ⟨⟨hready, ?_⟩, hrun⟩, ?_, ?_, ?_⟩
  · rcases hrun.2 with ⟨-, h | h⟩ | ⟨-, h⟩
    · exact Or.inl h
    · exact Or.inr ⟨h, hedge⟩
    · exact Or.inl (h ▸ Nat.lt_succ_self _)
  · intro i n c r h
    rw [hsteps] at h
    cases h
  all_goals
    intro h
    rw [hstate] at h
    cases h

theorem count_of_trigger (hp : st.Paired) (ho : st.sOpList[k]? = some .trigger) :
    (st.sOpList.take k).count .trigger < st.sEdgeList.length := by
  have hcount := SmState.count_take_succ ho
  rw [if_pos rfl] at hcount
  have hle := (List.take_sublist (k + 1) st.sOpList).count_le .trigger
  rw [hcount, hp] at hle
  exact hle

/-- A run of operations ends at the edge. -/
theorem AtRun.reached (hp : st.Paired) (h : t.AtRun st steps) (hr : st.Reached t.tOpI j xs)
    (hindex : t.tEdgeI < st.sEdgeList.length ∨ st.sEdgeList = [] ∧ t.tEdgeI = 0) :
    { t with tOpI := j, tState := .followEdges }.AtEdge st xs := by
  rcases hr with ⟨k, hj, ho, hcount, hran⟩ | ⟨hj, hcount, hran⟩
  · have hlt := count_of_trigger hp ho
    rcases h.2 with ⟨hi, hedge⟩ | ⟨hi, -⟩
    · refine Or.inl ⟨k, hj, ho, hcount.trans hi, ?_, hran⟩
      rw [hcount, hi] at hlt
      exact hlt
    · omega
  · refine Or.inr ⟨hj, hran, ?_⟩
    rcases h.2 with ⟨hi, hedge⟩ | ⟨-, hi⟩
    · rcases hedge with hedge | hedge
      · rw [hi] at hcount
        rw [SmState.Paired] at hp
        omega
      · refine Or.inr ⟨hedge, ?_⟩
        rcases hindex with hindex | hindex
        · rw [hedge] at hindex
          exact absurd hindex (Nat.not_lt_zero _)
        · exact hindex.2
    · exact Or.inl hi

theorem runOpsKcs_proceeds (hp : st.Paired) (h : t.Stands st v) (hstate : t.tState = .runOps)
    (hnode : t.tPc = v.node) :
    Proceeds st t (t.runOpsKcs st a).1 v (t.runOpsKcs st a).2.1 (t.runOpsKcs st a).2.2 := by
  obtain ⟨hready, hrun⟩ := h.runs hstate
  have hran := runOps_ran a.ops _ rfl hrun.1 hready
  rw [runOpsKcs]
  generalize runOps a.ops t.tOpI (st.sOpList.drop t.tOpI) = r at hran
  obtain ⟨j, out, err⟩ := r
  obtain ⟨hallows, hn, hnone, hsome⟩ := hran
  cases err with
  | none =>
    obtain ⟨hw, hreached⟩ := hnone rfl
    refine ⟨hallows, rfl, Or.inl rfl, hnode.trans hn.symm, Or.inl ⟨rfl, ?_⟩⟩
    have hedge := hrun.reached hp hreached h.index
    refine ⟨?_, h.index, hw.1.trans (hready.1.symm.trans h.rtn), (fun hs => by cases hs), fun _ => ⟨hw, hedge⟩,
      (fun hs => by cases hs), fun hs => by cases hs⟩
    rcases hedge with ⟨k, -, -, -, -, hran⟩ | ⟨-, hran, -⟩ <;> exact ⟨_, hran⟩
  | some rtn =>
    obtain ⟨hneg, hrtn, hran⟩ := hsome rtn rfl
    refine ⟨hallows, rfl, Or.inl rfl, hnode.trans hn.symm, Or.inl ⟨rfl, ?_⟩⟩
    exact ⟨hran, h.index, hrtn, (fun hs => by cases hs), (fun hs => by cases hs), (fun hs => by cases hs),
      fun _ => Or.inl (hrtn ▸ hneg)⟩

/-- The edge a task is at, once it is tried. -/
theorem AtEdge.tried {e : SmEdge} (hp : st.Paired) (h : t.AtEdge st steps) (he : st.sEdgeList[t.tEdgeI]? = some e) :
    t.PastEdge st (steps ++ [.edge t.tEdgeI e.eNext e.eCall]) := by
  have hlt : t.tEdgeI < st.sEdgeList.length := (List.getElem?_eq_some_iff.mp he).1
  rcases h with ⟨k, hk, ho, hcount, -, hran⟩ | ⟨hk, hran, hlast⟩
  · have hnext := hran.next ho
    have hsucc := SmState.count_take_succ ho
    rw [if_pos rfl, hcount] at hsucc
    rw [SmState.stepAt, hcount, he] at hnext
    rw [← hk] at hnext hsucc
    exact ⟨hnext, hsucc, hlt⟩
  · have hlen : t.tEdgeI + 1 = st.sEdgeList.length := by
      rcases hlast with hlast | ⟨hnil, -⟩
      · exact hlast
      · rw [hnil] at hlt
        exact absurd hlt (Nat.not_lt_zero _)
    have hne : st.sEdgeList ≠ [] := List.ne_nil_of_length_pos (by omega)
    have hagain := hran.again hne
    have hindex : st.sEdgeList.length - 1 = t.tEdgeI := by omega
    rw [SmState.lastStep, hindex, he] at hagain
    refine ⟨hk ▸ hagain, ?_, hlt⟩
    rw [hk, List.take_length, hp, hlen]

/-- A task whose edge does not lead on, while there are more. -/
theorem PastEdge.goesOn (h : t.PastEdge st steps) (hlt : t.tEdgeI + 1 < st.sEdgeList.length) :
    { t with tEdgeI := t.tEdgeI + 1, tState := .runOps }.AtRun st steps :=
  ⟨h.1, Or.inl ⟨h.2.1, Or.inl hlt⟩⟩

theorem PastEdge.runsOut (h : t.PastEdge st steps) (hlast : t.tEdgeI + 1 = st.sEdgeList.length) :
    { t with tState := .runOps }.AtRun st steps :=
  ⟨h.1, Or.inr ⟨h.2.1.trans hlast, hlast⟩⟩

theorem stands_runs (hready : v.Ready) (hrun : t.AtRun st (v.steps.map Prod.fst)) (hstate : t.tState = .runOps)
    (hrtn : t.tRtn = 0) (hindex : t.tEdgeI < st.sEdgeList.length) : t.Stands st v := by
  refine ⟨⟨_, hrun.1⟩, Or.inl hindex, hready.1.trans hrtn.symm, fun _ => ⟨hready, hrun⟩, ?_, ?_, ?_⟩
  all_goals
    intro h
    rw [hstate] at h
    cases h

theorem stands_over (hran : ∃ p, st.Ran p (v.steps.map Prod.fst)) (hover : v.Over st) (hstate : t.tState = .cleanUp)
    (hrtn : v.rtn = t.tRtn) (hindex : t.tEdgeI < st.sEdgeList.length ∨ st.sEdgeList = [] ∧ t.tEdgeI = 0) :
    t.Stands st v := by
  refine ⟨hran, hindex, hrtn, ?_, ?_, ?_, fun _ => hover⟩
  all_goals
    intro h
    rw [hstate] at h
    cases h

theorem followEdges_proceeds {due : Bool} {t' : SchedTask} (hp : st.Paired) (h : t.Stands st v)
    (hstate : t.tState = .followEdges) (hnode : t.tPc = v.node) (hf : t.followEdges st a = some (t', out, due)) :
    Proceeds st t t' v out due := by
  obtain ⟨hready, hedge⟩ := h.follows hstate
  have hzero : t.tRtn = 0 := h.rtn.symm.trans hready.1
  rw [followEdges] at hf
  split at hf
  next hnil =>
    cases hf
    refine ⟨trivial, rfl, Or.inl rfl, hnode, Or.inl ⟨rfl, stands_over h.ran ?_ rfl h.rtn h.index⟩⟩
    refine Or.inr (Or.inl ⟨hnil, ?_⟩)
    rcases hedge with ⟨k, -, -, -, hlt, -⟩ | ⟨-, ⟨-, m, hm, hsteps⟩, -⟩
    · rw [hnil] at hlt
      exact absurd hlt (Nat.not_lt_zero _)
    · have hm0 : m = 0 := hm.resolve_right fun hne => hne.2 hnil
      rw [hm0, ← st.length_script, List.take_length] at hsteps
      exact hsteps.trans (List.append_nil _)
  next hne =>
    obtain ⟨e, he, hf⟩ := Option.map_eq_some_iff.mp hf
    dsimp only at hf
    have hpast := hedge.tried hp he
    generalize hr : (if e.eCall = none then edgeOkay else a.rtn) = rtn at hf
    rw [← v.map_steps _ rtn] at hpast
    split at hf
    next hokay =>
      cases hf
      refine ⟨⟨hready, ?_, trivial⟩, rfl, Or.inr (Or.inr rfl), rfl, Or.inr ⟨⟨e, List.mem_of_getElem? he, rfl⟩, ?_⟩⟩
      · exact ⟨t.tEdgeI, e.eCall, rtn, List.getLast?_concat, Or.inl hokay⟩
      · exact fun next => stands_start _ next hzero.symm rfl rfl rfl rfl rfl
    next hokay =>
      split at hf
      next hwait =>
        cases hf
        refine ⟨⟨hready, trivial⟩, rfl, Or.inr (Or.inl rfl), hnode, Or.inl ⟨rfl, ?_⟩⟩
        refine ⟨⟨_, hpast.1⟩, h.index, hzero.symm, (fun hs => by cases hs), (fun hs => by cases hs), fun _ => ?_,
          fun hs => by cases hs⟩
        refine ⟨⟨rfl, rfl, t.tEdgeI, e.eNext, e.eCall, ?_⟩, hpast, e, rtn, he, List.getLast?_concat⟩
        rw [← hwait]
        exact List.getLast?_concat
      next hwait =>
        have hnext := v.ready_refused hokay hwait t.tEdgeI e.eNext e.eCall
        split at hf
        next hmore =>
          cases hf
          refine ⟨⟨hready, trivial⟩, rfl, Or.inl rfl, hnode, Or.inl ⟨rfl, ?_⟩⟩
          exact stands_runs hnext (hpast.goesOn hmore) rfl hzero hmore
        next hmore =>
          cases hf
          refine ⟨⟨hready, trivial⟩, rfl, Or.inl rfl, hnode, Or.inl ⟨rfl, ?_⟩⟩
          refine stands_over ⟨_, hpast.1⟩ (Or.inr (Or.inr ?_)) rfl hzero.symm h.index
          have hindex : st.sEdgeList.length - 1 = t.tEdgeI := by
            have hlt := hpast.2.2
            omega
          have hstep : st.lastStep = .edge t.tEdgeI e.eNext e.eCall := by
            rw [SmState.lastStep, hindex, he]
            rfl
          rw [hstep, TaskView.afterAll, List.foldl_cons, List.foldl_nil, v.map_steps]
          exact List.getLast?_concat

theorem waited_proceeds {due : Bool} {t' : SchedTask} (h : t.Stands st v) (hstate : t.tState = .edgeWait)
    (hnode : t.tPc = v.node) (hf : t.waited st a = some (t', out, due)) : Proceeds st t t' v out due := by
  obtain ⟨hwaits, hpast, e, r, he, hlast⟩ := h.waits hstate
  have hzero : t.tRtn = 0 := h.rtn.symm.trans hwaits.1
  obtain ⟨i, n, c, hl⟩ := hwaits.2.2
  have hr : r = edgeWait := by
    rw [hl] at hlast
    cases hlast
    rfl
  subst hr
  rw [waited] at hf
  cases hmessage : a.message with
  | none =>
    rw [hmessage] at hf
    cases hf
    refine ⟨⟨hwaits, trivial⟩, rfl, Or.inl rfl, hnode, Or.inl ⟨rfl, stands_over h.ran (Or.inl ?_) rfl rfl h.index⟩⟩
    exact Int.negSucc_lt_zero 0
  | some p =>
    rw [hmessage] at hf
    dsimp only at hf
    split at hf
    next hok =>
      rw [he] at hf
      cases hf
      refine ⟨⟨hwaits, ?_, trivial⟩, rfl, Or.inr (Or.inr rfl), rfl, Or.inr ⟨⟨e, List.mem_of_getElem? he, rfl⟩, ?_⟩⟩
      · exact ⟨t.tEdgeI, e.eCall, edgeWait, hlast, Or.inr ⟨rfl, congrArg some hok⟩⟩
      · exact fun next => stands_start _ next h.rtn hwaits.1 rfl rfl rfl rfl
    next hok =>
      have hready : (v.after (.told (some p))).Ready := by
        refine ⟨hwaits.1, fun j m d r hj => ?_⟩
        have heq : v.steps.getLast? = some (.edge j m d, r) := hj
        rw [hlast] at heq
        cases heq
        exact ⟨by decide, fun _ => congrArg some (Bool.eq_false_of_not_eq_true hok)⟩
      split at hf
      next hmore =>
        cases hf
        refine ⟨⟨hwaits, trivial⟩, rfl, Or.inl rfl, hnode, Or.inl ⟨rfl, ?_⟩⟩
        exact stands_runs hready (hpast.goesOn hmore) rfl hzero hmore
      next hmore =>
        cases hf
        refine ⟨⟨hwaits, trivial⟩, rfl, Or.inl rfl, hnode, Or.inl ⟨rfl, ?_⟩⟩
        have hlast' : t.tEdgeI + 1 = st.sEdgeList.length := Nat.le_antisymm hpast.2.2 (Nat.le_of_not_lt hmore)
        exact stands_runs hready (hpast.runsOut hlast') rfl hzero hpast.2.2

/-- A task that is at a node always finds its edge, and keeps to the script. -/
theorem process_proceeds (hp : st.Paired) (h : t.Stands st v) (hstate : t.tState ≠ .cleanUp)
    (hnode : t.tPc = v.node) :
    ∃ t' out due, t.process st a = some (t', out, due) ∧ Proceeds st t t' v out due := by
  rw [process]
  cases hs : t.tState with
  | cleanUp => exact absurd hs hstate
  | runOps => exact ⟨_, _, _, rfl, runOpsKcs_proceeds hp h hs hnode⟩
  | followEdges =>
    have hsome : ∃ r, t.followEdges st a = some r := by
      rw [followEdges]
      split
      next => exact ⟨_, rfl⟩
      next hne =>
        have hlt := h.index.resolve_right fun hnil => hne hnil.1
        rw [List.getElem?_eq_getElem hlt]
        exact ⟨_, rfl⟩
    obtain ⟨⟨t', out, due⟩, hf⟩ := hsome
    exact ⟨t', out, due, hf, followEdges_proceeds hp h hs hnode hf⟩
  | edgeWait =>
    have hsome : ∃ r, t.waited st a = some r := by
      rw [waited]
      obtain ⟨-, -, e, r, he, -⟩ := h.waits hs
      cases a.message with
      | none => exact ⟨_, rfl⟩
      | some p =>
        dsimp only
        rw [he]
        split
        next => exact ⟨_, rfl⟩
        next =>
          split
          next => exact ⟨_, rfl⟩
          next => exact ⟨_, rfl⟩
    obtain ⟨⟨t', out, due⟩, hf⟩ := hsome
    exact ⟨t', out, due, hf, waited_proceeds h hs hnode hf⟩

end SchedTask

end

end Katcp
