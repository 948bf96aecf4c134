import Katcp.TaskScript

namespace Katcp

open StateMachines

/-- A live task, and what its events tell. -/
structure TaskFollows (s : StateMachines) (e : TaskEntry) (v : TaskView) : Prop where
  client : v.client = e.client
  name : v.name = e.name
  flags : v.flags = e.task.tFlags
  stopped : v.stopped = none
  node : e.task.tPc = v.node
  place : ∃ st, s.node v.node = some st ∧ e.task.Stands st v
  idle : e.due = true ∨ e.task.tState = .edgeWait ∨ v.steps = []

structure TasksInv (s : StateMachines) (log : List SmEvent) : Prop where
  crashed : s.crashed = false
  fitting : Fitting Allowed [] log
  tasks : ∀ t, s.tasks t = none ∧ viewOf t log = none ∨
    ∃ e v, s.tasks t = some e ∧ viewOf t log = some v ∧ TaskFollows s e v
  nodes : ∀ st ∈ s.states, st.Paired ∧ ∀ e ∈ st.sEdgeList, e.eNext < s.states.length
  fresh : ∀ ev ∈ log, ∀ t, ev.task = some t → t < s.fresh

/-- No task is at the node of that name. -/
def Unvisited (s : StateMachines) (name : Text) : Prop :=
  ∀ t e, s.tasks t = some e → s.findNode name ≠ some e.task.tPc

/-- A node is only added to while no task is at it, the nodes are only freed while there are no tasks, and then
not looked for again. -/
def Careful (s : StateMachines) (a : SmAction) : Prop :=
  (searches a = true → s.freed = false) ∧
    match a with
    | .op state _ => Unvisited s state
    | .edge current _ _ => Unvisited s current
    | .flush => ∀ t, s.tasks t = none
    | _ => True

section

variable {s s' : StateMachines} {log out : List SmEvent} {ev : SmEvent} {t k : TaskId} {e : TaskEntry}
  {v : TaskView} {dids : List Did} {a : SmAction} {ids : List TaskId} {client : ClientId}

theorem viewOf_append (t : TaskId) (log out : List SmEvent) :
    viewOf t (log ++ out) = out.foldl (SmEvent.view t) (viewOf t log) := List.foldl_append

theorem view_other {v : Option TaskView} (h : ev.task ≠ some t) : ev.view t v = v := by
  cases ev with
  | result r => rfl
  | started k client name flags node => exact if_neg (fun hk => h (congrArg some hk))
  | did k d => exact if_neg (fun hk => h (congrArg some hk))
  | stopped k client => exact if_neg (fun hk => h (congrArg some hk))
  | ended k reply => exact if_neg (fun hk => h (congrArg some hk))
  | lost k => exact if_neg (fun hk => h (congrArg some hk))

theorem viewOf_other (log : List SmEvent) (h : ∀ ev ∈ out, ev.task ≠ some t) :
    viewOf t (log ++ out) = viewOf t log := by
  induction out generalizing log with
  | nil => rw [List.append_nil]
  | cons ev out ih =>
    rw [List.append_cons, ih (log ++ [ev]) fun x hx => h x (List.mem_cons_of_mem ev hx), viewOf_append]
    exact view_other (h ev List.mem_cons_self)

theorem viewOf_none (h : ∀ ev ∈ log, ev.task ≠ some t) : viewOf t log = none := viewOf_other [] h

theorem viewOf_did (dids : List Did) (hv : viewOf t log = some v) :
    viewOf t (log ++ dids.map (.did t)) = some (v.afterAll dids) := by
  induction dids generalizing log v with
  | nil =>
    rw [List.map_nil, List.append_nil]
    exact hv
  | cons d dids ih =>
    have hnext : viewOf t (log ++ [.did t d]) = some (v.after d) := by
      rw [viewOf_append, hv]
      exact if_pos rfl
    rw [List.map_cons, List.append_cons]
    exact ih hnext

theorem fitting_did (hv : viewOf t log = some v) (h : v.AllowsAll dids) :
    Fitting Allowed log (dids.map (.did t)) := by
  induction dids generalizing log v with
  | nil => trivial
  | cons d dids ih =>
    have hnext : viewOf t (log ++ [.did t d]) = some (v.after d) := by
      rw [viewOf_append, hv]
      exact if_pos rfl
    exact ⟨⟨v, hv, h.1⟩, ih hnext h.2⟩

theorem task_did (h : ev ∈ dids.map (SmEvent.did t)) : ev.task = some t := by
  obtain ⟨d, -, rfl⟩ := List.mem_map.mp h
  rfl

theorem TaskFollows.of_node (h : TaskFollows s e v) (hnode : s'.node e.task.tPc = s.node e.task.tPc) :
    TaskFollows s' e v := by
  obtain ⟨st, hst, hstands⟩ := h.place
  refine ⟨h.client, h.name, h.flags, h.stopped, h.node, ⟨st, ?_, hstands⟩, h.idle⟩
  rw [← h.node, hnode, h.node]
  exact hst

namespace TasksInv

theorem start : TasksInv .initial [] :=
  ⟨rfl, trivial, fun _ => Or.inl ⟨rfl, rfl⟩, fun _ h => absurd h List.not_mem_nil,
    fun _ h => absurd h List.not_mem_nil⟩

/-- A change to the nodes that no task is at. -/
theorem nodesChanged (h : TasksInv s log) (hcrashed : s'.crashed = s.crashed) (htasks : s'.tasks = s.tasks)
    (hfresh : s'.fresh = s.fresh) (hnode : ∀ t e, s.tasks t = some e → s'.node e.task.tPc = s.node e.task.tPc)
    (hnodes : ∀ st ∈ s'.states, st.Paired ∧ ∀ e ∈ st.sEdgeList, e.eNext < s'.states.length) (r : KatcpResult) :
    TasksInv s' (log ++ [.result r]) := by
  have hfit : Fitting Allowed [] (log ++ [.result r]) := (fitting_append [] log _).mpr ⟨h.fitting, trivial, trivial⟩
  refine ⟨hcrashed.trans h.crashed, hfit, fun t => ?_, hnodes, ?_⟩
  · have hview : viewOf t (log ++ [.result r]) = viewOf t log := viewOf_append t log _
    rw [htasks, hview]
    rcases h.tasks t with hnone | ⟨e, v, he, hv, hf⟩
    · exact Or.inl hnone
    · exact Or.inr ⟨e, v, he, hv, hf.of_node (hnode t e he)⟩
  · intro ev hev t ht
    rw [hfresh]
    rcases List.mem_append.mp hev with hev | hev
    · exact h.fresh ev hev t ht
    · rw [List.mem_singleton.mp hev] at ht
      cases ht

theorem replied (h : TasksInv s log) (r : KatcpResult) : TasksInv s (log ++ [.result r]) :=
  h.nodesChanged rfl rfl rfl (fun _ _ _ => rfl) h.nodes r

/-- A change to one task. -/
theorem taskChanged (h : TasksInv s log) (hcrashed : s'.crashed = s.crashed) (hstates : s'.states = s.states)
    (hfreed : s'.freed = s.freed) (hfresh : s.fresh ≤ s'.fresh) (ht : t < s'.fresh)
    (hother : ∀ k, k ≠ t → s'.tasks k = s.tasks k) (hout : ∀ ev ∈ out, ev.task = some t)
    (hfit : Fitting Allowed log out)
    (htask : s'.tasks t = none ∧ viewOf t (log ++ out) = none ∨
      ∃ e v, s'.tasks t = some e ∧ viewOf t (log ++ out) = some v ∧ TaskFollows s e v) :
    TasksInv s' (log ++ out) := by
  have hnode : ∀ i, s'.node i = s.node i := fun i => by rw [StateMachines.node, hfreed, hstates]; rfl
  refine ⟨hcrashed.trans h.crashed, (fitting_append [] log out).mpr ⟨h.fitting, hfit⟩, fun k => ?_, ?_, ?_⟩
  · rcases eq_or_ne k t with rfl | hk
    · rcases htask with hnone | ⟨e, v, he, hv, hf⟩
      · exact Or.inl hnone
      · exact Or.inr ⟨e, v, he, hv, hf.of_node (hnode _)⟩
    · rw [hother k hk, viewOf_other log fun ev hev heq => hk (Option.some.inj (heq.symm.trans (hout ev hev)))]
      rcases h.tasks k with hnone | ⟨e, v, he, hv, hf⟩
      · exact Or.inl hnone
      · exact Or.inr ⟨e, v, he, hv, hf.of_node (hnode _)⟩
  · rw [hstates]
    exact h.nodes
  · intro ev hev k hk
    rcases List.mem_append.mp hev with hev | hev
    · exact Nat.lt_of_lt_of_le (h.fresh ev hev k hk) hfresh
    · rw [hout ev hev] at hk
      cases hk
      exact ht

/-- What is known of a task that is alive. -/
theorem follows (h : TasksInv s log) (he : s.tasks t = some e) : ∃ v, viewOf t log = some v ∧ TaskFollows s e v := by
  rcases h.tasks t with ⟨hnone, -⟩ | ⟨e', v, he', hv, hf⟩
  · rw [he] at hnone
    cases hnone
  · rw [he] at he'
    cases he'
    exact ⟨v, hv, hf⟩

theorem lt_fresh (h : TasksInv s log) (he : s.tasks t = some e) : t < s.fresh := by
  obtain ⟨v, hv, -⟩ := h.follows he
  by_contra hle
  have hnone : viewOf t log = none := viewOf_none fun ev hev heq => hle (h.fresh ev hev t heq)
  rw [hnone] at hv
  cases hv

theorem place (h : TasksInv s log) (he : s.tasks t = some e) : s.freed = false ∧ e.task.tPc < s.states.length := by
  obtain ⟨v, -, hf⟩ := h.follows he
  obtain ⟨st, hst, -⟩ := hf.place
  rw [← hf.node, StateMachines.node] at hst
  split at hst
  next => cases hst
  next hfreed => exact ⟨Bool.eq_false_of_not_eq_true hfreed, (List.getElem?_eq_some_iff.mp hst).1⟩

theorem createNamedNode (h : TasksInv s log) (name : Option Text) :
    TasksInv (s.createNamedNode name).1 (log ++ (s.createNamedNode name).2) := by
  cases name with
  | none => exact h.replied _
  | some name =>
    rw [StateMachines.createNamedNode]
    split
    next => exact h.replied _
    next =>
      refine @nodesChanged s { s with states := s.states ++ [⟨name, [], []⟩] } log h rfl rfl rfl (fun t e he => ?_)
        (fun st hst => ?_) _
      · rw [StateMachines.node, StateMachines.node, List.getElem?_append_left (h.place he).2]
      · rw [List.length_append]
        rcases List.mem_append.mp hst with hst | hst
        · exact ⟨(h.nodes st hst).1, fun e he => Nat.lt_add_right 1 ((h.nodes st hst).2 e he)⟩
        · rw [List.mem_singleton.mp hst]
          exact ⟨rfl, fun e he => absurd he List.not_mem_nil⟩

/-- A change to one node that no task is at. -/
theorem setNode {i : StateId} {st : SmState} {name : Text} (h : TasksInv s log) (hi : s.findNode name = some i)
    (hfree : Unvisited s name) (hst : st.Paired ∧ ∀ e ∈ st.sEdgeList, e.eNext < s.states.length) (r : KatcpResult) :
    TasksInv (s.setNode i st) (log ++ [.result r]) := by
  refine @nodesChanged _ (s.setNode i st) _ h rfl rfl rfl (fun t e he => ?_) (fun x hx => ?_) r
  · have hne : i ≠ e.task.tPc := fun heq => hfree t e he (heq ▸ hi)
    rw [StateMachines.node, StateMachines.node, StateMachines.setNode, List.getElem?_set_ne hne]
  · rw [StateMachines.setNode, List.length_set]
    rcases List.mem_or_eq_of_mem_set hx with hx | rfl
    · exact h.nodes x hx
    · exact hst

theorem createNamedOp (h : TasksInv s log) {state : Text} (hfree : Unvisited s state) (setup : Option Nat) :
    TasksInv (s.createNamedOp state setup).1 (log ++ (s.createNamedOp state setup).2) := by
  unfold StateMachines.createNamedOp
  split
  next i o_call hi =>
    split
    next => exact h.replied _
    next st hst =>
      obtain ⟨hpaired, hedges⟩ := h.nodes st (List.mem_of_getElem? hst)
      refine @setNode s log i { st with sOpList := st.sOpList ++ [.call o_call] } state h hi hfree ⟨?_, hedges⟩ _
      rw [SmState.Paired, List.count_append]
      exact hpaired
  next => exact h.replied _

theorem createNamedEdge (h : TasksInv s log) {current : Text} (hfree : Unvisited s current) (next : Text)
    (setup : Option (Option Nat)) :
    TasksInv (s.createNamedEdge current next setup).1 (log ++ (s.createNamedEdge current next setup).2) := by
  unfold StateMachines.createNamedEdge
  split
  next i j e_call hi hj =>
    split
    next => exact h.replied _
    next st hst =>
      obtain ⟨hpaired, hedges⟩ := h.nodes st (List.mem_of_getElem? hst)
      refine @setNode s log i ⟨st.sName, st.sEdgeList ++ [⟨j, e_call⟩], st.sOpList ++ [.trigger]⟩ current h hi hfree
        ⟨?_, fun e he => ?_⟩ _
      · rw [SmState.Paired, List.count_append, List.length_append, hpaired]
        rfl
      · rcases List.mem_append.mp he with he | he
        · exact hedges e he
        · rw [List.mem_singleton.mp he]
          exact (List.findIdx?_eq_some_iff_getElem.mp hj).1
  next => exact h.replied _

theorem startProcess {node name : Text} {flags : Nat} (h : TasksInv s log) (hfreed : s.freed = false)
    (hs : s.startProcess client node name flags = some (s', out)) : TasksInv s' (log ++ out) := by
  obtain ⟨i, hi, hs⟩ := Option.map_eq_some_iff.mp hs
  cases hs
  have hnew : ∀ ev ∈ log, ev.task ≠ some s.fresh := fun ev hev heq => Nat.lt_irrefl _ (h.fresh ev hev _ heq)
  have hlt : i < s.states.length := (List.findIdx?_eq_some_iff_getElem.mp hi).1
  refine h.taskChanged (t := s.fresh) rfl rfl rfl (Nat.le_succ _) (Nat.lt_succ_self _) (fun k hk => ?_) ?_
    (And.intro hnew trivial) ?_
  · exact Function.update_of_ne hk _ _
  · exact fun ev hev => by rw [List.mem_singleton.mp hev]; rfl
  · refine Or.inr ⟨_, ⟨client, name, flags, i, [], none, 0, none⟩, Function.update_self _ _ _, ?_, ?_⟩
    · rw [viewOf_append, viewOf_none hnew]
      exact if_pos rfl
    · refine ⟨rfl, rfl, rfl, rfl, rfl, ⟨s.states[i], ?_, ?_⟩, Or.inl rfl⟩
      · rw [StateMachines.node]
        show (if s.freed then none else s.states[i]?) = _
        rw [hfreed, List.getElem?_eq_getElem hlt]
        rfl
      · exact SchedTask.stands_start _ _ rfl rfl rfl rfl rfl rfl

theorem runCmd (h : TasksInv s log) (node : Option Text) (name : Text)
    (hfreed : node.isSome = true → s.freed = false) :
    TasksInv (s.runCmd client node name).1 (log ++ (s.runCmd client node name).2) := by
  rw [StateMachines.runCmd]
  split
  next => exact h.replied _
  next s' out hs =>
    obtain ⟨x, hx, hs⟩ := Option.bind_eq_some_iff.mp hs
    rw [← List.append_assoc]
    exact (h.startProcess (hfreed (hx ▸ rfl)) hs).replied _

theorem wake (h : TasksInv s log) (he : s.tasks t = some e) :
    TasksInv (s.putTask t (some { e with due := true })) (log ++ []) := by
  obtain ⟨v, hv, hf⟩ := h.follows he
  refine h.taskChanged rfl rfl rfl (Nat.le_refl _) (h.lt_fresh he) (fun k hk => Function.update_of_ne hk _ _) ?_
    trivial ?_
  · exact fun ev hev => absurd hev List.not_mem_nil
  · rw [List.append_nil]
    refine Or.inr ⟨_, v, Function.update_self _ _ _, hv, ?_⟩
    exact ⟨hf.client, hf.name, hf.flags, hf.stopped, hf.node, hf.place, Or.inl rfl⟩

/-- A task that goes is said to. -/
theorem gone (h : TasksInv s log) (he : s.tasks t = some e) (hev : ev.task = some t) (hallowed : Allowed log ev)
    (hview : ∀ v, ev.view t v = none) : TasksInv (s.putTask t none) (log ++ [ev]) := by
  refine h.taskChanged rfl rfl rfl (Nat.le_refl _) (h.lt_fresh he) (fun k hk => Function.update_of_ne hk _ _) ?_
    ⟨hallowed, trivial⟩ (Or.inl ⟨Function.update_self _ _ _, ?_⟩)
  · exact fun x hx => List.mem_singleton.mp hx ▸ hev
  · rw [viewOf_append]
    exact hview _

/-- A task that is stopped by a client, or cleaned up under its own, ends. -/
theorem reply_eq (hname : v.name = e.name) (hflags : v.flags = e.task.tFlags) (hrtn : v.rtn = e.task.tRtn)
    (hclient : v.stopped.getD v.client = client) :
    (if e.task.tFlags &&& processMaster ≠ 0 then some (client, e.task.ending e.name) else none) = v.reply := by
  rw [TaskView.reply, hname, hflags, hrtn, hclient, SchedTask.ending]

theorem cleanUp (h : TasksInv s log) (he : s.tasks t = some e) :
    TasksInv (s.cleanUp t e e.client).1 (log ++ (s.cleanUp t e e.client).2) := by
  obtain ⟨v, hv, hf⟩ := h.follows he
  obtain ⟨st, -, hstands⟩ := hf.place
  refine h.gone he rfl ⟨v, hv, reply_eq hf.name hf.flags hstands.rtn ?_⟩ fun v => if_pos rfl
  rw [hf.stopped]
  exact hf.client

theorem stopTask (h : TasksInv s log) (client : ClientId) (t : TaskId) :
    TasksInv (s.stopTask client t).1 (log ++ (s.stopTask client t).2) := by
  rw [StateMachines.stopTask]
  split
  next =>
    rw [List.append_nil]
    exact h
  next e he =>
    obtain ⟨v, hv, hf⟩ := h.follows he
    obtain ⟨st, -, hstands⟩ := hf.place
    have hstopped : viewOf t (log ++ [.stopped t client]) = some { v with stopped := some client } := by
      rw [viewOf_append, hv]
      exact if_pos rfl
    refine h.taskChanged rfl rfl rfl (Nat.le_refl _) (h.lt_fresh he) (fun k hk => Function.update_of_ne hk _ _) ?_ ?_
      (Or.inl ⟨Function.update_self _ _ _, ?_⟩)
    · exact List.forall_mem_cons.mpr ⟨rfl, List.forall_mem_singleton.mpr rfl⟩
    · refine ⟨Option.isSome_of_eq_some hv, ⟨_, hstopped, ?_⟩, trivial⟩
      exact @reply_eq e { v with stopped := some client } client hf.name hf.flags hstands.rtn rfl
    · rw [viewOf_append]
      exact if_pos rfl

theorem stopTasks (h : TasksInv s log) (client : ClientId) (ids : List TaskId) :
    TasksInv (s.stopTasks client ids).1 (log ++ (s.stopTasks client ids).2) := by
  induction ids generalizing s log with
  | nil =>
    rw [StateMachines.stopTasks, List.append_nil]
    exact h
  | cons t ids ih =>
    rw [StateMachines.stopTasks, ← List.append_assoc]
    exact ih (h.stopTask client t)

theorem dropTasks (h : TasksInv s log) (client : ClientId) (ids : List TaskId) :
    TasksInv (s.dropTasks client ids).1 (log ++ (s.dropTasks client ids).2) := by
  induction ids generalizing s log with
  | nil =>
    rw [StateMachines.dropTasks, List.append_nil]
    exact h
  | cons t ids ih =>
    rw [StateMachines.dropTasks]
    split
    next hof =>
      cases he : s.tasks t with
      | none =>
        rw [he] at hof
        cases hof
      | some e =>
        obtain ⟨v, hv, -⟩ := h.follows he
        rw [List.append_cons]
        exact ih (h.gone he rfl (Option.isSome_of_eq_some hv) fun v => if_pos rfl)
    next => exact ih h

theorem processTask (h : TasksInv s log) (he : s.tasks t = some e) (a : SmAnswers) :
    TasksInv (s.processTask t e a).1 (log ++ (s.processTask t e a).2) := by
  rw [StateMachines.processTask]
  split
  next => exact h.cleanUp he
  next hstate =>
    obtain ⟨v, hv, hf⟩ := h.follows he
    obtain ⟨st, hst, hstands⟩ := hf.place
    have hnode : s.node e.task.tPc = some st := hf.node ▸ hst
    have hstates : s.states[e.task.tPc]? = some st := by
      rw [StateMachines.node, (h.place he).1] at hnode
      exact hnode
    obtain ⟨hpaired, hedges⟩ := h.nodes st (List.mem_of_getElem? hstates)
    obtain ⟨t', dids, due, hp, hproceeds⟩ := SchedTask.process_proceeds hpaired hstands hstate hf.node
    obtain ⟨hclient, hname, hflags, hstopped⟩ := v.afterAll_fixed dids
    rw [hnode, Option.bind_some, hp]
    dsimp only
    refine h.taskChanged rfl rfl rfl (Nat.le_refl _) (h.lt_fresh he) (fun k hk => Function.update_of_ne hk _ _)
      (fun ev hev => task_did hev) (fitting_did hv hproceeds.allows) ?_
    refine Or.inr ⟨_, _, Function.update_self _ _ _, viewOf_did dids hv, ?_⟩
    refine ⟨hclient.trans hf.client, hname.trans hf.name, ?_, hstopped.trans hf.stopped, hproceeds.node, ?_,
      hproceeds.idle⟩
    · exact (hflags.trans hf.flags).trans hproceeds.flags.symm
    · rcases hproceeds.stands with ⟨hpc, hstays⟩ | ⟨⟨edge, hmem, hpc⟩, hgoes⟩
      · refine ⟨st, ?_, hstays⟩
        rw [← hproceeds.node, hpc]
        exact hnode
      · have hlt := hedges edge hmem
        refine ⟨s.states[edge.eNext], ?_, hgoes _⟩
        rw [← hproceeds.node, hpc]
        show (if s.freed then none else s.states[edge.eNext]?) = _
        rw [(h.place he).1, List.getElem?_eq_getElem hlt]
        rfl

theorem flush (h : TasksInv s log) (hnone : ∀ t, s.tasks t = none) : TasksInv s.flush.1 (log ++ s.flush.2) := by
  rw [StateMachines.flush]
  split
  next => exact h.replied _
  next =>
    refine @nodesChanged s { s with freed := true } log h rfl rfl rfl (fun t e he => ?_) h.nodes _
    rw [hnone t] at he
    cases he

theorem of_some {r : StateMachines × List SmEvent} (hs : some r = some (s', out)) (h : TasksInv r.1 (log ++ r.2)) :
    TasksInv s' (log ++ out) := by
  cases hs
  exact h

theorem act (h : TasksInv s log) (hc : Careful s a) (hs : s.act a = some (s', out)) : TasksInv s' (log ++ out) := by
  obtain ⟨hfreed, hc⟩ := hc
  have hnot : ¬ (s.freed && searches a) = true := by
    intro hand
    obtain ⟨hyes, hsearches⟩ := Bool.and_eq_true_iff.mp hand
    rw [hfreed hsearches] at hyes
    cases hyes
  unfold StateMachines.act at hs
  rw [h.crashed, if_neg Bool.noConfusion, if_neg hnot] at hs
  cases a with
  | node name => exact of_some hs (h.createNamedNode name)
  | op state setup => exact of_some hs (h.createNamedOp hc setup)
  | edge current next setup => exact of_some hs (h.createNamedEdge hc next setup)
  | run client node name => exact of_some hs (h.runCmd node name hfreed)
  | spawn client node name => exact h.startProcess (hfreed rfl) hs
  | wake t =>
    obtain ⟨e, he, hs⟩ := Option.map_eq_some_iff.mp hs
    cases hs
    exact h.wake he
  | process t a =>
    obtain ⟨e, he, hs⟩ := Option.bind_eq_some_iff.mp hs
    split at hs
    next => exact of_some hs (h.processTask he a)
    next => cases hs
  | stopall client found =>
    dsimp only at hs
    rw [StateMachines.stopall] at hs
    split at hs
    next =>
      split at hs
      next =>
        cases hs
        exact h.replied _
      next =>
        cases hs
        rw [← List.append_assoc]
        exact (h.stopTasks client found).replied _
    next => cases hs
  | flush => exact of_some hs (h.flush hc)
  | hangup client => exact of_some hs (h.dropTasks client (List.range s.fresh))

end TasksInv

/-- A task that was there and is gone says nothing more. -/
theorem silent (rest : List SmEvent) (hfit : Fitting Allowed log rest) (hnone : viewOf t log = none)
    (hwas : ∃ ev ∈ log, ev.task = some t) : ∀ ev ∈ rest, ev.task ≠ some t := by
  induction rest generalizing log with
  | nil => exact fun ev hev => absurd hev List.not_mem_nil
  | cons ev rest ih =>
    obtain ⟨hallowed, hfit⟩ := hfit
    have hother : ev.task ≠ some t := by
      intro heq
      cases ev with
      | result r => cases heq
      | started k client name flags node =>
        cases heq
        obtain ⟨x, hx, hxt⟩ := hwas
        exact hallowed x hx hxt
      | did k d =>
        cases heq
        obtain ⟨v, hv, -⟩ := hallowed
        rw [hnone] at hv
        cases hv
      | stopped k client =>
        cases heq
        rw [Allowed, hnone] at hallowed
        cases hallowed
      | ended k reply =>
        cases heq
        obtain ⟨v, hv, -⟩ := hallowed
        rw [hnone] at hv
        cases hv
      | lost k =>
        cases heq
        rw [Allowed, hnone] at hallowed
        cases hallowed
    refine List.forall_mem_cons.mpr ⟨hother, ih hfit ?_ ?_⟩
    · rw [viewOf_append, hnone]
      exact view_other hother
    · obtain ⟨x, hx, hxt⟩ := hwas
      exact ⟨x, List.mem_append_left _ hx, hxt⟩

end

/-- A live task keeps to the script of its node: it has run a part of it or, behind the end, tried the last edge
again; it is at one of the edges, and at its end only for a failure or for want of edges; it waits for an edge, or
has just come to the node, or its next call is due. -/
structure OnScript (e : TaskEntry) (st : SmState) (v : TaskView) : Prop where
  node : e.task.tPc = v.node
  caller : v.client = e.client ∧ v.name = e.name ∧ v.flags = e.task.tFlags
  ran : ∃ p, st.Ran p (v.steps.map Prod.fst)
  index : st.sEdgeList = [] ∨ e.task.tEdgeI < st.sEdgeList.length
  finished : e.task.tState = .cleanUp → v.Over st
  waits : e.task.tState = .edgeWait → v.Waits
  due : e.due = true ∨ e.task.tState = .edgeWait ∨ v.steps = []

/-- The tasks of any run: none goes beyond its node's edges, each calls and tries what its node's script says in that
order, moves only where the edge it tried last led, and ends once, with one reply if it is a master: `ok`, or `fail`
after an operation failed or a wait ended without a message. -/
theorem tasks_follow {s : StateMachines} {log : List SmEvent} (h : smMachine.Runs Careful s log) :
    s.crashed = false ∧ Fitting Allowed [] log ∧
      (∀ first rest t reply, log = first ++ .ended t reply :: rest → ∀ ev ∈ rest, ev.task ≠ some t) ∧
      ∀ t, s.tasks t = none ∧ viewOf t log = none ∨ ∃ e v st, s.tasks t = some e ∧ viewOf t log = some v ∧
        s.node v.node = some st ∧ OnScript e st v := by
  have hinv : TasksInv s log := h.invariant TasksInv TasksInv.start
    (Machine.keeps_of_act (fun _ _ => rfl) (fun _ _ => rfl) fun _ _ _ _ _ h hc hs => h.act hc hs)
  refine ⟨hinv.crashed, hinv.fitting, fun first rest t reply hlog => ?_, fun t => ?_⟩
  · have hfit := hinv.fitting
    rw [hlog, List.append_cons, fitting_append] at hfit
    have hrest : Fitting Allowed (first ++ [.ended t reply]) rest := hfit.2
    refine silent rest hrest ?_ ⟨.ended t reply, List.mem_append_right _ List.mem_cons_self, rfl⟩
    rw [viewOf_append]
    exact if_pos rfl
  · rcases hinv.tasks t with hnone | ⟨e, v, he, hv, hf⟩
    · exact Or.inl hnone
    · obtain ⟨st, hst, hstands⟩ := hf.place
      refine Or.inr ⟨e, v, st, he, hv, hst, hf.node, ⟨hf.client, hf.name, hf.flags⟩, hstands.ran, ?_, hstands.finished,
        fun hs => (hstands.waits hs).1, hf.idle⟩
      rcases hstands.index with hlt | ⟨hnil, -⟩
      · exact Or.inr hlt
      · exact Or.inl hnil

def SmAction.turns : SmAction → Bool
  | .wake _ | .process _ _ => true
  | _ => false

theorem meets_turns (s : StateMachines) {actions : List SmAction} (h : ∀ a ∈ actions, a.turns = true) :
    smMachine.Meets Careful s actions := by
  induction actions generalizing s with
  | nil => trivial
  | cons a rest ih =>
    obtain ⟨ha, hrest⟩ := List.forall_mem_cons.mp h
    refine ⟨?_, fun s' _ => ih s' hrest⟩
    cases a with
    | wake t => exact ⟨fun h => (by cases h), trivial⟩
    | process t a => exact ⟨fun h => (by cases h), trivial⟩
    | _ => cases ha

def waitingNodes : List SmAction :=
  [.node (some (textOf "a")), .node (some (textOf "b")), .op (textOf "a") (some 3),
    .edge (textOf "a") (textOf "b") (some (some 7)), .op (textOf "a") (some 4)]

/-- The operations succeed, the edge waits. -/
def waitingCall (message : Option Words) : SmAction := .process 0 ⟨fun _ => 0, edgeWait, false, message⟩

def refusal : Words := [textOf "!tap-info", textOf "fail"]

/-- A task at a node whose only edge waits twice. -/
def waitingTask : List SmAction :=
  [.run 5 (some (textOf "a")) (textOf "sm.1"), waitingCall none, waitingCall none, .wake 0,
    waitingCall (some refusal), waitingCall none, waitingCall none]

theorem waiting_meets : smMachine.Meets Careful .initial (waitingNodes ++ waitingTask) := by
  refine ⟨⟨fun _ => rfl, trivial⟩, fun s hs => ?_⟩
  cases hs
  refine ⟨⟨fun _ => rfl, trivial⟩, fun s hs => ?_⟩
  cases hs
  refine ⟨⟨fun _ => rfl, fun t e he => by cases he⟩, fun s hs => ?_⟩
  cases hs
  refine ⟨⟨fun _ => rfl, fun t e he => by cases he⟩, fun s hs => ?_⟩
  cases hs
  refine ⟨⟨fun _ => rfl, fun t e he => by cases he⟩, fun s hs => ?_⟩
  cases hs
  exact ⟨⟨fun _ => rfl, trivial⟩, fun s _ => meets_turns s (by decide)⟩

/-- The second operation stands behind the last edge: it is run after the edge was refused, and the edge is tried
again. -/
theorem tasks_follow_waiting : ∃ s log e v st, smMachine.exec .initial (waitingNodes ++ waitingTask) = some (s, log) ∧
    s.tasks 0 = some e ∧ viewOf 0 log = some v ∧
      v.steps.map Prod.fst = [.op 0 3, .edge 0 1 (some 7), .op 2 4, .edge 0 1 (some 7)] ∧ OnScript e st v := by
  obtain ⟨-, -, -, htasks⟩ := tasks_follow (Machine.Runs.start.exec (waitingNodes ++ waitingTask) rfl waiting_meets)
  rcases htasks 0 with ⟨hnone, -⟩ | ⟨e, v, st, he, hv, -, hon⟩
  · cases hnone
  · refine ⟨_, _, e, v, st, rfl, he, hv, ?_, hon⟩
    cases hv
    rfl

end Katcp
