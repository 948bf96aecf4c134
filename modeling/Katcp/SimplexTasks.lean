import Katcp.SimplexSound

namespace Katcp

variable {κ : Type} {s s' : Simplex κ} {log out : List (SimplexEvent κ)} {a : SimplexAction κ}
  {t : SimplexTask κ} {rest : List (SimplexTask κ)}

/-- The message is done with, and answered as is due. -/
def SimplexTask.Settled (t : SimplexTask κ) : Prop := t.Ended ∧ t.replies = t.due SimplexMessage.named

/-- A command has the message, and has only given way so far. -/
structure SimplexTask.Underway (t : SimplexTask κ) (ready : Option SimplexMessage) : Prop where
  found : t.found.isSome
  ready : ready = some t.message
  silent : t.replies = []
  yielded : ∀ r ∈ t.results, r = .yield

theorem SimplexTask.Underway.not_ended {ready : Option SimplexMessage} (h : t.Underway ready) : ¬t.Ended := by
  rintro (hnone | ⟨r, hlast, hne⟩)
  · have hfound := h.found
    rw [hnone] at hfound
    cases hfound
  · exact hne (h.yielded r (List.mem_of_getLast? hlast))

structure TasksKept (s : Simplex κ) (log : List (SimplexEvent κ)) : Prop where
  order : (tasksOf log).reverse.map (·.message) ++ s.waiting = arrivalsOf log
  given : ∀ t ∈ tasksOf log, t.calls.head? = t.found.map (·.cCall)
  sent : repliesOf log = (tasksOf log).reverse.flatMap (·.replies)
  busy : ∀ call, s.dCurrent = some call → ∃ t rest, tasksOf log = t :: rest ∧ t.Underway s.lReady ∧
    ∀ u ∈ rest, u.Settled
  free : s.dCurrent = none → s.phase ≠ .inside ∧ ∀ u ∈ tasksOf log, u.Settled

/-- What happens beside the messages. -/
theorem TasksKept.aside (h : TasksKept s log) (htasks : tasksOf (log ++ out) = tasksOf log)
    (hout : arrivalsOf out = [] ∧ repliesOf out = []) (hwaiting : s'.waiting = s.waiting)
    (hready : s'.lReady = s.lReady) (hcurrent : s'.dCurrent = s.dCurrent)
    (hphase : s'.phase = .inside → s.phase = .inside) : TasksKept s' (log ++ out) := by
  refine ⟨?_, ?_, ?_, ?_, ?_⟩
  · rw [htasks, hwaiting, h.order]
    unfold arrivalsOf at hout ⊢
    rw [List.filterMap_append, hout.1, List.append_nil]
  · rw [htasks]
    exact h.given
  · rw [htasks, ← h.sent]
    unfold repliesOf at hout ⊢
    rw [List.filterMap_append, hout.2, List.append_nil]
  · rw [htasks, hready, hcurrent]
    exact h.busy
  · rw [htasks, hcurrent]
    exact fun hnone => ⟨fun hinside => (h.free hnone).1 (hphase hinside), (h.free hnone).2⟩

/-- A message whose command runs again. -/
theorem TasksKept.again {call : κ} (h : TasksKept s log) (hcurrent : s.dCurrent = some call) :
    TasksKept { s with phase := .inside } (log ++ [.called call]) := by
  obtain ⟨t, rest, htasks, hunder, hrest⟩ := h.busy call hcurrent
  have hnext : tasksOf (log ++ [.called call]) = { t with calls := t.calls ++ [call] } :: rest := by
    rw [tasksOf_append, htasks]
    rfl
  have hgiven := h.given t (htasks ▸ List.mem_cons_self ..)
  have horder := h.order
  have hsent := h.sent
  rw [htasks] at horder hsent
  refine ⟨?_, ?_, ?_, ?_, ?_⟩
  · rw [hnext]
    simpa [arrivalsOf] using horder
  · rw [hnext]
    intro u hu
    rcases List.mem_cons.mp hu with rfl | hu
    · obtain ⟨c, hc⟩ := Option.isSome_iff_exists.mp hunder.found
      rw [hc] at hgiven
      dsimp only
      rw [hc, List.head?_append, hgiven]
      rfl
    · exact h.given u (htasks ▸ List.mem_cons_of_mem t hu)
  · rw [hnext]
    simpa [repliesOf] using hsent
  · intro _ _
    exact ⟨_, rest, hnext, ⟨hunder.found, hunder.ready, hunder.silent, hunder.yielded⟩, hrest⟩
  · intro hnone
    rw [show s.dCurrent = none from hnone] at hcurrent
    cases hcurrent

/-- A message that a command is found for. -/
theorem TasksKept.opened {m : SimplexMessage} {waiting : List SimplexMessage} {c : SimplexCommand κ} (h : TasksKept s log)
    (hcurrent : s.dCurrent = none) (hwaiting : s.waiting = m :: waiting) :
    TasksKept { s with lReady := some m, waiting := waiting, dCurrent := some c.cCall, phase := .inside }
      (log ++ [.lookedUp m (some c), .called c.cCall]) := by
  have hnext : tasksOf (log ++ [.lookedUp m (some c), .called c.cCall]) =
      ⟨m, some c, [c.cCall], [], []⟩ :: tasksOf log := tasksOf_append ..
  have horder := h.order
  rw [hwaiting] at horder
  refine ⟨?_, ?_, ?_, ?_, ?_⟩
  · rw [hnext]
    simpa [arrivalsOf] using horder
  · rw [hnext]
    intro u hu
    rcases List.mem_cons.mp hu with rfl | hu
    · rfl
    · exact h.given u hu
  · rw [hnext]
    simpa [repliesOf] using h.sent
  · intro _ _
    exact ⟨_, _, hnext, ⟨rfl, rfl, rfl, fun r hr => by cases hr⟩, (h.free hcurrent).2⟩
  · intro hnone
    cases hnone

theorem tasksOf_replied (replies : List SimplexReply) : (replies.map SimplexEvent.replied).foldl noteTask (t :: rest) =
    { t with replies := t.replies ++ replies } :: rest := by
  induction replies generalizing t with
  | nil => simp
  | cons r replies ih =>
    rw [List.map_cons, List.foldl_cons]
    refine ih.trans ?_
    simp

theorem arrivalsOf_replied (replies : List SimplexReply) :
    arrivalsOf (replies.map (SimplexEvent.replied (κ := κ))) = [] := by
  simp [arrivalsOf]

theorem repliesOf_replied (replies : List SimplexReply) :
    repliesOf (replies.map (SimplexEvent.replied (κ := κ))) = replies := by
  simp [repliesOf]

/-- A message that nothing matches. -/
theorem TasksKept.unknown {m : SimplexMessage} {waiting : List SimplexMessage} (h : TasksKept s log)
    (hcurrent : s.dCurrent = none) (hwaiting : s.waiting = m :: waiting) :
    TasksKept { s with lReady := some m, waiting := waiting, dCurrent := none }
      (log ++ .lookedUp m none :: (unknownReplies m).map .replied) := by
  have hnext : tasksOf (log ++ .lookedUp m none :: (unknownReplies m).map .replied) =
      ⟨m, none, [], [], unknownReplies m⟩ :: tasksOf log := by
    rw [tasksOf_append, List.foldl_cons]
    exact tasksOf_replied (unknownReplies m)
  have hdone : (⟨m, none, [], [], unknownReplies m⟩ : SimplexTask κ).Settled := ⟨.inl rfl, rfl⟩
  have hsettled : ∀ u ∈ tasksOf (log ++ .lookedUp m none :: (unknownReplies m).map .replied), u.Settled := by
    rw [hnext]
    intro u hu
    rcases List.mem_cons.mp hu with rfl | hu
    · exact hdone
    · exact (h.free hcurrent).2 u hu
  have horder := h.order
  have harrivals := arrivalsOf_replied (κ := κ) (unknownReplies m)
  have hreplies := repliesOf_replied (κ := κ) (unknownReplies m)
  unfold arrivalsOf at harrivals horder
  unfold repliesOf at hreplies
  rw [hwaiting] at horder
  refine ⟨?_, ?_, ?_, ?_, ?_⟩
  · unfold arrivalsOf
    rw [hnext, List.filterMap_append, List.filterMap_cons_none rfl, harrivals, ← horder]
    simp
  · rw [hnext]
    intro u hu
    rcases List.mem_cons.mp hu with rfl | hu
    · rfl
    · exact h.given u hu
  · have hsent := h.sent
    unfold repliesOf at hsent ⊢
    rw [hnext, List.filterMap_append, List.filterMap_cons_none rfl, hreplies, hsent]
    simp
  · intro _ hsome
    cases hsome
  · exact fun _ => ⟨(h.free hcurrent).1, hsettled⟩

/-- A command that returns. -/
theorem TasksKept.finished (r : CallResult) (h : TasksKept s log) (hphase : s.phase = .inside) :
    TasksKept (s.finishCall r).1 (log ++ (s.finishCall r).2) := by
  rcases hcurrent : s.dCurrent with _ | call
  · exact absurd hphase (h.free hcurrent).1
  obtain ⟨t, rest, htasks, hunder, hrest⟩ := h.busy call hcurrent
  have hnext : tasksOf (log ++ (s.finishCall r).2) =
      { t with results := t.results ++ [r], replies := s.extraResponse r none } :: rest := by
    unfold Simplex.finishCall
    rw [tasksOf_append, htasks, List.foldl_cons]
    refine (tasksOf_replied (s.extraResponse r none)).trans ?_
    rw [hunder.silent, List.nil_append]
  have horder := h.order
  have hsent := h.sent
  have harrivals := arrivalsOf_replied (κ := κ) (s.extraResponse r none)
  have hreplies := repliesOf_replied (κ := κ) (s.extraResponse r none)
  unfold arrivalsOf at harrivals horder
  unfold repliesOf at hreplies hsent
  rw [htasks] at horder hsent
  refine ⟨?_, ?_, ?_, ?_, ?_⟩
  · rw [hnext]
    unfold arrivalsOf Simplex.finishCall
    rw [List.filterMap_append, List.filterMap_cons_none rfl, harrivals, ← horder]
    simp
  · rw [hnext]
    intro u hu
    rcases List.mem_cons.mp hu with rfl | hu
    · exact h.given t (htasks ▸ List.mem_cons_self ..)
    · exact h.given u (htasks ▸ List.mem_cons_of_mem t hu)
  · rw [hnext]
    unfold repliesOf Simplex.finishCall
    rw [List.filterMap_append, List.filterMap_cons_none rfl, hreplies, hsent]
    simp [hunder.silent]
  · intro next hkept
    refine ⟨_, rest, hnext, ⟨hunder.found, hunder.ready, ?_, ?_⟩, hrest⟩
    all_goals
      have hyield : r = .yield := by
        by_contra hne
        rw [show (s.finishCall r).1.dCurrent = none from if_neg hne] at hkept
        cases hkept
    · rw [hyield]
      rfl
    · intro q hq
      rcases List.mem_append.mp hq with hq | hq
      · exact hunder.yielded q hq
      · exact (List.mem_singleton.mp hq).trans hyield
  · intro hnone
    have hne : r ≠ .yield := by
      intro hyield
      rw [show (s.finishCall r).1.dCurrent = s.dCurrent from if_pos hyield, hcurrent] at hnone
      cases hnone
    refine ⟨fun hinside => (by cases hinside), ?_⟩
    rw [hnext]
    intro u hu
    rcases List.mem_cons.mp hu with rfl | hu
    · refine ⟨.inr ⟨r, List.getLast?_concat, hne⟩, ?_⟩
      obtain ⟨c, hc⟩ := Option.isSome_iff_exists.mp hunder.found
      unfold SimplexTask.due Simplex.extraResponse
      dsimp only
      rw [hc, hunder.ready, List.getLast?_concat]
      cases r <;> rfl
    · exact hrest u hu

theorem TasksKept.step (h : TasksKept s log) (hs : s.act a = some (s', out)) : TasksKept s' (log ++ out) := by
  cases a with
  | register name call wildcard mode =>
    have hs := Option.some.inj hs
    rcases registerFlagMode_cases s name call wildcard mode with he | ⟨c, _, _, he⟩
    · rw [he] at hs
      cases hs
      rwa [List.append_nil]
    · rw [he] at hs
      cases hs
      exact h.aside (tasksOf_append ..) ⟨rfl, rfl⟩ rfl rfl rfl id
  | deregister name =>
    have hs := Option.some.inj hs
    rcases deregisterCommand_cases s name with he | ⟨before, c, after, _, he⟩
    · rw [he] at hs
      cases hs
      rwa [List.append_nil]
    · rw [he] at hs
      cases hs
      exact h.aside (tasksOf_append ..) ⟨rfl, rfl⟩ rfl rfl rfl id
  | expand size =>
    cases hs
    exact h.aside (tasksOf_append ..) ⟨rfl, rfl⟩ rfl rfl rfl id
  | change mode =>
    obtain ⟨_, hs⟩ := Option.ite_none_right_eq_some.mp hs
    cases Option.some.inj hs
    exact h.aside (tasksOf_append ..) ⟨rfl, rfl⟩ rfl rfl rfl id
  | arrive m =>
    cases hs
    have hnext : tasksOf (log ++ [.arrived m]) = tasksOf log := tasksOf_append ..
    refine ⟨?_, ?_, ?_, ?_, ?_⟩
    · have horder := h.order
      unfold arrivalsOf at horder ⊢
      rw [hnext, List.filterMap_append, ← List.append_assoc, horder]
      rfl
    · rw [hnext]
      exact h.given
    · have hsent := h.sent
      unfold repliesOf at hsent ⊢
      rw [hnext, List.filterMap_append, ← hsent]
      exact List.append_nil _
    · rw [hnext]
      exact h.busy
    · rw [hnext]
      exact h.free
  | resume =>
    cases hs
    exact h.aside (tasksOf_append ..) ⟨rfl, rfl⟩ rfl rfl rfl id
  | dispatch =>
    obtain ⟨_, hs⟩ := Option.ite_none_right_eq_some.mp hs
    cases Option.some.inj hs
    unfold Simplex.enter
    split
    · exact h.aside (tasksOf_append ..) ⟨rfl, rfl⟩ rfl rfl rfl id
    · exact h.aside (tasksOf_append ..) ⟨rfl, rfl⟩ rfl rfl rfl (fun hinside => by cases hinside)
  | lookup =>
    obtain ⟨_, hs⟩ := Option.ite_none_right_eq_some.mp hs
    have hs := Option.some.inj hs
    rcases lookup_cases s with ⟨call, hcurrent, he⟩ | ⟨hcurrent, ready, he⟩ | ⟨hcurrent, _, m, rest, hwaiting, ⟨c, _, he⟩ | ⟨_, he⟩⟩
    · rw [he] at hs
      cases hs
      exact h.again hcurrent
    · rw [he] at hs
      cases hs
      rw [List.append_nil]
      refine ⟨h.order, h.given, h.sent, ?_, ?_⟩
      · intro call hcall
        rw [show s.dCurrent = some call from hcall] at hcurrent
        cases hcurrent
      · exact fun _ => ⟨fun hinside => (by cases hinside), (h.free hcurrent).2⟩
    · rw [he] at hs
      cases hs
      exact h.opened hcurrent hwaiting
    · rw [he] at hs
      cases hs
      exact h.unknown hcurrent hwaiting
  | proceed call =>
    obtain ⟨hphase, hs⟩ := Option.ite_none_right_eq_some.mp hs
    cases Option.some.inj hs
    rw [List.append_nil]
    rcases hcurrent : s.dCurrent with _ | old
    · exact absurd hphase (h.free hcurrent).1
    · exact ⟨h.order, h.given, h.sent, fun _ _ => h.busy old hcurrent, fun hnone => by cases hnone⟩
  | finish r =>
    obtain ⟨hphase, hs⟩ := Option.ite_none_right_eq_some.mp hs
    cases Option.some.inj hs
    exact h.finished r hphase

theorem TasksKept.dispatched (h : TasksKept s log) (hl : LookupsKept log) : Dispatched SimplexMessage.named s log := by
  have hended : ∀ t ∈ (tasksOf log).tail, t.Settled := by
    rcases hcurrent : s.dCurrent with _ | call
    · exact fun t ht => (h.free hcurrent).2 t (List.mem_of_mem_tail ht)
    · obtain ⟨t, rest, htasks, _, hrest⟩ := h.busy call hcurrent
      rw [htasks]
      exact hrest
  refine ⟨fun before m found after he => (hl before m found after he).1,
    fun before m found after he => (hl before m found after he).2, h.order, h.given,
    fun t ht => (hended t ht).1, ?_, h.sent⟩
  intro t ht hend
  rcases hcurrent : s.dCurrent with _ | call
  · exact ((h.free hcurrent).2 t ht).2
  · obtain ⟨first, rest, htasks, hunder, hrest⟩ := h.busy call hcurrent
    rw [htasks] at ht
    rcases List.mem_cons.mp ht with rfl | ht
    · exact absurd hend hunder.not_ended
    · exact (hrest t ht).2

theorem simplex_keeps : (simplexMachine κ).Keeps (fun _ _ => True) (fun s log =>
    CommandsKept s log ∧ LookupsKept log ∧ TasksKept s log) := by
  refine Machine.keeps_of_act (f := fun s a => s.act a) (fun _ _ => rfl) (fun _ _ => rfl) ?_
  rintro s log a next out ⟨hcommands, hlookups, htasks⟩ - hact
  exact ⟨hcommands.step hact, hlookups.step hcommands hact, htasks.step hact⟩

end Katcp
