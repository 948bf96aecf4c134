import Katcp.JobRun

namespace Katcp

/-- Whenever a reply lets go of the next request while a further one waits, the next one has a
message and that can be appended. -/
def NextReady (s : Jobs) (a : JobAction) : Prop :=
  ∀ p append id next more, a = .reply p append → s.job.jQueue.contents = id :: next :: more →
    more ≠ [] → append = true ∧ (next = id ∨ ∃ n, s.notice? next = some n ∧ n.getParse ≠ none)

/-- A job that waits for no reply has no requests. -/
def NotStuck (s : Jobs) : Prop := s.job.jSendr = 0 → s.job.jQueue.contents = []

theorem getParse_setParse (n : Notice) (p : Words) : (n.setParse p).getParse ≠ none := by
  unfold Notice.getParse Notice.setParse
  cases n.nParse with
  | some q => exact Option.some_ne_none q
  | none =>
    dsimp only
    rw [RingQueue.getHead_eq, RingQueue.contents_addTail, RingQueue.contents_clear]
    exact Option.some_ne_none p

/-- Issuing a request leaves one outstanding, or none queued, unless a bad head has others
behind it. -/
theorem issueRequest_notStuck {s s' : Jobs} {append : Bool} {r : Int}
    (h : issueRequest s append = some (r, s'))
    (hready : ∀ id more, s.job.jQueue.contents = id :: more → more ≠ [] →
      append = true ∧ ∃ n, s.notice? id = some n ∧ n.getParse ≠ none) : NotStuck s' := by
  rcases issueRequest_cases h with ⟨rfl, hempty | hsent⟩ | ⟨_, id, more, n, hq, hn, hsend | hdrop⟩
  · exact fun _ => hempty
  · intro h0
    omega
  · obtain ⟨p, _, _, rfl⟩ := hsend
    intro h0
    cases h0
  · obtain ⟨hbad, rfl⟩ := hdrop
    intro _
    simp only [RingQueue.contents_removeHead, hq, List.tail_cons]
    by_contra hmore
    obtain ⟨happend, m, hm, hparse⟩ := hready id more hq hmore
    rw [hn] at hm
    cases hm
    rcases hbad with hnone | hfalse
    · exact hparse hnone
    · rw [happend] at hfalse
      cases hfalse

theorem noticeToJob_notStuck {s s' : Jobs} {id : NoticeId} {append : Bool} {r : Int} (hs : NotStuck s)
    (h : noticeToJob s id append = some (r, s')) : NotStuck s' := by
  obtain ⟨n, r', hn, hissue⟩ := noticeToJob_some h
  by_cases h0 : s.job.jSendr = 0
  · refine issueRequest_notStuck hissue ?_
    intro k more hk hmore
    simp only [RingQueue.contents_addTail, hs h0, List.nil_append, List.cons.injEq] at hk
    exact absurd hk.2.symm hmore
  · rcases issueRequest_cases hissue with ⟨rfl, _⟩ | ⟨h1, _⟩
    · exact fun h1 => absurd h1 h0
    · exact absurd h1 h0

theorem jobAction_notStuck {s s' : Jobs} {a : JobAction} (hs : NotStuck s) (hok : NextReady s a)
    (h : jobAction s a = some s') : NotStuck s' := by
  cases a with
  | submit p name append =>
    obtain ⟨⟨r, s1⟩, h1, rfl⟩ := Option.map_eq_some_iff.mp h
    have hjob := createParseNotice_job s name p
    rw [submitToJob] at h1
    generalize createParseNotice s name p = made at h1 hjob
    exact noticeToJob_notStuck (by rwa [NotStuck, hjob]) h1
  | submitNotice id p append =>
    obtain ⟨⟨r, s1⟩, h1, rfl⟩ := Option.map_eq_some_iff.mp h
    obtain ⟨s2, h2, h1⟩ := Option.bind_eq_some_iff.mp h1
    obtain ⟨n, _, rfl⟩ := Option.map_eq_some_iff.mp h2
    exact noticeToJob_notStuck (s := s.putNotice id (n.addParse p)) hs h1
  | reply p append =>
    obtain ⟨⟨r, s1⟩, h1, rfl⟩ := Option.map_eq_some_iff.mp h
    rcases fieldReply_cases h1 with ⟨rfl, _⟩ | ⟨_, id, rest, n, s2, hq, hn, rfl, _, hissue⟩
    · exact hs
    · refine issueRequest_notStuck hissue ?_
      intro next more hnext hmore
      simp only [RingQueue.contents_removeHead, hq, List.tail_cons] at hnext
      obtain ⟨happend, hparse⟩ := hok p append id next more rfl (hnext ▸ hq) hmore
      refine ⟨happend, ?_⟩
      have hnotice := Jobs.notice?_putNotice hn (n.setParse p).trigger.release next
      by_cases he : next = id
      · rw [if_pos he] at hnotice
        exact ⟨_, hnotice, getParse_setParse n p⟩
      · rw [if_neg he] at hnotice
        obtain ⟨m, hm, hmp⟩ := hparse.resolve_left he
        exact ⟨m, hnotice.trans hm, hmp⟩
  | wake id =>
    simp only [jobAction, wakeNotice] at h
    split at h
    · split at h
      · cases Option.some.inj h
        exact hs
      · cases h
    · cases h
  | round =>
    simp only [jobAction, nextRound] at h
    split at h
    · cases h
    · split at h
      · cases h
      · split at h
        all_goals
          cases Option.some.inj h
          exact hs
  | take =>
    simp only [jobAction, takeParse] at h
    split at h
    · cases h
    · obtain ⟨n, _, rfl⟩ := Option.map_eq_some_iff.mp h
      exact hs
  | collect id =>
    simp only [jobAction, collectNotice] at h
    split at h
    · cases h
    · split at h
      · cases Option.some.inj h
        exact hs
      · cases h

/-- Where no reply lets go of a bad request in front of others, no request is left waiting. -/
theorem job_not_stuck {s : Jobs} {log : List JobEvent} (h : jobMachine.Runs NextReady s log) :
    s.job.jSendr = 0 → s.job.jQueue.contents = [] :=
  h.invariant (fun s _ => NotStuck s) (fun _ => RingQueue.contents_empty)
    (fun _ _ _ _ hs hok hstep => jobAction_notStuck hs hok hstep)

/-- With a message in each notice, the reply to the first request sends the second one. -/
theorem job_not_stuck_two : ∃ s log, jobMachine.Runs NextReady s log ∧
    s.job.jLine = [[textOf "?a"], [textOf "?b"]] ∧ (s.job.jSendr = 0 → s.job.jQueue.contents = []) := by
  have hmeets : jobMachine.Meets NextReady noJobs [.submit (some [textOf "?a"]) none true,
      .submit (some [textOf "?b"]) none true, .reply [textOf "!a", textOf "ok"] true] := by
    refine ⟨(fun _ _ _ _ _ h => by cases h), fun s1 h1 =>
      ⟨(fun _ _ _ _ _ h => by cases h), fun s2 h2 => ?_⟩⟩
    cases h1
    cases h2
    refine ⟨fun p append id next more _ hq hmore => ?_, fun _ _ => trivial⟩
    cases hq
    exact absurd rfl hmore
  have hrun := Machine.Runs.exec (m := jobMachine) .start _ rfl hmeets
  exact ⟨_, _, hrun, rfl, job_not_stuck hrun⟩

/-- A notice without a message, submitted between two requests, leaves the second one stuck. -/
theorem job_stuck_behind_empty : ¬ ∀ (s : Jobs) (log : List JobEvent),
    jobMachine.Runs (fun _ _ => True) s log → s.job.jSendr = 0 → s.job.jQueue.contents = [] := by
  intro hall
  have hrun := Machine.Runs.exec (m := jobMachine) .start [.submit (some [textOf "?a"]) none true,
    .submit none none true, .submit (some [textOf "?b"]) none true,
    .reply [textOf "!a", textOf "ok"] true] rfl (jobMachine.meets_true _ _)
  cases hall _ _ hrun rfl

section

def JobEvent.submitted? : JobEvent → Option (NoticeId × Words)
  | .submitted id p => some (id, p)
  | _ => none

def JobEvent.sent? : JobEvent → Option (NoticeId × Words)
  | .sent id p => some (id, p)
  | _ => none

/-- A request that is through: it was sent, or could not be. -/
def JobEvent.resolved? : JobEvent → Option (NoticeId × Words)
  | .sent id p => some (id, p)
  | .failed id p => some (id, p)
  | _ => none

def JobEvent.replied? : JobEvent → Option (NoticeId × Words)
  | .replied id p => some (id, p)
  | _ => none

/-- The queued notices whose request is still to be sent. -/
def waiting (s : Jobs) : List NoticeId := s.job.jQueue.contents.drop s.job.jSendr

/-- The notice whose request was sent and not answered. -/
def outstanding (s : Jobs) : List NoticeId := s.job.jQueue.contents.take s.job.jSendr

def messageOf (s : Jobs) (id : NoticeId) : Option (NoticeId × Words) :=
  ((s.notice? id).bind Notice.getParse).map (id, ·)

/-- Nothing is under way with a notice: not queued, no message, and not being run. -/
def Unused (s : Jobs) (id : NoticeId) : Prop :=
  ∀ n, s.notice? id = some n → id ∉ s.job.jQueue.contents ∧ n.nQueue.contents = [] ∧
    n.nParse = none ∧ n.nTrigger = false ∧ s.running.map Prod.fst ≠ some id

/-- The condition on submissions. -/
def SubmitsUnused (s : Jobs) : JobAction → Prop
  | .submit _ name _ => ∀ id, name.bind (findNotice s) = some id → Unused s id
  | .submitNotice id _ _ => Unused s id
  | _ => True

/-- A queued notice is alive, held, not triggered and not being run. -/
def JobQuiet (s : Jobs) (id : NoticeId) : Prop :=
  ∃ n, s.notice? id = some n ∧ n.nTrigger = false ∧ n.nParse = none ∧ n.nUse ≠ 0 ∧
    s.running.map Prod.fst ≠ some id

/-- The invariant of a job, with the events of its past. -/
structure JobInv (s : Jobs) (log : List JobEvent) : Prop where
  nodup : s.job.jQueue.contents.Nodup
  quiet : ∀ id ∈ s.job.jQueue.contents, JobQuiet s id
  one : s.job.jSendr ≤ 1
  busy : s.job.jSendr ≤ s.job.jQueue.contents.length
  alive : ∀ id, s.running.map Prod.fst = some id → id < s.store.length
  order : log.filterMap JobEvent.submitted? =
    log.filterMap JobEvent.resolved? ++ (waiting s).filterMap (messageOf s)
  line : s.job.jLine = (log.filterMap JobEvent.sent?).map Prod.snd
  replies : (log.filterMap JobEvent.sent?).map Prod.fst =
    (log.filterMap JobEvent.replied?).map Prod.fst ++ outstanding s

theorem noJobs_inv : JobInv noJobs [] where
  nodup := List.nodup_nil
  quiet := fun _ h => by cases h
  one := Nat.zero_le 1
  busy := Nat.le_refl 0
  alive := fun _ h => by cases h
  order := rfl
  line := rfl
  replies := rfl

theorem messageOf_congr {s s' : Jobs} {ids : List NoticeId}
    (h : ∀ id ∈ ids, s'.notice? id = s.notice? id) :
    ids.filterMap (messageOf s') = ids.filterMap (messageOf s) := by
  refine List.filterMap_congr fun id hid => ?_
  rw [messageOf, messageOf, h id hid]

theorem waiting_messages {s t : Jobs} {ids : List NoticeId} (hwaiting : waiting t = ids)
    (h : ∀ id ∈ ids, t.notice? id = s.notice? id) :
    (waiting t).filterMap (messageOf t) = ids.filterMap (messageOf s) := by
  rw [hwaiting]
  exact messageOf_congr h

variable {s s' : Jobs} {log : List JobEvent}

theorem JobQuiet.congr {id : NoticeId} (h : JobQuiet s id) (hsame : s'.notice? id = s.notice? id)
    (hrunning : s'.running = s.running) : JobQuiet s' id := by
  obtain ⟨n, hn, hquiet⟩ := h
  exact ⟨n, hsame.trans hn, hrunning ▸ hquiet⟩

/-- Changes away from the queued notices. -/
theorem JobInv.frame (h : JobInv s log) (hjob : s'.job = s.job)
    (hsame : ∀ id ∈ s.job.jQueue.contents, s'.notice? id = s.notice? id)
    (hrunning : ∀ id ∈ s.job.jQueue.contents, s'.running.map Prod.fst ≠ some id)
    (halive : ∀ id, s'.running.map Prod.fst = some id → id < s'.store.length) : JobInv s' log := by
  refine ⟨hjob ▸ h.nodup, ?_, hjob ▸ h.one, hjob ▸ h.busy, halive, ?_, hjob ▸ h.line, ?_⟩
  · intro id hid
    rw [hjob] at hid
    obtain ⟨n, hn, htrigger, hparse, huse, _⟩ := h.quiet id hid
    exact ⟨n, (hsame id hid).trans hn, htrigger, hparse, huse, hrunning id hid⟩
  · rw [h.order, waiting, waiting, hjob]
    congr 1
    exact (messageOf_congr fun id hid => hsame id (List.mem_of_mem_drop hid)).symm
  · rw [h.replies, outstanding, outstanding, hjob]

theorem issued_of_head {id : NoticeId} {rest : List NoticeId} (hs : s.job.jSendr = 0)
    (hq : s.job.jQueue.contents = id :: rest) : issued s = messageOf s id := by
  rw [issued, if_pos hs, RingQueue.getHead_eq, hq]
  rfl

/-- A head that goes out of the queue takes nothing from those behind it. -/
theorem behind_head {id : NoticeId} {rest : List NoticeId} {n : Notice} (hn : s.notice? id = some n)
    (hnodup : (id :: rest).Nodup) (m : Notice) :
    ∀ k ∈ rest, (s.putNotice id m).notice? k = s.notice? k := by
  intro k hk
  rw [Jobs.notice?_putNotice hn, if_neg]
  rintro rfl
  exact (List.nodup_cons.mp hnodup).1 hk

theorem JobInv.issue (h : JobInv s log) {append : Bool} {r : Int}
    (hissue : issueRequest s append = some (r, s')) : JobInv s' (log ++ issueEvents s append) := by
  have horder := h.order
  have hline := h.line
  have hreplies := h.replies
  rcases issueRequest_cases hissue with ⟨rfl, hidle⟩ | ⟨hs, id, rest, n, hq, hn, hsend | hdrop⟩
  · have hnone : issueEvents s' append = [] := by
      rcases hidle with hempty | hsent
      · simp [issueEvents, issued, RingQueue.getHead_eq, hempty]
      · simp [issueEvents, issued, Nat.ne_of_gt hsent]
    rwa [hnone, List.append_nil]
  · obtain ⟨p, hp, rfl, hs'⟩ := hsend
    have hmessage : messageOf s id = some (id, p) := by simp [messageOf, hn, hp]
    have hevents : issueEvents s true = [.sent id p] := by
      simp [issueEvents, issued_of_head hs hq, hmessage]
    have hrest : waiting s' = rest := by simp [hs', waiting, hq]
    have hout : outstanding s' = [id] := by simp [hs', outstanding, hq]
    have hsame : ∀ k ∈ rest, s'.notice? k = s.notice? k := fun k _ => by rw [hs']; rfl
    rw [waiting, hs, List.drop_zero, hq, List.filterMap_cons_some hmessage] at horder
    rw [outstanding, hs, List.take_zero, List.append_nil] at hreplies
    rw [hevents]
    refine ⟨?_, ?_, ?_, ?_, ?_, ?_, ?_, ?_⟩
    · simpa only [hs'] using h.nodup
    · rw [hs']
      exact h.quiet
    · simp [hs']
    · simp [hs', hq]
    · rw [hs']
      exact h.alive
    · rw [waiting_messages hrest hsame, List.filterMap_append, List.filterMap_append, horder]
      simp [List.filterMap_cons, JobEvent.submitted?, JobEvent.resolved?]
    · rw [List.filterMap_append, List.map_append, ← hline]
      simp [hs', JobEvent.sent?]
    · rw [hout, List.filterMap_append, List.filterMap_append, List.map_append, List.map_append, hreplies]
      simp [List.filterMap_cons, JobEvent.sent?, JobEvent.replied?]
  · obtain ⟨hbad, hs'⟩ := hdrop
    have hnodup := h.nodup
    rw [hq] at hnodup
    have hevents : issueEvents s append = ((messageOf s id).map fun m => JobEvent.failed m.1 m.2).toList := by
      rw [issueEvents, issued_of_head hs hq]
      rcases hbad with hnone | rfl
      · simp [messageOf, hn, hnone]
      · simp
    have hqueue : s'.job.jQueue.contents = rest := by simp [hs', hq]
    have hrest : waiting s' = rest := by simp [waiting, hs', hs, hq]
    have hout : outstanding s' = [] := by simp [outstanding, hs', hs]
    have hsame : ∀ k ∈ rest, s'.notice? k = s.notice? k := by
      rw [hs']
      exact behind_head hn hnodup (unsent n).trigger.release
    rw [waiting, hs, List.drop_zero, hq, List.filterMap_cons] at horder
    rw [outstanding, hs, List.take_zero, List.append_nil] at hreplies
    rw [hevents]
    refine ⟨?_, ?_, ?_, ?_, ?_, ?_, ?_, ?_⟩
    · exact hqueue ▸ (List.nodup_cons.mp hnodup).2
    · intro k hk
      rw [hqueue] at hk
      exact (h.quiet k (hq ▸ List.mem_cons_of_mem id hk)).congr (hsame k hk) (by rw [hs']; rfl)
    · simp [hs', hs]
    · simp [hs', hs]
    · rw [hs']
      simpa [Jobs.putNotice] using h.alive
    · rw [waiting_messages hrest hsame, List.filterMap_append, List.filterMap_append, horder]
      cases messageOf s id <;> simp [List.filterMap_cons, JobEvent.submitted?, JobEvent.resolved?]
    · rw [List.filterMap_append, List.map_append, ← hline]
      cases messageOf s id <;> simp [hs', List.filterMap_cons, JobEvent.sent?]
    · rw [hout, List.filterMap_append, List.filterMap_append, List.map_append, List.map_append, hreplies]
      cases messageOf s id <;> simp [List.filterMap_cons, JobEvent.sent?, JobEvent.replied?]

/-- A notice that nothing is under way with goes to the end of the queue. -/
theorem JobInv.enqueue (h : JobInv s log) {id : NoticeId} {n : Notice} (hn : s.notice? id = some n)
    (hnew : id ∉ s.job.jQueue.contents) (htrigger : n.nTrigger = false) (hparse : n.nParse = none)
    (hrun : s.running.map Prod.fst ≠ some id)
    (hs' : s' = { s.putNotice id n.hold with job := { s.job with jQueue := s.job.jQueue.addTail id } }) :
    JobInv s' (log ++ (n.getParse.map (JobEvent.submitted id)).toList) := by
  have hqueue : s'.job.jQueue.contents = s.job.jQueue.contents ++ [id] := by simp [hs']
  have hsendr : s'.job.jSendr = s.job.jSendr := by rw [hs']
  have hat : ∀ k, s'.notice? k = if k = id then some n.hold else s.notice? k := by
    rw [hs']
    exact Jobs.notice?_putNotice hn n.hold
  have hold : ∀ k ∈ s.job.jQueue.contents, s'.notice? k = s.notice? k := by
    intro k hk
    rw [hat, if_neg]
    rintro rfl
    exact hnew hk
  have hwaiting : waiting s' = waiting s ++ [id] := by
    rw [waiting, waiting, hqueue, hsendr, List.drop_append_of_le_length h.busy]
  have hmessages : (waiting s').filterMap (messageOf s') =
      (waiting s).filterMap (messageOf s) ++ (n.getParse.map (id, ·)).toList := by
    have hfront : (waiting s).filterMap (messageOf s') = (waiting s).filterMap (messageOf s) :=
      messageOf_congr fun k hk => hold k (List.mem_of_mem_drop hk)
    rw [hwaiting, List.filterMap_append, hfront]
    congr 1
    have hmessage : messageOf s' id = n.getParse.map (id, ·) := by
      rw [messageOf, hat, if_pos rfl]
      rfl
    cases hp : n.getParse <;> simp [hmessage, hp]
  refine ⟨?_, ?_, hsendr ▸ h.one, ?_, ?_, ?_, ?_, ?_⟩
  · rw [hqueue]
    exact List.nodup_append.mpr ⟨h.nodup, List.nodup_singleton id, fun a ha b hb hab =>
      hnew (List.mem_singleton.mp hb ▸ hab ▸ ha)⟩
  · intro k hk
    rw [hqueue] at hk
    have hrunning : s'.running = s.running := by rw [hs']; rfl
    rcases List.mem_append.mp hk with hk | hk
    · exact (h.quiet k hk).congr (hold k hk) hrunning
    · rw [List.mem_singleton.mp hk]
      refine ⟨n.hold, by rw [hat, if_pos rfl], htrigger, hparse, Nat.succ_ne_zero _, hrunning ▸ hrun⟩
  · rw [hsendr, hqueue, List.length_append]
    exact Nat.le_add_right_of_le h.busy
  · rw [hs']
    simpa [Jobs.putNotice] using h.alive
  · rw [hmessages, List.filterMap_append, List.filterMap_append, h.order]
    cases n.getParse <;> simp [List.filterMap_cons, JobEvent.submitted?, JobEvent.resolved?]
  · rw [List.filterMap_append, List.map_append, ← h.line]
    cases n.getParse <;> simp [hs', List.filterMap_cons, JobEvent.sent?]
  · have hout : outstanding s' = outstanding s := by
      rw [outstanding, outstanding, hqueue, hsendr, List.take_append_of_le_length h.busy]
    rw [hout, List.filterMap_append, List.filterMap_append, List.map_append, List.map_append, h.replies]
    cases n.getParse <;> simp [List.filterMap_cons, JobEvent.sent?, JobEvent.replied?]

/-- The reply to the outstanding request goes to its notice. -/
theorem JobInv.answer (h : JobInv s log) {id : NoticeId} {rest : List NoticeId} {n : Notice} {p : Words}
    (hsent : 0 < s.job.jSendr) (hq : s.job.jQueue.contents = id :: rest) (hn : s.notice? id = some n)
    (hs' : s' = { s.putNotice id (n.setParse p).trigger.release with
      job := { s.job with jQueue := s.job.jQueue.removeHead, jSendr := s.job.jSendr - 1 } }) :
    JobInv s' (log ++ [.replied id p]) := by
  have hone : s.job.jSendr = 1 := Nat.le_antisymm h.one hsent
  have hnodup := h.nodup
  have horder := h.order
  have hreplies := h.replies
  rw [hq] at hnodup
  rw [waiting, hone, hq, List.drop_succ_cons, List.drop_zero] at horder
  rw [outstanding, hone, hq, List.take_succ_cons, List.take_zero] at hreplies
  have hqueue : s'.job.jQueue.contents = rest := by simp [hs', hq]
  have hsendr : s'.job.jSendr = 0 := by simp [hs', hone]
  have hsame : ∀ k ∈ rest, s'.notice? k = s.notice? k := by
    rw [hs']
    exact behind_head hn hnodup (n.setParse p).trigger.release
  refine ⟨?_, ?_, ?_, ?_, ?_, ?_, ?_, ?_⟩
  · exact hqueue ▸ (List.nodup_cons.mp hnodup).2
  · intro k hk
    rw [hqueue] at hk
    exact (h.quiet k (hq ▸ List.mem_cons_of_mem id hk)).congr (hsame k hk) (by rw [hs']; rfl)
  · omega
  · omega
  · rw [hs']
    simpa [Jobs.putNotice] using h.alive
  · have hrest : waiting s' = rest := by rw [waiting, hqueue, hsendr, List.drop_zero]
    rw [waiting_messages hrest hsame, List.filterMap_append, List.filterMap_append, horder]
    simp [List.filterMap_cons, JobEvent.submitted?, JobEvent.resolved?]
  · rw [List.filterMap_append, List.map_append, ← h.line]
    simp [hs', List.filterMap_cons, JobEvent.sent?]
  · rw [outstanding, hsendr, List.take_zero, List.filterMap_append, List.filterMap_append,
      List.map_append, List.map_append, hreplies]
    simp [List.filterMap_cons, JobEvent.sent?, JobEvent.replied?]

end

section

variable {s s' : Jobs} {log : List JobEvent}

theorem queueEvents_of {id : NoticeId} {n : Notice} (hn : s.notice? id = some n) (append : Bool) :
    queueEvents s id append = issueEvents { s.putNotice id n.hold with
      job := { s.job with jQueue := s.job.jQueue.addTail id } } append := by
  simp [queueEvents, addTailJob, hn]

/-- A notice with its one message, or with none, is queued. -/
theorem JobInv.queued (h : JobInv s log) {id : NoticeId} {n : Notice} (hn : s.notice? id = some n)
    (hnew : id ∉ s.job.jQueue.contents) (htrigger : n.nTrigger = false) (hparse : n.nParse = none)
    (hrun : s.running.map Prod.fst ≠ some id) {append : Bool} {r : Int}
    (hqueue : noticeToJob s id append = some (r, s')) :
    JobInv s' (log ++ ((n.getParse.map (JobEvent.submitted id)).toList ++ queueEvents s id append)) := by
  obtain ⟨m, r', hm, hissue⟩ := noticeToJob_some hqueue
  rw [hn] at hm
  cases hm
  rw [queueEvents_of hn, ← List.append_assoc]
  exact (h.enqueue hn hnew htrigger hparse hrun rfl).issue hissue

theorem getParse_addParse {n : Notice} (hparse : n.nParse = none) (hqueue : n.nQueue.contents = [])
    (p : Words) : (n.addParse p).getParse = some p := by
  simp [Notice.getParse, Notice.addParse, hparse, RingQueue.getHead_eq, hqueue]

theorem getParse_unused {n : Notice} (hparse : n.nParse = none) (hqueue : n.nQueue.contents = []) :
    n.getParse = none := by
  simp [Notice.getParse, hparse, RingQueue.getHead_eq, hqueue]

/-- A change of a notice that is not queued. -/
theorem JobInv.put (h : JobInv s log) {id : NoticeId} {n : Notice} (hn : s.notice? id = some n)
    (hnew : id ∉ s.job.jQueue.contents) (m : Notice) : JobInv (s.putNotice id m) log := by
  refine h.frame rfl (fun k hk => ?_) (fun k hk => ?_) (by simpa [Jobs.putNotice] using h.alive)
  · rw [Jobs.notice?_putNotice hn, if_neg]
    rintro rfl
    exact hnew hk
  · obtain ⟨_, _, _, _, _, hrun⟩ := h.quiet k hk
    exact hrun

theorem JobInv.fresh (h : JobInv s log) (n : Notice) :
    JobInv { s with store := s.store ++ [some n] } log ∧
      ({ s with store := s.store ++ [some n] } : Jobs).notice? s.store.length = some n ∧
      s.store.length ∉ s.job.jQueue.contents ∧ s.running.map Prod.fst ≠ some s.store.length := by
  have hlt : ∀ k ∈ s.job.jQueue.contents, k < s.store.length := by
    intro k hk
    obtain ⟨m, hm, _⟩ := h.quiet k hk
    exact Jobs.notice?_lt hm
  refine ⟨h.frame rfl (fun k hk => ?_) (fun k hk => ?_) (fun k hk => ?_), ?_,
    fun hmem => Nat.lt_irrefl _ (hlt _ hmem), fun hrun => Nat.lt_irrefl _ (h.alive _ hrun)⟩
  · simp [Jobs.notice?, List.getElem?_append_left (hlt k hk)]
  · obtain ⟨_, _, _, _, _, hrun⟩ := h.quiet k hk
    exact hrun
  · rw [List.length_append]
    exact Nat.lt_add_right 1 (h.alive k hk)
  · simp [Jobs.notice?]

/-- The notice of a submission, once its message was added. -/
theorem JobInv.create (h : JobInv s log) {p : Option Words} {name : Option Text}
    (hok : ∀ id, name.bind (findNotice s) = some id → Unused s id) {id : NoticeId} {t : Jobs}
    (ht : createParseNotice s name p = (id, t)) : JobInv t log ∧ ∃ n, t.notice? id = some n ∧
      id ∉ t.job.jQueue.contents ∧ n.nTrigger = false ∧ n.nParse = none ∧
      t.running.map Prod.fst ≠ some id ∧ n.getParse = p := by
  unfold createParseNotice at ht
  split at ht
  next k n hfound =>
    obtain ⟨k', hname, hn⟩ := Option.bind_eq_some_iff.mp hfound
    obtain ⟨n', hn', he⟩ := Option.map_eq_some_iff.mp hn
    cases he
    cases ht
    obtain ⟨hnew, hqueue, hparse, htrigger, hrun⟩ := hok _ hname n hn'
    refine ⟨h.put hn' hnew _, (p.map n.addParse).getD n, ?_, hnew, ?_⟩
    · rw [Jobs.notice?_putNotice hn', if_pos rfl]
    · cases p with
      | none => exact ⟨htrigger, hparse, hrun, getParse_unused hparse hqueue⟩
      | some p => exact ⟨htrigger, hparse, hrun, getParse_addParse hparse hqueue p⟩
  next =>
    cases ht
    obtain ⟨hinv, hat, hnew, hrun⟩ := h.fresh ((p.map (freshNotice name).addParse).getD (freshNotice name))
    refine ⟨hinv, _, hat, hnew, ?_⟩
    cases p with
    | none => exact ⟨rfl, rfl, hrun, getParse_unused rfl rfl⟩
    | some p => exact ⟨rfl, rfl, hrun, getParse_addParse rfl rfl p⟩

theorem JobInv.reply (h : JobInv s log) {p : Words} {append : Bool} {r : Int}
    (hreply : fieldReply s p append = some (r, s')) : JobInv s' (log ++ replyEvents s p append) := by
  rcases fieldReply_cases hreply with ⟨rfl, hidle⟩ | ⟨hsent, id, rest, n, s1, hq, hn, hs1, hanswer, hissue⟩
  · have hnone : replyEvents s' p append = [] := by
      rcases hidle with h0 | hempty
      · simp [replyEvents, h0]
      · simp [replyEvents, RingQueue.getHead_eq, hempty]
    rwa [hnone, List.append_nil]
  · have hevents : replyEvents s p append = .replied id p :: issueEvents s1 append := by
      simp [replyEvents, Nat.ne_of_gt hsent, RingQueue.getHead_eq, hq, hanswer]
    rw [hevents, ← List.singleton_append, ← List.append_assoc]
    exact (h.answer hsent hq hn hs1).issue hissue

/-- The run of the notices leaves the queued ones alone. -/
theorem JobInv.running (h : JobInv s log) {id : NoticeId} {limit : Nat} (hrun : s.running = some (id, limit)) :
    id ∉ s.job.jQueue.contents := by
  intro hmem
  obtain ⟨_, _, _, _, _, hne⟩ := h.quiet id hmem
  exact hne (by rw [hrun]; rfl)

theorem jobAction_inv {a : JobAction} (h : JobInv s log) (hok : SubmitsUnused s a)
    (hstep : jobAction s a = some s') : JobInv s' (log ++ jobEvents s a) := by
  cases a with
  | submit p name append =>
    obtain ⟨⟨r, s1⟩, h1, rfl⟩ := Option.map_eq_some_iff.mp hstep
    obtain ⟨⟨id, t⟩, ht⟩ : ∃ made, createParseNotice s name p = made := ⟨_, rfl⟩
    simp only [submitToJob, ht] at h1
    obtain ⟨hinv, n, hn, hnew, htrigger, hparse, hrun, hp⟩ := h.create hok ht
    have hqueued := hinv.queued hn hnew htrigger hparse hrun h1
    simpa only [jobEvents, ht, hp] using hqueued
  | submitNotice id p append =>
    obtain ⟨⟨r, s1⟩, h1, rfl⟩ := Option.map_eq_some_iff.mp hstep
    obtain ⟨t, ht, h1⟩ := Option.bind_eq_some_iff.mp h1
    obtain ⟨n, hn, rfl⟩ := Option.map_eq_some_iff.mp ht
    obtain ⟨hnew, hqueue, hparse, htrigger, hrun⟩ := hok n hn
    have hat : (s.putNotice id (n.addParse p)).notice? id = some (n.addParse p) := by
      rw [Jobs.notice?_putNotice hn, if_pos rfl]
    have hqueued := (h.put hn hnew (n.addParse p)).queued hat hnew htrigger hparse hrun h1
    rw [getParse_addParse hparse hqueue] at hqueued
    simpa [jobEvents, ht] using hqueued
  | reply p append =>
    obtain ⟨⟨r, s1⟩, h1, rfl⟩ := Option.map_eq_some_iff.mp hstep
    exact h.reply h1
  | wake id =>
    rw [jobEvents, List.append_nil]
    simp only [jobAction, wakeNotice] at hstep
    split at hstep
    next n _ hn =>
      split at hstep
      next htrigger =>
        cases Option.some.inj hstep
        have hnew : id ∉ s.job.jQueue.contents := by
          intro hmem
          obtain ⟨m, hm, hquiet, _⟩ := h.quiet id hmem
          rw [hn] at hm
          cases hm
          rw [htrigger] at hquiet
          cases hquiet
        refine (h.put hn hnew _).frame rfl (fun _ _ => rfl) (fun k hk hrun => ?_) (fun k hrun => ?_)
        · cases hrun
          exact hnew hk
        · cases hrun
          simpa [Jobs.putNotice] using Jobs.notice?_lt hn
      next => cases hstep
    next => cases hstep
  | round =>
    rw [jobEvents, List.append_nil]
    simp only [jobAction, nextRound] at hstep
    split at hstep
    · cases hstep
    next id limit hrun =>
      split at hstep
      · cases hstep
      next n hn =>
        -- what runs on is the same notice, or none
        have hkeeps : ∀ m next, next = none ∨ next.map Prod.fst = some id →
            JobInv { s.putNotice id m with running := next } log := by
          intro m next hnext
          refine (h.put hn (h.running hrun) m).frame rfl (fun _ _ => rfl) (fun k hk he => ?_) (fun k he => ?_)
          · rcases hnext with rfl | hnext
            · cases he
            · exact h.running hrun (Option.some.inj (he.symm.trans hnext) ▸ hk)
          · rcases hnext with rfl | hnext
            · cases he
            · rw [← Option.some.inj (hnext.symm.trans he)]
              simpa [Jobs.putNotice] using Jobs.notice?_lt hn
        split at hstep
        · cases Option.some.inj hstep
          refine hkeeps _ _ ?_
          cases Notice.nParse (Notice.nextParse { n with nParse := none }) with
          | none => exact Or.inl rfl
          | some q => exact Or.inr rfl
        · cases Option.some.inj hstep
          exact hkeeps _ none (Or.inl rfl)
  | take =>
    rw [jobEvents, List.append_nil]
    simp only [jobAction, takeParse] at hstep
    split at hstep
    · cases hstep
    next id limit hrun =>
      obtain ⟨n, hn, rfl⟩ := Option.map_eq_some_iff.mp hstep
      exact h.put hn (h.running hrun) _
  | collect id =>
    rw [jobEvents, List.append_nil]
    simp only [jobAction, collectNotice] at hstep
    split at hstep
    · cases hstep
    next n hn =>
      split at hstep
      next hfree =>
        cases Option.some.inj hstep
        refine h.frame rfl (fun k hk => ?_) (fun k hk => ?_) (by simpa using h.alive)
        · have hne : id ≠ k := by
            rintro rfl
            obtain ⟨m, hm, _, _, huse, _⟩ := h.quiet id hk
            rw [hn] at hm
            cases hm
            exact huse hfree.1
          simp [Jobs.notice?, List.getElem?_set_ne hne]
        · obtain ⟨_, _, _, _, _, hrun⟩ := h.quiet k hk
          exact hrun
      next => cases hstep

/-- Each request was sent once, in the order of the submissions, and each reply went to the
notice of its request. -/
structure JobCorrect (s : Jobs) (log : List JobEvent) : Prop where
  one : s.job.jSendr ≤ 1
  order : log.filterMap JobEvent.submitted? =
    log.filterMap JobEvent.resolved? ++ (waiting s).filterMap (messageOf s)
  line : s.job.jLine = (log.filterMap JobEvent.sent?).map Prod.snd
  replies : (log.filterMap JobEvent.sent?).map Prod.fst =
    (log.filterMap JobEvent.replied?).map Prod.fst ++ outstanding s
  attached : ∀ p append r s', fieldReply s p append = some (r, s') → 0 < s.job.jSendr →
    ∃ id n, s.job.jQueue.contents.head? = some id ∧ s'.notice? id = some n ∧
      n.nQueue.contents = [p] ∧ n.nTrigger = true

/-- Issuing the next request leaves the other notices alone. -/
theorem issueRequest_other {append : Bool} {r : Int} {id : NoticeId}
    (h : issueRequest s append = some (r, s')) (hid : id ∉ s.job.jQueue.contents) :
    s'.notice? id = s.notice? id := by
  rcases issueRequest_cases h with ⟨rfl, _⟩ | ⟨_, k, rest, n, hq, hn, ⟨p, _, _, rfl⟩ | ⟨_, rfl⟩⟩
  · rfl
  · rfl
  · refine (Jobs.notice?_putNotice hn _ id).trans (if_neg ?_)
    rintro rfl
    exact hid (hq ▸ List.mem_cons_self)

theorem JobInv.attached (h : JobInv s log) {p : Words} {append : Bool} {r : Int}
    (hreply : fieldReply s p append = some (r, s')) (hsent : 0 < s.job.jSendr) :
    ∃ id n, s.job.jQueue.contents.head? = some id ∧ s'.notice? id = some n ∧
      n.nQueue.contents = [p] ∧ n.nTrigger = true := by
  have hbusy := h.busy
  rcases fieldReply_cases hreply with ⟨_, h0 | hempty⟩ | ⟨_, id, rest, n, s1, hq, hn, rfl, _, hissue⟩
  · omega
  · rw [hempty, List.length_nil] at hbusy
    omega
  · have hnodup := h.nodup
    rw [hq] at hnodup
    refine ⟨id, (n.setParse p).trigger.release, by rw [hq]; rfl, ?_, ?_, rfl⟩
    · rw [issueRequest_other hissue]
      · exact (Jobs.notice?_putNotice hn _ id).trans (if_pos rfl)
      · simpa [hq] using (List.nodup_cons.mp hnodup).1
    · simp [Notice.setParse, Notice.trigger, Notice.release]

/-- Where a request is submitted with a notice that nothing is under way with, the job sends
every message once and in order. -/
theorem job_in_order (h : jobMachine.Runs SubmitsUnused s log) : JobCorrect s log := by
  have hinv : JobInv s log := h.invariant JobInv noJobs_inv fun _ _ _ _ h hok hstep => jobAction_inv h hok hstep
  exact ⟨hinv.one, hinv.order, hinv.line, hinv.replies, fun _ _ _ _ hreply hsent => hinv.attached hreply hsent⟩

/-- Two requests under notices of their own. -/
theorem job_in_order_two : ∃ s log, jobMachine.Runs SubmitsUnused s log ∧
    s.job.jLine = [[textOf "?a"], [textOf "?b"]] ∧ JobCorrect s log := by
  have hmeets : jobMachine.Meets SubmitsUnused noJobs [.submit (some [textOf "?a"]) none true,
      .submit (some [textOf "?b"]) (some (textOf "n")) true, .reply [textOf "!a", textOf "ok"] true] := by
    refine ⟨(fun _ h => by cases h), fun s1 h1 => ⟨fun id hid => ?_, fun _ _ => ⟨trivial, fun _ _ => trivial⟩⟩⟩
    cases h1
    cases hid
  have hrun := Machine.Runs.exec (m := jobMachine) .start _ rfl hmeets
  exact ⟨_, _, hrun, rfl, job_in_order hrun⟩

/-- Two requests under one name: the reply to the first takes the place of the second, and is
sent as if it were a request. -/
theorem job_sends_reply : ¬ ∀ (s : Jobs) (log : List JobEvent),
    jobMachine.Runs (fun _ _ => True) s log → JobCorrect s log := by
  intro hall
  have hrun := Machine.Runs.exec (m := jobMachine) .start [.submit (some [textOf "?a"]) (some (textOf "n")) true,
    .submit (some [textOf "?b"]) (some (textOf "n")) true, .reply [textOf "!a", textOf "ok"] true] rfl
    (jobMachine.meets_true _ _)
  exact absurd (hall _ _ hrun).order (by decide)

end

end Katcp
