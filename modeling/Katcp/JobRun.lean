import Katcp.Machine
import Katcp.NoticeQueue

namespace Katcp

/-- `add_tail_job`. -/
def addTailJob (s : Jobs) (id : NoticeId) : Option Jobs :=
  (s.notice? id).map fun n => { s.putNotice id n.hold with
    job := { s.job with jQueue := s.job.jQueue.addTail id } }

/-- The removal of the head of a job, whose notice is then triggered and released. -/
def dropHead (s : Jobs) (id : NoticeId) : Option Jobs :=
  (s.notice? id).map fun n => { s.putNotice id n.trigger.release with
    job := { s.job with jQueue := s.job.jQueue.removeHead } }

/-- A notice whose message `p` could not be appended gets a failure in its place. -/
def failNotice (n : Notice) (p : Words) : Notice :=
  n.removeParse.2.setParse (turnaroundExtra p .fail (some (textOf "allocation")))

/-- `issue_request_job_katcp`, with whether the message can be appended to the line. The outer
`none` is a crash. -/
def issueRequest (s : Jobs) (append : Bool) : Option (Int × Jobs) :=
  if s.job.jQueue.count = 0 then some (0, s)
  else if 0 < s.job.jSendr then some (0, s)
  else
    match s.job.jQueue.getHead with
    | none => some (-1, s)
    | some id =>
      match s.notice? id with
      | none => none
      | some n =>
        match n.getParse with
        | some p =>
          if append then
            some (0, { s with job := { s.job with jSendr := s.job.jSendr + 1, jLine := s.job.jLine ++ [p] } })
          else if isRequest p then
            (dropHead (s.putNotice id (failNotice n p)) id).map fun s => (-1, s)
          else none
        | none => (dropHead s id).map fun s => (-1, s)

/-- `notice_to_job_katcp`. -/
def noticeToJob (s : Jobs) (id : NoticeId) (append : Bool) : Option (Int × Jobs) :=
  (addTailJob s id).bind fun s => (issueRequest s append).map fun (_, s) => (0, s)

/-- `submit_to_job_katcp`. -/
def submitToJob (s : Jobs) (p : Option Words) (name : Option Text) (append : Bool) : Option (Int × Jobs) :=
  let (id, s) := createParseNotice s name p
  noticeToJob s id append

/-- `add_parse_notice_katcp`. -/
def addToNotice (s : Jobs) (id : NoticeId) (p : Words) : Option Jobs :=
  (s.notice? id).map fun n => s.putNotice id (n.addParse p)

/-- A caller that adds a message to a notice it has, and submits that. -/
def submitNotice (s : Jobs) (id : NoticeId) (p : Words) (append : Bool) : Option (Int × Jobs) :=
  (addToNotice s id p).bind fun s => noticeToJob s id append

/-- The reply `p` to the request of the head goes to its notice. -/
def answerHead (s : Jobs) (id : NoticeId) (p : Words) : Option Jobs :=
  (s.notice? id).map fun n => { s.putNotice id (n.setParse p).trigger.release with
    job := { s.job with jQueue := s.job.jQueue.removeHead, jSendr := s.job.jSendr - 1 } }

/-- `field_job_katcp` on a reply. -/
def fieldReply (s : Jobs) (p : Words) (append : Bool) : Option (Int × Jobs) :=
  if s.job.jSendr = 0 then some (-1, s)
  else
    match s.job.jQueue.getHead with
    | none => some (-1, s)
    | some id => (answerHead s id p).bind fun s => issueRequest s append

/-- What happens to a job and to its notices. -/
inductive JobAction where
  | submit (p : Option Words) (name : Option Text) (append : Bool)
  | submitNotice (id : NoticeId) (p : Words) (append : Bool)
  | reply (p : Words) (append : Bool)
  | wake (id : NoticeId)
  | round
  | take
  | collect (id : NoticeId)
  deriving DecidableEq, Repr

def jobAction (s : Jobs) : JobAction → Option Jobs
  | .submit p name append => (submitToJob s p name append).map Prod.snd
  | .submitNotice id p append => (submitNotice s id p append).map Prod.snd
  | .reply p append => (fieldReply s p append).map Prod.snd
  | .wake id => wakeNotice s id
  | .round => nextRound s
  | .take => takeParse s
  | .collect id => collectNotice s id

inductive JobEvent where
  | submitted (id : NoticeId) (p : Words)
  | sent (id : NoticeId) (p : Words)
  | failed (id : NoticeId) (p : Words)
  | replied (id : NoticeId) (p : Words)
  deriving DecidableEq, Repr

/-- The message that issuing a request is about. -/
def issued (s : Jobs) : Option (NoticeId × Words) :=
  if s.job.jSendr = 0 then
    s.job.jQueue.getHead.bind fun id => ((s.notice? id).bind Notice.getParse).map (id, ·)
  else none

def issueEvents (s : Jobs) (append : Bool) : List JobEvent :=
  ((issued s).map fun (id, p) => if append then .sent id p else .failed id p).toList

/-- What queueing the notice `id` leads to. -/
def queueEvents (s : Jobs) (id : NoticeId) (append : Bool) : List JobEvent :=
  ((addTailJob s id).map (issueEvents · append)).getD []

def replyEvents (s : Jobs) (p : Words) (append : Bool) : List JobEvent :=
  if s.job.jSendr = 0 then []
  else match s.job.jQueue.getHead with
    | none => []
    | some id => .replied id p :: ((answerHead s id p).map (issueEvents · append)).getD []

def jobEvents (s : Jobs) : JobAction → List JobEvent
  | .submit p name append =>
    let (id, s) := createParseNotice s name p
    (p.map (.submitted id)).toList ++ queueEvents s id append
  | .submitNotice id p append =>
    .submitted id p :: ((addToNotice s id p).map (queueEvents · id append)).getD []
  | .reply p append => replyEvents s p append
  | .wake _ => []
  | .round => []
  | .take => []
  | .collect _ => []

def jobMachine : Machine Jobs JobAction JobEvent := ⟨noJobs, jobAction, jobEvents⟩

theorem dropHead_some {s s' : Jobs} {id : NoticeId} (h : dropHead s id = some s') :
    ∃ n, s.notice? id = some n ∧ s' = { s.putNotice id n.trigger.release with
      job := { s.job with jQueue := s.job.jQueue.removeHead } } := by
  obtain ⟨n, hn, rfl⟩ := Option.map_eq_some_iff.mp h
  exact ⟨n, hn, rfl⟩

/-- What became of the notice at the head once it could not be sent. -/
def unsent (n : Notice) : Notice :=
  match n.getParse with
  | some p => failNotice n p
  | none => n

/-- All that issuing a request can do. -/
theorem issueRequest_cases {s s' : Jobs} {append : Bool} {r : Int}
    (h : issueRequest s append = some (r, s')) :
    (s' = s ∧ (s.job.jQueue.contents = [] ∨ 0 < s.job.jSendr)) ∨
    (s.job.jSendr = 0 ∧ ∃ id rest n, s.job.jQueue.contents = id :: rest ∧ s.notice? id = some n ∧
      ((∃ p, n.getParse = some p ∧ append = true ∧
          s' = { s with job := { s.job with jSendr := 1, jLine := s.job.jLine ++ [p] } }) ∨
        ((n.getParse = none ∨ append = false) ∧
          s' = { s.putNotice id (unsent n).trigger.release with
            job := { s.job with jQueue := s.job.jQueue.removeHead } }))) := by
  unfold issueRequest at h
  have hcount := s.job.jQueue.contents_length
  split at h
  next h0 =>
    cases Option.some.inj h
    exact Or.inl ⟨rfl, Or.inl (List.eq_nil_of_length_eq_zero (hcount.trans h0))⟩
  next h0 =>
    split at h
    next hs =>
      cases Option.some.inj h
      exact Or.inl ⟨rfl, Or.inr hs⟩
    next hs =>
      have hs : s.job.jSendr = 0 := Nat.eq_zero_of_not_pos hs
      rw [RingQueue.getHead_eq] at h
      cases hq : s.job.jQueue.contents with
      | nil =>
        rw [hq, List.length_nil] at hcount
        exact absurd hcount.symm h0
      | cons id rest =>
        rw [hq, List.head?_cons] at h
        dsimp only at h
        refine Or.inr ⟨hs, id, rest, ?_⟩
        split at h
        · cases h
        next n hn =>
          refine ⟨n, rfl, hn, ?_⟩
          split at h
          next p hp =>
            split at h
            next happend =>
              cases Option.some.inj h
              exact Or.inl ⟨p, hp, happend, by rw [hs]⟩
            next happend =>
              split at h
              · obtain ⟨s1, h1, hs1⟩ := Option.map_eq_some_iff.mp h
                cases hs1
                obtain ⟨m, hm, rfl⟩ := dropHead_some h1
                rw [Jobs.notice?_putNotice hn, if_pos rfl] at hm
                cases hm
                refine Or.inr ⟨Or.inr (by simpa using happend), ?_⟩
                simp [unsent, hp, Jobs.putNotice]
              · cases h
          next hp =>
            obtain ⟨s1, h1, hs1⟩ := Option.map_eq_some_iff.mp h
            cases hs1
            obtain ⟨m, hm, rfl⟩ := dropHead_some h1
            rw [hn] at hm
            cases hm
            refine Or.inr ⟨Or.inl hp, ?_⟩
            simp [unsent, hp]

theorem createParseNotice_job (s : Jobs) (name : Option Text) (p : Option Words) :
    (createParseNotice s name p).2.job = s.job := by
  unfold createParseNotice
  split <;> rfl

theorem noticeToJob_some {s s' : Jobs} {id : NoticeId} {append : Bool} {r : Int}
    (h : noticeToJob s id append = some (r, s')) : ∃ n r', s.notice? id = some n ∧
      issueRequest { s.putNotice id n.hold with
        job := { s.job with jQueue := s.job.jQueue.addTail id } } append = some (r', s') := by
  obtain ⟨s1, h1, h⟩ := Option.bind_eq_some_iff.mp h
  obtain ⟨n, hn, rfl⟩ := Option.map_eq_some_iff.mp h1
  obtain ⟨⟨r', s2⟩, h2, h⟩ := Option.map_eq_some_iff.mp h
  cases h
  exact ⟨n, r', hn, h2⟩

/-- What fielding a reply comes to: nothing, or the head is dropped and a request issued. -/
theorem fieldReply_cases {s s' : Jobs} {p : Words} {append : Bool} {r : Int}
    (h : fieldReply s p append = some (r, s')) :
    (s' = s ∧ (s.job.jSendr = 0 ∨ s.job.jQueue.contents = [])) ∨
    (0 < s.job.jSendr ∧ ∃ id rest n s1, s.job.jQueue.contents = id :: rest ∧ s.notice? id = some n ∧
      s1 = { s.putNotice id (n.setParse p).trigger.release with
        job := { s.job with jQueue := s.job.jQueue.removeHead, jSendr := s.job.jSendr - 1 } } ∧
      answerHead s id p = some s1 ∧ issueRequest s1 append = some (r, s')) := by
  unfold fieldReply at h
  split at h
  next h0 =>
    cases Option.some.inj h
    exact Or.inl ⟨rfl, Or.inl h0⟩
  next h0 =>
    rw [RingQueue.getHead_eq] at h
    cases hq : s.job.jQueue.contents with
    | nil =>
      rw [hq] at h
      cases Option.some.inj h
      exact Or.inl ⟨rfl, Or.inr rfl⟩
    | cons id rest =>
      rw [hq, List.head?_cons] at h
      obtain ⟨s1, h1, h⟩ := Option.bind_eq_some_iff.mp h
      obtain ⟨n, hn, hs1⟩ := Option.map_eq_some_iff.mp h1
      exact Or.inr ⟨Nat.pos_of_ne_zero h0, id, rest, n, s1, rfl, hn, hs1.symm, h1, h⟩

end Katcp
