import Katcp.DuplexData

namespace Katcp

abbrev NoticeId := Nat

/-- `katcp_notice` as the jobs use it: its subscribers are only ever called. -/
structure Notice where
  nName : Option Text
  nQueue : RingQueue Words
  nParse : Option Words
  nTrigger : Bool
  nUse : Nat

/-- What `create_notice_katcp` makes. -/
def freshNotice (name : Option Text) : Notice := ⟨name, .empty, none, false, 0⟩

namespace Notice

def getParse (n : Notice) : Option Words :=
  match n.nParse with
  | some p => some p
  | none => n.nQueue.getHead

def setParse (n : Notice) (p : Words) : Notice := { n with nQueue := n.nQueue.clear.addTail p }

def removeParse (n : Notice) : Option Words × Notice :=
  match n.nParse with
  | some p => (some p, { n with nParse := none })
  | none => (n.nQueue.getHead, { n with nQueue := n.nQueue.removeHead })

def addParse (n : Notice) (p : Words) : Notice := { n with nQueue := n.nQueue.addTail p }

def hold (n : Notice) : Notice := { n with nUse := n.nUse + 1 }

def release (n : Notice) : Notice := { n with nUse := n.nUse - 1 }

def trigger (n : Notice) : Notice := { n with nTrigger := true }

/-- The next message for the subscribers, in `run_notices_katcp`. -/
def nextParse (n : Notice) : Notice :=
  { n with nParse := n.nQueue.getHead, nQueue := n.nQueue.removeHead }

end Notice

/-- `katcp_job`: its requests still to be answered, how many of them were sent, and what was
appended to its line. -/
structure Job where
  jQueue : RingQueue NoticeId
  jSendr : Nat
  jLine : List Words

def createJob : Job := ⟨.empty, 0, []⟩

/-- A job and the notices of the shared state, where a collected notice leaves a gap. `running`
is the notice whose subscribers `run_notices_katcp` is calling, with its limit. -/
structure Jobs where
  job : Job
  store : List (Option Notice)
  running : Option (NoticeId × Nat)

def noJobs : Jobs := ⟨createJob, [], none⟩

namespace Jobs

def notice? (s : Jobs) (id : NoticeId) : Option Notice := (s.store[id]?).join

def putNotice (s : Jobs) (id : NoticeId) (n : Notice) : Jobs :=
  { s with store := s.store.set id (some n) }

theorem notice?_lt {s : Jobs} {id : NoticeId} {n : Notice} (h : s.notice? id = some n) :
    id < s.store.length := by
  by_contra hge
  simp [notice?, List.getElem?_eq_none (Nat.le_of_not_lt hge)] at h

theorem notice?_putNotice {s : Jobs} {id : NoticeId} {n : Notice} (h : s.notice? id = some n)
    (m : Notice) (k : NoticeId) :
    (s.putNotice id m).notice? k = if k = id then some m else s.notice? k := by
  unfold notice? putNotice
  rw [List.getElem?_set]
  by_cases hk : k = id
  · subst hk
    simp [notice?_lt h]
  · simp [hk, Ne.symm hk]

@[simp] theorem putNotice_job (s : Jobs) (id : NoticeId) (n : Notice) :
    (s.putNotice id n).job = s.job := rfl

@[simp] theorem putNotice_running (s : Jobs) (id : NoticeId) (n : Notice) :
    (s.putNotice id n).running = s.running := rfl

end Jobs

def findNotice (s : Jobs) (name : Text) : Option NoticeId :=
  s.store.findIdx? fun n => n.any fun n => n.nName = some name

/-- `create_parse_notice_katcp`: a notice with this name is used again. -/
def createParseNotice (s : Jobs) (name : Option Text) (p : Option Words) : NoticeId × Jobs :=
  match (name.bind (findNotice s)).bind fun id => (s.notice? id).map (id, ·) with
  | some (id, n) => (id, s.putNotice id ((p.map n.addParse).getD n))
  | none => (s.store.length, { s with
      store := s.store ++ [some ((p.map (freshNotice name).addParse).getD (freshNotice name))] })

/-- `run_notices_katcp` when it comes to a notice that was triggered. -/
def wakeNotice (s : Jobs) (id : NoticeId) : Option Jobs :=
  match s.running, s.notice? id with
  | none, some n =>
    if n.nTrigger then some { s.putNotice id { n.nextParse with nTrigger := false } with
        running := some (id, n.nQueue.count) }
    else none
  | _, _ => none

/-- The end of a round of calls to the subscribers. -/
def nextRound (s : Jobs) : Option Jobs :=
  match s.running with
  | none => none
  | some (id, limit) =>
    match s.notice? id with
    | none => none
    | some n =>
      let n := { n with nParse := none }
      if 1 < limit then
        let next := n.nextParse
        some { s.putNotice id next with running := next.nParse.map fun _ => (id, limit - 1) }
      else some { s.putNotice id n with running := none }

/-- A subscriber takes the message away from the notice it is called for. -/
def takeParse (s : Jobs) : Option Jobs :=
  match s.running with
  | none => none
  | some (id, _) => (s.notice? id).map fun n => s.putNotice id n.removeParse.2

/-- The collection of a notice that nothing holds. -/
def collectNotice (s : Jobs) (id : NoticeId) : Option Jobs :=
  match s.notice? id with
  | none => none
  | some n =>
    if n.nUse = 0 ∧ s.running.map Prod.fst ≠ some id then some { s with store := s.store.set id none }
    else none

end Katcp
