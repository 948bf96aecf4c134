import Katcp.DuplexData
import Katcp.SerialServer

namespace Katcp

/-- What `run_flat_katcp` does with a message it has parsed: a request goes to the peer
endpoint, or to the deferred ones while another is outstanding. -/
def receiveMessage (fid : FlatId) (f : KatcpFlat) (px : Words) : KatcpFlat :=
  let f := if isReply px then { f with fDeferOwn := false } else f
  if isRequest px && f.fDeferOutside then { f with fDefer := f.fDefer.addTail px }
  else
    let f := if isRequest px then { f with fDeferOutside := true } else f
    match queueMessage f.fPeer ⟨isRequest px, px, some ⟨fid, .remote⟩⟩ with
    | some peer => { f with fPeer := peer }
    | none => { f with fState := .crashing }

/-- The loop that turns every deferred request into a failed reply. -/
def cancelDeferred : Nat → KatcpFlat → KatcpFlat
  | 0, f => f
  | n + 1, f =>
    match f.fDefer.getHead with
    | none => f
    | some pt => cancelDeferred n { f with
        fDefer := f.fDefer.removeHead
        fLine := f.fLine ++ [turnaroundExtra pt .fail (some (textOf "cancelled"))] }

/-- The next deferred request, once a reply is on its way. -/
def releaseDeferred (fid : FlatId) (f : KatcpFlat) (pt : Words) : KatcpFlat :=
  let f := { f with fDefer := f.fDefer.removeHead }
  match queueMessage f.fPeer ⟨true, pt, some ⟨fid, .remote⟩⟩ with
  | some peer => { f with fPeer := peer }
  | none => { f with fState := .crashing }

/-- `wake_endpoint_remote_flat_katcp` on a message for the network; `none` is an abort. -/
def wakeRemote (fid : FlatId) (f : KatcpFlat) (px : Words) : Option KatcpFlat :=
  match f.fState with
  | .connecting | .up | .finishing | .ending =>
    let f := { f with fLine := f.fLine ++ [px] }
    let f := if isRequest px then { f with fDeferOwn := true } else f
    if ¬ isReply px then some f
    else if ¬ f.fDeferOutside then none
    else if 0 < f.fDefer.count then
      if f.fFlushDefer < f.fDefer.count then
        some { cancelDeferred f.fDefer.count f with fDeferOutside := false }
      else f.fDefer.getHead.map (releaseDeferred fid f)
    else some { f with fDeferOutside := false }
  | _ => some f

/-- One turn of `run_endpoints_katcp` at the remote endpoint, whose wake function always
keeps the message. -/
def runRemote (fid : FlatId) (f : KatcpFlat) : Option KatcpFlat :=
  match f.fRemote.eQueue.getHead with
  | none => some f
  | some msg => (wakeRemote fid f msg.mParse).map fun f =>
      { f with fRemote := { f.fRemote with eQueue := f.fRemote.eQueue.removeHead } }

@[simp] theorem isReply_turnaround (px : Words) (code : ResultCode) (extra : Option Text) :
    isReply (turnaroundExtra px code extra) = true := by
  simp [isReply, isTypeParse, turnaroundExtra]

theorem isReply_of_isRequest {px : Words} (h : isRequest px = true) : isReply px = false := by
  simp only [isRequest, isReply, isTypeParse, decide_eq_true_eq] at *
  rw [h]
  decide

theorem queueMessage_rx {ep : KatcpEndpoint} (h : ep.eRx = true) (msg : KatcpMessage) :
    queueMessage ep msg = some { ep with eQueue := ep.eQueue.addTail msg } := by
  rw [queueMessage, if_pos h]

/-- The cancelling loop empties the queue and answers in its order. -/
theorem cancelDeferred_all {n : Nat} {f : KatcpFlat} (hn : f.fDefer.contents.length = n) :
    ∃ d, d.contents = [] ∧ cancelDeferred n f = { f with
      fDefer := d
      fLine := f.fLine ++ f.fDefer.contents.map
        fun pt => turnaroundExtra pt .fail (some (textOf "cancelled")) } := by
  induction n generalizing f with
  | zero =>
    have hnil := List.eq_nil_of_length_eq_zero hn
    exact ⟨f.fDefer, hnil, by simp [cancelDeferred, hnil]⟩
  | succ n ih =>
    obtain ⟨pt, rest, hcons⟩ := List.exists_cons_of_length_eq_add_one hn
    have hhead : f.fDefer.getHead = some pt := by rw [RingQueue.getHead_eq, hcons]; rfl
    obtain ⟨d, hd, hloop⟩ := ih (f := { f with
        fDefer := f.fDefer.removeHead
        fLine := f.fLine ++ [turnaroundExtra pt .fail (some (textOf "cancelled"))] }) (by
      rw [RingQueue.contents_removeHead, hcons, List.tail_cons]
      rw [hcons, List.length_cons] at hn
      omega)
    refine ⟨d, hd, ?_⟩
    rw [cancelDeferred, hhead]
    simp only
    rw [hloop]
    simp [hcons]

/-- A message received by a flat that is up: deferred, or put into the queue of the peer. -/
theorem receiveMessage_up (fid : FlatId) {f : KatcpFlat} (hrx : f.fPeer.eRx = true) (px : Words) :
    (isRequest px = true ∧ f.fDeferOutside = true ∧
      receiveMessage fid f px = { f with fDefer := f.fDefer.addTail px }) ∨
    (isRequest px = true ∧ f.fDeferOutside = false ∧ receiveMessage fid f px = { f with
      fDeferOutside := true
      fPeer := { f.fPeer with eQueue := f.fPeer.eQueue.addTail ⟨true, px, some ⟨fid, .remote⟩⟩ } }) ∨
    (isRequest px = false ∧ ∃ own, receiveMessage fid f px = { f with
      fDeferOwn := own
      fPeer := { f.fPeer with eQueue := f.fPeer.eQueue.addTail ⟨false, px, some ⟨fid, .remote⟩⟩ } }) := by
  unfold receiveMessage
  cases hreq : isRequest px with
  | true =>
    have hrep := isReply_of_isRequest hreq
    cases hflag : f.fDeferOutside with
    | true => simp [hrep, hflag]
    | false => simp [hrep, hflag, queueMessage_rx hrx]
  | false =>
    refine Or.inr (Or.inr ⟨rfl, ?_⟩)
    cases isReply px with
    | true => exact ⟨false, by simp [queueMessage_rx hrx]⟩
    | false => exact ⟨f.fDeferOwn, by simp [queueMessage_rx hrx]⟩

/-- What a reply written for the network leads to while the flat is up. -/
theorem wakeRemote_reply (fid : FlatId) {f : KatcpFlat} {px : Words} (hup : f.fState = .up)
    (hrx : f.fPeer.eRx = true) (hpx : isReply px = true) (hflag : f.fDeferOutside = true) :
    (f.fDefer.contents = [] ∧
      wakeRemote fid f px = some { f with fLine := f.fLine ++ [px], fDeferOutside := false }) ∨
    (f.fFlushDefer < f.fDefer.count ∧ ∃ d, d.contents = [] ∧ wakeRemote fid f px = some { f with
      fDefer := d
      fDeferOutside := false
      fLine := f.fLine ++ [px] ++ f.fDefer.contents.map
        fun pt => turnaroundExtra pt .fail (some (textOf "cancelled")) }) ∨
    (¬ f.fFlushDefer < f.fDefer.count ∧ ∃ pt rest, f.fDefer.contents = pt :: rest ∧
      wakeRemote fid f px = some { f with
        fDefer := f.fDefer.removeHead
        fLine := f.fLine ++ [px]
        fPeer := { f.fPeer with
          eQueue := f.fPeer.eQueue.addTail ⟨true, pt, some ⟨fid, .remote⟩⟩ } }) := by
  have hreq : isRequest px = false := by
    cases h : isRequest px with
    | false => rfl
    | true => rw [isReply_of_isRequest h] at hpx; cases hpx
  have hcount := f.fDefer.contents_length
  unfold wakeRemote
  simp only [hup, hreq, hpx, hflag, not_true_eq_false, Bool.false_eq_true, ↓reduceIte]
  cases hd : f.fDefer.contents with
  | nil =>
    rw [hd, List.length_nil] at hcount
    simp [← hcount]
  | cons pt rest =>
    rw [hd, List.length_cons] at hcount
    rw [if_pos (by omega)]
    by_cases hlimit : f.fFlushDefer < f.fDefer.count
    · obtain ⟨d, hnil, hloop⟩ := cancelDeferred_all (n := f.fDefer.count)
        (f := { f with fState := .up, fDeferOutside := true, fLine := f.fLine ++ [px] }) (by simp)
      refine Or.inr (Or.inl ⟨hlimit, d, hnil, ?_⟩)
      rw [if_pos hlimit, hloop]
      simp [hd]
    · refine Or.inr (Or.inr ⟨hlimit, pt, rest, rfl, ?_⟩)
      rw [if_neg hlimit, RingQueue.getHead_eq, hd]
      simp [releaseDeferred, queueMessage_rx hrx]

theorem wakeRemote_other (fid : FlatId) {f : KatcpFlat} {px : Words} (hup : f.fState = .up)
    (hpx : isReply px = false) : ∃ own, wakeRemote fid f px =
      some { f with fLine := f.fLine ++ [px], fDeferOwn := own } := by
  unfold wakeRemote
  cases isRequest px with
  | true => exact ⟨true, by simp [hup, hpx]⟩
  | false => exact ⟨f.fDeferOwn, by simp [hup, hpx]⟩

section

open SerialServer

/-- A connection and the requests that its handlers took and still have to answer. -/
structure Pipeline where
  flat : KatcpFlat
  held : List Words

/-- A request that came in over the connection. -/
def fromOutside (fid : FlatId) (msg : KatcpMessage) : Bool :=
  isRequest msg.mParse && msg.mFrom = some ⟨fid, .remote⟩

def popPeer (f : KatcpFlat) : KatcpFlat :=
  { f with fPeer := { f.fPeer with eQueue := f.fPeer.eQueue.removeHead } }

/-- The end of a turn of `run_endpoints_katcp` at the peer endpoint, for a request from
outside: the reply, where the result asks for one, goes back to the remote endpoint. -/
def settleOutside (fid : FlatId) (f : KatcpFlat) (px : Words) : KatcpResult → KatcpFlat
  | .done code =>
    match queueMessage f.fRemote ⟨false, turnaroundExtra px code none, some ⟨fid, .peer⟩⟩ with
    | some remote => { popPeer f with fRemote := remote }
    | none => popPeer f
  | .own => popPeer f
  | .yield => f
  | .pause => f

def settleHeld (held : List Words) (px : Words) : KatcpResult → List Words
  | .own => held ++ [px]
  | _ => held

abbrev PipelineEvent := Event Words Words

def settleEvents (px : Words) : KatcpResult → List PipelineEvent
  | .done code => [.answered px (turnaroundExtra px code none)]
  | _ => []

/-- The reply to a request that is cancelled. -/
def cancelled (px : Words) : Words := turnaroundExtra px .fail (some (textOf "cancelled"))

/-- The deferred requests that a turn at the remote endpoint cancels. -/
def cancelEvents (f : KatcpFlat) : List PipelineEvent :=
  if (f.fRemote.eQueue.getHead.any fun msg => isReply msg.mParse) && f.fFlushDefer < f.fDefer.count then
    f.fDefer.contents.map fun px => .answered px (cancelled px)
  else []

/-- The network loop, the two endpoints and the handlers, in any order. -/
inductive PipelineStep (fid : FlatId) : Pipeline → List PipelineEvent → Pipeline → Prop
  | arrives (p : Pipeline) (px : Words) : p.flat.fState = .up →
      PipelineStep fid p (if isRequest px then [.received px] else [])
        { p with flat := receiveMessage fid p.flat px }
  | handled (p : Pipeline) (msg : KatcpMessage) (result : KatcpResult) :
      p.flat.fPeer.eQueue.getHead = some msg → fromOutside fid msg = true →
      PipelineStep fid p (settleEvents msg.mParse result)
        ⟨settleOutside fid p.flat msg.mParse result, settleHeld p.held msg.mParse result⟩
  | passed (p : Pipeline) (msg : KatcpMessage) : p.flat.fPeer.eQueue.getHead = some msg →
      fromOutside fid msg = false → PipelineStep fid p [] { p with flat := popPeer p.flat }
  | replied (p : Pipeline) (before after : List Words) (px reply : Words) (remote : KatcpEndpoint) :
      p.held = before ++ px :: after → isReply reply = true →
      queueMessage p.flat.fRemote ⟨false, reply, some ⟨fid, .peer⟩⟩ = some remote →
      PipelineStep fid p [.answered px reply]
        ⟨{ p.flat with fRemote := remote }, before ++ after⟩
  | posted (p : Pipeline) (msg : KatcpMessage) (remote : KatcpEndpoint) : isReply msg.mParse = false →
      queueMessage p.flat.fRemote msg = some remote →
      PipelineStep fid p [] { p with flat := { p.flat with fRemote := remote } }
  | delivered (p : Pipeline) (msg : KatcpMessage) (peer : KatcpEndpoint) :
      fromOutside fid msg = false → queueMessage p.flat.fPeer msg = some peer →
      PipelineStep fid p [] { p with flat := { p.flat with fPeer := peer } }
  | written (p : Pipeline) (f : KatcpFlat) : runRemote fid p.flat = some f →
      PipelineStep fid p (cancelEvents p.flat) { p with flat := f }

inductive PipelineRuns (fid : FlatId) : Pipeline → List PipelineEvent → Prop
  | start (name : Text) (limit : Nat) : PipelineRuns fid ⟨createFlat name .up limit, []⟩ []
  | step {p p' : Pipeline} {past events : List PipelineEvent} : PipelineRuns fid p past →
      PipelineStep fid p events p' → PipelineRuns fid p' (past ++ events)

/-- The requests from outside that wait at the peer endpoint. -/
def outsideQueued (fid : FlatId) (q : RingQueue KatcpMessage) : List Words :=
  (q.contents.filter (fromOutside fid)).map KatcpMessage.mParse

def repliesQueued (q : RingQueue KatcpMessage) : List Words :=
  (q.contents.map KatcpMessage.mParse).filter isReply

/-- The connection as a server that works on one request at a time. -/
def served (fid : FlatId) (p : Pipeline) : SerialServer Words Words where
  waiting := outsideQueued fid p.flat.fPeer.eQueue
  held := p.held
  deferred := p.flat.fDefer.contents
  ready := repliesQueued p.flat.fRemote.eQueue
  sent := p.flat.fLine.filter isReply
  busy := p.flat.fDeferOutside

/-- The invariant of a connection, with the events of its past. -/
structure InOrder (fid : FlatId) (p : Pipeline) (log : List PipelineEvent) : Prop where
  up : p.flat.fState = .up
  peerRx : p.flat.fPeer.eRx = true
  remoteRx : p.flat.fRemote.eRx = true
  deferred : ∀ px ∈ p.flat.fDefer.contents, isRequest px = true
  valid : Valid (served fid p) log

@[simp] theorem outsideQueued_addTail (fid : FlatId) (q : RingQueue KatcpMessage) (msg : KatcpMessage) :
    outsideQueued fid (q.addTail msg) =
      outsideQueued fid q ++ if fromOutside fid msg then [msg.mParse] else [] := by
  cases h : fromOutside fid msg <;> simp [outsideQueued, h]

@[simp] theorem repliesQueued_addTail (q : RingQueue KatcpMessage) (msg : KatcpMessage) :
    repliesQueued (q.addTail msg) = repliesQueued q ++ if isReply msg.mParse then [msg.mParse] else [] := by
  cases h : isReply msg.mParse <;> simp [repliesQueued, h]

theorem outsideQueued_head {fid : FlatId} {q : RingQueue KatcpMessage} {msg : KatcpMessage}
    (h : q.getHead = some msg) : outsideQueued fid q =
      if fromOutside fid msg then msg.mParse :: outsideQueued fid q.removeHead
      else outsideQueued fid q.removeHead := by
  rw [RingQueue.getHead_eq] at h
  obtain ⟨rest, hcons⟩ := List.head?_eq_some_iff.mp h
  cases hmsg : fromOutside fid msg <;> simp [outsideQueued, hcons, hmsg]

theorem repliesQueued_head {q : RingQueue KatcpMessage} {msg : KatcpMessage}
    (h : q.getHead = some msg) : repliesQueued q =
      if isReply msg.mParse then msg.mParse :: repliesQueued q.removeHead
      else repliesQueued q.removeHead := by
  rw [RingQueue.getHead_eq] at h
  obtain ⟨rest, hcons⟩ := List.head?_eq_some_iff.mp h
  cases hmsg : isReply msg.mParse <;> simp [repliesQueued, hcons, hmsg]

theorem queueMessage_some {ep ep' : KatcpEndpoint} {msg : KatcpMessage} (h : queueMessage ep msg = some ep') :
    ep.eRx = true ∧ ep' = { ep with eQueue := ep.eQueue.addTail msg } := by
  unfold queueMessage at h
  split at h
  next hrx => exact ⟨hrx, (Option.some.inj h).symm⟩
  next => cases h

theorem createFlat_inOrder (fid : FlatId) (name : Text) (limit : Nat) :
    InOrder fid ⟨createFlat name .up limit, []⟩ [] where
  up := rfl
  peerRx := rfl
  remoteRx := rfl
  deferred := fun _ hpx => by cases hpx
  valid := ⟨rfl, fun _ => rfl, rfl, rfl⟩

variable {fid : FlatId} {p : Pipeline} {log : List PipelineEvent}

theorem InOrder.arrives (h : InOrder fid p log) (px : Words) :
    InOrder fid { p with flat := receiveMessage fid p.flat px }
      (log ++ if isRequest px then [.received px] else []) := by
  rcases receiveMessage_up fid h.peerRx px with ⟨hpx, hflag, hreceive⟩ | ⟨hpx, hflag, hreceive⟩ | ⟨hpx, own, hreceive⟩
  · rw [hreceive, if_pos hpx]
    refine ⟨h.up, h.peerRx, h.remoteRx, ?_, ?_⟩
    · intro qx hqx
      rcases List.mem_append.mp (RingQueue.contents_addTail _ px ▸ hqx) with hqx | hqx
      · exact h.deferred qx hqx
      · rwa [List.mem_singleton.mp hqx]
    · simpa [served] using h.valid.defer hflag px
  · rw [hreceive, if_pos hpx]
    refine ⟨h.up, h.peerRx, h.remoteRx, h.deferred, ?_⟩
    simpa [served, fromOutside, hpx] using h.valid.start hflag px
  · rw [hreceive, if_neg (by simp [hpx]), List.append_nil]
    refine ⟨h.up, h.peerRx, h.remoteRx, h.deferred, ?_⟩
    simpa [served, fromOutside, hpx] using h.valid

theorem InOrder.handled (h : InOrder fid p log) {msg : KatcpMessage}
    (hhead : p.flat.fPeer.eQueue.getHead = some msg) (hmsg : fromOutside fid msg = true)
    (result : KatcpResult) :
    InOrder fid ⟨settleOutside fid p.flat msg.mParse result, settleHeld p.held msg.mParse result⟩
      (log ++ settleEvents msg.mParse result) := by
  have hwaiting := @outsideQueued_head fid _ _ hhead
  rw [hmsg, if_pos rfl] at hwaiting
  cases result with
  | done code =>
    have hqueue := queueMessage_rx h.remoteRx ⟨false, turnaroundExtra msg.mParse code none, some ⟨fid, .peer⟩⟩
    simp only [settleOutside, hqueue, settleHeld, settleEvents]
    refine ⟨h.up, h.peerRx, h.remoteRx, h.deferred, ?_⟩
    simpa [served, popPeer] using h.valid.finish hwaiting (turnaroundExtra msg.mParse code none)
  | own =>
    show InOrder fid _ (log ++ [])
    rw [List.append_nil]
    exact ⟨h.up, h.peerRx, h.remoteRx, h.deferred, h.valid.take hwaiting⟩
  | yield => exact (List.append_nil log).symm ▸ h
  | pause => exact (List.append_nil log).symm ▸ h

theorem InOrder.written (h : InOrder fid p log) {f : KatcpFlat} (hrun : runRemote fid p.flat = some f) :
    InOrder fid { p with flat := f } (log ++ cancelEvents p.flat) := by
  unfold runRemote at hrun
  split at hrun
  next hnone =>
    cases Option.some.inj hrun
    rwa [cancelEvents, hnone, if_neg (by simp), List.append_nil]
  next msg hhead =>
    obtain ⟨f1, h1, rfl⟩ := Option.map_eq_some_iff.mp hrun
    have hready := repliesQueued_head hhead
    cases hmsg : isReply msg.mParse with
    | false =>
      obtain ⟨own, hwake⟩ := wakeRemote_other fid h.up hmsg
      rw [hmsg, if_neg (by decide)] at hready
      rw [hwake] at h1
      cases h1
      rw [cancelEvents, hhead, if_neg (by simp [hmsg]), List.append_nil]
      refine ⟨h.up, h.peerRx, h.remoteRx, h.deferred, ?_⟩
      have hvalid := h.valid
      simp only [served, hready] at hvalid
      simpa [served, hmsg] using hvalid
    | true =>
      rw [hmsg, if_pos rfl] at hready
      have hflag : p.flat.fDeferOutside = true :=
        h.valid.busy_of_pos (by simp only [served, hready, List.length_cons]; omega)
      have hevents : cancelEvents p.flat = if p.flat.fFlushDefer < p.flat.fDefer.count then
          p.flat.fDefer.contents.map fun px => .answered px (cancelled px) else [] := by
        simp [cancelEvents, hhead, hmsg]
      rw [hevents]
      rcases wakeRemote_reply fid h.up h.peerRx hmsg hflag with
        ⟨hd, hwake⟩ | ⟨hlimit, d, hd, hwake⟩ | ⟨hlimit, pt, rest, hd, hwake⟩
      · rw [hwake] at h1
        cases h1
        have hcount := p.flat.fDefer.contents_length
        rw [hd, List.length_nil] at hcount
        rw [if_neg (by omega), List.append_nil]
        refine ⟨h.up, h.peerRx, h.remoteRx, h.deferred, ?_⟩
        simpa [served, hmsg] using h.valid.sendLast hready hd
      · rw [hwake] at h1
        cases h1
        rw [if_pos hlimit]
        refine ⟨h.up, h.peerRx, h.remoteRx, (fun px hpx => by rw [hd] at hpx; cases hpx), ?_⟩
        have hall : (p.flat.fDefer.contents.map cancelled).filter isReply =
            p.flat.fDefer.contents.map cancelled := by
          rw [List.filter_eq_self]
          intro reply hreply
          obtain ⟨px, _, rfl⟩ := List.mem_map.mp hreply
          exact isReply_turnaround px _ _
        have hsent := h.valid.sendCancel hready cancelled
        simp only [served] at hsent ⊢
        rw [List.filter_append, List.filter_append, hd]
        simp only [List.filter_cons, hmsg, if_true, List.filter_nil]
        exact hall.symm ▸ hsent
      · rw [hwake] at h1
        cases h1
        rw [if_neg hlimit, List.append_nil]
        have hpt : isRequest pt = true := h.deferred pt (hd ▸ List.mem_cons_self)
        refine ⟨h.up, h.peerRx, h.remoteRx, fun px hpx => h.deferred px ?_, ?_⟩
        · exact List.mem_of_mem_tail (RingQueue.contents_removeHead _ ▸ hpx)
        simpa [served, hmsg, fromOutside, hpt, hd] using h.valid.sendNext hready hd

theorem InOrder.step {p' : Pipeline} {events : List PipelineEvent} (h : InOrder fid p log)
    (hstep : PipelineStep fid p events p') : InOrder fid p' (log ++ events) := by
  cases hstep with
  | arrives px _ => exact h.arrives px
  | handled msg result hhead hmsg => exact h.handled hhead hmsg result
  | passed msg hhead hmsg =>
    have hwaiting := @outsideQueued_head fid _ _ hhead
    rw [hmsg, if_neg (by decide)] at hwaiting
    rw [List.append_nil]
    refine ⟨h.up, h.peerRx, h.remoteRx, h.deferred, ?_⟩
    have hvalid := h.valid
    simp only [served, hwaiting] at hvalid
    exact hvalid
  | replied before after px reply remote hheld hreply hqueue =>
    obtain ⟨_, rfl⟩ := queueMessage_some hqueue
    refine ⟨h.up, h.peerRx, h.remoteRx, h.deferred, ?_⟩
    simpa [served, hreply] using h.valid.answer hheld reply
  | posted msg remote hmsg hqueue =>
    obtain ⟨_, rfl⟩ := queueMessage_some hqueue
    rw [List.append_nil]
    refine ⟨h.up, h.peerRx, h.remoteRx, h.deferred, ?_⟩
    simpa [served, hmsg] using h.valid
  | delivered msg peer hmsg hqueue =>
    obtain ⟨_, rfl⟩ := queueMessage_some hqueue
    rw [List.append_nil]
    refine ⟨h.up, h.peerRx, h.remoteRx, h.deferred, ?_⟩
    simpa [served, hmsg] using h.valid
  | written f hrun => exact h.written hrun

theorem PipelineRuns.inOrder (h : PipelineRuns fid p log) : InOrder fid p log := by
  induction h with
  | start name limit => exact createFlat_inOrder fid name limit
  | step _ hstep ih => exact ih.step hstep

/-- A turn at the remote endpoint never aborts. -/
theorem InOrder.runs (h : InOrder fid p log) : ∃ f, runRemote fid p.flat = some f := by
  unfold runRemote
  cases hhead : p.flat.fRemote.eQueue.getHead with
  | none => exact ⟨_, rfl⟩
  | some msg =>
    cases hmsg : isReply msg.mParse with
    | false =>
      obtain ⟨own, hwake⟩ := wakeRemote_other fid h.up hmsg
      simp only [hwake]
      exact ⟨_, rfl⟩
    | true =>
      have hready := repliesQueued_head hhead
      rw [hmsg, if_pos rfl] at hready
      have hflag : p.flat.fDeferOutside = true :=
        h.valid.busy_of_pos (by simp only [served, hready, List.length_cons]; omega)
      rcases wakeRemote_reply fid h.up h.peerRx hmsg hflag with
        ⟨_, hwake⟩ | ⟨_, _, _, hwake⟩ | ⟨_, _, _, _, hwake⟩
      all_goals
        simp only [hwake]
        exact ⟨_, rfl⟩

/-- The requests whose reply was not written yet, the deferred ones apart. -/
def inProgress (fid : FlatId) (p : Pipeline) : Nat :=
  (outsideQueued fid p.flat.fPeer.eQueue).length + p.held.length +
    (repliesQueued p.flat.fRemote.eQueue).length

/-- One request at a time, each answered once, and the replies in the order of the requests. -/
structure PipelineCorrect (fid : FlatId) (p : Pipeline) (log : List PipelineEvent) : Prop where
  one : inProgress fid p ≤ 1
  flag : p.flat.fDeferOutside = true ↔ inProgress fid p = 1 ∨ p.flat.fDefer.contents ≠ []
  requests : received log = (answered log).map Prod.fst ++
    outsideQueued fid p.flat.fPeer.eQueue ++ p.held ++ p.flat.fDefer.contents
  replies : (answered log).map Prod.snd =
    p.flat.fLine.filter isReply ++ repliesQueued p.flat.fRemote.eQueue
  rest : p.flat.fDeferOutside = false → received log = (answered log).map Prod.fst ∧
    p.flat.fLine.filter isReply = (answered log).map Prod.snd
  writes : ∃ f, runRemote fid p.flat = some f

theorem pipeline_in_order (h : PipelineRuns fid p log) : PipelineCorrect fid p log := by
  have hinv := h.inOrder
  have hone : inProgress fid p = if p.flat.fDeferOutside then 1 else 0 := hinv.valid.one
  refine ⟨?_, ?_, hinv.valid.requests, hinv.valid.replies, hinv.valid.served, hinv.runs⟩
  · rw [hone]
    split <;> omega
  · constructor
    · intro hflag
      rw [hflag, if_pos rfl] at hone
      exact Or.inl hone
    · intro hbusy
      cases hflag : p.flat.fDeferOutside with
      | true => rfl
      | false =>
        rw [hflag, if_neg (by decide)] at hone
        rcases hbusy with hbusy | hbusy
        · omega
        · exact absurd (hinv.valid.idle hflag) hbusy

/-- The second of two requests is deferred, and goes to its handler behind the first reply. -/
theorem pipeline_in_order_two : ∃ p, PipelineRuns 0 p [.received [textOf "?a"], .received [textOf "?b"],
      .answered [textOf "?a"] [textOf "!a", textOf "ok"]] ∧
    PipelineCorrect 0 p [.received [textOf "?a"], .received [textOf "?b"],
      .answered [textOf "?a"] [textOf "!a", textOf "ok"]] ∧
    outsideQueued 0 p.flat.fPeer.eQueue = [[textOf "?b"]] := by
  have hstart := @PipelineRuns.start 0 (textOf "client") flushDefer
  have hfirst := hstart.step (.arrives _ [textOf "?a"] rfl)
  have hsecond := hfirst.step (.arrives _ [textOf "?b"] rfl)
  have hhandled := hsecond.step (.handled _ _ (.done .ok) rfl rfl)
  have hwritten := hhandled.step (.written _ _ rfl)
  exact ⟨_, hwritten, pipeline_in_order hwritten, rfl⟩

end

end Katcp
